import Elektra.KeySet.Compare

/-!
# Relations of keys

`keyIsDirectBelow` looks for the NUL behind the part that is added; a key of a namespace and a
cascading one have their parts at different places, and only one of the two ways is provided for.

* `nulFrom`, `keyIsDirectBelow`, `keyRel`: `none` is a read behind the end of a name;
* `keyIsBelowReads`: `keyIsBelow` with the bytes that it reads, **`keyIsBelowReads_eq`**;
* `Path.DirectlyAbove`, `nulFrom_part`, **`keyIsDirectBelow_eq`**, **`keyRel_eq`**;
* **`keys_related`**.
-/

namespace Elektra

/-- `strrchr (s + i, '\0')`: the first NUL from `i` on, if it is in the buffer. -/
def nulFrom (s : Str) (i : ℕ) : Option ℕ := ((s.drop i).findIdx? (· = 0)).map (i + ·)

def keyIsDirectBelow (key check : Key) : Option Bool :=
  if keyIsBelow key check = false then some false
  else
    let checkname := keyUnescapedName check
    let keysize := key.keyUSize
    let checksize := check.keyUSize
    let startPtr :=
      if (keyName key).head? ≠ some pathSeparator then nulFrom checkname keysize
      else if (keyName check).head? ≠ some pathSeparator then
        (nulFrom checkname 0).bind fun startPtr => nulFrom checkname (startPtr + keysize)
      else nulFrom checkname keysize
    startPtr.map fun startPtr => startPtr = checksize - 1

def keyIsUser (key : Key) : Bool := (key.key.map keyNameIsUser).getD false

def keyIsSystem (key : Key) : Bool := (key.key.map keyNameIsSystem).getD false

def keyRel (key check : Key) : Option ℤ :=
  if key.key = none ∨ check.key = none then some (-1)
  else if keyCmp (some key) (some check) = .eq then some 0
  else (keyIsDirectBelow key check).bind fun direct =>
    if direct then some 1
    else if keyIsBelow key check then some 2
    else if keyIsUser key && keyIsUser check then some (-3)
    else if keyIsSystem key && keyIsSystem check then some (-3)
    else some (-2)

/-! ## The reads of keyIsBelow -/

/-- The test `belowTest`, with its read of `ucheckname`. -/
def belowReads (keyname checkname : Str) (keysize : ℕ) (ucheckname : Str)
    (ukeysize uchecksize : ℕ) : Option Bool :=
  if strncmp0 keyname checkname (keysize - 1) then
    ucheckname[ukeysize - 1]?.map fun c => c = 0 && ukeysize < uchecksize
  else some false

/-- `keyIsBelow` as far as it reads what is in the buffers. -/
def keyIsBelowReads (key check : Key) : Option Bool :=
  let keyname := keyName key
  let checkname := keyName check
  let ukeyname := keyUnescapedName key
  let ucheckname := keyUnescapedName check
  let keysize := key.keySize
  let checksize := check.keySize
  let ukeysize := key.keyUSize
  let uchecksize := check.keyUSize
  if checkname = [pathSeparator] then some false
  else if keyname = [pathSeparator] then
    some (checkname.head? = some pathSeparator || checkname.contains pathSeparator)
  else if checkname.head? = some pathSeparator then
    if keyname.head? = some pathSeparator then
      belowReads keyname checkname keysize ucheckname ukeysize uchecksize
    else
      let size := (keyNameGetOneLevel keyname).2
      if size = keysize then some true
      else
        let keyname := keyname.drop size
        let keysize := keyname.length + 1
        (nulFrom ukeyname 0).bind fun ptr =>
          belowReads keyname checkname keysize ucheckname (ukeysize - ptr) uchecksize
  else if keyname.head? = some pathSeparator then
    let size := (keyNameGetOneLevel checkname).2
    if size = checksize then some false
    else
      let checkname := checkname.drop size
      (nulFrom ucheckname 0).bind fun ptr =>
        belowReads keyname checkname keysize (ucheckname.drop ptr) ukeysize (uchecksize - ptr)
  else belowReads keyname checkname keysize ucheckname ukeysize uchecksize

/-- Where a name starts with another one, its unescaped name is not shorter. -/
theorem terminate_length : ∀ {ps qs : List CString}, join (escapes ps) <+: join (escapes qs) →
    (terminate ps).length ≤ (terminate qs).length
  | [], _, _ => Nat.zero_le _
  | p :: ps, [], h => by simp [escapes] at h
  | p :: ps, q :: qs, h => by
    obtain ⟨rfl, hrest⟩ | ⟨rfl, hlt⟩ := join_prefix_cons h
    · have := terminate_length hrest
      simp only [terminate_cons, List.length_append, List.length_cons]
      omega
    · simp only [terminate_cons, terminate_nil, List.length_append, List.length_cons, List.length_nil]
      omega

theorem belowReads_eq {keyname checkname ucheckname : Str} {keysize ukeysize uchecksize : ℕ}
    (h : strncmp0 keyname checkname (keysize - 1) = true → ukeysize - 1 < ucheckname.length) :
    belowReads keyname checkname keysize ucheckname ukeysize uchecksize =
      some (belowTest keyname checkname keysize ucheckname ukeysize uchecksize) := by
  unfold belowReads belowTest
  split_ifs with hn
  · rw [List.getElem?_eq_getElem (h hn), hn]
    simp
  · rw [Bool.eq_false_iff.mpr hn, Bool.false_and]

theorem belowReads_parts {ps qs : List CString} {keysize ukeysize uchecksize : ℕ}
    (h1 : keysize = (join (escapes ps)).length + 1) (h2 : ukeysize = (terminate ps).length + 1) :
    belowReads (join (escapes ps)) (join (escapes qs)) keysize (0 :: terminate qs) ukeysize uchecksize =
      some (belowTest (join (escapes ps)) (join (escapes qs)) keysize (0 :: terminate qs) ukeysize
        uchecksize) := by
  refine belowReads_eq fun h => ?_
  subst h1 h2
  rw [Nat.add_sub_cancel, strncmp0_length] at h
  have := terminate_length h
  rw [List.length_cons]
  omega

theorem belowReads_ns {m m' : Namespace} {ps qs : List CString} {keysize ukeysize uchecksize : ℕ}
    (h1 : keysize = (m.name ++ join (escapes ps)).length + 1)
    (h2 : ukeysize = (m.name ++ 0 :: terminate ps).length) :
    belowReads (m.name ++ join (escapes ps)) (m'.name ++ join (escapes qs)) keysize
        (m'.name ++ 0 :: terminate qs) ukeysize uchecksize =
      some (belowTest (m.name ++ join (escapes ps)) (m'.name ++ join (escapes qs)) keysize
        (m'.name ++ 0 :: terminate qs) ukeysize uchecksize) := by
  refine belowReads_eq fun h => ?_
  subst h1 h2
  rw [Nat.add_sub_cancel, strncmp0_length] at h
  obtain rfl := Namespace.eq_of_prefix h
  have := terminate_length ((List.prefix_append_right_inj _).mp h)
  simp only [List.length_append, List.length_cons]
  omega

theorem nulFrom_part (pre t rest : Str) (ht : 0 ∉ t) :
    nulFrom (pre ++ (t ++ 0 :: rest)) pre.length = some (pre.length + t.length) := by
  have hidx : (t ++ 0 :: rest).findIdx? (· = 0) = some t.length := by
    have hnone : t.findIdx? (· = 0) = none := by
      rw [List.findIdx?_eq_none_iff]
      rintro c hc
      exact decide_eq_false fun h0 => ht (h0 ▸ hc)
    have hzero : (0 :: rest).findIdx? (· = 0) = some 0 := by
      rw [List.findIdx?_cons]
      rfl
    rw [List.findIdx?_append, hnone, hzero]
    simp
  rw [nulFrom, List.drop_left, hidx]
  rfl

theorem nulFrom_root (m : Namespace) (s : Str) : nulFrom (m.name ++ 0 :: s) 0 = some m.name.length := by
  have h := nulFrom_part [] m.name s m.nul_name
  simpa using h

section Names

variable {key check : Key} {P Q : Path}

/-- **Every byte that `keyIsBelow` reads is in the buffers.** -/
theorem keyIsBelowReads_eq (hk : HasName key P) (hc : HasName check Q) :
    keyIsBelowReads key check = some (keyIsBelow key check) := by
  have hkn : keyName key = P.name := by simp [keyName, hk.key]
  have hcn : keyName check = Q.name := by simp [keyName, hc.key]
  have hku : keyUnescapedName key = P.uname := by simp [keyUnescapedName, hk.key, hk.ukey]
  have hcu : keyUnescapedName check = Q.uname := by simp [keyUnescapedName, hc.key, hc.ukey]
  simp only [keyIsBelowReads, keyIsBelow, hkn, hcn, hku, hcu, hk.keySize, hc.keySize, hk.keyUSize,
    hc.keyUSize, P.head_name, Q.head_name, Path.name_eq_slash]
  by_cases hQ : Q.stem = []
  · rw [if_pos hQ, if_pos hQ]
  by_cases hP : P.stem = []
  · rw [if_neg hQ, if_neg hQ, if_pos hP, if_pos hP]
  rw [if_neg hQ, if_neg hQ, if_neg hP, if_neg hP]
  obtain ⟨r, ps⟩ := P
  obtain ⟨r', qs⟩ := Q
  cases r with
  | cascading =>
    have hps : ps ≠ [] := fun h => hP (Path.stem_eq_nil.mpr ⟨rfl, h⟩)
    rw [Path.name_cascading hps, Path.uname_cascading]
    cases r' with
    | cascading =>
      have hqs : qs ≠ [] := fun h => hQ (Path.stem_eq_nil.mpr ⟨rfl, h⟩)
      simp only [if_true, Path.name_cascading hqs, Path.uname_cascading]
      exact belowReads_parts rfl rfl
    | ns m =>
      have hsize : ¬ m.name.length = (m.name ++ join (escapes qs)).length + 1 := by
        rw [List.length_append]; omega
      simp only [reduceCtorEq, if_true, if_false, Path.name_ns, Path.uname_ns, oneLevel_root, hsize,
        nulFrom_root, List.drop_left, Option.bind_some, takeWhile_root]
      exact belowReads_parts rfl rfl
  | ns m =>
    rw [Path.name_ns, Path.uname_ns]
    cases r' with
    | cascading =>
      have hqs : qs ≠ [] := fun h => hQ (Path.stem_eq_nil.mpr ⟨rfl, h⟩)
      have hsize : ¬ m.name.length = (m.name ++ join (escapes ps)).length + 1 := by
        rw [List.length_append]; omega
      simp only [reduceCtorEq, if_true, if_false, oneLevel_root, hsize, nulFrom_root, List.drop_left,
        Option.bind_some, takeWhile_root, Path.name_cascading hqs, Path.uname_cascading]
      refine belowReads_parts rfl ?_
      rw [List.length_append, List.length_cons]; omega
    | ns m' =>
      simp only [reduceCtorEq, if_false, Path.name_ns, Path.uname_ns]
      exact belowReads_ns rfl rfl

end Names

/-! ## Direct relations -/

/-- `Q` has exactly one more part. -/
def Path.DirectlyAbove (P Q : Path) : Prop := P.Above Q ∧ Q.parts.length = P.parts.length + 1

instance (P Q : Path) : Decidable (P.DirectlyAbove Q) := inferInstanceAs (Decidable (_ ∧ _))

/-- A key of a namespace and a cascading key below it. -/
def Path.Crossed (P Q : Path) : Prop := P.root ≠ .cascading ∧ Q.root = .cascading ∧ P.Above Q

/-- The test of `keyIsDirectBelow`: nothing stands behind the part that is added. -/
theorem nulFrom_last (pre : Str) (s : CString) (rest : List CString) :
    (nulFrom (pre ++ terminate (s :: rest)) pre.length).map
        (fun startPtr => decide (startPtr = (pre ++ terminate (s :: rest)).length - 1)) =
      some (decide (rest = [])) := by
  rw [terminate_cons, nulFrom_part _ _ _ s.2, Option.map_some]
  congr 2
  rw [eq_iff_iff, List.length_append, List.length_append, List.length_cons]
  have hrest : (terminate rest).length = 0 ↔ rest = [] := by
    cases rest <;> simp
  rw [← hrest]
  omega

section Relations

variable {key check : Key} {P Q : Path}

/-- **`keyIsDirectBelow` is right on keys that are not crossed.** -/
theorem keyIsDirectBelow_eq (hk : HasName key P) (hc : HasName check Q) (h : ¬ P.Crossed Q) :
    keyIsDirectBelow key check = some (decide (P.DirectlyAbove Q)) := by
  have hkn : keyName key = P.name := by simp [keyName, hk.key]
  have hcn : keyName check = Q.name := by simp [keyName, hc.key]
  have hcu : keyUnescapedName check = Q.uname := by simp [keyUnescapedName, hc.key, hc.ukey]
  by_cases hb : P.Above Q
  swap
  · have hnb : keyIsBelow key check = false := by
      rw [Bool.eq_false_iff, Ne, keyIsBelow_iff hk hc]
      exact hb
    rw [keyIsDirectBelow, if_pos hnb, decide_eq_false fun hd => hb hd.1]
  have hbelow : keyIsBelow key check = true := (keyIsBelow_iff hk hc).mpr hb
  obtain ⟨hroot, ⟨t, ht⟩, hne⟩ := hb
  obtain ⟨s, rest, rfl⟩ : ∃ s rest, t = s :: rest := by
    cases t with
    | nil => exact absurd ((List.append_nil _).symm.trans ht) hne
    | cons s rest => exact ⟨s, rest, rfl⟩
  have hdirect : P.DirectlyAbove Q ↔ rest = [] := by
    rw [Path.DirectlyAbove, ← ht, List.length_append, List.length_cons]
    have habove : P.Above Q := ⟨hroot, ⟨_, ht⟩, hne⟩
    simp [habove]
  simp only [keyIsDirectBelow, hbelow, Bool.true_eq_false, if_false, hkn, hcn, hcu, hk.keyUSize,
    hc.keyUSize, P.head_name, Q.head_name, decide_eq_decide.mpr hdirect, ne_eq, ite_not]
  by_cases hr : P.root = Q.root
  · have huname : Q.uname = P.uname ++ terminate (s :: rest) := by
      rw [Path.uname_eq, Path.uname_eq, ← ht, hr, ← List.cons_append, terminate_append]
    have hlast := nulFrom_last P.uname s rest
    rw [← huname] at hlast
    by_cases hp : P.root = .cascading
    · rw [if_pos hp, if_pos (hr ▸ hp)]
      exact hlast
    · rw [if_neg hp]
      exact hlast
  · obtain ⟨r, ps⟩ := P
    obtain ⟨r', qs⟩ := Q
    cases r' with
    | cascading => exact absurd ⟨hr, rfl, ⟨hroot, ⟨_, ht⟩, hne⟩⟩ h
    | ns m =>
      obtain rfl : r = .cascading := (hroot.resolve_left hr).resolve_right (Root.ns_ne m)
      obtain rfl : ps ++ s :: rest = qs := ht
      have hlast := nulFrom_last (m.name ++ 0 :: terminate ps) s rest
      have huname : (Path.mk (.ns m) (ps ++ s :: rest)).uname =
          m.name ++ 0 :: terminate ps ++ terminate (s :: rest) := by
        rw [Path.uname_ns, terminate_append]
        simp
      have hsize : m.name.length + (Path.mk .cascading ps).uname.length =
          (m.name ++ 0 :: terminate ps).length := by
        rw [Path.uname_cascading, List.length_append]
      have hnul : nulFrom (Path.mk (.ns m) (ps ++ s :: rest)).uname 0 = some m.name.length := by
        rw [Path.uname_ns]
        exact nulFrom_root m _
      rw [← huname] at hlast
      rw [if_pos rfl, if_neg (Root.ns_ne m), hnul, Option.bind_some, hsize]
      exact hlast

theorem keyNameIs_path (m : Namespace) (P : Path) :
    keyNameIs m.name P.name = true ↔ P.root = .ns m := by
  obtain ⟨r, ps⟩ := P
  cases r with
  | cascading =>
    obtain ⟨t, ht⟩ := List.head?_eq_some_iff.mp ((Path.mk .cascading ps).head_name.mpr rfl)
    rw [ht, keyNameIs_iff]
    cases m <;> simp [Namespace.name, str, pathSeparator]
  | ns m' =>
    have hm : Root.ns m' = Root.ns m ↔ m' = m := by simp
    rw [Path.name_ns, keyNameIs_iff, hm]
    obtain hj | ⟨t, hj⟩ := join_cases (escapes ps)
    · rw [hj, List.append_nil]
      cases m <;> cases m' <;> simp [Namespace.name, str]
    · rw [hj]
      cases m <;> cases m' <;> simp [Namespace.name, str, pathSeparator]

theorem keyIsUser_eq (hk : HasName key P) : keyIsUser key = true ↔ P.root = .ns .user := by
  have hcolon : (str "user:").isPrefixOf P.name = false := by
    obtain ⟨r, ps⟩ := P
    cases r with
    | cascading =>
      obtain ⟨t, ht⟩ := List.head?_eq_some_iff.mp ((Path.mk .cascading ps).head_name.mpr rfl)
      rw [ht]
      rfl
    | ns m =>
      rw [Path.name_ns]
      obtain hj | ⟨t, hj⟩ := join_cases (escapes ps) <;> rw [hj] <;> cases m <;> rfl
  rw [keyIsUser, hk.key, Option.map_some, Option.getD_some, keyNameIsUser, hcolon, Bool.or_false]
  exact keyNameIs_path .user P

theorem keyIsSystem_eq (hk : HasName key P) : keyIsSystem key = true ↔ P.root = .ns .system := by
  rw [keyIsSystem, hk.key]
  exact keyNameIs_path .system P

/-- What `keyRel` tells of two paths; `same` is whether the owners are equal. -/
def Path.relation (P Q : Path) (same : Prop) [Decidable same] : ℤ :=
  if P = Q ∧ same then 0
  else if P.DirectlyAbove Q then 1
  else if P.Above Q then 2
  else if P.root = Q.root ∧ (P.root = .ns .user ∨ P.root = .ns .system) then -3
  else -2

/-- **`keyRel` is right on keys that are not crossed.** -/
theorem keyRel_eq (hk : HasName key P) (hc : HasName check Q) (h : ¬ P.Crossed Q) :
    keyRel key check = some (P.relation Q
      (keyGetMeta key (str "owner") = keyGetMeta check (str "owner"))) := by
  have hname : ¬ (key.key = none ∨ check.key = none) := by
    rw [hk.key, hc.key]
    simp
  have hcmp : keyCmp (some key) (some check) = .eq ↔
      P = Q ∧ keyGetMeta key (str "owner") = keyGetMeta check (str "owner") := by
    rw [keyCmp_named hk hc, Ordering.then_eq_eq, Std.LawfulEqOrd.compare_eq_iff_eq,
      Std.LawfulEqOrd.compare_eq_iff_eq, Path.uname_injective.eq_iff]
  have hns : keyIsUser key = true ∧ keyIsUser check = true ∨
      keyIsSystem key = true ∧ keyIsSystem check = true ↔
      P.root = Q.root ∧ (P.root = .ns .user ∨ P.root = .ns .system) := by
    rw [keyIsUser_eq hk, keyIsUser_eq hc, keyIsSystem_eq hk, keyIsSystem_eq hc]
    grind
  simp only [keyRel, hname, if_false, hcmp, keyIsDirectBelow_eq hk hc h, Option.bind_some,
    decide_eq_true_eq, keyIsBelow_iff hk hc, Bool.and_eq_true, Path.relation]
  split_ifs <;> grind

/-- **The relations of keys are those of their paths.** -/
theorem keys_related (hk : HasName key P) (hc : HasName check Q) :
    keyIsBelowReads key check = some (keyIsBelow key check) ∧
    (keyIsBelow key check = true ↔ P.Above Q) ∧
    (keyIsBelowOrSame key check = true ↔ P.Above Q ∨ P = Q) ∧
    (¬ P.Crossed Q →
      keyIsDirectBelow key check = some (decide (P.DirectlyAbove Q)) ∧
      keyRel key check = some (P.relation Q
        (keyGetMeta key (str "owner") = keyGetMeta check (str "owner")))) :=
  ⟨keyIsBelowReads_eq hk hc, keyIsBelow_iff hk hc, keyIsBelowOrSame_iff hk hc, fun h =>
    ⟨keyIsDirectBelow_eq hk hc h, keyRel_eq hk hc h⟩⟩

end Relations

/-- `/a` -/
def cascadingA : Path := ⟨.cascading, userA.parts⟩

theorem keys_related_userA :
    keyIsBelowReads (keyNewName (str "/a")) (keyNewName (str "user/a/b")) =
      some (keyIsBelow (keyNewName (str "/a")) (keyNewName (str "user/a/b"))) ∧
    (keyIsBelow (keyNewName (str "/a")) (keyNewName (str "user/a/b")) = true ↔
      cascadingA.Above (userA.add ⟨str "b", by decide⟩)) ∧
    (keyIsBelowOrSame (keyNewName (str "/a")) (keyNewName (str "user/a/b")) = true ↔
      cascadingA.Above (userA.add ⟨str "b", by decide⟩) ∨
        cascadingA = userA.add ⟨str "b", by decide⟩) ∧
    (¬ cascadingA.Crossed (userA.add ⟨str "b", by decide⟩) →
      keyIsDirectBelow (keyNewName (str "/a")) (keyNewName (str "user/a/b")) =
        some (decide (cascadingA.DirectlyAbove (userA.add ⟨str "b", by decide⟩))) ∧
      keyRel (keyNewName (str "/a")) (keyNewName (str "user/a/b")) =
        some (cascadingA.relation (userA.add ⟨str "b", by decide⟩)
          (keyGetMeta (keyNewName (str "/a")) (str "owner") =
            keyGetMeta (keyNewName (str "user/a/b")) (str "owner")))) :=
  keys_related ⟨rfl, rfl, rfl, rfl⟩ ⟨rfl, rfl, rfl, rfl⟩

/-- `/a` and `user/a` have the same parts, and neither is the other; for `user/a` and `/a/b`,
`keyIsDirectBelow` reads behind the end of the name. -/
theorem keys_unrelated :
    ¬ (∀ key check P Q, HasName key P → HasName check Q → P.root = .cascading →
      P.parts <+: Q.parts → keyIsBelowOrSame key check = true) ∧
    ¬ (∀ key check P Q, HasName key P → HasName check Q → (keyIsDirectBelow key check).isSome) := by
  constructor
  · intro h
    exact absurd (h (keyNewName (str "/a")) (keyNewName (str "user/a")) cascadingA userA
      ⟨rfl, rfl, rfl, rfl⟩ ⟨rfl, rfl, rfl, rfl⟩ rfl List.prefix_rfl) (by decide +kernel)
  · intro h
    exact absurd (h (keyNewName (str "user/a")) (keyNewName (str "/a/b")) userA
      (cascadingA.add ⟨str "b", by decide⟩) ⟨rfl, rfl, rfl, rfl⟩ ⟨rfl, rfl, rfl, rfl⟩)
      (by decide +kernel)

end Elektra
