import Elektra.Name.BaseName

/-!
# Keys below other keys

* `keyIsBelow`, `keyIsBelowOrSame`, by comparing names and looking for the NUL that ends a part of
  the unescaped name;
* `Path.Above`: the parts of one path properly extend those of the other, in the same root or with a
  cascading one;
* `length_unescape`: a longer escaped part is a longer part, so that the NUL is where it should be;
* **`keyIsBelow_iff`**.
-/

namespace Elektra

/-- `!strncmp (a, b, n)` -/
def strncmp0 (a b : Str) (n : ℕ) : Bool := a.take n = b.take n

/-- The test that ends most branches of `keyIsBelow`. -/
def belowTest (keyname checkname : Str) (keysize : ℕ) (ucheckname : Str) (ukeysize uchecksize : ℕ) :
    Bool :=
  strncmp0 keyname checkname (keysize - 1) &&
    (ucheckname[ukeysize - 1]? = some 0 && ukeysize < uchecksize)

def keyIsBelow (key check : Key) : Bool :=
  let keyname := keyName key
  let checkname := keyName check
  let ukeyname := keyUnescapedName key
  let ucheckname := keyUnescapedName check
  let keysize := key.keySize
  let checksize := check.keySize
  let ukeysize := key.keyUSize
  let uchecksize := check.keyUSize
  if checkname = [pathSeparator] then false
  else if keyname = [pathSeparator] then
    checkname.head? = some pathSeparator || checkname.contains pathSeparator
  else if checkname.head? = some pathSeparator then
    if keyname.head? = some pathSeparator then
      belowTest keyname checkname keysize ucheckname ukeysize uchecksize
    else
      let size := (keyNameGetOneLevel keyname).2
      if size = keysize then true
      else
        let keyname := keyname.drop size
        let keysize := keyname.length + 1
        let ukeysize := ukeysize - (ukeyname.takeWhile (· ≠ 0)).length
        belowTest keyname checkname keysize ucheckname ukeysize uchecksize
  else if keyname.head? = some pathSeparator then
    let size := (keyNameGetOneLevel checkname).2
    if size = checksize then false
    else
      let checkname := checkname.drop size
      let uchecksize := uchecksize - (ucheckname.takeWhile (· ≠ 0)).length
      let ucheckname := ucheckname.dropWhile (· ≠ 0)
      belowTest keyname checkname keysize ucheckname ukeysize uchecksize
  else belowTest keyname checkname keysize ucheckname ukeysize uchecksize

def keyIsBelowOrSame (key check : Key) : Bool := keyIsBelow key check || keyName key = keyName check

/-- `Q` is strictly below `P`; a cascading path is above and below those of every namespace. -/
def Path.Above (P Q : Path) : Prop :=
  (P.root = Q.root ∨ P.root = .cascading ∨ Q.root = .cascading) ∧ P.parts <+: Q.parts ∧
    P.parts ≠ Q.parts

instance (P Q : Path) : Decidable (P.Above Q) := inferInstanceAs (Decidable (_ ∧ _ ∧ _))

/-! ## Lengths -/

theorem length_unescapeLoop : ∀ (r : Str) (n : ℕ), Unbroken n r → escAfter n r % 2 = 0 →
    n + r.length ≤ 2 * (unescapeLoop n r).length
  | [], n, _, he => by
    simp only [escAfter] at he
    simp only [unescapeLoop, elektraWriteBackslashes, List.length_nil, List.length_replicate]
    omega
  | c :: r, n, hu, he => by
    simp only [Unbroken, escAfter, unescapeLoop] at hu he ⊢
    split_ifs at hu he ⊢ with hc hs
    · have := length_unescapeLoop r (n + 1) hu he
      simp only [List.length_cons]
      omega
    · have := length_unescapeLoop r 0 hu.2 he
      have hodd := hu.1 hs
      simp only [elektraWriteBackslashes, List.length_append, List.length_replicate,
        List.length_cons]
      omega
    · have := length_unescapeLoop r 0 hu.2 he
      simp only [elektraWriteBackslashes, List.length_append, List.length_replicate,
        List.length_cons]
      omega

theorem length_unescapeLoop_append {r : Str} (hr : r ≠ []) : ∀ (e : Str) (n : ℕ),
    Unbroken n (e ++ r) → escAfter n e % 2 = 0 → escAfter n (e ++ r) % 2 = 0 →
    (unescapeLoop n e).length < (unescapeLoop n (e ++ r)).length
  | [], n, hu, he, hr' => by
    have hlen := length_unescapeLoop r n hu hr'
    have hpos := List.length_pos_of_ne_nil hr
    simp only [unescapeLoop, elektraWriteBackslashes, List.length_replicate, List.nil_append]
    omega
  | c :: e, n, hu, he, hr' => by
    simp only [List.cons_append, Unbroken, escAfter, unescapeLoop] at hu he hr' ⊢
    split_ifs at hu he hr' ⊢
    · exact length_unescapeLoop_append hr e (n + 1) hu he hr'
    · have := length_unescapeLoop_append hr e 0 hu.2 he hr'
      simpa using this
    · have := length_unescapeLoop_append hr e 0 hu.2 he hr'
      simpa using this

theorem length_unescapeLevel {p : Str} (hp : IsPart p) : (unescapeLevel p).length +
    (if (elektraUnescapeKeyNamePartBegin p).isSome then 1 else 0) = (unescapeLoop 0 p).length := by
  cases h : elektraUnescapeKeyNamePartBegin p with
  | none => rw [unescapeLevel, h]; rfl
  | some u =>
    rw [unescapeLevel, h, Option.getD_some]
    obtain ⟨k, t, ht, rfl⟩ := exists_run p
    rw [unescapeBegin_run ht] at h
    cases k with
    | zero =>
      rw [if_pos rfl] at h
      split_ifs at h with h1
      obtain rfl := Option.some.inj h
      rw [h1.resolve_left hp.ne_nil]
      rfl
    | succ k =>
      rw [if_neg (Nat.succ_ne_zero k)] at h
      split_ifs at h with h1
      obtain rfl := Option.some.inj h
      rw [unescapeLoop_backslashes]
      simp only [specials, List.mem_cons, List.not_mem_nil, or_false] at h1
      obtain rfl | rfl | rfl := h1 <;>
        simp [unescapeLoop, str, elektraWriteBackslashes, pathEscape, pathSeparator]

/-- A proper prefix of a part that begins specially begins so too, or is made of backslashes. -/
theorem prefix_special {e r : Str} (he : IsPart e) (hr : r ≠ [])
    (hb : (elektraUnescapeKeyNamePartBegin (e ++ r)).isSome)
    (hb' : ¬ (elektraUnescapeKeyNamePartBegin e).isSome) :
    ∃ k t, NoRun t ∧ t ∈ specials ∧ e ++ r = elektraWriteBackslashes (k + 1) ++ t ∧
      e = elektraWriteBackslashes e.length ∧ e.length ≤ k + 1 := by
  obtain ⟨k, t, ht, h⟩ := exists_run (e ++ r)
  rw [h, unescapeBegin_run ht] at hb
  have hlen := congrArg List.length h
  have he0 := List.length_pos_of_ne_nil he.ne_nil
  have hr0 := List.length_pos_of_ne_nil hr
  simp only [List.length_append, elektraWriteBackslashes, List.length_replicate] at hlen
  cases k with
  | zero =>
    rw [if_pos rfl] at hb
    split_ifs at hb with h1
    · have : t.length ≤ 1 := by obtain rfl | rfl := h1 <;> simp [str]
      omega
    · cases hb
  | succ k =>
    rw [if_neg (Nat.succ_ne_zero k)] at hb
    split_ifs at hb with h1
    · refine ⟨k, t, ht, h1, h, ?_⟩
      obtain ⟨u, hu, -⟩ | ⟨u, rfl, hu⟩ := List.append_eq_append_iff.mp h
      · have hrep := (List.append_eq_replicate_iff.mp hu.symm)
        exact ⟨hrep.2.1, by omega⟩
      · -- `e` reaches into the special string
        by_cases hu0 : u = []
        · subst hu0
          simp [elektraWriteBackslashes]
        · have hu1 : NoRun u ∧ u ∈ specials := by
            have hupos := List.length_pos_of_ne_nil hu0
            have hul := congrArg List.length hu
            rw [List.length_append] at hul
            simp only [specials, List.mem_cons, List.not_mem_nil, or_false] at h1
            obtain rfl | rfl | rfl := h1
            · simp [str] at hul; omega
            · simp [str] at hul; omega
            · have hone : u.length = 1 := by simp [str] at hul; omega
              obtain ⟨c, rfl⟩ := List.length_eq_one_iff.mp hone
              obtain rfl : c = 46 := (List.cons.inj hu).1.symm
              exact ⟨by simp [NoRun, pathEscape], by decide⟩
          rw [unescapeBegin_run hu1.1, if_neg (Nat.succ_ne_zero k), if_pos hu1.2] at hb'
          exact absurd rfl hb'
    · cases hb

/-- **A proper prefix of an escaped part is the escape of a shorter part.** -/
theorem length_unescape {e r : Str} (he : IsPart e) (her : IsPart (e ++ r)) (hr : r ≠ []) :
    (unescapeLevel e).length < (unescapeLevel (e ++ r)).length := by
  have h1 := length_unescapeLevel he
  have h2 := length_unescapeLevel her
  have hloop := length_unescapeLoop_append hr e 0 her.unbroken he.closed her.closed
  by_cases hb : (elektraUnescapeKeyNamePartBegin (e ++ r)).isSome
  · rw [if_pos hb] at h2
    by_cases hb' : (elektraUnescapeKeyNamePartBegin e).isSome
    · rw [if_pos hb'] at h1
      omega
    · obtain ⟨k, t, ht, hs, hrun, hrep, hle⟩ := prefix_special he hr hb hb'
      have hlong : (unescapeLoop 0 (e ++ r)).length = k + 1 + t.length := by
        rw [hrun, unescapeLoop_backslashes]
        simp only [specials, List.mem_cons, List.not_mem_nil, or_false] at hs
        obtain rfl | rfl | rfl := hs <;>
          simp [unescapeLoop, str, elektraWriteBackslashes, pathEscape, pathSeparator]
      have hshort : (unescapeLoop 0 e).length = e.length / 2 := by
        have := unescapeLoop_backslashes e.length 0 []
        rw [List.append_nil, ← hrep] at this
        rw [this]
        simp [unescapeLoop, elektraWriteBackslashes]
      have ht0 : 0 < t.length := by
        refine List.length_pos_of_ne_nil fun h0 => ?_
        rw [h0] at hs
        exact absurd hs (by decide)
      have heven := he.closed
      rw [Closed, hrep, escAfter_backslashes] at heven
      omega
  · rw [if_neg hb] at h2
    omega

/-! ## The names of paths -/

/-- The parts as they stand in a name. -/
def escapes (ps : List CString) : List Str := ps.map fun s => elektraEscapeKeyNamePart s.1

theorem closed_separator {e t s : Str} (he : Closed e) (h : Unbroken 0 (e ++ pathSeparator :: t ++ s)) :
    False := by
  rw [List.append_assoc, unbroken_append, List.cons_append, Unbroken,
    if_neg separator_ne_escape] at h
  have := h.2.1 rfl
  rw [Closed] at he
  omega

/-- Where a name starts with another one, the first part starts with that of the other, and is equal
to it unless the other ends there. -/
theorem join_prefix_cons {p q : CString} {ps qs : List CString}
    (h : join (escapes (p :: ps)) <+: join (escapes (q :: qs))) :
    (p = q ∧ join (escapes ps) <+: join (escapes qs)) ∨
    (ps = [] ∧ p.1.length < q.1.length) := by
  have hp := isPart_escape p.1
  have hq := isPart_escape q.1
  simp only [escapes, List.map_cons, join_cons, List.cons_append, List.cons_prefix_cons,
    true_and] at h
  obtain ⟨u, hu⟩ := h
  rw [List.append_assoc] at hu
  obtain ⟨v, hv, hv'⟩ | ⟨v, hv, hv'⟩ := List.append_eq_append_iff.mp hu
  · by_cases hv0 : v = []
    · left
      subst hv0
      rw [List.append_nil] at hv
      refine ⟨Subtype.ext ?_, u, hv'⟩
      rw [← unescape_escape p.1, ← hv, unescape_escape]
    · right
      obtain hj | ⟨t, hj⟩ := join_cases (escapes ps)
      · refine ⟨?_, ?_⟩
        · cases ps with
          | nil => rfl
          | cons _ _ => simp [escapes] at hj
        · rw [hv] at hq
          have := length_unescape hp hq hv0
          rwa [← hv, unescape_escape, unescape_escape] at this
      · -- a separator follows the part
        obtain ⟨c, v', rfl⟩ := List.exists_cons_of_ne_nil hv0
        change join (escapes ps) ++ u = _ at hv'
        rw [hj, List.cons_append, List.cons_append, List.cons.injEq] at hv'
        have hbr := hq.unbroken
        rw [hv, ← hv'.1, ← List.append_nil (_ ++ _)] at hbr
        exact (closed_separator hp.closed hbr).elim
  · by_cases hv0 : v = []
    · left
      subst hv0
      rw [List.append_nil] at hv
      refine ⟨Subtype.ext ?_, u, hv'.symm⟩
      rw [← unescape_escape p.1, hv, unescape_escape]
    · obtain ⟨c, v', rfl⟩ := List.exists_cons_of_ne_nil hv0
      change join (escapes qs) = _ at hv'
      obtain hj | ⟨t, hj⟩ := join_cases (escapes qs)
      · rw [hj] at hv'; cases hv'
      · rw [hj, List.cons_append, List.cons.injEq] at hv'
        have hbr := hp.unbroken
        rw [hv, ← hv'.1, ← List.append_nil (_ ++ _)] at hbr
        exact (closed_separator hq.closed hbr).elim

/-- **The test of `keyIsBelow`, on parts.** -/
theorem below_parts : ∀ {ps qs : List CString},
    (join (escapes ps) <+: join (escapes qs) ∧
      (0 :: terminate qs)[(terminate ps).length]? = some 0 ∧
      (terminate ps).length < (terminate qs).length) ↔ ps <+: qs ∧ ps ≠ qs
  | [], [] => by simp
  | [], q :: qs => by simp [escapes]
  | p :: ps, [] => by simp
  | p :: ps, q :: qs => by
    have ih := @below_parts ps qs
    constructor
    · rintro ⟨hpre, hnul, hlt⟩
      obtain ⟨rfl, hrest⟩ | ⟨rfl, hlen⟩ := join_prefix_cons hpre
      · simp only [terminate_cons, List.length_append, List.length_cons] at hnul hlt
        have hidx : (0 :: (p.1 ++ 0 :: terminate qs))[p.1.length + ((terminate ps).length + 1)]? =
            (0 :: terminate qs)[(terminate ps).length]? := by
          rw [← Nat.add_assoc, List.getElem?_cons_succ, List.getElem?_append_right (by omega)]
          congr 1
          omega
        rw [hidx] at hnul
        obtain ⟨h1, h2⟩ := ih.mp ⟨hrest, hnul, by omega⟩
        exact ⟨List.cons_prefix_cons.mpr ⟨rfl, h1⟩, fun he => h2 (List.cons.inj he).2⟩
      · -- the byte looked at is inside the longer part
        simp only [terminate_cons, terminate_nil, List.length_append, List.length_singleton,
          List.getElem?_cons_succ] at hnul
        rw [List.getElem?_append_left hlen] at hnul
        exact absurd (List.mem_of_getElem? hnul) q.2
    · rintro ⟨hpre, hne⟩
      obtain ⟨rfl, hrest⟩ := List.cons_prefix_cons.mp hpre
      obtain ⟨h1, h2, h3⟩ := ih.mpr ⟨hrest, fun he => hne (he ▸ rfl)⟩
      refine ⟨?_, ?_, ?_⟩
      · simpa [escapes, List.cons_prefix_cons, List.prefix_append_right_inj] using h1
      · simp only [terminate_cons, List.length_append, List.length_cons]
        rw [← Nat.add_assoc, List.getElem?_cons_succ, List.getElem?_append_right (by omega)]
        simpa using h2
      · simp only [terminate_cons, List.length_append, List.length_cons]
        omega

/-! ## keyIsBelow -/

theorem strncmp0_length {a b : Str} : strncmp0 a b a.length = true ↔ a <+: b := by
  rw [strncmp0, List.take_length, decide_eq_true_iff, List.prefix_iff_eq_take]

/-- The test on cascading names, or on what stands behind the namespace. -/
theorem belowTest_parts {ps qs : List CString} {keysize ukeysize uchecksize : ℕ}
    (h1 : keysize = (join (escapes ps)).length + 1) (h2 : ukeysize = (terminate ps).length + 1)
    (h3 : uchecksize = (terminate qs).length + 1) :
    belowTest (join (escapes ps)) (join (escapes qs)) keysize (0 :: terminate qs) ukeysize
      uchecksize = true ↔ ps <+: qs ∧ ps ≠ qs := by
  subst h1 h2 h3
  rw [← below_parts, belowTest, Nat.add_sub_cancel, Nat.add_sub_cancel, Bool.and_eq_true,
    Bool.and_eq_true, strncmp0_length, decide_eq_true_iff, decide_eq_true_iff,
    Nat.add_lt_add_iff_right]

theorem Namespace.eq_of_prefix {m m' : Namespace} {s t : Str}
    (h : m.name ++ s <+: m'.name ++ t) : m = m' := by
  cases m <;> cases m' <;> simp [name, str, List.cons_prefix_cons] at h ⊢

theorem belowTest_ns {m m' : Namespace} {ps qs : List CString} {keysize ukeysize uchecksize : ℕ}
    (h1 : keysize = (m.name ++ join (escapes ps)).length + 1)
    (h2 : ukeysize = (m.name ++ 0 :: terminate ps).length)
    (h3 : uchecksize = (m'.name ++ 0 :: terminate qs).length) :
    belowTest (m.name ++ join (escapes ps)) (m'.name ++ join (escapes qs)) keysize
      (m'.name ++ 0 :: terminate qs) ukeysize uchecksize = true ↔ m = m' ∧ ps <+: qs ∧ ps ≠ qs := by
  subst h1 h2 h3
  have hidx : ∀ s : Str, (s ++ 0 :: terminate qs)[(s ++ 0 :: terminate ps).length - 1]? =
      (0 :: terminate qs)[(terminate ps).length]? := by
    intro s
    rw [List.length_append, List.length_cons, List.getElem?_append_right (by omega)]
    congr 1
    omega
  rw [← below_parts, belowTest, Nat.add_sub_cancel, Bool.and_eq_true, Bool.and_eq_true,
    strncmp0_length, decide_eq_true_iff, decide_eq_true_iff]
  constructor
  · rintro ⟨hpre, hnul, hlt⟩
    obtain rfl := Namespace.eq_of_prefix hpre
    rw [hidx] at hnul
    simp only [List.length_append, List.length_cons, Nat.add_lt_add_iff_left,
      Nat.add_lt_add_iff_right] at hlt
    exact ⟨rfl, (List.prefix_append_right_inj _).mp hpre, hnul, hlt⟩
  · rintro ⟨rfl, hpre, hnul, hlt⟩
    refine ⟨(List.prefix_append_right_inj _).mpr hpre, (hidx _).trans hnul, ?_⟩
    simpa using hlt

theorem takeWhile_root (m : Namespace) (s : Str) :
    (m.name ++ 0 :: s).takeWhile (· ≠ 0) = m.name ∧ (m.name ++ 0 :: s).dropWhile (· ≠ 0) = 0 :: s := by
  have hmem : ∀ c ∈ m.name, decide (c ≠ 0) = true := fun c hc =>
    decide_eq_true fun h0 => m.nul_name (h0 ▸ hc)
  rw [List.takeWhile_append_of_pos hmem, List.dropWhile_append_of_pos hmem]
  simp

theorem separator_mem_ns {m : Namespace} {ps : List CString} :
    pathSeparator ∈ m.name ++ join (escapes ps) ↔ ps ≠ [] := by
  have hm : pathSeparator ∉ m.name := by cases m <;> decide
  rw [List.mem_append, or_iff_right hm]
  cases ps <;> simp [escapes]

theorem oneLevel_root (m : Namespace) (ps : List CString) :
    (keyNameGetOneLevel (m.name ++ join (escapes ps))).2 = m.name.length := by
  have hdrop : (m.name ++ join (escapes ps)).dropWhile (· = pathSeparator) =
      m.name ++ join (escapes ps) := by
    cases m <;> rfl
  rw [keyNameGetOneLevel, hdrop]
  obtain hj | ⟨t, hj⟩ := join_cases (escapes ps)
  · rw [hj, List.append_nil]; exact levelSize_root_nil m
  · rw [hj]; exact levelSize_root m t

theorem Path.uname_ns (m : Namespace) (ps : List CString) :
    (Path.mk (.ns m) ps).uname = m.name ++ 0 :: terminate ps := by
  simp [uname, Root.level, terminate]

theorem Path.uname_cascading (ps : List CString) :
    (Path.mk .cascading ps).uname = 0 :: terminate ps := rfl

theorem Path.name_ns (m : Namespace) (ps : List CString) :
    (Path.mk (.ns m) ps).name = m.name ++ join (escapes ps) :=
  name_of_stem fun h => by cases (stem_eq_nil.mp h).1

theorem Path.name_cascading {ps : List CString} (h : ps ≠ []) :
    (Path.mk .cascading ps).name = join (escapes ps) :=
  name_of_stem fun he => h (stem_eq_nil.mp he).2

/-- **`keyIsBelow` is the relation of the paths.** -/
theorem keyIsBelow_iff {key check : Key} {P Q : Path} (hk : HasName key P) (hc : HasName check Q) :
    keyIsBelow key check = true ↔ P.Above Q := by
  have hkn : keyName key = P.name := by simp [keyName, hk.key]
  have hcn : keyName check = Q.name := by simp [keyName, hc.key]
  have hku : keyUnescapedName key = P.uname := by simp [keyUnescapedName, hk.key, hk.ukey]
  have hcu : keyUnescapedName check = Q.uname := by simp [keyUnescapedName, hc.key, hc.ukey]
  simp only [keyIsBelow, hkn, hcn, hku, hcu, hk.keySize, hc.keySize, hk.keyUSize, hc.keyUSize,
    P.head_name, Q.head_name, Path.name_eq_slash]
  by_cases hQ : Q.stem = []
  · -- nothing is above the cascading root
    rw [if_pos hQ]
    refine ⟨nofun, fun h => ?_⟩
    have := (Path.stem_eq_nil.mp hQ).2
    rw [Path.Above, this, List.prefix_nil] at h
    exact absurd h.2.1 h.2.2
  rw [if_neg hQ]
  obtain ⟨r, ps⟩ := P
  obtain ⟨r', qs⟩ := Q
  by_cases hP : (Path.mk r ps).stem = []
  · -- the cascading root is above every path with a part
    rw [if_pos hP]
    obtain ⟨rfl, rfl⟩ : r = .cascading ∧ ps = [] := Path.stem_eq_nil.mp hP
    cases r' with
    | cascading =>
      have hqs : qs ≠ [] := fun h => hQ (Path.stem_eq_nil.mpr ⟨rfl, h⟩)
      simp [Path.Above, hqs.symm]
    | ns m =>
      rw [Path.name_ns, Bool.or_eq_true, List.contains_iff_mem, separator_mem_ns]
      simp [Path.Above, eq_comm]
  rw [if_neg hP]
  cases r with
  | cascading =>
    have hps : ps ≠ [] := fun h => hP (Path.stem_eq_nil.mpr ⟨rfl, h⟩)
    rw [Path.name_cascading hps, Path.uname_cascading]
    cases r' with
    | cascading =>
      have hqs : qs ≠ [] := fun h => hQ (Path.stem_eq_nil.mpr ⟨rfl, h⟩)
      rw [if_pos rfl, if_pos rfl, Path.name_cascading hqs, Path.uname_cascading]
      refine (belowTest_parts rfl rfl rfl).trans ?_
      simp [Path.Above]
    | ns m =>
      have hsize : ¬ m.name.length = (m.name ++ join (escapes qs)).length + 1 := by
        rw [List.length_append]; omega
      rw [if_neg nofun, if_pos rfl, Path.name_ns, Path.uname_ns, oneLevel_root, if_neg hsize,
        List.drop_left, (takeWhile_root m _).1, (takeWhile_root m _).2]
      refine (belowTest_parts rfl rfl ?_).trans ?_
      · rw [List.length_append, List.length_cons]; omega
      · simp [Path.Above]
  | ns m =>
    rw [Path.name_ns, Path.uname_ns]
    cases r' with
    | cascading =>
      have hqs : qs ≠ [] := fun h => hQ (Path.stem_eq_nil.mpr ⟨rfl, h⟩)
      have hsize : ¬ m.name.length = (m.name ++ join (escapes ps)).length + 1 := by
        rw [List.length_append]; omega
      rw [if_pos rfl, if_neg nofun, oneLevel_root, if_neg hsize, List.drop_left,
        (takeWhile_root m _).1, Path.name_cascading hqs, Path.uname_cascading]
      refine (belowTest_parts rfl ?_ rfl).trans ?_
      · rw [List.length_append, List.length_cons]; omega
      · simp [Path.Above]
    | ns m' =>
      rw [if_neg nofun, if_neg nofun, Path.name_ns, Path.uname_ns, belowTest_ns rfl rfl rfl]
      simp [Path.Above]

theorem keyIsBelowOrSame_iff {key check : Key} {P Q : Path} (hk : HasName key P)
    (hc : HasName check Q) : keyIsBelowOrSame key check = true ↔ P.Above Q ∨ P = Q := by
  have hname : keyName key = keyName check ↔ P = Q := by
    simp [keyName, hk.key, hc.key, Path.name_injective.eq_iff]
  rw [keyIsBelowOrSame, Bool.or_eq_true, keyIsBelow_iff hk hc, decide_eq_true_iff, hname]

end Elektra
