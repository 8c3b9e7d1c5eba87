import Elektra.Name.Run

/-!
# Names that end in an odd run of backslashes

The validation lets a path of an odd number of backslashes pass. The name then is that of a path, with a
last level behind it that is not closed; what is added next becomes part of that level.

* `IsOpenLevel`, `danglingName`, `Dangling`: such names;
* `removeOneLevel_dangling`, `addLevel_dangling`, `foldl_dangling`: the loop of `keyAddName` on them;
* `Made`: the keys that the name functions make; `Shape`: the names they have;
* **`shape_of_made`**.
-/

namespace Elektra

/-! ## Open levels -/

/-- A level that may not be followed by a separator. -/
structure IsOpenLevel (d : Str) : Prop extends IsLevel d where
  isOpen : ¬ Closed d
  nul : 0 ∉ d

/-- The name of a path, and `d` behind it. -/
def danglingName (P : Path) (d : Str) : Str := P.stem ++ pathSeparator :: d

section OpenLevel

variable {P : Path} {d l : Str}

theorem isOpenLevel_of_odd {n : Str} (h : OddRun n) : IsOpenLevel n := by
  obtain ⟨hall, hodd⟩ := h
  have hunbroken := unbroken_backslashes n.length 0
  have hnul : (0 : UInt8) ∉ elektraWriteBackslashes n.length := fun hm =>
    absurd (List.eq_of_mem_replicate hm) (by decide)
  rw [← hall] at hunbroken hnul
  refine ⟨⟨fun h => by simp [h] at hodd, hunbroken⟩, fun hc => ?_, hnul⟩
  rw [Closed, escAfter_all hall] at hc
  omega

/-- The separator behind an odd number of backslashes is part of the level. -/
theorem isLevel_extend (hd : IsOpenLevel d) (hl : IsLevel l) : IsLevel (d ++ pathSeparator :: l) := by
  refine ⟨by simp, (unbroken_append _ _ _).mpr ⟨hd.unbroken, ?_⟩⟩
  have hodd : escAfter 0 d % 2 = 1 := Nat.mod_two_ne_zero.mp hd.isOpen
  rw [Unbroken, if_neg separator_ne_escape]
  exact ⟨fun _ => hodd, hl.unbroken⟩

theorem closed_extend : Closed (d ++ pathSeparator :: l) ↔ Closed l := by
  rw [Closed, Closed, escAfter_append, escAfter, if_neg separator_ne_escape]

theorem isPart_extend (hd : IsOpenLevel d) (hl : IsLevel l) (hc : Closed l) :
    IsPart (d ++ pathSeparator :: l) := by
  have hmem : pathSeparator ∈ d ++ pathSeparator :: l := by simp
  exact ⟨isLevel_extend hd hl, closed_extend.mpr hc, fun h => absurd (h ▸ hmem) (by decide),
    fun h => absurd (h ▸ hmem) (by decide)⟩

theorem IsOpenLevel.extend (hd : IsOpenLevel d) (hl : IsOpenLevel l) :
    IsOpenLevel (d ++ pathSeparator :: l) := by
  refine ⟨isLevel_extend hd hl.toIsLevel, fun h => hl.isOpen (closed_extend.mp h), ?_⟩
  rw [List.mem_append, List.mem_cons]
  rintro (h | h | h)
  · exact hd.nul h
  · exact absurd h (by decide)
  · exact hl.nul h

theorem nul_extend (hd : 0 ∉ d) (hl : 0 ∉ l) : 0 ∉ unescapeLevel (d ++ pathSeparator :: l) := by
  refine nul_unescapeLevel fun h => ?_
  obtain h | h := List.mem_append.mp h
  · exact hd h
  · exact (List.mem_cons.mp h).elim (fun h => absurd h (by decide)) hl

theorem IsOpenLevel.ne_dot (hd : IsOpenLevel d) : d ≠ str "." := fun h => hd.isOpen (by rw [h]; rfl)

theorem IsOpenLevel.ne_dots (hd : IsOpenLevel d) : d ≠ str ".." := fun h => hd.isOpen (by rw [h]; rfl)

/-! ## The levels of a name with more behind it -/

theorem levels_append_separator (t : Str) {s : Str} :
    Closed s → levels (s ++ pathSeparator :: t) = levels s ++ levels t := by
  induction s using levels_induction with
  | nil => intro _; simp
  | sep s ih =>
    intro hc
    rw [List.cons_append, levels_separator, levels_separator]
    exact ih (by simpa [Closed, escAfter, separator_ne_escape] using hc)
  | level p s hp hs ih =>
    intro hc
    obtain rfl | ⟨hcp, t', rfl⟩ := hs
    · have hone : levels p = [p] := by simpa using levels_cons hp (.inl rfl)
      rw [List.append_nil] at hc ⊢
      rw [levels_cons hp (.inr ⟨hc, t, rfl⟩), levels_separator, hone, List.singleton_append]
    · have htail : Closed (pathSeparator :: t') := by
        simpa [Closed, escAfter_append, escAfter, separator_ne_escape] using hc
      rw [List.append_assoc, List.cons_append, levels_cons hp (.inr ⟨hcp, _, rfl⟩),
        levels_cons hp (.inr ⟨hcp, _, rfl⟩), List.cons_append, ← List.cons_append, ih htail]

theorem closed_stem (P : Path) : Closed P.stem := by
  have hjoin := closed_join fun p hp => (Path.isPart_of_mem (P := P) hp).closed
  have hroot : Closed P.root.level := by
    cases P.root with
    | cascading => rfl
    | ns m => exact m.closed
  rw [Path.stem, Closed, escAfter_append]
  obtain hj | ⟨t, hj⟩ := join_cases P.escaped
  · rwa [hj]
  · rw [hj] at hjoin ⊢
    simpa [Closed, escAfter, separator_ne_escape] using hjoin

theorem levels_name_stem (P : Path) : levels P.stem = levels P.name := by
  by_cases hs : P.stem = []
  · rw [hs, Path.name_of_root hs]
    rfl
  · rw [Path.name_of_stem hs]

theorem levels_danglingName (hd : IsLevel d) : levels (danglingName P d) = levels P.name ++ [d] := by
  have hone : levels d = [d] := by simpa using levels_cons hd (.inl rfl)
  rw [danglingName, levels_append_separator d (closed_stem P), levels_name_stem, hone]

theorem head_danglingName : (danglingName P d).head? = some pathSeparator ↔ P.root = .cascading := by
  rw [← P.head_name, danglingName]
  by_cases hs : P.stem = []
  · rw [hs, Path.name_of_root hs]
    rfl
  · obtain ⟨c, t, hct⟩ := List.exists_cons_of_ne_nil hs
    rw [Path.name_of_stem hs, hct]
    rfl

/-- What stands in front of the last level is the name of the path again. -/
theorem take_danglingName : (danglingName P d).take ((danglingName P d).length - (d.length + 1)) = P.stem := by
  rw [danglingName, List.take_left']
  simp

/-! ## The loop of keyAddName -/

theorem removeOneLevel_dangling (hd : IsLevel d) :
    elektraRemoveOneLevel ⟨danglingName P d, false⟩ = P.buffer := by
  rw [removeOneLevel_mk, levels_danglingName hd, List.getLastD_concat, List.length_append,
    List.length_singleton, take_danglingName, Path.buffer]
  by_cases hs : P.stem = []
  · obtain ⟨hr, hp⟩ := Path.stem_eq_nil.mp hs
    have hl : (levels P.name).length = 0 := by
      rw [Path.levels_name]
      simp [hr, hp, Path.escaped]
    rw [if_neg (by omega), if_pos (head_danglingName.mpr hr), Path.name_of_root hs, danglingName, hs]
    rfl
  · have hl := List.length_pos_of_ne_nil (Path.levels_ne_nil hs)
    rw [if_pos (by omega), Path.name_of_stem hs]
    simp [hs]

theorem addLevel_dangling (h1 : l ≠ str ".") (h2 : l ≠ str "..") :
    addLevel ⟨danglingName P d, false⟩ l = ⟨danglingName P (d ++ pathSeparator :: l), false⟩ := by
  rw [addLevel, if_neg h1, if_neg h2]
  simp [danglingName]

theorem buffer_add {s : CString} : (P.add s).buffer =
    ⟨danglingName P (elektraEscapeKeyNamePart s.1), false⟩ := by
  rw [Path.buffer, Path.name_add, danglingName]
  simp [Path.stem_add_ne]

theorem addLevel_open (hd : IsOpenLevel d) : addLevel P.buffer d = ⟨danglingName P d, false⟩ := by
  rw [addLevel, if_neg hd.ne_dot, if_neg hd.ne_dots, Path.buffer, danglingName]
  by_cases hs : P.stem = []
  · simp [hs, Path.name_of_root hs]
  · simp [hs, Path.name_of_stem hs]

/-- The levels that follow an open one: with `.` alone it stays; else it goes, or becomes part of the
first of them. -/
theorem foldl_dangling (hd : IsOpenLevel d) : ∀ ls : List Str, (∀ l ∈ ls, IsLevel l ∧ Closed l ∧ 0 ∉ l) →
    ((∀ l ∈ ls, l = str ".") ∧ ls.foldl addLevel ⟨danglingName P d, false⟩ = ⟨danglingName P d, false⟩) ∨
    ∃ (pre : List Str) (l : Str) (rest : List Str), ls = pre ++ l :: rest ∧ (∀ x ∈ pre, x = str ".") ∧
      l ≠ str "." ∧ ∃ Q : Path, ls.foldl addLevel ⟨danglingName P d, false⟩ = Q.buffer ∧ Q.root = P.root ∧
        Q.escaped = pathReduce
          (if l = str ".." then P.escaped else P.escaped ++ [d ++ pathSeparator :: l]) rest
  | [], _ => .inl ⟨by simp, rfl⟩
  | l :: ls, h => by
    obtain ⟨hl, hc, h0⟩ := h l List.mem_cons_self
    have hls := fun x hx => h x (List.mem_cons_of_mem l hx)
    by_cases h1 : l = str "."
    · have hstep : addLevel ⟨danglingName P d, false⟩ l = ⟨danglingName P d, false⟩ := by
        rw [addLevel, if_pos h1]
      rw [List.foldl_cons, hstep]
      obtain ⟨hall, hfold⟩ | ⟨pre, l', rest, rfl, hpre, hl', hQ⟩ := foldl_dangling hd ls hls
      · exact .inl ⟨List.forall_mem_cons.mpr ⟨h1, hall⟩, hfold⟩
      · exact .inr ⟨l :: pre, l', rest, rfl, List.forall_mem_cons.mpr ⟨h1, hpre⟩, hl', hQ⟩
    · refine .inr ⟨[], l, ls, rfl, by simp, h1, ?_⟩
      rw [List.foldl_cons]
      by_cases h2 : l = str ".."
      · obtain ⟨Q, hQ, hr, he⟩ := foldl_addLevel ls P hls
        refine ⟨Q, ?_, hr, by rw [if_pos h2, he]⟩
        rw [addLevel, if_neg h1, if_pos h2, removeOneLevel_dangling hd.toIsLevel, hQ]
      · have hpart := escape_unescape (isPart_extend hd hl hc)
        obtain ⟨Q, hQ, hr, he⟩ := foldl_addLevel ls (P.add ⟨_, nul_extend hd.nul h0⟩) hls
        refine ⟨Q, ?_, hr, ?_⟩
        · rw [addLevel_dangling h1 h2, ← hQ, buffer_add, hpart]
        · rw [if_neg h2, he, Path.escaped_add, hpart]

end OpenLevel

/-! ## Keys with such names -/

/-- `k` carries the name of `P` with an open level behind it. -/
structure Dangling (k : Key) (P : Path) (d : Str) : Prop where
  level : IsOpenLevel d
  key : k.key = some (danglingName P d)
  ukey : k.ukey = P.uname ++ unescapeLevel d ++ [0]
  keySize : k.keySize = (danglingName P d).length + 1
  keyUSize : k.keyUSize = k.ukey.length

/-- The names that keys have. -/
inductive Shape (key : Key) : Prop
  | unnamed (h : key.key = none)
  | empty (h : key.key = some [])
  | path (P : Path) (h : HasName key P)
  | dangling (P : Path) (d : Str) (h : Dangling key P d)

section Keys

variable {key key' : Key} {P : Path} {d : Str}

theorem unescape_danglingName (hd : IsLevel d) :
    elektraUnescapeKeyName (danglingName P d) = P.uname ++ unescapeLevel d ++ [0] := by
  rw [← Path.unescapeKeyName_name, elektraUnescapeKeyName, elektraUnescapeKeyName, levels_danglingName hd,
    if_congr head_danglingName rfl rfl, if_congr P.head_name rfl rfl]
  simp

theorem dangling_finalize (hd : IsOpenLevel d) (key : Key) (P : Path) :
    Dangling (elektraFinalizeName key (danglingName P d)) P d :=
  ⟨hd, rfl, unescape_danglingName hd.toIsLevel, rfl, rfl⟩

theorem keyAddName_dangling (h : Dangling key P d) (hro : key.roName = false) {n : Str} (hn : n ≠ []) :
    keyAddName key (some n) =
      if elektraValidateKeyName n (n.length + 1) then
        let key' := elektraFinalizeName key ((levels n).foldl addLevel ⟨danglingName P d, false⟩).bytes
        ((if key.keySize = key'.keySize then 0 else key'.keySize : ℤ), key')
      else (-1, key) := by
  obtain ⟨c, t, hname⟩ := List.exists_cons_of_ne_nil (l := danglingName P d) (by simp [danglingName])
  have hpos := List.length_pos_of_ne_nil h.level.ne_nil
  have hsize : ¬ key.keySize = 2 := by
    rw [h.keySize, danglingName, List.length_append, List.length_cons]
    omega
  have hlen : ¬ n.length + 1 < 2 := by
    have := List.length_pos_of_ne_nil hn
    omega
  have hkey := h.key
  rw [hname] at hkey
  simp only [keyAddName, hro, hkey, Bool.false_eq_true, if_false, hlen, hname, hsize, decide_false, Bool.and_false]
  cases elektraValidateKeyName n (n.length + 1) <;> rfl

theorem validate_odd {n : Str} (h : OddRun n) : elektraValidateKeyName n (n.length + 1) = true :=
  (validate_all (isOpenLevel_of_odd h).ne_nil h.1).mpr (isOpenLevel_of_odd h).isOpen

/-- A path that lets the validation pass is closed, or an odd run of backslashes. -/
theorem levels_valid {n : Str} (hn : n ≠ []) (h0 : 0 ∉ n)
    (hv : elektraValidateKeyName n (n.length + 1) = true) :
    OddRun n ∧ levels n = [n] ∨ ¬ OddRun n ∧ ∀ l ∈ levels n, IsLevel l ∧ Closed l ∧ 0 ∉ l := by
  by_cases hodd : OddRun n
  · exact .inl ⟨hodd, by simpa using levels_cons (isOpenLevel_of_odd hodd).toIsLevel (.inl rfl)⟩
  · exact .inr ⟨hodd, fun l hl => level_of_mem h0 (closed_of_validate hn hv hodd) hl⟩

theorem keyAddName_shape (hkey : key.key = some P.name) (hsize : key.keySize = P.name.length + 1)
    (hro : key.roName = false) {n : Str} (hn : n ≠ []) (h0 : 0 ∉ n)
    (hv : elektraValidateKeyName n (n.length + 1) = true) :
    OddRun n ∧ Dangling (keyAddName key (some n)).2 P n ∨
    ¬ OddRun n ∧ ∃ Q : Path, HasName (keyAddName key (some n)).2 Q ∧ Q.root = P.root ∧
      Q.escaped = pathReduce P.escaped (levels n) := by
  rw [keyAddName_eq hkey hsize hro hn, if_pos hv]
  obtain ⟨hodd, hls⟩ | ⟨hodd, hls⟩ := levels_valid hn h0 hv
  · left
    have hd := isOpenLevel_of_odd hodd
    rw [hls, List.foldl_cons, List.foldl_nil, addLevel_open hd]
    exact ⟨hodd, dangling_finalize hd _ _⟩
  · obtain ⟨Q, hQ, hr, he⟩ := foldl_addLevel (levels n) P hls
    rw [hQ]
    exact .inr ⟨hodd, Q, hasName_finalize key Q, hr, he⟩

/-- What an accepted path makes of a key whose name ends in an open level. -/
theorem keyAddName_dangling_shape (h : Dangling key P d) (hro : key.roName = false) {n : Str} (hn : n ≠ [])
    (h0 : 0 ∉ n) (hv : elektraValidateKeyName n (n.length + 1) = true) :
    OddRun n ∧ Dangling (keyAddName key (some n)).2 P (d ++ pathSeparator :: n) ∨
    ¬ OddRun n ∧ ((∀ l ∈ levels n, l = str ".") ∧ Dangling (keyAddName key (some n)).2 P d ∨
      ∃ (pre : List Str) (l : Str) (rest : List Str), levels n = pre ++ l :: rest ∧ (∀ x ∈ pre, x = str ".") ∧
        l ≠ str "." ∧ ∃ Q : Path, HasName (keyAddName key (some n)).2 Q ∧ Q.root = P.root ∧
          Q.escaped = pathReduce
            (if l = str ".." then P.escaped else P.escaped ++ [d ++ pathSeparator :: l]) rest) := by
  rw [keyAddName_dangling h hro hn, if_pos hv]
  obtain ⟨hodd, hls⟩ | ⟨hodd, hls⟩ := levels_valid hn h0 hv
  · left
    have hd := isOpenLevel_of_odd hodd
    rw [hls, List.foldl_cons, List.foldl_nil, addLevel_dangling hd.ne_dot hd.ne_dots]
    exact ⟨hodd, dangling_finalize (h.level.extend hd) _ _⟩
  · obtain ⟨hall, hfold⟩ | ⟨pre, l, rest, hsplit, hpre, hl, Q, hQ, hr, he⟩ := foldl_dangling h.level (levels n) hls
    · rw [hfold]
      exact .inr ⟨hodd, .inl ⟨hall, dangling_finalize h.level _ _⟩⟩
    · rw [hQ]
      exact .inr ⟨hodd, .inr ⟨pre, l, rest, hsplit, hpre, hl, Q, hasName_finalize key Q, hr, he⟩⟩

/-! ## What the name functions make -/

/-- A call of a name function, and the one that removes the base name; each is also one that fails. Value,
metadata and flags are arbitrary. -/
inductive Made : Key → Prop
  | new : Made keyNew
  | call {key : Key} (c : NameCall) : Made key → Made (c.run key).2
  | removeBaseName {key : Key} : Made key → Made (keySetBaseName key none).2
  | rest {key key' : Key} : Made key → key'.key = key.key → key'.ukey = key.ukey →
      key'.keySize = key.keySize → key'.keyUSize = key.keyUSize → Made key'

theorem Shape.congr (h : Shape key) (hkey : key'.key = key.key) (hukey : key'.ukey = key.ukey)
    (hsize : key'.keySize = key.keySize) (husize : key'.keyUSize = key.keyUSize) : Shape key' := by
  cases h with
  | unnamed h => exact .unnamed (hkey.trans h)
  | empty h => exact .empty (hkey.trans h)
  | path P h =>
    exact .path P ⟨hkey.trans h.key, hsize.trans h.keySize, hukey.trans h.ukey, husize.trans h.keyUSize⟩
  | dangling P d h =>
    exact .dangling P d ⟨h.level, hkey.trans h.key, hukey.trans h.ukey, hsize.trans h.keySize,
      by rw [husize, hukey, h.keyUSize]⟩

theorem keyAddName_skips {n : Option Str} (h : key.roName = true ∨ keyName key = [] ∨ n = none ∨ n = some [] ∨
    ∃ s, n = some s ∧ ¬ elektraValidateKeyName s (s.length + 1) = true) : (keyAddName key n).2 = key := by
  unfold keyAddName
  split_ifs with hro
  · rfl
  · split
    · rfl
    · rfl
    · rename_i name hne hkey
      obtain h | h | rfl | rfl | ⟨s, rfl, h⟩ := h
      · exact absurd h hro
      · rw [keyName, hkey] at h
        exact absurd h hne
      · rfl
      · rfl
      · dsimp only
        by_cases hlen : s.length + 1 < 2
        · rw [if_pos hlen]
        · rw [if_neg hlen, if_pos (by simpa using h)]

theorem shape_addName (h : Shape key) (n : Option CString) : Shape ((NameCall.addName n).run key).2 := by
  rw [NameCall.run]
  by_cases hskip : key.roName = true ∨ keyName key = [] ∨ n.map Subtype.val = none ∨
      n.map Subtype.val = some [] ∨
      ∃ s, n.map Subtype.val = some s ∧ ¬ elektraValidateKeyName s (s.length + 1) = true
  · rwa [keyAddName_skips hskip]
  · push Not at hskip
    obtain ⟨hro, hname, hnone, hne, hvalid⟩ := hskip
    obtain _ | n := n
    · exact absurd rfl hnone
    have hro : key.roName = false := Bool.eq_false_iff.mpr hro
    have hn : n.1 ≠ [] := fun h => hne (congrArg some h)
    have hv := hvalid n.1 rfl
    cases h with
    | unnamed h => exact absurd (by simp [keyName, h]) hname
    | empty h => exact absurd (by simp [keyName, h]) hname
    | path P h =>
      obtain ⟨-, hd⟩ | ⟨-, Q, hQ, -⟩ := keyAddName_shape h.key h.keySize hro hn n.2 hv
      · exact .dangling _ _ hd
      · exact .path Q hQ
    | dangling P d h =>
      obtain ⟨-, hd⟩ | ⟨-, ⟨-, hd⟩ | ⟨_, _, _, -, -, -, Q, hQ, -⟩⟩ := keyAddName_dangling_shape h hro hn n.2 hv
      · exact .dangling _ _ hd
      · exact .dangling _ _ hd
      · exact .path Q hQ

theorem keySetNameBelow_shape {n : Str} {R : Root} (h : Start key n R) (hro : key.roName = false) (h0 : 0 ∉ n) :
    ((elektraKeySetNameBelow key n).1 = -1 ∧ (elektraKeySetNameBelow key n).2.key = none ∧
      ¬ OddRun (pathArgument n)) ∨
    ((elektraKeySetNameBelow key n).1 ≠ -1 ∧
      (OddRun (pathArgument n) ∧ Dangling (elektraKeySetNameBelow key n).2 ⟨R, []⟩ (pathArgument n) ∨
        ¬ OddRun (pathArgument n) ∧ ∃ Q : Path, HasName (elektraKeySetNameBelow key n).2 Q ∧ Q.root = R ∧
          Q.escaped = pathReduce [] (levels (pathArgument n)))) := by
  obtain ⟨hslashes, hret, hroot⟩ | ⟨hslashes, hrun⟩ := keySetNameBelow_eq h
  · right
    rw [hroot]
    refine ⟨hret, .inr ⟨fun hodd => ?_, _, hasName_finalize key _, rfl, by rw [levels_onlySlashes hslashes]; rfl⟩⟩
    have hd := isOpenLevel_of_odd hodd
    have hlevels : levels (pathArgument n) = [pathArgument n] := by
      simpa using levels_cons hd.toIsLevel (.inl rfl)
    rw [levels_onlySlashes hslashes] at hlevels
    cases hlevels
  · have hne : pathArgument n ≠ [] := by
      intro he
      rw [he] at hslashes
      cases hslashes
    have hnul : 0 ∉ pathArgument n := by
      rw [← h.argument]
      exact fun hm => h0 (List.mem_of_mem_drop hm)
    let start : Key := { key with key := some (Path.mk R []).name }
    have hadd := @keyAddName_eq start ⟨R, []⟩ rfl h.size hro _ hne
    rw [hrun]
    by_cases hv : elektraValidateKeyName (pathArgument n) ((pathArgument n).length + 1) = true
    · right
      have hret : (keyAddName start (some (pathArgument n))).1 ≠ -1 := by
        rw [hadd, if_pos hv]
        dsimp only
        split_ifs <;> omega
      dsimp only
      rw [if_neg hret]
      exact ⟨by dsimp only; omega, @keyAddName_shape start ⟨R, []⟩ rfl h.size hro _ hne hnul hv⟩
    · left
      have hret : (keyAddName start (some (pathArgument n))).1 = -1 := by rw [hadd, if_neg hv]
      dsimp only
      rw [if_pos hret]
      exact ⟨hret, rfl, fun hodd => hv (validate_odd hodd)⟩

theorem keySetOwner_none_key (key : Key) : (keySetOwner key none).key = key.key := by
  unfold keySetOwner keySetMeta
  split_ifs <;> rfl

theorem keySetName_shape {n : Str} (hn : n ≠ []) (h0 : 0 ∉ n) (hro : key.roName = false) :
    ((keySetName key (some n)).1 = -1 ∧ (keySetName key (some n)).2.key = none ∧
      ((keyGetNameNamespace (some n)).root = none ∨ ¬ OddRun (pathArgument n))) ∨
    ((keySetName key (some n)).1 ≠ -1 ∧ ∃ R, (keyGetNameNamespace (some n)).root = some R ∧
      (OddRun (pathArgument n) ∧ Dangling (keySetName key (some n)).2 ⟨R, []⟩ (pathArgument n) ∨
        ¬ OddRun (pathArgument n) ∧ ∃ Q : Path, HasName (keySetName key (some n)).2 Q ∧ Q.root = R ∧
          Q.escaped = pathReduce [] (levels (pathArgument n)))) := by
  obtain ⟨hroot, hret⟩ | ⟨key', R, hR, hstart, hro', hrun⟩ := keySetName_start hn hro
  · refine .inl ⟨hret, ?_, .inl hroot⟩
    have hset := keySetName_eq hro n
    have hspec := namespace_spec n
    cases hns : keyGetNameNamespace (some n) <;> rw [hns] at hset hspec hroot <;> try cases hroot
    · exact absurd hspec hn
    · rw [hset]
      exact keySetOwner_none_key _
  · rw [hrun]
    obtain ⟨hret, hkey, hodd⟩ | ⟨hret, h⟩ := keySetNameBelow_shape hstart hro' h0
    · exact .inl ⟨hret, hkey, .inr hodd⟩
    · exact .inr ⟨hret, R, hR, h⟩

theorem shape_setName (h : Shape key) (n : Option CString) : Shape ((NameCall.setName n).run key).2 := by
  rw [NameCall.run]
  by_cases hro : key.roName = true
  · have hkeep : keySetName key (n.map Subtype.val) = (-1, key) := by simp [keySetName, elektraKeySetName, hro]
    rwa [hkeep]
  have hro : key.roName = false := Bool.eq_false_iff.mpr hro
  by_cases hn : (n.map Subtype.val).getD [] = []
  · -- the empty name
    have hns : keyGetNameNamespace (n.map Subtype.val) = .empty := by
      obtain _ | n := n
      · rfl
      · have hnil : n.1 = [] := hn
        rw [Option.map_some, hnil]
        rfl
    have hrun : keySetName key (n.map Subtype.val) =
        (0, elektraFinalizeEmptyName (keySetOwner (elektraRemoveKeyName key) none)) := by
      simp only [keySetName, elektraKeySetName, hro, hns, Bool.false_eq_true, if_false]
    rw [hrun]
    exact .empty rfl
  · obtain _ | n := n
    · exact absurd rfl hn
    obtain ⟨-, hkey, -⟩ | ⟨-, R, -, ⟨-, hd⟩ | ⟨-, Q, hQ, -⟩⟩ := keySetName_shape (n := n.1) hn n.2 hro
    · exact .unnamed hkey
    · exact .dangling _ _ hd
    · exact .path Q hQ

/-! ### Base names -/

theorem keySetBaseName_danglingName (hkey : key.key = some (danglingName P d))
    (hsize : key.keySize = (danglingName P d).length + 1) (hd : IsLevel d) (hro : key.roName = false)
    (baseName : Option Str) :
    keySetBaseName key baseName =
      let key' := elektraFinalizeName key
        (baseName.elim P.stem fun s => P.stem ++ pathSeparator :: elektraEscapeKeyNamePart s)
      ((key'.keySize : ℤ), key') := by
  have hlevels : ¬ (levels (danglingName P d) = [] ∨
      (levels (danglingName P d)).length = 1 ∧ (danglingName P d).head? ≠ some pathSeparator) := by
    rw [levels_danglingName hd]
    rintro (hl | ⟨hl, hh⟩)
    · simp at hl
    · rw [List.length_append, List.length_singleton, Nat.add_eq_right, List.length_eq_zero_iff] at hl
      have hs : P.stem = [] := by
        by_contra hs
        exact Path.levels_ne_nil hs hl
      exact hh (head_danglingName.mpr (Path.stem_eq_nil.mp hs).1)
  have hlast : (levels (danglingName P d)).getLastD [] = d := by rw [levels_danglingName hd, List.getLastD_concat]
  have htake : (danglingName P d).take (key.keySize - (d.length + 1) - 1) = P.stem := by
    rw [hsize, ← take_danglingName (P := P) (d := d)]
    congr 1
    omega
  cases baseName with
  | none => simp only [keySetBaseName, hro, hkey, Bool.false_eq_true, if_false, hlevels, hlast, htake, Option.elim]
  | some s =>
    simp only [keySetBaseName, hro, hkey, Bool.false_eq_true, if_false, hlevels, hlast, htake, Option.elim,
      List.append_assoc, List.singleton_append]

theorem HasName.danglingName {s : CString} (h : HasName key (P.add s)) :
    key.key = some (danglingName P (elektraEscapeKeyNamePart s.1)) ∧
      key.keySize = (Elektra.danglingName P (elektraEscapeKeyNamePart s.1)).length + 1 := by
  rw [Elektra.danglingName, ← Path.name_add]
  exact ⟨h.key, h.keySize⟩

theorem keySetBaseName_root (h : HasName key P) (hp : P.parts = []) (baseName : Option Str) :
    keySetBaseName key baseName = (-1, key) := by
  have hroot : levels P.name = [] ∨ (levels P.name).length = 1 ∧ P.name.head? ≠ some pathSeparator := by
    rw [P.levels_name, Ne, P.head_name]
    by_cases hr : P.root = .cascading <;> simp [hr, Path.escaped, hp]
  unfold keySetBaseName
  rw [h.key]
  split_ifs <;> simp [hroot]

theorem shape_stem (key : Key) (P : Path) : Shape (elektraFinalizeName key P.stem) := by
  by_cases hs : P.stem = []
  · rw [hs]
    exact .empty rfl
  · rw [← Path.name_of_stem hs]
    exact .path P (hasName_finalize key P)

theorem shape_add (key : Key) (P : Path) (s : CString) :
    Shape (elektraFinalizeName key (P.stem ++ pathSeparator :: elektraEscapeKeyNamePart s.1)) := by
  rw [← Path.name_add]
  exact .path _ (hasName_finalize key _)

theorem shape_setBaseName (h : Shape key) (baseName : Option CString) :
    Shape (keySetBaseName key (baseName.map Subtype.val)).2 := by
  by_cases hro : key.roName = true
  · have hkeep : keySetBaseName key (baseName.map Subtype.val) = (-1, key) := by simp [keySetBaseName, hro]
    rwa [hkeep]
  have hro : key.roName = false := Bool.eq_false_iff.mpr hro
  have hset : ∀ {P : Path} {d : Str}, key.key = some (danglingName P d) →
      key.keySize = (danglingName P d).length + 1 → IsLevel d →
      Shape (keySetBaseName key (baseName.map Subtype.val)).2 := by
    intro P d hkey hsize hd
    rw [keySetBaseName_danglingName hkey hsize hd hro]
    cases baseName with
    | none => exact shape_stem key P
    | some s => exact shape_add key P s
  have hkey : ∀ name, key.key = some name → levels name = [] → keySetBaseName key (baseName.map Subtype.val) =
      (-1, key) := by
    intro name hname hnil
    simp [keySetBaseName, hro, hname, hnil]
  cases h with
  | unnamed h =>
    rw [keySetBaseName, hro, h]
    exact .unnamed h
  | empty h =>
    rw [hkey [] h rfl]
    exact .empty h
  | path P h =>
    obtain hp | ⟨Q, t, rfl⟩ := P.cases_parts
    · rw [keySetBaseName_root h hp]
      exact .path P h
    · exact hset h.danglingName.1 h.danglingName.2 (isPart_escape t.1).toIsLevel
  | dangling P d h => exact hset h.key h.keySize h.level.toIsLevel

theorem shape_addBaseName (h : Shape key) (s : CString) : Shape (keyAddBaseName key (some s.1)).2 := by
  by_cases hro : key.roName = true
  · have hkeep : keyAddBaseName key (some s.1) = (-1, key) := by simp [keyAddBaseName, hro]
    rwa [hkeep]
  have hro : key.roName = false := Bool.eq_false_iff.mpr hro
  cases h with
  | unnamed h =>
    rw [keyAddBaseName, hro, h]
    exact .unnamed h
  | empty h =>
    have hrun : (keyAddBaseName key (some s.1)).2 =
        elektraFinalizeName key (Path.stem ⟨.cascading, []⟩ ++ pathSeparator :: elektraEscapeKeyNamePart s.1) := by
      simp [keyAddBaseName, hro, h, Path.stem, Root.level, Path.escaped]
    rw [hrun]
    exact shape_add key _ s
  | path P h => exact .path _ (keyAddBaseName_spec h hro s).2.2
  | dangling P d h =>
    have hpart := isPart_escape s.1
    have hext := isPart_extend h.level hpart.toIsLevel hpart.closed
    have hne : danglingName P d ≠ [pathSeparator] := by
      intro he
      have hlen := congrArg List.length he
      have hpos := List.length_pos_of_ne_nil h.level.ne_nil
      rw [danglingName, List.length_append, List.length_cons, List.length_singleton] at hlen
      omega
    have hrun : (keyAddBaseName key (some s.1)).2 = elektraFinalizeName key (P.stem ++
        pathSeparator :: elektraEscapeKeyNamePart (unescapeLevel (d ++ pathSeparator :: elektraEscapeKeyNamePart s.1))) := by
      have hname : danglingName P d ++ [pathSeparator] ++ elektraEscapeKeyNamePart s.1 =
          P.stem ++ pathSeparator :: (d ++ pathSeparator :: elektraEscapeKeyNamePart s.1) := by simp [danglingName]
      rw [escape_unescape hext, ← hname]
      simp only [keyAddBaseName, hro, h.key, Bool.false_eq_true, if_false, if_neg hne]
    rw [hrun]
    exact shape_add key P ⟨_, nul_extend h.level.nul (nul_escape s.2)⟩

/-- **The keys that the name functions make have no name, the empty one, that of a path, or that of a path
with an open level behind it.** -/
theorem shape_of_made (h : Made key) : Shape key := by
  induction h with
  | new => exact .unnamed rfl
  | call c _ ih =>
    cases c with
    | setName n => exact shape_setName ih n
    | addName n => exact shape_addName ih n
    | addBaseName s => exact shape_addBaseName ih s
    | setBaseName s => exact shape_setBaseName ih (some s)
  | removeBaseName _ ih => exact shape_setBaseName ih none
  | rest _ hkey hukey hsize husize ih => exact ih.congr hkey hukey hsize husize

end Keys

end Elektra
