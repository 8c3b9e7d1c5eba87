import Elektra.Name.Canonical

/-!
# Base names

* `keyAddBaseName_spec`, `keySetBaseName_spec`: one part is added, or replaced;
* **`keyBaseName_eq`**: the base name is the last part;
* **`base_name_round_trip`**: escaping, unescaping and the base name functions agree.
-/

namespace Elektra

theorem Path.name_eq_slash {P : Path} : P.name = [pathSeparator] ↔ P.stem = [] := by
  refine ⟨fun h => ?_, name_of_root⟩
  have hr := P.head_name.mp (by rw [h]; rfl)
  obtain hp | ⟨Q, s, rfl⟩ := P.cases_parts
  · exact stem_eq_nil.mpr ⟨hr, hp⟩
  · have := congrArg List.length h
    have hpos := List.length_pos_of_ne_nil (isPart_escape s.1).ne_nil
    rw [name_add, List.length_append, List.length_cons, List.length_singleton] at this
    omega

/-- **`keyAddBaseName` adds one part.** -/
theorem keyAddBaseName_spec {key : Key} {P : Path} (h : HasName key P) (hro : key.roName = false)
    (s : CString) : (keyAddBaseName key (some s.1)).1 ≠ -1 ∧
      (keyAddBaseName key (some s.1)).2.roName = false ∧
      HasName (keyAddBaseName key (some s.1)).2 (P.add s) := by
  have hname : (if P.name = [pathSeparator] then P.name else P.name ++ [pathSeparator]) ++
      elektraEscapeKeyNamePart s.1 = (P.add s).name := by
    rw [Path.name_add]
    split_ifs with hn
    · have hs := Path.name_eq_slash.mp hn
      rw [hs, Path.name_of_root hs]
      rfl
    · have hs : P.stem ≠ [] := fun hs => hn (Path.name_eq_slash.mpr hs)
      rw [Path.name_of_stem hs, List.append_assoc]
      rfl
  have hrun : keyAddBaseName key (some s.1) =
      (((elektraFinalizeName key (P.add s).name).keySize : ℤ),
        elektraFinalizeName key (P.add s).name) := by
    simp only [keyAddBaseName, hro, h.key, Bool.false_eq_true, if_false, ← hname]
  rw [hrun]
  exact ⟨by dsimp only; omega, hro, hasName_finalize key _⟩

/-- **`keySetBaseName` replaces the last part.** -/
theorem keySetBaseName_spec {key : Key} {P : Path} {t : CString} (h : HasName key (P.add t))
    (hro : key.roName = false) (s : CString) : (keySetBaseName key (some s.1)).1 ≠ -1 ∧
      (keySetBaseName key (some s.1)).2.roName = false ∧
      HasName (keySetBaseName key (some s.1)).2 (P.add s) := by
  have hlevels : ¬ (levels (P.add t).name = [] ∨
      (levels (P.add t).name).length = 1 ∧ (P.add t).name.head? ≠ some pathSeparator) := by
    rw [Path.levels_add]
    rintro (hl | ⟨hl, hh⟩)
    · simp at hl
    · rw [List.length_append, List.length_singleton, Nat.add_eq_right, List.length_eq_zero_iff] at hl
      have hs : P.stem = [] := by
        by_contra hs
        exact Path.levels_ne_nil hs hl
      exact hh ((P.add t).head_name.mpr (Path.stem_eq_nil.mp hs).1)
  have hlast : (levels (P.add t).name).getLastD [] = elektraEscapeKeyNamePart t.1 := by
    rw [Path.levels_add, List.getLastD_concat]
  have htake : (P.add t).name.take (key.keySize - ((elektraEscapeKeyNamePart t.1).length + 1) - 1) =
      P.stem := by
    rw [h.keySize, Path.name_add, List.take_left']
    rw [List.length_append, List.length_cons]
    omega
  have hrun : keySetBaseName key (some s.1) =
      (((elektraFinalizeName key (P.add s).name).keySize : ℤ),
        elektraFinalizeName key (P.add s).name) := by
    simp only [keySetBaseName, hro, h.key, Bool.false_eq_true, if_false, hlevels, hlast, htake]
    rw [Path.name_add, List.append_assoc]
    rfl
  rw [hrun]
  exact ⟨by dsimp only; omega, hro, hasName_finalize key _⟩

/-! ## The base name -/

theorem length_escapeLoop : ∀ (s : Str) (n : ℕ), s.length ≤ (escapeLoop n s).length
  | [], _ => Nat.zero_le _
  | c :: s, n => by
    simp only [escapeLoop]
    split_ifs
    · simpa using length_escapeLoop s (n + 1)
    · have := length_escapeLoop s 0
      simp only [List.length_cons, List.length_append]
      omega
    · simpa using length_escapeLoop s 0

theorem length_escape (s : Str) : s.length ≤ (elektraEscapeKeyNamePart s).length := by
  obtain ⟨k, t, ht, rfl⟩ := exists_run s
  rw [elektraEscapeKeyNamePart, escapeBegin_run ht]
  split_ifs with h0
  · simp [h0.1, h0.2]
  · simp [elektraWriteBackslashes]
  · exact length_escapeLoop _ 0

theorem Path.uname_add (P : Path) (s : CString) : (P.add s).uname = P.uname ++ s.1 ++ [0] := by
  simp [uname, add]

theorem Path.uname_concat (P : Path) : ∃ u, P.uname = u ++ [0] := by
  obtain h | ⟨Q, s, rfl⟩ := P.cases_parts
  · exact ⟨P.root.level, by simp [uname, h]⟩
  · exact ⟨_, Q.uname_add s⟩

theorem buffer_take {key : Key} {P : Path} (h : HasName key P) {u : Str} (hu : P.uname = u ++ [0]) :
    (P.name ++ 0 :: key.ukey).take (key.keySize + key.keyUSize - 1) = P.name ++ 0 :: u := by
  have hlen := congrArg List.length hu
  rw [List.length_append, List.length_singleton] at hlen
  have hall : P.name ++ 0 :: key.ukey = (P.name ++ 0 :: u) ++ [0] := by
    rw [h.ukey, hu]; simp
  rw [hall, h.keySize, h.keyUSize, List.take_left']
  rw [List.length_append, List.length_cons]
  omega

theorem takeWhile_nul {x s : Str} (hs : 0 ∉ s) :
    ((x ++ 0 :: s).reverse.takeWhile (· ≠ 0)).reverse = s := by
  have hmem : ∀ c ∈ s.reverse, decide (c ≠ 0) = true := fun c hc =>
    decide_eq_true fun h0 => hs (by simpa [h0] using hc)
  rw [List.reverse_append, List.reverse_cons, List.append_assoc,
    List.takeWhile_append_of_pos hmem]
  simp

/-- **The base name is the last part, or empty for a root.** -/
theorem keyBaseName_eq {key : Key} {P : Path} (h : HasName key P) :
    keyBaseName key = (P.parts.getLast?.map Subtype.val).getD [] := by
  simp only [keyBaseName, h.key]
  obtain hp | ⟨Q, s, rfl⟩ := P.cases_parts
  · have hu : P.uname = P.root.level ++ [0] := by simp [Path.uname, hp]
    have hlen := congrArg List.length hu
    rw [List.length_append, List.length_singleton] at hlen
    rw [buffer_take h hu, takeWhile_nul P.root.nul_level, hp]
    cases hr : P.root with
    | cascading => simp [Root.level]
    | ns m =>
      have hname : P.name = m.name := by
        simp [Path.name, Path.stem, Path.escaped, hp, hr, Root.level, m.name_ne_nil]
      rw [if_neg]
      · rfl
      · rw [h.keyUSize, hlen, hname, hr]
        simp [Root.level]
  · obtain ⟨u, hu⟩ := Q.uname_concat
    have hus : (Q.add s).uname = (u ++ 0 :: s.1) ++ [0] := by
      rw [Path.uname_add, hu]; simp
    have hlen := congrArg List.length hus
    have hesc := length_escape s.1
    rw [buffer_take h hus, ← List.cons_append, ← List.append_assoc, takeWhile_nul s.2, if_pos]
    · simp [Path.add]
    · rw [h.keyUSize, Path.name_add]
      simp only [List.length_append, List.length_cons, List.length_nil] at hlen ⊢
      omega

/-! ## The round trips -/

/-- **Escaping, unescaping and the base name functions agree.** -/
theorem base_name_round_trip {key : Key} {P : Path} (h : HasName key P) (hro : key.roName = false)
    (s : CString) :
    unescapeLevel (elektraEscapeKeyNamePart s.1) = s.1 ∧
    (keyBaseName (keyAddBaseName key (some s.1)).2 = s.1 ∧
      HasName (keyAddBaseName key (some s.1)).2 ⟨P.root, P.parts ++ [s]⟩) ∧
    (P.parts ≠ [] → keyBaseName (keySetBaseName key (some s.1)).2 = s.1 ∧
      HasName (keySetBaseName key (some s.1)).2 ⟨P.root, P.parts.dropLast ++ [s]⟩) ∧
    ∀ p ∈ levels P.name, elektraEscapeKeyNamePart (unescapeLevel p) = p := by
  have hbase : ∀ {k : Key} {Q : Path}, HasName k (Q.add s) → keyBaseName k = s.1 := fun hk => by
    rw [keyBaseName_eq hk]; simp [Path.add]
  have hadd := (keyAddBaseName_spec h hro s).2.2
  refine ⟨unescape_escape s.1, ⟨hbase hadd, hadd⟩, fun hp => ?_, fun p hp => ?_⟩
  · obtain hp' | ⟨Q, t, rfl⟩ := P.cases_parts
    · exact absurd hp' hp
    · have hset := (keySetBaseName_spec h hro s).2.2
      exact ⟨hbase hset, by simpa [Path.add] using hset⟩
  · rw [Path.levels_name] at hp
    obtain hp | hp := List.mem_append.mp hp
    · cases hr : P.root with
      | cascading => simp [hr] at hp
      | ns m =>
        obtain rfl : p = m.name := by simpa [hr, Root.level] using hp
        cases m <;> rfl
    · exact escape_unescape (Path.isPart_of_mem hp)

/-- `user/a` -/
def userA : Path := ⟨.ns .user, [⟨str "a", by decide⟩]⟩

theorem hasName_userA : HasName (keySetName keyNew (some (str "user/a"))).2 userA :=
  ⟨rfl, rfl, rfl, rfl⟩

theorem base_name_round_trip_userA :
    unescapeLevel (elektraEscapeKeyNamePart (str "..")) = str ".." ∧
    (keyBaseName (keyAddBaseName (keySetName keyNew (some (str "user/a"))).2 (some (str ".."))).2 =
        str ".." ∧
      HasName (keyAddBaseName (keySetName keyNew (some (str "user/a"))).2 (some (str ".."))).2
        ⟨userA.root, userA.parts ++ [⟨str "..", by decide⟩]⟩) ∧
    (userA.parts ≠ [] →
      keyBaseName (keySetBaseName (keySetName keyNew (some (str "user/a"))).2 (some (str ".."))).2 =
        str ".." ∧
      HasName (keySetBaseName (keySetName keyNew (some (str "user/a"))).2 (some (str ".."))).2
        ⟨userA.root, userA.parts.dropLast ++ [⟨str "..", by decide⟩]⟩) ∧
    ∀ p ∈ levels userA.name, elektraEscapeKeyNamePart (unescapeLevel p) = p :=
  base_name_round_trip hasName_userA rfl ⟨str "..", by decide⟩

/-- The loop alone leaves the backslash that begins the part. -/
theorem unescapeKeyNamePart_dot :
    ¬ ∀ s : CString, elektraUnescapeKeyNamePart (elektraEscapeKeyNamePart s.1) = s.1 := fun h =>
  absurd (h ⟨str ".", by decide⟩) (by decide)

end Elektra
