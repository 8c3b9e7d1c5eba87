import Elektra.Name.Dangling

/-!
# Adding and removing base names

* `remove_of_add`: a base name is removed again, but below the cascading root;
* `setBaseName_eq`: setting a base name is removing it and adding the new one;
* **`base_name_undone`**.

The defect is that `keySetBaseName` leaves the empty name where the base name of a cascading key of one part
is removed; `elektraRemoveOneLevel` strips such a key down to the root.
-/

namespace Elektra

section Removal

variable {key : Key} {P : Path}

theorem stem_ne_slash (P : Path) : P.stem ≠ [pathSeparator] := by
  intro h
  have hname := Path.name_of_stem (P := P) (by rw [h]; simp)
  exact absurd (Path.name_eq_slash.mp (hname.trans h)) (by rw [h]; simp)

theorem remove_of_add (h : HasName key P) (hro : key.roName = false) (s : CString) :
    ∃ key' : Key, keySetBaseName (keyAddBaseName key (some s.1)).2 none =
      (((elektraFinalizeName key' P.stem).keySize : ℤ), elektraFinalizeName key' P.stem) := by
  obtain ⟨-, hro', hadd⟩ := keyAddBaseName_spec h hro s
  exact ⟨_, keySetBaseName_danglingName hadd.danglingName.1 hadd.danglingName.2 (isPart_escape s.1).toIsLevel
    hro' none⟩

theorem setBaseName_eq (h : HasName key P) (t : CString) :
    keySetBaseName key (some t.1) =
      let r := keySetBaseName key none
      if r.1 = -1 then r else keyAddBaseName r.2 (some t.1) := by
  by_cases hro : key.roName = true
  · have hkeep : ∀ baseName, keySetBaseName key baseName = (-1, key) := fun _ => by simp [keySetBaseName, hro]
    rw [hkeep, hkeep]
    rfl
  have hro : key.roName = false := Bool.eq_false_iff.mpr hro
  obtain hp | ⟨Q, u, rfl⟩ := P.cases_parts
  · rw [keySetBaseName_root h hp, keySetBaseName_root h hp]
    rfl
  · have hset := keySetBaseName_danglingName h.danglingName.1 h.danglingName.2 (isPart_escape u.1).toIsLevel hro
    have hret : ¬ ((elektraFinalizeName key Q.stem).keySize : ℤ) = -1 := by omega
    have hname : Q.stem ++ pathSeparator :: elektraEscapeKeyNamePart t.1 =
        Q.stem ++ [pathSeparator] ++ elektraEscapeKeyNamePart t.1 := by simp
    rw [hset, hset]
    dsimp only [Option.elim]
    rw [if_neg hret, keyAddBaseName, hname]
    simp only [elektraFinalizeName, hro, Bool.false_eq_true, if_false, if_neg (stem_ne_slash Q)]

/-- **A base name that was added is removed again, but below the cascading root; setting a base name is
removing it and adding another.** -/
theorem base_name_undone (h : HasName key P) (s t : CString) :
    (HasName (keySetBaseName (keyAddBaseName key (some s.1)).2 none).2 P ↔
      key.roName = true ∨ keyName key ≠ [pathSeparator]) ∧
    keySetBaseName key (some t.1) =
      let r := keySetBaseName key none
      if r.1 = -1 then r else keyAddBaseName r.2 (some t.1) := by
  refine ⟨?_, setBaseName_eq h t⟩
  have hname : keyName key = P.name := by simp [keyName, h.key]
  by_cases hro : key.roName = true
  · have hadd : keyAddBaseName key (some s.1) = (-1, key) := by simp [keyAddBaseName, hro]
    have hkeep : keySetBaseName key none = (-1, key) := by simp [keySetBaseName, hro]
    rw [hadd, hkeep]
    exact ⟨fun _ => .inl hro, fun _ => h⟩
  obtain ⟨key', hrun⟩ := remove_of_add h (Bool.eq_false_iff.mpr hro) s
  rw [hrun, hname, or_iff_right hro, Ne, Path.name_eq_slash]
  dsimp only
  by_cases hs : P.stem = []
  · -- the empty name is not that of the root
    refine ⟨fun hk => absurd hk.key ?_, fun hne => absurd hs hne⟩
    rw [hs]
    exact fun he => P.name_ne_nil (Option.some.inj he).symm
  · rw [← Path.name_of_stem hs]
    exact ⟨fun _ => by rwa [Path.name_of_stem hs], fun _ => hasName_finalize key' P⟩

end Removal

theorem base_name_undone_userA :
    (HasName (keySetBaseName (keyAddBaseName (keySetName keyNew (some (str "user/a"))).2 (some (str ".."))).2
        none).2 userA ↔
      (keySetName keyNew (some (str "user/a"))).2.roName = true ∨
        keyName (keySetName keyNew (some (str "user/a"))).2 ≠ [pathSeparator]) ∧
    keySetBaseName (keySetName keyNew (some (str "user/a"))).2 (some (str "b")) =
      let r := keySetBaseName (keySetName keyNew (some (str "user/a"))).2 none
      if r.1 = -1 then r else keyAddBaseName r.2 (some (str "b")) :=
  base_name_undone hasName_userA ⟨str "..", by decide⟩ ⟨str "b", by decide⟩

/-- **Below `/` a base name leaves the empty name.** -/
theorem not_base_name_undone :
    keyName (keySetName keyNew (some (str "/"))).2 = str "/" ∧
    (keySetBaseName (keyAddBaseName (keySetName keyNew (some (str "/"))).2 (some (str "a"))).2 none).1 = 1 ∧
    keyName (keySetBaseName (keyAddBaseName (keySetName keyNew (some (str "/"))).2 (some (str "a"))).2 none).2 =
      [] := by
  decide +kernel

end Elektra
