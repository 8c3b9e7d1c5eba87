import Elektra.Name.Below
import Elektra.KeySet.Model

/-!
# Relative names

* `elektraKeyGetRelativeName`;
* `Path.rest`, **`elektraKeyGetRelativeName_eq`**: the parts behind those of the parent;
* `RelativeName`, **`relativeName`**: for the parent `/` it is the whole name.
-/

namespace Elektra.Ease

/-- Where `sub` starts in `s`. -/
def strstrIndex (s sub : Str) : ℕ := (s.tails.findIdx? sub.isPrefixOf).getD 0

def elektraKeyGetRelativeName (cur parentKey : Key) : Str :=
  let offset :=
    if keyName parentKey = [pathSeparator] then 0
    else if (keyName parentKey).head? = some pathSeparator ∧ (keyName cur).head? ≠ some pathSeparator then
      parentKey.keySize + strstrIndex (keyName cur) (keyName parentKey)
    else parentKey.keySize
  (keyName cur).drop offset

/-- The parts of `Q` behind those of `P`. -/
def rest (P Q : Path) : Path := ⟨.cascading, Q.parts.drop P.parts.length⟩

/-- What `elektraKeyGetRelativeName` is for: the names of the parts behind the parent's, which lead from
its place to the one of the key. Adding a name of backslashes only is another matter. -/
structure RelativeName (P Q : Path) (name : Str) : Prop where
  joined : pathSeparator :: name = join (rest P Q).escaped
  levels : levels name = (rest P Q).escaped
  head : name.head? ≠ some pathSeparator
  added : ∀ {key : Key}, HasName key ⟨Q.root, P.parts⟩ → key.roName = false → ¬ AllBackslashes name →
    (keyAddName key (some name)).1 ≠ -1 ∧ HasName (keyAddName key (some name)).2 Q

section Names

variable {P Q : Path}

theorem escaped_rest (h : P.parts <+: Q.parts) : Q.escaped = P.escaped ++ (rest P Q).escaped := by
  rw [Path.escaped, Path.escaped, Path.escaped, ← List.map_append, rest]
  obtain ⟨t, ht⟩ := h
  rw [← ht, List.drop_left]

theorem escaped_rest_ne (h : P.Above Q) : (rest P Q).escaped ≠ [] := by
  obtain ⟨-, hpre, hne⟩ := h
  intro he
  have hdrop : Q.parts.drop P.parts.length = [] := List.map_eq_nil_iff.mp he
  obtain ⟨t, ht⟩ := hpre
  rw [← ht, List.drop_left] at hdrop
  rw [hdrop, List.append_nil] at ht
  exact hne ht

theorem join_rest (h : P.Above Q) : pathSeparator :: (join (rest P Q).escaped).drop 1 = join (rest P Q).escaped := by
  obtain ⟨p, ps, hp⟩ := List.exists_cons_of_ne_nil (escaped_rest_ne h)
  rw [hp]
  rfl

/-- The first place of a name that begins with a separator, behind bytes without one. -/
theorem strstrIndex_append {pre : Str} (sub t : Str) (hpre : pathSeparator ∉ pre) :
    strstrIndex (pre ++ (pathSeparator :: sub ++ t)) (pathSeparator :: sub) = pre.length := by
  have hfind : (pre ++ (pathSeparator :: sub ++ t)).tails.findIdx? (pathSeparator :: sub).isPrefixOf =
      some pre.length := by
    induction pre with
    | nil =>
      rw [List.nil_append, List.cons_append, List.tails_cons, List.findIdx?_cons, if_pos]
      · rfl
      · simp
    | cons c pre ih =>
      have hc : pathSeparator ≠ c := fun he => hpre (by simp [he])
      rw [List.cons_append, List.tails_cons, List.findIdx?_cons, if_neg (by simp [hc]),
        ih fun hmem => hpre (List.mem_cons_of_mem c hmem)]
      rfl
  rw [strstrIndex, hfind]
  rfl

/-- **The relative name of a key below its parent.** -/
theorem elektraKeyGetRelativeName_eq {cur parentKey : Key} (hP : HasName parentKey P) (hQ : HasName cur Q)
    (habove : P.Above Q) (hroot : P.root = Q.root ∨ P.root = .cascading) :
    elektraKeyGetRelativeName cur parentKey =
      if P = ⟨.cascading, []⟩ then Q.name else (join (rest P Q).escaped).drop 1 := by
  have hpn : keyName parentKey = P.name := by rw [keyName, hP.key]; rfl
  have hqn : keyName cur = Q.name := by rw [keyName, hQ.key]; rfl
  have hesc := escaped_rest habove.2.1
  have hjoin := join_rest habove
  rw [elektraKeyGetRelativeName, hpn, hqn, hP.keySize]
  by_cases hs : P.stem = []
  · have hnil : P = ⟨.cascading, []⟩ := by
      obtain ⟨hr, hp⟩ := Path.stem_eq_nil.mp hs
      cases P
      cases hr
      cases hp
      rfl
    rw [if_pos (Path.name_of_root hs), if_pos hnil]
    rfl
  have hne : P ≠ ⟨.cascading, []⟩ := fun he => hs (by rw [he]; rfl)
  have hdrop : ∀ pre : Str, (pre ++ join (rest P Q).escaped).drop (pre.length + 1) =
      (join (rest P Q).escaped).drop 1 := fun pre => by
    rw [← List.drop_drop, List.drop_left]
  have hqs : Q.stem = Q.root.level ++ join P.escaped ++ join (rest P Q).escaped := by
    rw [Path.stem, hesc, join_append, List.append_assoc]
  have hq : Q.name = Q.root.level ++ join P.escaped ++ join (rest P Q).escaped := by
    rw [← hqs]
    refine Path.name_of_stem fun h => ?_
    rw [hqs, ← hjoin] at h
    exact absurd h (by simp)
  rw [if_neg (fun h => hs (Path.name_eq_slash.mp h)), if_neg hne, hq, Path.name_of_stem hs]
  by_cases hr : P.root = Q.root
  · -- the name of the parent begins the one of the key
    have hstem : Q.root.level ++ join P.escaped = P.stem := by rw [← hr, Path.stem]
    rw [if_neg, hstem]
    · exact hdrop P.stem
    · rintro ⟨hh, hh'⟩
      rw [← Path.name_of_stem hs, Path.head_name] at hh
      rw [← hq, ne_eq, Path.head_name] at hh'
      exact hh' (hr ▸ hh)
  · -- it follows the namespace
    have hc := hroot.resolve_left hr
    have hstem : P.stem = join P.escaped := by rw [Path.stem, hc]; rfl
    rw [if_pos]
    · obtain ⟨t, ht⟩ := (join_cases P.escaped).resolve_left fun h => hs (hstem.trans h)
      have hpre : pathSeparator ∉ Q.root.level := by
        cases Q.root with
        | cascading => exact List.not_mem_nil
        | ns m => cases m <;> decide
      have hidx := strstrIndex_append t (join (rest P Q).escaped) hpre
      rw [hstem, ht, List.append_assoc, hidx, Nat.add_right_comm, Nat.add_comm _ Q.root.level.length,
        ← List.append_assoc, ← List.length_append]
      exact hdrop _
    · rw [← hq, ← Path.name_of_stem hs, ne_eq, Path.head_name, Path.head_name]
      exact ⟨hc, fun h => hr (hc.trans h.symm)⟩

/-- Adding the escaped parts of a path, without backslashes alone, goes to that place. -/
theorem keyAddName_parts {key : Key} {S T : Path} (hkey : HasName key P) (hro : key.roName = false)
    (hT : T.escaped ≠ []) (hall : ¬ AllBackslashes ((join T.escaped).drop 1)) (hroot : S.root = P.root)
    (hesc : S.escaped = P.escaped ++ T.escaped) :
    (keyAddName key (some ((join T.escaped).drop 1))).1 ≠ -1 ∧
      HasName (keyAddName key (some ((join T.escaped).drop 1))).2 S := by
  have hne : (join T.escaped).drop 1 ≠ [] := fun h => hT <| by rw [← levels_path T, h, levels_nil]
  have hvalid := (validate_iff hne hall).mpr (closed_path T)
  have h0 : 0 ∉ (join T.escaped).drop 1 := fun h =>
    Path.nul_name ⟨.ns .user, T.parts⟩ (by
      rw [Path.name_ns]
      exact List.mem_append_right _ (List.mem_of_mem_drop h))
  obtain ⟨-, hbad⟩ | ⟨-, hret, -, R, hR, hr, he⟩ :=
    keyAddName_spec hkey.key hkey.keySize hro hne h0 fun h => hall h.1
  · exact absurd hvalid hbad
  rw [levels_path, pathReduce_parts _ _ fun p hp => Path.isPart_of_mem hp, ← hesc] at he
  have hRS : R = S := Path.ext_escaped (hr.trans hroot.symm) he
  exact ⟨hret, hRS ▸ hR⟩

theorem relativeName_rest (h : P.Above Q) : RelativeName P Q ((join (rest P Q).escaped).drop 1) where
  joined := join_rest h
  levels := levels_path (rest P Q)
  head := by
    obtain ⟨p, ps, hp⟩ := List.exists_cons_of_ne_nil (escaped_rest_ne h)
    have hpart : IsPart p := Path.isPart_of_mem (P := rest P Q) (hp ▸ List.mem_cons_self)
    obtain ⟨c, s, rfl, hc⟩ := hpart.toIsLevel.cons
    rw [hp]
    exact fun he => hc (Option.some.inj he)
  added hkey hro hall :=
    keyAddName_parts hkey hro (escaped_rest_ne h) hall rfl (escaped_rest h.2.1)

end Names

/-- **Where the parent is not `/`, the relative name leads from it to the key;** below `/` it is the whole
name. -/
theorem relativeName {cur parentKey : Key} {P Q : Path} (hP : HasName parentKey P) (hQ : HasName cur Q)
    (habove : P.Above Q) (hroot : P.root = Q.root ∨ P.root = .cascading) :
    if P = ⟨.cascading, []⟩ then elektraKeyGetRelativeName cur parentKey = Q.name
    else RelativeName P Q (elektraKeyGetRelativeName cur parentKey) := by
  rw [elektraKeyGetRelativeName_eq hP hQ habove hroot]
  by_cases hnil : P = ⟨.cascading, []⟩
  · rw [if_pos hnil, if_pos hnil]
  · rw [if_neg hnil, if_neg hnil]
    exact relativeName_rest habove

theorem relativeName_userAB : RelativeName userA (userA.add ⟨str "b", by decide⟩)
    (elektraKeyGetRelativeName (keyNewName (str "user/a/b")) (keyNewName (str "user/a"))) := by
  have hQ : HasName (keyNewName (str "user/a/b")) (userA.add ⟨str "b", by decide⟩) :=
    ⟨by decide +kernel, by decide +kernel, by decide +kernel, by decide +kernel⟩
  have h := relativeName hasName_userA hQ (by decide) (Or.inl rfl)
  rwa [if_neg (by decide)] at h

/-- Below `/`, the name of `user/a` is `user/a`, which leads from `user` to `user/user/a`. -/
theorem not_relativeName : ¬ ∀ (cur parentKey : Key) (P Q : Path), HasName parentKey P → HasName cur Q →
    P.Above Q → P.root = Q.root ∨ P.root = .cascading →
    RelativeName P Q (elektraKeyGetRelativeName cur parentKey) := by
  intro h
  have hname : elektraKeyGetRelativeName (keyNewName (str "user/a")) (keyNewName (str "/")) = str "user/a" := by
    decide +kernel
  have hrel := h (keyNewName (str "user/a")) (keyNewName (str "/")) ⟨.cascading, []⟩ userA
    ⟨by decide +kernel, by decide +kernel, by decide +kernel, by decide +kernel⟩ hasName_userA
    (by decide) (Or.inr rfl)
  rw [hname] at hrel
  have hS : HasName (keyNewName (str "user")) ⟨.ns .user, []⟩ :=
    ⟨by decide +kernel, by decide +kernel, by decide +kernel, by decide +kernel⟩
  have hadd := (hrel.added hS (by decide +kernel) (by decide)).2.key
  revert hadd
  decide +kernel

end Elektra.Ease
