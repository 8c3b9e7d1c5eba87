import Elektra.Name.Canonical

/-!
# Renaming a key to any string

Lookups rename their keys to strings of any kind, by `elektraFinalizeName` or by `keySetName`. The
name that a key gets depends on the string only, and the unescaped name is that of the name.

* `unameOf`, `Finalized`;
* `givenName`, **`keySetName_finalized`**;
* `Key.rest`: what names do not concern; **`keySetName_rest`**, `keyAddName_named`.
-/

namespace Elektra

/-- The unescaped name of a key with this name. -/
def unameOf (name : Str) : Str := if name = [] then [0] else elektraUnescapeKeyName name

/-- The name, the unescaped name and its size agree. -/
structure Finalized (k : Key) (name : Option Str) : Prop where
  key : k.key = name
  ukey : ∀ n, name = some n → k.ukey = unameOf n
  sized : k.keyUSize = k.ukey.length

theorem finalized_finalize (key : Key) {name : Str} (h : name ≠ []) :
    Finalized (elektraFinalizeName key name) (some name) where
  key := rfl
  ukey n hn := by
    obtain rfl := Option.some.inj hn
    rw [unameOf, if_neg h]
    rfl
  sized := rfl

theorem HasName.finalized {key : Key} {P : Path} (h : HasName key P) :
    Finalized key (some P.name) where
  key := h.key
  ukey n hn := by
    obtain rfl := Option.some.inj hn
    rw [unameOf, if_neg P.name_ne_nil, P.unescapeKeyName_name, h.ukey]
  sized := by rw [h.keyUSize, h.ukey]

/-! ## The last of several levels -/

theorem length_le_levelsLoop : ∀ (fuel : ℕ) (p l : Str), l ∈ levelsLoop fuel p →
    l.length ≤ (p.dropWhile (· = pathSeparator)).length
  | 0, _, _, h => absurd h List.not_mem_nil
  | fuel + 1, p, l, h => by
    rw [levelsLoop, keyNameGetOneLevel] at h
    generalize p.dropWhile (· = pathSeparator) = real at h ⊢
    cases real with
    | nil => exact absurd h List.not_mem_nil
    | cons c real =>
      obtain rfl | h := List.mem_cons.mp h
      · exact (List.take_sublist _ _).length_le
      · exact ((length_le_levelsLoop fuel _ l h).trans (List.dropWhile_sublist _).length_le).trans
          (List.drop_sublist _ _).length_le

/-- Before the last of several levels, there is another one and a separator. -/
theorem length_last_level {p : Str} (h : 1 < (levels p).length) :
    ((levels p).getLastD []).length + 1 < p.length := by
  cases hp : p.length with
  | zero => simp [levels, hp, levelsLoop] at h
  | succ fuel =>
    have hle := (List.dropWhile_sublist (p := (· = pathSeparator)) (l := p)).length_le
    rw [levels, hp, levelsLoop, keyNameGetOneLevel] at h ⊢
    have hhead : ∀ c, (p.dropWhile (· = pathSeparator)).head? = some c → c ≠ pathSeparator := by
      intro c hc he
      have := List.head?_dropWhile_not (fun c => decide (c = pathSeparator)) p
      rw [hc] at this
      simp [he] at this
    generalize p.dropWhile (· = pathSeparator) = real at h hle hhead ⊢
    cases real with
    | nil => simp at h
    | cons c t =>
      have hsize : 1 ≤ levelSize 0 (c :: t) := by
        rw [levelSize]
        split_ifs with h1 h2
        · omega
        · exact absurd h2.1 (hhead c rfl)
        · omega
      dsimp only at h ⊢
      set rest := levelsLoop fuel ((c :: t).drop (levelSize 0 (c :: t))) with hrest
      obtain ⟨l, rest', hcons⟩ : ∃ l rest', rest = l :: rest' :=
        List.exists_cons_of_length_pos (by simpa using h)
      have hmem : rest.getLastD ((c :: t).take (levelSize 0 (c :: t))) ∈ rest := by
        rw [hcons, List.getLastD_cons]
        exact List.getLastD_mem_cons
      have hlast := length_le_levelsLoop fuel _ _ hmem
      rw [List.getLastD_cons]
      obtain hnil | ⟨t', ht', -⟩ := drop_levelSize (c :: t) 0
      · rw [hnil, hrest] at hlast
        rw [hnil] at hrest
        cases fuel <;> simp [hrest, levelsLoop, keyNameGetOneLevel] at hcons
      · have hlen := congrArg List.length ht'
        rw [ht', List.dropWhile_cons_of_pos (by simp)] at hlast
        have hdrop := (List.dropWhile_sublist (p := (· = pathSeparator)) (l := t')).length_le
        rw [List.length_drop, List.length_cons] at hlen
        simp only [List.length_cons] at hlen hle
        omega

/-! ## The name of a string -/

theorem addLevel_ne_nil {b : NameBuffer} (h : b.bytes ≠ []) (l : Str) :
    (addLevel b l).bytes ≠ [] := by
  unfold addLevel
  split_ifs with h1 h2 h3
  · exact h
  · unfold elektraRemoveOneLevel
    dsimp only
    split_ifs with hlen hhead
    · have := length_last_level hlen
      have hpos := List.length_pos_of_ne_nil h
      simp only [ne_eq, List.take_eq_nil_iff, h, or_false]
      omega
    · simpa using h
    · exact h
  · simp [h]
  · simp

theorem foldl_addLevel_ne_nil : ∀ (ls : List Str) {b : NameBuffer}, b.bytes ≠ [] →
    (ls.foldl addLevel b).bytes ≠ []
  | [], _, h => h
  | l :: ls, _, h => foldl_addLevel_ne_nil ls (addLevel_ne_nil h l)

/-- The name that a path gives under a root. -/
def givenName (R : Root) (path : Str) : Option Str :=
  if elektraOnlySlashes path then some (Path.mk R []).name
  else if elektraValidateKeyName path (path.length + 1) then
    some ((levels path).foldl addLevel (Path.mk R []).buffer).bytes
  else none

theorem finalized_remove (key : Key) : Finalized (elektraRemoveKeyName key) none :=
  ⟨rfl, nofun, rfl⟩

theorem keySetNameBelow_finalized {key : Key} {n : Str} {R : Root} (h : Start key n R)
    (hro : key.roName = false) :
    Finalized (elektraKeySetNameBelow key n).2 (givenName R (pathArgument n)) ∧
      (elektraKeySetNameBelow key n).2.roName = false := by
  obtain ⟨hslashes, -, hroot⟩ | ⟨hslashes, hrun⟩ := keySetNameBelow_eq h
  · rw [hroot, givenName, if_pos hslashes]
    exact ⟨finalized_finalize key (Path.name_ne_nil _), hro⟩
  · have hne : pathArgument n ≠ [] := by
      intro he
      rw [he] at hslashes
      cases hslashes
    have hadd := @keyAddName_eq { key with key := some (Path.mk R []).name } (Path.mk R []) rfl h.size
      hro _ hne
    rw [hrun, hadd, givenName, if_neg (Bool.eq_false_iff.mp hslashes)]
    by_cases hv : elektraValidateKeyName (pathArgument n) ((pathArgument n).length + 1) = true
    · simp only [if_pos hv]
      have hret : ∀ size : ℕ, (if key.keySize = size then 0 else (size : ℤ)) ≠ -1 := fun size => by
        split_ifs <;> omega
      rw [if_neg (hret _)]
      refine ⟨finalized_finalize _ (foldl_addLevel_ne_nil _ ?_), hro⟩
      exact Path.name_ne_nil _
    · simp only [if_neg hv]
      exact ⟨finalized_remove _, hro⟩

theorem finalized_owner {key : Key} {name : Option Str} (h : Finalized key name)
    (o : Option Str) : Finalized (keySetOwner key o) name := by
  have hmeta : ∀ v, Finalized (keySetMeta key (str "owner") v).2 name := by
    intro v
    unfold keySetMeta
    split_ifs
    · exact h
    · cases v <;> exact ⟨h.key, h.ukey, h.sized⟩
  unfold keySetOwner
  split <;> exact hmeta _

/-- **The name that a key gets depends on the string only.** -/
theorem keySetName_finalized (n : Str) : ∃ name, ∀ key : Key, key.roName = false →
    Finalized (keySetName key (some n)).2 name ∧ (keySetName key (some n)).2.roName = false := by
  by_cases hn : n = []
  · subst hn
    refine ⟨some [], fun key hro => ?_⟩
    rw [keySetName_eq hro]
    exact ⟨⟨rfl, fun m hm => by obtain rfl := Option.some.inj hm; rfl, rfl⟩,
      (keySetOwner_roName _ _).trans hro⟩
  cases hr : (keyGetNameNamespace (some n)).root with
  | none =>
    refine ⟨none, fun key hro => ?_⟩
    have hbase : Finalized (keySetOwner (elektraRemoveKeyName key) none) none :=
      finalized_owner (finalized_remove key) none
    have hspec := namespace_spec n
    rw [keySetName_eq hro]
    cases hns : keyGetNameNamespace (some n) <;> rw [hns] at hr hspec
    case empty => exact absurd hspec hn
    case metaName => exact ⟨hbase, (keySetOwner_roName _ _).trans hro⟩
    all_goals cases hr
  | some R =>
    refine ⟨givenName R (pathArgument n), fun key hro => ?_⟩
    obtain ⟨hroot, -⟩ | ⟨key', R', hR', hstart, hro', he⟩ := keySetName_start hn hro
    · cases hr.symm.trans hroot
    · obtain rfl : R = R' := Option.some.inj (hr.symm.trans hR')
      rw [he]
      exact keySetNameBelow_finalized hstart hro'

/-! ## What names do not concern -/

theorem keyAddName_cases (key : Key) (newName : Option Str) :
    (keyAddName key newName).2 = key ∨ ∃ name, (keyAddName key newName).2 = elektraFinalizeName key name := by
  unfold keyAddName
  split_ifs
  · exact .inl rfl
  · split
    · exact .inl rfl
    · exact .inl rfl
    · split
      · exact .inl rfl
      · dsimp only
        split_ifs
        all_goals first | exact .inl rfl | exact .inr ⟨_, rfl⟩

/-- The value and the metadata. -/
def Key.rest (key : Key) : Option Str × List (Str × Str) × Bool := (key.data, key.metaKeys, key.roMeta)

theorem keyAddName_rest (key : Key) (newName : Option Str) : (keyAddName key newName).2.rest = key.rest := by
  obtain he | ⟨name, he⟩ := keyAddName_cases key newName
  · rw [he]
  · rw [he]
    rfl

theorem keySetNameBelow_rest (key : Key) (newName : Str) :
    (elektraKeySetNameBelow key newName).2.rest = key.rest := by
  unfold elektraKeySetNameBelow
  dsimp only
  split_ifs
  · rfl
  · rfl
  · exact keyAddName_rest _ _
  · exact keyAddName_rest _ _

/-- **A name without owner takes the owner away, and nothing else.** -/
theorem keySetName_rest {key : Key} (hro : key.roName = false) (P : Path) :
    (keySetName key (some P.name)).2.rest = (keySetOwner (elektraRemoveKeyName key) none).rest := by
  have huser : ∀ k : Key, P.root = .ns .user → (elektraHandleUserName k P.name).rest = k.rest := by
    intro k hroot
    have hname : P.name = str "user" ++ join P.escaped := by
      rw [Path.name_of_stem fun h => ?_, Path.stem, hroot]
      · rfl
      · cases hroot.symm.trans (Path.stem_eq_nil.mp h).1
    rw [hname]
    obtain h | ⟨t, h⟩ := join_cases P.escaped <;> rw [h] <;> rfl
  have hroot := root_name P
  rw [keySetName_eq hro]
  cases hns : keyGetNameNamespace (some P.name) <;> rw [hns] at hroot
  case empty => cases hroot
  case user => exact (keySetNameBelow_rest _ _).trans (huser _ (Option.some.inj hroot).symm)
  all_goals exact keySetNameBelow_rest _ _

theorem keyAddName_flags (key : Key) (newName : Option Str) :
    (keyAddName key newName).2.roValue = key.roValue ∧ (keyAddName key newName).2.roName = key.roName := by
  obtain he | ⟨name, he⟩ := keyAddName_cases key newName
  · rw [he]
    exact ⟨rfl, rfl⟩
  · rw [he]
    exact ⟨rfl, rfl⟩

theorem keySetNameBelow_roValue (key : Key) (newName : Str) :
    (elektraKeySetNameBelow key newName).2.roValue = key.roValue := by
  unfold elektraKeySetNameBelow
  dsimp only
  split_ifs
  · rfl
  · rfl
  · exact (keyAddName_flags _ _).1
  · exact (keyAddName_flags _ _).1

theorem keySetOwner_roValue (key : Key) (o : Option Str) : (keySetOwner key o).roValue = key.roValue := by
  have hmeta : ∀ v, (keySetMeta key (str "owner") v).2.roValue = key.roValue := by
    intro v
    unfold keySetMeta
    split_ifs
    · rfl
    · cases v <;> rfl
  unfold keySetOwner
  split <;> exact hmeta _

theorem keySetName_roValue {key : Key} (hro : key.roName = false) (n : Str) :
    (keySetName key (some n)).2.roValue = key.roValue := by
  have huser : ∀ k : Key, (elektraHandleUserName k n).roValue = k.roValue := by
    intro k
    unfold elektraHandleUserName
    dsimp only
    split
    · rfl
    · split_ifs
      · rfl
      · exact keySetOwner_roValue _ _
  rw [keySetName_eq hro]
  cases keyGetNameNamespace (some n)
  case empty => exact keySetOwner_roValue _ _
  case metaName => exact keySetOwner_roValue _ _
  case user => exact (keySetNameBelow_roValue _ _).trans ((huser _).trans (keySetOwner_roValue _ _))
  all_goals exact (keySetNameBelow_roValue _ _).trans (keySetOwner_roValue _ _)

theorem addLevel_head {b : NameBuffer} (h : b.bytes ≠ []) (hd : b.bytes.head? ≠ some pathSeparator) (l : Str) :
    (addLevel b l).bytes.head? = b.bytes.head? := by
  obtain ⟨c, s, hb⟩ := List.exists_cons_of_ne_nil h
  have hne := addLevel_ne_nil h l
  unfold addLevel at hne ⊢
  split_ifs at hne ⊢ with h1 h2 h3
  · rfl
  · unfold elektraRemoveOneLevel at hne ⊢
    dsimp only at hne ⊢
    split_ifs at hne ⊢ with hlen
    · dsimp only at hne ⊢
      rw [List.head?_take, if_neg fun h0 => hne (by rw [h0, List.take_zero])]
    · rfl
  · rw [hb]
    rfl
  · rw [hb]
    rfl

theorem foldl_addLevel_head : ∀ (ls : List Str) {b : NameBuffer}, b.bytes ≠ [] →
    b.bytes.head? ≠ some pathSeparator → (ls.foldl addLevel b).bytes.head? = b.bytes.head?
  | [], _, _, _ => rfl
  | l :: ls, b, h, hd => by
    have hhead := addLevel_head h hd l
    rw [List.foldl_cons, foldl_addLevel_head ls (addLevel_ne_nil h l) (by rwa [hhead]), hhead]

theorem keyAddName_named {key : Key} {P : Path} (hP : HasName key P) (hro : key.roName = false)
    (hns : P.root ≠ .cascading) (newName : Str) :
    ∃ name, Finalized (keyAddName key (some newName)).2 (some name) ∧ name.head? ≠ some pathSeparator := by
  have hhead : P.name.head? ≠ some pathSeparator := fun h => hns (P.head_name.mp h)
  by_cases hn : newName = []
  · have hsame : (keyAddName key (some newName)).2 = key := by
      obtain ⟨c, s, hc⟩ := List.exists_cons_of_ne_nil P.name_ne_nil
      unfold keyAddName
      rw [hro, hP.key, hn, hc]
      rfl
    rw [hsame]
    exact ⟨P.name, hP.finalized, hhead⟩
  · rw [keyAddName_eq hP.key hP.keySize hro hn]
    split_ifs
    · have hb : P.buffer.bytes = P.name := rfl
      have hne : P.buffer.bytes ≠ [] := P.name_ne_nil
      exact ⟨_, finalized_finalize key (foldl_addLevel_ne_nil _ hne), by
        rw [foldl_addLevel_head _ hne (hb ▸ hhead)]
        exact hhead⟩
    · exact ⟨P.name, hP.finalized, hhead⟩

end Elektra
