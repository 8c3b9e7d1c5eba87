import Elektra.Split.Model

/-!
# Key sets by their keys

A key set is sorted strictly by what its keys are compared by. Appending a key keeps that, and where no other key
compares equal nothing else changes: the parts of a key set may be appended in any order.

* `ValidKeys`, **`ksAppendValue_spec`**: one key; `ksAppendValue_last`: one behind all others; `length_ksAppendValue`;
* `Agree`, **`foldl_append_spec`**: several keys; `halfOpen_isSome`, `halfOpen_name`: a search.
-/

namespace Elektra

/-- The keys of a key set. -/
structure ValidKeys (ks : List Key) : Prop where
  sorted : SortedArray.Sorted ident identCmp ks
  sized : ∀ key ∈ ks, Sized key
  named : ∀ key ∈ ks, key.key ≠ none
  locked : ∀ key ∈ ks, key.roName = true

/-- What compares equal is the same key. -/
def Agree (ks ks' : List Key) : Prop := ∀ key ∈ ks, ∀ key' ∈ ks', ident key = ident key' → key = key'

section Append

variable {ks ks' : List Key} {key : Key}

theorem validKeys_nil : ValidKeys [] := ⟨SortedArray.sorted_nil, nofun, nofun, nofun⟩

theorem ValidKeys.sublist (h : ValidKeys ks) (hsub : ks'.Sublist ks) : ValidKeys ks' where
  sorted := h.sorted.sublist hsub
  sized key hkey := h.sized key (hsub.subset hkey)
  named key hkey := h.named key (hsub.subset hkey)
  locked key hkey := h.locked key (hsub.subset hkey)

theorem ValidKeys.agree (h : ValidKeys ks) : Agree ks ks := fun _ hkey _ hkey' => h.sorted.unique hkey hkey'

theorem ValidKeys.eq_of_mem (h : ValidKeys ks) (h' : ValidKeys ks') (hmem : ∀ key, key ∈ ks ↔ key ∈ ks') : ks = ks' :=
  h.sorted.eq_of_mem h'.sorted hmem

/-- A key that could be one of a key set. -/
structure ValidKey (key : Key) : Prop where
  sized : Sized key
  named : key.key ≠ none
  locked : key.roName = true

theorem ValidKeys.valid (h : ValidKeys ks) (hkey : key ∈ ks) : ValidKey key :=
  ⟨h.sized key hkey, h.named key hkey, h.locked key hkey⟩

theorem ValidKeys.of_valid (hsorted : SortedArray.Sorted ident identCmp ks) (h : ∀ key ∈ ks, ValidKey key) :
    ValidKeys ks :=
  ⟨hsorted, fun key hkey => (h key hkey).sized, fun key hkey => (h key hkey).named,
    fun key hkey => (h key hkey).locked⟩

theorem order_eq (h : ∀ k ∈ ks, Sized k) (hkey : Sized key) :
    (fun i : ℕ => (ks[i]?).elim .lt fun k => keyCompareByNameOwner key k) =
      SortedArray.oracle ident identCmp ks (ident key) := by
  funext i
  rw [SortedArray.oracle]
  cases hk : ks[i]? with
  | none => rfl
  | some k => exact keyCompareByNameOwner_eq hkey (h k (List.mem_of_getElem? hk))

/-- Where a key is appended: at the place of the one that compares equal, or in a gap. -/
theorem ksAppendValue_cases (h : ValidKeys ks) (hsized : Sized key) (hnamed : key.key ≠ none) :
    (∃ i, ∃ hi : i < ks.length, ident ks[i] = ident key ∧
      ksAppendValue ks key = ks.set i { key with roName := true }) ∨
    ∃ i, Bisect.Missing (SortedArray.oracle ident identCmp ks (ident key)) ks.length i ∧
      ksAppendValue ks key = ks.take i ++ { key with roName := true } :: ks.drop i := by
  have hkey : ValidKey { key with roName := true } := ⟨hsized, hnamed, rfl⟩
  have hcode := Bisect.closed_spec (h.sorted.ascending (ident key))
  have horder : (fun i : ℕ => (ks[i]?).elim .lt fun k => keyCompareByNameOwner { key with roName := true } k) =
      SortedArray.oracle ident identCmp ks (ident key) := order_eq h.sized hkey.sized
  rw [ksAppendValue, if_neg hnamed]
  dsimp only
  rw [horder]
  generalize Bisect.closed (SortedArray.oracle ident identCmp ks (ident key)) ks.length = result at hcode ⊢
  obtain ⟨hres, hlt, heq⟩ | ⟨hres, hmissing⟩ := hcode
  · rw [SortedArray.oracle_eq hlt, identCmp_eq_iff] at heq
    exact .inl ⟨result.toNat, hlt, heq.symm, if_pos hres⟩
  · exact .inr ⟨(-result - 1).toNat, hmissing, if_neg (not_le.mpr hres)⟩

/-- **A key that is appended replaces the one that compares equal**, and its name is locked. -/
theorem ksAppendValue_put (h : ValidKeys ks) (hsized : Sized key) (hnamed : key.key ≠ none) :
    ValidKeys (ksAppendValue ks key) ∧
      ∀ k, k ∈ ksAppendValue ks key ↔ k = { key with roName := true } ∨ k ∈ ks ∧ ident k ≠ ident key := by
  have hkey : ValidKey { key with roName := true } := ⟨hsized, hnamed, rfl⟩
  obtain ⟨i, hlt, heq, hset⟩ | ⟨i, hmissing, hgap⟩ := ksAppendValue_cases h hsized hnamed
  · -- a key stands there already
    rw [hset]
    have hsorted := SortedArray.sorted_set (x := { key with roName := true }) h.sorted hlt heq.symm
    have hnew : { key with roName := true } ∈ ks.set i { key with roName := true } := List.mem_set hlt _
    have hmem : ∀ k, k ∈ ks.set i { key with roName := true } ↔
        k = { key with roName := true } ∨ k ∈ ks ∧ ident k ≠ ident key := by
      intro k
      constructor
      · intro hk
        by_cases hid : ident k = ident key
        · exact .inl (hsorted.unique hk hnew hid)
        · refine .inr ⟨(List.mem_or_eq_of_mem_set hk).resolve_right fun he => hid ?_, hid⟩
          rw [he]
          rfl
      · rintro (rfl | ⟨hk, hid⟩)
        · exact hnew
        · obtain ⟨j, hj, rfl⟩ := List.mem_iff_getElem.mp hk
          have hne : i ≠ j := by
            rintro rfl
            exact hid heq
          have hset : j < (ks.set i { key with roName := true }).length := by
            rwa [List.length_set]
          have hkept : (ks.set i { key with roName := true })[j] = ks[j] := List.getElem_set_ne hne hset
          rw [← hkept]
          exact List.getElem_mem hset
    refine ⟨.of_valid hsorted fun k hk => ?_, hmem⟩
    obtain rfl | ⟨hk, -⟩ := (hmem k).mp hk
    · exact hkey
    · exact h.valid hk
  · rw [hgap]
    have hmem : ∀ k, k ∈ ks.take i ++ { key with roName := true } :: ks.drop i ↔
        k = { key with roName := true } ∨ k ∈ ks ∧ ident k ≠ ident key := by
      intro k
      rw [SortedArray.mem_gap]
      exact or_congr_right ⟨fun hk => ⟨hk, SortedArray.Missing.not_mem hmissing k hk⟩, And.left⟩
    refine ⟨.of_valid (SortedArray.sorted_gap h.sorted hmissing) fun k hk => ?_, hmem⟩
    obtain rfl | ⟨hk, -⟩ := (hmem k).mp hk
    · exact hkey
    · exact h.valid hk

theorem length_ksAppendValue (h : ValidKeys ks) (hsized : Sized key) (hnamed : key.key ≠ none) :
    (ksAppendValue ks key).length = ks.length + 1 ↔ ∀ k ∈ ks, ident k ≠ ident key := by
  obtain ⟨i, hlt, heq, hset⟩ | ⟨i, hmissing, hgap⟩ := ksAppendValue_cases h hsized hnamed
  · rw [hset, List.length_set]
    exact iff_of_false (Nat.ne_of_lt (Nat.lt_succ_self _)) fun hno => hno _ (List.getElem_mem hlt) heq
  · rw [hgap, List.length_append, List.length_cons, ← Nat.add_assoc, ← List.length_append, List.take_append_drop]
    exact iff_of_true rfl (SortedArray.Missing.not_mem hmissing)

/-- **A key is appended to a key set.** -/
theorem ksAppendValue_spec (h : ValidKeys ks) (hkey : ValidKey key) (hagree : ∀ k ∈ ks, ident k = ident key → k = key) :
    ValidKeys (ksAppendValue ks key) ∧ ∀ k, k ∈ ksAppendValue ks key ↔ k ∈ ks ∨ k = key := by
  have hlock : { key with roName := true } = key := by
    rw [← hkey.locked]
  obtain ⟨hvalid, hmem⟩ := ksAppendValue_put h hkey.sized hkey.named
  rw [hlock] at hmem
  refine ⟨hvalid, fun k => ?_⟩
  rw [hmem, or_comm]
  constructor
  · exact Or.imp_left And.left
  · rintro (hk | rfl)
    · by_cases hid : ident k = ident key
      · exact .inr (hagree k hk hid)
      · exact .inl ⟨hk, hid⟩
    · exact .inr rfl

theorem ksAppendValue_last (h : ValidKeys ks) (hsized : Sized key) (hnamed : key.key ≠ none)
    (hlast : ∀ k ∈ ks, identCmp (ident k) (ident key) = .lt) :
    ValidKeys (ks ++ [{ key with roName := true }]) ∧
      ksAppendValue ks key = ks ++ [{ key with roName := true }] := by
  have hvalid : ValidKeys (ks ++ [{ key with roName := true }]) := by
    refine .of_valid ?_ fun k hk => ?_
    · refine List.pairwise_append.mpr ⟨h.sorted, List.pairwise_singleton _ _, fun k hk k' hk' => ?_⟩
      obtain rfl := List.mem_singleton.mp hk'
      exact hlast k hk
    · obtain hk | hk := List.mem_append.mp hk
      · exact h.valid hk
      · obtain rfl := List.mem_singleton.mp hk
        exact ⟨hsized, hnamed, rfl⟩
  obtain ⟨hput, hmem⟩ := ksAppendValue_put h hsized hnamed
  refine ⟨hvalid, hput.eq_of_mem hvalid fun k => ?_⟩
  rw [hmem, List.mem_append, List.mem_singleton, or_comm]
  refine or_congr_left (and_iff_left_of_imp fun hk he => ?_)
  have hlt := hlast k hk
  rw [he, identCmp_eq_iff.mpr rfl] at hlt
  cases hlt

/-- The keys are in the order of their names, by which a search compares them. -/
theorem ValidKeys.names (h : ValidKeys ks) {b : Key} {P : Path} (hb : HasName b P) :
    ks.Pairwise (fun k k' => (compare k.ukey k'.ukey).isLE) ∧
      (fun i : ℕ => (ks[i]?).elim .lt (keyCompareByName b)) = SortedArray.oracle Key.ukey compare ks P.uname := by
  constructor
  · refine h.sorted.imp fun {k k'} hlt => ?_
    rw [identCmp_eq] at hlt
    exact Ordering.isLE_left_of_isLE_then ((congrArg Ordering.isLE hlt).trans rfl)
  · funext i
    rw [SortedArray.oracle]
    cases hk : ks[i]? with
    | none => rfl
    | some k =>
      rw [Option.elim_some, Option.elim_some, keyCompareByName_eq hb.sized (h.sized k (List.mem_of_getElem? hk)),
        hb.ukey]

/-- **A search by name finds a key where there is one.** -/
theorem ValidKeys.halfOpen_isSome {b : Key} {P : Path} (h : ValidKeys ks) (hb : HasName b P) :
    (Bisect.halfOpen (fun i => (ks[i]?).elim .lt (keyCompareByName b)) ks.length).isSome = true ↔
      ∃ k ∈ ks, k.ukey = P.uname := by
  obtain ⟨hsorted, horacle⟩ := h.names hb
  rw [horacle, Bisect.halfOpen_isSome (SortedArray.ascending_oracle hsorted _)]
  constructor
  · rintro ⟨i, hi, heq⟩
    rw [SortedArray.oracle_eq hi, Std.LawfulEqOrd.compare_eq_iff_eq] at heq
    exact ⟨_, List.getElem_mem hi, heq.symm⟩
  · rintro ⟨k, hk, heq⟩
    obtain ⟨i, hi, rfl⟩ := List.mem_iff_getElem.mp hk
    refine ⟨i, hi, ?_⟩
    rw [SortedArray.oracle_eq hi, heq]
    exact Std.ReflOrd.compare_self

/-- **A search by name finds the only key of that name.** -/
theorem ValidKeys.halfOpen_name {b k : Key} {P : Path} {i : ℕ} (h : ValidKeys ks) (hb : HasName b P)
    (hget : ks[i]? = some k) (hk : HasName k P) (honly : ∀ k' ∈ ks, k'.ukey = P.uname → ident k' = ident k) :
    Bisect.halfOpen (fun i => (ks[i]?).elim .lt (keyCompareByName b)) ks.length = some i := by
  obtain ⟨hi, hki⟩ := List.getElem?_eq_some_iff.mp hget
  obtain ⟨j, hj⟩ := Option.isSome_iff_exists.mp
    ((h.halfOpen_isSome hb).mpr ⟨k, List.mem_of_getElem? hget, hk.ukey⟩)
  have hfound := hj
  rw [(h.names hb).2] at hfound
  obtain ⟨hlt, heq⟩ := Bisect.halfOpen_found hfound
  rw [SortedArray.oracle_eq hlt, Std.LawfulEqOrd.compare_eq_iff_eq] at heq
  have hident := honly _ (List.getElem_mem hlt) heq.symm
  have hkey : ks[j] = ks[i] := h.sorted.unique (List.getElem_mem hlt) (List.getElem_mem hi) (hident.trans (hki ▸ rfl))
  have hone : j = i := (List.Nodup.getElem_inj_iff h.sorted.nodup).mp hkey
  rw [hj, hone]

/-- **Keys are appended to a key set.** -/
theorem foldl_append_spec : ∀ {keys ks : List Key}, ValidKeys ks → (∀ key ∈ keys, ValidKey key) →
    Agree keys keys → Agree ks keys →
    ValidKeys (keys.foldl ksAppendValue ks) ∧ ∀ k, k ∈ keys.foldl ksAppendValue ks ↔ k ∈ ks ∨ k ∈ keys
  | [], ks, h, _, _, _ => ⟨h, fun k => by simp⟩
  | key :: keys, ks, h, hvalid, hkeys, hks => by
    obtain ⟨hput, hmem⟩ := ksAppendValue_spec h (hvalid key List.mem_cons_self)
      fun k hk => hks k hk key List.mem_cons_self
    have hagree : Agree (ksAppendValue ks key) keys := by
      intro k hk k' hk' heq
      obtain hk | rfl := (hmem k).mp hk
      · exact hks k hk k' (List.mem_cons_of_mem key hk') heq
      · exact hkeys k List.mem_cons_self k' (List.mem_cons_of_mem k hk') heq
    obtain ⟨hrest, hrest_mem⟩ := foldl_append_spec hput (fun k hk => hvalid k (List.mem_cons_of_mem key hk))
      (fun k hk k' hk' => hkeys k (List.mem_cons_of_mem key hk) k' (List.mem_cons_of_mem key hk')) hagree
    refine ⟨hrest, fun k => ?_⟩
    rw [List.foldl_cons, hrest_mem, hmem, or_assoc, List.mem_cons]

/-- The keys of a part of a key set, appended one after the other, are that part. -/
theorem foldl_append_sublist (h : ValidKeys ks) (hsub : ks'.Sublist ks) : ks'.foldl ksAppendValue [] = ks' := by
  have h' := h.sublist hsub
  obtain ⟨hvalid, hmem⟩ := foldl_append_spec validKeys_nil (fun key hkey => h'.valid hkey) h'.agree nofun
  exact hvalid.eq_of_mem h' fun key => by rw [hmem]; simp

end Append

end Elektra
