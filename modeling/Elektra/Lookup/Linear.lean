import Elektra.Lookup.Resolve

/-!
# The two searches

The array is sorted by name and owner; a search may compare the names only.

* `lookupOrder`, `lookupOrder_isLE`: what keys are compared by, which the order of the array respects;
* `binarySearch_isSome`, `linearLoop_eq`, `linearSearch_eq`: what each search finds;
* **`searches_agree`**.
-/

namespace Elektra

section Searches

variable {w : World} {key : KeyRef} {o : Options} {m : Ident → Option KeyRef}

/-! ## The comparison -/

/-- The comparison that the options ask for, case sensitive. -/
def lookupOrder (o : Options) (i j : Ident) : Ordering := if o.withowner then identCmp i j else compare i.1 j.1

theorem lookupCompare_eq {key1 key2 : Key} (hcase : o.nocase = false) (h1 : Sized key1) (h2 : Sized key2) :
    lookupCompare o key1 key2 = lookupOrder o (ident key1) (ident key2) := by
  unfold lookupCompare
  rw [hcase, Bool.and_false, if_neg Bool.false_ne_true, if_neg Bool.false_ne_true, lookupOrder]
  split_ifs
  · exact keyCompareByNameOwner_eq h1 h2
  · exact keyCompareByName_eq h1 h2

instance : Std.TransCmp (lookupOrder o) := by
  cases ho : o.withowner with
  | false =>
    have horder : lookupOrder o = compareOn Prod.fst := by
      funext i j
      rw [lookupOrder, ho]
      rfl
    rw [horder]
    infer_instance
  | true =>
    have horder : lookupOrder o = identCmp := by
      funext i j
      rw [lookupOrder, ho]
      rfl
    rw [horder]
    infer_instance

theorem lookupOrder_isLE {i j : Ident} (h : identCmp i j = .lt) : (lookupOrder o i j).isLE := by
  rw [lookupOrder]
  split_ifs
  · rw [h]
    rfl
  · rw [identCmp_eq] at h
    cases hc : compare i.1 j.1 with
    | lt => rfl
    | eq => rfl
    | gt =>
      rw [hc] at h
      cases h

/-! ## The binary search -/

theorem bsearch_oracle (hm : w.ks.Holds w.heap m) (hk : Sized (w.cell key)) (hcase : o.nocase = false) :
    bsearch w key (lookupCompare o) = Bisect.halfOpen
      (SortedArray.oracle w.heap.ident (lookupOrder o) w.ks.array (w.heap.ident key)) w.ks.array.length := by
  have hord : (fun i : ℕ => (w.ks.array[i]?).elim Ordering.lt fun k => lookupCompare o (w.cell key) (w.cell k)) =
      SortedArray.oracle w.heap.ident (lookupOrder o) w.ks.array (w.heap.ident key) := by
    funext i
    rw [SortedArray.oracle]
    cases hi : w.ks.array[i]? with
    | none => rfl
    | some k => exact lookupCompare_eq hcase hk (hm.entry k (List.mem_of_getElem? hi)).sized
  rw [bsearch, hord]
  rfl

theorem binarySearch_bsearch (hm : w.ks.Holds w.heap m) :
    (elektraLookupBinarySearch w key o).1 = (bsearch w key (lookupCompare o)).bind (w.ks.array[·]?) := by
  rw [elektraLookupBinarySearch]
  dsimp only
  cases hb : bsearch w key (lookupCompare o) with
  | none => rfl
  | some found =>
    have hlt : found < w.ks.array.length := (Bisect.halfOpen_found hb).1
    have hget := List.getElem?_eq_getElem hlt
    dsimp only
    split_ifs
    · exact (elektraKsPopAtCursor_holds hm hget).1.trans hget.symm
    · rfl

/-- **The binary search finds a key where one compares equal.** -/
theorem binarySearch_isSome (hm : w.ks.Holds w.heap m) (hk : Sized (w.cell key)) (hcase : o.nocase = false) :
    (elektraLookupBinarySearch w key o).1.isSome ↔
      ∃ k ∈ w.ks.array, lookupOrder o (w.heap.ident key) (w.heap.ident k) = .eq := by
  have hasc : Bisect.Ascending
      (SortedArray.oracle w.heap.ident (lookupOrder o) w.ks.array (w.heap.ident key)) w.ks.array.length :=
    SortedArray.ascending_oracle (hm.sorted.imp fun hlt => lookupOrder_isLE hlt) _
  have hsome : (elektraLookupBinarySearch w key o).1.isSome ↔ (bsearch w key (lookupCompare o)).isSome := by
    rw [binarySearch_bsearch hm]
    cases hb : bsearch w key (lookupCompare o) with
    | none => rfl
    | some found =>
      have hlt : found < w.ks.array.length := (Bisect.halfOpen_found hb).1
      rw [Option.bind_some, List.getElem?_eq_getElem hlt]
      exact Iff.rfl
  rw [hsome, bsearch_oracle hm hk hcase, Bisect.halfOpen_isSome hasc]
  constructor
  · rintro ⟨i, hi, he⟩
    rw [SortedArray.oracle_eq hi] at he
    exact ⟨_, List.getElem_mem hi, he⟩
  · rintro ⟨k, hmem, he⟩
    obtain ⟨i, hi, rfl⟩ := List.getElem_of_mem hmem
    exact ⟨i, hi, by rw [SortedArray.oracle_eq hi]; exact he⟩

/-! ## The linear search -/

/-- The cursor stands before key `i`. -/
def StandsBefore (ks : KeySet) (i : ℕ) : Prop :=
  i = 0 ∧ ks.cursor = none ∧ ks.current = 0 ∨ 0 < i ∧ ks.cursor ≠ none ∧ ks.current + 1 = i

theorem ksNext_before {ks : KeySet} {i : ℕ} (h : StandsBefore ks i) (hi : i < ks.array.length) :
    ∃ ks', ksNext ks = (some ks.array[i], ks') ∧ ks'.array = ks.array ∧ StandsBefore ks' (i + 1) := by
  have hget := List.getElem?_eq_getElem hi
  have hpos : ¬ ks.size = 0 := by
    rw [KeySet.size]
    omega
  rw [ksNext, if_neg hpos]
  obtain ⟨rfl, hcursor, hcurrent⟩ | ⟨h0, hcursor, rfl⟩ := h
  · rw [if_neg (by rw [KeySet.size]; omega), if_pos hcursor, hcurrent]
    dsimp only
    rw [hget]
    exact ⟨_, rfl, rfl, .inr ⟨Nat.one_pos, by simp, rfl⟩⟩
  · rw [if_neg (by rw [KeySet.size]; omega), if_neg hcursor]
    dsimp only
    rw [hget]
    exact ⟨_, rfl, rfl, .inr ⟨by omega, by simp, rfl⟩⟩

theorem ksNext_end {ks : KeySet} {i : ℕ} (h : StandsBefore ks i) (hi : ks.array.length ≤ i) :
    (ksNext ks).1 = none := by
  rw [ksNext]
  by_cases hs : ks.size = 0
  · rw [if_pos hs]
  by_cases hc : ks.size ≤ ks.current
  · rw [if_neg hs, if_pos hc]
  · rw [if_neg hs, if_neg hc]
    obtain ⟨rfl, hcursor, hcurrent⟩ | ⟨h0, hcursor, rfl⟩ := h
    · exact absurd (Nat.le_zero.mp hi) hs
    · rw [if_neg hcursor]
      exact List.getElem?_eq_none hi

/-- **The loop finds the first key that compares equal.** -/
theorem linearLoop_eq (cmp : Key → Key → Ordering) : ∀ (fuel i : ℕ) (ks : KeySet), StandsBefore ks i →
    ks.array.length < fuel + i →
    (linearLoop w key cmp fuel ks).1 = (ks.array.drop i).find? fun k => cmp (w.cell key) (w.cell k) = .eq
  | 0, i, ks, _, hf => by rw [linearLoop, List.drop_eq_nil_of_le (by omega)]; rfl
  | fuel + 1, i, ks, h, hf => by
    rw [linearLoop]
    by_cases hi : i < ks.array.length
    · obtain ⟨ks', hnext, harray, hbefore⟩ := ksNext_before h hi
      rw [hnext, List.drop_eq_getElem_cons hi]
      dsimp only
      split_ifs with hc
      · rw [List.find?_cons_of_pos (by simpa using hc)]
      · rw [List.find?_cons_of_neg (by simpa using hc), ← harray]
        exact linearLoop_eq cmp fuel (i + 1) ks' hbefore (by rw [harray]; omega)
    · have hnone := ksNext_end h (Nat.le_of_not_lt hi)
      rw [List.drop_eq_nil_of_le (Nat.le_of_not_lt hi)]
      generalize ksNext ks = x at hnone ⊢
      obtain ⟨r, ks'⟩ := x
      dsimp only at hnone
      subst hnone
      rfl

theorem linearSearch_eq (hall : o.noall = false) :
    (elektraLookupLinearSearch w key o).1 =
      w.ks.array.find? fun k => lookupCompare o (w.cell key) (w.cell k) = .eq := by
  have hloop := @linearLoop_eq w key (lookupCompare o) ((ksRewind w.ks).size + 1) 0 (ksRewind w.ks)
    (.inl ⟨rfl, rfl, rfl⟩) (by rw [KeySet.size]; omega)
  rw [elektraLookupLinearSearch, hall]
  simp only [Bool.false_eq_true, if_false]
  rw [List.drop_zero] at hloop
  generalize linearLoop w key (lookupCompare o) ((ksRewind w.ks).size + 1) (ksRewind w.ks) = x at hloop ⊢
  obtain ⟨r, ks'⟩ := x
  cases r with
  | none => exact hloop
  | some current => exact hloop

theorem linearSearch_isSome (hm : w.ks.Holds w.heap m) (hk : Sized (w.cell key)) (hcase : o.nocase = false)
    (hall : o.noall = false) : (elektraLookupLinearSearch w key o).1.isSome ↔
      ∃ k ∈ w.ks.array, lookupOrder o (w.heap.ident key) (w.heap.ident k) = .eq := by
  rw [linearSearch_eq hall, List.find?_isSome]
  refine exists_congr fun k => and_congr_right fun hmem => ?_
  have hcmp : lookupCompare o (w.cell key) (w.cell k) = lookupOrder o (w.heap.ident key) (w.heap.ident k) :=
    lookupCompare_eq hcase hk (hm.entry k hmem).sized
  rw [decide_eq_true_iff, hcmp]

/-- **Both searches find a key, or none does; without owner they find one where a key has the name.** -/
theorem searches_agree (hm : w.ks.Holds w.heap m) (hk : Sized (w.cell key)) (hcase : o.nocase = false)
    (hall : o.noall = false) :
    ((elektraLookupBinarySearch w key o).1.isSome ↔ (elektraLookupLinearSearch w key o).1.isSome) ∧
    (o.withowner = false → ((elektraLookupBinarySearch w key o).1.isSome ↔
      ∃ k ∈ w.ks.array, (w.cell k).ukey = (w.cell key).ukey)) := by
  refine ⟨(binarySearch_isSome hm hk hcase).trans (linearSearch_isSome hm hk hcase hall).symm, fun howner => ?_⟩
  rw [binarySearch_isSome hm hk hcase]
  refine exists_congr fun k => and_congr_right fun _ => ?_
  rw [lookupOrder, howner, if_neg Bool.false_ne_true, Std.LawfulEqOrd.compare_eq_iff_eq]
  exact eq_comm

end Searches

/-- `/a` between two other keys. -/
theorem searches_agree_a :
    ((elektraLookupBinarySearch (worldOf [keyNewName (str "user/a"), keyNewName (str "/a")]) 2 {}).1.isSome ↔
      (elektraLookupLinearSearch (worldOf [keyNewName (str "user/a"), keyNewName (str "/a")]) 2 {}).1.isSome) ∧
    (({} : Options).withowner = false →
      ((elektraLookupBinarySearch (worldOf [keyNewName (str "user/a"), keyNewName (str "/a")]) 2 {}).1.isSome ↔
        ∃ k ∈ (worldOf [keyNewName (str "user/a"), keyNewName (str "/a")]).ks.array,
          ((worldOf [keyNewName (str "user/a"), keyNewName (str "/a")]).cell k).ukey =
            ((worldOf [keyNewName (str "user/a"), keyNewName (str "/a")]).cell 2).ukey)) := by
  have hholds : ∃ m, (worldOf [keyNewName (str "user/a"), keyNewName (str "/a")]).ks.Holds
      (worldOf [keyNewName (str "user/a"), keyNewName (str "/a")]).heap m := by
    refine worldOf_holds fun key hkey => ?_
    obtain rfl | hkey := List.mem_cons.mp hkey
    · exact ⟨by decide, rfl⟩
    · rw [List.mem_singleton.mp hkey]
      exact ⟨by decide, rfl⟩
  obtain ⟨m, hm⟩ := hholds
  exact searches_agree hm (worldOf_finalized [_, _]).sized rfl rfl

end Elektra
