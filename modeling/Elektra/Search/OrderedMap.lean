import Mathlib.Tactic

/-!
# Ordered maps

A map is a list of pairs with rising keys, into which a pair is inserted if its key is new.

* `insert`, `Sorted`: the insertion, and the order it keeps (`Sorted.insert`);
* `Sorted.le_last`: the last pair has the largest key.
-/

namespace OrderedMap

variable {κ α : Type} [LinearOrder κ]

/-- A pair with a key that is there already is not inserted. -/
def insert (k : κ) (v : α) : List (κ × α) → List (κ × α)
  | [] => [(k, v)]
  | p :: m => if k < p.1 then (k, v) :: p :: m else if p.1 < k then p :: insert k v m else p :: m

def Sorted (m : List (κ × α)) : Prop := m.Pairwise fun p q => p.1 < q.1

variable {k : κ} {v : α} {m : List (κ × α)} {p : κ × α}

theorem insert_insert : insert k v (insert k v m) = insert k v m := by
  induction m with
  | nil => simp [insert]
  | cons p m ih =>
    rw [insert]
    split_ifs with hlt hgt
    · simp [insert]
    · rw [insert, if_neg hlt, if_pos hgt, ih]
    · rw [insert, if_neg hlt, if_neg hgt]

theorem mem_of_insert (h : p ∈ insert k v m) : p = (k, v) ∨ p ∈ m := by
  induction m with
  | nil => exact Or.inl (List.mem_singleton.mp h)
  | cons q m ih =>
    rw [insert] at h
    split_ifs at h
    · exact List.mem_cons.mp h
    · obtain rfl | h := List.mem_cons.mp h
      · exact Or.inr List.mem_cons_self
      · exact (ih h).imp_right (List.mem_cons_of_mem q)
    · exact Or.inr h

theorem mem_insert_of_mem (h : p ∈ m) : p ∈ insert k v m := by
  induction m with
  | nil => cases h
  | cons q m ih =>
    rw [insert]
    split_ifs
    · exact List.mem_cons_of_mem _ h
    · obtain rfl | h := List.mem_cons.mp h
      · exact List.mem_cons_self
      · exact List.mem_cons_of_mem q (ih h)
    · exact h

/-- **The key is there afterwards.** -/
theorem exists_mem_insert (k : κ) (v : α) (m : List (κ × α)) : ∃ w, (k, w) ∈ insert k v m := by
  induction m with
  | nil => exact ⟨v, List.mem_singleton_self _⟩
  | cons q m ih =>
    rw [insert]
    split_ifs with hlt hgt
    · exact ⟨v, List.mem_cons_self⟩
    · obtain ⟨w, hw⟩ := ih
      exact ⟨w, List.mem_cons_of_mem q hw⟩
    · obtain rfl : k = q.1 := le_antisymm (not_lt.mp hgt) (not_lt.mp hlt)
      exact ⟨q.2, List.mem_cons_self⟩

theorem Sorted.insert (h : Sorted m) (k : κ) (v : α) : Sorted (insert k v m) := by
  induction m with
  | nil => exact List.pairwise_singleton _ _
  | cons p m ih =>
    obtain ⟨hp, hm⟩ := List.pairwise_cons.mp h
    rw [OrderedMap.insert]
    split_ifs with hlt hgt
    · refine List.pairwise_cons.mpr ⟨fun q hq => ?_, h⟩
      obtain rfl | hq := List.mem_cons.mp hq
      · exact hlt
      · exact hlt.trans (hp q hq)
    · refine List.pairwise_cons.mpr ⟨fun q hq => ?_, ih hm⟩
      obtain rfl | hq := mem_of_insert hq
      · exact hgt
      · exact hp q hq
    · exact h

theorem Sorted.unique (h : Sorted m) {v w : α} (hv : (k, v) ∈ m) (hw : (k, w) ∈ m) : v = w := by
  induction m with
  | nil => cases hv
  | cons p m ih =>
    obtain ⟨hp, hm⟩ := List.pairwise_cons.mp h
    obtain hv | hv := List.mem_cons.mp hv <;> obtain hw | hw := List.mem_cons.mp hw
    · exact congrArg Prod.snd (hv.trans hw.symm)
    · exact absurd ((congrArg Prod.fst hv).trans_lt (hp _ hw)) (lt_irrefl k)
    · exact absurd ((congrArg Prod.fst hw).trans_lt (hp _ hv)) (lt_irrefl k)
    · exact ih hm hv hw

theorem Sorted.le_last (h : Sorted m) {q : κ × α} (hlast : m.getLast? = some q) (hp : p ∈ m) : p.1 ≤ q.1 := by
  obtain ⟨m, rfl⟩ := List.getLast?_eq_some_iff.mp hlast
  obtain hp | hp := List.mem_append.mp hp
  · exact ((List.pairwise_append.mp h).2.2 p hp q (List.mem_singleton_self q)).le
  · rw [List.mem_singleton.mp hp]

end OrderedMap
