import Mathlib.Data.List.TakeWhile
import Elektra.KeySet.Model

/-!
# The cursor

The cursor is a pointer to a key and an index. Before the first key the pointer is null and the index `0`;
behind the last one the pointer is null and the index the size.

* `nextIndex`, `remaining`: where an iteration goes on, and what it has still to visit;
* **`ksNext_cases`**: one step of an iteration;
* `AtKey`, `Rewound`: where a cursor can stand.
-/

namespace Elektra

namespace KeySet

variable (ks : KeySet)

/-- The index of the key that `ksNext` returns. -/
def nextIndex : ℕ := if ks.cursor = none then ks.current else ks.current + 1

/-- The keys that an iteration has still to visit. -/
def remaining : List KeyRef := ks.array.drop ks.nextIndex

/-- The cursor is at the key of an index. -/
structure AtKey (i : ℕ) : Prop where
  current : ks.current = i
  cursor : ks.cursor = ks.array[i]?
  lt : i < ks.array.length

structure Rewound : Prop where
  current : ks.current = 0
  cursor : ks.cursor = none

variable {ks} {i : ℕ}

theorem AtKey.cursor_ne (h : ks.AtKey i) : ks.cursor ≠ none := by
  rw [h.cursor, List.getElem?_eq_getElem h.lt]
  exact Option.some_ne_none _

theorem AtKey.nextIndex (h : ks.AtKey i) : ks.nextIndex = i + 1 := by
  rw [KeySet.nextIndex, if_neg h.cursor_ne, h.current]

theorem Rewound.nextIndex (h : ks.Rewound) : ks.nextIndex = 0 := by
  rw [KeySet.nextIndex, if_pos h.cursor, h.current]

end KeySet

theorem rewound_rewind (ks : KeySet) : (ksRewind ks).Rewound := ⟨rfl, rfl⟩

theorem ksNext_eq (ks : KeySet) : ksNext ks =
    if ks.size = 0 then (none, ks)
    else if ks.size ≤ ks.current then (none, ks)
    else (ks.array[ks.nextIndex]?,
      { ks with current := ks.nextIndex, cursor := ks.array[ks.nextIndex]? }) := rfl

/-- **A step of an iteration**: nothing is left, or the cursor moves to the first key that is. -/
theorem ksNext_cases (ks : KeySet) :
    (ks.remaining = [] ∧ (ksNext ks).1 = none ∧ (ksNext ks).2.array = ks.array ∧
        (ksNext ks).2.remaining = []) ∨
      ∃ k rest, ks.remaining = k :: rest ∧
        ksNext ks = (some k, { ks with current := ks.nextIndex, cursor := some k }) ∧
        (ksNext ks).2.AtKey ks.nextIndex ∧ (ksNext ks).2.remaining = rest := by
  by_cases hlt : ks.nextIndex < ks.array.length
  · have hget := List.getElem?_eq_getElem hlt
    have hcurrent : ks.current < ks.size := by
      refine lt_of_le_of_lt ?_ hlt
      rw [KeySet.nextIndex]
      split_ifs <;> omega
    have hnext : ksNext ks =
        (some ks.array[ks.nextIndex], { ks with current := ks.nextIndex, cursor := some ks.array[ks.nextIndex] }) := by
      rw [ksNext_eq, if_neg (by omega), if_neg (by omega), hget]
    have hat : (ksNext ks).2.AtKey ks.nextIndex := by
      rw [hnext]
      exact ⟨rfl, hget.symm, hlt⟩
    refine .inr ⟨ks.array[ks.nextIndex], ks.array.drop (ks.nextIndex + 1), ?_, hnext, hat, ?_⟩
    · exact List.drop_eq_getElem_cons hlt
    · rw [KeySet.remaining, hat.nextIndex, hnext]
  · have hnil : ks.remaining = [] := List.drop_eq_nil_of_le (by omega)
    refine .inl ⟨hnil, ?_⟩
    rw [ksNext_eq, List.getElem?_eq_none (not_lt.mp hlt)]
    split_ifs
    · exact ⟨rfl, rfl, hnil⟩
    · exact ⟨rfl, rfl, hnil⟩
    · exact ⟨rfl, rfl, hnil⟩

end Elektra
