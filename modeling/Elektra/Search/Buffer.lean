import Mathlib.Tactic

/-!
# Writing into a buffer

* `writeAt`: bytes written from an offset on, if all of them are inside;
* **`writeAt_append`**, `writeAt_negative`: the part that is written over, and an offset before the buffer;
* `exists_append`: a buffer in two parts.
-/

namespace Buffer

variable {α : Type} {buf pre old post bytes : List α} {start : ℤ}

/-- The buffer with `bytes` from the offset on. -/
def writeAt (buf : List α) (start : ℤ) (bytes : List α) : Option (List α) :=
  if 0 ≤ start ∧ start + bytes.length ≤ buf.length then
    some (buf.take start.toNat ++ bytes ++ buf.drop (start.toNat + bytes.length))
  else none

/-- **The part that is written over.** -/
theorem writeAt_append (hstart : start = pre.length) (hold : old.length = bytes.length) :
    writeAt (pre ++ (old ++ post)) start bytes = some (pre ++ (bytes ++ post)) := by
  have hroom : 0 ≤ start ∧ start + bytes.length ≤ (pre ++ (old ++ post)).length := by
    rw [List.length_append, List.length_append]
    omega
  have hnat : start.toNat = pre.length := by omega
  rw [writeAt, if_pos hroom, hnat, List.take_left, ← List.drop_drop, List.drop_left, ← hold, List.drop_left,
    List.append_assoc]

theorem writeAt_negative (h : start < 0) : writeAt buf start bytes = none :=
  if_neg fun hroom => not_le.mpr h hroom.1

theorem exists_append {n : ℕ} (h : n ≤ buf.length) : ∃ a b, buf = a ++ b ∧ a.length = n :=
  ⟨buf.take n, buf.drop n, (List.take_append_drop n buf).symm, List.length_take_of_le h⟩

end Buffer
