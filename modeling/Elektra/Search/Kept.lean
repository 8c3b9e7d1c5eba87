import Mathlib.Tactic

/-!
# Positions in a list that loses entries

* `kept`: how many of the first entries are kept, the position that a mark among them moves to;
* **`kept_filter`**: what is kept in two steps;
* `kept_run`: what is kept when a part of the list is cut out;
* `getElem?_kept`: the last entry that is kept stands before the mark.
-/

namespace Kept

variable {α : Type} {p q : α → Bool} {l : List α} {n i : ℕ}

/-- How many of the first `n` entries are kept. -/
def kept (p : α → Bool) (l : List α) (n : ℕ) : ℕ := ((l.take n).filter p).length

theorem take_kept (p : α → Bool) (l : List α) (n : ℕ) : (l.filter p).take (kept p l n) = (l.take n).filter p := by
  have hsplit : l.filter p = (l.take n).filter p ++ (l.drop n).filter p := by
    rw [← List.filter_append, List.take_append_drop]
  rw [hsplit]
  exact List.take_left

/-- **What is kept in two steps.** -/
theorem kept_filter (p q : α → Bool) (l : List α) (n : ℕ) :
    kept q (l.filter p) (kept p l n) = kept (fun a => p a && q a) l n := by
  rw [kept, take_kept, List.filter_filter, kept]
  exact congrArg _ (List.filter_congr fun a _ => Bool.and_comm _ _)

theorem kept_all (h : ∀ a ∈ l, p a = true) (hn : n ≤ l.length) : kept p l n = n := by
  rw [kept, List.filter_eq_self.mpr fun a ha => h a (List.mem_of_mem_take ha), List.length_take]
  exact min_eq_left hn

section Run

variable [DecidableEq α] {pre run post : List α}

theorem filter_run (h : (pre ++ (run ++ post)).Nodup) :
    (pre ++ (run ++ post)).filter (· ∉ run) = pre ++ post := by
  obtain ⟨-, hrest, hpre⟩ := List.nodup_append.mp h
  obtain ⟨-, -, hpost⟩ := List.nodup_append.mp hrest
  have hkeep : pre.filter (· ∉ run) = pre := List.filter_eq_self.mpr fun a ha => by
    simpa using fun hr => hpre a ha a (List.mem_append_left _ hr) rfl
  have hcut : run.filter (· ∉ run) = [] := List.filter_eq_nil_iff.mpr fun a ha => by simpa using ha
  have hkeep' : post.filter (· ∉ run) = post := List.filter_eq_self.mpr fun a ha => by
    simpa using fun hr => hpost a hr a ha rfl
  rw [List.filter_append, List.filter_append, hkeep, hcut, hkeep', List.nil_append]

theorem kept_run (h : (pre ++ (run ++ post)).Nodup) (hn : n ≤ (pre ++ (run ++ post)).length) :
    kept (· ∉ run) (pre ++ (run ++ post)) n = min n pre.length + (n - (pre.length + run.length)) := by
  have htake : (pre ++ (run ++ post)).take n =
      pre.take n ++ (run.take (n - pre.length) ++ post.take (n - pre.length - run.length)) := by
    rw [List.take_append, List.take_append]
  obtain ⟨-, hrest, hpre⟩ := List.nodup_append.mp h
  obtain ⟨-, -, hpost⟩ := List.nodup_append.mp hrest
  have hkeep : (pre.take n).filter (· ∉ run) = pre.take n := List.filter_eq_self.mpr fun a ha => by
    simpa using fun hr => hpre a (List.mem_of_mem_take ha) a (List.mem_append_left _ hr) rfl
  have hcut : (run.take (n - pre.length)).filter (· ∉ run) = [] :=
    List.filter_eq_nil_iff.mpr fun a ha => by simpa using List.mem_of_mem_take ha
  have hkeep' : (post.take (n - pre.length - run.length)).filter (· ∉ run) =
      post.take (n - pre.length - run.length) := List.filter_eq_self.mpr fun a ha => by
    simpa using fun hr => hpost a hr a (List.mem_of_mem_take ha) rfl
  rw [kept, htake, List.filter_append, List.filter_append, hkeep, hcut, hkeep']
  simp only [List.length_append, List.nil_append, List.length_take] at hn ⊢
  omega

end Run

/-- The last entry that is kept, if there is one, is the last of those at the mark or before it. -/
theorem getElem?_kept {j : ℕ} (h : kept p l n = j + 1) :
    (l.filter p)[j]? = ((l.take n).filter p).getLast? := by
  have htake := take_kept p l n
  rw [h] at htake
  have hlen : ((l.take n).filter p).length = j + 1 := h
  rw [List.getLast?_eq_getElem?, hlen, Nat.add_sub_cancel, ← htake,
    List.getElem?_take_of_lt (Nat.lt_succ_self j)]

theorem getLast?_kept (hi : i < l.length) (h : p l[i] = true) :
    ((l.take (i + 1)).filter p).getLast? = some l[i] := by
  rw [List.take_succ_eq_append_getElem hi, List.filter_append, List.filter_cons_of_pos h]
  exact List.getLast?_concat

end Kept
