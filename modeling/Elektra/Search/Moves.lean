import Mathlib.Tactic

/-!
# Moving entries of a map

Entries are taken out of a map and put in again at other places, one after the other. No entry is lost
when nothing is taken out, or overwritten, after it was put in.

* `Move`, `moveAll`; `Clear`: no move hits one before it;
* **`moveAll_into`**, **`moveAll_other`**: what is there in the end.
-/

namespace Relocate

open Function

variable {I V : Type} [DecidableEq I]

/-- What is at `out` is taken away, if any, and `value` put in at `into`. -/
structure Move (I V : Type) where
  out : Option I
  into : I
  value : V

def takeOut (m : I → Option V) : Option I → I → Option V
  | none => m
  | some i => update m i none

def Move.run (m : I → Option V) (s : Move I V) : I → Option V := update (takeOut m s.out) s.into (some s.value)

def moveAll (m : I → Option V) (l : List (Move I V)) : I → Option V := l.foldl Move.run m

/-- What a move puts in stays. -/
def Clear (l : List (Move I V)) : Prop := l.Pairwise fun s t => t.out ≠ some s.into ∧ t.into ≠ s.into

section Run

variable {m : I → Option V} {s : Move I V} {l : List (Move I V)} {i : I}

theorem takeOut_of_ne {out : Option I} (h : out ≠ some i) : takeOut m out i = m i := by
  cases out with
  | none => rfl
  | some j =>
    refine update_of_ne ?_ _ _
    rintro rfl
    exact h rfl

theorem Move.run_into (m : I → Option V) (s : Move I V) : s.run m s.into = some s.value := update_self _ _ _

theorem Move.run_other (hinto : s.into ≠ i) (hout : s.out ≠ some i) : s.run m i = m i := by
  rw [Move.run, update_of_ne hinto.symm]
  exact takeOut_of_ne hout

theorem Move.run_out (hinto : s.into ≠ i) (hout : s.out = some i) : s.run m i = none := by
  rw [Move.run, update_of_ne hinto.symm, hout]
  exact update_self _ _ _

theorem moveAll_cons : moveAll m (s :: l) = moveAll (s.run m) l := rfl

theorem moveAll_keep (h : ∀ s ∈ l, s.into ≠ i ∧ s.out ≠ some i) : moveAll m l i = m i := by
  induction l generalizing m with
  | nil => rfl
  | cons s l ih =>
    obtain ⟨hinto, hout⟩ := h s List.mem_cons_self
    rw [moveAll_cons, ih fun t ht => h t (List.mem_cons_of_mem s ht), Move.run_other hinto hout]

/-- **What is put in is there.** -/
theorem moveAll_into (h : Clear l) (hs : s ∈ l) : moveAll m l s.into = some s.value := by
  induction l generalizing m with
  | nil => cases hs
  | cons t l ih =>
    obtain ⟨ht, hl⟩ := List.pairwise_cons.mp h
    rw [moveAll_cons]
    obtain rfl | hs := List.mem_cons.mp hs
    · rw [moveAll_keep fun u hu => ⟨(ht u hu).2, (ht u hu).1⟩]
      exact Move.run_into m s
    · exact ih hl hs

/-- **What is taken out and not put in is not there, and all else as before.** -/
theorem moveAll_other (h : ∀ s ∈ l, s.into ≠ i) :
    moveAll m l i = if ∃ s ∈ l, s.out = some i then none else m i := by
  induction l generalizing m with
  | nil => simp [moveAll]
  | cons s l ih =>
    have hinto := h s List.mem_cons_self
    rw [moveAll_cons, ih fun t ht => h t (List.mem_cons_of_mem s ht)]
    by_cases hout : s.out = some i
    · rw [Move.run_out hinto hout, ite_self, if_pos ⟨s, List.mem_cons_self, hout⟩]
    · rw [Move.run_other hinto hout]
      simp only [List.mem_cons, exists_eq_or_imp, hout, false_or]

end Run

end Relocate
