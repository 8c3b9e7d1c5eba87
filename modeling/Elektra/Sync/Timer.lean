import Mathlib.Algebra.Order.Group.Defs
import Mathlib.Algebra.Order.Monoid.Unbundled.Basic
import Mathlib.Data.List.Basic
import Mathlib.Data.List.SplitBy
import Mathlib.Tactic.Common

/-!
# Timers that every call puts off

Something is due when a time is reached. Whoever calls looks whether it is due, does it then, and sets the
time again: a call that found nothing due has put it off.

* `run`: the calls, and what is done in them;
* `Timely`: what is due after `t` is done after `t`;
* `bursts`, `Within`: calls that come one after the other in less than `t`; **`timely_run_iff`**.
-/

namespace Timer

variable {T : Type} [AddCommGroup T] [LinearOrder T] (t : T)

/-- The calls at these times; each says whether what was due at `next` is done in it. -/
def run : T → List T → List (T × Bool)
  | _, [] => []
  | next, now :: times => (now, decide (next ≤ now)) :: run (now + t) times

/-- What was done last at `last` is done in every call from `t` later on, and after no call more than `t`
has passed since it was done. -/
def Timely : T → List (T × Bool) → Prop
  | _, [] => True
  | last, (now, acted) :: calls =>
    (last + t ≤ now → acted = true) ∧ now ≤ (if acted then now else last) + t ∧
      Timely (if acted then now else last) calls

/-- All of a burst comes less than `t` after its first call. -/
def Within (burst : List T) : Prop := ∀ first ∈ burst.head?, ∀ now ∈ burst, now < first + t

/-- The calls in bursts: in one burst, each comes less than `t` after the one before. -/
def bursts (times : List T) : List (List T) := times.splitBy fun before now => now < before + t

variable {t} {burst : List T} {first a now : T}

theorem within_reverse (h : burst.getLast? = some first) :
    Within t burst.reverse ↔ ∀ now ∈ burst, now < first + t := by
  have hhead : burst.reverse.head? = some first := by rw [List.head?_reverse, h]
  unfold Within
  simp only [hhead, Option.mem_some_iff, forall_eq', List.mem_reverse]

variable [IsOrderedAddMonoid T]

/-- The calls of the burst at `a`, the last of them first, found nothing due, except for the first one. -/
theorem timely_loop (ht : 0 < t) : ∀ (times : List T) (a first : T) (burst : List T) (done : List (List T)),
    (a :: burst).getLast? = some first →
    ((∀ b ∈ List.splitBy.loop (fun before now => now < before + t) times a burst done, Within t b) ↔
      (∀ b ∈ done, Within t b) ∧ (∀ now ∈ a :: burst, now < first + t) ∧
        Timely t first (run t (a + t) times))
  | [], a, first, burst, done, h => by
    simp only [List.splitBy.loop, List.mem_reverse, List.mem_cons, forall_eq_or_imp, run, Timely, and_true]
    rw [within_reverse h, List.forall_mem_cons]
    exact and_comm
  | now :: times, a, first, burst, done, h => by
    by_cases hnow : now < a + t
    · have hloop : List.splitBy.loop (fun before now => now < before + t) (now :: times) a burst done =
          List.splitBy.loop (fun before now => now < before + t) times now (a :: burst) done := by
        rw [List.splitBy.loop, decide_eq_true hnow]
      have hlast : (now :: a :: burst).getLast? = some first := by rwa [List.getLast?_cons_cons]
      have hrun : run t (a + t) (now :: times) = (now, false) :: run t (now + t) times := by
        rw [run, decide_eq_false (not_le.mpr hnow)]
      rw [hloop, timely_loop ht times now first (a :: burst) done hlast, hrun, List.forall_mem_cons]
      have htimely : Timely t first ((now, false) :: run t (now + t) times) ↔
          now < first + t ∧ Timely t first (run t (now + t) times) :=
        ⟨fun h => ⟨lt_of_not_ge fun hle => Bool.noConfusion (h.1 hle), h.2.2⟩,
          fun h => ⟨fun hle => absurd h.1 (not_lt.mpr hle), h.1.le, h.2⟩⟩
      rw [htimely]
      tauto
    · have hloop : List.splitBy.loop (fun before now => now < before + t) (now :: times) a burst done =
          List.splitBy.loop (fun before now => now < before + t) times now []
            ((a :: burst).reverse :: done) := by
        rw [List.splitBy.loop, decide_eq_false hnow]
      have hrun : run t (a + t) (now :: times) = (now, true) :: run t (now + t) times := by
        rw [run, decide_eq_true (not_lt.mp hnow)]
      have htimely : Timely t first ((now, true) :: run t (now + t) times) ↔
          Timely t now (run t (now + t) times) :=
        ⟨fun h => h.2.2, fun h => ⟨fun _ => rfl, (lt_add_of_pos_right now ht).le, h⟩⟩
      have hone : ∀ x ∈ [now], x < now + t := fun x hx =>
        List.mem_singleton.mp hx ▸ lt_add_of_pos_right now ht
      rw [hloop, timely_loop ht times now now [] _ rfl, hrun, htimely, List.forall_mem_cons,
        within_reverse h]
      tauto

/-- **What is due is done in time if and only if all of a burst comes less than `t` after its first call.** -/
theorem timely_run_iff (ht : 0 < t) (times : List T) :
    Timely t first (run t (first + t) times) ↔ ∀ burst ∈ bursts t (first :: times), Within t burst := by
  have hone : ∀ x ∈ [first], x < first + t := fun x hx =>
    List.mem_singleton.mp hx ▸ lt_add_of_pos_right first ht
  rw [bursts, List.splitBy, timely_loop ht times first first [] [] rfl]
  exact ⟨fun h => ⟨fun _ hb => absurd hb List.not_mem_nil, hone, h⟩, fun h => h.2.2⟩

end Timer
