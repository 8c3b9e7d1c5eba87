import Mathlib.Data.Finset.Card
import Mathlib.Tactic.Common

/-!
# Light switches

The members of a group share a lock: the first that enters takes it, the last that leaves gives it
back. The members are counted under a mutex.

* `Phase`: where a process is on its way in and out;
* `Switch`: who has the mutex, who is counted, and whether the group has the lock; `Switch.move`;
* `Switch.Inv`; **`Inv.move`**, `Inv.inside`, `Inv.out`.
-/

namespace Lightswitch

/-! ## Phases -/

/-- What the process does next is in parentheses. -/
inductive Phase
  /-- (take the mutex) -/
  | out
  /-- (increase the count) -/
  | enter
  /-- (read the count) -/
  | raised
  /-- (take the lock, when the count is one) -/
  | measured
  /-- (give the mutex back) -/
  | opened
  /-- (take the mutex) -/
  | inside
  /-- (decrease the count) -/
  | leave
  /-- (read the count) -/
  | lowered
  /-- (give the lock back, when the count is zero) -/
  | checked
  /-- (give the mutex back) -/
  | done
  deriving DecidableEq

namespace Phase

def next : Phase → Phase
  | .out => .enter
  | .enter => .raised
  | .raised => .measured
  | .measured => .opened
  | .opened => .inside
  | .inside => .leave
  | .leave => .lowered
  | .lowered => .checked
  | .checked => .done
  | .done => .out

/-- The process has the mutex. -/
def mutex : Phase → Bool
  | .out | .inside => false
  | _ => true

/-- The process is counted. -/
def counted : Phase → Bool
  | .raised | .measured | .opened | .inside | .leave => true
  | _ => false

end Phase

/-! ## The switch -/

structure Switch (P : Type) where
  holder : Option P
  members : Finset P
  held : Bool

variable {P : Type} [DecidableEq P]

namespace Switch

/-- The switch after a step of `p`. -/
def move (sw : Switch P) (p : P) : Phase → Switch P
  | .out | .inside => { sw with holder := some p }
  | .enter => { sw with members := insert p sw.members }
  | .measured => { sw with held := true }
  | .opened | .done => { sw with holder := none }
  | .leave => { sw with members := sw.members.erase p }
  | .checked => { sw with held := decide sw.members.Nonempty }
  | .raised | .lowered => sw

/-- What holds of the lock when `p` is at a phase with the mutex. -/
def Expects (sw : Switch P) (p : P) : Phase → Prop
  | .enter | .done => sw.held = true ↔ sw.members.Nonempty
  | .raised | .measured => sw.held = true ↔ sw.members ≠ {p}
  | .opened | .leave | .lowered | .checked => sw.held = true
  | .out | .inside => True

structure Inv (sw : Switch P) (phase : P → Phase) : Prop where
  holder : ∀ p, sw.holder = some p ↔ (phase p).mutex = true
  members : ∀ p, p ∈ sw.members ↔ (phase p).counted = true
  free : sw.holder = none → (sw.held = true ↔ sw.members.Nonempty)
  expects : ∀ p, sw.Expects p (phase p)

end Switch

open Switch

variable {sw : Switch P} {phase : P → Phase} {p : P}

omit [DecidableEq P] in
theorem Switch.expects_of_mutex {ph : Phase} (h : ph.mutex = false) : sw.Expects p ph := by
  cases ph <;> trivial

omit [DecidableEq P] in
theorem Switch.Inv.others (h : sw.Inv phase) (hfree : (phase p).mutex = false → sw.holder = none)
    {q : P} (hq : q ≠ p) : (phase q).mutex = false := by
  by_contra hm
  have hold := (h.holder q).mpr (Bool.eq_true_of_not_eq_false hm)
  cases hp : (phase p).mutex with
  | false => cases hold.symm.trans (hfree hp)
  | true => exact hq (Option.some.inj (hold.symm.trans ((h.holder p).mpr hp)))

theorem Switch.expects_move {ph : Phase} (hexp : sw.Expects p ph)
    (hmem : p ∈ sw.members ↔ ph.counted = true)
    (hfree : ph.mutex = false → (sw.held = true ↔ sw.members.Nonempty)) :
    (sw.move p ph).Expects p ph.next := by
  cases ph with
  | out => exact hfree rfl
  | enter =>
    have hp : p ∉ sw.members := fun hp => Bool.false_ne_true (hmem.mp hp)
    refine (show sw.held = true ↔ sw.members.Nonempty from hexp).trans ?_
    rw [Finset.nonempty_iff_ne_empty, not_iff_not]
    constructor
    · intro he
      change insert p sw.members = {p}
      rw [he, insert_empty_eq]
    · intro he
      refine Finset.eq_empty_of_forall_notMem fun q hq => ?_
      have hqp : q ∈ ({p} : Finset P) := he ▸ Finset.mem_insert_of_mem hq
      exact hp (Finset.mem_singleton.mp hqp ▸ hq)
  | raised => exact hexp
  | measured => exact rfl
  | inside => exact (hfree rfl).mpr ⟨p, hmem.mpr rfl⟩
  | leave => exact hexp
  | lowered => exact hexp
  | checked => exact decide_eq_true_iff
  | opened => trivial
  | done => trivial

/-- **Every step keeps the invariant**, where the mutex is taken only when it is free. -/
theorem Switch.Inv.move (h : sw.Inv phase) (hfree : (phase p).mutex = false → sw.holder = none) :
    (sw.move p (phase p)).Inv (Function.update phase p (phase p).next) := by
  have hothers : ∀ q, q ≠ p → (phase q).mutex = false := fun q => h.others hfree
  have hhold := h.holder p
  have hmem := h.members p
  have hexp := h.expects p
  have hmove := expects_move hexp hmem fun hm => h.free (hfree hm)
  constructor
  · intro q
    by_cases hq : q = p
    · subst hq
      rw [Function.update_self]
      cases hph : phase q <;> rw [hph] at hhold hfree <;>
        simp_all [Switch.move, Phase.next, Phase.mutex]
    · rw [Function.update_of_ne hq, hothers q hq]
      have hne : sw.holder ≠ some q := fun e => by
        have hm := (h.holder q).mp e
        rw [hothers q hq] at hm
        cases hm
      cases phase p <;> simp [Switch.move, hne, Ne.symm hq]
  · intro q
    by_cases hq : q = p
    · subst hq
      rw [Function.update_self]
      cases hph : phase q <;> rw [hph] at hmem <;> simp_all [Switch.move, Phase.next, Phase.counted]
    · rw [Function.update_of_ne hq, ← h.members q]
      cases phase p <;> simp [Switch.move, hq]
  · intro hnone
    cases hph : phase p <;> rw [hph] at hnone hhold hmem hexp hfree
    case opened => exact iff_of_true hexp ⟨p, hmem.mpr rfl⟩
    case done => exact hexp
    case out | inside => cases hnone
    all_goals exact absurd (hhold.mpr rfl) (by rw [show sw.holder = none from hnone]; nofun)
  · intro q
    by_cases hq : q = p
    · subst hq
      rwa [Function.update_self]
    · rw [Function.update_of_ne hq]
      exact expects_of_mutex (hothers q hq)

section Facts

omit [DecidableEq P]

theorem Switch.Inv.inside (h : sw.Inv phase) (hp : phase p = .inside) : sw.held = true := by
  have hmem : p ∈ sw.members := (h.members p).mpr (by rw [hp]; rfl)
  have hne : sw.members.Nonempty := ⟨p, hmem⟩
  cases hhold : sw.holder with
  | none => exact (h.free hhold).mpr hne
  | some q =>
    have hexp := h.expects q
    have hmutex := (h.holder q).mp hhold
    have hqp : p ≠ q := by
      rintro rfl
      rw [hp] at hmutex
      cases hmutex
    have hother : sw.members ≠ {q} := fun e => hqp (Finset.mem_singleton.mp (e ▸ hmem))
    cases hq : phase q <;> rw [hq] at hexp hmutex
    case enter | done => exact hexp.mpr hne
    case raised | measured => exact hexp.mpr hother
    case out | inside => cases hmutex
    all_goals exact hexp

theorem Switch.Inv.first (h : sw.Inv phase) (hp : phase p = .measured) :
    sw.held = true ↔ sw.members.card ≠ 1 := by
  have hexp := h.expects p
  have hmem : p ∈ sw.members := (h.members p).mpr (by rw [hp]; rfl)
  rw [hp] at hexp
  refine (show sw.held = true ↔ sw.members ≠ {p} from hexp).trans (not_congr ?_)
  rw [Finset.card_eq_one]
  constructor
  · exact fun he => ⟨p, he⟩
  · rintro ⟨q, he⟩
    rw [he, Finset.mem_singleton] at hmem
    rw [he, hmem]

theorem Switch.Inv.out (h : sw.Inv phase) (hout : ∀ p, phase p = .out) : sw = ⟨none, ∅, false⟩ := by
  have hholder : sw.holder = none := by
    refine Option.eq_none_iff_forall_ne_some.mpr fun p hp => ?_
    have hm := (h.holder p).mp hp
    rw [hout p] at hm
    cases hm
  have hmembers : sw.members = ∅ := by
    refine Finset.eq_empty_of_forall_notMem fun p hp => ?_
    have hc := (h.members p).mp hp
    rw [hout p] at hc
    cases hc
  have hheld : sw.held = false := by
    rw [← Bool.not_eq_true, h.free hholder, hmembers]
    exact Finset.not_nonempty_empty
  obtain ⟨holder, members, held⟩ := sw
  subst hholder hmembers hheld
  rfl

theorem inv_off : (⟨none, ∅, false⟩ : Switch P).Inv fun _ => .out where
  holder _ := iff_of_false nofun nofun
  members p := iff_of_false (Finset.notMem_empty p) nofun
  free _ := iff_of_false nofun Finset.not_nonempty_empty
  expects _ := trivial

end Facts

end Lightswitch
