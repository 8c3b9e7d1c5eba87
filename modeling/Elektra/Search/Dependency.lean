import Mathlib.Tactic

/-!
# Dependencies

Nodes depend on others; they are ranked one after the other, each when those that it depends on are.
Of finitely many nodes one depends on none of them, unless there is a cycle.

* `Acyclic`, **`Acyclic.exists_ready`**;
* `Ranked`, `Ranked.assign`, **`Ranked.acyclic`**.
-/

namespace Dependency

open Relation

variable {α : Type} {dep : α → α → Prop}

/-- No node depends on itself, not even by others. -/
def Acyclic (dep : α → α → Prop) : Prop := ∀ a, ¬ TransGen dep a a

/-- **Without cycles, one of the nodes depends on none of them.** -/
theorem Acyclic.exists_ready (h : Acyclic dep) {l : List α} (hl : l ≠ []) :
    ∃ a ∈ l, ∀ b ∈ l, ¬ dep a b := by
  let below (a b : {a // a ∈ l}) : Prop := TransGen dep b.1 a.1
  have hfinite : Finite {a // a ∈ l} := l.finite_toSet
  have htrans : IsTrans _ below := ⟨fun _ _ _ hab hbc => hbc.trans hab⟩
  have hirrefl : Std.Irrefl below := ⟨fun a ha => h a.1 ha⟩
  have hwf : WellFounded below := Finite.wellFounded_of_trans_of_irrefl below
  obtain ⟨a, ha⟩ := List.exists_mem_of_ne_nil l hl
  obtain ⟨m, -, hm⟩ := hwf.has_min Set.univ ⟨⟨a, ha⟩, trivial⟩
  exact ⟨m.1, m.2, fun b hb hdep => hm ⟨b, hb⟩ trivial (.single hdep)⟩

theorem not_acyclic_of_stuck {l : List α} (hl : l ≠ []) (h : ∀ a ∈ l, ∃ b ∈ l, dep a b) :
    ¬ Acyclic dep := by
  intro hacyclic
  obtain ⟨a, ha, hready⟩ := hacyclic.exists_ready hl
  obtain ⟨b, hb, hdep⟩ := h a ha
  exact hready b hb hdep

/-- Some nodes have ranks, each a greater one than those that it depends on. -/
structure Ranked (dep : α → α → Prop) (rank : α → Option ℕ) (count : ℕ) : Prop where
  lt : ∀ a r, rank a = some r → r < count
  inj : ∀ a b r, rank a = some r → rank b = some r → a = b
  dep : ∀ a b r, rank a = some r → dep a b → ∃ r' < r, rank b = some r'

theorem Ranked.assign [DecidableEq α] {rank : α → Option ℕ} {count : ℕ}
    (h : Ranked dep rank count) {a : α} (ha : rank a = none)
    (hready : ∀ b, dep a b → (rank b).isSome) :
    Ranked dep (Function.update rank a (some count)) (count + 1) := by
  have hother : ∀ b r, rank b = some r → Function.update rank a (some count) b = some r := by
    intro b r hb
    rw [Function.update_of_ne, hb]
    rintro rfl
    rw [ha] at hb
    cases hb
  refine ⟨fun b r hb => ?_, fun b c r hb hc => ?_, fun b c r hb hdep => ?_⟩
  · by_cases hba : b = a
    · subst hba
      rw [Function.update_self] at hb
      cases hb
      omega
    · rw [Function.update_of_ne hba] at hb
      exact (h.lt b r hb).trans (Nat.lt_succ_self _)
  · by_cases hba : b = a <;> by_cases hca : c = a
    · rw [hba, hca]
    · subst hba
      rw [Function.update_self] at hb
      rw [Function.update_of_ne hca] at hc
      cases hb
      exact absurd (h.lt c _ hc) (lt_irrefl _)
    · subst hca
      rw [Function.update_self] at hc
      rw [Function.update_of_ne hba] at hb
      cases hc
      exact absurd (h.lt b _ hb) (lt_irrefl _)
    · rw [Function.update_of_ne hba] at hb
      rw [Function.update_of_ne hca] at hc
      exact h.inj b c r hb hc
  · by_cases hba : b = a
    · subst hba
      rw [Function.update_self] at hb
      cases hb
      obtain ⟨r', hr'⟩ := Option.isSome_iff_exists.mp (hready c hdep)
      exact ⟨r', h.lt c r' hr', hother c r' hr'⟩
    · rw [Function.update_of_ne hba] at hb
      obtain ⟨r', hlt, hr'⟩ := h.dep b c r hb hdep
      exact ⟨r', hlt, hother c r' hr'⟩

/-- **There is no cycle where all nodes that depend on others are ranked.** -/
theorem Ranked.acyclic {rank : α → Option ℕ} {count : ℕ} (h : Ranked dep rank count)
    (hall : ∀ a b, dep a b → (rank a).isSome) : Acyclic dep := by
  have hlower : ∀ a b, TransGen dep a b → ∃ r r', rank a = some r ∧ rank b = some r' ∧ r' < r := by
    intro a b hab
    induction hab with
    | single hdep =>
      obtain ⟨r, hr⟩ := Option.isSome_iff_exists.mp (hall _ _ hdep)
      obtain ⟨r', hlt, hr'⟩ := h.dep _ _ r hr hdep
      exact ⟨r, r', hr, hr', hlt⟩
    | tail _ hdep ih =>
      obtain ⟨r, r', hr, hr', hlt⟩ := ih
      obtain ⟨r'', hlt', hr''⟩ := h.dep _ _ r' hr' hdep
      exact ⟨r, r'', hr, hr'', hlt'.trans hlt⟩
  intro a ha
  obtain ⟨r, r', hr, hr', hlt⟩ := hlower a a ha
  rw [hr] at hr'
  cases hr'
  exact lt_irrefl _ hlt

end Dependency
