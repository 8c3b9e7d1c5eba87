import Mathlib.Tactic

/-!
# Loops that test at their end

A round of a loop either goes on from another state, or ends it with a result.

* `Round`, `loop`, `Reaches`: the rounds, and the states before them;
* **`loop_eq_some`**, `loop_unique`: a loop yields what its last round does;
* **`loop_ends`**: a loop ends when a measure of its states falls.
-/

namespace Loop

open Relation

variable {σ ρ : Type}

inductive Round (σ ρ : Type)
  | again (s : σ)
  | done (r : ρ)

/-- At most as many rounds. -/
def loop (body : σ → Round σ ρ) : ℕ → σ → Option ρ
  | 0, _ => none
  | n + 1, s =>
    match body s with
    | .again t => loop body n t
    | .done r => some r

/-- The loop comes from the one state to the other. -/
def Reaches (body : σ → Round σ ρ) : σ → σ → Prop := ReflTransGen fun s t => body s = .again t

section Rounds

variable {body : σ → Round σ ρ} {s t : σ} {r : ρ}

/-- **A loop yields what its last round does.** -/
theorem loop_eq_some : (∃ n, loop body n s = some r) ↔ ∃ t, Reaches body s t ∧ body t = .done r := by
  constructor
  · rintro ⟨n, h⟩
    induction n generalizing s with
    | zero => cases h
    | succ n ih =>
      rw [loop] at h
      cases hs : body s with
      | again t =>
        rw [hs] at h
        obtain ⟨u, hu, hr⟩ := ih h
        exact ⟨u, .head hs hu, hr⟩
      | done r' =>
        rw [hs] at h
        cases h
        exact ⟨s, .refl, hs⟩
  · rintro ⟨t, hst, ht⟩
    induction hst using ReflTransGen.head_induction_on with
    | refl => exact ⟨1, by rw [loop, ht]⟩
    | head hab _ ih =>
      obtain ⟨n, hn⟩ := ih
      exact ⟨n + 1, by rw [loop, hab]; exact hn⟩

theorem loop_unique : ∀ {n m : ℕ} {s : σ} {r r' : ρ}, loop body n s = some r → loop body m s = some r' →
    r = r'
  | n + 1, m + 1, s, r, r', h, h' => by
    rw [loop] at h h'
    cases hs : body s with
    | again t =>
      rw [hs] at h h'
      exact loop_unique h h'
    | done r'' =>
      rw [hs] at h h'
      cases h
      cases h'
      rfl

/-- **A loop ends when a measure of its states falls.** -/
theorem loop_ends {Inv : σ → Prop} {measure : σ → ℕ}
    (hkeep : ∀ t, Reaches body s t → Inv t → ∀ u, body t = .again u → Inv u ∧ measure u < measure t)
    (hs : Inv s) : ∃ t r, Reaches body s t ∧ Inv t ∧ body t = .done r := by
  generalize hm : measure s = m
  induction m using Nat.strong_induction_on generalizing s with
  | _ m ih =>
    cases hb : body s with
    | done r => exact ⟨s, r, .refl, hs, hb⟩
    | again t =>
      obtain ⟨ht, hlt⟩ := hkeep s .refl hs t hb
      obtain ⟨u, r, hu, hinv, hr⟩ := ih (measure t) (hm ▸ hlt)
        (fun v hv => hkeep v (.head hb hv)) ht rfl
      exact ⟨u, r, .head hb hu, hinv, hr⟩

end Rounds

end Loop
