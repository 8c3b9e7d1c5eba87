import Mathlib.Data.List.Infix

/-!
# Longest match

A partial map on lists, asked for the value at the longest prefix of a list that it has.

* `longest`, `longest_eq_none`, **`longest_eq_some`**;
* `longest_concat`: the whole list, or else one that is shorter;
* `longest_skip`, `longest_miss`: what a first edge of a trie does;
* `longest_or_root`: a value at the empty list is the last resort.
-/

namespace Longest

variable {α β : Type}

/-- The value at the longest prefix where `m` has one. -/
def longest (m : List α → Option β) : List α → Option β
  | [] => m []
  | c :: s => (longest (fun p => m (c :: p)) s).or (m [])

theorem longest_eq_none {m : List α → Option β} {s : List α} :
    longest m s = none ↔ ∀ p, p <+: s → m p = none := by
  induction s generalizing m with
  | nil => simp [longest]
  | cons c s ih =>
    rw [longest, Option.or_eq_none_iff, ih]
    constructor
    · rintro ⟨hs, h0⟩ p hp
      cases p with
      | nil => exact h0
      | cons d p =>
        obtain ⟨rfl, hps⟩ := List.cons_prefix_cons.mp hp
        exact hs p hps
    · intro h
      exact ⟨fun p hp => h _ (List.cons_prefix_cons.mpr ⟨rfl, hp⟩), h [] List.nil_prefix⟩

/-- **The value at the longest prefix.** -/
theorem longest_eq_some {m : List α → Option β} {s : List α} {v : β} :
    longest m s = some v ↔
      ∃ p, p <+: s ∧ m p = some v ∧ ∀ q, q <+: s → (m q).isSome → q.length ≤ p.length := by
  induction s generalizing m with
  | nil => simp [longest]
  | cons c s ih =>
    rw [longest, Option.or_eq_some_iff, ih, longest_eq_none]
    constructor
    · rintro (⟨p, hp, hv, hmax⟩ | ⟨hnone, hv⟩)
      · refine ⟨c :: p, List.cons_prefix_cons.mpr ⟨rfl, hp⟩, hv, fun q hq hsome => ?_⟩
        cases q with
        | nil => exact Nat.zero_le _
        | cons d q =>
          obtain ⟨rfl, hqs⟩ := List.cons_prefix_cons.mp hq
          exact Nat.succ_le_succ (hmax q hqs hsome)
      · refine ⟨[], List.nil_prefix, hv, fun q hq hsome => ?_⟩
        cases q with
        | nil => exact le_rfl
        | cons d q =>
          obtain ⟨rfl, hqs⟩ := List.cons_prefix_cons.mp hq
          rw [hnone q hqs] at hsome
          cases hsome
    · rintro ⟨p, hp, hv, hmax⟩
      cases p with
      | nil =>
        refine Or.inr ⟨fun q hq => ?_, hv⟩
        by_contra hne
        have := hmax (c :: q) (List.cons_prefix_cons.mpr ⟨rfl, hq⟩) (Option.isSome_iff_ne_none.mpr hne)
        exact absurd this (Nat.not_succ_le_zero _)
      | cons d p =>
        obtain ⟨rfl, hps⟩ := List.cons_prefix_cons.mp hp
        refine Or.inl ⟨p, hps, hv, fun q hq hsome => ?_⟩
        exact Nat.le_of_succ_le_succ (hmax (d :: q) (List.cons_prefix_cons.mpr ⟨rfl, hq⟩) hsome)

theorem longest_concat {m : List α → Option β} {s : List α} {c : α} :
    longest m (s ++ [c]) = (m (s ++ [c])).or (longest m s) := by
  induction s generalizing m with
  | nil => rfl
  | cons d s ih => rw [List.cons_append, longest, ih, Option.or_assoc, ← longest]

theorem longest_miss {m : List α → Option β} {s : List α} (h : ∀ p, p <+: s → p ≠ [] → m p = none) :
    longest m s = m [] := by
  cases s with
  | nil => rfl
  | cons c s =>
    have hnone : longest (fun p => m (c :: p)) s = none :=
      longest_eq_none.mpr fun p hp => h _ (List.cons_prefix_cons.mpr ⟨rfl, hp⟩) (List.cons_ne_nil c p)
    rw [longest, hnone, Option.none_or]

theorem longest_skip {m : List α → Option β} : ∀ {t s : List α}, t ≠ [] →
    (∀ p, p <+: t → p ≠ [] → p ≠ t → m p = none) →
    longest m (t ++ s) = (longest (fun p => m (t ++ p)) s).or (m [])
  | [], _, h, _ => absurd rfl h
  | [c], s, _, _ => rfl
  | c :: d :: t, s, _, h => by
    have hinner : ∀ p, p <+: d :: t → p ≠ [] → p ≠ d :: t → m (c :: p) = none := fun p hp _ hne =>
      h (c :: p) (List.cons_prefix_cons.mpr ⟨rfl, hp⟩) (List.cons_ne_nil c p) fun he =>
        hne (List.cons.inj he).2
    have hc : m [c] = none :=
      h [c] (List.cons_prefix_cons.mpr ⟨rfl, List.nil_prefix⟩) (List.cons_ne_nil c []) (by simp)
    rw [List.cons_append, longest, longest_skip (List.cons_ne_nil d t) hinner, hc, Option.or_none]
    rfl

theorem longest_or_root {m : List α → Option β} {v : Option β} {s : List α} :
    longest (fun p => (m p).or (if p = [] then v else none)) s = (longest m s).or v := by
  cases s with
  | nil => simp [longest]
  | cons c s => simp [longest, Option.or_assoc]

end Longest
