import Mathlib.Tactic

/-!
# Binary search over a comparison oracle

The entries of an array of length `n` are seen only through `ord : ℕ → Ordering`, where `ord i` is
the order of the search target relative to entry `i`.

* `Ascending ord n`: the oracle of an ascending array;
* `closed`: the search over a closed interval with signed bounds, answering the position of a match
  or `-pos - 1` for the insert position `pos`; **`closed_spec`**;
* `halfOpen`: the search over a half-open interval, answering a match only; **`halfOpen_isSome`**.
-/

namespace Bisect

/-- The oracle of an ascending array: the target is past every entry before one it is past, and
before every entry after one it is before. -/
structure Ascending (ord : ℕ → Ordering) (n : ℕ) : Prop where
  gt_of_gt : ∀ i j, i ≤ j → j < n → ord j = .gt → ord i = .gt
  lt_of_lt : ∀ i j, i ≤ j → j < n → ord i = .lt → ord j = .lt

/-- Entry `i` matches the target. -/
def Found (ord : ℕ → Ordering) (n i : ℕ) : Prop := i < n ∧ ord i = .eq

/-- The target belongs at position `pos`: everything before is smaller, everything from there on is
larger. -/
structure Missing (ord : ℕ → Ordering) (n pos : ℕ) : Prop where
  le : pos ≤ n
  before : ∀ i, i < pos → ord i = .gt
  after : ∀ i, pos ≤ i → i < n → ord i = .lt

/-- A result code: a match at `r`, or `-r - 1` is the insert position. -/
def Code (ord : ℕ → Ordering) (n : ℕ) (r : ℤ) : Prop :=
  (0 ≤ r ∧ Found ord n r.toNat) ∨ (r < 0 ∧ Missing ord n (-r - 1).toNat)

/-! ## The closed interval -/

/-- The loop of the closed search, on `[left, right]`. -/
def closedLoop (ord : ℕ → Ordering) : ℕ → ℤ → ℤ → ℤ → ℤ
  | 0, _, _, insertpos => -insertpos - 1
  | fuel + 1, left, right, insertpos =>
    if right < left then -insertpos - 1
    else
      let middle := left + (right - left) / 2
      match ord middle.toNat with
      | .gt => closedLoop ord fuel (middle + 1) right (middle + 1)
      | .eq => middle
      | .lt => closedLoop ord fuel left (middle - 1) middle

/-- The closed search over `n` entries; every round halves the interval, so `n` rounds suffice. -/
def closed (ord : ℕ → Ordering) (n : ℕ) : ℤ := closedLoop ord n 0 (n - 1) 0

/-- What a round of the closed search keeps: the entries left of the interval are smaller, those
right of it larger, and the insert position is at one of the interval's ends. -/
structure ClosedInv (ord : ℕ → Ordering) (n : ℕ) (left right insertpos : ℤ) : Prop where
  left_nonneg : 0 ≤ left
  right_lt : right < n
  le : left ≤ right + 1
  before : ∀ i : ℕ, (i : ℤ) < left → ord i = .gt
  after : ∀ i : ℕ, right < i → i < n → ord i = .lt
  pos : insertpos = left ∨ insertpos = right + 1

theorem ClosedInv.missing {ord : ℕ → Ordering} {n : ℕ} {left right insertpos : ℤ}
    (h : ClosedInv ord n left right insertpos) (hlt : right < left) :
    Code ord n (-insertpos - 1) := by
  obtain ⟨h0, hr, hle, hb, ha, hp⟩ := h
  have hpos : insertpos = left := by omega
  subst hpos
  right
  refine ⟨by omega, ⟨by omega, fun i hi => hb i (by omega), fun i hi hn => ha i (by omega) hn⟩⟩

theorem closedLoop_spec {ord : ℕ → Ordering} {n : ℕ} (hord : Ascending ord n) :
    ∀ (fuel : ℕ) (left right insertpos : ℤ), ClosedInv ord n left right insertpos →
      right - left < fuel → Code ord n (closedLoop ord fuel left right insertpos)
  | 0, left, right, insertpos, h, hf => h.missing (by simpa using hf)
  | fuel + 1, left, right, insertpos, h, hf => by
    rw [closedLoop]
    split_ifs with hlt
    · exact h.missing hlt
    · obtain ⟨h0, hr, hle, hb, ha, hp⟩ := h
      dsimp only
      set middle := left + (right - left) / 2 with hmid
      have hm0 : left ≤ middle := by omega
      have hm1 : middle ≤ right := by omega
      cases hc : ord middle.toNat with
      | gt =>
        refine closedLoop_spec hord fuel _ _ _ ⟨by omega, hr, by omega, fun i hi => ?_, ha,
          Or.inl rfl⟩ (by omega)
        exact hord.gt_of_gt i middle.toNat (by omega) (by omega) hc
      | eq => exact Or.inl ⟨show 0 ≤ middle by omega, show middle.toNat < n by omega, hc⟩
      | lt =>
        refine closedLoop_spec hord fuel _ _ _ ⟨h0, by omega, by omega, hb, fun i hi hn => ?_,
          Or.inr (by omega)⟩ (by omega)
        exact hord.lt_of_lt middle.toNat i (by omega) hn hc

/-- **The closed search finds a match or the insert position.** -/
theorem closed_spec {ord : ℕ → Ordering} {n : ℕ} (hord : Ascending ord n) :
    Code ord n (closed ord n) := by
  refine closedLoop_spec hord n 0 (n - 1) 0 ⟨le_rfl, by omega, by omega, ?_, ?_, Or.inl rfl⟩
    (by omega)
  · intro i hi; omega
  · intro i hi hn; omega

/-- A position that is reported is one of the array, whatever the oracle. -/
theorem closedLoop_range (ord : ℕ → Ordering) (n : ℕ) : ∀ (fuel : ℕ) (left right insertpos : ℤ), 0 ≤ left →
    right < n → 0 ≤ insertpos → insertpos ≤ n →
    (0 ≤ closedLoop ord fuel left right insertpos ∧ (closedLoop ord fuel left right insertpos).toNat < n) ∨
      closedLoop ord fuel left right insertpos < 0 ∧ (-closedLoop ord fuel left right insertpos - 1).toNat ≤ n
  | 0, left, right, insertpos, _, _, h0, hn => by
    rw [closedLoop]
    omega
  | fuel + 1, left, right, insertpos, hl, hr, h0, hn => by
    rw [closedLoop]
    split_ifs with hlt
    · omega
    · dsimp only
      cases ord (left + (right - left) / 2).toNat with
      | gt => exact closedLoop_range ord n fuel _ _ _ (by omega) hr (by omega) (by omega)
      | eq => exact .inl ⟨by dsimp only; omega, by dsimp only; omega⟩
      | lt => exact closedLoop_range ord n fuel _ _ _ hl (by omega) (by omega) (by omega)

theorem closed_range (ord : ℕ → Ordering) (n : ℕ) :
    (0 ≤ closed ord n ∧ (closed ord n).toNat < n) ∨ closed ord n < 0 ∧ (-closed ord n - 1).toNat ≤ n :=
  closedLoop_range ord n n 0 (n - 1) 0 le_rfl (by omega) le_rfl (by omega)

/-! ## The half-open interval -/

/-- The loop of the half-open search, on `[low, high)`. -/
def halfOpenLoop (ord : ℕ → Ordering) : ℕ → ℕ → ℕ → Option ℕ
  | 0, _, _ => none
  | fuel + 1, low, high =>
    if low < high then
      let idx := (low + high) / 2
      match ord idx with
      | .lt => halfOpenLoop ord fuel low idx
      | .gt => halfOpenLoop ord fuel (idx + 1) high
      | .eq => some idx
    else none

/-- The half-open search over `n` entries. -/
def halfOpen (ord : ℕ → Ordering) (n : ℕ) : Option ℕ := halfOpenLoop ord n 0 n

/-- A match that is reported lies in the interval; this needs no order on the entries. -/
theorem halfOpenLoop_found (ord : ℕ → Ordering) : ∀ (fuel low high i : ℕ),
    halfOpenLoop ord fuel low high = some i → i < high ∧ ord i = .eq
  | 0, low, high, i, h => by simp [halfOpenLoop] at h
  | fuel + 1, low, high, i, h => by
    rw [halfOpenLoop] at h
    split_ifs at h with hlt
    dsimp only at h
    cases hc : ord ((low + high) / 2) with
    | lt =>
      rw [hc] at h
      obtain ⟨h1, h2⟩ := halfOpenLoop_found ord fuel _ _ i h
      exact ⟨by omega, h2⟩
    | gt => rw [hc] at h; exact halfOpenLoop_found ord fuel _ _ i h
    | eq =>
      rw [hc] at h
      obtain rfl : (low + high) / 2 = i := by simpa using h
      exact ⟨by omega, hc⟩

theorem halfOpen_found {ord : ℕ → Ordering} {n i : ℕ} (h : halfOpen ord n = some i) :
    Found ord n i := halfOpenLoop_found ord n 0 n i h

theorem halfOpenLoop_isSome {ord : ℕ → Ordering} {n : ℕ} (hord : Ascending ord n) :
    ∀ (fuel low high : ℕ), high ≤ n → high - low ≤ fuel →
      (∃ i, low ≤ i ∧ i < high ∧ ord i = .eq) → (halfOpenLoop ord fuel low high).isSome
  | 0, low, high, _, hf, ⟨i, h1, h2, _⟩ => by omega
  | fuel + 1, low, high, hn, hf, ⟨i, h1, h2, hi⟩ => by
    rw [halfOpenLoop, if_pos (by omega)]
    dsimp only
    cases hc : ord ((low + high) / 2) with
    | lt =>
      refine halfOpenLoop_isSome hord fuel _ _ (by omega) (by omega) ⟨i, h1, ?_, hi⟩
      by_contra hge
      have := hord.lt_of_lt _ i (not_lt.mp hge) (by omega) hc
      simp [hi] at this
    | gt =>
      refine halfOpenLoop_isSome hord fuel _ _ hn (by omega) ⟨i, ?_, h2, hi⟩
      by_contra hle
      have := hord.gt_of_gt i _ (by omega) (by omega) hc
      simp [hi] at this
    | eq => rfl

/-- **The half-open search over an ascending array reports a match exactly when there is one.** -/
theorem halfOpen_isSome {ord : ℕ → Ordering} {n : ℕ} (hord : Ascending ord n) :
    (halfOpen ord n).isSome ↔ ∃ i, Found ord n i := by
  constructor
  · intro h
    obtain ⟨i, hi⟩ := Option.isSome_iff_exists.mp h
    exact ⟨i, halfOpen_found hi⟩
  · rintro ⟨i, hi, he⟩
    exact halfOpenLoop_isSome hord n 0 n le_rfl (by omega) ⟨i, Nat.zero_le i, hi, he⟩

end Bisect
