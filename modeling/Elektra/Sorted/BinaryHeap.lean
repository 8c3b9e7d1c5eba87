import Mathlib.Data.Multiset.Range
import Mathlib.Tactic

/-!
# Binary heaps

The first `n` values of a sequence are a binary heap where none comes before its parent. Sifting up
mends the order between one index and its parent, sifting down the order between one index and its
children: each round swaps two values and moves the index.

* `parent`, `contents`, `Ordered`;
* `UpTo`, `DownFrom`: the order but for one index;
* **`UpTo.move`**, **`UpTo.finish`**, **`DownFrom.move`**, **`DownFrom.finish`**;
* `Ordered.append`, `Ordered.replaceRoot`: where sifting starts;
* **`Ordered.root`**: nothing comes before the root.
-/

namespace BinaryHeap

def parent (i : ℕ) : ℕ := (i - 1) / 2

theorem parent_lt {i : ℕ} (h : 0 < i) : parent i < i := by
  rw [parent]
  omega

variable {α : Type*}

/-- The values, and how often each is there. -/
def contents (n : ℕ) (f : ℕ → α) : Multiset α := (Multiset.range n).map f

/-- Two values change places. -/
def swap (f : ℕ → α) (i j : ℕ) : ℕ → α := f ∘ Equiv.swap i j

section Contents

variable {f g : ℕ → α} {n i j : ℕ}

theorem swap_left (f : ℕ → α) (i j : ℕ) : swap f i j i = f j := congrArg f (Equiv.swap_apply_left i j)

theorem swap_right (f : ℕ → α) (i j : ℕ) : swap f i j j = f i := congrArg f (Equiv.swap_apply_right i j)

theorem swap_of_ne {k : ℕ} (hi : k ≠ i) (hj : k ≠ j) : swap f i j k = f k :=
  congrArg f (Equiv.swap_apply_of_ne_of_ne hi hj)

theorem contents_congr (h : ∀ k < n, f k = g k) : contents n f = contents n g :=
  Multiset.map_congr rfl fun k hk => h k (Multiset.mem_range.mp hk)

theorem mem_contents {x : α} : x ∈ contents n f ↔ ∃ k < n, f k = x := by
  simp only [contents, Multiset.mem_map, Multiset.mem_range]

theorem card_contents : Multiset.card (contents n f) = n := by
  rw [contents, Multiset.card_map, Multiset.card_range]

theorem contents_succ (n : ℕ) (f : ℕ → α) : contents (n + 1) f = f n ::ₘ contents n f := by
  rw [contents, Multiset.range_succ, Multiset.map_cons]
  rfl

theorem contents_swap (hi : i < n) (hj : j < n) : contents n (swap f i j) = contents n f := by
  have hrange : (Multiset.range n).map (Equiv.swap i j) = Multiset.range n := by
    refine (Multiset.Nodup.ext ?_ (Multiset.nodup_range n)).mpr fun k => ?_
    · exact (Multiset.nodup_range n).map (Equiv.swap i j).injective
    · have hlt : ∀ k < n, Equiv.swap i j k < n := by
        intro k hk
        rw [Equiv.swap_apply_def]
        split_ifs
        · exact hj
        · exact hi
        · exact hk
      simp only [Multiset.mem_map, Multiset.mem_range]
      constructor
      · rintro ⟨l, hl, rfl⟩
        exact hlt l hl
      · exact fun hk => ⟨Equiv.swap i j k, hlt k hk, Equiv.swap_apply_self i j k⟩
  rw [contents, swap, ← Multiset.map_map, hrange]
  rfl

theorem contents_append (x : α) : contents (n + 1) (Function.update f n x) = x ::ₘ contents n f := by
  rw [contents_succ, Function.update_self]
  exact congrArg _ (contents_congr fun k hk => Function.update_of_ne hk.ne _ _)

theorem contents_replaceRoot (n : ℕ) (f : ℕ → α) :
    contents (n + 1) f = f 0 ::ₘ contents n (Function.update f 0 (f n)) := by
  rcases Nat.eq_zero_or_pos n with rfl | hn
  · exact contents_succ 0 f
  · have hlast : contents (n + 1) (swap f 0 n) = f 0 ::ₘ contents n (Function.update f 0 (f n)) := by
      rw [contents_succ, swap_right]
      refine congrArg _ (contents_congr fun k hk => ?_)
      by_cases hk0 : k = 0
      · rw [hk0, swap_left, Function.update_self]
      · rw [swap_of_ne hk0 hk.ne, Function.update_of_ne hk0]
    rw [← hlast, contents_swap (Nat.succ_pos n) (Nat.lt_succ_self n)]

end Contents

/-! ## The order -/

variable (r : α → α → Prop)

/-- No value comes before its parent. -/
def Ordered (n : ℕ) (f : ℕ → α) : Prop := ∀ i, 0 < i → i < n → ¬ r (f i) (f (parent i))

/-- What stands between the parent of an index and its children is not missed. -/
def Around (n : ℕ) (f : ℕ → α) (pos : ℕ) : Prop :=
  0 < pos → ∀ i, 0 < i → i < n → parent i = pos → ¬ r (f i) (f (parent pos))

/-- Ordered, but that one value may come before its parent. -/
structure UpTo (n : ℕ) (f : ℕ → α) (pos : ℕ) : Prop where
  order : ∀ i, 0 < i → i < n → i ≠ pos → ¬ r (f i) (f (parent i))
  around : Around r n f pos

/-- Ordered, but that the children of one value may come before it. -/
structure DownFrom (n : ℕ) (f : ℕ → α) (pos : ℕ) : Prop where
  order : ∀ i, 0 < i → i < n → parent i ≠ pos → ¬ r (f i) (f (parent i))
  around : Around r n f pos

section Order

variable {r} {n pos : ℕ} {f : ℕ → α}

theorem UpTo.finish (h : UpTo r n f pos) (hstop : 0 < pos → ¬ r (f pos) (f (parent pos))) : Ordered r n f := by
  intro i h0 hi
  by_cases he : i = pos
  · exact he ▸ hstop (he ▸ h0)
  · exact h.order i h0 hi he

theorem DownFrom.finish (h : DownFrom r n f pos)
    (hstop : ∀ i, 0 < i → i < n → parent i = pos → ¬ r (f i) (f pos)) : Ordered r n f := by
  intro i h0 hi
  by_cases he : parent i = pos
  · exact he ▸ hstop i h0 hi he
  · exact h.order i h0 hi he

theorem Ordered.append (h : Ordered r n f) (x : α) : UpTo r (n + 1) (Function.update f n x) n := by
  constructor
  · intro i hi0 hi hne
    have hlt := parent_lt hi0
    rw [Function.update_of_ne hne, Function.update_of_ne (by omega)]
    exact h i hi0 (by omega)
  · intro _ i hi0 hi hp
    have hlt := parent_lt hi0
    omega

theorem Ordered.replaceRoot (h : Ordered r (n + 1) f) (x : α) : DownFrom r n (Function.update f 0 x) 0 := by
  constructor
  · intro i hi0 hi hne
    rw [Function.update_of_ne hi0.ne', Function.update_of_ne hne]
    exact h i hi0 (hi.trans (Nat.lt_succ_self n))
  · exact fun h0 => absurd h0 (Nat.lt_irrefl 0)

variable [IsStrictWeakOrder α r]

theorem not_before_trans {a b c : α} (hab : ¬ r a b) (hbc : ¬ r b c) : ¬ r a c := by
  intro hac
  by_cases hba : r b a
  · exact hbc (trans_of r hba hac)
  · by_cases hcb : r c b
    · exact hab (trans_of r hac hcb)
    · exact (IsStrictWeakOrder.incomp_trans a b c ⟨hab, hba⟩ ⟨hbc, hcb⟩).1 hac

/-- **The value changes places with its parent,** which does not come before it. -/
theorem UpTo.move (h : UpTo r n f pos) (h0 : 0 < pos) (hpos : pos < n) (hup : ¬ r (f (parent pos)) (f pos)) :
    UpTo r n (swap f pos (parent pos)) (parent pos) := by
  have hlt := parent_lt h0
  -- what stands below the parent does not come before the value
  have hbelow : ∀ i, 0 < i → i < n → i ≠ pos → parent i = parent pos → ¬ r (f i) (f (parent pos)) :=
    fun i hi0 hi hne hp => hp ▸ h.order i hi0 hi hne
  constructor
  · intro i hi0 hi hne
    by_cases hip : i = pos
    · rw [hip, swap_left, swap_right]
      exact hup
    · rw [swap_of_ne hip hne]
      by_cases hpp : parent i = pos
      · rw [hpp, swap_left]
        exact h.around h0 i hi0 hi hpp
      · by_cases hsib : parent i = parent pos
        · rw [hsib, swap_right]
          exact not_before_trans (hbelow i hi0 hi hip hsib) hup
        · rw [swap_of_ne hpp hsib]
          exact h.order i hi0 hi hip
  · intro hpp i hi0 hi hp
    have hlt' := parent_lt hpp
    have hparent : ¬ r (f (parent pos)) (f (parent (parent pos))) := h.order _ hpp (hlt.trans hpos) hlt.ne
    rw [swap_of_ne (k := parent (parent pos)) (by omega) hlt'.ne]
    by_cases hip : i = pos
    · rw [hip, swap_left]
      exact hparent
    · have hne : i ≠ parent pos := fun he => absurd hp (by rw [he]; exact hlt'.ne)
      rw [swap_of_ne hip hne]
      exact not_before_trans (hbelow i hi0 hi hip hp) hparent

/-- **The value changes places with the first of its children,** which comes before it. -/
theorem DownFrom.move (h : DownFrom r n f pos) {c : ℕ} (h0 : 0 < c) (hc : c < n) (hp : parent c = pos)
    (hfirst : ∀ i, 0 < i → i < n → parent i = pos → ¬ r (f i) (f c)) (hdown : r (f c) (f pos)) :
    DownFrom r n (swap f pos c) c := by
  have hlt : pos < c := hp ▸ parent_lt h0
  constructor
  · intro i hi0 hi hne
    by_cases hic : i = c
    · rw [hic, hp, swap_left, swap_right]
      exact asymm_of r hdown
    · by_cases hpp : parent i = pos
      · have hip : i ≠ pos := (hpp ▸ parent_lt hi0).ne'
        rw [hpp, swap_left, swap_of_ne hip hic]
        exact hfirst i hi0 hi hpp
      · rw [swap_of_ne hpp hne]
        by_cases hip : i = pos
        · subst hip
          rw [swap_left]
          exact h.around hi0 c h0 hc hp
        · rw [swap_of_ne hip hic]
          exact h.order i hi0 hi hpp
  · intro _ i hi0 hi hpi
    have hic : c < i := hpi ▸ parent_lt hi0
    rw [hp, swap_left, swap_of_ne (hlt.trans hic).ne' hic.ne', ← hpi]
    exact h.order i hi0 hi (by rw [hpi]; exact hlt.ne')

/-- **No value comes before the root.** -/
theorem Ordered.root (h : Ordered r n f) : ∀ i < n, ¬ r (f i) (f 0) := by
  intro i
  induction i using Nat.strong_induction_on with
  | _ i ih =>
    intro hi
    rcases Nat.eq_zero_or_pos i with rfl | h0
    · exact irrefl_of r (f 0)
    · exact not_before_trans (h i h0 hi) (ih (parent i) (parent_lt h0) ((parent_lt h0).trans hi))

end Order

end BinaryHeap
