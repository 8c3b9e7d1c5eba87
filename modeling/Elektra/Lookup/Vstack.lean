import Elektra.Lookup.Vheap

/-!
# Vstack

A stack of pointers in an array that is doubled and halved, in the memory of a `Vheap`. Around a reallocation the
offset of the head goes through an `int`.

* `elektraVstackInit`, `elektraVstackPush`, `elektraVstackPop`, `elektraVstackClear`;
* `Does`, `Runs`: what the stack is for, on the list of its elements;
* `Stacked`, `exec_does`: every call does what it is for;
* **`vstack_refines`**: every sequence of calls.
-/

namespace Elektra.Opmphm

/-! ## The functions -/

variable {α : Type}

/-- `struct _Vstack`; `count` is `head - data`. -/
abbrev Vstack (α : Type) := Vheap α

def elektraVstackInit (minSize : ℕ) (granted granted' : Bool) : Option (Vstack α) :=
  elektraVheapInit minSize granted granted'

namespace Vstack

/-- `head = data + diff`, where `diff` is an `int` -/
def restore (s : Vstack α) : Except Fault (Vstack α) :=
  if s.count % 2 ^ 32 < 2 ^ 31 then .ok { s with count := s.count % 2 ^ 32 } else .error .outside

/-- The end of `elektraVstackPush`. -/
def store (s : Vstack α) (data : α) : Except Fault (ℤ × Vstack α) := do
  let s ← s.write s.count data
  .ok (0, { s with count := s.count + 1 })

/-- The end of `elektraVstackPop`. -/
def top (s : Vstack α) : Except Fault (Option α × Vstack α) := do
  let ret ← s.read s.count
  .ok (some ret, s)

end Vstack

def elektraVstackPush (s : Vstack α) (data : α) (granted : Bool) : Except Fault (ℤ × Vstack α) :=
  -- grow
  if s.size ≤ s.count then
    let s := { s with size := s.size * 2 % 2 ^ 64 }
    match s.realloc s.size granted with
    | none => .ok (1, { s with size := s.size / 2 })
    | some s => do
      let s ← Vstack.restore s
      Vstack.store s data
  else Vstack.store s data

def elektraVstackPop (s : Vstack α) (granted : Bool) : Except Fault (Option α × Vstack α) :=
  if s.count = 0 then .ok (none, s)
  else
    let s := { s with count := s.count - 1 }
    -- shrink
    if s.minSize < s.size ∧ s.count ≤ s.size / 4 then
      let s := { s with size := s.size / 2 }
      match s.realloc s.size granted with
      | none => .ok (none, { s with count := s.count + 1, size := s.size * 2 % 2 ^ 64 })
      | some s => do
        let s ← Vstack.restore s
        Vstack.top s
    else Vstack.top s

def elektraVstackClear (s : Vstack α) : ℤ × Vstack α := (0, { s with count := 0 })

/-! ## What a stack is for -/

inductive VstackCall (α : Type)
  | push (data : α) (granted : Bool)
  | pop (granted : Bool)
  | clear

def VstackCall.exec (s : Vstack α) : VstackCall α → Except Fault ((ℤ ⊕ Option α) × Vstack α)
  | .push data granted => (elektraVstackPush s data granted).map fun r => (.inl r.1, r.2)
  | .pop granted => (elektraVstackPop s granted).map fun r => (.inr r.1, r.2)
  | .clear => .ok (.inl (elektraVstackClear s).1, (elektraVstackClear s).2)

def vstackRun (s : Vstack α) : List (VstackCall α) → Except Fault (List (ℤ ⊕ Option α) × Vstack α)
  | [] => .ok ([], s)
  | call :: calls => do
    let (answer, s) ← call.exec s
    let (answers, s) ← vstackRun s calls
    .ok (answer :: answers, s)

/-- A call fails only where memory is refused, and then changes nothing. -/
inductive Does : List α → VstackCall α → ℤ ⊕ Option α → List α → Prop
  | push {xs x granted} : Does xs (.push x granted) (.inl 0) (xs ++ [x])
  | pushRefused {xs x} : Does xs (.push x false) (.inl 1) xs
  | pop {xs x granted} : Does (xs ++ [x]) (.pop granted) (.inr (some x)) xs
  | popEmpty {granted} : Does [] (.pop granted) (.inr none) []
  | popRefused {xs} : Does xs (.pop false) (.inr none) xs
  | clear {xs} : Does xs .clear (.inl 0) []

inductive Runs : List α → List (VstackCall α) → List (ℤ ⊕ Option α) → List α → Prop
  | nil {xs} : Runs xs [] [] xs
  | cons {xs call a xs' calls as xs''} :
    Does xs call a xs' → Runs xs' calls as xs'' → Runs xs (call :: calls) (a :: as) xs''

/-! ## Refinement -/

/-- The memory holds these elements, from the bottom. -/
structure Stacked (s : Vstack α) (xs : List α) : Prop where
  sized : Sized s
  head : s.count = xs.length
  fits : xs.length ≤ s.size
  cells : ∀ i < xs.length, s.data i = xs[i]?

variable {s : Vstack α} {xs : List α}

theorem restore_eq (h : s.count < 2 ^ 31) : Vstack.restore s = .ok s := by
  have hmod : s.count % 2 ^ 32 = s.count := Nat.mod_eq_of_lt (by omega)
  rw [Vstack.restore, hmod, if_pos h]

theorem store_stacked (h : Stacked s xs) (hroom : xs.length < s.size) (x : α) :
    ∃ s', Vstack.store s x = .ok (0, s') ∧ Stacked s' (xs ++ [x]) := by
  have hin : s.count < s.room := by rw [h.head, h.sized.room]; exact hroom
  refine ⟨{ s with data := Function.update s.data s.count (some x), count := s.count + 1 },
    by rw [Vstack.store, write_inside hin]; rfl, ⟨h.sized.1, h.sized.2, h.sized.3, h.sized.4⟩, ?_, ?_, ?_⟩
  · rw [List.length_append, List.length_singleton, ← h.head]
  · rw [List.length_append]
    exact hroom
  · intro i hi
    dsimp only
    rw [h.head]
    by_cases hlast : i = xs.length
    · rw [hlast, Function.update_self, List.getElem?_concat_length]
    · have hlt : i < xs.length := by rw [List.length_append, List.length_singleton] at hi; omega
      rw [Function.update_of_ne hlast, List.getElem?_append_left hlt, h.cells i hlt]

theorem top_eq {x : α} (hin : s.count < s.room) (hx : s.data s.count = some x) : Vstack.top s = .ok (some x, s) := by
  rw [Vstack.top, Vheap.read, if_pos hin, hx]
  rfl

theorem Stacked.take (h : Stacked s xs) {n size : ℕ} {d : ℕ → Option α} (hn : n ≤ xs.length) (hsize : n ≤ size)
    (hsized : Sized { s with count := n, data := d, room := size, size := size }) (hd : ∀ i < n, d i = s.data i) :
    Stacked { s with count := n, data := d, room := size, size := size } (xs.take n) := by
  have hlength : (xs.take n).length = n := List.length_take_of_le hn
  refine ⟨hsized, hlength.symm, hlength.trans_le hsize, fun i hi => ?_⟩
  rw [hlength] at hi
  rw [List.getElem?_take_of_lt hi, ← h.cells i (hi.trans_le hn)]
  exact hd i hi

theorem push_does (h : Stacked s xs) (hlt : xs.length < 2 ^ 31) (x : α) (granted : Bool) :
    ∃ r s' xs', elektraVstackPush s x granted = .ok (r, s') ∧ Does xs (.push x granted) (.inl r) xs' ∧
      Stacked s' xs' := by
  rw [elektraVstackPush]
  by_cases hgrow : s.size ≤ s.count
  · have hfull : s.size = xs.length := le_antisymm (h.head ▸ hgrow) h.fits
    have hmod : s.size * 2 % 2 ^ 64 = s.size * 2 := Nat.mod_eq_of_lt (by omega)
    rw [if_pos hgrow]
    dsimp only
    rw [hmod, realloc_eq (by omega)]
    have hlimit : s.size * 2 * pointerSize ≤ PTRDIFF_MAX := by rw [pointerSize, PTRDIFF_MAX]; omega
    cases granted with
    | false =>
      rw [if_neg (by simp)]
      refine ⟨_, _, xs, rfl, .pushRefused, ?_⟩
      rw [Nat.mul_div_cancel _ two_pos]
      exact h
    | true =>
      rw [if_pos ⟨rfl, hlimit⟩]
      obtain ⟨k, hk⟩ := h.sized.grown
      have hpos := h.sized.pos
      have hgrown := @Stacked.take _ _ _ h _ (s.size * 2) (fun i => if i < s.size * 2 then s.data i else none) le_rfl
        (by omega) ⟨h.sized.least, ⟨k + 1, by rw [hk, pow_succ, Nat.mul_assoc]⟩, rfl, hlimit⟩
        fun i hi => if_pos (by omega)
      rw [List.take_length, ← h.head] at hgrown
      obtain ⟨s', hstore, hs'⟩ := store_stacked hgrown (by dsimp only; omega) x
      refine ⟨0, s', _, ?_, .push, hs'⟩
      rw [← hstore, ← hmod]
      dsimp only
      rw [restore_eq (by rw [h.head]; exact hlt)]
      rfl
  · rw [if_neg hgrow]
    obtain ⟨s', hstore, hs'⟩ := store_stacked h (by rw [← h.head]; omega) x
    exact ⟨0, s', _, hstore, .push, hs'⟩

theorem pop_does (h : Stacked s xs) (hle : xs.length ≤ 2 ^ 31) (granted : Bool) :
    ∃ r s' xs', elektraVstackPop s granted = .ok (r, s') ∧ Does xs (.pop granted) (.inr r) xs' ∧ Stacked s' xs' := by
  rw [elektraVstackPop]
  obtain rfl | ⟨ys, x, rfl⟩ := List.eq_nil_or_concat xs
  · have hzero : s.count = 0 := h.head
    rw [if_pos hzero]
    exact ⟨none, s, [], rfl, .popEmpty, h⟩
  have hcount : s.count = ys.length + 1 := by rw [h.head, List.concat_eq_append, List.length_append]; rfl
  rw [List.concat_eq_append] at h hle ⊢
  have hfits := h.fits
  have hlast : s.data ys.length = some x := by
    rw [h.cells _ (by simp), List.getElem?_concat_length]
  have hlength : (ys ++ [x]).length = ys.length + 1 := List.length_append
  have htake : (ys ++ [x]).take ys.length = ys := List.take_left
  rw [if_neg (by omega)]
  dsimp only
  rw [hcount, Nat.add_sub_cancel]
  by_cases hshrink : s.minSize < s.size ∧ ys.length ≤ s.size / 4
  · obtain ⟨k, hk⟩ := h.sized.grown
    -- the size is a double one
    obtain ⟨k, rfl⟩ : ∃ j, k = j + 1 := Nat.exists_eq_succ_of_ne_zero (by rintro rfl; omega)
    have hdouble : s.size = s.minSize * 2 ^ k * 2 := by rw [hk, pow_succ, Nat.mul_assoc]
    have hhalf : s.size / 2 = s.minSize * 2 ^ k := by omega
    have hpos : 0 < s.minSize * 2 ^ k := Nat.mul_pos h.sized.least (Nat.two_pow_pos k)
    have hsmall := h.sized.lt
    have hlimit : s.size / 2 * pointerSize ≤ PTRDIFF_MAX :=
      (Nat.mul_le_mul_right _ (Nat.div_le_self _ _)).trans h.sized.limit
    rw [if_pos hshrink, realloc_eq (by omega)]
    cases granted with
    | false =>
      rw [if_neg (by simp)]
      refine ⟨none, _, ys ++ [x], rfl, .popRefused, ?_⟩
      have hsize : s.size / 2 * 2 % 2 ^ 64 = s.size := by omega
      rw [hsize, ← hcount]
      exact h
    | true =>
      have hshrunk := @Stacked.take _ _ _ h ys.length (s.size / 2)
        (fun i => if i < s.size / 2 then s.data i else none) (by omega) (by omega) ⟨h.sized.least, ⟨k, hhalf⟩, rfl, hlimit⟩ fun i hi => if_pos (by omega)
      rw [htake] at hshrunk
      have hint : ∀ t : Vstack α, t.count = ys.length → Vstack.restore t = .ok t := fun t ht =>
        restore_eq (by rw [ht]; omega)
      rw [if_pos ⟨rfl, hlimit⟩]
      dsimp only
      rw [hint _ rfl]
      have hlt : ys.length < s.size / 2 := by omega
      exact ⟨some x, _, ys, top_eq hlt ((if_pos hlt).trans hlast), .pop, hshrunk⟩
  · rw [if_neg hshrink]
    have hkept := @Stacked.take _ _ _ h ys.length s.size s.data (by omega) (by omega)
      ⟨h.sized.least, h.sized.grown, rfl, h.sized.limit⟩ fun _ _ => rfl
    rw [htake] at hkept
    have hroom := h.sized.room
    refine ⟨some x, _, ys, top_eq ?_ hlast, .pop, ?_⟩
    · change ys.length < s.room
      omega
    · obtain ⟨d, room, count, size, least⟩ := s
      cases hroom
      exact hkept

/-- **Every call does what it is for**, while the offset of the head fits into an `int`. -/
theorem exec_does (h : Stacked s xs) (hlt : xs.length < 2 ^ 31) (call : VstackCall α) :
    ∃ answer s' xs', call.exec s = .ok (answer, s') ∧ Does xs call answer xs' ∧ Stacked s' xs' := by
  cases call with
  | push x granted =>
    obtain ⟨r, s', xs', hrun, hdoes, hs'⟩ := push_does h hlt x granted
    exact ⟨.inl r, s', xs', by rw [VstackCall.exec, hrun]; rfl, hdoes, hs'⟩
  | pop granted =>
    obtain ⟨r, s', xs', hrun, hdoes, hs'⟩ := pop_does h hlt.le granted
    exact ⟨.inr r, s', xs', by rw [VstackCall.exec, hrun]; rfl, hdoes, hs'⟩
  | clear =>
    have hcleared : Stacked { s with count := 0 } [] :=
      ⟨⟨h.sized.1, h.sized.2, h.sized.3, h.sized.4⟩, rfl, Nat.zero_le _, fun i hi => absurd hi (Nat.not_lt_zero i)⟩
    exact ⟨_, _, [], rfl, .clear, hcleared⟩

theorem run_does : ∀ (calls : List (VstackCall α)) {s : Vstack α} {xs : List α}, Stacked s xs →
    (∃ answers s' xs', vstackRun s calls = .ok (answers, s') ∧ Runs xs calls answers xs' ∧ Stacked s' xs') ∨
      ∃ before answers s' xs', before <+: calls ∧ vstackRun s before = .ok (answers, s') ∧
        Runs xs before answers xs' ∧ 2 ^ 31 ≤ xs'.length
  | [], s, xs, h => .inl ⟨[], s, xs, rfl, .nil, h⟩
  | call :: calls, s, xs, h => by
    by_cases hlt : xs.length < 2 ^ 31
    · obtain ⟨answer, s₁, xs₁, hcall, hdoes, hs₁⟩ := exec_does h hlt call
      have hrun : ∀ {l answers s'}, vstackRun s₁ l = .ok (answers, s') →
          vstackRun s (call :: l) = .ok (answer :: answers, s') := by
        intro l answers s' hl
        rw [vstackRun, hcall]
        change (vstackRun s₁ l >>= fun r => _) = _
        rw [hl]
        rfl
      obtain ⟨answers, s', xs', hrest, hruns, hs'⟩ | ⟨before, answers, s', xs', hpre, hrest, hruns, hfull⟩ :=
        run_does calls hs₁
      · exact .inl ⟨_, s', xs', hrun hrest, .cons hdoes hruns, hs'⟩
      · exact .inr ⟨_, _, s', xs', List.cons_prefix_cons.mpr ⟨rfl, hpre⟩, hrun hrest, .cons hdoes hruns, hfull⟩
    · exact .inr ⟨[], [], s, xs, List.nil_prefix, rfl, .nil, not_lt.mp hlt⟩

/-- **A stack is a list of elements**, for every sequence of calls, up to a stack of `2 ^ 31` elements. -/
theorem vstack_refines {minSize : ℕ} {granted granted' : Bool} (hmin : minSize < 2 ^ 61)
    (hinit : elektraVstackInit minSize granted granted' = some s) (calls : List (VstackCall α)) :
    (∃ answers s' xs, vstackRun s calls = .ok (answers, s') ∧ Runs [] calls answers xs ∧ Stacked s' xs) ∨
      ∃ before answers s' xs, before <+: calls ∧ vstackRun s before = .ok (answers, s') ∧
        Runs [] before answers xs ∧ 2 ^ 31 ≤ xs.length := by
  obtain ⟨hleast, hgrants, hcount, hsize, hminSize, hroom⟩ := init_spec hinit
  obtain ⟨-, hlimit⟩ := (grants_iff hmin granted').mp hgrants
  have hbytes : s.room = minSize := by
    rw [hroom, bytes_eq hmin, pointerSize, Nat.mul_div_cancel _ (by decide)]
  exact run_does calls ⟨⟨hminSize.symm ▸ hleast, ⟨0, by rw [hsize, hminSize, pow_zero, Nat.mul_one]⟩,
    hbytes.trans hsize.symm, hsize.symm ▸ hlimit⟩, hcount, Nat.zero_le _, fun i hi => absurd hi (Nat.not_lt_zero i)⟩

theorem vstack_refines_two :
    (∃ answers s' xs, vstackRun { data := fun _ => none, room := 1, count := 0, size := 1, minSize := 1 }
        [.push 1 true, .push 2 true, .pop true] = .ok (answers, s') ∧
      Runs [] [.push 1 true, .push 2 true, .pop true] answers xs ∧ Stacked s' xs) ∨
      ∃ before answers s' xs, before <+: [.push 1 true, .push 2 true, .pop true] ∧
        vstackRun { data := fun _ => none, room := 1, count := 0, size := 1, minSize := 1 } before =
          .ok (answers, s') ∧ Runs [] before answers xs ∧ 2 ^ 31 ≤ xs.length :=
  @vstack_refines ℕ _ 1 true true (by decide) rfl _

end Elektra.Opmphm
