import Elektra.Plugin.Rename

/-!
# The order in which keys are written

Two functions compare keys for `qsort`. `iniCmpOrder` follows a rank in a lexicographic order.
`elektraKeyCmpOrder` has no case for an order of zero: a zero is equal to every positive number, and
what stands on both sides of it is compared.

* `Preorder3`, `Follows`: a comparison on three values, and one that follows a rank;
* `elektraKeyCmpOrder`, `iniCmpOrder`;
* `iniCmpOrder_follows`: what `iniCmpOrder` follows;
* `keyCmpOrder_trans_iff`, `keyCmpOrder_agrees_iff`: where `elektraKeyCmpOrder` fails;
* **`cmpOrder_iff`**.
-/

namespace Elektra.CmpOrder

open Rename (atoiInt)

/-! ## Comparisons -/

section Comparisons

variable {α β : Type*} {cmp : α → α → ℤ}

/-- `cmp` is a total preorder, as far as it is asked about `a`, `b` and `c`. -/
structure Preorder3 (cmp : α → α → ℤ) (a b c : α) : Prop where
  antisymm : (cmp a b).sign = -(cmp b a).sign
  trans : cmp a b ≤ 0 → cmp b c ≤ 0 → cmp a c ≤ 0

def signOf : Ordering → ℤ
  | .lt => -1
  | .eq => 0
  | .gt => 1

theorem signOf_swap (o : Ordering) : signOf o.swap = -signOf o := by
  cases o <;> rfl

theorem signOf_nonpos_iff (o : Ordering) : signOf o ≤ 0 ↔ o.isLE := by
  cases o <;> decide

theorem sign_signOf (o : Ordering) : (signOf o).sign = signOf o := by
  cases o <;> rfl

/-- What `cmp` answers has the sign of the comparison of the ranks. -/
def Follows [Ord β] (cmp : α → α → ℤ) (rank : α → β) : Prop :=
  ∀ a b, (cmp a b).sign = signOf (compare (rank a) (rank b))

theorem Follows.nonpos_iff [Ord β] {rank : α → β} (h : Follows cmp rank) (a b : α) :
    cmp a b ≤ 0 ↔ (compare (rank a) (rank b)).isLE := by
  rw [← signOf_nonpos_iff, ← h a b, Int.sign_nonpos_iff]

theorem Follows.preorder [Ord β] [Std.TransOrd β] {rank : α → β} (h : Follows cmp rank) (a b c : α) :
    Preorder3 cmp a b c where
  antisymm := by
    rw [h a b, h b a, ← signOf_swap, ← Std.OrientedOrd.eq_swap]
  trans hab hbc := by
    rw [h.nonpos_iff] at *
    exact Std.TransOrd.isLE_trans hab hbc

theorem sign_sub (m n : ℤ) : (m - n).sign = signOf (compare m n) := by
  rcases lt_trichotomy m n with h | rfl | h
  · rw [compare_lt_iff_lt.mpr h, Int.sign_eq_neg_one_of_neg (Int.sub_neg_of_lt h)]
    rfl
  · rw [Int.sub_self, Std.ReflOrd.compare_self]
    rfl
  · rw [compare_gt_iff_gt.mpr h, Int.sign_eq_one_of_pos (Int.sub_pos_of_lt h)]
    rfl

end Comparisons

/-! ## The functions -/

/-- The sign of the answer is all that `strcmp` promises. -/
def strcmp (s t : Str) : ℤ := signOf (compare (s.takeWhile (· ≠ 0)) (t.takeWhile (· ≠ 0)))

/-- Compare the order metadata of two keys. -/
def elektraKeyCmpOrder (ka kb : Option Key) : ℤ :=
  match ka, kb with
  | none, none => 0
  | some _, none => 1
  | none, some _ => -1
  | some ka, some kb =>
    let aorder := (keyGetMeta ka (str "order")).elim (-1) atoiInt
    let border := (keyGetMeta kb (str "order")).elim (-1) atoiInt
    if 0 < aorder ∧ 0 < border then aorder - border
    else if aorder < 0 ∧ border < 0 then 0
    else if aorder < 0 ∧ 0 ≤ border then -1
    else if 0 ≤ aorder ∧ border < 0 then 1
    -- an order is zero, and none is negative
    else 0

/-- The constants of `elektraNamespace`; `KEY_NS_NONE` is zero. -/
def nsNumber : ElektraNamespace → ℤ
  | .empty => 1
  | .metaName => 2
  | .cascading => 3
  | .spec => 4
  | .proc => 5
  | .dir => 6
  | .user => 7
  | .system => 8

def iniCmpOrder (a b : Option Key) : ℤ :=
  match a, b with
  | none, none => 0
  | some _, none => 1
  | none, some _ => -1
  | some ka, some kb =>
    let ret := nsNumber (keyGetNamespace ka) - nsNumber (keyGetNamespace kb)
    if ret ≠ 0 then ret
    else
      match keyGetMeta ka (str "order"), keyGetMeta kb (str "order") with
      | none, none => 0
      | some _, none => 1
      | none, some _ => -1
      | some kaom, some kbom =>
        let ret := strcmp kaom kbom
        if ret ≠ 0 then ret
        else
          match keyGetMeta ka (str "ini/key/number"), keyGetMeta kb (str "ini/key/number") with
          | none, some _ => -1
          | none, none => strcmp (keyName ka) (keyName kb)
          | some _, none => 1
          | some kakm, some kbkm => strcmp kakm kbkm

/-! ## What `iniCmpOrder` follows -/

attribute [local instance] lexOrd

/-- The name counts where there is no number, and nothing counts where there is no order. -/
def iniRank (k : Option Key) : Option (ℤ × Option (Str × Option Str × Str)) :=
  k.map fun key =>
    (nsNumber (keyGetNamespace key), (keyGetMeta key (str "order")).map fun order =>
      (order.takeWhile (· ≠ 0), match keyGetMeta key (str "ini/key/number") with
        | none => (none, (keyName key).takeWhile (· ≠ 0))
        | some number => (some (number.takeWhile (· ≠ 0)), [])))

theorem compare_pair {α β : Type*} [Ord α] [Ord β] (a a' : α) (b b' : β) :
    compare (a, b) (a', b') = (compare a a').then (compare b b') := rfl

theorem compare_some {α : Type*} [Ord α] (a b : α) : compare (some a) (some b) = compare a b := rfl

theorem signOf_then {o o' : Ordering} : signOf (o.then o') = if signOf o ≠ 0 then signOf o else signOf o' := by
  cases o <;> rfl

theorem sign_strcmp (s t : Str) : (strcmp s t).sign = strcmp s t := sign_signOf _

theorem iniCmpOrder_follows : Follows iniCmpOrder iniRank := by
  intro a b
  cases a with
  | none => cases b <;> rfl
  | some ka =>
  cases b with
  | none => rfl
  | some kb =>
  have hns := sign_sub (nsNumber (keyGetNamespace ka)) (nsNumber (keyGetNamespace kb))
  rw [iniRank, iniRank, Option.map_some, Option.map_some, compare_some, compare_pair, signOf_then, ← hns, iniCmpOrder]
  dsimp only
  by_cases hret : nsNumber (keyGetNamespace ka) - nsNumber (keyGetNamespace kb) = 0
  · rw [if_neg (not_not_intro hret), hret, Int.sign_zero, if_neg (not_not_intro rfl)]
    cases keyGetMeta ka (str "order") with
    | none => cases keyGetMeta kb (str "order") <;> rfl
    | some kaom =>
    cases keyGetMeta kb (str "order") with
    | none => rfl
    | some kbom =>
    dsimp only [Option.map_some]
    rw [compare_some, compare_pair, signOf_then, ← strcmp]
    by_cases horder : strcmp kaom kbom = 0
    · rw [if_neg (not_not_intro horder), if_neg (not_not_intro horder)]
      cases keyGetMeta ka (str "ini/key/number") with
      | none =>
        cases keyGetMeta kb (str "ini/key/number") with
        | none => exact sign_strcmp (keyName ka) (keyName kb)
        | some kbkm => rfl
      | some kakm =>
        cases keyGetMeta kb (str "ini/key/number") with
        | none => rfl
        | some kbkm =>
          dsimp only
          rw [sign_strcmp, compare_pair, compare_some, Std.ReflOrd.compare_self (a := ([] : Str)), Ordering.then_eq]
          rfl
    · rw [if_pos horder, if_pos horder, sign_strcmp]
  · rw [if_pos hret, if_pos (by rwa [Ne, Int.sign_eq_zero_iff_zero])]

/-! ## Where `elektraKeyCmpOrder` fails -/

/-- The number in the order of a key, which is `-1` where there is none. -/
def orderOf (key : Key) : ℤ := (keyGetMeta key (str "order")).elim (-1) atoiInt

section Order

variable {a b c : Key}

theorem keyCmpOrder_eq (a b : Key) : elektraKeyCmpOrder (some a) (some b) =
    if 0 < orderOf a ∧ 0 < orderOf b then orderOf a - orderOf b
    else if orderOf a < 0 ∧ orderOf b < 0 then 0
    else if orderOf a < 0 ∧ 0 ≤ orderOf b then -1
    else if 0 ≤ orderOf a ∧ orderOf b < 0 then 1
    else 0 := rfl

theorem keyCmpOrder_neg_swap (a b : Option Key) : elektraKeyCmpOrder a b = -elektraKeyCmpOrder b a := by
  cases a with
  | none => cases b <;> rfl
  | some a =>
  cases b with
  | none => rfl
  | some b =>
    rw [keyCmpOrder_eq, keyCmpOrder_eq]
    split_ifs <;> omega

/-- A zero in the middle hides that one positive order is greater than another one. -/
def Hides (a b c : Key) : Prop := orderOf b = 0 ∧ 0 < orderOf c ∧ orderOf c < orderOf a

theorem keyCmpOrder_some_trans_iff (a b c : Key) :
    (elektraKeyCmpOrder (some a) (some b) ≤ 0 → elektraKeyCmpOrder (some b) (some c) ≤ 0 →
      elektraKeyCmpOrder (some a) (some c) ≤ 0) ↔ ¬ Hides a b c := by
  rw [keyCmpOrder_eq, keyCmpOrder_eq, keyCmpOrder_eq, Hides]
  constructor
  · rintro h ⟨hb, hc, hca⟩
    rw [if_neg (by omega), if_neg (by omega), if_neg (by omega), if_neg (by omega), if_neg (by omega),
      if_neg (by omega), if_neg (by omega), if_neg (by omega), if_pos ⟨by omega, hc⟩] at h
    have := h le_rfl le_rfl
    omega
  · intro h
    split_ifs <;> omega

theorem keyCmpOrder_trans_iff (a b c : Option Key) :
    (elektraKeyCmpOrder a b ≤ 0 → elektraKeyCmpOrder b c ≤ 0 → elektraKeyCmpOrder a c ≤ 0) ↔
      ∀ ka ∈ a, ∀ kb ∈ b, ∀ kc ∈ c, ¬ Hides ka kb kc := by
  have hnone : ∀ k : Key, ¬ elektraKeyCmpOrder (some k) none ≤ 0 := fun k => (by decide : ¬ (1 : ℤ) ≤ 0)
  cases a with
  | none =>
    refine iff_of_true (fun _ _ => ?_) fun ka ha => absurd ha (Option.not_mem_none ka)
    cases c with
    | none => exact le_rfl
    | some kc => exact (by decide : (-1 : ℤ) ≤ 0)
  | some ka =>
  cases b with
  | none => exact iff_of_true (fun h => absurd h (hnone ka)) fun _ _ kb hb => absurd hb (Option.not_mem_none kb)
  | some kb =>
  cases c with
  | none => exact iff_of_true (fun _ h => absurd h (hnone kb)) fun _ _ _ _ kc hc => absurd hc (Option.not_mem_none kc)
  | some kc =>
    rw [keyCmpOrder_some_trans_iff]
    simp only [Option.mem_some_iff, forall_eq']

/-- Two numbers that count as one: two negative ones, or zero and a positive one. -/
def Confuses (a b : Key) : Prop :=
  orderOf a ≠ orderOf b ∧ (orderOf a < 0 ∧ orderOf b < 0 ∨
    0 ≤ orderOf a ∧ 0 ≤ orderOf b ∧ (orderOf a = 0 ∨ orderOf b = 0))

theorem keyCmpOrder_sign_iff (a b : Key) :
    (elektraKeyCmpOrder (some a) (some b)).sign = (orderOf a - orderOf b).sign ↔ ¬ Confuses a b := by
  rw [keyCmpOrder_eq, Confuses]
  split_ifs with hpos hneg hlt hgt
  · exact iff_of_true rfl (by omega)
  · rw [Int.sign_zero, eq_comm, Int.sign_eq_zero_iff_zero]
    omega
  · rw [Int.sign_eq_neg_one_of_neg (by omega : orderOf a - orderOf b < 0)]
    exact iff_of_true rfl (by omega)
  · rw [Int.sign_eq_one_of_pos (by omega : 0 < orderOf a - orderOf b)]
    exact iff_of_true rfl (by omega)
  · rw [Int.sign_zero, eq_comm, Int.sign_eq_zero_iff_zero]
    omega

/-- Keys that have an order are compared as the two numbers are. -/
def Agrees (cmp : Option Key → Option Key → ℤ) (a b : Option Key) : Prop :=
  ∀ ka ∈ a, ∀ kb ∈ b, ∀ s ∈ keyGetMeta ka (str "order"), ∀ t ∈ keyGetMeta kb (str "order"),
    (cmp a b).sign = (atoiInt s - atoiInt t).sign

theorem keyCmpOrder_agrees_iff (a b : Option Key) :
    Agrees elektraKeyCmpOrder a b ↔ ∀ ka ∈ a, ∀ kb ∈ b, (keyGetMeta ka (str "order")).isSome →
      (keyGetMeta kb (str "order")).isSome → ¬ Confuses ka kb := by
  have hsome : ∀ ka kb : Key, (∀ s ∈ keyGetMeta ka (str "order"), ∀ t ∈ keyGetMeta kb (str "order"),
      (elektraKeyCmpOrder (some ka) (some kb)).sign = (atoiInt s - atoiInt t).sign) ↔
      ((keyGetMeta ka (str "order")).isSome → (keyGetMeta kb (str "order")).isSome → ¬ Confuses ka kb) := by
    intro ka kb
    rw [← keyCmpOrder_sign_iff, orderOf, orderOf]
    cases keyGetMeta ka (str "order") with
    | none => exact iff_of_true (fun s hs => absurd hs (Option.not_mem_none s)) fun h => absurd h (by decide)
    | some s =>
    cases keyGetMeta kb (str "order") with
    | none => exact iff_of_true (fun _ _ t ht => absurd ht (Option.not_mem_none t)) fun _ h => absurd h (by decide)
    | some t => simp only [Option.mem_some_iff, forall_eq', Option.isSome_some, forall_true_left, Option.elim_some]
  constructor
  · rintro h ka rfl kb rfl
    exact (hsome ka kb).mp (h ka rfl kb rfl)
  · rintro h ka rfl kb rfl
    exact (hsome ka kb).mpr (h ka rfl kb rfl)

end Order

/-- **The two comparisons are total preorders, and numbers are compared as such**, unless a zero hides
that one order is greater than another one, or the two numbers count as one. -/
theorem cmpOrder_iff (a b c : Option Key) :
    Preorder3 elektraKeyCmpOrder a b c ∧ Preorder3 iniCmpOrder a b c ∧ Agrees elektraKeyCmpOrder a b ↔
      (∀ ka ∈ a, ∀ kb ∈ b, ∀ kc ∈ c, ¬ Hides ka kb kc) ∧
      ∀ ka ∈ a, ∀ kb ∈ b, (keyGetMeta ka (str "order")).isSome → (keyGetMeta kb (str "order")).isSome →
        ¬ Confuses ka kb := by
  rw [← keyCmpOrder_trans_iff, ← keyCmpOrder_agrees_iff]
  constructor
  · rintro ⟨horder, -, hagrees⟩
    exact ⟨horder.trans, hagrees⟩
  · rintro ⟨htrans, hagrees⟩
    refine ⟨⟨?_, htrans⟩, iniCmpOrder_follows.preorder a b c, hagrees⟩
    rw [keyCmpOrder_neg_swap, Int.sign_neg]

/-- A key with an order. -/
def ordered (order : Str) : Option Key := some { keyNew with metaKeys := [(str "order", order)] }

/-- Five is equal to zero, and zero to three. -/
theorem not_cmpOrder : ¬ Preorder3 elektraKeyCmpOrder (ordered (str "5")) (ordered (str "0")) (ordered (str "3")) ∧
    ¬ Agrees elektraKeyCmpOrder (ordered (str "5")) (ordered (str "0")) := by
  refine ⟨fun h => ?_, fun h => ?_⟩
  · exact absurd (h.trans (by decide +kernel) (by decide +kernel)) (by decide +kernel)
  · exact absurd (h _ rfl _ rfl _ rfl _ rfl) (by decide +kernel)

end Elektra.CmpOrder
