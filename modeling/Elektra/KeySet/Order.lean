import Elektra.Sorted.Array
import Elektra.Name.Key

/-!
# The order of keys

`keyCompareByName` compares the unescaped names with `memcmp` and then their sizes; keys of equal
name are compared by owner.

* `keyCompareByName`, `keyCompareByOwner`, `keyCompareByNameOwner` and their variants without case;
* `Ident`, `identCmp`: what keys are compared by, and its lexicographic order;
* **`keyCompareByNameOwner_eq`**.
-/

namespace Elektra

/-- The sign of `memcmp (a, b, size)`. -/
def memcmp (a b : Str) (size : ℕ) : Ordering := compare (a.take size) (b.take size)

/-- `toupper` of the C locale -/
def toupper (c : UInt8) : UInt8 := if 97 ≤ c ∧ c ≤ 122 then c - 32 else c

def elektraMemCaseCmp (a b : Str) (size : ℕ) : Ordering :=
  compare ((a.take size).map toupper) ((b.take size).map toupper)

/-- The comparison of two unescaped names by `cmp`, a longer name being greater. -/
def compareSized (cmp : Str → Str → ℕ → Ordering) (key1 key2 : Key) : Ordering :=
  if key1.keyUSize = key2.keyUSize then cmp key1.ukey key2.ukey key2.keyUSize
  else if key1.keyUSize < key2.keyUSize then (cmp key1.ukey key2.ukey key1.keyUSize).then .lt
  else (cmp key1.ukey key2.ukey key2.keyUSize).then .gt

def keyCompareByName (key1 key2 : Key) : Ordering := compareSized memcmp key1 key2

def keyCompareByNameCase (key1 key2 : Key) : Ordering := compareSized elektraMemCaseCmp key1 key2

/-- No owner comes before every owner. -/
def keyCompareByOwner (key1 key2 : Key) : Ordering :=
  match keyGetMeta key1 (str "owner"), keyGetMeta key2 (str "owner") with
  | none, none => .eq
  | none, some _ => .lt
  | some _, none => .gt
  | some owner1, some owner2 => compare owner1 owner2

def keyCompareByNameOwner (key1 key2 : Key) : Ordering :=
  (keyCompareByName key1 key2).then (keyCompareByOwner key1 key2)

def keyCompareByNameOwnerCase (key1 key2 : Key) : Ordering :=
  (keyCompareByNameCase key1 key2).then (keyCompareByOwner key1 key2)

/-! ## The order as a lexicographic one -/

/-- What keys are compared by: the unescaped name and the owner. -/
abbrev Ident := Str × Option Str

def ident (key : Key) : Ident := (key.ukey, keyGetMeta key (str "owner"))

def identCmp : Ident → Ident → Ordering := compareLex (compareOn Prod.fst) (compareOn Prod.snd)

instance : Std.TransCmp identCmp :=
  inferInstanceAs (Std.TransCmp (compareLex (compareOn Prod.fst) (compareOn Prod.snd)))

theorem identCmp_eq {i j : Ident} : identCmp i j = (compare i.1 j.1).then (compare i.2 j.2) := rfl

theorem identCmp_eq_iff {i j : Ident} : identCmp i j = .eq ↔ i = j := by
  rw [identCmp_eq, Ordering.then_eq_eq, Std.LawfulEqOrd.compare_eq_iff_eq,
    Std.LawfulEqOrd.compare_eq_iff_eq, Prod.ext_iff]

/-- The size of the unescaped name is that of its bytes. -/
def Sized (key : Key) : Prop := key.keyUSize = key.ukey.length

/-- Comparing up to the shorter size and then the sizes is the lexicographic order. -/
theorem compare_take : ∀ a b : Str, compare a b =
    if a.length = b.length then compare a b
    else if a.length < b.length then (compare a (b.take a.length)).then .lt
    else (compare (a.take b.length) b).then .gt
  | [], [] => rfl
  | [], b :: bs => by simp
  | a :: as, [] => by simp
  | a :: as, b :: bs => by
    have ih := compare_take as bs
    simp only [List.compare_cons_cons, List.length_cons, Nat.add_right_cancel_iff,
      Nat.add_lt_add_iff_right, List.take_succ_cons]
    split_ifs at ih ⊢
    · rfl
    · rw [ih, Ordering.then_assoc]
    · rw [ih, Ordering.then_assoc]

theorem keyCompareByName_eq {key1 key2 : Key} (h1 : Sized key1) (h2 : Sized key2) :
    keyCompareByName key1 key2 = compare key1.ukey key2.ukey := by
  rw [compare_take, keyCompareByName, compareSized, h1, h2]
  simp only [memcmp, List.take_length]
  split_ifs with h
  · rw [← h, List.take_length]
  · rfl
  · rfl

theorem keyCompareByOwner_eq (key1 key2 : Key) : keyCompareByOwner key1 key2 =
    compare (keyGetMeta key1 (str "owner")) (keyGetMeta key2 (str "owner")) := by
  rw [keyCompareByOwner]
  cases keyGetMeta key1 (str "owner") <;> cases keyGetMeta key2 (str "owner") <;> rfl

/-- **Keys are ordered by unescaped name, then by owner.** -/
theorem keyCompareByNameOwner_eq {key1 key2 : Key} (h1 : Sized key1) (h2 : Sized key2) :
    keyCompareByNameOwner key1 key2 = identCmp (ident key1) (ident key2) := by
  rw [keyCompareByNameOwner, keyCompareByName_eq h1 h2, keyCompareByOwner_eq]
  rfl

end Elektra
