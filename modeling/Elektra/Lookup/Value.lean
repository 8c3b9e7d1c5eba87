import Elektra.KeySet.Cursor
import Elektra.Lookup.Model
import Elektra.Name.Level

/-!
# Looking for values

`ksLookupByString` and `ksLookupByBinary` go on where the cursor is, from key to key up to one that has a
value.

* `valueLoop`, `ksLookupByString`, `ksLookupByBinary`;
* `LooksUp`: what is documented; `valueLoop_cases`, `enumerate_valueLoop`: what the loop finds;
* **`lookupBy_iff`**: without `KDB_O_NOALL` the cursor is lost, and binary values are never returned.
-/

namespace Elektra

/-! ## The two functions -/

def keyIsString (key : Key) : Bool := (keyGetMeta key (str "binary")).isNone

/-- What `strcmp` reads of `keyValue`, for a string. -/
def valueString (key : Key) : Str := (key.data.getD []).takeWhile (· ≠ 0)

/-- `strcmp` or, without case, `elektraStrCaseCmp` finds no difference. -/
def stringTest (h : Heap) (value : CString) (options : Options) (k : KeyRef) : Bool :=
  keyIsString (h.cell k) &&
    (options.nocase && (valueString (h.cell k)).map toupper = value.1.map toupper ||
      valueString (h.cell k) = value.1)

/-- The data has the size, and is that of `value`; or both are null. -/
def binaryTest (h : Heap) (value : Option Str) (size : ℕ) (k : KeyRef) : Bool :=
  keyIsBinary (h.cell k) && size = ((h.cell k).data.getD []).length &&
    match value with
    | none => (h.cell k).data.isNone
    | some value => (h.cell k).data = some (value.take size)

/-- The loop, with the test of its body; every round moves the cursor. -/
def valueLoop (test : KeyRef → Bool) : ℕ → KeySet → Option KeyRef × KeySet
  | 0, ks => (none, ks)
  | fuel + 1, ks =>
    match ksNext ks with
    | (none, ks) => (none, ks)
    | (some current, ks) => if test current then (some current, ks) else valueLoop test fuel ks

/-- A cursor that is not valid rewinds the key set in the end. -/
def ksLookupByString (h : Heap) (ks : KeySet) (value : CString) (options : Options) :
    Option KeyRef × KeySet :=
  let ks := if options.noall then ks else ksRewind ks
  let init := ksGetCursor ks
  let (current, ks) := valueLoop (stringTest h value options) (ks.size + 1) ks
  (current, if options.noall then ks else ksSetCursor ks init)

def ksLookupByBinary (h : Heap) (ks : KeySet) (value : Option Str) (size : ℕ) (options : Options) :
    Option KeyRef × KeySet :=
  let ks := if options.noall then ks else ksRewind ks
  let init := ksGetCursor ks
  let (_, ks) := valueLoop (binaryTest h value size) (ks.size + 1) ks
  (none, if options.noall then ks else ksSetCursor ks init)

/-- What a lookup finds again and again, up to where it finds nothing. -/
def enumerate (lookup : KeySet → Option KeyRef × KeySet) : ℕ → KeySet → List KeyRef
  | 0, _ => []
  | fuel + 1, ks =>
    match lookup ks with
    | (none, _) => []
    | (some k, ks) => k :: enumerate lookup fuel ks

/-- The first key from where the cursor is that has the value is returned, with the cursor on it; and so
all of them are, one after the other. -/
structure LooksUp (test : KeyRef → Bool) (lookup : KeySet → Option KeyRef × KeySet) (ks : KeySet) :
    Prop where
  found : (lookup ks).1 = ks.remaining.find? test
  cursor : ∀ k, (lookup ks).1 = some k → ∃ i, (lookup ks).2.AtKey i ∧ (lookup ks).2.cursor = some k
  array : (lookup ks).2.array = ks.array
  enumerates : ∀ fuel, ks.remaining.length < fuel → enumerate lookup fuel ks = ks.remaining.filter test

/-! ## The loop -/

section Loop

variable {test : KeyRef → Bool} {ks : KeySet}

/-- **The loop stops at the first key that passes the test.** -/
theorem valueLoop_cases : ∀ (fuel : ℕ) {ks : KeySet}, ks.remaining.length < fuel →
    ((valueLoop test fuel ks).1 = none ∧ (valueLoop test fuel ks).2.array = ks.array ∧
        ∀ a ∈ ks.remaining, test a = false) ∨
      ∃ pre k post i, ks.remaining = pre ++ k :: post ∧ (∀ a ∈ pre, test a = false) ∧ test k = true ∧
        (valueLoop test fuel ks).1 = some k ∧ (valueLoop test fuel ks).2.array = ks.array ∧
        (valueLoop test fuel ks).2.remaining = post ∧ (valueLoop test fuel ks).2.AtKey i ∧
        (valueLoop test fuel ks).2.cursor = some k
  | fuel + 1, ks, hfuel => by
    rw [valueLoop]
    obtain ⟨hnil, hnone, harray, -⟩ | ⟨k, rest, hcons, hnext, hat, hrest⟩ := ksNext_cases ks
    · generalize ksNext ks = r at hnone harray
      obtain ⟨_, ks'⟩ := r
      subst hnone
      refine .inl ⟨rfl, harray, fun a ha => ?_⟩
      rw [hnil] at ha
      exact absurd ha List.not_mem_nil
    · rw [hnext] at hat hrest ⊢
      dsimp only at hat hrest ⊢
      by_cases hk : test k = true
      · rw [if_pos hk]
        exact .inr ⟨[], k, rest, _, hcons, fun _ ha => absurd ha List.not_mem_nil, hk, rfl, rfl, hrest, hat, rfl⟩
      · rw [if_neg hk]
        have hshort : rest.length < fuel := by
          rw [hcons, List.length_cons] at hfuel
          omega
        rw [Bool.not_eq_true] at hk
        obtain ⟨hnone, harray, hall⟩ | ⟨pre, k', post, i, hrest', hpre, hk', hfound, harray, hpost⟩ :=
          valueLoop_cases fuel (hrest ▸ hshort)
        · refine .inl ⟨hnone, harray, ?_⟩
          rw [hcons, List.forall_mem_cons, ← hrest]
          exact ⟨hk, hall⟩
        · refine .inr ⟨k :: pre, k', post, i, ?_, List.forall_mem_cons.mpr ⟨hk, hpre⟩, hk', hfound, harray, hpost⟩
          rw [hcons, ← hrest, hrest', List.cons_append]

theorem remaining_length (ks : KeySet) : ks.remaining.length < ks.size + 1 := by
  rw [KeySet.remaining, List.length_drop, KeySet.size]
  omega

theorem find?_cut {pre post : List KeyRef} {k : KeyRef} (hpre : ∀ a ∈ pre, test a = false)
    (hk : test k = true) : (pre ++ k :: post).find? test = some k ∧
      (pre ++ k :: post).filter test = k :: post.filter test := by
  have hnone : pre.find? test = none := List.find?_eq_none.mpr fun a ha => by simp [hpre a ha]
  have hnil : pre.filter test = [] := List.filter_eq_nil_iff.mpr fun a ha => by simp [hpre a ha]
  constructor
  · rw [List.find?_append, hnone, Option.none_or, List.find?_cons_of_pos hk]
  · rw [List.filter_append, hnil, List.nil_append, List.filter_cons_of_pos hk]

/-- The loop as a lookup. -/
def loopLookup (test : KeyRef → Bool) (ks : KeySet) : Option KeyRef × KeySet := valueLoop test (ks.size + 1) ks

/-- **The loop enumerates the keys that pass the test.** -/
theorem enumerate_valueLoop : ∀ (fuel : ℕ) {ks : KeySet}, ks.remaining.length < fuel →
    enumerate (loopLookup test) fuel ks = ks.remaining.filter test
  | fuel + 1, ks, hfuel => by
    rw [enumerate]
    obtain ⟨hnone, -, hall⟩ | ⟨pre, k, post, i, hcut, hpre, hk, hfound, -, hpost, -⟩ :=
      @valueLoop_cases test (ks.size + 1) ks (remaining_length ks)
    · generalize hr : loopLookup test ks = r
      obtain ⟨found, ks'⟩ := r
      obtain rfl : found = none := (congrArg Prod.fst hr).symm.trans hnone
      exact (List.filter_eq_nil_iff.mpr fun a ha => by simp [hall a ha]).symm
    · generalize hr : loopLookup test ks = r
      obtain ⟨found, ks'⟩ := r
      obtain rfl : found = some k := (congrArg Prod.fst hr).symm.trans hfound
      obtain rfl : ks'.remaining = post := (congrArg (KeySet.remaining ∘ Prod.snd) hr).symm.trans hpost
      rw [hcut, (find?_cut hpre hk).2]
      dsimp only
      rw [enumerate_valueLoop fuel]
      rw [hcut, List.length_append, List.length_cons] at hfuel
      omega

theorem looksUp_loop (ks : KeySet) : LooksUp test (loopLookup test) ks := by
  obtain ⟨hnone, harray, hall⟩ | ⟨pre, k, post, i, hcut, hpre, hk, hfound, harray, -, hat, hcursor⟩ :=
    @valueLoop_cases test (ks.size + 1) ks (remaining_length ks)
  · refine ⟨?_, fun k hk => ?_, harray, fun fuel hfuel => enumerate_valueLoop fuel hfuel⟩
    · exact hnone.trans (List.find?_eq_none.mpr fun a ha => by simp [hall a ha]).symm
    · cases hnone.symm.trans hk
  · refine ⟨?_, fun k' hk' => ?_, harray, fun fuel hfuel => enumerate_valueLoop fuel hfuel⟩
    · rw [hcut, (find?_cut hpre hk).1]
      exact hfound
    · obtain rfl : k = k' := Option.some.inj (hfound.symm.trans hk')
      exact ⟨i, hat, hcursor⟩

theorem looksUp_none {lookup : KeySet → Option KeyRef × KeySet} (hnone : (lookup ks).1 = none)
    (harray : (lookup ks).2.array = ks.array) :
    LooksUp test lookup ks ↔ ∀ a ∈ ks.remaining, test a = false := by
  constructor
  · intro h a ha
    have hfind := List.find?_eq_none.mp (h.found.symm.trans hnone) a ha
    simpa using hfind
  · intro hall
    refine ⟨?_, fun k hk => ?_, harray, fun fuel hfuel => ?_⟩
    · exact hnone.trans (List.find?_eq_none.mpr fun a ha => by simp [hall a ha]).symm
    · cases hnone.symm.trans hk
    · rw [List.filter_eq_nil_iff.mpr fun a ha => by simp [hall a ha]]
      cases fuel with
      | zero => rfl
      | succ fuel =>
        rw [enumerate]
        generalize lookup ks = r at hnone
        obtain ⟨found, ks'⟩ := r
        subst hnone
        rfl

end Loop

/-! ## The two lookups -/

section Lookups

variable (h : Heap) (ks : KeySet) (options : Options)

theorem lookupByString_noall (value : CString) (hall : options.noall = true) :
    ksLookupByString h ks value options = loopLookup (stringTest h value options) ks := by
  simp only [ksLookupByString, hall, if_true]
  rfl

/-- Without `KDB_O_NOALL` the whole key set is searched, and rewound. -/
theorem lookupByString_all (value : CString) (hall : options.noall = false) :
    (ksLookupByString h ks value options).1 = ks.array.find? (stringTest h value options) ∧
      (ksLookupByString h ks value options).2.cursor = none ∧
      (ksLookupByString h ks value options).2.array = ks.array := by
  have hloop := @looksUp_loop (stringTest h value options) (ksRewind ks)
  refine ⟨?_, ?_, ?_⟩
  · simp only [ksLookupByString, hall, Bool.false_eq_true, if_false]
    exact hloop.found
  · simp only [ksLookupByString, hall, Bool.false_eq_true, if_false]
    rfl
  · simp only [ksLookupByString, hall, Bool.false_eq_true, if_false]
    exact hloop.array

theorem lookupByString_iff (value : CString) :
    LooksUp (stringTest h value options) (ksLookupByString h · value options) ks ↔
      options.noall = true ∨ ∀ k ∈ ks.array, stringTest h value options k = false := by
  cases hall : options.noall with
  | true =>
    have heq : (ksLookupByString h · value options) = loopLookup (stringTest h value options) :=
      funext fun ks => lookupByString_noall h ks options value hall
    rw [heq]
    exact iff_of_true (looksUp_loop ks) (.inl rfl)
  | false =>
    obtain ⟨hfound, hcursor, harray⟩ := lookupByString_all h ks options value hall
    constructor
    · intro hup
      refine .inr fun k hk => ?_
      by_contra htest
      obtain ⟨k', hk'⟩ := Option.isSome_iff_exists.mp
        (List.find?_isSome.mpr ⟨k, hk, Bool.not_eq_false _ ▸ htest⟩)
      obtain ⟨i, -, hsome⟩ := hup.cursor k' (hfound.trans hk')
      cases hcursor.symm.trans hsome
    · intro hno
      have hno := hno.resolve_left Bool.false_ne_true
      refine (looksUp_none ?_ harray).mpr fun a ha => hno a (List.mem_of_mem_drop ha)
      exact hfound.trans (List.find?_eq_none.mpr fun a ha => by simp [hno a ha])

theorem lookupByBinary_iff (value : Option Str) (size : ℕ) :
    LooksUp (binaryTest h value size) (ksLookupByBinary h · value size options) ks ↔
      ∀ k ∈ ks.remaining, binaryTest h value size k = false := by
  refine looksUp_none rfl ?_
  have hloop : ∀ ks : KeySet, (loopLookup (binaryTest h value size) ks).2.array = ks.array := fun ks =>
    (looksUp_loop ks).array
  cases hall : options.noall with
  | true =>
    simp only [ksLookupByBinary, hall, if_true]
    exact hloop ks
  | false =>
    simp only [ksLookupByBinary, hall, Bool.false_eq_true, if_false, setCursor_array]
    exact hloop (ksRewind ks)

/-- **A string is looked up as documented with `KDB_O_NOALL`, or where no key has it; binary data only where
no key has it from the cursor on.** -/
theorem lookupBy_iff (string : CString) (value : Option Str) (size : ℕ) :
    (LooksUp (stringTest h string options) (ksLookupByString h · string options) ks ↔
      options.noall = true ∨ ∀ k ∈ ks.array, stringTest h string options k = false) ∧
    (LooksUp (binaryTest h value size) (ksLookupByBinary h · value size options) ks ↔
      ∀ k ∈ ks.remaining, binaryTest h value size k = false) :=
  ⟨lookupByString_iff h ks options string, lookupByBinary_iff h ks options value size⟩

end Lookups

/-- A key with the data `1`. -/
def binaryKey : Key := keySetBinary (keyNewName (str "user/a")) (some [1])

/-- The key is there, and not found. -/
theorem not_lookupBy : ¬ LooksUp (binaryTest (Heap.ofList [binaryKey]) (some [1]) 1)
    (ksLookupByBinary (Heap.ofList [binaryKey]) · (some [1]) 1 {})
    { array := [0], alloc := KEYSET_SIZE, cursor := none, current := 0, sync := false } := by
  intro h
  have hfound := h.found
  revert hfound
  decide +kernel

end Elektra
