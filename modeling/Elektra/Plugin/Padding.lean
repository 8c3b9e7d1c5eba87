import Elektra.Plugin.Base64

/-!
# Padding inside of base64 text

The size of the output is taken from the last two characters, while the loop accepts padding everywhere.

* `decodeBuffer`: `base64Decode` with its return value and the bytes of the buffer it has written;
* `clearUnused`: a text without the bits that no octet uses;
* **`decodesExactly_iff`**: the texts for which the decoder succeeds just on encodings.
-/

namespace Elektra.Base64

/-! ## The code -/

/-- What a call leaves in the places its arguments point to. A byte of the buffer that is not written is
`none`, as is a place that is not set; the null pointer is `some none`. -/
structure Decoded where
  ret : ℤ
  output : Option (List (Option UInt8))
  outputLength : Option ℕ

/-- `base64Decode`; `malloc` tells for which sizes there is memory. -/
def decodeBuffer (malloc : ℕ → Bool) (input : Str) : Decoded :=
  if input.length = 0 then ⟨1, none, some 0⟩
  else if input.length % 4 ≠ 0 then ⟨-1, none, none⟩
  else if malloc (outputLength input) = false then ⟨-2, none, some (outputLength input)⟩
  else
    match decodeLoop input with
    | none => ⟨-1, none, some (outputLength input)⟩
    | some written =>
      ⟨1, some (written.map some ++ List.replicate (outputLength input - written.length) none),
        some (outputLength input)⟩

/-! ## Encodings -/

/-- The character of the index without its low bits. -/
def clearBits (n : UInt8) (c : UInt8) : UInt8 :=
  if c = base64Padding then c
  else
    match getBase64Index c with
    | some i => alphabetAt ((i >>> n) <<< n)
    | none => c

/-- The bits before the padding that no octet uses are cleared. -/
def clearBlock (c0 c1 c2 c3 : UInt8) : Str :=
  if c2 = base64Padding then [c0, clearBits 4 c1, c2, c3]
  else if c3 = base64Padding then [c0, c1, clearBits 2 c2, c3]
  else [c0, c1, c2, c3]

def clearUnused : List UInt8 → Str
  | c0 :: c1 :: c2 :: c3 :: input =>
    (if input = [] then clearBlock c0 c1 c2 c3 else [c0, c1, c2, c3]) ++ clearUnused input
  | t => t

/-- The text is the encoding of the bytes, up to the unused bits. -/
def Encodes (s bytes : Str) : Prop := clearUnused s = base64Encode bytes

/-- The decoder succeeds just on encodings, if there is memory, and then all of the buffer is written and
encoded as the text; otherwise it answers an error and no buffer. -/
structure DecodesExactly (s : Str) : Prop where
  success : ∀ malloc, (decodeBuffer malloc s).ret = 1 ↔
    (∃ bytes, Encodes s bytes) ∧ (s = [] ∨ malloc (outputLength s) = true)
  written : ∀ malloc, (decodeBuffer malloc s).ret = 1 → ∃ bytes, Encodes s bytes ∧
    (decodeBuffer malloc s).outputLength = some bytes.length ∧
    (decodeBuffer malloc s).output = if s = [] then none else some (bytes.map some)
  failure : ∀ malloc, (decodeBuffer malloc s).ret ≠ 1 →
    ((decodeBuffer malloc s).ret = -1 ∨ (decodeBuffer malloc s).ret = -2) ∧
    (decodeBuffer malloc s).output = none

/-- Whole blocks of characters that have an index. -/
def Accepted (s : Str) : Prop :=
  s.length % 4 = 0 ∧ ∀ c ∈ s, c = base64Padding ∨ c ∈ base64Alphabet

/-- A padding character that is neither the last character nor the one before a last padding character. -/
def PaddingInside (s : Str) : Prop :=
  ∃ i, s[i]? = some base64Padding ∧
    (i + 2 < s.length ∨ i + 2 = s.length ∧ s[i + 1]? ≠ some base64Padding)

/-! ## The characters -/

theorem char_cases (c : UInt8) : c = base64Padding ∨ (∃ i : UInt8, i.toNat < 64 ∧ c = alphabetAt i) ∨
    getBase64Index c = none ∧ c ≠ base64Padding ∧ c ∉ base64Alphabet := by
  by_cases hpad : c = base64Padding
  · exact Or.inl hpad
  · cases hfind : base64Alphabet.findIdx? (· = c) with
    | none =>
      refine Or.inr (Or.inr ⟨by rw [getBase64Index, if_neg hpad, hfind]; rfl, hpad, fun hc => ?_⟩)
      have := List.findIdx?_eq_none_iff.mp hfind c hc
      simp at this
    | some k =>
      obtain ⟨hk, hkc, -⟩ := List.findIdx?_eq_some_iff_getElem.mp hfind
      have hk64 : k < 64 := hk
      have hsize : k < UInt8.size := hk64.trans (by decide)
      refine Or.inr (Or.inl ⟨UInt8.ofNat k, ?_, ?_⟩)
      · rw [UInt8.toNat_ofNat_of_lt' hsize]
        exact hk64
      · rw [alphabetAt, UInt8.toNat_ofNat_of_lt' hsize, List.getD_eq_getElem _ _ hk]
        exact (of_decide_eq_true hkc).symm

theorem mem_alphabet {i : UInt8} (hi : i.toNat < 64) : alphabetAt i ∈ base64Alphabet := by
  rw [alphabetAt, List.getD_eq_getElem base64Alphabet 0 hi]
  exact List.getElem_mem _

theorem clearBits_alphabetAt (n : UInt8) {i : UInt8} (hi : i.toNat < 64) :
    clearBits n (alphabetAt i) = alphabetAt ((i >>> n) <<< n) := by
  obtain ⟨hindex, hpad, -⟩ := getBase64Index_alphabetAt hi
  rw [clearBits, if_neg hpad, hindex]

theorem shift_lt {i : UInt8} (hi : i.toNat < 64) : ((i >>> 4) <<< 4).toNat < 64 ∧ ((i >>> 2) <<< 2).toNat < 64 := by
  simp only [toNat_shiftLeft_mod, toNat_shiftRight_le]
  omega

/-- The indices are found in the octets again, but for the unused bits. -/
theorem sextets_octets {i j k l : UInt8} (hi : i.toNat < 64) (hj : j.toNat < 64) (hk : k.toNat < 64)
    (hl : l.toNat < 64) :
    sextets ((i <<< 2) + (j >>> 4)) ((j <<< 4) + (k >>> 2)) ((k <<< 6) + l) = (i, j, k, l) ∧
    sextets ((i <<< 2) + (j >>> 4)) ((j <<< 4) + (k >>> 2)) 0 = (i, j, (k >>> 2) <<< 2, 0) ∧
    sextets ((i <<< 2) + (j >>> 4)) 0 0 = (i, (j >>> 4) <<< 4, 0, 0) := by
  have h0 : UInt8.toNat 0 = 0 := rfl
  simp only [sextets, Prod.mk.injEq, ← UInt8.toNat_inj, UInt8.toNat_add, toNat_and_63, toNat_shiftRight_le,
    toNat_shiftLeft_mod, h0, Nat.zero_mod, and_true]
  omega

/-! ## Blocks -/

theorem outputLength_eq (s : Str) : outputLength s = s.length / 4 * 3 -
    (if s[s.length - 1]? = some base64Padding then 1 else 0) -
    if s[s.length - 2]? = some base64Padding then 1 else 0 := rfl

theorem paddingInside_cons {c : UInt8} {s : Str} (hs : 2 ≤ s.length) :
    PaddingInside (c :: s) ↔ c = base64Padding ∨ PaddingInside s := by
  refine ⟨?_, ?_⟩
  · rintro ⟨i, hi, hat⟩
    cases i with
    | zero => exact Or.inl (Option.some.inj hi)
    | succ i =>
      rw [List.length_cons, add_right_comm, Nat.add_lt_add_iff_right, Nat.add_right_cancel_iff] at hat
      exact Or.inr ⟨i, hi, hat⟩
  · rintro (rfl | ⟨i, hi, hat⟩)
    · exact ⟨0, rfl, Or.inl (by simp only [List.length_cons]; omega)⟩
    · refine ⟨i + 1, hi, ?_⟩
      rw [List.length_cons, add_right_comm, Nat.add_lt_add_iff_right, Nat.add_right_cancel_iff]
      exact hat

theorem paddingInside_pair {c c' : UInt8} :
    PaddingInside [c, c'] ↔ c = base64Padding ∧ c' ≠ base64Padding := by
  refine ⟨?_, fun ⟨hc, hc'⟩ => ⟨0, by simp [hc], Or.inr ⟨rfl, by simp [hc']⟩⟩⟩
  rintro ⟨i, hi, hlt | ⟨he, hne⟩⟩
  · simp at hlt
  · obtain rfl : i = 0 := by simpa using he
    exact ⟨Option.some.inj hi, fun h => hne (by simp [h])⟩

theorem paddingInside_block {c0 c1 c2 c3 : UInt8} : PaddingInside [c0, c1, c2, c3] ↔
    c0 = base64Padding ∨ c1 = base64Padding ∨ c2 = base64Padding ∧ c3 ≠ base64Padding := by
  rw [paddingInside_cons (by simp), paddingInside_cons (by simp), paddingInside_pair]

theorem paddingInside_append {c0 c1 c2 c3 : UInt8} {s : Str} (hs : 4 ≤ s.length) :
    PaddingInside (c0 :: c1 :: c2 :: c3 :: s) ↔ c0 = base64Padding ∨ c1 = base64Padding ∨ c2 = base64Padding ∨
      c3 = base64Padding ∨ PaddingInside s := by
  rw [paddingInside_cons (by simp), paddingInside_cons (by simp), paddingInside_cons (by simp; omega),
    paddingInside_cons (by omega)]

theorem not_paddingInside_nil : ¬ PaddingInside [] := by
  rintro ⟨i, hi, -⟩
  cases hi

theorem blocks {s : Str} (h : s.length % 4 = 0) : s = [] ∨ ∃ c0 c1 c2 c3 t, s = c0 :: c1 :: c2 :: c3 :: t ∧
    t.length % 4 = 0 ∧ (t = [] ∨ 4 ≤ t.length) := by
  match s with
  | [] => exact Or.inl rfl
  | [_] | [_, _] | [_, _, _] => simp at h
  | c0 :: c1 :: c2 :: c3 :: t =>
    simp only [List.length_cons] at h
    refine Or.inr ⟨c0, c1, c2, c3, t, rfl, by omega, ?_⟩
    obtain rfl | ht := eq_or_ne t []
    · exact Or.inl rfl
    · have := List.length_pos_of_ne_nil ht
      exact Or.inr (by omega)

/-! ## The unused bits -/

theorem clearBits_eq_padding {n c : UInt8} (hn : ∀ i : UInt8, i.toNat < 64 → ((i >>> n) <<< n).toNat < 64) :
    (clearBits n c = base64Padding ↔ c = base64Padding) ∧
    (clearBits n c ∈ base64Alphabet ↔ c ∈ base64Alphabet) := by
  obtain rfl | ⟨i, hi, rfl⟩ | ⟨hindex, hpad, halphabet⟩ := char_cases c
  · simp [clearBits]
  · have hi' := hn i hi
    rw [clearBits_alphabetAt n hi]
    exact ⟨iff_of_false (getBase64Index_alphabetAt hi').2.1 (getBase64Index_alphabetAt hi).2.1,
      iff_of_true (mem_alphabet hi') (mem_alphabet hi)⟩
  · rw [clearBits, if_neg hpad, hindex]
    exact ⟨Iff.rfl, Iff.rfl⟩

/-- `s'` has its padding where `s` has it, and characters without an index where `s` has them. -/
def SameShape : Str → Str → Prop :=
  List.Forall₂ fun c c' => (c' = base64Padding ↔ c = base64Padding) ∧ (c' ∈ base64Alphabet ↔ c ∈ base64Alphabet)

theorem SameShape.refl : ∀ s : Str, SameShape s s
  | [] => .nil
  | _ :: s => .cons ⟨Iff.rfl, Iff.rfl⟩ (SameShape.refl s)

theorem sameShape_clearUnused (s : Str) : SameShape s (clearUnused s) := by
  have h4 : ∀ i : UInt8, i.toNat < 64 → ((i >>> 4) <<< 4).toNat < 64 := fun i hi => (shift_lt hi).1
  have h2 : ∀ i : UInt8, i.toNat < 64 → ((i >>> 2) <<< 2).toNat < 64 := fun i hi => (shift_lt hi).2
  have hc : ∀ c : UInt8, (c = base64Padding ↔ c = base64Padding) ∧ (c ∈ base64Alphabet ↔ c ∈ base64Alphabet) :=
    fun c => ⟨Iff.rfl, Iff.rfl⟩
  induction s using clearUnused.induct with
  | case1 c0 c1 c2 c3 s ih =>
    rw [clearUnused]
    split_ifs with hs
    · rw [clearBlock]
      split_ifs
      · exact .cons (hc _) (.cons (clearBits_eq_padding h4) (.cons (hc _) (.cons (hc _) ih)))
      · exact .cons (hc _) (.cons (hc _) (.cons (clearBits_eq_padding h2) (.cons (hc _) ih)))
      · exact .cons (hc _) (.cons (hc _) (.cons (hc _) (.cons (hc _) ih)))
    · exact .cons (hc _) (.cons (hc _) (.cons (hc _) (.cons (hc _) ih)))
  | case2 s hs =>
    rw [clearUnused]
    · exact SameShape.refl s
    · exact hs

theorem SameShape.getElem? {s t : Str} (h : SameShape s t) (i : ℕ) :
    t[i]? = some base64Padding ↔ s[i]? = some base64Padding := by
  induction h generalizing i with
  | nil => rfl
  | cons hc _ ih =>
    cases i with
    | zero => simpa using hc.1
    | succ i => exact ih i

theorem SameShape.accepted {s t : Str} (h : SameShape s t) : Accepted t ↔ Accepted s := by
  have hmem : (∀ c ∈ t, c = base64Padding ∨ c ∈ base64Alphabet) ↔
      ∀ c ∈ s, c = base64Padding ∨ c ∈ base64Alphabet := by
    induction h with
    | nil => rfl
    | cons hc _ ih => rw [List.forall_mem_cons, List.forall_mem_cons, hc.1, hc.2, ih]
  rw [Accepted, Accepted, h.length_eq, hmem]

theorem SameShape.paddingInside {s t : Str} (h : SameShape s t) : PaddingInside t ↔ PaddingInside s := by
  simp only [PaddingInside, h.getElem?, h.length_eq, ne_eq]

theorem SameShape.outputLength_eq {s t : Str} (h : SameShape s t) : outputLength t = outputLength s := by
  simp only [outputLength, h.getElem?, h.length_eq]

/-! ## The decoder -/

theorem accepted_cons {c0 c1 c2 c3 : UInt8} {s : Str} : Accepted (c0 :: c1 :: c2 :: c3 :: s) ↔
    (∀ c ∈ [c0, c1, c2, c3], c = base64Padding ∨ c ∈ base64Alphabet) ∧ Accepted s := by
  have hlen : (c0 :: c1 :: c2 :: c3 :: s).length % 4 = s.length % 4 := by
    simp only [List.length_cons]
    omega
  have hsplit : c0 :: c1 :: c2 :: c3 :: s = [c0, c1, c2, c3] ++ s := rfl
  rw [Accepted, hlen, hsplit, List.forall_mem_append, Accepted, and_left_comm]

theorem accepted_nil : Accepted [] := ⟨rfl, by simp⟩

theorem exists_index {c : UInt8} (h : c ∈ base64Alphabet) (hpad : c ≠ base64Padding) :
    ∃ i : UInt8, i.toNat < 64 ∧ c = alphabetAt i := by
  obtain hc | hc | ⟨-, -, hc⟩ := char_cases c
  · exact absurd hc hpad
  · exact hc
  · exact absurd h hc

theorem getBase64Index_isSome {c : UInt8} :
    (getBase64Index c).isSome = true ↔ c = base64Padding ∨ c ∈ base64Alphabet := by
  obtain rfl | ⟨i, hi, rfl⟩ | ⟨hindex, hpad, halphabet⟩ := char_cases c
  · exact iff_of_true rfl (Or.inl rfl)
  · rw [(getBase64Index_alphabetAt hi).1]
    exact iff_of_true rfl (Or.inr (mem_alphabet hi))
  · rw [hindex]
    exact iff_of_false Bool.false_ne_true (by simp [hpad, halphabet])

theorem decodeBlock_isSome {c0 c1 c2 c3 : UInt8} : (decodeBlock c0 c1 c2 c3).isSome = true ↔
    ∀ c ∈ [c0, c1, c2, c3], c = base64Padding ∨ c ∈ base64Alphabet := by
  simp only [List.forall_mem_cons, List.not_mem_nil, false_imp_iff, forall_const, and_true, ← getBase64Index_isSome]
  rw [decodeBlock]
  cases getBase64Index c0 <;> cases getBase64Index c1 <;> cases getBase64Index c2 <;> cases getBase64Index c3 <;> simp

/-- The octets of a block with two, one or no padding characters at its end. -/
theorem decodeBlock_indices {i j k l : UInt8} (hi : i.toNat < 64) (hj : j.toNat < 64) (hk : k.toNat < 64)
    (hl : l.toNat < 64) :
    decodeBlock (alphabetAt i) (alphabetAt j) (alphabetAt k) (alphabetAt l) =
      some [(i <<< 2) + (j >>> 4), (j <<< 4) + (k >>> 2), (k <<< 6) + l] ∧
    decodeBlock (alphabetAt i) (alphabetAt j) (alphabetAt k) base64Padding =
      some [(i <<< 2) + (j >>> 4), (j <<< 4) + (k >>> 2)] ∧
    decodeBlock (alphabetAt i) (alphabetAt j) base64Padding base64Padding = some [(i <<< 2) + (j >>> 4)] := by
  obtain ⟨hi, -, -⟩ := getBase64Index_alphabetAt hi
  obtain ⟨hj, -, -⟩ := getBase64Index_alphabetAt hj
  obtain ⟨hk, hkp, -⟩ := getBase64Index_alphabetAt hk
  obtain ⟨hl, hlp, -⟩ := getBase64Index_alphabetAt hl
  simp [decodeBlock, hi, hj, hk, hl, hkp, hlp, getBase64Index_padding]

/-- **The loop takes every text of characters with an index.** -/
theorem decodeLoop_isSome {s : Str} (h : s.length % 4 = 0) : (decodeLoop s).isSome = true ↔ Accepted s := by
  induction s using decodeLoop.induct with
  | case1 c0 c1 c2 c3 s ih =>
    have hlen : s.length % 4 = 0 := by
      simp only [List.length_cons] at h
      omega
    rw [accepted_cons, ← decodeBlock_isSome, ← ih hlen, decodeLoop]
    cases decodeBlock c0 c1 c2 c3 <;> cases decodeLoop s <;> simp
  | case2 s hs =>
    obtain rfl | ⟨c0, c1, c2, c3, t, rfl, -⟩ := blocks h
    · exact iff_of_true rfl accepted_nil
    · exact absurd rfl (hs c0 c1 c2 c3 t)

/-- **Padding at the end only: what is decoded is encoded as the text.** -/
theorem decodeLoop_encodes {s : Str} (h : Accepted s) (hpad : ¬ PaddingInside s) :
    ∃ bytes, decodeLoop s = some bytes ∧ Encodes s bytes := by
  induction s using decodeLoop.induct with
  | case1 c0 c1 c2 c3 s ih =>
    obtain ⟨hblock, hs⟩ := accepted_cons.mp h
    simp only [List.forall_mem_cons, List.not_mem_nil, false_imp_iff, forall_const, and_true] at hblock
    obtain ⟨h0, h1, h2, h3⟩ := hblock
    have hshort : s = [] ∨ 4 ≤ s.length := by
      obtain rfl | ⟨_, _, _, _, t, rfl, -⟩ := blocks hs.1
      · exact Or.inl rfl
      · exact Or.inr (by simp)
    obtain rfl | hshort := hshort
    · -- the last block
      rw [paddingInside_block, not_or, not_or, not_and, not_not] at hpad
      obtain ⟨hp0, hp1, hp23⟩ := hpad
      obtain ⟨i, hi, rfl⟩ := exists_index (h0.resolve_left hp0) hp0
      obtain ⟨j, hj, rfl⟩ := exists_index (h1.resolve_left hp1) hp1
      by_cases hp2 : c2 = base64Padding
      · obtain rfl := hp2
        obtain rfl := hp23 rfl
        refine ⟨[(i <<< 2) + (j >>> 4)], ?_, ?_⟩
        · rw [decodeLoop, (decodeBlock_indices hi hj hi hi).2.2]
          rfl
        · rw [Encodes, base64Encode, (sextets_octets hi hj hi hi).2.2, clearUnused, if_pos rfl, clearBlock, if_pos rfl,
            clearBits_alphabetAt 4 hj]
          rfl
      · obtain ⟨k, hk, rfl⟩ := exists_index (h2.resolve_left hp2) hp2
        by_cases hp3 : c3 = base64Padding
        · obtain rfl := hp3
          refine ⟨[(i <<< 2) + (j >>> 4), (j <<< 4) + (k >>> 2)], ?_, ?_⟩
          · rw [decodeLoop, (decodeBlock_indices hi hj hk hk).2.1]
            rfl
          · rw [Encodes, base64Encode, (sextets_octets hi hj hk hk).2.1, clearUnused, if_pos rfl, clearBlock,
              if_neg hp2, if_pos rfl, clearBits_alphabetAt 2 hk]
            rfl
        · obtain ⟨l, hl, rfl⟩ := exists_index (h3.resolve_left hp3) hp3
          refine ⟨[(i <<< 2) + (j >>> 4), (j <<< 4) + (k >>> 2), (k <<< 6) + l], ?_, ?_⟩
          · rw [decodeLoop, (decodeBlock_indices hi hj hk hl).1]
            rfl
          · rw [Encodes, base64Encode, (sextets_octets hi hj hk hl).1, clearUnused, if_pos rfl, clearBlock,
              if_neg hp2, if_neg hp3]
            rfl
    · rw [paddingInside_append hshort] at hpad
      simp only [not_or] at hpad
      obtain ⟨hp0, hp1, hp2, hp3, hpad⟩ := hpad
      obtain ⟨i, hi, rfl⟩ := exists_index (h0.resolve_left hp0) hp0
      obtain ⟨j, hj, rfl⟩ := exists_index (h1.resolve_left hp1) hp1
      obtain ⟨k, hk, rfl⟩ := exists_index (h2.resolve_left hp2) hp2
      obtain ⟨l, hl, rfl⟩ := exists_index (h3.resolve_left hp3) hp3
      obtain ⟨bytes, hbytes, he⟩ := ih hs hpad
      have hne : s ≠ [] := List.ne_nil_of_length_pos (by omega)
      refine ⟨((i <<< 2) + (j >>> 4)) :: ((j <<< 4) + (k >>> 2)) :: ((k <<< 6) + l) :: bytes, ?_, ?_⟩
      · rw [decodeLoop, (decodeBlock_indices hi hj hk hl).1, hbytes]
        rfl
      · rw [Encodes, base64Encode, (sextets_octets hi hj hk hl).1, clearUnused, if_neg hne, he]
        rfl
  | case2 s hs =>
    obtain rfl | ⟨c0, c1, c2, c3, t, rfl, -⟩ := blocks h.1
    · exact ⟨[], rfl, rfl⟩
    · exact absurd rfl (hs c0 c1 c2 c3 t)

theorem encode_wellFormed (bytes : Str) : Accepted (base64Encode bytes) ∧ ¬ PaddingInside (base64Encode bytes) := by
  induction bytes using base64Encode.induct with
  | case1 => exact ⟨accepted_nil, not_paddingInside_nil⟩
  | case2 a =>
    obtain ⟨h0, h1, -, -⟩ := sextets_lt a 0 0
    rw [base64Encode, accepted_cons, paddingInside_block]
    refine ⟨⟨by simp [mem_alphabet h0, mem_alphabet h1], accepted_nil⟩, ?_⟩
    simp [(getBase64Index_alphabetAt h0).2.1, (getBase64Index_alphabetAt h1).2.1]
  | case3 a b =>
    obtain ⟨h0, h1, h2, -⟩ := sextets_lt a b 0
    rw [base64Encode, accepted_cons, paddingInside_block]
    refine ⟨⟨by simp [mem_alphabet h0, mem_alphabet h1, mem_alphabet h2], accepted_nil⟩, ?_⟩
    simp [(getBase64Index_alphabetAt h0).2.1, (getBase64Index_alphabetAt h1).2.1,
      (getBase64Index_alphabetAt h2).2.1]
  | case4 a b c bytes _ _ _ _ _ ih =>
    obtain ⟨h0, h1, h2, h3⟩ := sextets_lt a b c
    have hblock : ∀ x ∈ [alphabetAt (sextets a b c).1, alphabetAt (sextets a b c).2.1,
        alphabetAt (sextets a b c).2.2.1, alphabetAt (sextets a b c).2.2.2], x = base64Padding ∨ x ∈ base64Alphabet := by
      simp [mem_alphabet h0, mem_alphabet h1, mem_alphabet h2, mem_alphabet h3]
    rw [base64Encode]
    refine ⟨accepted_cons.mpr ⟨hblock, ih.1⟩, ?_⟩
    obtain ⟨rfl, hnil⟩ | ⟨-, hlen⟩ := encode_cases bytes
    · rw [hnil, paddingInside_block]
      simp [(getBase64Index_alphabetAt h0).2.1, (getBase64Index_alphabetAt h1).2.1,
        (getBase64Index_alphabetAt h2).2.1]
    · rw [paddingInside_append hlen]
      simp [(getBase64Index_alphabetAt h0).2.1, (getBase64Index_alphabetAt h1).2.1,
        (getBase64Index_alphabetAt h2).2.1, (getBase64Index_alphabetAt h3).2.1, ih.2]

/-- **The encodings are the accepted texts with no padding inside.** -/
theorem encodes_iff {s : Str} : (∃ bytes, Encodes s bytes) ↔ Accepted s ∧ ¬ PaddingInside s := by
  refine ⟨?_, fun ⟨h, hpad⟩ => ?_⟩
  · rintro ⟨bytes, he⟩
    have hshape := sameShape_clearUnused s
    have h := encode_wellFormed bytes
    rwa [← he, hshape.accepted, hshape.paddingInside] at h
  · obtain ⟨bytes, -, he⟩ := decodeLoop_encodes h hpad
    exact ⟨bytes, he⟩

theorem Encodes.outputLength {s bytes : Str} (h : Encodes s bytes) : outputLength s = bytes.length := by
  rw [← (sameShape_clearUnused s).outputLength_eq, h, outputLength_encode]

theorem length_decodeBlock {c0 c1 c2 c3 : UInt8} {block : Str} (h : decodeBlock c0 c1 c2 c3 = some block) :
    block.length = 3 - (if c3 = base64Padding then 1 else 0) - if c2 = base64Padding then 1 else 0 := by
  simp only [decodeBlock, Option.bind_eq_bind, Option.bind_eq_some_iff] at h
  obtain ⟨b0, -, b1, -, b2, -, b3, -, hblock⟩ := h
  rw [← Option.some.inj hblock]
  by_cases h2 : c2 = base64Padding <;> by_cases h3 : c3 = base64Padding <;> simp [h2, h3]

/-- **The loop writes inside of the buffer.** -/
theorem length_decodeLoop {s written : Str} (hlen : s.length % 4 = 0) (h : decodeLoop s = some written) :
    written.length ≤ outputLength s := by
  induction s using decodeLoop.induct generalizing written with
  | case1 c0 c1 c2 c3 s ih =>
    have hs : s.length % 4 = 0 := by
      simp only [List.length_cons] at hlen
      omega
    simp only [decodeLoop, Option.bind_eq_bind, Option.bind_eq_some_iff] at h
    obtain ⟨block, hblock, output, houtput, hwritten⟩ := h
    have hl := length_decodeBlock hblock
    have hle := ih hs houtput
    rw [← Option.some.inj hwritten, List.length_append]
    obtain rfl | ⟨_, _, _, _, t, rfl, -⟩ := blocks hs
    · have hout : outputLength [c0, c1, c2, c3] =
          3 - (if c3 = base64Padding then 1 else 0) - if c2 = base64Padding then 1 else 0 := by
        simp [outputLength]
      have hnil : outputLength [] = 0 := rfl
      omega
    · rw [outputLength_cons _ _ _ _ (by simp)]
      omega
  | case2 s hs =>
    obtain rfl | ⟨c0, c1, c2, c3, t, rfl, -⟩ := blocks hlen
    · cases h
      exact le_rfl
    · exact absurd rfl (hs c0 c1 c2 c3 t)

/-- **No block is written outside of the buffer**, also where the loop ends at a later one. -/
theorem decodeLoop_inside {t rest written : Str} (hlen : (t ++ rest).length % 4 = 0) (ht : t.length % 4 = 0)
    (h : decodeLoop t = some written) : written.length ≤ outputLength (t ++ rest) := by
  have hle := length_decodeLoop ht h
  obtain rfl | hrest := eq_or_ne rest []
  · rwa [List.append_nil]
  have hpos := List.length_pos_iff.mpr hrest
  rw [List.length_append] at hlen
  rw [outputLength_eq] at hle ⊢
  rw [List.length_append]
  split_ifs at hle ⊢ <;> omega

theorem decodeLoop_inside_padding : (str "A").length ≤ outputLength (str "QQ==" ++ str "QQ==") :=
  decodeLoop_inside (by decide) (by decide) (by decide)

/-- The bytes a reader of the buffer gets. -/
def contents (fresh : ℕ → UInt8) (buffer : List (Option UInt8)) : Str :=
  buffer.mapIdx fun i b => b.getD (fresh i)

theorem contents_append (fresh : ℕ → UInt8) (written : Str) (n : ℕ) :
    contents fresh (written.map some ++ List.replicate (n - written.length) none) =
      written ++ ((List.range n).drop written.length).map fresh := by
  refine List.ext_getElem? fun i => ?_
  by_cases hi : i < written.length
  · simp [contents, List.getElem?_append_left, hi]
  · simp only [contents, List.getElem?_mapIdx]
    rw [List.getElem?_append_right (by simpa using hi), List.getElem?_append_right (by omega)]
    simp only [List.length_map, List.getElem?_replicate, List.getElem?_map, List.getElem?_drop]
    by_cases hn : i < n
    · rw [if_pos (by omega), List.getElem?_range (by omega), show written.length + (i - written.length) = i by omega]
      rfl
    · rw [if_neg (by omega), List.getElem?_eq_none (by rw [List.length_range]; omega)]
      rfl

/-- **The buffer holds what `base64Decode` answers.** -/
theorem base64Decode_eq (fresh : ℕ → UInt8) (s : Str) : base64Decode fresh s =
    if (decodeBuffer (fun _ => true) s).ret = 1 then
      some (contents fresh ((decodeBuffer (fun _ => true) s).output.getD []))
    else none := by
  rw [base64Decode, decodeBuffer]
  by_cases h0 : s.length = 0
  · rw [if_pos h0, if_pos h0]
    rfl
  · rw [if_neg h0, if_neg h0]
    by_cases h4 : s.length % 4 ≠ 0
    · rw [if_pos h4, if_pos h4]
      rfl
    · rw [if_neg h4, if_neg h4]
      rw [if_neg (by decide : ¬ true = false)]
      cases decodeLoop s with
      | none => rfl
      | some written => exact congrArg some (contents_append fresh written (outputLength s)).symm

section Theorem

variable (malloc : ℕ → Bool) {s : Str}

theorem decodeBuffer_refused (hne : s ≠ []) (h : ¬ Accepted s) :
    ((decodeBuffer malloc s).ret = -1 ∨ (decodeBuffer malloc s).ret = -2) ∧
    (decodeBuffer malloc s).output = none := by
  rw [decodeBuffer, if_neg (mt List.length_eq_zero_iff.mp hne)]
  by_cases h4 : s.length % 4 = 0
  · have hloop := mt (decodeLoop_isSome h4).mp h
    rw [Bool.not_eq_true, Option.isSome_eq_false_iff, Option.isNone_iff_eq_none] at hloop
    rw [if_neg (not_not.mpr h4), hloop]
    split_ifs
    · exact ⟨Or.inr rfl, rfl⟩
    · exact ⟨Or.inl rfl, rfl⟩
  · rw [if_pos h4]
    exact ⟨Or.inl rfl, rfl⟩

theorem decodeBuffer_accepted (hne : s ≠ []) (h : Accepted s) : ∃ written, decodeLoop s = some written ∧
    decodeBuffer malloc s =
      if malloc (outputLength s) = false then ⟨-2, none, some (outputLength s)⟩
      else ⟨1, some (written.map some ++ List.replicate (outputLength s - written.length) none),
        some (outputLength s)⟩ := by
  obtain ⟨written, hloop⟩ := Option.isSome_iff_exists.mp ((decodeLoop_isSome h.1).mpr h)
  refine ⟨written, hloop, ?_⟩
  rw [decodeBuffer, if_neg (mt List.length_eq_zero_iff.mp hne), if_neg (not_not.mpr h.1), hloop]

end Theorem

/-- **The decoder succeeds just on encodings, with all of the buffer written, unless there is padding inside of
an accepted text.** -/
theorem decodesExactly_iff (s : Str) : DecodesExactly s ↔ ¬ (Accepted s ∧ PaddingInside s) := by
  refine ⟨?_, fun h => ?_⟩
  · rintro hexact ⟨haccepted, hpad⟩
    have hne : s ≠ [] := fun hs => not_paddingInside_nil (hs ▸ hpad)
    obtain ⟨written, -, hrun⟩ := decodeBuffer_accepted (fun _ => true) hne haccepted
    have hret : (decodeBuffer (fun _ => true) s).ret = 1 := by
      rw [hrun]
      rfl
    exact (encodes_iff.mp ((hexact.success _).mp hret).1).2 hpad
  · obtain rfl | hne := eq_or_ne s []
    · have hnil : Encodes [] [] := rfl
      exact ⟨fun malloc => iff_of_true rfl ⟨⟨[], hnil⟩, Or.inl rfl⟩, fun malloc _ => ⟨[], hnil, rfl, rfl⟩,
        fun malloc hret => absurd rfl hret⟩
    by_cases haccepted : Accepted s
    · have hpad : ¬ PaddingInside s := fun hpad => h ⟨haccepted, hpad⟩
      obtain ⟨bytes, hloop, he⟩ := decodeLoop_encodes haccepted hpad
      have hrun : ∀ malloc, decodeBuffer malloc s = if malloc (outputLength s) = false
          then ⟨-2, none, some (outputLength s)⟩ else ⟨1, some (bytes.map some), some bytes.length⟩ := by
        intro malloc
        obtain ⟨written, hwritten, hrun⟩ := decodeBuffer_accepted malloc hne haccepted
        obtain rfl := Option.some.inj (hloop.symm.trans hwritten)
        rw [hrun, he.outputLength, Nat.sub_self, List.replicate_zero, List.append_nil]
      refine ⟨fun malloc => ?_, fun malloc => ?_, fun malloc => ?_⟩ <;> rw [hrun malloc] <;>
        cases hmalloc : malloc (outputLength s)
      · exact iff_of_false (by simp) (by simp [hne])
      · exact iff_of_true (by simp) ⟨⟨bytes, he⟩, Or.inr rfl⟩
      · intro hret
        simp at hret
      · intro _
        exact ⟨bytes, he, by simp, by simp [hne]⟩
      · intro _
        exact ⟨Or.inr (by simp), by simp⟩
      · intro hret
        simp at hret
    · have hno : ¬ ∃ bytes, Encodes s bytes := fun he => haccepted (encodes_iff.mp he).1
      have hret : ∀ malloc, (decodeBuffer malloc s).ret ≠ 1 := by
        intro malloc hret
        obtain ⟨hr | hr, -⟩ := decodeBuffer_refused malloc hne haccepted
        · rw [hr] at hret
          omega
        · rw [hr] at hret
          omega
      exact ⟨fun malloc => iff_of_false (hret malloc) fun he => hno he.1, fun malloc hr => absurd hr (hret malloc),
        fun malloc _ => decodeBuffer_refused malloc hne haccepted⟩

/-- Two octets in one block with padding, and three zero octets in the next: the last two of the six bytes of
the buffer are never written. -/
theorem not_decodesExactly : ¬ DecodesExactly (str "AA==AAAA") ∧
    (decodeBuffer (fun _ => true) (str "AA==AAAA")).output =
      some [some 0, some 0, some 0, some 0, none, none] := by
  have hout : (decodeBuffer (fun _ => true) (str "AA==AAAA")).output =
      some [some 0, some 0, some 0, some 0, none, none] := by decide +kernel
  refine ⟨fun h => ?_, hout⟩
  obtain ⟨bytes, -, -, hbytes⟩ := h.written (fun _ => true) (by decide +kernel)
  rw [hout, if_neg (by decide)] at hbytes
  have hmem : none ∈ bytes.map some := Option.some.inj hbytes ▸ (by decide)
  simp at hmem

end Elektra.Base64
