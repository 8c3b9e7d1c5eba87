import Elektra.Plugin.Value

/-!
# The base64 plugin

Binary values are written as strings, encoded after a prefix; strings that start with the first
character of the prefix are written with that character doubled.

* `base64Encode`, `getBase64Index`, `base64Decode`; **`base64Decode_encode`**;
* `elektraBase64Set`, `elektraBase64Get`;
* **`base64_round_trip`**.
-/

namespace Elektra

/-! ## The code -/

def base64Alphabet : Str := str "ABCDEFGHIJKLMNOPQRSTUVWXYZabcdefghijklmnopqrstuvwxyz0123456789+/"

/-- `alphabet[i]` -/
def alphabetAt (i : UInt8) : UInt8 := base64Alphabet.getD i.toNat 0

def base64Padding : UInt8 := 61

/-- The four indices of three octets. -/
def sextets (a b c : UInt8) : UInt8 × UInt8 × UInt8 × UInt8 :=
  (a >>> 2, ((a <<< 4) + (b >>> 4)) &&& 0x3f, ((b <<< 2) + (c >>> 6)) &&& 0x3f, c &&& 0x3f)

def base64Encode : Str → Str
  | [] => []
  | [a] =>
    let (i, j, _) := sextets a 0 0
    [alphabetAt i, alphabetAt j, base64Padding, base64Padding]
  | [a, b] =>
    let (i, j, k, _) := sextets a b 0
    [alphabetAt i, alphabetAt j, alphabetAt k, base64Padding]
  | a :: b :: c :: input =>
    let (i, j, k, l) := sextets a b c
    alphabetAt i :: alphabetAt j :: alphabetAt k :: alphabetAt l :: base64Encode input

/-- `none` sets the error flag. -/
def getBase64Index (c : UInt8) : Option UInt8 :=
  if c = base64Padding then some 0
  else (base64Alphabet.findIdx? (· = c)).map UInt8.ofNat

/-- The octets of a block of four characters. -/
def decodeBlock (c0 c1 c2 c3 : UInt8) : Option Str := do
  let b0 ← getBase64Index c0
  let b1 ← getBase64Index c1
  let b2 ← getBase64Index c2
  let b3 ← getBase64Index c3
  some (((b0 <<< 2) + (b1 >>> 4)) ::
    ((if c2 ≠ base64Padding then [(b1 <<< 4) + (b2 >>> 2)] else []) ++
      if c3 ≠ base64Padding then [(b2 <<< 6) + b3] else []))

/-- The loop of `base64Decode`: what it writes. -/
def decodeLoop : Str → Option Str
  | c0 :: c1 :: c2 :: c3 :: input => do
    let block ← decodeBlock c0 c1 c2 c3
    let output ← decodeLoop input
    some (block ++ output)
  | _ => some []

/-- The size of the buffer that `base64Decode` allocates. -/
def outputLength (input : Str) : ℕ :=
  input.length / 4 * 3 - (if input[input.length - 1]? = some base64Padding then 1 else 0) -
    if input[input.length - 2]? = some base64Padding then 1 else 0

/-- `none` is the return value `-1`, an empty output the null pointer. `fresh` is the content of new
memory: padding inside the input leaves the end of the buffer unwritten. -/
def base64Decode (fresh : ℕ → UInt8) (input : Str) : Option Str :=
  if input.length = 0 then some []
  else if input.length % 4 ≠ 0 then none
  else do
    let written ← decodeLoop input
    some (written ++ ((List.range (outputLength input)).drop written.length).map fresh)

/-! ## The plugin -/

def base64Prefix : Str := str "@BASE64"

def base64Escape : UInt8 := 64

/-- The round of `elektraBase64Set` for a key. -/
def base64SetKey (k : Key) : Key :=
  if keyIsBinary k then keySetString k (base64Prefix ++ base64Encode ((valueBytes k).getD []))
  else
    let strVal := keyString k
    if strVal.head? = some base64Escape then keySetString k (base64Escape :: strVal) else k

def elektraBase64Set (ks : List Key) : ℤ × List Key := (1, ks.map base64SetKey)

section Get

variable (env : Environment) (fresh : ℕ → UInt8)

/-- The round of `elektraBase64Get` for a key, with the parent key that takes the warnings. -/
def base64GetKey (parentKey k : Key) : Key × Key :=
  if keyIsBinary k then (parentKey, k)
  else
    let strVal := keyString k
    if base64Prefix.isPrefixOf strVal then
      match base64Decode fresh (strVal.drop base64Prefix.length) with
      | some buffer => (parentKey, keySetBinary k (if buffer = [] then none else some buffer))
      | none =>
        (env.addWarning 157 parentKey
          (str "Not Base64 encoded: " ++ strVal ++ str ". Maybe use a different prefix?"), k)
    else if [base64Escape, base64Escape].isPrefixOf strVal then
      (parentKey, keySetString k (strVal.drop 1))
    else (parentKey, k)

/-- The loop of `elektraBase64Get`. -/
def base64GetLoop (parentKey : Key) : List Key → Key × List Key
  | [] => (parentKey, [])
  | k :: ks =>
    let (parentKey, k) := base64GetKey env fresh parentKey k
    let (parentKey, ks) := base64GetLoop parentKey ks
    (parentKey, k :: ks)

/-- `moduleConfig` is the contract of the plugin. -/
def elektraBase64Get (moduleConfig ks : List Key) (parentKey : Key) : ℤ × List Key × Key :=
  if keyName parentKey = str "system/elektra/modules/base64" then
    (1, moduleConfig.foldl ksAppendValue ks, parentKey)
  else
    let (parentKey, ks) := base64GetLoop env fresh parentKey ks
    (1, ks, parentKey)

end Get

/-! ## The codec -/

theorem getBase64Index_alphabet : ∀ i < 64, getBase64Index (alphabetAt (UInt8.ofNat i)) =
    some (UInt8.ofNat i) ∧ alphabetAt (UInt8.ofNat i) ≠ base64Padding ∧
    alphabetAt (UInt8.ofNat i) ≠ 0 := by
  decide +kernel

/-- The characters of the alphabet are told apart, also from the padding. -/
theorem getBase64Index_alphabetAt {i : UInt8} (hi : i.toNat < 64) :
    getBase64Index (alphabetAt i) = some i ∧ alphabetAt i ≠ base64Padding ∧ alphabetAt i ≠ 0 := by
  have h := getBase64Index_alphabet i.toNat hi
  rwa [UInt8.ofNat_toNat] at h

theorem getBase64Index_padding : getBase64Index base64Padding = some 0 := rfl

theorem toNat_and_63 (a : UInt8) : (a &&& 0x3f).toNat = a.toNat % 64 := by
  rw [UInt8.toNat_and]
  exact Nat.and_two_pow_sub_one_eq_mod _ 6

theorem toNat_shiftRight_le (a : UInt8) : (a >>> 2).toNat = a.toNat / 4 ∧
    (a >>> 4).toNat = a.toNat / 16 ∧ (a >>> 6).toNat = a.toNat / 64 := by
  simp [UInt8.toNat_shiftRight, Nat.shiftRight_eq_div_pow]

theorem toNat_shiftLeft_mod (a : UInt8) : (a <<< 2).toNat = a.toNat * 4 % 256 ∧
    (a <<< 4).toNat = a.toNat * 16 % 256 ∧ (a <<< 6).toNat = a.toNat * 64 % 256 := by
  simp [UInt8.toNat_shiftLeft, Nat.shiftLeft_eq]

theorem sextets_lt (a b c : UInt8) : (sextets a b c).1.toNat < 64 ∧ (sextets a b c).2.1.toNat < 64 ∧
    (sextets a b c).2.2.1.toNat < 64 ∧ (sextets a b c).2.2.2.toNat < 64 := by
  have ha := a.toNat_lt
  simp only [sextets, toNat_and_63, toNat_shiftRight_le]
  omega

theorem octets_sextets (a b c : UInt8) :
    ((sextets a b c).1 <<< 2) + ((sextets a b c).2.1 >>> 4) = a ∧
    ((sextets a b c).2.1 <<< 4) + ((sextets a b c).2.2.1 >>> 2) = b ∧
    ((sextets a b c).2.2.1 <<< 6) + (sextets a b c).2.2.2 = c := by
  have ha := a.toNat_lt
  have hb := b.toNat_lt
  have hc := c.toNat_lt
  simp only [← UInt8.toNat_inj, sextets, UInt8.toNat_add, toNat_and_63, toNat_shiftRight_le,
    toNat_shiftLeft_mod]
  omega

/-- A block of three octets, and the last one with two or one of them. -/
theorem decodeBlock_sextets (a b c : UInt8) :
    (let i := sextets a b c
    decodeBlock (alphabetAt i.1) (alphabetAt i.2.1) (alphabetAt i.2.2.1) (alphabetAt i.2.2.2) =
      some [a, b, c]) ∧
    (let i := sextets a b 0
    decodeBlock (alphabetAt i.1) (alphabetAt i.2.1) (alphabetAt i.2.2.1) base64Padding =
      some [a, b]) ∧
    (let i := sextets a 0 0
    decodeBlock (alphabetAt i.1) (alphabetAt i.2.1) base64Padding base64Padding = some [a]) := by
  have hindex : ∀ a b c : UInt8, let i := sextets a b c
      getBase64Index (alphabetAt i.1) = some i.1 ∧ getBase64Index (alphabetAt i.2.1) = some i.2.1 ∧
      getBase64Index (alphabetAt i.2.2.1) = some i.2.2.1 ∧ alphabetAt i.2.2.1 ≠ base64Padding ∧
      getBase64Index (alphabetAt i.2.2.2) = some i.2.2.2 ∧ alphabetAt i.2.2.2 ≠ base64Padding := by
    intro a b c
    obtain ⟨h0, h1, h2, h3⟩ := sextets_lt a b c
    exact ⟨(getBase64Index_alphabetAt h0).1, (getBase64Index_alphabetAt h1).1,
      (getBase64Index_alphabetAt h2).1, (getBase64Index_alphabetAt h2).2.1,
      (getBase64Index_alphabetAt h3).1, (getBase64Index_alphabetAt h3).2.1⟩
  refine ⟨?_, ?_, ?_⟩
  · obtain ⟨h0, h1, h2, hp2, h3, hp3⟩ := hindex a b c
    obtain ⟨ha, hb, hc⟩ := octets_sextets a b c
    simp [decodeBlock, h0, h1, h2, h3, hp2, hp3, ha, hb, hc]
  · obtain ⟨h0, h1, h2, hp2, -, -⟩ := hindex a b 0
    obtain ⟨ha, hb, -⟩ := octets_sextets a b 0
    simp [decodeBlock, h0, h1, h2, hp2, getBase64Index_padding, ha, hb]
  · obtain ⟨h0, h1, -, -, -, -⟩ := hindex a 0 0
    obtain ⟨ha, -, -⟩ := octets_sextets a 0 0
    simp [decodeBlock, h0, h1, getBase64Index_padding, ha]

theorem decodeLoop_encode (input : Str) : decodeLoop (base64Encode input) = some input := by
  induction input using base64Encode.induct with
  | case1 => rfl
  | case2 a => simp [base64Encode, decodeLoop, (decodeBlock_sextets a 0 0).2.2]
  | case3 a b => simp [base64Encode, decodeLoop, (decodeBlock_sextets a b 0).2.1]
  | case4 a b c input _ _ _ _ _ ih =>
    simp [base64Encode, decodeLoop, (decodeBlock_sextets a b c).1, ih]

/-- The size of the buffer is that of the last block, and three for each one before. -/
theorem outputLength_cons (c0 c1 c2 c3 : UInt8) {input : Str} (h : 4 ≤ input.length) :
    outputLength (c0 :: c1 :: c2 :: c3 :: input) = outputLength input + 3 := by
  have hlen : (c0 :: c1 :: c2 :: c3 :: input).length = input.length + 4 := rfl
  have hget : ∀ i ≤ input.length, 1 ≤ i →
      (c0 :: c1 :: c2 :: c3 :: input)[input.length + 4 - i]? = input[input.length - i]? := by
    intro i hi hpos
    rw [show input.length + 4 - i = input.length - i + 4 by omega]
    rfl
  rw [outputLength, outputLength, hlen, hget 1 (by omega) le_rfl, hget 2 (by omega) (by omega)]
  split_ifs <;> omega

theorem encode_cases (input : Str) : (input = [] ∧ base64Encode input = []) ∨
    (input ≠ [] ∧ 4 ≤ (base64Encode input).length) := by
  match input with
  | [] => exact Or.inl ⟨rfl, rfl⟩
  | [_] => exact Or.inr ⟨by simp, le_rfl⟩
  | [_, _] => exact Or.inr ⟨by simp, le_rfl⟩
  | _ :: _ :: _ :: input => exact Or.inr ⟨by simp, by simp [base64Encode]⟩

theorem length_encode (input : Str) : (base64Encode input).length % 4 = 0 := by
  induction input using base64Encode.induct with
  | case1 => rfl
  | case2 a => simp [base64Encode]
  | case3 a b => simp [base64Encode]
  | case4 a b c input _ _ _ _ _ ih =>
    simp only [base64Encode, List.length_cons]
    omega

theorem outputLength_encode (input : Str) : outputLength (base64Encode input) = input.length := by
  induction input using base64Encode.induct with
  | case1 => rfl
  | case2 a => simp [outputLength, base64Encode]
  | case3 a b =>
    have hk := (getBase64Index_alphabetAt (sextets_lt a b 0).2.2.1).2.1
    simp [outputLength, base64Encode, hk]
  | case4 a b c input _ _ _ _ _ ih =>
    obtain ⟨rfl, -⟩ | ⟨-, hlen⟩ := encode_cases input
    · have hk := (getBase64Index_alphabetAt (sextets_lt a b c).2.2.1).2.1
      have hl := (getBase64Index_alphabetAt (sextets_lt a b c).2.2.2).2.1
      simp [outputLength, base64Encode, hk, hl]
    · rw [base64Encode, outputLength_cons _ _ _ _ hlen, ih]
      rfl

theorem zero_not_mem_encode (input : Str) : 0 ∉ base64Encode input := by
  have hne : ∀ i : UInt8, i.toNat < 64 → (0 : UInt8) ≠ alphabetAt i := fun i hi =>
    (getBase64Index_alphabetAt hi).2.2.symm
  have hpad : (0 : UInt8) ≠ base64Padding := by decide
  induction input using base64Encode.induct with
  | case1 => exact List.not_mem_nil
  | case2 a =>
    obtain ⟨h0, h1, -, -⟩ := sextets_lt a 0 0
    simp [base64Encode, hne _ h0, hne _ h1, hpad]
  | case3 a b =>
    obtain ⟨h0, h1, h2, -⟩ := sextets_lt a b 0
    simp [base64Encode, hne _ h0, hne _ h1, hne _ h2, hpad]
  | case4 a b c input _ _ _ _ _ ih =>
    obtain ⟨h0, h1, h2, h3⟩ := sextets_lt a b c
    simp [base64Encode, hne _ h0, hne _ h1, hne _ h2, hne _ h3, ih]

/-- **What was encoded is decoded, whatever new memory holds.** -/
theorem base64Decode_encode (fresh : ℕ → UInt8) (input : Str) :
    base64Decode fresh (base64Encode input) = some input := by
  obtain ⟨rfl, hnil⟩ | ⟨-, hlen⟩ := encode_cases input
  · rfl
  · have hmod := length_encode input
    rw [base64Decode, if_neg (by omega), if_neg (by omega), decodeLoop_encode, outputLength_encode]
    simp

/-! ## The round trip -/

/-- `k'` has the name, the value and the metadata of `k`; of `binary`, only the presence counts. -/
structure Recovered (k k' : Key) : Prop where
  key : k'.key = k.key
  ukey : k'.ukey = k.ukey
  value : valueBytes k' = valueBytes k
  getMeta : ∀ m, m ≠ str "binary" → keyGetMeta k' m = keyGetMeta k m
  binary : keyGetMeta k' (str "binary") = (keyGetMeta k (str "binary")).map fun _ => []

theorem keySetBinary_spec {k : Key} (hk : Unlocked k) (v : Option Str) :
    (keySetBinary k v).key = k.key ∧ (keySetBinary k v).ukey = k.ukey ∧
    (keySetBinary k v).data = v ∧
    ∀ m, keyGetMeta (keySetBinary k v) m = if m = str "binary" then some [] else keyGetMeta k m := by
  obtain ⟨l, b, he⟩ := keySetMeta_fields k (str "binary") (some [])
  have hget := keyGetMeta_keySetMeta hk.metadata (str "binary") (some [])
  rw [he] at hget
  have hset : keySetBinary k v = { k with metaKeys := l, data := v, sync := true } := by
    rw [keySetBinary, if_neg (by simp [hk.value]), he]
  refine ⟨by rw [hset], by rw [hset], by rw [hset], fun m => ?_⟩
  rw [hset]
  exact hget m

section Keys

variable {env : Environment} {fresh : ℕ → UInt8} {k : Key} (parentKey : Key)

theorem base64_binary (hv : Valued k) (hk : Unlocked k) (hb : keyIsBinary k = true) :
    ∃ k', base64GetKey env fresh parentKey (base64SetKey k) = (parentKey, k') ∧ Recovered k k' := by
  obtain ⟨bytes, hbytes⟩ : ∃ bytes, bytes = (valueBytes k).getD [] := ⟨_, rfl⟩
  obtain ⟨hkey, hukey, hdata, hun, hbin, hmeta⟩ :=
    keySetString_spec hk (base64Prefix ++ base64Encode bytes)
  have h0 : 0 ∉ base64Prefix ++ base64Encode bytes := by
    rw [List.mem_append, not_or]
    exact ⟨by decide, zero_not_mem_encode bytes⟩
  have hstring := keyString_of_data hbin h0 hdata
  have hprefix : base64Prefix.isPrefixOf (base64Prefix ++ base64Encode bytes) = true :=
    List.isPrefixOf_iff_prefix.mpr (List.prefix_append _ _)
  obtain ⟨hkey', hukey', hdata', hmeta'⟩ :=
    keySetBinary_spec hun (if bytes = [] then none else some bytes)
  refine ⟨_, ?_, hkey'.trans hkey, hukey'.trans hukey, ?_, fun m hm => ?_, ?_⟩
  · rw [base64SetKey, if_pos hb, ← hbytes, base64GetKey, hbin, if_neg Bool.false_ne_true]
    dsimp only
    rw [hstring, if_pos hprefix, List.drop_left, base64Decode_encode]
  · have hbin' : keyIsBinary (keySetBinary (keySetString k (base64Prefix ++ base64Encode bytes))
        (if bytes = [] then none else some bytes)) = true := by
      rw [keyIsBinary, hmeta', if_pos rfl]
      rfl
    have hne := hv.nonempty
    rw [valueBytes, hdata', hbin', hbytes, valueBytes, hb]
    cases hd : k.data with
    | none => rfl
    | some data =>
      have : data ≠ [] := fun he => hne (he ▸ hd)
      simp [this]
  · rw [hmeta', if_neg hm, hmeta m hm]
  · obtain ⟨v, hv⟩ := Option.isSome_iff_exists.mp hb
    rw [hmeta', if_pos rfl, hv]
    rfl

theorem head_of_isPrefixOf {c : UInt8} {s t : Str} (h : (c :: s).isPrefixOf t = true) :
    t.head? = some c := by
  obtain ⟨u, rfl⟩ := List.isPrefixOf_iff_prefix.mp h
  rfl

theorem Recovered.refl (hb : keyIsBinary k = false) : Recovered k k := by
  rw [keyIsBinary, Option.isSome_eq_false_iff, Option.isNone_iff_eq_none] at hb
  exact ⟨rfl, rfl, rfl, fun _ _ => rfl, by rw [hb]; rfl⟩

theorem base64_string (hv : Valued k) (hk : Unlocked k) (hb : keyIsBinary k = false) :
    ∃ k', base64GetKey env fresh parentKey (base64SetKey k) = (parentKey, k') ∧ Recovered k k' := by
  rw [base64SetKey, hb, if_neg Bool.false_ne_true]
  dsimp only
  by_cases hat : (keyString k).head? = some base64Escape
  · rw [if_pos hat]
    obtain ⟨t, ht⟩ := List.head?_eq_some_iff.mp hat
    -- the value is a C string, as it is not null
    obtain ⟨⟨s, h0⟩, hdata⟩ : ∃ s : CString, k.data = some (s.1 ++ [0]) := by
      cases hd : k.data with
      | none => rw [keyString, hd] at ht; cases ht
      | some data =>
        obtain ⟨s, hs⟩ := hv.string hb data hd
        exact ⟨s, by rw [hs]⟩
    have hs : keyString k = s := by
      rw [keyIsBinary] at hb
      rw [keyString, hdata]
      dsimp only
      rw [hb, if_neg Bool.false_ne_true, takeWhile_append_zero h0]
    rw [hs] at ht ⊢
    have h0' : 0 ∉ base64Escape :: s := by
      rw [List.mem_cons, not_or]
      exact ⟨by decide, h0⟩
    obtain ⟨hkey, hukey, hdata₁, hun, hbin, hmeta⟩ := keySetString_spec hk (base64Escape :: s)
    obtain ⟨hkey', hukey', hdata', -, hbin', hmeta'⟩ := keySetString_spec hun s
    refine ⟨_, ?_, hkey'.trans hkey, hukey'.trans hukey, ?_, fun m hm => (hmeta' m hm).trans (hmeta m hm), ?_⟩
    · have hnot : base64Prefix.isPrefixOf (base64Escape :: s) = false := by
        rw [ht]
        rfl
      have hdouble : [base64Escape, base64Escape].isPrefixOf (base64Escape :: s) = true := by
        rw [ht]
        rfl
      rw [base64GetKey, hbin, if_neg Bool.false_ne_true]
      dsimp only
      rw [keyString_of_data hbin h0' hdata₁, hnot, if_neg Bool.false_ne_true, if_pos hdouble]
      rfl
    · have hne : s ≠ [] := by simp [ht]
      rw [valueBytes, hdata', valueBytes, hdata, stringData, if_neg hne]
    · rw [keyIsBinary, Option.isSome_eq_false_iff, Option.isNone_iff_eq_none] at hb hbin'
      rw [hbin', hb]
      rfl
  · rw [if_neg hat]
    refine ⟨k, ?_, Recovered.refl hb⟩
    have hnot : base64Prefix.isPrefixOf (keyString k) ≠ true := fun h => hat (head_of_isPrefixOf h)
    have hnot' : [base64Escape, base64Escape].isPrefixOf (keyString k) ≠ true := fun h =>
      hat (head_of_isPrefixOf h)
    rw [base64GetKey, hb, if_neg Bool.false_ne_true]
    dsimp only
    rw [if_neg hnot, if_neg hnot']

theorem base64_key (hv : Valued k) (hk : Unlocked k) :
    ∃ k', base64GetKey env fresh parentKey (base64SetKey k) = (parentKey, k') ∧ Recovered k k' := by
  by_cases hb : keyIsBinary k = true
  · exact base64_binary parentKey hv hk hb
  · exact base64_string parentKey hv hk (Bool.eq_false_of_not_eq_true hb)

end Keys

/-- **`elektraBase64Get` recovers the key set that `elektraBase64Set` was given, and warns of none of
its keys.** -/
theorem base64_round_trip (env : Environment) (fresh : ℕ → UInt8) (moduleConfig ks : List Key)
    (parentKey : Key) (hparent : keyName parentKey ≠ str "system/elektra/modules/base64")
    (hks : ∀ k ∈ ks, Valued k ∧ Unlocked k) :
    ∃ ks', elektraBase64Get env fresh moduleConfig (elektraBase64Set ks).2 parentKey =
      (1, ks', parentKey) ∧ List.Forall₂ Recovered ks ks' := by
  have hloop : ∀ l : List Key, (∀ k ∈ l, Valued k ∧ Unlocked k) →
      ∃ l', base64GetLoop env fresh parentKey (l.map base64SetKey) = (parentKey, l') ∧
        List.Forall₂ Recovered l l' := by
    intro l hl
    induction l with
    | nil => exact ⟨[], rfl, List.Forall₂.nil⟩
    | cons k l ih =>
      obtain ⟨hv, hk⟩ := hl k List.mem_cons_self
      obtain ⟨k', hk', hrec⟩ := @base64_key env fresh k parentKey hv hk
      obtain ⟨l', hl', hrest⟩ := ih fun x hx => hl x (List.mem_cons_of_mem k hx)
      refine ⟨k' :: l', ?_, List.Forall₂.cons hrec hrest⟩
      rw [List.map_cons, base64GetLoop, hk']
      dsimp only
      rw [hl']
  obtain ⟨ks', hks', hrec⟩ := hloop ks hks
  refine ⟨ks', ?_, hrec⟩
  rw [elektraBase64Get, if_neg hparent, elektraBase64Set]
  dsimp only
  rw [hks']

/-- A binary, a null value and a string with the prefix. -/
theorem base64_round_trip_user :
    let ks := [keySetBinary (keyNewName (str "user/a")) (some [0, 255]),
      keySetBinary (keyNewName (str "user/b")) none,
      keySetString (keyNewName (str "user/c")) (str "@BASE64")]
    ∃ ks', elektraBase64Get ⟨fun _ k _ => k, fun _ k _ => k, fun ks _ => (false, ks)⟩ (fun _ => 0) []
        (elektraBase64Set ks).2 (keyNewName (str "user")) = (1, ks', keyNewName (str "user")) ∧
      List.Forall₂ Recovered ks ks' := by
  refine base64_round_trip _ _ _ _ _ (by decide +kernel) ?_
  intro k hk
  simp only [List.mem_cons, List.not_mem_nil, or_false] at hk
  obtain rfl | rfl | rfl := hk
  · exact ⟨⟨by decide +kernel, fun h => absurd h (by decide +kernel)⟩, ⟨rfl, rfl⟩⟩
  · exact ⟨⟨by decide +kernel, fun h => absurd h (by decide +kernel)⟩, ⟨rfl, rfl⟩⟩
  · refine ⟨⟨by decide +kernel, fun _ data hdata => ⟨⟨str "@BASE64", by decide⟩, ?_⟩⟩, ⟨rfl, rfl⟩⟩
    exact (Option.some.inj hdata).symm

end Elektra
