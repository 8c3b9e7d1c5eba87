import Elektra.KeySet.Relation
import Elektra.Lookup.Resolve
import Elektra.Plugin.Value

/-!
# The ccode plugin

Characters are written as an escape character and a code; which characters, and the codes, are
configured.

* `CCodeData`, `elektraCcodeOpen`: the tables, and how they are filled;
* `elektraCcodeEncode`, `elektraCcodeDecode`, `elektraCcodeSet`, `elektraCcodeGet`;
* `Coded`: the values that come back;
* **`ccode_round_trip`**.

Three defects keep values from coming back: the last byte of a value is taken for the NUL of a
string, also in a binary; an escape character from `0x80` on is a negative `char`, which the decoder
compares with an unsigned one; and nothing makes sure that the escape character is escaped itself.
-/

namespace Elektra

/-! ## The tables -/

/-- `CCodeData` without its buffer, which is large enough. -/
structure CCodeData where
  encode : UInt8 → UInt8
  decode : UInt8 → UInt8
  escape : UInt8

/-- Characters and their codes, as the loops of `elektraCcodeOpen` store them. -/
def CCodeData.store (d : CCodeData) (chars : List (UInt8 × UInt8)) : CCodeData :=
  chars.foldl (fun d c => { d with
    encode := Function.update d.encode c.1 c.2
    decode := Function.update d.decode c.2 c.1 }) d

/-- The integer number 0-15 of a hex character; `0` for others. -/
def elektraHexcodeConvFromHex (c : UInt8) : UInt8 :=
  if 48 ≤ c ∧ c ≤ 57 then c - 48
  else if 97 ≤ c ∧ c ≤ 102 then c - 87
  else if 65 ≤ c ∧ c ≤ 70 then c - 55
  else 0

/-- `res & 255` of two characters. -/
def hexByte (s : Str) : UInt8 :=
  elektraHexcodeConvFromHex (s.getD 0 0) * 16 + elektraHexcodeConvFromHex (s.getD 1 0)

/-- The bytes that `keyString` points to. -/
def keyStringBytes (key : Key) : Str :=
  match key.data with
  | none => [0]
  | some data => if keyIsBinary key then str "(binary)" else data

/-- The default mapping. -/
def ccodeDefault : List (UInt8 × UInt8) :=
  [(8, 98), (9, 116), (10, 110), (11, 118), (12, 102), (13, 114), (92, 92), (39, 39), (34, 34), (0, 48)]

/-- The rounds of the loop over the configuration: the characters that are configured directly below
`root`, with their codes. -/
def charsLoop (w : World) (root : KeyRef) : ℕ → KeySet → List (UInt8 × UInt8)
  | 0, _ => []
  | fuel + 1, ks =>
    match ksNext ks with
    | (none, _) => []
    | (some cur, ks) =>
      let key := w.cell cur
      if keyRel (w.cell root) key = some 1 ∧ (keyBaseName key).length = 2 ∧ keyGetValueSize key = 3 then
        (hexByte (keyBaseName key), hexByte (keyStringBytes key)) :: charsLoop w root fuel ks
      else charsLoop w root fuel ks

/-- The plugin data, and the mapping that it was filled from; `w` is the configuration. -/
def elektraCcodeOpen (cb : Callback) (fuel : ℕ) (w : World) :
    Except Stop (CCodeData × List (UInt8 × UInt8)) := do
  let (escape, w) ← ksLookupByName cb fuel w (str "/escape") {}
  let escape := match escape with
    | some k => if keyGetValueSize (w.cell k) = 3 then hexByte (keyStringBytes (w.cell k)) else 92
    | none => 92
  let d : CCodeData := { encode := fun _ => 0, decode := fun _ => 0, escape := escape }
  let (root, w) ← ksLookupByName cb fuel w (str "/chars") {}
  let chars := match root with
    | none => ccodeDefault
    | some root => charsLoop w root (w.ks.size + 1) w.ks
  .ok (d.store chars, chars)

/-! ## Encoding and decoding -/

/-- A plain `char` as an integer; it is signed. -/
def charToInt (c : UInt8) : ℤ := if c < 128 then c.toNat else c.toNat - 256

section Code

variable (d : CCodeData)

/-- The loop of `elektraCcodeEncode`. -/
def encodeLoop : Str → Str
  | [] => []
  | c :: val =>
    if d.encode c ≠ 0 then d.escape :: d.encode c :: encodeLoop val else c :: encodeLoop val

/-- The last byte is not read. -/
def elektraCcodeEncode (cur : Key) : Key :=
  match valueBytes cur with
  | none => cur
  | some val => keySetRaw cur (encodeLoop d val.dropLast ++ [0])

/-- The loop of `elektraCcodeDecode`. It ends before the last byte, which only an escape character
right before it reaches. -/
def ccodeDecodeLoop : Str → Str
  | [] => []
  | [_] => []
  | c :: n :: val =>
    if c.toNat = charToInt d.escape then d.decode n :: ccodeDecodeLoop val
    else c :: ccodeDecodeLoop (n :: val)

def elektraCcodeDecode (cur : Key) : Key :=
  match valueBytes cur with
  | none => cur
  | some val => keySetRaw cur (ccodeDecodeLoop d val ++ [0])

def elektraCcodeSet (returned : List Key) : ℤ × List Key := (1, returned.map (elektraCcodeEncode d))

/-- `pluginConfig` is the contract of the plugin. -/
def elektraCcodeGet (pluginConfig returned : List Key) (parentKey : Key) : ℤ × List Key :=
  if keyName parentKey = str "system/elektra/modules/ccode" then
    (1, pluginConfig.foldl ksAppendValue returned)
  else (1, returned.map (elektraCcodeDecode d))

end Code

/-! ## The tables that are filled -/

section Store

variable (d : CCodeData) {chars : List (UInt8 × UInt8)}

theorem store_concat (chars : List (UInt8 × UInt8)) (x : UInt8 × UInt8) :
    d.store (chars ++ [x]) = { d.store chars with
      encode := Function.update (d.store chars).encode x.1 x.2
      decode := Function.update (d.store chars).decode x.2 x.1 } := by
  rw [CCodeData.store, List.foldl_append]
  rfl

theorem store_encode (chars : List (UInt8 × UInt8)) (c : UInt8) :
    (c, (d.store chars).encode c) ∈ chars ∨
      (d.store chars).encode c = d.encode c ∧ ∀ v, (c, v) ∉ chars := by
  induction chars using List.reverseRecOn with
  | nil => exact Or.inr ⟨rfl, fun _ => List.not_mem_nil⟩
  | append_singleton chars x ih =>
    rw [store_concat]
    by_cases hx : c = x.1
    · subst hx
      exact Or.inl (by simp)
    · dsimp only
      rw [Function.update_of_ne hx]
      refine ih.imp (fun h => List.mem_append_left _ h) fun ⟨he, h⟩ => ⟨he, fun v hv => ?_⟩
      rw [List.mem_append, List.mem_singleton] at hv
      exact hv.elim (h v) fun hv => hx (congrArg Prod.fst hv)

theorem store_decode (chars : List (UInt8 × UInt8)) (v : UInt8) :
    ((d.store chars).decode v, v) ∈ chars ∨
      (d.store chars).decode v = d.decode v ∧ ∀ c, (c, v) ∉ chars := by
  induction chars using List.reverseRecOn with
  | nil => exact Or.inr ⟨rfl, fun _ => List.not_mem_nil⟩
  | append_singleton chars x ih =>
    rw [store_concat]
    by_cases hx : v = x.2
    · subst hx
      exact Or.inl (by simp)
    · dsimp only
      rw [Function.update_of_ne hx]
      refine ih.imp (fun h => List.mem_append_left _ h) fun ⟨he, h⟩ => ⟨he, fun c hc => ?_⟩
      rw [List.mem_append, List.mem_singleton] at hc
      exact hc.elim (h c) fun hc => hx (congrArg Prod.snd hc)

end Store

/-- No two characters are mapped to the same code. -/
def Distinct (chars : List (UInt8 × UInt8)) : Prop :=
  ∀ x ∈ chars, ∀ y ∈ chars, x.2 = y.2 → x.1 = y.1

instance (chars : List (UInt8 × UInt8)) : Decidable (Distinct chars) :=
  haveI (x : UInt8 × UInt8) : Decidable (∀ y ∈ chars, x.2 = y.2 → x.1 = y.1) :=
    List.decidableBAll _ chars
  List.decidableBAll _ chars

/-- `d` was filled from distinct codes. -/
structure Filled (d : CCodeData) (chars : List (UInt8 × UInt8)) : Prop where
  distinct : Distinct chars
  encode : ∀ c, (c, d.encode c) ∈ chars ∨ d.encode c = 0 ∧ ∀ v, (c, v) ∉ chars
  decode : ∀ v, (d.decode v, v) ∈ chars ∨ d.decode v = 0 ∧ ∀ c, (c, v) ∉ chars

theorem elektraCcodeOpen_filled {cb : Callback} {fuel : ℕ} {w : World} {d : CCodeData}
    {chars : List (UInt8 × UInt8)} (h : elektraCcodeOpen cb fuel w = .ok (d, chars))
    (hd : Distinct chars) : Filled d chars := by
  unfold elektraCcodeOpen at h
  obtain ⟨e, -, h⟩ := except_bind_ok h
  obtain ⟨r, -, h⟩ := except_bind_ok h
  obtain ⟨rfl, rfl⟩ := Prod.mk.inj (Except.ok.inj h)
  exact ⟨hd, store_encode _ _, store_decode _ _⟩

section Filled

variable {d : CCodeData} {chars : List (UInt8 × UInt8)}

theorem Filled.decode_encode (hd : Filled d chars) {c : UInt8} (hc : d.encode c ≠ 0) :
    d.decode (d.encode c) = c := by
  have hmem := (hd.encode c).resolve_right fun h => hc h.1
  have hmem' := (hd.decode (d.encode c)).resolve_right fun h => h.2 c hmem
  exact hd.distinct _ hmem' _ hmem rfl

theorem Filled.decode_ne (hd : Filled d chars) (h0 : d.escape ≠ 0) (hcode : (d.escape, 0) ∉ chars)
    (he : d.encode d.escape = 0) (v : UInt8) : d.decode v ≠ d.escape := by
  intro hv
  obtain h | ⟨-, h⟩ := hd.encode d.escape
  · rw [he] at h
    exact hcode h
  · obtain h' | ⟨h', -⟩ := hd.decode v
    · rw [hv] at h'
      exact h v h'
    · exact h0 (hv.symm.trans h')

end Filled

/-! ## The round trip -/

section RoundTrip

variable (d : CCodeData)

/-- The character is escaped by a character that the decoder knows, or is no such character. -/
def Escapes (c : UInt8) : Prop :=
  if d.encode c ≠ 0 then d.escape < 128 else d.escape < 128 → c ≠ d.escape

instance (c : UInt8) : Decidable (Escapes d c) := by
  unfold Escapes
  infer_instance

/-- The value is null, or it ends in a NUL and the decoder can tell all of its characters. -/
def Coded (k : Key) : Prop :=
  ∀ val, valueBytes k = some val → val.getLast? = some 0 ∧ ∀ c ∈ val.dropLast, Escapes d c

variable {d}

theorem toNat_eq_charToInt {c e : UInt8} : (c.toNat : ℤ) = charToInt e ↔ e < 128 ∧ c = e := by
  have hc := c.toNat_lt
  have he := e.toNat_lt
  rw [charToInt, ← UInt8.toNat_inj]
  split_ifs with h
  · simp [h]
  · simp only [h, false_and, iff_false]
    omega

theorem ccodeDecodeLoop_raw {c : UInt8} (hc : d.escape < 128 → c ≠ d.escape) (s : Str) :
    ccodeDecodeLoop d (c :: s ++ [0]) = c :: ccodeDecodeLoop d (s ++ [0]) := by
  have hne : ¬ (c.toNat : ℤ) = charToInt d.escape := fun h =>
    hc (toNat_eq_charToInt.mp h).1 (toNat_eq_charToInt.mp h).2
  cases s with
  | nil => rw [List.singleton_append, ccodeDecodeLoop, if_neg hne]; rfl
  | cons n s => rw [List.cons_append, List.cons_append, ccodeDecodeLoop, if_neg hne]

theorem ccodeDecodeLoop_escape (he : d.escape < 128) (c : UInt8) (s : Str) :
    ccodeDecodeLoop d (d.escape :: c :: s ++ [0]) = d.decode c :: ccodeDecodeLoop d (s ++ [0]) := by
  rw [List.cons_append, List.cons_append, ccodeDecodeLoop, if_pos (toNat_eq_charToInt.mpr ⟨he, rfl⟩)]

theorem ccodeDecodeLoop_negative (he : ¬ d.escape < 128) : ∀ s : Str,
    ccodeDecodeLoop d (s ++ [0]) = s
  | [] => rfl
  | c :: s => by
    rw [ccodeDecodeLoop_raw (fun h => absurd h he), ccodeDecodeLoop_negative he s]

variable {chars : List (UInt8 × UInt8)}

theorem ccodeDecodeLoop_encodeLoop (hd : Filled d chars) : ∀ s : Str, (∀ c ∈ s, Escapes d c) →
    ccodeDecodeLoop d (encodeLoop d s ++ [0]) = s
  | [], _ => rfl
  | c :: s, hs => by
    have ih := ccodeDecodeLoop_encodeLoop hd s fun x hx => hs x (List.mem_cons_of_mem c hx)
    have hc := hs c List.mem_cons_self
    rw [Escapes] at hc
    rw [encodeLoop]
    split_ifs at hc ⊢ with h
    · rw [ccodeDecodeLoop_escape hc, ih, hd.decode_encode h]
    · rw [ccodeDecodeLoop_raw hc, ih]

theorem length_encodeLoop_le : ∀ s : Str, s.length ≤ (encodeLoop d s).length
  | [] => le_rfl
  | c :: s => by
    have ih := length_encodeLoop_le s
    rw [encodeLoop]
    split_ifs
    · simp only [List.length_cons]
      omega
    · simpa using ih

theorem encode_of_encodeLoop : ∀ {s : Str}, encodeLoop d s = s → ∀ c ∈ s, d.encode c = 0
  | x :: s, h, c, hc => by
    rw [encodeLoop] at h
    split_ifs at h with hx
    · have hlen := congrArg List.length h
      have hle := @length_encodeLoop_le d s
      simp only [List.length_cons] at hlen
      omega
    · obtain ⟨-, h⟩ := List.cons.inj h
      obtain rfl | hc := List.mem_cons.mp hc
      · exact not_not.mp hx
      · exact encode_of_encodeLoop h c hc

/-- Only characters that the decoder can tell come back, unless the escape character is itself the
code of a character although it is not escaped. -/
theorem escapes_of_encodeLoop (hd : Filled d chars) (h0 : d.escape ≠ 0)
    (hcode : (d.escape, 0) ∉ chars) : ∀ s : Str,
    ccodeDecodeLoop d (encodeLoop d s ++ [0]) = s → ∀ c ∈ s, Escapes d c := by
  by_cases he : d.escape < 128
  · intro s
    induction s with
    | nil => exact fun _ c hc => absurd hc List.not_mem_nil
    | cons x s ih =>
      intro h
      have hx : Escapes d x ∧ ccodeDecodeLoop d (encodeLoop d s ++ [0]) = s := by
        rw [encodeLoop] at h
        rw [Escapes]
        split_ifs at h ⊢ with hx
        · rw [ccodeDecodeLoop_escape he] at h
          exact ⟨he, (List.cons.inj h).2⟩
        · by_cases hxe : x = d.escape
          · -- the byte behind it is taken for a code
            exfalso
            obtain ⟨n, t, ht⟩ : ∃ n t, encodeLoop d s ++ [0] = n :: t :=
              List.exists_cons_of_ne_nil (by simp)
            rw [List.cons_append, ht, ccodeDecodeLoop, if_pos (toNat_eq_charToInt.mpr ⟨he, hxe⟩)] at h
            rw [not_not, hxe] at hx
            exact hd.decode_ne h0 hcode hx n ((List.cons.inj h).1.trans hxe)
          · rw [ccodeDecodeLoop_raw fun _ => hxe] at h
            exact ⟨fun _ => hxe, (List.cons.inj h).2⟩
      rintro c hc
      obtain rfl | hc := List.mem_cons.mp hc
      · exact hx.1
      · exact ih hx.2 c hc
  · intro s h c hc
    rw [ccodeDecodeLoop_negative he] at h
    rw [Escapes, encode_of_encodeLoop h c hc, if_neg (not_not.mpr rfl)]
    exact fun h => absurd h he

theorem valueBytes_decode_encode {k : Key} (hk : k.roValue = false) :
    valueBytes (elektraCcodeDecode d (elektraCcodeEncode d k)) = (valueBytes k).map fun val =>
      ccodeDecodeLoop d (encodeLoop d val.dropLast ++ [0]) ++ [0] := by
  have hraw : ∀ (k : Key) (s : Str), k.roValue = false →
      valueBytes (keySetRaw k (s ++ [0])) = some (s ++ [0]) ∧
      (keySetRaw k (s ++ [0])).roValue = false := by
    intro k s hk
    rw [keySetRaw, hk, if_neg Bool.false_ne_true]
    exact ⟨by simp [valueBytes], rfl⟩
  rw [elektraCcodeEncode]
  cases hv : valueBytes k with
  | none =>
    dsimp only
    rw [elektraCcodeDecode, hv]
    exact hv
  | some val =>
    obtain ⟨hval, hro⟩ := hraw k (encodeLoop d val.dropLast) hk
    dsimp only
    rw [elektraCcodeDecode, hval]
    exact (hraw _ _ hro).1

theorem valueBytes_ne_nil {k : Key} (hv : Valued k) {val : Str} (h : valueBytes k = some val) :
    val ≠ [] := by
  have hne := hv.nonempty
  rintro rfl
  rw [valueBytes] at h
  cases hd : k.data with
  | none =>
    rw [hd] at h
    dsimp only at h
    split_ifs at h
    cases h
  | some data =>
    rw [hd] at h hne
    exact hne h

theorem value_iff {k : Key} (hv : Valued k) (hk : k.roValue = false) :
    valueBytes (elektraCcodeDecode d (elektraCcodeEncode d k)) = valueBytes k ↔
      ∀ val, valueBytes k = some val → val.getLast? = some 0 ∧
        ccodeDecodeLoop d (encodeLoop d val.dropLast ++ [0]) = val.dropLast := by
  rw [valueBytes_decode_encode hk]
  cases hval : valueBytes k with
  | none => simp
  | some val =>
    have hne := valueBytes_ne_nil hv hval
    have hlast : val.dropLast ++ [val.getLast hne] = val := List.dropLast_append_getLast hne
    rw [Option.map_some, Option.some.injEq]
    constructor
    · rintro h val' hval'
      obtain rfl := Option.some.inj hval'
      have h' := h.trans hlast.symm
      obtain ⟨hinit, hz⟩ := List.append_inj' h' rfl
      exact ⟨by rw [List.getLast?_eq_some_getLast hne, ← (List.cons.inj hz).1], hinit⟩
    · intro h
      obtain ⟨hz, hinit⟩ := h val rfl
      rw [List.getLast?_eq_some_getLast hne] at hz
      rw [hinit, ← Option.some.inj hz]
      exact hlast

end RoundTrip

/-- **`elektraCcodeGet` recovers the values that `elektraCcodeSet` was given, where they can be told;
and only there, unless the escape character is NUL or configured with the code NUL.** -/
theorem ccode_round_trip (cb : Callback) (fuel : ℕ) (config : World) (d : CCodeData)
    (chars : List (UInt8 × UInt8)) (hopen : elektraCcodeOpen cb fuel config = .ok (d, chars))
    (hchars : Distinct chars) (pluginConfig ks : List Key) (parentKey : Key)
    (hparent : keyName parentKey ≠ str "system/elektra/modules/ccode")
    (hks : ∀ k ∈ ks, Valued k ∧ Unlocked k) :
    ((∀ k ∈ ks, Coded d k) → List.Forall₂ (fun k k' => valueBytes k' = valueBytes k) ks
      (elektraCcodeGet d pluginConfig (elektraCcodeSet d ks).2 parentKey).2) ∧
    (d.escape ≠ 0 → (d.escape, 0) ∉ chars →
      List.Forall₂ (fun k k' => valueBytes k' = valueBytes k) ks
        (elektraCcodeGet d pluginConfig (elektraCcodeSet d ks).2 parentKey).2 → ∀ k ∈ ks, Coded d k) := by
  have hd := elektraCcodeOpen_filled hopen hchars
  have hall : List.Forall₂ (fun k k' => valueBytes k' = valueBytes k) ks
      (elektraCcodeGet d pluginConfig (elektraCcodeSet d ks).2 parentKey).2 ↔
      ∀ k ∈ ks, valueBytes (elektraCcodeDecode d (elektraCcodeEncode d k)) = valueBytes k := by
    rw [elektraCcodeGet, if_neg hparent, elektraCcodeSet]
    dsimp only
    rw [List.map_map, List.forall₂_map_right_iff, List.forall₂_same]
    rfl
  rw [hall]
  constructor
  · intro h k hk
    obtain ⟨hv, hro⟩ := hks k hk
    refine (value_iff hv hro.value).mpr fun val hval => ?_
    obtain ⟨hlast, hesc⟩ := h k hk val hval
    exact ⟨hlast, ccodeDecodeLoop_encodeLoop hd _ hesc⟩
  · intro h0 hcode h k hk val hval
    obtain ⟨hv, hro⟩ := hks k hk
    obtain ⟨hlast, hinit⟩ := (value_iff hv hro.value).mp (h k hk) val hval
    exact ⟨hlast, escapes_of_encodeLoop hd h0 hcode _ hinit⟩

/-- The tables of the default mapping. -/
def ccodeData : CCodeData :=
  CCodeData.store { encode := fun _ => 0, decode := fun _ => 0, escape := 92 } ccodeDefault

/-- A string with a newline and a backslash. -/
theorem ccode_round_trip_default :
    let ks := [keySetString (keyNewName (str "user/a")) [10, 92, 97]]
    List.Forall₂ (fun k k' => valueBytes k' = valueBytes k) ks
      (elektraCcodeGet ccodeData [] (elektraCcodeSet ccodeData ks).2 (keyNewName (str "user"))).2 := by
  intro ks
  have hopen : elektraCcodeOpen noCallback 1 (worldOf []) = .ok (ccodeData, ccodeDefault) := rfl
  have hvalue : ∀ k ∈ ks, Valued k ∧ Unlocked k := by
    intro k hk
    obtain rfl := List.mem_singleton.mp hk
    refine ⟨⟨by decide +kernel, fun _ data hdata => ⟨⟨[10, 92, 97], by decide⟩, ?_⟩⟩, ⟨rfl, rfl⟩⟩
    exact (Option.some.inj hdata).symm
  refine (ccode_round_trip noCallback 1 (worldOf []) ccodeData ccodeDefault hopen (by decide) [] ks
    (keyNewName (str "user")) (by decide +kernel) hvalue).1 ?_
  intro k hk val hval
  obtain rfl := List.mem_singleton.mp hk
  obtain rfl := Option.some.inj hval
  decide +kernel

/-- The last byte of a binary is lost. -/
theorem not_ccode_round_trip_binary :
    let k := keySetBinary (keyNewName (str "user/a")) (some [97])
    elektraCcodeOpen noCallback 1 (worldOf []) = .ok (ccodeData, ccodeDefault) ∧
      Distinct ccodeDefault ∧
      (elektraCcodeGet ccodeData [] (elektraCcodeSet ccodeData [k]).2 (keyNewName (str "user"))).2.map
        valueBytes ≠ [k].map valueBytes :=
  ⟨rfl, by decide, by decide +kernel⟩

end Elektra
