import Elektra.Plugin.Ccode
import Elektra.Search.Strings

/-!
# The hexcode plugin

Configured characters are written as an escape character and two hexadecimal digits.

* `CHexData`, `elektraHexcodeOpen`: the table, and how it is filled;
* `elektraHexcodeEncode`, `elektraHexcodeDecode`, with the reads and writes they do;
* `elektraHexcodeSet`, `elektraHexcodeGet`: the rounds over the keys;
* **`hexcode_iff`**: the values that are decoded in bounds, and come back.
-/

namespace Elektra.Hexcode

open Buffer

/-! ## The code -/

/-- `CHexData` without its buffer. -/
structure CHexData where
  hd : UInt8 → Bool
  escape : UInt8

/-- The rounds of the loop over the configuration, from its cursor on. -/
def charsLoop (w : World) (root : KeyRef) : ℕ → KeySet → List UInt8
  | 0, _ => []
  | fuel + 1, ks =>
    match ksNext ks with
    | (none, _) => []
    | (some cur, ks) =>
      let key := w.cell cur
      if keyRel (w.cell root) key = some 1 ∧ (keyBaseName key).length = 2 then
        hexByte (keyBaseName key) :: charsLoop w root fuel ks
      else charsLoop w root fuel ks

/-- NUL, the line feed, the backslash and the space -/
def defaultChars : List UInt8 := [0, 10, 92, 32]

def elektraHexcodeOpen (cb : Callback) (fuel : ℕ) (w : World) : Except Stop CHexData := do
  let (escape, w) ← ksLookupByName cb fuel w (str "/escape") {}
  let escape := match escape with
    | some k => if keyGetValueSize (w.cell k) = 3 then hexByte (keyStringBytes (w.cell k)) else 92
    | none => 92
  let (root, w) ← ksLookupByName cb fuel w (str "/chars") {}
  let chars := match root with
    | none => defaultChars
    | some root => charsLoop w root (w.ks.size + 1) w.ks
  .ok { hd := fun c => decide (c ∈ chars), escape }

def elektraHexcodeConvToHex (c : UInt8) : UInt8 :=
  if c < 10 then 48 + c else if c < 16 then 55 + c else 48

/-- The loop of `elektraHexcodeDecode`: what it writes, or `none` when it reads behind the value. It ends
before the last byte, which only an escape sequence reaches. -/
def decodeLoop (escape : UInt8) : Str → Option Str
  | [] => some []
  | [_] => some []
  | [c, _] => if c = escape then none else some [c]
  | c :: first :: second :: val =>
    if c = escape then
      (decodeLoop escape val).map
        ((elektraHexcodeConvFromHex first * 16 + elektraHexcodeConvFromHex second) :: ·)
    else (decodeLoop escape (first :: second :: val)).map (c :: ·)

/-- The loop of `elektraHexcodeEncode`. -/
def encodeLoop (d : CHexData) : Str → Str
  | [] => []
  | c :: val =>
    if d.hd c then
      d.escape :: elektraHexcodeConvToHex (c / 16) :: elektraHexcodeConvToHex (c % 16) :: encodeLoop d val
    else c :: encodeLoop d val

example (escape : UInt8) (d : CHexData) : decodeLoop escape (encodeLoop d []) = some [] := by
  rw [encodeLoop, decodeLoop]

section Code

variable (d : CHexData)

/-- The buffer and the key; `none` is a read outside of the value or a write outside of the buffer. Without a
byte the size before the last one is the largest. -/
def elektraHexcodeDecode (buf : Str) (cur : Key) : Option (Str × Key) :=
  match valueBytes cur with
  | none => some (buf, cur)
  | some val =>
    if val = [] then none
    else do
      let out ← decodeLoop d.escape val
      let buf ← writeAt buf 0 (out ++ [0])
      some (buf, keySetRaw cur (out ++ [0]))

def elektraHexcodeEncode (buf : Str) (cur : Key) : Option (Str × Key) :=
  match valueBytes cur with
  | none => some (buf, cur)
  | some val =>
    if val = [] then none
    else do
      let out := encodeLoop d val.dropLast
      let buf ← writeAt buf 0 (out ++ [0])
      some (buf, keySetRaw cur (out ++ [0]))

variable (fresh : ℕ → UInt8)

/-- `realloc` to the size, if the buffer is smaller; new memory holds anything. -/
def reserve (buf : Str) (size : ℕ) : Str :=
  if buf.length < size then buf ++ (List.range (size - buf.length)).map fresh else buf

/-- The round of `elektraHexcodeGet` for a key. -/
def getRound (buf : Str) (cur : Key) : Option (Str × Key) :=
  elektraHexcodeDecode d (reserve fresh buf (keyGetValueSize cur)) cur

/-- The round of `elektraHexcodeSet` for a key. -/
def setRound (buf : Str) (cur : Key) : Option (Str × Key) :=
  elektraHexcodeEncode d (reserve fresh buf (keyGetValueSize cur * 3)) cur

/-- A loop over the keys, which share the buffer. -/
def eachKey (round : Str → Key → Option (Str × Key)) : Str → List Key → Option (Str × List Key)
  | buf, [] => some (buf, [])
  | buf, cur :: returned => do
    let (buf, cur) ← round buf cur
    let (buf, returned) ← eachKey round buf returned
    some (buf, cur :: returned)

/-- `pluginConfig` is the contract of the plugin; the buffer is allocated by the first call. -/
def elektraHexcodeGet (pluginConfig : List Key) (buf : Option Str) (returned : List Key) (parentKey : Key) :
    Option (ℤ × Option Str × List Key) :=
  if keyName parentKey = str "system/elektra/modules/hexcode" then
    some (1, buf, pluginConfig.foldl ksAppendValue returned)
  else do
    let (buf, returned) ← eachKey (getRound d fresh) (buf.getD ((List.range 1000).map fresh)) returned
    some (1, some buf, returned)

def elektraHexcodeSet (buf : Option Str) (returned : List Key) : Option (ℤ × Option Str × List Key) := do
  let (buf, returned) ← eachKey (setRound d fresh) (buf.getD ((List.range 1000).map fresh)) returned
  some (1, some buf, returned)

end Code

/-! ## The statements -/

/-- All reads and writes for the value are inside. -/
def Safe (d : CHexData) (k : Key) : Prop :=
  ∀ fresh buf, getRound d fresh buf k ≠ none

/-- The value is recovered from what is stored, whatever the buffers hold. -/
def Recovers (d : CHexData) (k : Key) : Prop :=
  ∃ stored back, (∀ fresh buf, (setRound d fresh buf k).map Prod.snd = some stored) ∧
    (∀ fresh buf, (getRound d fresh buf stored).map Prod.snd = some back) ∧ valueBytes back = valueBytes k

/-- Behind escape sequences of three characters and other characters, an escape character is the last character
before the last byte. -/
def CutOff (escape : UInt8) : Str → Prop
  | [] => False
  | [_] => False
  | [c, _] => c = escape
  | c :: first :: second :: val =>
    if c = escape then CutOff escape val else CutOff escape (first :: second :: val)

/-- The value is null, or it has bytes of which no escape sequence is cut off. -/
def Complete (d : CHexData) (k : Key) : Prop :=
  ∀ val, valueBytes k = some val → val ≠ [] ∧ ¬ CutOff d.escape val

/-- The value is null, or locked, or ends in a NUL. -/
def EndsInNul (k : Key) : Prop :=
  ∀ val, valueBytes k = some val → k.roValue = true ∨ val.getLast? = some 0

/-! ## The loops -/

theorem decodeLoop_eq_none {escape : UInt8} {val : Str} : decodeLoop escape val = none ↔ CutOff escape val := by
  induction val using decodeLoop.induct escape with
  | case1 => simp [decodeLoop, CutOff]
  | case2 c => simp [decodeLoop, CutOff]
  | case3 last => simp [decodeLoop, CutOff]
  | case4 c last hc => simp [decodeLoop, CutOff, hc]
  | case5 first second val ih => simp [decodeLoop, CutOff, ih]
  | case6 c first second val hc ih => simp [decodeLoop, CutOff, hc, ih]

theorem length_decodeLoop {escape : UInt8} {val out : Str} (h : decodeLoop escape val = some out) :
    out.length ≤ val.length - 1 := by
  induction val using decodeLoop.induct escape generalizing out with
  | case1 => simp_all [decodeLoop]
  | case2 c => simp_all [decodeLoop]
  | case3 last => simp [decodeLoop] at h
  | case4 c last hc =>
    rw [decodeLoop, if_neg hc] at h
    rw [← Option.some.inj h]
    exact le_rfl
  | case5 first second val ih =>
    rw [decodeLoop, if_pos rfl, Option.map_eq_some_iff] at h
    obtain ⟨out, hout, rfl⟩ := h
    have := ih hout
    simp only [List.length_cons]
    omega
  | case6 c first second val hc ih =>
    rw [decodeLoop, if_neg hc, Option.map_eq_some_iff] at h
    obtain ⟨out, hout, rfl⟩ := h
    have := ih hout
    simp only [List.length_cons] at this ⊢
    omega

theorem length_encodeLoop (d : CHexData) : ∀ s : Str, (encodeLoop d s).length ≤ 3 * s.length
  | [] => le_rfl
  | c :: s => by
    have ih := length_encodeLoop d s
    rw [encodeLoop]
    split_ifs <;> simp only [List.length_cons] <;> omega

theorem fromHex_toHex : ∀ n < 256, elektraHexcodeConvFromHex (elektraHexcodeConvToHex (UInt8.ofNat n / 16)) * 16 +
    elektraHexcodeConvFromHex (elektraHexcodeConvToHex (UInt8.ofNat n % 16)) = UInt8.ofNat n := by
  decide +kernel

theorem decodeLoop_raw {escape c : UInt8} (hc : c ≠ escape) {s : Str} (hs : s ≠ []) :
    decodeLoop escape (c :: s) = (decodeLoop escape s).map (c :: ·) := by
  match s with
  | [] => exact absurd rfl hs
  | [_] => simp [decodeLoop, hc]
  | first :: second :: val => rw [decodeLoop, if_neg hc]

/-- **What was encoded is decoded, if the escape character is escaped.** -/
theorem decodeLoop_encodeLoop {d : CHexData} (he : d.hd d.escape = true) : ∀ s : Str,
    decodeLoop d.escape (encodeLoop d s ++ [0]) = some s
  | [] => rfl
  | c :: s => by
    have ih := decodeLoop_encodeLoop he s
    rw [encodeLoop]
    split_ifs with hc
    · have hbyte := fromHex_toHex c.toNat c.toNat_lt
      rw [UInt8.ofNat_toNat] at hbyte
      rw [List.cons_append, List.cons_append, List.cons_append, decodeLoop, if_pos rfl, ih, hbyte]
      rfl
    · have hne : c ≠ d.escape := fun h => hc (h ▸ he)
      rw [List.cons_append, decodeLoop_raw hne (by simp), ih]
      rfl

/-! ## The buffer -/

section Rounds

variable {d : CHexData} {fresh : ℕ → UInt8} {buf : Str} {k : Key} {val : Str}

theorem length_reserve (fresh : ℕ → UInt8) (buf : Str) (size : ℕ) : size ≤ (reserve fresh buf size).length := by
  rw [reserve]
  split_ifs with h
  · rw [List.length_append, List.length_map, List.length_range]
    omega
  · omega

theorem size_of_value (hval : valueBytes k = some val) : keyGetValueSize k = val.length := by
  rw [keyGetValueSize, hval]
  rfl

/-- **The round of the decoder**: the buffer has the room. -/
theorem getRound_of (hval : valueBytes k = some val) (hne : val ≠ []) :
    (getRound d fresh buf k).map Prod.snd = (decodeLoop d.escape val).map fun out => keySetRaw k (out ++ [0]) := by
  have hroom := length_reserve fresh buf (keyGetValueSize k)
  have hpos := List.length_pos_of_ne_nil hne
  rw [size_of_value hval] at hroom
  rw [getRound, elektraHexcodeDecode, hval, size_of_value hval]
  dsimp only
  rw [if_neg hne]
  cases hout : decodeLoop d.escape val with
  | none => rfl
  | some out =>
    have hlen := length_decodeLoop hout
    have hwrite := @writeAt_front _ (reserve fresh buf val.length) (out ++ [0])
      (by rw [List.length_append, List.length_singleton]; omega)
    simp only [Option.bind_eq_bind, Option.bind_some, hwrite, Option.map_some]

theorem setRound_of (hval : valueBytes k = some val) (hne : val ≠ []) :
    (setRound d fresh buf k).map Prod.snd = some (keySetRaw k (encodeLoop d val.dropLast ++ [0])) := by
  have hroom := length_reserve fresh buf (keyGetValueSize k * 3)
  have hpos := List.length_pos_of_ne_nil hne
  have hlen := length_encodeLoop d val.dropLast
  rw [List.length_dropLast] at hlen
  rw [size_of_value hval] at hroom
  have hwrite := @writeAt_front _ (reserve fresh buf (val.length * 3)) (encodeLoop d val.dropLast ++ [0])
    (by rw [List.length_append, List.length_singleton]; omega)
  rw [setRound, elektraHexcodeEncode, hval, size_of_value hval]
  dsimp only
  rw [if_neg hne]
  simp only [Option.bind_eq_bind, Option.bind_some, hwrite, Option.map_some]

theorem round_null (hval : valueBytes k = none) : (getRound d fresh buf k).map Prod.snd = some k ∧
    (setRound d fresh buf k).map Prod.snd = some k := by
  rw [getRound, elektraHexcodeDecode, setRound, elektraHexcodeEncode, hval]
  exact ⟨rfl, rfl⟩

theorem getRound_nil (hval : valueBytes k = some []) : getRound d fresh buf k = none := by
  rw [getRound, elektraHexcodeDecode, hval]
  rfl

end Rounds

/-! ## The values -/

section Values

variable {d : CHexData} {k : Key}

/-- **The reads and writes are inside exactly if no escape sequence is cut off.** -/
theorem safe_iff : Safe d k ↔ Complete d k := by
  rw [Safe, Complete]
  cases hval : valueBytes k with
  | none =>
    refine iff_of_true (fun fresh buf h => ?_) fun val h => by cases h
    have := (@round_null d fresh buf k hval).1
    rw [h] at this
    cases this
  | some val =>
    obtain rfl | hne := eq_or_ne val []
    · exact iff_of_false (fun h => h (fun _ => 0) [] (getRound_nil hval)) fun h => (h [] rfl).1 rfl
    · have hiff : ∀ fresh buf, getRound d fresh buf k = none ↔ CutOff d.escape val := by
        intro fresh buf
        rw [← Option.map_eq_none_iff, getRound_of hval hne, Option.map_eq_none_iff, decodeLoop_eq_none]
      simp only [ne_eq, hiff, Option.some.injEq, forall_eq', hne, not_false_eq_true, true_and]
      exact ⟨fun h => h (fun _ => 0) [], fun h _ _ => h⟩

theorem valueBytes_keySetRaw {s : Str} (hro : k.roValue = false) (hs : s ≠ []) :
    valueBytes (keySetRaw k s) = some s := by
  rw [keySetRaw, hro, if_neg Bool.false_ne_true, if_neg hs]
  rfl

/-- **With an escape character that is escaped, the values that end in a NUL are recovered.** -/
theorem recovers_iff (he : d.hd d.escape = true) (hcomplete : Complete d k) : Recovers d k ↔ EndsInNul k := by
  cases hval : valueBytes k with
  | none =>
    refine iff_of_true ⟨k, k, fun _ _ => (round_null hval).2, fun _ _ => (round_null hval).1, rfl⟩ ?_
    intro val h
    rw [hval] at h
    cases h
  | some val =>
    obtain ⟨hne, hcut⟩ := hcomplete val hval
    rw [← decodeLoop_eq_none, ← ne_eq, Option.ne_none_iff_exists'] at hcut
    obtain ⟨out, hout⟩ := hcut
    cases hro : k.roValue with
    | true =>
      have hlocked : ∀ s, keySetRaw k s = k := fun s => by rw [keySetRaw, hro, if_pos rfl]
      refine iff_of_true ⟨k, k, fun fresh buf => ?_, fun fresh buf => ?_, rfl⟩ fun _ _ => Or.inl hro
      · rw [setRound_of hval hne, hlocked]
      · rw [getRound_of hval hne, hout, Option.map_some, hlocked]
    | false =>
      have hstored : ∀ s, valueBytes (keySetRaw k (s ++ [0])) = some (s ++ [0]) := fun s =>
        valueBytes_keySetRaw hro (by simp)
      have hlocked : ∀ s, (keySetRaw k s).roValue = false := fun s => by
        rw [keySetRaw, hro, if_neg Bool.false_ne_true]
      have hset : ∀ fresh buf, (setRound d fresh buf k).map Prod.snd =
          some (keySetRaw k (encodeLoop d val.dropLast ++ [0])) := fun fresh buf => setRound_of hval hne
      have hget : ∀ fresh buf, (getRound d fresh buf (keySetRaw k (encodeLoop d val.dropLast ++ [0]))).map Prod.snd =
          some (keySetRaw (keySetRaw k (encodeLoop d val.dropLast ++ [0])) (val.dropLast ++ [0])) := by
        intro fresh buf
        rw [getRound_of (hstored _) (by simp), decodeLoop_encodeLoop he]
        rfl
      have hback : valueBytes (keySetRaw (keySetRaw k (encodeLoop d val.dropLast ++ [0])) (val.dropLast ++ [0])) =
          some (val.dropLast ++ [0]) := valueBytes_keySetRaw (hlocked _) (by simp)
      constructor
      · intro h val' hval'
        obtain rfl := Option.some.inj (hval.symm.trans hval')
        obtain ⟨stored, back, hs, hb, hv⟩ := h
        obtain rfl := Option.some.inj ((hset (fun _ => 0) []).symm.trans (hs _ _))
        obtain rfl := Option.some.inj ((hget (fun _ => 0) []).symm.trans (hb _ _))
        rw [hback, hval] at hv
        exact Or.inr (by rw [← Option.some.inj hv]; exact List.getLast?_concat)
      · intro h
        have hlast := (h val hval).resolve_left (by rw [hro]; exact Bool.false_ne_true)
        obtain ⟨init, rfl⟩ := List.getLast?_eq_some_iff.mp hlast
        refine ⟨_, _, hset, hget, ?_⟩
        rw [hback, hval, List.dropLast_concat]

end Values

/-- **A value is decoded in bounds and, if the escape character is escaped, recovered from what is stored, exactly
if no escape sequence is cut off and, in that case, it ends in a NUL.** -/
theorem hexcode_iff (d : CHexData) (k : Key) : (Safe d k ∧ (d.hd d.escape = true → Recovers d k)) ↔
    Complete d k ∧ (d.hd d.escape = true → EndsInNul k) := by
  rw [safe_iff]
  exact and_congr_right fun hcomplete => forall_congr' fun he => recovers_iff he hcomplete

/-- A backslash at the end of a string, with the default configuration. -/
def hexcodeData : CHexData where
  hd := fun c => decide (c ∈ defaultChars)
  escape := 92

theorem not_hexcode : elektraHexcodeOpen noCallback 1 (worldOf []) = .ok hexcodeData ∧
    ¬ (Safe hexcodeData (keySetString (keyNewName (str "user/a")) [97, 92]) ∧
      (hexcodeData.hd hexcodeData.escape = true →
        Recovers hexcodeData (keySetString (keyNewName (str "user/a")) [97, 92]))) := by
  refine ⟨rfl, fun h => ?_⟩
  have hval : valueBytes (keySetString (keyNewName (str "user/a")) [97, 92]) = some [97, 92, 0] := by decide +kernel
  have hloop : decodeLoop hexcodeData.escape [97, 92, 0] = none := by decide
  have hround := @getRound_of hexcodeData (fun _ => 0) [] _ _ hval (by decide)
  rw [hloop, Option.map_none, Option.map_eq_none_iff] at hround
  exact h.1 _ _ hround

/-! ## The keys -/

/-- Two loops over the keys, each with rounds that leave of a key what does not depend on the buffer. -/
theorem eachKey_pair {round round' : Str → Key → Option (Str × Key)} {R : Key → Key → Prop} {ks : List Key}
    (h : ∀ k ∈ ks, ∃ stored back, (∀ buf, (round buf k).map Prod.snd = some stored) ∧
      (∀ buf, (round' buf stored).map Prod.snd = some back) ∧ R k back) (buf buf' : Str) :
    ∃ b stored b' back, eachKey round buf ks = some (b, stored) ∧ eachKey round' buf' stored = some (b', back) ∧
      List.Forall₂ R ks back := by
  induction ks generalizing buf buf' with
  | nil => exact ⟨buf, [], buf', [], rfl, rfl, .nil⟩
  | cons k ks ih =>
    obtain ⟨s, k', hs, hk', hR⟩ := h k List.mem_cons_self
    obtain ⟨⟨buf₁, s₁⟩, hrun, rfl⟩ := Option.map_eq_some_iff.mp (hs buf)
    obtain ⟨⟨buf₁', k₁⟩, hrun', rfl⟩ := Option.map_eq_some_iff.mp (hk' buf')
    obtain ⟨b, stored, b', back, hset, hget, hall⟩ := ih (fun x hx => h x (List.mem_cons_of_mem k hx)) buf₁ buf₁'
    refine ⟨b, s₁ :: stored, b', k₁ :: back, ?_, ?_, .cons hR hall⟩
    · rw [eachKey, hrun]
      simp only [Option.bind_eq_bind, Option.bind_some, hset]
    · rw [eachKey, hrun']
      simp only [Option.bind_eq_bind, Option.bind_some, hget]

/-- **`elektraHexcodeGet` recovers the values of the keys that `elektraHexcodeSet` was given**, one buffer for all. -/
theorem hexcode_round_trip (d : CHexData) (he : d.hd d.escape = true) (fresh fresh' : ℕ → UInt8) (pluginConfig : List Key)
    (buf buf' : Option Str) (ks : List Key) (parentKey : Key)
    (hparent : keyName parentKey ≠ str "system/elektra/modules/hexcode")
    (hks : ∀ k ∈ ks, Complete d k ∧ EndsInNul k) :
    ∃ b stored b' back, elektraHexcodeSet d fresh buf ks = some (1, some b, stored) ∧
      elektraHexcodeGet d fresh' pluginConfig buf' stored parentKey = some (1, some b', back) ∧
      List.Forall₂ (fun k k' => valueBytes k' = valueBytes k) ks back := by
  obtain ⟨b, stored, b', back, hset, hget, hall⟩ := eachKey_pair
    (fun k hk => by
      obtain ⟨stored, back, hs, hb, hv⟩ := (recovers_iff he (hks k hk).1).mpr (hks k hk).2
      exact ⟨stored, back, hs fresh, hb fresh', hv⟩)
    (buf.getD ((List.range 1000).map fresh)) (buf'.getD ((List.range 1000).map fresh'))
  refine ⟨b, stored, b', back, ?_, ?_, hall⟩
  · rw [elektraHexcodeSet, hset]
    rfl
  · rw [elektraHexcodeGet, if_neg hparent, hget]
    rfl

theorem hexcode_round_trip_one : ∃ b stored b' back,
    elektraHexcodeSet hexcodeData (fun _ => 0) none [keySetString (keyNewName (str "user/a")) (str "a=b")] =
      some (1, some b, stored) ∧
    elektraHexcodeGet hexcodeData (fun _ => 0) [] none stored (keyNewName (str "user")) = some (1, some b', back) ∧
    List.Forall₂ (fun k k' => valueBytes k' = valueBytes k)
      [keySetString (keyNewName (str "user/a")) (str "a=b")] back := by
  have hval : valueBytes (keySetString (keyNewName (str "user/a")) (str "a=b")) = some (str "a=b" ++ [0]) := rfl
  refine hexcode_round_trip _ (by decide) _ _ _ _ _ _ _ (by decide)
    (List.forall_mem_singleton.mpr ⟨fun val h => ?_, fun val h => .inr ?_⟩)
  all_goals obtain rfl := Option.some.inj (hval.symm.trans h)
  · exact ⟨by decide, fun hcut => absurd (decodeLoop_eq_none.mpr hcut) (by decide)⟩
  · rfl

end Elektra.Hexcode
