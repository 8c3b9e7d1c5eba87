import Elektra.Plugin.Value

/-!
# The boolean plugin

A get gives the keys of type `boolean` one of two canonical values and remembers the spelling it found
as metadata; a set puts the spelling back, whatever the value is by then.

* `stricmp`, `strToArray`, `parseConfig`, `normalize`; `elektraBooleanGet`, `elektraBooleanSet`;
* `Reads`, `normalize_reads`, `setKey_reads`: a key as its data and its metadata;
* `RoundTrip`, `EditsKept`, **`boolean_cycle`**: which values a get and a set give back, and when a value
  that was set in between survives.
-/

namespace Elektra.Boolean

/-! ## The code -/

def DEFAULT_TRUE_VALUE : CString := ⟨str "1", by decide⟩

def DEFAULT_FALSE_VALUE : CString := ⟨str "0", by decide⟩

abbrev InvalidAction := UInt32

def TRUE : InvalidAction := 1

def FALSE : InvalidAction := 2

def WARNING : InvalidAction := 4

/-- The strings in the configuration of the plugin, by the names of their keys. -/
structure Config where
  onTrue : Option CString
  onFalse : Option CString
  onInvalid : Option CString
  onInvalidWarning : Option CString
  validTrue : Option CString
  validFalse : Option CString

structure BoolData where
  trueValue : CString
  falseValue : CString
  invalid : InvalidAction
  trueValues : Option (List Str)
  falseValues : Option (List Str)

def stricmp : Str → Str → ℤ
  | [], [] => 0
  | [], _ => -1
  | _, [] => 1
  | c1 :: s1, c2 :: s2 =>
    if toupper c1 = toupper c2 then stricmp s1 s2 else (toupper c1).toNat - (toupper c2).toNat

def isTrue (value : Str) (trueValues : List Str) : Bool := trueValues.any fun s => stricmp value s = 0

def isFalse (value : Str) (falseValues : List Str) : Bool := falseValues.any fun s => stricmp value s = 0

def defaultTrueValues : List Str :=
  [str "TRUE", str "1", str "ON", str "ENABLE", str "ENABLED", str "YES"]

def defaultFalseValues : List Str :=
  [str "FALSE", str "0", str "OFF", str "DISABLE", str "DISABLED", str "NO", str "NOT"]

/-- `strtok_r` passes over empty tokens. Without any token, the address of the array is freed, which is
not an address that was allocated. -/
def strToArray (values : Str) : Option (List Str) :=
  match (values.splitOn 59).filter (· ≠ []) with
  | [] => none
  | tokens => some (tokens.map fun token => token.dropWhile (· = 32))

/-- The flags in `invalid`. -/
def parseInvalid (config : Config) : InvalidAction :=
  let invalid := if config.onInvalid.isNone ∧ config.onInvalidWarning.isNone then TRUE ||| WARNING else 0
  let invalid :=
    match config.onInvalid with
    | some s => if stricmp s (str "FALSE") = 0 then invalid ||| FALSE else invalid ||| TRUE
    | none => invalid
  match config.onInvalidWarning with
  | some s =>
    if stricmp s (str "TRUE") = 0 then invalid ||| WARNING
    else if stricmp s (str "FALSE") = 0 then invalid &&& WARNING
    else invalid ||| WARNING
  | none => invalid

/-- A list of values that is configured. -/
def parseValues (values : Option CString) : Option (Option (List Str)) :=
  match values with
  | some values => (strToArray values).map some
  | none => some none

/-- `none` where a list has no token. -/
def parseConfig (config : Config) : Option BoolData := do
  let trueValues ← parseValues config.validTrue
  let falseValues ← parseValues config.validFalse
  some {
    trueValue := config.onTrue.getD DEFAULT_TRUE_VALUE
    falseValue := config.onFalse.getD DEFAULT_FALSE_VALUE
    invalid := parseInvalid config
    trueValues := trueValues
    falseValues := falseValues }

/-- What the switch is on. -/
def BoolData.mode (data : BoolData) : InvalidAction := data.invalid &&& ~~~WARNING

def moduleName : Str := str "system/elektra/modules/boolean"

section Calls

variable (env : Environment) (config : Config) (moduleConfig : List Key)

def warnInvalid (data : BoolData) (parentKey key : Key) (value : Str) : Key :=
  if data.invalid &&& WARNING ≠ 0 then
    env.addWarning 154 parentKey (str "Key " ++ keyName key ++ str " with value " ++ keyString key ++
      str " is not a valid boolean. Defaulting to " ++ value ++ str ".")
  else parentKey

/-- The parent key takes the warnings. -/
def normalize (data : BoolData) (parentKey key : Key) : Key × Key :=
  let value := keyString key
  if isTrue value (data.trueValues.getD defaultTrueValues) then
    (parentKey, keySetString (keySetMeta key (str "origvalue") (some (keyString key))).2 data.trueValue)
  else if isFalse value (data.falseValues.getD defaultFalseValues) then
    (parentKey, keySetString (keySetMeta key (str "origvalue") (some (keyString key))).2 data.falseValue)
  else
    let key := (keySetMeta key (str "boolean/invalid") (some [])).2
    if data.mode = TRUE then
      (warnInvalid env data parentKey key data.trueValue,
        keySetString (keySetMeta key (str "originalvalue") (some (keyString key))).2 data.trueValue)
    else if data.mode = FALSE then
      (warnInvalid env data parentKey key data.falseValue,
        keySetString (keySetMeta key (str "origvalue") (some (keyString key))).2 data.falseValue)
    else (parentKey, key)

/-- The test of the metadata `type`. -/
def IsBoolean (key : Key) : Prop := keyGetMeta key (str "type") = some (str "boolean")

instance (key : Key) : Decidable (IsBoolean key) :=
  inferInstanceAs (Decidable (keyGetMeta key (str "type") = some (str "boolean")))

/-- The loop of `elektraBooleanGet`. -/
def getLoop (data : BoolData) (parentKey : Key) : List Key → Key × List Key
  | [] => (parentKey, [])
  | key :: returned =>
    let (parentKey, key) := if IsBoolean key then normalize env data parentKey key else (parentKey, key)
    let (parentKey, returned) := getLoop data parentKey returned
    (parentKey, key :: returned)

/-- The first get reads the configuration, and the handle keeps what it says. -/
def elektraBooleanGet (handle : Option BoolData) (returned : List Key) (parentKey : Key) :
    Option (ℤ × Option BoolData × List Key × Key) :=
  if keyName parentKey = moduleName then
    some (1, handle, moduleConfig.foldl ksAppendValue returned, parentKey)
  else do
    let data ← handle.or (parseConfig config)
    let (parentKey, returned) := getLoop env data parentKey returned
    some (1, some data, returned, parentKey)

def restoreValue (key : Key) (origName : Str) : Key :=
  (keySetMeta (keySetString key origName) (str "origvalue") none).2

/-- The round of `elektraBooleanSet` for a key: the return value so far, the key that takes the error
and the key. -/
def setKey (data : BoolData) (retVal : ℤ) (parentKey key : Key) : ℤ × Key × Key :=
  if IsBoolean key then
    let nameMeta := keyGetMeta key (str "origvalue")
    let (retVal, parentKey, key) :=
      if ¬(keyString key = data.trueValue ∨ keyString key = data.falseValue) ∨
          (keyGetMeta key (str "boolean/invalid")).isSome then
        (-1, env.setError 153 parentKey (nameMeta.getD (str "(null)") ++ str " is not a valid boolean value"),
          (keySetMeta key (str "boolean/invalid") none).2)
      else (retVal, parentKey, key)
    match nameMeta with
    | some origName => (retVal, parentKey, restoreValue key origName)
    | none => (retVal, parentKey, key)
  else (retVal, parentKey, key)

/-- The loop of `elektraBooleanSet`. -/
def setLoop (data : BoolData) (retVal : ℤ) (parentKey : Key) : List Key → ℤ × List Key × Key
  | [] => (retVal, [], parentKey)
  | key :: returned =>
    let (retVal, parentKey, key) := setKey env data retVal parentKey key
    let (retVal, returned, parentKey) := setLoop data retVal parentKey returned
    (retVal, key :: returned, parentKey)

def elektraBooleanSet (handle : Option BoolData) (returned : List Key) (parentKey : Key) :
    ℤ × List Key × Key :=
  match handle with
  | none => (-1, returned, parentKey)
  | some data => setLoop env data 1 parentKey returned

end Calls

/-! ## Keys as data and metadata -/

/-- The key is not locked, and has this data and this metadata. -/
structure Reads (key : Key) (value : Option Str) (metadata : Str → Option Str) : Prop where
  data : key.data = value
  unlocked : Unlocked key
  getMeta : ∀ m, keyGetMeta key m = metadata m

section Reads

variable {key : Key} {value : Option Str} {metadata : Str → Option Str}

theorem reads_self (h : Unlocked key) : Reads key key.data (keyGetMeta key) := ⟨rfl, h, fun _ => rfl⟩

theorem Reads.setMeta (h : Reads key value metadata) (name : Str) (v : Option Str) :
    Reads (keySetMeta key name v).2 value (Function.update metadata name v) := by
  obtain ⟨l, b, he⟩ := keySetMeta_fields key name v
  have hget := keyGetMeta_keySetMeta h.unlocked.metadata name v
  rw [he] at hget ⊢
  refine ⟨h.data, ⟨h.unlocked.value, h.unlocked.metadata⟩, fun m => ?_⟩
  rw [hget, h.getMeta, Function.update_apply]

theorem Reads.setString (h : Reads key value metadata) (s : Str) :
    Reads (keySetString key s) (stringData s) (Function.update metadata (str "binary") none) := by
  obtain ⟨-, -, hdata, hun, hbin, hmeta⟩ := keySetString_spec h.unlocked s
  refine ⟨hdata, hun, fun m => ?_⟩
  rw [Function.update_apply]
  split_ifs with hm
  · subst hm
    simpa [keyIsBinary] using hbin
  · rw [hmeta m hm, h.getMeta]

theorem Reads.isBoolean (h : Reads key value metadata) :
    IsBoolean key ↔ metadata (str "type") = some (str "boolean") := by
  rw [IsBoolean, h.getMeta]

theorem Reads.keyString {s : Str} (h : Reads key (stringData s) metadata) (h0 : 0 ∉ s)
    (hb : metadata (str "binary") = none) : Elektra.keyString key = s := by
  have hbin : keyIsBinary key = false := by
    rw [keyIsBinary, h.getMeta, hb]
    rfl
  exact keyString_of_data hbin h0 h.data

theorem Reads.keyString_setMeta (h : Reads key value metadata) {name : Str} (hn : name ≠ str "binary")
    (v : Option Str) : Elektra.keyString (keySetMeta key name v).2 = Elektra.keyString key := by
  have h' := h.setMeta name v
  rw [Elektra.keyString, Elektra.keyString, h'.data, h.data, h'.getMeta, h.getMeta,
    Function.update_of_ne hn.symm]

theorem nul_keyString (key : Key) : 0 ∉ Elektra.keyString key := by
  unfold Elektra.keyString
  split
  · exact List.not_mem_nil
  · split_ifs
    · decide
    · intro h
      simpa using List.mem_takeWhile_imp h

end Reads

/-! ## What a get and a set do to a key -/

section Rounds

variable {env : Environment} {data : BoolData} {key : Key} {value : Option Str}
  {metadata : Str → Option Str}

/-- The value that a get gives a string. -/
def canonical (data : BoolData) (value : Str) : Str :=
  if isTrue value (data.trueValues.getD defaultTrueValues) then data.trueValue
  else if isFalse value (data.falseValues.getD defaultFalseValues) then data.falseValue
  else if data.mode = TRUE then data.trueValue
  else if data.mode = FALSE then data.falseValue
  else value

/-- The string is in one of the lists. -/
def Valid (data : BoolData) (value : Str) : Prop :=
  isTrue value (data.trueValues.getD defaultTrueValues) = true ∨
    isFalse value (data.falseValues.getD defaultFalseValues) = true

instance (data : BoolData) (value : Str) : Decidable (Valid data value) := instDecidableOr

/-- The metadata after a get. -/
def recorded (data : BoolData) (value : Str) (metadata : Str → Option Str) : Str → Option Str :=
  if Valid data value then
    Function.update (Function.update metadata (str "origvalue") (some value)) (str "binary") none
  else
    let metadata := Function.update metadata (str "boolean/invalid") (some [])
    if data.mode = TRUE then
      Function.update (Function.update metadata (str "originalvalue") (some value)) (str "binary") none
    else if data.mode = FALSE then
      Function.update (Function.update metadata (str "origvalue") (some value)) (str "binary") none
    else metadata

/-- A get sets the value of the key. -/
def Sets (data : BoolData) (value : Str) : Prop := Valid data value ∨ data.mode = TRUE ∨ data.mode = FALSE

instance (data : BoolData) (value : Str) : Decidable (Sets data value) := instDecidableOr

theorem normalize_reads (h : Reads key value metadata) (parentKey : Key) :
    Reads (normalize env data parentKey key).2
      (if Sets data (keyString key) then stringData (canonical data (keyString key)) else value)
      (recorded data (keyString key) metadata) := by
  obtain ⟨v, hv⟩ : ∃ v, v = keyString key := ⟨_, rfl⟩
  have hinv := h.setMeta (str "boolean/invalid") (some [])
  have hstring : keyString (keySetMeta key (str "boolean/invalid") (some [])).2 = v := by
    rw [h.keyString_setMeta (by decide), hv]
  rw [← hv, normalize, recorded, canonical]
  dsimp only
  rw [hstring, ← hv]
  by_cases ht : isTrue v (data.trueValues.getD defaultTrueValues) = true
  · have hvalid : Valid data v := Or.inl ht
    have hsets : Sets data v := Or.inl hvalid
    rw [if_pos ht, if_pos hsets, if_pos ht, if_pos hvalid]
    exact (h.setMeta _ _).setString _
  rw [if_neg ht, if_neg ht]
  by_cases hf : isFalse v (data.falseValues.getD defaultFalseValues) = true
  · have hvalid : Valid data v := Or.inr hf
    have hsets : Sets data v := Or.inl hvalid
    rw [if_pos hf, if_pos hsets, if_pos hf, if_pos hvalid]
    exact (h.setMeta _ _).setString _
  have hvalid : ¬Valid data v := not_or.mpr ⟨ht, hf⟩
  rw [if_neg hf, if_neg hf, if_neg hvalid]
  by_cases hT : data.mode = TRUE
  · have hsets : Sets data v := Or.inr (Or.inl hT)
    rw [if_pos hT, if_pos hsets, if_pos hT, if_pos hT]
    exact (hinv.setMeta _ _).setString _
  rw [if_neg hT, if_neg hT, if_neg hT]
  by_cases hF : data.mode = FALSE
  · have hsets : Sets data v := Or.inr (Or.inr hF)
    rw [if_pos hF, if_pos hsets, if_pos hF, if_pos hF]
    exact (hinv.setMeta _ _).setString _
  · have hsets : ¬Sets data v := by simp [Sets, hvalid, hT, hF]
    rw [if_neg hF, if_neg hsets, if_neg hF]
    exact hinv

/-- The metadata after a set. -/
def restored (metadata : Str → Option Str) : Str → Option Str :=
  let metadata := Function.update metadata (str "boolean/invalid") none
  match metadata (str "origvalue") with
  | some _ => Function.update (Function.update metadata (str "binary") none) (str "origvalue") none
  | none => metadata

theorem setKey_reads (h : Reads key value metadata) (hbool : IsBoolean key) (retVal : ℤ) (parentKey : Key) :
    Reads (setKey env data retVal parentKey key).2.2
      ((metadata (str "origvalue")).elim value stringData) (restored metadata) := by
  -- the metadata is gone whether the value passes or not
  obtain ⟨r, p, k, hround, hk⟩ : ∃ r p k,
      (if ¬(keyString key = data.trueValue ∨ keyString key = data.falseValue) ∨
          (keyGetMeta key (str "boolean/invalid")).isSome then
        (-1, env.setError 153 parentKey ((keyGetMeta key (str "origvalue")).getD (str "(null)") ++
          str " is not a valid boolean value"), (keySetMeta key (str "boolean/invalid") none).2)
      else (retVal, parentKey, key)) = (r, p, k) ∧
      Reads k value (Function.update metadata (str "boolean/invalid") none) := by
    split_ifs with hbad
    · exact ⟨_, _, _, rfl, h.setMeta _ _⟩
    · refine ⟨_, _, _, rfl, ?_⟩
      have hnone : metadata (str "boolean/invalid") = none := by
        have hnot := (not_or.mp hbad).2
        rwa [h.getMeta, Option.not_isSome_iff_eq_none] at hnot
      rw [Function.update_eq_self_iff.mpr hnone.symm]
      exact h
  have horig : Function.update metadata (str "boolean/invalid") none (str "origvalue") =
      metadata (str "origvalue") := Function.update_of_ne (by decide) _ _
  rw [setKey, if_pos hbool]
  dsimp only
  rw [hround, h.getMeta, restored]
  dsimp only
  rw [horig]
  cases metadata (str "origvalue") with
  | none => exact hk
  | some w => exact (hk.setString w).setMeta _ _

/-- Neither the return value nor the key that takes the warnings has an influence on a key. -/
theorem normalize_key (parentKey parentKey' : Key) :
    (normalize env data parentKey key).2 = (normalize env data parentKey' key).2 := by
  unfold normalize
  dsimp only
  split_ifs <;> rfl

theorem setKey_key (retVal retVal' : ℤ) (parentKey parentKey' : Key) :
    (setKey env data retVal parentKey key).2.2 = (setKey env data retVal' parentKey' key).2.2 := by
  unfold setKey
  dsimp only
  split_ifs
  · cases keyGetMeta key (str "origvalue") <;> rfl
  · cases keyGetMeta key (str "origvalue") <;> rfl
  · rfl

variable (env data) in
/-- A key after a get. -/
def getKey (key : Key) : Key := if IsBoolean key then (normalize env data key key).2 else key

variable (env data) in
/-- A key after a set. -/
def putKey (key : Key) : Key := (setKey env data 1 key key).2.2

theorem getLoop_eq (parentKey : Key) : ∀ ks : List Key,
    (getLoop env data parentKey ks).2 = ks.map (getKey env data)
  | [] => rfl
  | key :: ks => by
    rw [getLoop, List.map_cons, getKey]
    dsimp only
    rw [getLoop_eq _ ks]
    split_ifs
    · rw [normalize_key parentKey key]
    · rfl

theorem setLoop_eq (retVal : ℤ) (parentKey : Key) : ∀ ks : List Key,
    (setLoop env data retVal parentKey ks).2.1 = ks.map (putKey env data)
  | [] => rfl
  | key :: ks => by
    rw [setLoop, List.map_cons, putKey]
    dsimp only
    rw [setLoop_eq _ _ ks, setKey_key retVal 1 parentKey key]

end Rounds

/-! ## What comes back -/

/-- What a plugin is handed: the value can be set, and is a string where it is no binary. -/
structure Handed (key : Key) : Prop where
  valued : Valued key
  unlocked : Unlocked key
  strings : ∀ m ∈ key.metaKeys, 0 ∉ m.2

theorem Handed.nul_getMeta {key : Key} (h : Handed key) {m w : Str} (hw : keyGetMeta key m = some w) : 0 ∉ w := by
  obtain ⟨l, r, he, -⟩ := List.lookup_eq_some_iff.mp hw
  exact h.strings (m, w) (by simp [he])

/-- The value of `k` is that of `k'`, and nothing is left of the spelling where it was valid. -/
structure Restored (data : BoolData) (k k' : Key) : Prop where
  value : valueBytes k' = valueBytes k
  binary : keyIsBinary k' = keyIsBinary k
  cleared : IsBoolean k → Valid data (keyString k) →
    keyGetMeta k' (str "origvalue") = none ∧ keyGetMeta k' (str "boolean/invalid") = none ∧
    ∀ m, m ≠ str "origvalue" → m ≠ str "boolean/invalid" → keyGetMeta k' m = keyGetMeta k m

/-- A get and a set restore the value of a key of type `boolean`. -/
def Returns (data : BoolData) (k : Key) : Prop :=
  if Valid data (keyString k) ∨ data.mode = FALSE then keyIsBinary k = false
  else if data.mode = TRUE then
    keyIsBinary k = false ∧ (keyGetMeta k (str "origvalue")).getD data.trueValue = keyString k
  else ∀ w, keyGetMeta k (str "origvalue") = some w → keyIsBinary k = false ∧ w = keyString k

section Keys

variable {env : Environment} {data : BoolData} {k : Key} {metadata : Str → Option Str}

theorem valueBytes_string (h : Valued k) (hb : keyIsBinary k = false) :
    valueBytes k = some (keyString k ++ [0]) := by
  rw [valueBytes, keyString, hb]
  cases hd : k.data with
  | none => rfl
  | some bytes =>
    obtain ⟨s, rfl⟩ := h.string hb bytes hd
    rw [keyIsBinary] at hb
    dsimp only
    rw [hb, if_neg Bool.false_ne_true, takeWhile_append_zero s.2]

/-- A key that holds a string has the value of another one if and only if that holds the string too. -/
theorem string_restored {k' : Key} {w : Str} (h : Valued k) (hk : Reads k' (stringData w) metadata)
    (hb : metadata (str "binary") = none) :
    valueBytes k' = valueBytes k ∧ keyIsBinary k' = keyIsBinary k ↔ keyIsBinary k = false ∧ w = keyString k := by
  have hbin : keyIsBinary k' = false := by
    rw [keyIsBinary, hk.getMeta, hb]
    rfl
  have hbytes : valueBytes k' = some (w ++ [0]) := by
    rw [valueBytes, hk.data, hbin]
    by_cases hw : w = []
    · simp [stringData, hw]
    · simp [stringData, hw]
  rw [hbin, hbytes]
  constructor
  · rintro ⟨hv, hf⟩
    rw [valueBytes_string h hf.symm, Option.some.injEq] at hv
    exact ⟨hf.symm, List.append_cancel_right hv⟩
  · rintro ⟨hf, rfl⟩
    exact ⟨(valueBytes_string h hf).symm, hf.symm⟩

theorem recorded_other {v m : Str} (ho : m ≠ str "origvalue") (hi : m ≠ str "boolean/invalid")
    (hoi : m ≠ str "originalvalue") (hb : m ≠ str "binary") : recorded data v metadata m = metadata m := by
  unfold recorded
  split_ifs <;> simp [Function.update_of_ne, ho, hi, hoi, hb]

theorem recorded_binary {v : Str} (h : Sets data v) : recorded data v metadata (str "binary") = none := by
  unfold recorded
  dsimp only
  split_ifs with hv hT hF
  · exact Function.update_self _ _ _
  · exact Function.update_self _ _ _
  · exact Function.update_self _ _ _
  · exact absurd h (by simp [Sets, hv, hT, hF])

theorem recorded_origvalue {v : Str} : recorded data v metadata (str "origvalue") =
    if Valid data v ∨ data.mode = FALSE then some v else metadata (str "origvalue") := by
  have hne : TRUE ≠ FALSE := by decide
  have ho : str "origvalue" ≠ str "binary" := by decide
  unfold recorded
  dsimp only
  by_cases hv : Valid data v
  · rw [if_pos hv, if_pos (Or.inl hv), Function.update_of_ne ho, Function.update_self]
  rw [if_neg hv]
  by_cases hT : data.mode = TRUE
  · rw [if_pos hT, if_neg (by simp [hv, hT, hne]), Function.update_of_ne ho,
      Function.update_of_ne (by decide), Function.update_of_ne (by decide)]
  rw [if_neg hT]
  by_cases hF : data.mode = FALSE
  · rw [if_pos hF, if_pos (Or.inr hF), Function.update_of_ne ho, Function.update_self]
  · rw [if_neg hF, if_neg (not_or.mpr ⟨hv, hF⟩), Function.update_of_ne (by decide)]

theorem getKey_reads (hun : Unlocked k) (hb : IsBoolean k) : Reads (getKey env data k)
    (if Sets data (keyString k) then stringData (canonical data (keyString k)) else k.data)
    (recorded data (keyString k) (keyGetMeta k)) := by
  rw [getKey, if_pos hb]
  exact normalize_reads (reads_self hun) k

theorem recorded_type {v : Str} (hb : IsBoolean k) :
    recorded data v (keyGetMeta k) (str "type") = some (str "boolean") := by
  rw [recorded_other (by decide) (by decide) (by decide) (by decide)]
  exact hb

theorem putKey_reads (hun : Unlocked k) (hb : IsBoolean k) :
    Reads (putKey env data (getKey env data k))
      ((recorded data (keyString k) (keyGetMeta k) (str "origvalue")).elim
        (if Sets data (keyString k) then stringData (canonical data (keyString k)) else k.data) stringData)
      (restored (recorded data (keyString k) (keyGetMeta k))) := by
  have hget := @getKey_reads env data k hun hb
  exact setKey_reads hget (hget.isBoolean.mpr (recorded_type hb)) 1 _

theorem restored_of_some {w : Str} (h : metadata (str "origvalue") = some w) : restored metadata =
    Function.update (Function.update (Function.update metadata (str "boolean/invalid") none)
      (str "binary") none) (str "origvalue") none := by
  have hne : str "origvalue" ≠ str "boolean/invalid" := by decide
  rw [restored, Function.update_of_ne hne, h]

theorem restored_of_none (h : metadata (str "origvalue") = none) :
    restored metadata = Function.update metadata (str "boolean/invalid") none := by
  have hne : str "origvalue" ≠ str "boolean/invalid" := by decide
  rw [restored, Function.update_of_ne hne, h]

theorem restored_other {m : Str} (ho : m ≠ str "origvalue") (hi : m ≠ str "boolean/invalid")
    (hb : m ≠ str "binary") : restored metadata m = metadata m := by
  cases h : metadata (str "origvalue") with
  | none => rw [restored_of_none h, Function.update_of_ne hi]
  | some w =>
    rw [restored_of_some h, Function.update_of_ne ho, Function.update_of_ne hb, Function.update_of_ne hi]

theorem restored_none {m : Str} (hm : metadata m = none) : restored metadata m = none := by
  cases h : metadata (str "origvalue") with
  | none => simp [restored_of_none h, Function.update_apply, hm]
  | some w => simp [restored_of_some h, Function.update_apply, hm]

theorem restored_cleared : restored metadata (str "origvalue") = none ∧
    restored metadata (str "boolean/invalid") = none := by
  have hne : str "origvalue" ≠ str "boolean/invalid" := by decide
  cases h : metadata (str "origvalue") with
  | none =>
    rw [restored_of_none h, Function.update_of_ne hne, h]
    exact ⟨rfl, Function.update_self _ _ _⟩
  | some w =>
    rw [restored_of_some h, Function.update_of_ne hne.symm]
    exact ⟨Function.update_self _ _ _, by simp [Function.update_apply]⟩

theorem restored_binary {w : Str} (h : metadata (str "origvalue") = some w) :
    restored metadata (str "binary") = none := by
  rw [restored_of_some h, Function.update_of_ne (by decide), Function.update_self]

theorem restored_iff (h : Handed k) (hb : IsBoolean k) :
    Restored data k (putKey env data (getKey env data k)) ↔
      valueBytes (putKey env data (getKey env data k)) = valueBytes k ∧
        keyIsBinary (putKey env data (getKey env data k)) = keyIsBinary k := by
  have hput := @putKey_reads env data k h.unlocked hb
  refine ⟨fun hr => ⟨hr.value, hr.binary⟩, fun ⟨hv, hbin⟩ => ⟨hv, hbin, fun _ hvalid => ?_⟩⟩
  refine ⟨(hput.getMeta _).trans restored_cleared.1, (hput.getMeta _).trans restored_cleared.2,
    fun m ho hi => ?_⟩
  by_cases hm : m = str "binary"
  · subst hm
    have horig : recorded data (keyString k) (keyGetMeta k) (str "origvalue") = some (keyString k) := by
      rw [recorded_origvalue, if_pos (Or.inl hvalid)]
    have hnone := (hput.getMeta _).trans (restored_binary horig)
    rw [hnone]
    rw [keyIsBinary, hnone] at hbin
    exact (Option.isSome_eq_false_iff.mp hbin.symm |> Option.isNone_iff_eq_none.mp).symm
  · rw [hput.getMeta, restored_other ho hi hm, recorded, if_pos hvalid, Function.update_of_ne hm,
      Function.update_of_ne ho]

theorem returns_iff (h : Handed k) (hb : IsBoolean k) :
    Restored data k (putKey env data (getKey env data k)) ↔ Returns data k := by
  have hput := @putKey_reads env data k h.unlocked hb
  have horig := @recorded_origvalue data (keyGetMeta k) (keyString k)
  rw [restored_iff h hb, Returns]
  by_cases hspell : Valid data (keyString k) ∨ data.mode = FALSE
  · -- the spelling is put back
    rw [if_pos hspell] at horig ⊢
    rw [horig] at hput
    rw [string_restored h.valued hput (restored_binary horig)]
    exact and_iff_left rfl
  rw [if_neg hspell] at horig ⊢
  by_cases hT : data.mode = TRUE
  · -- the value that was set stays, unless there was a spelling before
    rw [if_pos hT]
    have hsets : Sets data (keyString k) := Or.inr (Or.inl hT)
    have hnone : restored (recorded data (keyString k) (keyGetMeta k)) (str "binary") = none :=
      restored_none (recorded_binary hsets)
    have hcan : canonical data (keyString k) = data.trueValue := by
      have hvalid := not_or.mp (not_or.mp hspell).1
      rw [canonical, if_neg hvalid.1, if_neg hvalid.2, if_pos hT]
    rw [horig, if_pos hsets, hcan] at hput
    cases ho : keyGetMeta k (str "origvalue") with
    | none =>
      rw [ho] at hput
      exact string_restored h.valued hput hnone
    | some w =>
      rw [ho] at hput
      exact string_restored h.valued hput hnone
  · rw [if_neg hT]
    have hsets : ¬Sets data (keyString k) := by
      rw [Sets, or_left_comm]
      exact not_or.mpr ⟨hT, hspell⟩
    rw [horig, if_neg hsets] at hput
    cases ho : keyGetMeta k (str "origvalue") with
    | none =>
      -- neither the value nor whether it is a binary changes
      rw [ho] at hput horig
      have hbin : keyIsBinary (putKey env data (getKey env data k)) = keyIsBinary k := by
        have hne : str "binary" ≠ str "boolean/invalid" := by decide
        have hrec : recorded data (keyString k) (keyGetMeta k) =
            Function.update (keyGetMeta k) (str "boolean/invalid") (some []) := by
          rw [recorded, if_neg (not_or.mp hspell).1]
          dsimp only
          rw [if_neg hT, if_neg (not_or.mp hspell).2]
        rw [keyIsBinary, hput.getMeta, restored_of_none horig, Function.update_of_ne hne, hrec,
          Function.update_of_ne hne, keyIsBinary]
      refine iff_of_true ⟨?_, hbin⟩ (by simp)
      rw [valueBytes, valueBytes, hput.data, hbin]
      rfl
    | some w =>
      rw [ho] at hput horig
      rw [string_restored h.valued hput (restored_binary horig)]
      simp

theorem keyString_getKey (hun : Unlocked k) (hb : IsBoolean k) :
    keyString (getKey env data k) = canonical data (keyString k) := by
  have hget := @getKey_reads env data k hun hb
  have h0 : 0 ∉ canonical data (keyString k) := by
    rw [canonical]
    split_ifs
    exacts [data.trueValue.2, data.falseValue.2, data.trueValue.2, data.falseValue.2, nul_keyString k]
  by_cases hsets : Sets data (keyString k)
  · rw [if_pos hsets] at hget
    exact hget.keyString h0 (recorded_binary hsets)
  · obtain ⟨hvalid, hmode⟩ := not_or.mp hsets
    obtain ⟨hT, hF⟩ := not_or.mp hmode
    obtain ⟨ht, hf⟩ := not_or.mp hvalid
    rw [canonical, if_neg ht, if_neg hf, if_neg hT, if_neg hF, getKey, if_pos hb, normalize, if_neg ht, if_neg hf,
      if_neg hT, if_neg hF]
    exact (reads_self hun).keyString_setMeta (by decide) _

end Keys

/-! ## Edits -/

/-- The other canonical value. -/
def other (data : BoolData) (value : Str) : Str :=
  if value = data.trueValue then data.falseValue else data.trueValue

/-- The application sets the keys at the positions `edited` to the other canonical value. -/
def edit (data : BoolData) (edited : ℕ → Bool) (ks : List Key) : List Key :=
  ks.mapIdx fun i k => if edited i then keySetString k (other data (keyString k)) else k

/-- A key that was set to the other canonical value keeps it. -/
def Keeps (data : BoolData) (k : Key) : Prop :=
  data.trueValue = data.falseValue ∨ ¬Valid data (keyString k) ∧ data.mode = TRUE ∧
    let stored := (keyGetMeta k (str "origvalue")).getD data.falseValue
    isTrue stored (data.trueValues.getD defaultTrueValues) = false ∧
      isFalse stored (data.falseValues.getD defaultFalseValues) = true

section Edits

variable {env : Environment} {data : BoolData} {k : Key}

theorem nul_other (value : Str) : 0 ∉ other data value := by
  rw [other]
  split_ifs
  exacts [data.falseValue.2, data.trueValue.2]

theorem canonical_mem {value : Str} (h : Sets data value) :
    canonical data value = data.trueValue ∨ canonical data value = data.falseValue := by
  rw [canonical]
  split_ifs with ht hf hT hF
  · exact Or.inl rfl
  · exact Or.inr rfl
  · exact Or.inl rfl
  · exact Or.inr rfl
  · exact absurd h (by simp [Sets, Valid, ht, hf, hT, hF])

/-- Which strings get the value of the false ones where invalid ones do not. -/
theorem canonical_eq_false (hT : data.mode = TRUE) (w : Str) : canonical data w = data.falseValue ↔
    data.trueValue = data.falseValue ∨ isTrue w (data.trueValues.getD defaultTrueValues) = false ∧
      isFalse w (data.falseValues.getD defaultFalseValues) = true := by
  rw [canonical, if_pos hT]
  split_ifs with ht hf
  · simp [ht, Subtype.val_inj]
  · simp [ht, hf]
  · simp [hf, Subtype.val_inj]

theorem other_eq_iff {value : Str} (h : value = data.trueValue ∨ value = data.falseValue) :
    value = other data value ↔ data.trueValue = data.falseValue := by
  rw [other]
  split_ifs with ht
  · rw [ht, Subtype.val_inj]
  · obtain rfl := h.resolve_left ht
    rw [Subtype.val_inj]
    exact eq_comm

theorem keyString_edited (h : Handed k) (hb : IsBoolean k) (hsets : Sets data (keyString k)) {s : Str}
    (hs : 0 ∉ s) : keyString (getKey env data (putKey env data (keySetString (getKey env data k) s))) =
      canonical data ((recorded data (keyString k) (keyGetMeta k) (str "origvalue")).getD s) := by
  obtain ⟨f, hf⟩ : ∃ f, f = recorded data (keyString k) (keyGetMeta k) := ⟨_, rfl⟩
  have hedit := (@getKey_reads env data k h.unlocked hb).setString s
  have hbin := @recorded_binary data (keyGetMeta k) _ hsets
  have htype := @recorded_type data k (keyString k) hb
  rw [← hf] at hedit hbin htype ⊢
  rw [Function.update_eq_self_iff.mpr hbin.symm] at hedit
  have hput : Reads (putKey env data (keySetString (getKey env data k) s))
      ((f (str "origvalue")).elim (stringData s) stringData) (restored f) :=
    setKey_reads hedit (hedit.isBoolean.mpr htype) 1 _
  have hbool : IsBoolean (putKey env data (keySetString (getKey env data k) s)) := by
    rw [hput.isBoolean, restored_other (by decide) (by decide) (by decide), htype]
  rw [keyString_getKey hput.unlocked hbool]
  congr 1
  cases ho : f (str "origvalue") with
  | none =>
    rw [ho] at hput
    exact hput.keyString hs (restored_none hbin)
  | some w =>
    rw [ho] at hput
    refine hput.keyString ?_ (restored_none hbin)
    rw [hf, recorded_origvalue] at ho
    split_ifs at ho
    · obtain rfl := Option.some.inj ho
      exact nul_keyString k
    · exact h.nul_getMeta ho

theorem keeps_iff (h : Handed k) (hb : IsBoolean k) (hsets : Sets data (keyString k)) :
    (let edited := keySetString (getKey env data k) (other data (keyString (getKey env data k)))
    keyString (getKey env data (putKey env data edited)) = keyString edited) ↔ Keeps data k := by
  have hget := @keyString_getKey env data k h.unlocked hb
  have hmem := canonical_mem hsets
  have hother := @nul_other data (canonical data (keyString k))
  have hedit : keyString (keySetString (getKey env data k) (other data (canonical data (keyString k)))) =
      other data (canonical data (keyString k)) := by
    have hr := (@getKey_reads env data k h.unlocked hb).setString (other data (canonical data (keyString k)))
    exact hr.keyString hother (Function.update_self _ _ _)
  dsimp only
  rw [hget, hedit, keyString_edited h hb hsets hother, recorded_origvalue, Keeps]
  by_cases hspell : Valid data (keyString k) ∨ data.mode = FALSE
  · -- the spelling from before the edit is normalized again
    rw [if_pos hspell, Option.getD_some, other_eq_iff hmem]
    refine ⟨Or.inl, fun hk => hk.resolve_right ?_⟩
    rintro ⟨hvalid, hT, -⟩
    have hF := hspell.resolve_left hvalid
    rw [hT] at hF
    exact absurd hF (by decide)
  · rw [if_neg hspell]
    obtain ⟨hvalid, hF⟩ := not_or.mp hspell
    have hT : data.mode = TRUE := (hsets.resolve_left hvalid).resolve_right hF
    have hcan : canonical data (keyString k) = data.trueValue := by
      obtain ⟨ht, hf⟩ := not_or.mp hvalid
      rw [canonical, if_neg ht, if_neg hf, if_pos hT]
    have ho : other data (canonical data (keyString k)) = data.falseValue := by rw [hcan, other, if_pos rfl]
    rw [ho]
    rw [canonical_eq_false hT]
    simp [hvalid, hT]

end Edits

/-! ## Key sets -/

section Runs

variable (env : Environment) (config : Config) (moduleConfig ks : List Key) (parentKey : Key)

/-- A get and a set restore the values of the key set. -/
def RoundTrip : Prop := ∃ data got warned,
  elektraBooleanGet env config moduleConfig none ks parentKey = some (1, some data, got, warned) ∧
  ∀ setParent, List.Forall₂ (Restored data) ks (elektraBooleanSet env (some data) got setParent).2.1

/-- Keys that the get gave a canonical value are set to the other one; the get after the set shows what
was set. -/
def EditsKept : Prop := ∃ data got warned,
  elektraBooleanGet env config moduleConfig none ks parentKey = some (1, some data, got, warned) ∧
  ∀ edited : ℕ → Bool,
    (∀ i k, ks[i]? = some k → edited i = true → IsBoolean k ∧ Sets data (keyString k)) →
  ∀ setParent nextParent, keyName nextParent ≠ moduleName → ∃ next warned',
    elektraBooleanGet env config moduleConfig (some data)
      (elektraBooleanSet env (some data) (edit data edited got) setParent).2.1 nextParent =
        some (1, some data, next, warned') ∧
    ∀ i, edited i = true → (next[i]?).map keyString = ((edit data edited got)[i]?).map keyString

variable {env config moduleConfig ks parentKey}

theorem elektraBooleanGet_eq (hparent : keyName parentKey ≠ moduleName) (handle : Option BoolData) :
    elektraBooleanGet env config moduleConfig handle ks parentKey =
      (handle.or (parseConfig config)).map fun data =>
        (1, some data, ks.map (getKey env data), (getLoop env data parentKey ks).1) := by
  rw [elektraBooleanGet, if_neg hparent]
  cases handle.or (parseConfig config) with
  | none => rfl
  | some data =>
    rw [Option.map_some, ← getLoop_eq parentKey]
    rfl

theorem restored_refl {data : BoolData} {k : Key} (h : ¬IsBoolean k) : Restored data k k :=
  ⟨rfl, rfl, fun hb => absurd hb h⟩

theorem putKey_getKey_of_not {data : BoolData} {k : Key} (h : ¬IsBoolean k) :
    putKey env data (getKey env data k) = k := by
  rw [getKey, if_neg h, putKey, setKey, if_neg h]

theorem roundTrip_iff (hparent : keyName parentKey ≠ moduleName) (hks : ∀ k ∈ ks, Handed k) :
    RoundTrip env config moduleConfig ks parentKey ↔
      ∃ data, parseConfig config = some data ∧ ∀ k ∈ ks, IsBoolean k → Returns data k := by
  have hset : ∀ data setParent, (elektraBooleanSet env (some data) (ks.map (getKey env data)) setParent).2.1 =
      ks.map fun k => putKey env data (getKey env data k) := by
    intro data setParent
    rw [elektraBooleanSet, setLoop_eq, List.map_map]
    rfl
  have hall : ∀ data, List.Forall₂ (Restored data) ks (ks.map fun k => putKey env data (getKey env data k)) ↔
      ∀ k ∈ ks, IsBoolean k → Returns data k := by
    intro data
    rw [List.forall₂_map_right_iff, List.forall₂_same]
    refine forall₂_congr fun k hk => ?_
    by_cases hb : IsBoolean k
    · rw [returns_iff (hks k hk) hb]
      exact ⟨fun hr _ => hr, fun hr => hr hb⟩
    · rw [putKey_getKey_of_not hb]
      exact iff_of_true (restored_refl hb) fun h => absurd h hb
  rw [RoundTrip]
  simp only [elektraBooleanGet_eq hparent, Option.none_or, Option.map_eq_some_iff, Prod.mk.injEq]
  constructor
  · rintro ⟨data, got, warned, ⟨data', hparse, -, he, rfl, -⟩, hr⟩
    cases he
    refine ⟨data, hparse, (hall data).mp ?_⟩
    rw [← hset data parentKey]
    exact hr parentKey
  · rintro ⟨data, hparse, hr⟩
    refine ⟨data, _, _, ⟨data, hparse, trivial, rfl, rfl, rfl⟩, fun setParent => ?_⟩
    rw [hset]
    exact (hall data).mpr hr

theorem editsKept_iff (hparent : keyName parentKey ≠ moduleName) (hks : ∀ k ∈ ks, Handed k) :
    EditsKept env config moduleConfig ks parentKey ↔
      ∃ data, parseConfig config = some data ∧
        ∀ k ∈ ks, IsBoolean k → Sets data (keyString k) → Keeps data k := by
  -- what happens to an edited key does not depend on the others
  have hat : ∀ data (edited : ℕ → Bool) i k, ks[i]? = some k → edited i = true →
      let l := edit data edited (ks.map (getKey env data))
      let k' := keySetString (getKey env data k) (other data (keyString (getKey env data k)))
      l[i]? = some k' ∧
        ((l.map (putKey env data)).map (getKey env data))[i]? = some (getKey env data (putKey env data k')) := by
    intro data edited i k hi hedited
    simp [edit, hi, hedited]
  have hnext : ∀ data l setParent nextParent, keyName nextParent ≠ moduleName → ∃ warned,
      elektraBooleanGet env config moduleConfig (some data)
        (elektraBooleanSet env (some data) l setParent).2.1 nextParent =
          some (1, some data, (l.map (putKey env data)).map (getKey env data), warned) := by
    intro data l setParent nextParent hne
    rw [elektraBooleanGet_eq hne, elektraBooleanSet, setLoop_eq]
    exact ⟨_, rfl⟩
  rw [EditsKept]
  simp only [elektraBooleanGet_eq hparent, Option.none_or, Option.map_eq_some_iff, Prod.mk.injEq]
  constructor
  · rintro ⟨data, got, warned, ⟨data', hparse, -, he, rfl, -⟩, hr⟩
    cases he
    refine ⟨data, hparse, fun k hk hb hsets => (@keeps_iff env data k (hks k hk) hb hsets).mp ?_⟩
    obtain ⟨i, hi⟩ := List.mem_iff_getElem?.mp hk
    have hedits : ∀ j x, ks[j]? = some x → decide (j = i) = true → IsBoolean x ∧ Sets data (keyString x) := by
      rintro j x hx hj
      rw [of_decide_eq_true hj, hi] at hx
      obtain rfl := Option.some.inj hx
      exact ⟨hb, hsets⟩
    obtain ⟨next, warned', hget, hkept⟩ := hr _ hedits parentKey parentKey hparent
    obtain ⟨_, hget'⟩ := hnext data (edit data (fun j => decide (j = i)) (ks.map (getKey env data))) parentKey
      parentKey hparent
    rw [hget', Option.some.injEq, Prod.mk.injEq, Prod.mk.injEq, Prod.mk.injEq] at hget
    obtain ⟨-, -, rfl, -⟩ := hget
    obtain ⟨hedit, hgot⟩ := hat data (fun j => decide (j = i)) i k hi (decide_eq_true rfl)
    have hsame := hkept i (decide_eq_true rfl)
    rw [hedit, hgot, Option.map_some, Option.map_some, Option.some.injEq] at hsame
    exact hsame
  · rintro ⟨data, hparse, hr⟩
    refine ⟨data, _, _, ⟨data, hparse, trivial, rfl, rfl, rfl⟩, fun edited hedits setParent nextParent hne => ?_⟩
    obtain ⟨warned', hget⟩ := hnext data (edit data edited (ks.map (getKey env data))) setParent nextParent hne
    refine ⟨_, warned', hget, fun i hi => ?_⟩
    cases hk : ks[i]? with
    | none => simp [edit, hk]
    | some k =>
      obtain ⟨hb, hsets⟩ := hedits i k hk hi
      obtain ⟨hedit, hgot⟩ := hat data edited i k hk hi
      have hmem := List.mem_of_getElem? hk
      rw [hedit, hgot, Option.map_some, Option.map_some]
      exact congrArg some ((keeps_iff (hks k hmem) hb hsets).mpr (hr k hmem hb hsets))

end Runs

/-- **A get and a set restore the values if and only if the lists in the configuration have a token and
each key of type `boolean` is restored by itself; what is set in between survives if and only if it does
for each key that the get gives a value.** -/
theorem boolean_cycle (env : Environment) (config : Config) (moduleConfig ks : List Key) (parentKey : Key)
    (hparent : keyName parentKey ≠ moduleName) (hks : ∀ k ∈ ks, Handed k) :
    (RoundTrip env config moduleConfig ks parentKey ↔
      ∃ data, parseConfig config = some data ∧ ∀ k ∈ ks, IsBoolean k → Returns data k) ∧
    (EditsKept env config moduleConfig ks parentKey ↔
      ∃ data, parseConfig config = some data ∧
        ∀ k ∈ ks, IsBoolean k → Sets data (keyString k) → Keeps data k) :=
  ⟨roundTrip_iff hparent hks, editsKept_iff hparent hks⟩

section Yes

/-- A key of type `boolean`. -/
def booleanKey (value : Str) : Key :=
  (keySetMeta (keyNewValue (str "user/a") value) (str "type") (some (str "boolean"))).2

theorem handed_booleanKey (s : CString) (hs : s.1 ≠ []) : Handed (booleanKey s) := by
  have hdata : (booleanKey s).data = some (s.1 ++ [0]) := if_neg hs
  refine ⟨⟨?_, fun _ data hd => ⟨s, ?_⟩⟩, ⟨rfl, rfl⟩, ?_⟩
  · rw [hdata]
    simp
  · rw [hdata] at hd
    exact (Option.some.inj hd).symm
  · have hmeta : (booleanKey s).metaKeys = [(str "type", str "boolean")] := by
      have hnew : (keyNewName (str "user/a")).metaKeys = [] := by decide +kernel
      have hlock : (keyNewName (str "user/a")).roMeta = false := by decide +kernel
      rw [booleanKey, keySetMeta, keyNewValue]
      dsimp only
      rw [hlock, hnew]
      rfl
    rw [hmeta]
    decide

/-- No message is written, and nothing is configured. -/
def silent : Environment := ⟨fun _ k _ => k, fun _ k _ => k, fun ks _ => (false, ks)⟩

def unset : Config := ⟨none, none, none, none, none, none⟩

/-- A value from the default list. -/
theorem boolean_cycle_yes :
    RoundTrip silent unset [] [booleanKey (str "yes")] (keyNewName (str "user")) := by
  refine (boolean_cycle silent unset [] _ _ (by decide +kernel) ?_).1.mpr ⟨_, rfl, ?_⟩
  · intro k hk
    obtain rfl := List.mem_singleton.mp hk
    exact handed_booleanKey ⟨str "yes", by decide⟩ (by decide)
  · intro k hk _
    obtain rfl := List.mem_singleton.mp hk
    unfold Returns
    decide +kernel

/-- `yes` is put back where the application set `0` instead of `1`; a value that is in no list is not. -/
theorem not_boolean_cycle : ¬ ∀ (env : Environment) (config : Config) (moduleConfig ks : List Key)
    (parentKey : Key), keyName parentKey ≠ moduleName → (∀ k ∈ ks, Handed k) →
    RoundTrip env config moduleConfig ks parentKey ∧ EditsKept env config moduleConfig ks parentKey := by
  intro h
  have hks : ∀ k ∈ [booleanKey (str "yes")], Handed k := fun k hk => by
    obtain rfl := List.mem_singleton.mp hk
    exact handed_booleanKey ⟨str "yes", by decide⟩ (by decide)
  have hparent : keyName (keyNewName (str "user")) ≠ moduleName := by decide +kernel
  obtain ⟨data, hparse, hkeeps⟩ := (editsKept_iff hparent hks).mp (h silent unset [] _ _ hparent hks).2
  obtain rfl := Option.some.inj hparse
  have hk := hkeeps _ List.mem_cons_self (by decide +kernel) (by decide +kernel)
  obtain heq | ⟨hvalid, -⟩ := hk
  · exact absurd heq (by decide)
  · exact hvalid (by decide +kernel)

end Yes

end Elektra.Boolean
