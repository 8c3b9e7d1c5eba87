import Elektra.KeySet.Compare
import Elektra.Lookup.Take
import Elektra.Meta.Array
import Elektra.Mount.Model
import Elektra.Search.Moves

/-!
# The rename plugin

A get replaces each key by one of a new name, which remembers the old one in `origname`; a set replaces
it by one of that name again. Both go through a copy of the key set, and take out by name.

* `elektraKeyCreateNewName`, `restoreKeyName`; `elektraRenameGet`, `elektraRenameSet`.
* `got`, `Source`, `Restored`: what a get makes of a key, which keys are meant, what comes back.
* `Orderly`, `RoundTrip`, `rename_round_trip`: when a get and a set give the key set back, and what is left.
-/

namespace Elektra.Rename

/-! ## New names -/

def ELEKTRA_ORIGINAL_NAME_META : Str := str "origname"

inductive Conversion
  | TOLOWER | TOUPPER | UNCHNGD | KEYNAME
  deriving DecidableEq, Repr

def tolower (c : UInt8) : UInt8 := if 65 ≤ c ∧ c ≤ 90 then c + 32 else c

def conversion (toCase : Conversion) : UInt8 → UInt8 := if toCase = .TOUPPER then toupper else tolower

/-- The loop of `doConversion`, from the end of the name. -/
def convertLevels (toCase : Conversion) (levels : ℤ) : ℤ → Str → Str
  | _, [] => []
  | levelCount, c :: name =>
    if levelCount < levels then
      if c = pathSeparator then c :: convertLevels toCase levels (levelCount + 1) name
      else conversion toCase c :: convertLevels toCase levels levelCount name
    else c :: name

def doConversion (newName : Str) (levels : ℤ) (toCase : Conversion) : Str :=
  if levels = 0 then newName.map (conversion toCase)
  else (convertLevels toCase levels 0 newName.reverse).reverse

/-- `atoi`, with blanks and a sign before the digits. -/
def atoiSigned (s : Str) : ℤ :=
  match s.dropWhile fun c => c = 32 || (9 ≤ c && c ≤ 13) with
  | 45 :: s => -(atoi s : ℤ)
  | 43 :: s => atoi s
  | s => atoi s

/-- `atoi` as the C library has it: what `strtol` gives, in an `int`. -/
def atoiInt (s : Str) : ℤ := Int.bmod (max (-2 ^ 63) (min (2 ^ 63 - 1) (atoiSigned s))) (2 ^ 32)

/-- With the owner of a key of the user. -/
def keyGetFullName (key : Key) : Str :=
  match keyGetMeta key (str "owner") with
  | some owner =>
    if keyNameIsUser (keyName key) then (keyName key).take 4 ++ str ":" ++ owner ++ (keyName key).drop 4
    else keyName key
  | none => keyName key

/-- What is left when the first occurrence of `cutPath` is replaced. -/
def cutName (afterParentString : Str) (cutPath replaceWith : Option Str) : Option Str :=
  match cutPath with
  | none => none
  | some cutPath =>
    if cutPath.head? = some pathSeparator then none
    else (afterParentString.tails.findIdx? cutPath.isPrefixOf).map fun i =>
      afterParentString.take i ++ replaceWith.getD [] ++ afterParentString.drop (i + cutPath.length)

/-- The conversions of the last levels. -/
def convertCase (newName : Str) (toUpperPath toLowerPath : Option Str) : Str :=
  match toUpperPath.map atoiSigned, toLowerPath.map atoiSigned with
  | some toUpper, some toLower =>
    if toUpper < toLower then doConversion (doConversion newName toLower .TOLOWER) toUpper .TOUPPER
    else doConversion (doConversion newName toUpper .TOUPPER) toLower .TOLOWER
  | some toUpper, none => doConversion newName toUpper .TOUPPER
  | none, some toLower => doConversion newName toLower .TOLOWER
  | none, none => newName

/-- The key of the new name, unless there is nothing to replace. -/
def elektraKeyCreateNewName (key parentKey : Key) (cutPath replaceWith toUpperPath toLowerPath : Option Str)
    (initialConversion : Conversion) : Option Key :=
  let afterParentString := (keyGetFullName key).drop (keyGetFullName parentKey).length
  let afterParentString :=
    if initialConversion ≠ .UNCHNGD then doConversion afterParentString 0 initialConversion
    else afterParentString
  let cut := cutName afterParentString cutPath replaceWith
  let newName := cut.getD afterParentString
  let convert := newName ≠ [] ∧ (toUpperPath.isSome ∨ toLowerPath.isSome)
  if initialConversion ≠ .UNCHNGD ∨ cut.isSome ∨ convert then
    let newName := if convert then convertCase newName toUpperPath toLowerPath else newName
    some (keyAddName (keySetName (keyDup key) (some (keyName parentKey))).2 (some newName)).2
  else none

/-- The base names are escaped once more. -/
def keyAddUnescapedBasePath (key : Key) (path : Str) : Key :=
  (levels path).foldl (fun key level => (keyAddBaseName key (some level)).2) key

/-- The strings in the configuration of the plugin. -/
structure Config where
  cut : Option Str
  toUpper : Option Str
  toLower : Option Str
  replaceWith : Option Str
  getCase : Option Str
  setCase : Option Str

/-- What `get/case` says. -/
def Config.initialConversion (config : Config) : Conversion :=
  if config.getCase = some (str "toupper") then .TOUPPER
  else if config.getCase = some (str "tolower") then .TOLOWER
  else .UNCHNGD

/-- What `set/case` says. -/
def Config.writeConversion (config : Config) : Conversion :=
  if config.setCase = some (str "toupper") then .TOUPPER
  else if config.setCase = some (str "tolower") then .TOLOWER
  else if config.setCase = some (str "keyname") then .KEYNAME
  else .UNCHNGD

/-- The metadata of the key takes precedence over the configuration. -/
def renameGet (config : Config) (key parentKey : Key) : Option Key :=
  elektraKeyCreateNewName key parentKey
    ((keyGetMeta key (str "rename/cut")).or config.cut)
    ((keyGetMeta key (str "rename/to")).or config.replaceWith)
    ((keyGetMeta key (str "rename/toupper")).or config.toUpper)
    ((keyGetMeta key (str "rename/tolower")).or config.toLower)
    config.initialConversion

/-- A duplicate of another name that needs a sync when the key does. -/
def keepSync (key result : Key) : Key := if key.sync then result else { result with sync := false }

def restoreKeyName (key parentKey : Key) (configKey : Option Str) : Option Key :=
  match keyGetMeta key ELEKTRA_ORIGINAL_NAME_META with
  | some origName =>
    if origName ≠ keyName key then
      let result := (keySetName (keyDup key) (some origName)).2
      some (keepSync key (keySetMeta result ELEKTRA_ORIGINAL_NAME_META none).2)
    else none
  | none =>
    configKey.map fun path =>
      let result := (keySetName (keyDup key) (some (keyName parentKey))).2
      let result := keyAddUnescapedBasePath result path
      let result :=
        if parentKey.keySize < key.keySize then
          keyAddUnescapedBasePath result ((keyName key).drop parentKey.keySize)
        else result
      keepSync key result

/-! ## The plugin -/

section Code

variable (cb : Callback) (fuel : ℕ) (config : Config) (parentKey : KeyRef)

/-- `keySetMeta (key, ELEKTRA_ORIGINAL_NAME_META, name)` -/
def setOrigName (key : Key) (name : Str) : Key :=
  (keySetMeta key ELEKTRA_ORIGINAL_NAME_META (some name)).2

/-- The loop of `elektraRenameGet`. -/
def getLoop : List KeyRef → World → Except Stop World
  | [], w => .ok w
  | key :: iterateKs, w =>
    match renameGet config (w.cell key) (w.cell parentKey) with
    | some renamedKey => do
      let (renamedKey, w) := w.alloc (setOrigName renamedKey (keyName (w.cell key)))
      let (_, w) ← ksLookup cb fuel w key { pop := true }
      let w := w.del key
      let isParent := keyCmp (some (w.cell renamedKey)) (some (w.cell parentKey)) = .eq
      -- the parent key may be replaced, but not deleted
      let w := if isParent then { w with heap := keyIncRef w.heap parentKey } else w
      let w := w.appendKey renamedKey
      let w := if isParent then { w with heap := keyDecRef w.heap parentKey } else w
      getLoop iterateKs w
    | none => getLoop iterateKs (w.set key (setOrigName (w.cell key) (keyName (w.cell key))))

/-- The end of both functions. -/
def delIterateKs (h : Heap) (iterateKs : KeySet) : Heap :=
  keyDecRef (ksDel (keyIncRef h parentKey) iterateKs) parentKey

def modules : Str := str "system/elektra/modules/rename"

def elektraRenameGet (contract : List Key) (h : Heap) (returned : KeySet) : Except Stop World :=
  if keyName (h.cell parentKey) = modules then
    let (h, info) := readKeys h contract
    let (_, h, returned) := ksAppend h returned info
    .ok { heap := ksDel h info, ks := returned }
  else do
    let (h, iterateKs) := ksDup h returned
    let w ← getLoop cb fuel config parentKey iterateKs.array { heap := h, ks := returned }
    .ok { w with heap := delIterateKs parentKey w.heap iterateKs }

/-- `keyDel (ksLookup (..., KDB_O_POP))` -/
def deletePopped (found : Option KeyRef × World) : World := found.1.elim found.2 found.2.del

/-- What a key is replaced by; `parentKeyName` is the full name of the parent. -/
def renameSet (key parent : Key) (parentKeyName : Str) : Key :=
  let renamedKey := (restoreKeyName key parent config.cut).getD (keyDup key)
  if config.writeConversion = .TOUPPER ∨ config.writeConversion = .TOLOWER then
    let curKeyName := keyGetFullName renamedKey
    (keySetName renamedKey (some (curKeyName.take parentKeyName.length ++
      doConversion (curKeyName.drop parentKeyName.length) 0 config.writeConversion))).2
  else renamedKey

/-- The loop of `elektraRenameSet`. -/
def setLoop (parentKeyName : Str) : List KeyRef → World → Except Stop World
  | [], w => .ok w
  | key :: iterateKs, w => do
    let isParent := keyCmp (some (w.cell key)) (some (w.cell parentKey)) = .eq
    if config.writeConversion ≠ .KEYNAME then
      let (renamedKey, w) := w.alloc (renameSet config (w.cell key) (w.cell parentKey) parentKeyName)
      let w ← if isParent then .ok w else deletePopped <$> ksLookup cb fuel w key { pop := true }
      setLoop parentKeyName iterateKs ((w.appendKey renamedKey).del renamedKey)
    else
      let origName := (keyGetMeta (w.cell key) ELEKTRA_ORIGINAL_NAME_META).getD (str "(null)")
      let w ← if isParent then .ok w
        else deletePopped <$> ksLookupByName cb fuel w origName { pop := true }
      setLoop parentKeyName iterateKs (w.appendKey key)

def elektraRenameSet (h : Heap) (returned : KeySet) : Except Stop World := do
  let (h, iterateKs) := ksDup h returned
  let w ← setLoop cb fuel config parentKey (keyGetFullName (h.cell parentKey)) iterateKs.array
    { heap := h, ks := returned }
  .ok { heap := delIterateKs parentKey w.heap iterateKs, ks := ksRewind w.ks }

end Code

/-! ## What is expected -/

/-- The key that stands for a key after a get. -/
def got (config : Config) (key parent : Key) : Key :=
  setOrigName ((renameGet config key parent).getD key) (keyName key)

/-- A key at a path that can be set as a name; without owner. -/
structure Source (key : Key) (P : Path) : Prop where
  name : HasName key P
  root : P.root ≠ .cascading
  accepted : ¬BackslashPart P.escaped
  owner : keyGetMeta key (str "owner") = none
  callback : callbackPointer key = none
  unlocked : key.roMeta = false

/-- The name, the value and the metadata but `origname`, which is gone when the name was changed. -/
structure Restored (config : Config) (parent before after : Key) : Prop where
  ident : ident after = ident before
  key : after.key = before.key
  data : after.data = before.data
  metas : ∀ n, n ≠ ELEKTRA_ORIGINAL_NAME_META → keyGetMeta after n = keyGetMeta before n
  origName : keyName (got config before parent) ≠ keyName before →
    keyGetMeta after ELEKTRA_ORIGINAL_NAME_META = none

/-! ## Names -/

section Names

variable {config : Config} {key parent r a b : Key} {P Q : Path}

theorem Source.takeable (h : Source key P) : Takeable key :=
  ⟨⟨P.name, h.name.finalized, fun hd => h.root (P.head_name.mp hd)⟩, h.owner, h.callback⟩

theorem getMeta_of_rest (h : a.rest = b.rest) (n : Str) : keyGetMeta a n = keyGetMeta b n := by
  have hmeta : a.metaKeys = b.metaKeys := congrArg (fun r => r.2.1) h
  rw [keyGetMeta, keyGetMeta, hmeta]

theorem callbackPointer_congr (hdata : a.data = b.data) (hc : keyGetMeta a (str "callback") = keyGetMeta b (str "callback"))
    (hb : keyGetMeta a (str "binary") = keyGetMeta b (str "binary")) : callbackPointer a = callbackPointer b := by
  rw [callbackPointer, callbackPointer, keyIsBinary, keyIsBinary, hdata, hc, hb]

/-- Setting the name of a path changes nothing else in a key without owner. -/
theorem keySetName_keeps (hown : keyGetMeta key (str "owner") = none) (hP : ¬BackslashPart P.escaped) :
    HasName (keySetName (keyDup key) (some P.name)).2 P ∧
      (keySetName (keyDup key) (some P.name)).2.roName = false ∧
      (keySetName (keyDup key) (some P.name)).2.roMeta = false ∧
      (keySetName (keyDup key) (some P.name)).2.data = key.data ∧
      ∀ n, keyGetMeta (keySetName (keyDup key) (some P.name)).2 n = keyGetMeta key n := by
  have hro : (keyDup key).roName = false := rfl
  have hrest := keySetName_rest hro P
  obtain ⟨l, b, howner⟩ := keySetMeta_fields (elektraRemoveKeyName (keyDup key)) (str "owner") none
  obtain ⟨-, hbad⟩ | ⟨-, -, hname⟩ := keySetName_name hro P
  · exact absurd hbad hP
  · obtain ⟨name, hset⟩ := keySetName_finalized P.name
    refine ⟨hname, (hset _ hro).2, ?_, ?_, fun n => ?_⟩
    · have hlock := congrArg (fun r => r.2.2) hrest
      exact hlock.trans (congrArg Key.roMeta howner)
    · have hdata : (keySetOwner (elektraRemoveKeyName (keyDup key)) none).data = key.data := by
        change (keySetMeta (elektraRemoveKeyName (keyDup key)) (str "owner") none).2.data = key.data
        rw [howner]
        rfl
      exact (congrArg Prod.fst hrest).trans hdata
    · rw [getMeta_of_rest hrest]
      change keyGetMeta (keySetMeta (elektraRemoveKeyName (keyDup key)) (str "owner") none).2 n = _
      rw [keyGetMeta_keySetMeta rfl]
      split_ifs with hn
      · rw [hn, hown]
      · rfl

theorem renameGet_spec (hkey : Source key P) (hparent : Source parent Q) (h : renameGet config key parent = some r) :
    (∃ name, Finalized r (some name) ∧ name.head? ≠ some pathSeparator) ∧ r.roMeta = false ∧
      r.data = key.data ∧ ∀ n, keyGetMeta r n = keyGetMeta key n := by
  unfold renameGet elektraKeyCreateNewName at h
  dsimp only at h
  split_ifs at h
  all_goals
    obtain rfl := Option.some.inj h
    have hname : keyName parent = Q.name := by rw [keyName, hparent.name.key, Option.getD_some]
    rw [hname]
    obtain ⟨hQ, hro, hlock, hdata, hmeta⟩ := keySetName_keeps hkey.owner hparent.accepted
    refine ⟨keyAddName_named hQ hro hparent.root _, ?_, ?_, fun n => ?_⟩
    · exact (congrArg (fun r => r.2.2) (keyAddName_rest _ _)).trans hlock
    · exact (congrArg Prod.fst (keyAddName_rest _ _)).trans hdata
    · exact (getMeta_of_rest (keyAddName_rest _ _) n).trans (hmeta n)

theorem setOrigName_getMeta (hlock : r.roMeta = false) (name n : Str) :
    keyGetMeta (setOrigName r name) n =
      if n = ELEKTRA_ORIGINAL_NAME_META then some name else keyGetMeta r n :=
  keyGetMeta_keySetMeta hlock _ _ _

theorem setOrigName_fields (r : Key) (name : Str) :
    ∃ l b, setOrigName r name = { r with metaKeys := l, sync := b } := keySetMeta_fields r _ _

theorem finalized_setOrigName {name : Option Str} (h : Finalized r name) (n : Str) :
    Finalized (setOrigName r n) name := by
  obtain ⟨l, b, he⟩ := setOrigName_fields r n
  rw [he]
  exact ⟨h.key, h.ukey, h.sized⟩

/-- **What stands for a key after a get.** -/
theorem got_spec (hkey : Source key P) (hparent : Source parent Q) :
    Takeable (got config key parent) ∧ (got config key parent).data = key.data ∧
      (∀ n, n ≠ ELEKTRA_ORIGINAL_NAME_META → keyGetMeta (got config key parent) n = keyGetMeta key n) ∧
      keyGetMeta (got config key parent) ELEKTRA_ORIGINAL_NAME_META = some P.name := by
  have hname : keyName key = P.name := by rw [keyName, hkey.name.key, Option.getD_some]
  -- the key before `origname` is set
  obtain ⟨r, hr, ⟨name, hf, hd⟩, hlock, hdata, hmeta⟩ : ∃ r, (renameGet config key parent).getD key = r ∧
      (∃ name, Finalized r (some name) ∧ name.head? ≠ some pathSeparator) ∧ r.roMeta = false ∧
      r.data = key.data ∧ ∀ n, keyGetMeta r n = keyGetMeta key n := by
    cases h : renameGet config key parent with
    | none => exact ⟨key, rfl, hkey.takeable.named, hkey.unlocked, rfl, fun _ => rfl⟩
    | some r => exact ⟨r, rfl, renameGet_spec hkey hparent h⟩
  have hget := fun n => (setOrigName_getMeta hlock P.name n).trans (if_congr Iff.rfl rfl (hmeta n))
  have hsame : ∀ n, n ≠ ELEKTRA_ORIGINAL_NAME_META →
      keyGetMeta (setOrigName r P.name) n = keyGetMeta key n := fun n hn => by rw [hget, if_neg hn]
  have hdata' : (setOrigName r P.name).data = key.data := by
    obtain ⟨l, b, he⟩ := setOrigName_fields r P.name
    rw [he]
    exact hdata
  rw [got, hr, hname]
  refine ⟨⟨⟨name, finalized_setOrigName hf _, hd⟩, ?_, ?_⟩, hdata', hsame, by rw [hget, if_pos rfl]⟩
  · rw [hsame _ (by decide)]
    exact hkey.owner
  · rw [callbackPointer_congr hdata' (hsame _ (by decide)) (hsame _ (by decide))]
    exact hkey.callback

/-- The parent key may get other metadata. -/
structure SameParent (parent p : Key) : Prop extends SameName parent p where
  owner : keyGetMeta p (str "owner") = none

theorem Source.sameParent (h : Source parent Q) : SameParent parent parent := ⟨⟨rfl, rfl, rfl, rfl⟩, h.owner⟩

theorem SameParent.dup {p : Key} (h : SameParent parent a) (hd : keyDup p = keyDup a) : SameParent parent p := by
  refine ⟨h.toSameName.trans (sameName_of_dup hd), ?_⟩
  change keyGetMeta (keyDup p) (str "owner") = none
  rw [hd]
  exact h.owner

theorem SameParent.setOrigName {p : Key} (h : SameParent parent p) (hlock : p.roMeta = false) (name : Str) :
    SameParent parent (setOrigName p name) := by
  have howner : keyGetMeta (Rename.setOrigName p name) (str "owner") = none := by
    rw [setOrigName_getMeta hlock, if_neg (by decide)]
    exact h.owner
  obtain ⟨l, b, he⟩ := setOrigName_fields p name
  exact ⟨⟨by rw [he]; exact h.key, by rw [he]; exact h.ukey, by rw [he]; exact h.keySize,
    by rw [he]; exact h.keyUSize⟩, howner⟩

theorem renameGet_congr (hparent : Source parent Q) {p : Key} (hp : SameParent parent p)
    (h : keyDup a = keyDup key) : renameGet config a p = renameGet config key parent := by
  have hname : keyName p = keyName parent := by rw [keyName, keyName, hp.key]
  have hfull : keyGetFullName p = keyGetFullName parent := by
    rw [keyGetFullName, keyGetFullName, hp.owner, hparent.owner, hname]
  change renameGet config (keyDup a) p = renameGet config (keyDup key) parent
  rw [h, renameGet, renameGet, elektraKeyCreateNewName, elektraKeyCreateNewName, hfull, hname]

theorem keyDup_setOrigName (hlock : r.roMeta = false) (name : Str) :
    keyDup (setOrigName r name) = setOrigName (keyDup r) name := by
  unfold setOrigName keySetMeta
  rw [hlock]
  rfl

theorem got_congr (hkey : key.roMeta = false) (hparent : Source parent Q) {p : Key} (hp : SameParent parent p)
    (ha : a.roMeta = false) (h : keyDup a = keyDup key) :
    keyDup (got config a p) = keyDup (got config key parent) := by
  have hname : keyName a = keyName key := by rw [keyName, keyName, (sameName_of_dup h).key]
  rw [got, got, renameGet_congr hparent hp h, hname]
  cases renameGet config key parent with
  | some r => rfl
  | none => rw [Option.getD_none, Option.getD_none, keyDup_setOrigName ha, keyDup_setOrigName hkey, h]

theorem Restored.congr {before : Key} (h : Restored config parent before a) (hd : keyDup b = keyDup a) :
    Restored config parent before b where
  ident := (ident_of_dup hd).trans h.ident
  key := (sameName_of_dup hd).key.trans h.key
  data := (congrArg Key.data hd).trans h.data
  metas n hn := by
    change keyGetMeta (keyDup b) n = _
    rw [hd]
    exact h.metas n hn
  origName hne := by
    change keyGetMeta (keyDup b) _ = none
    rw [hd]
    exact h.origName hne

/-- **A set restores what stands for a key.** -/
theorem renameSet_spec (hset : config.writeConversion = .UNCHNGD) (hkey : Source key P)
    (hparent : Source parent Q) {g : Key} (hg : keyDup g = keyDup (got config key parent)) (p : Key)
    (parentKeyName : Str) :
    Restored config parent key (renameSet config g p parentKeyName) ∧
      Storable (renameSet config g p parentKeyName) := by
  obtain ⟨htake, hdata, hmeta, horig⟩ := @got_spec config key parent P Q hkey hparent
  have hname : keyName key = P.name := by rw [keyName, hkey.name.key, Option.getD_some]
  have hgname : keyName g = keyName (got config key parent) := by
    rw [keyName, keyName, (sameName_of_dup hg).key]
  have hgmeta : ∀ n, keyGetMeta g n = keyGetMeta (got config key parent) n := fun n => by
    change keyGetMeta (keyDup g) n = _
    rw [hg]
    rfl
  have hgdata : g.data = key.data := (congrArg Key.data hg).trans hdata
  have hident : ident key = (P.uname, none) := Prod.ext hkey.name.ukey hkey.owner
  rw [renameSet, hset, if_neg (by simp), restoreKeyName, hgmeta, horig]
  dsimp only
  split_ifs with hne
  · -- the name was changed
    have hown : keyGetMeta g (str "owner") = none := by
      rw [hgmeta, hmeta _ (by decide)]
      exact hkey.owner
    obtain ⟨hP, -, hlock, hdata', hmeta'⟩ := keySetName_keeps hown hkey.accepted
    obtain ⟨l, b, he⟩ := keySetMeta_fields (keySetName (keyDup g) (some P.name)).2
      ELEKTRA_ORIGINAL_NAME_META none
    have hget := fun n => keyGetMeta_keySetMeta hlock ELEKTRA_ORIGINAL_NAME_META none n
    have hsync : ∀ r : Key, ∃ s, keepSync g r = { r with sync := s } := fun r => by
      unfold keepSync
      split_ifs
      · exact ⟨r.sync, rfl⟩
      · exact ⟨false, rfl⟩
    rw [Option.getD_some]
    obtain ⟨s, hs⟩ := hsync (keySetMeta (keySetName (keyDup g) (some P.name)).2
      ELEKTRA_ORIGINAL_NAME_META none).2
    rw [hs]
    rw [he] at hget ⊢
    have hall : ∀ n, n ≠ ELEKTRA_ORIGINAL_NAME_META → keyGetMeta
        { (keySetName (keyDup g) (some P.name)).2 with metaKeys := l, sync := s } n = keyGetMeta key n := by
      intro n hn
      have hn' := hget n
      rw [if_neg hn, hmeta', hgmeta, hmeta n hn] at hn'
      exact hn'
    refine ⟨⟨?_, hP.key.trans hkey.name.key.symm, hdata'.trans hgdata, hall, fun _ => ?_⟩, ?_, ?_⟩
    · rw [hident]
      exact Prod.ext hP.ukey ((hall _ (by decide)).trans hkey.owner)
    · have hn' := hget ELEKTRA_ORIGINAL_NAME_META
      rw [if_pos rfl] at hn'
      exact hn'
    · exact fun h => by cases hP.key.symm.trans h
    · exact hP.keyUSize.trans (congrArg List.length hP.ukey).symm
  · -- it was not
    rw [not_not] at hne
    obtain ⟨⟨name, hf, -⟩, -, -⟩ := htake
    have hfg : Finalized g (some name) := finalized_dup hg hf
    have hsame : name = P.name := by
      rw [hne, keyName, hfg.key, Option.getD_some]
    rw [Option.getD_none]
    refine ⟨⟨?_, ?_, hgdata, fun n hn => ?_, fun hchanged => ?_⟩, ?_, hfg.sized⟩
    · rw [hident]
      refine Prod.ext ?_ ?_
      · exact (hfg.ukey name rfl).trans (hsame ▸ (hkey.name.finalized.ukey _ rfl).symm.trans hkey.name.ukey)
      · exact ((hgmeta _).trans (hmeta _ (by decide))).trans hkey.owner
    · rw [hkey.name.key, ← hsame]
      exact hfg.key
    · exact (hgmeta n).trans (hmeta n hn)
    · exact absurd (hgname.symm.trans (hne.symm.trans hname.symm)) hchanged
    · exact fun h => by cases hfg.key.symm.trans h

end Names

/-! ## The loops -/

open Relocate Function

section Loops

variable {cb : Callback} {fuel : ℕ} {config : Config} {parentKey : KeyRef} {parent : Key} {Q : Path}
  {cell : KeyRef → Key} {m : Ident → Option KeyRef} {w : World} {k : KeyRef}

/-- The move of a key by a get. -/
def getMove (config : Config) (parent : Key) (cell : KeyRef → Key) (rep : KeyRef → KeyRef) (k : KeyRef) :
    Move Ident KeyRef :=
  ⟨some (ident (cell k)), ident (got config (cell k) parent), rep k⟩

theorem ownerless_update {m : Ident → Option KeyRef} (h : Ownerless m) {id : Ident} {r : Option KeyRef}
    (hid : r ≠ none → id.2 = none) : Ownerless (update m id r) := by
  intro i hi
  by_cases he : i = id
  · rw [he] at hi ⊢
    rw [update_self] at hi
    exact hid hi
  · rw [update_of_ne he] at hi
    exact h i hi

theorem replace_spec (hm : w.ks.Holds w.heap m) (hown : Ownerless m) (hlt : k < w.heap.next)
    (hk : Takeable (w.cell k)) {key : Key} (hkey : Storable key) :
    ∃ found w₁, ksLookup cb (fuel + 1) (w.alloc key).2 k { pop := true } = .ok (found, w₁) ∧
      Idle w.heap w₁.heap ∧ w.heap.next < w₁.heap.next ∧ keyDup (w₁.cell w.heap.next) = keyDup key ∧
      w₁.ks.Holds w₁.heap (update m (ident (w.cell k)) none) ∧ Entry w₁.heap w.heap.next := by
  have halloc := idle_alloc w.heap key
  have hcell : (w.alloc key).2.cell k = w.cell k := update_of_ne (Nat.ne_of_lt hlt) _ _
  have hlt' : k < (w.alloc key).2.heap.next := lt_of_lt_of_le hlt halloc.next
  obtain ⟨found, w₁, hret, hholds, hidle⟩ := @ksLookup_takes cb fuel (w.alloc key).2 m k
    (hm.keeps halloc.toKeeps) hown hlt' (hcell ▸ hk)
  rw [hcell] at hholds
  have hnew : w.heap.next < (w.alloc key).2.heap.next := Nat.lt_succ_self _
  have hentry : Entry (w.alloc key).2.heap w.heap.next := by
    have hself : (w.alloc key).2.heap.cell w.heap.next = key := update_self _ _ _
    exact ⟨hnew, by rw [hself]; exact hkey.1, by rw [hself]; exact hkey.2⟩
  refine ⟨found, w₁, hret, halloc.trans hidle, lt_of_lt_of_le hnew hidle.next, ?_, hholds,
    hentry.keeps hidle.toKeeps⟩
  rw [show w₁.cell w.heap.next = w₁.heap.cell w.heap.next from rfl, hidle.dup hnew]
  exact congrArg keyDup (update_self _ _ _)

theorem getLoop_some {keys : List KeyRef} {r : Key} (hm : w.ks.Holds w.heap m) (hown : Ownerless m)
    (hlt : k < w.heap.next) (hk : Takeable (w.cell k))
    (hr : renameGet config (w.cell k) (w.cell parentKey) = some r)
    (hkey : Storable (setOrigName r (keyName (w.cell k)))) :
    ∃ w₁, getLoop cb (fuel + 1) config parentKey (k :: keys) w = getLoop cb (fuel + 1) config parentKey keys w₁ ∧
      Idle w.heap w₁.heap ∧ w.heap.next < w₁.heap.next ∧
      keyDup (w₁.cell w.heap.next) = keyDup (setOrigName r (keyName (w.cell k))) ∧
      w₁.ks.Holds w₁.heap (Move.run m ⟨some (ident (w.cell k)), ident (setOrigName r (keyName (w.cell k))),
        w.heap.next⟩) := by
  obtain ⟨found, w₀, hlookup, hidle, hnew, hdup, hholds, hentry⟩ := @replace_spec cb fuel m w k hm hown hlt hk _ hkey
  have hdel := idle_del w₀.heap k
  -- with or without the references to the parent key
  obtain ⟨h₁, hh₁, hloop⟩ : ∃ h₁, Idle w₀.heap h₁ ∧ ∃ h₂ : Heap → Heap, (∀ h, Idle h (h₂ h)) ∧
      getLoop cb (fuel + 1) config parentKey (k :: keys) w = getLoop cb (fuel + 1) config parentKey keys
        { (World.appendKey ⟨h₁, w₀.ks⟩ w.heap.next) with
          heap := h₂ (World.appendKey ⟨h₁, w₀.ks⟩ w.heap.next).heap } := by
    by_cases hp : keyCmp (some ((w₀.del k).cell w.heap.next)) (some ((w₀.del k).cell parentKey)) = .eq
    · refine ⟨keyIncRef (w₀.del k).heap parentKey, hdel.trans (idle_incRef _ _), fun h => keyDecRef h parentKey,
        fun h => idle_decRef h parentKey, ?_⟩
      rw [getLoop, hr]
      simp only [World.alloc, Heap.alloc] at hlookup ⊢
      simp only [hlookup, bind, Except.bind, hp, if_true]
      rfl
    · refine ⟨(w₀.del k).heap, hdel, id, Idle.refl, ?_⟩
      rw [getLoop, hr]
      simp only [World.alloc, Heap.alloc] at hlookup ⊢
      simp only [hlookup, bind, Except.bind, hp, if_false]
      rfl
  obtain ⟨h₂, hh₂, hloop⟩ := hloop
  obtain ⟨happend, hidle'⟩ := @appendKey_idle ⟨h₁, w₀.ks⟩ _ w.heap.next (hholds.keeps hh₁.toKeeps)
    (hentry.keeps hh₁.toKeeps)
  have hall := hh₁.trans (hidle'.trans (hh₂ _))
  have hident : h₁.ident w.heap.next = ident (setOrigName r (keyName (w.cell k))) :=
    ident_of_dup ((hh₁.dup hnew).trans hdup)
  rw [hident] at happend
  exact ⟨_, hloop, hidle.trans hall, lt_of_lt_of_le hnew hall.next, (hall.dup hnew).trans hdup,
    happend.keeps (hh₂ _).toKeeps⟩

theorem getLoop_none {keys : List KeyRef} (hm : w.ks.Holds w.heap m) (hlock : (w.cell k).roMeta = false)
    (hr : renameGet config (w.cell k) (w.cell parentKey) = none) :
    ∃ w₁, getLoop cb fuel config parentKey (k :: keys) w = getLoop cb fuel config parentKey keys w₁ ∧
      w₁.heap.next = w.heap.next ∧ w₁.cell k = setOrigName (w.cell k) (keyName (w.cell k)) ∧
      (∀ j, j ≠ k → w₁.cell j = w.cell j) ∧ w₁.ks.Holds w₁.heap m := by
  refine ⟨w.set k (setOrigName (w.cell k) (keyName (w.cell k))), by rw [getLoop, hr], rfl,
    set_cell_self _ _ _, fun j hj => set_cell_ne hj, hm.of_names fun j hj => ?_⟩
  have hentry := hm.entry j hj
  have hlocked := hm.locked j hj
  by_cases he : j = k
  · subst he
    have hself : (w.set j (setOrigName (w.cell j) (keyName (w.cell j)))).heap.cell j =
      setOrigName (w.cell j) (keyName (w.cell j)) := set_cell_self _ _ _
    have howner : keyGetMeta (setOrigName (w.cell j) (keyName (w.cell j))) (str "owner") =
        keyGetMeta (w.cell j) (str "owner") := by
      rw [setOrigName_getMeta hlock, if_neg (by decide)]
    obtain ⟨l, b, hfields⟩ := setOrigName_fields (w.cell j) (keyName (w.cell j))
    refine ⟨?_, ⟨hentry.lt, ?_, ?_⟩, ?_⟩
    · refine Prod.ext ?_ ?_
      · rw [Heap.ident, hself, hfields]
        rfl
      · rw [Heap.ident, hself]
        exact howner
    all_goals rw [hself, hfields]
    · exact hentry.named
    · exact hentry.sized
    · exact hlocked
  · have hcell : (w.set k (setOrigName (w.cell k) (keyName (w.cell k)))).heap.cell j = w.heap.cell j :=
      set_cell_ne he
    refine ⟨?_, ⟨hentry.lt, ?_, ?_⟩, ?_⟩
    · rw [Heap.ident, hcell]
      rfl
    all_goals rw [hcell]
    · exact hentry.named
    · exact hentry.sized
    · exact hlocked

/-- A key that the loop has not come to. -/
structure Before (cell : KeyRef → Key) (w : World) (k : KeyRef) : Prop where
  lt : k < w.heap.next
  dup : keyDup (w.cell k) = keyDup (cell k)
  lock : (w.cell k).roMeta = false
  source : ∃ P, Source (cell k) P

/-- What a round of a get does; `ref` stands for the key then. -/
structure Stepped (config : Config) (parentKey : KeyRef) (parent : Key) (cell : KeyRef → Key)
    (m : Ident → Option KeyRef) (w w₁ : World) (k ref : KeyRef) : Prop where
  next : w.heap.next ≤ w₁.heap.next
  lt : ref < w₁.heap.next
  new : ref = k ∨ w.heap.next ≤ ref
  dup : keyDup (w₁.cell ref) = keyDup (got config (cell k) parent)
  others : ∀ j < w.heap.next, j ≠ k →
    keyDup (w₁.cell j) = keyDup (w.cell j) ∧ (w₁.cell j).roMeta = (w.cell j).roMeta
  holds : w₁.ks.Holds w₁.heap (Move.run m (getMove config parent cell (fun _ => ref) k))
  parent : SameParent parent (w₁.cell parentKey)

/-- **A round puts a key in the place of its own.** -/
theorem getLoop_step {keys : List KeyRef} (hparent : Source parent Q) (hm : w.ks.Holds w.heap m)
    (hown : Ownerless m) (hk : Before cell w k) (hmk : m (ident (cell k)) = some k)
    (hlt : parentKey < w.heap.next) (hp : SameParent parent (w.cell parentKey)) :
    ∃ w₁ ref, getLoop cb (fuel + 1) config parentKey (k :: keys) w =
        getLoop cb (fuel + 1) config parentKey keys w₁ ∧
      Stepped config parentKey parent cell m w w₁ k ref := by
  obtain ⟨P, hsource⟩ := hk.source
  have hcongr := @renameGet_congr config (cell k) parent (w.cell k) Q hparent (w.cell parentKey) hp hk.dup
  have hgot := @got_congr config (cell k) parent (w.cell k) Q hsource.unlocked hparent _ hp hk.lock hk.dup
  have htake := (@got_spec config (cell k) parent P Q hsource hparent).1
  have hident : ident (w.cell k) = ident (cell k) := ident_of_dup hk.dup
  cases hr : renameGet config (w.cell k) (w.cell parentKey) with
  | some r =>
    have heq : got config (w.cell k) (w.cell parentKey) = setOrigName r (keyName (w.cell k)) := by
      rw [got, hr, Option.getD_some]
    rw [heq] at hgot
    have hstorable : Storable (setOrigName r (keyName (w.cell k))) := by
      obtain ⟨name, hf, -⟩ := (htake.dup hgot).named
      exact ⟨fun h => (by cases hf.key.symm.trans h), hf.sized⟩
    obtain ⟨w₁, hloop, hidle, hnew, hdup, hholds⟩ := @getLoop_some cb fuel config parentKey m w k keys r hm hown
      hk.lt (hsource.takeable.dup hk.dup) hr hstorable
    refine ⟨w₁, w.heap.next, hloop, hidle.next, hnew, .inr le_rfl, hdup.trans hgot, fun j hj _ =>
      ⟨hidle.dup hj, hidle.lock j hj⟩, ?_, hp.dup (hidle.dup hlt)⟩
    rw [hident, ident_of_dup hgot] at hholds
    exact hholds
  | none =>
    obtain ⟨w₁, hloop, hnext, hself, hothers, hholds⟩ := @getLoop_none cb (fuel + 1) config parentKey m w k keys hm hk.lock hr
    have heq : got config (w.cell k) (w.cell parentKey) = w₁.cell k := by
      rw [got, hr, Option.getD_none, hself]
    rw [heq] at hgot
    -- the key keeps its name
    have hsame : ident (got config (cell k) parent) = ident (cell k) := by
      have howner : keyGetMeta (got config (cell k) parent) (str "owner") = keyGetMeta (cell k) (str "owner") :=
        htake.owner.trans hsource.owner.symm
      have hnone : renameGet config (cell k) parent = none := hcongr.symm.trans hr
      refine Prod.ext ?_ howner
      obtain ⟨l, b, hfields⟩ := setOrigName_fields (cell k) (keyName (cell k))
      rw [ident, got, hnone, Option.getD_none, hfields]
      rfl
    refine ⟨w₁, k, hloop, hnext.ge, hnext ▸ hk.lt, .inl rfl, hgot, fun j _ hj => ?_, ?_, ?_⟩
    · rw [hothers j hj]
      exact ⟨rfl, rfl⟩
    · have hrun : Move.run m (getMove config parent cell (fun _ => k) k) = m := by
        rw [Move.run, getMove, hsame, takeOut, update_idem, ← hmk, update_eq_self]
      rw [hrun]
      exact hholds
    · by_cases he : parentKey = k
      · rw [he, hself]
        exact (he ▸ hp).setOrigName hk.lock _
      · rw [hothers _ he]
        exact hp

theorem getMove_owner (hparent : Source parent Q) {rep : KeyRef → KeyRef} (hsource : ∃ P, Source (cell k) P) :
    (getMove config parent cell rep k).into.2 = none := by
  obtain ⟨P, hP⟩ := hsource
  exact (got_spec hP hparent).1.owner

theorem run_ownerless {s : Move Ident KeyRef} (hown : Ownerless m) (hs : s.into.2 = none) :
    Ownerless (Move.run m s) := by
  refine ownerless_update ?_ fun _ => hs
  cases hout : s.out with
  | none => exact hown
  | some i => exact ownerless_update hown fun h => absurd rfl h

/-- The new name of a key, and its old one, are not the old name of a later one. -/
def Apart (config : Config) (parent : Key) (cell : KeyRef → Key) (j k : KeyRef) : Prop :=
  ident (got config (cell j) parent) ≠ ident (cell k) ∧ ident (cell j) ≠ ident (cell k)

/-- **The loop of a get moves the keys.** -/
theorem getLoop_spec (hparent : Source parent Q) : ∀ {keys : List KeyRef} {w : World}
    {m : Ident → Option KeyRef}, w.ks.Holds w.heap m → Ownerless m → keys.Nodup →
    (∀ k ∈ keys, Before cell w k ∧ m (ident (cell k)) = some k) → keys.Pairwise (Apart config parent cell) →
    parentKey < w.heap.next → SameParent parent (w.cell parentKey) →
    ∃ w' rep, getLoop cb (fuel + 1) config parentKey keys w = .ok w' ∧
      w'.ks.Holds w'.heap (moveAll m (keys.map (getMove config parent cell rep))) ∧
      w.heap.next ≤ w'.heap.next ∧ SameParent parent (w'.cell parentKey) ∧
      (∀ k ∈ keys, rep k < w'.heap.next ∧ keyDup (w'.cell (rep k)) = keyDup (got config (cell k) parent)) ∧
      ∀ r < w.heap.next, r ∉ keys → keyDup (w'.cell r) = keyDup (w.cell r)
  | [], w, m, hm, _, _, _, _, _, hp =>
    ⟨w, id, rfl, hm, le_rfl, hp, by simp, fun _ _ _ => rfl⟩
  | k :: keys, w, m, hm, hown, hnodup, hkeys, hapart, hlt, hp => by
    obtain ⟨hk, hnodup⟩ := List.nodup_cons.mp hnodup
    obtain ⟨hkapart, hapart⟩ := List.pairwise_cons.mp hapart
    obtain ⟨hbefore, hmk⟩ := hkeys k List.mem_cons_self
    obtain ⟨w₁, ref, hloop, hstep⟩ := @getLoop_step cb fuel config parentKey parent Q cell m w k keys hparent hm
      hown hbefore hmk hlt hp
    have hne : ∀ j ∈ keys, j ≠ k := fun j hj he => hk (he ▸ hj)
    have hown₁ : Ownerless (Move.run m (getMove config parent cell (fun _ => ref) k)) :=
      run_ownerless hown (getMove_owner hparent hbefore.source)
    obtain ⟨w', rep, hret, hholds, hnext, hp', hrep, hothers⟩ := getLoop_spec hparent hstep.holds hown₁ hnodup
      (fun j hj => by
        obtain ⟨hj', hmj⟩ := hkeys j (List.mem_cons_of_mem k hj)
        obtain ⟨hdup, hlock⟩ := hstep.others j hj'.lt (hne j hj)
        obtain ⟨hnew, hold⟩ := hkapart j hj
        refine ⟨⟨lt_of_lt_of_le hj'.lt hstep.next, hdup.trans hj'.dup, hlock.trans hj'.lock, hj'.source⟩, ?_⟩
        rw [Move.run_other hnew fun h => hold (Option.some.inj h)]
        exact hmj)
      hapart (lt_of_lt_of_le hlt hstep.next) hstep.parent
    have href : ref ∉ keys := by
      obtain hself | hnew := hstep.new
      · rwa [hself]
      · exact fun hmem => not_le.mpr (hkeys ref (List.mem_cons_of_mem k hmem)).1.lt hnew
    have hmap : keys.map (getMove config parent cell fun j => if j = k then ref else rep j) =
        keys.map (getMove config parent cell rep) :=
      List.map_congr_left fun j hj => by rw [getMove, getMove, if_neg (hne j hj)]
    refine ⟨w', fun j => if j = k then ref else rep j, hloop.trans hret, ?_, hstep.next.trans hnext, hp',
      fun j hj => ?_, fun r hr hmem => ?_⟩
    · rw [List.map_cons, moveAll_cons, hmap]
      have hfirst : getMove config parent cell (fun j => if j = k then ref else rep j) k =
          getMove config parent cell (fun _ => ref) k := by rw [getMove, getMove, if_pos rfl]
      rw [hfirst]
      exact hholds
    · obtain rfl | hj := List.mem_cons.mp hj
      · dsimp only
        rw [if_pos rfl]
        exact ⟨lt_of_lt_of_le hstep.lt hnext, (hothers ref hstep.lt href).trans hstep.dup⟩
      · dsimp only
        rw [if_neg (hne j hj)]
        exact hrep j hj
    · rw [List.mem_cons, not_or] at hmem
      rw [hothers r (lt_of_lt_of_le hr hstep.next) hmem.2]
      exact (hstep.others r hr hmem.1).1

/-- The move of a key by a set; the parent key is not taken out. -/
def setMove (config : Config) (parent : Key) (before : KeyRef → Key) (rep : KeyRef → KeyRef) (k : KeyRef) :
    Move Ident KeyRef :=
  ⟨if ident (got config (before k) parent) = ident parent then none else some (ident (got config (before k) parent)),
    ident (before k), rep k⟩

theorem keyCmp_parent {a p : Key} (ha : Takeable a) (hparent : Source parent Q) (hp : SameParent parent p) :
    keyCmp (some a) (some p) = .eq ↔ ident a = ident parent := by
  obtain ⟨name, hf, -⟩ := ha.named
  have hident : ident p = ident parent := Prod.ext hp.ukey (hp.owner.trans hparent.owner.symm)
  have hsized : Sized p := by
    rw [Sized, hp.keyUSize, hp.ukey, hparent.name.keyUSize, hparent.name.ukey]
  have hcmp : keyCmp (some a) (some p) = keyCompareByNameOwner a p := by
    rw [keyCmp, hf.key, hp.key, hparent.name.key]
  rw [hcmp, keyCompareByNameOwner_eq hf.sized hsized, identCmp_eq_iff, hident]

theorem setLoop_step {keys : List KeyRef} {before : Key} {P : Path} {parentKeyName : Str}
    (hset : config.writeConversion = .UNCHNGD) (hparent : Source parent Q) (hm : w.ks.Holds w.heap m)
    (hown : Ownerless m) (hlt : k < w.heap.next) (hsource : Source before P)
    (hk : keyDup (w.cell k) = keyDup (got config before parent)) (hp : SameParent parent (w.cell parentKey)) :
    ∃ w₁, setLoop cb (fuel + 1) config parentKey parentKeyName (k :: keys) w =
        setLoop cb (fuel + 1) config parentKey parentKeyName keys w₁ ∧
      Idle w.heap w₁.heap ∧ w.heap.next < w₁.heap.next ∧
      Restored config parent before (w₁.cell w.heap.next) ∧
      w₁.ks.Holds w₁.heap (Move.run m (setMove config parent (fun _ => before) (fun _ => w.heap.next) k)) := by
  obtain ⟨hrestored, hstorable⟩ := renameSet_spec hset hsource hparent hk (w.cell parentKey) parentKeyName
  have htake := (@got_spec config before parent P Q hsource hparent).1.dup hk
  have hident : ident (w.cell k) = ident (got config before parent) := ident_of_dup hk
  have hparent' := keyCmp_parent htake hparent hp
  rw [hident] at hparent'
  -- the key is taken out, unless it has the name of the parent
  obtain ⟨w₀, hloop, hidle, hnew, hdup, hholds, hentry⟩ : ∃ w₀ : World,
      setLoop cb (fuel + 1) config parentKey parentKeyName (k :: keys) w =
        setLoop cb (fuel + 1) config parentKey parentKeyName keys ((w₀.appendKey w.heap.next).del w.heap.next) ∧
      Idle w.heap w₀.heap ∧ w.heap.next < w₀.heap.next ∧
      keyDup (w₀.cell w.heap.next) = keyDup (renameSet config (w.cell k) (w.cell parentKey) parentKeyName) ∧
      w₀.ks.Holds w₀.heap (takeOut m (if ident (got config before parent) = ident parent then none
        else some (ident (got config before parent)))) ∧ Entry w₀.heap w.heap.next := by
    have hkeyname : config.writeConversion ≠ .KEYNAME := by
      rw [hset]
      decide
    by_cases hpar : ident (got config before parent) = ident parent
    · have halloc := idle_alloc w.heap (renameSet config (w.cell k) (w.cell parentKey) parentKeyName)
      have hself : (w.alloc (renameSet config (w.cell k) (w.cell parentKey) parentKeyName)).2.heap.cell w.heap.next =
        renameSet config (w.cell k) (w.cell parentKey) parentKeyName := alloc_cell w.heap _
      refine ⟨(w.alloc (renameSet config (w.cell k) (w.cell parentKey) parentKeyName)).2, ?_, halloc,
        Nat.lt_succ_self _, congrArg keyDup hself, ?_, ⟨Nat.lt_succ_self _, ?_, ?_⟩⟩
      · rw [setLoop]
        simp only [hkeyname, hparent'.mpr hpar, ne_eq, not_false_eq_true, if_true]
        rfl
      · rw [if_pos hpar]
        exact hm.keeps halloc.toKeeps
      · rw [hself]
        exact hstorable.1
      · rw [hself]
        exact hstorable.2
    · obtain ⟨found, w₁, hlookup, hidle, hnew, hdup, hholds, hentry⟩ :=
        @replace_spec cb fuel m w k hm hown hlt htake _ hstorable
      have hdelete : Idle w₁.heap (deletePopped (found, w₁)).heap := by
        cases found with
        | none => exact Idle.refl _
        | some r => exact idle_del _ _
      have hks : (deletePopped (found, w₁)).ks = w₁.ks := by cases found <;> rfl
      refine ⟨deletePopped (found, w₁), ?_, hidle.trans hdelete, lt_of_lt_of_le hnew hdelete.next,
        (hdelete.dup hnew).trans hdup, ?_, hentry.keeps hdelete.toKeeps⟩
      · rw [setLoop]
        simp only [World.alloc, Heap.alloc] at hlookup ⊢
        simp only [hkeyname, mt hparent'.mp hpar, hlookup, ne_eq, not_false_eq_true, if_true, if_false]
        rfl
      · rw [if_neg hpar, hks]
        rw [hident] at hholds
        exact hholds.keeps hdelete.toKeeps
  obtain ⟨happend, hidle'⟩ := @appendKey_idle w₀ _ w.heap.next hholds hentry
  have hall := hidle'.trans (idle_del _ w.heap.next)
  have hback : Restored config parent before (w₀.cell w.heap.next) := hrestored.congr hdup
  have hto : w₀.heap.ident w.heap.next = ident before := hback.ident
  rw [hto] at happend
  exact ⟨_, hloop, hidle.trans hall, lt_of_lt_of_le hnew hall.next, hback.congr (hall.dup hnew),
    happend.keeps (idle_del _ _).toKeeps⟩

/-- **The loop of a set moves the keys back.** -/
theorem setLoop_spec {before : KeyRef → Key} {parentKeyName : Str} (hset : config.writeConversion = .UNCHNGD)
    (hparent : Source parent Q) : ∀ {keys : List KeyRef} {w : World} {m : Ident → Option KeyRef},
    w.ks.Holds w.heap m → Ownerless m → keys.Nodup →
    (∀ k ∈ keys, k < w.heap.next ∧ (∃ P, Source (before k) P) ∧
      keyDup (w.cell k) = keyDup (got config (before k) parent)) →
    parentKey < w.heap.next → SameParent parent (w.cell parentKey) →
    ∃ w' rep, setLoop cb (fuel + 1) config parentKey parentKeyName keys w = .ok w' ∧
      w'.ks.Holds w'.heap (moveAll m (keys.map (setMove config parent before rep))) ∧
      Idle w.heap w'.heap ∧
      ∀ k ∈ keys, rep k < w'.heap.next ∧ Restored config parent (before k) (w'.cell (rep k))
  | [], w, m, hm, _, _, _, _, _ => ⟨w, id, rfl, hm, Idle.refl _, by simp⟩
  | k :: keys, w, m, hm, hown, hnodup, hkeys, hlt, hp => by
    obtain ⟨hk, hnodup⟩ := List.nodup_cons.mp hnodup
    obtain ⟨hkl, ⟨P, hsource⟩, hdup⟩ := hkeys k List.mem_cons_self
    obtain ⟨w₁, hloop, hidle, hnew, hrestored, hholds⟩ := @setLoop_step cb fuel config parentKey parent Q m w k
      keys (before k) P parentKeyName hset hparent hm hown hkl hsource hdup hp
    have hne : ∀ j ∈ keys, j ≠ k := fun j hj he => hk (he ▸ hj)
    have hown₁ : Ownerless (Move.run m (setMove config parent (fun _ => before k) (fun _ => w.heap.next) k)) :=
      run_ownerless hown hsource.owner
    obtain ⟨w', rep, hret, hholds', hidle', hrep⟩ := setLoop_spec hset hparent hholds hown₁ hnodup
      (fun j hj => by
        obtain ⟨hjl, hjs, hjd⟩ := hkeys j (List.mem_cons_of_mem k hj)
        exact ⟨lt_of_lt_of_le hjl hidle.next, hjs, (hidle.dup hjl).trans hjd⟩)
      (lt_of_lt_of_le hlt hidle.next) (hp.dup (hidle.dup hlt))
    have hmap : keys.map (setMove config parent before fun j => if j = k then w.heap.next else rep j) =
        keys.map (setMove config parent before rep) :=
      List.map_congr_left fun j hj => by rw [setMove, setMove, if_neg (hne j hj)]
    refine ⟨w', fun j => if j = k then w.heap.next else rep j, hloop.trans hret, ?_, hidle.trans hidle',
      fun j hj => ?_⟩
    · rw [List.map_cons, moveAll_cons, hmap]
      have hfirst : setMove config parent before (fun j => if j = k then w.heap.next else rep j) k =
          setMove config parent (fun _ => before k) (fun _ => w.heap.next) k := by
        rw [setMove, setMove, if_pos rfl]
      rw [hfirst]
      exact hholds'
    · obtain rfl | hj := List.mem_cons.mp hj
      · dsimp only
        rw [if_pos rfl]
        exact ⟨lt_of_lt_of_le hnew hidle'.next, hrestored.congr (hidle'.dup hnew)⟩
      · dsimp only
        rw [if_neg (hne j hj)]
        exact hrep j hj

end Loops

/-! ## Get and set -/

/-- The new names are distinct, and nothing is put in the place of a key that is to be taken out yet. -/
structure Orderly (config : Config) (parent : Key) (h : Heap) (ks : KeySet) : Prop where
  distinct : ∀ j ∈ ks.array, ∀ k ∈ ks.array,
    ident (got config (h.cell j) parent) = ident (got config (h.cell k) parent) → j = k
  get : ks.array.Pairwise fun j k => ident (got config (h.cell j) parent) ≠ ident (h.cell k)
  set : ∀ j ∈ ks.array, ∀ k ∈ ks.array,
    identCmp (ident (got config (h.cell j) parent)) (ident (got config (h.cell k) parent)) = .lt →
    ident (h.cell j) ≠ ident (got config (h.cell k) parent) ∨
      ident (got config (h.cell k) parent) = ident parent

/-- The keys are there again, and the parent key where a key was renamed to it. -/
structure RoundTrip (config : Config) (parent : Key) (h : Heap) (ks : KeySet) (w : World) : Prop where
  valid : ∃ m, w.ks.Holds w.heap m
  kept : ∀ k ∈ ks.array, ∃ k' ∈ w.ks.array, Restored config parent (h.cell k) (w.cell k')
  only : ∀ k' ∈ w.ks.array, ∃ k ∈ ks.array, Restored config parent (h.cell k) (w.cell k') ∨
    ident (got config (h.cell k) parent) = ident parent ∧
      keyDup (w.cell k') = keyDup (got config (h.cell k) parent)
  parent : (∃ k ∈ ks.array, ident (got config (h.cell k) parent) = ident parent) →
    ∃ k' ∈ w.ks.array, ident (w.cell k') = ident parent

section RoundTrip

open Relocate

variable {cb : Callback} {fuel : ℕ} {config : Config} {parentKey : KeyRef} {contract : List Key} {h : Heap}
  {ks : KeySet} {m : Ident → Option KeyRef} {Q : Path}

theorem unchanged_delIterateKs (h : Heap) (iterateKs : KeySet) :
    Unchanged h (delIterateKs parentKey h iterateKs) :=
  (idle_incRef h parentKey).toUnchanged.trans
    ((unchanged_del _ iterateKs).trans (idle_decRef _ parentKey).toUnchanged)

/-- What a get leaves. -/
structure Gets (config : Config) (parentKey : KeyRef) (h : Heap) (ks : KeySet) (w : World) (rep : KeyRef → KeyRef) :
    Prop where
  lt : parentKey < w.heap.next
  parent : SameParent (h.cell parentKey) (w.cell parentKey)
  keys : ∀ r, r ∈ w.ks.array ↔ ∃ k ∈ ks.array, r = rep k
  dup : ∀ k ∈ ks.array, keyDup (w.cell (rep k)) = keyDup (got config (h.cell k) (h.cell parentKey))

/-- **A get leaves one key for each.** -/
theorem elektraRenameGet_spec (hks : ks.Holds h m) (hsource : ∀ k ∈ ks.array, ∃ P, Source (h.cell k) P)
    (hlt : parentKey < h.next) (hparent : Source (h.cell parentKey) Q)
    (hmod : keyName (h.cell parentKey) ≠ modules) (horder : Orderly config (h.cell parentKey) h ks) :
    ∃ w rep m', elektraRenameGet cb (fuel + 1) config parentKey contract h ks = .ok w ∧
      w.ks.Holds w.heap m' ∧ Gets config parentKey h ks w rep := by
  have hdup := idle_dup h ks
  have hiter := ksDup_holds hks
  have harray : (ksDup h ks).2.array = ks.array := hks.array_eq hiter hdup.toKeeps
  have hown : Ownerless m := by
    intro id hid
    obtain ⟨k, hk⟩ := Option.ne_none_iff_exists'.mp hid
    obtain ⟨hmem, rfl⟩ := hks.mem.mp hk
    obtain ⟨P, hP⟩ := hsource k hmem
    exact hP.owner
  have hapart : ks.array.Pairwise (Apart config (h.cell parentKey) h.cell) := by
    refine (horder.get.and hks.sorted).imp fun {j k} hjk => ⟨hjk.1, fun he => ?_⟩
    have hlt : identCmp (h.ident j) (h.ident k) = .lt := hjk.2
    rw [Heap.ident, Heap.ident, he, identCmp_eq_iff.mpr rfl] at hlt
    cases hlt
  obtain ⟨w, rep, hret, hholds, hnext, hp, hrep, -⟩ := @getLoop_spec cb fuel config parentKey (h.cell parentKey) Q
    h.cell hparent ks.array ⟨(ksDup h ks).1, ks⟩ m (hks.keeps hdup.toKeeps) hown hks.sorted.nodup
    (fun k hk => by
      have hklt := (hks.entry k hk).lt
      obtain ⟨P, hP⟩ := hsource k hk
      exact ⟨⟨lt_of_lt_of_le hklt hdup.next, hdup.dup hklt, (hdup.lock k hklt).trans hP.unlocked, P, hP⟩,
        hks.of_mem hk⟩)
    hapart (lt_of_lt_of_le hlt hdup.next) (hparent.sameParent.dup (hdup.dup hlt))
  have hend := @unchanged_delIterateKs parentKey w.heap (ksDup h ks).2
  have hclear : Clear (ks.array.map (getMove config (h.cell parentKey) h.cell rep)) := by
    refine List.pairwise_map.mpr ((horder.get.and hks.sorted.nodup).imp_of_mem fun hj hk hjk => ?_)
    exact ⟨fun he => hjk.1 (Option.some.inj he).symm, fun he => hjk.2 (horder.distinct _ hj _ hk he.symm)⟩
  have hput : ∀ k ∈ ks.array, moveAll m (ks.array.map (getMove config (h.cell parentKey) h.cell rep))
      (ident (got config (h.cell k) (h.cell parentKey))) = some (rep k) := fun k hk =>
    moveAll_into hclear (List.mem_map_of_mem hk)
  refine ⟨{ w with heap := delIterateKs parentKey w.heap (ksDup h ks).2 }, rep, _, ?_, hholds.keeps hend.toKeeps,
    lt_of_lt_of_le (lt_of_lt_of_le (lt_of_lt_of_le hlt hdup.next) hnext) hend.next, ?_, fun r => ?_, fun k hk => ?_⟩
  · rw [elektraRenameGet, if_neg hmod]
    dsimp only
    rw [harray, hret]
    rfl
  · exact hp.dup (hend.dup (lt_of_lt_of_le (lt_of_lt_of_le hlt hdup.next) hnext))
  · constructor
    · intro hr
      have hmove := hholds.of_mem hr
      by_cases hinto : ∃ k ∈ ks.array, ident (got config (h.cell k) (h.cell parentKey)) = w.heap.ident r
      · obtain ⟨k, hk, hid⟩ := hinto
        rw [← hid, hput k hk] at hmove
        exact ⟨k, hk, (Option.some.inj hmove).symm⟩
      · -- all keys were taken out
        push Not at hinto
        rw [moveAll_other fun s hs => ?_] at hmove
        · split_ifs at hmove with hout
          obtain ⟨hk, hid⟩ := hks.mem.mp hmove
          exact absurd ⟨_, List.mem_map_of_mem hk, congrArg some hid⟩ hout
        · obtain ⟨k, hk, rfl⟩ := List.mem_map.mp hs
          exact hinto k hk
    · rintro ⟨k, hk, rfl⟩
      exact (hholds.mem.mp (hput k hk)).1
  · exact (hend.dup (hrep k hk).1).trans (hrep k hk).2

/-- **A set after a get.** -/
theorem elektraRenameSet_spec (hset : config.writeConversion = .UNCHNGD) (hks : ks.Holds h m)
    (hsource : ∀ k ∈ ks.array, ∃ P, Source (h.cell k) P) (hparent : Source (h.cell parentKey) Q)
    (horder : Orderly config (h.cell parentKey) h ks) {w : World} {rep : KeyRef → KeyRef}
    {m' : Ident → Option KeyRef} (hw : w.ks.Holds w.heap m') (hg : Gets config parentKey h ks w rep) :
    ∃ w', elektraRenameSet cb (fuel + 1) config parentKey w.heap w.ks = .ok w' ∧
      RoundTrip config (h.cell parentKey) h ks w' := by
  have hdup := idle_dup w.heap w.ks
  have hiter := ksDup_holds hw
  have harray : (ksDup w.heap w.ks).2.array = w.ks.array := hw.array_eq hiter hdup.toKeeps
  have hident : ∀ k ∈ ks.array, w.heap.ident (rep k) = ident (got config (h.cell k) (h.cell parentKey)) :=
    fun k hk => ident_of_dup (hg.dup k hk)
  -- the key that each of the keys stands for
  have hkeys : ∀ r ∈ w.ks.array, ∃ k ∈ ks.array, r = rep k := fun r hr => (hg.keys r).mp hr
  choose! orig horig hrep using hkeys
  have horig_rep : ∀ k ∈ ks.array, rep k ∈ w.ks.array ∧ orig (rep k) = k := by
    intro k hk
    have hmem := (hg.keys (rep k)).mpr ⟨k, hk, rfl⟩
    refine ⟨hmem, horder.distinct _ (horig _ hmem) _ hk ?_⟩
    rw [← hident _ (horig _ hmem), ← hrep _ hmem, hident k hk]
  have hdupr : ∀ r ∈ w.ks.array, keyDup (w.cell r) =
      keyDup (got config (h.cell (orig r)) (h.cell parentKey)) := fun r hr => by
    have hd := hg.dup _ (horig r hr)
    rwa [← hrep r hr] at hd
  have hown : Ownerless m' := by
    intro id hid
    obtain ⟨r, hr⟩ := Option.ne_none_iff_exists'.mp hid
    obtain ⟨hmem, rfl⟩ := hw.mem.mp hr
    obtain ⟨P, hP⟩ := hsource _ (horig r hmem)
    exact ((got_spec hP hparent).1.dup (hdupr r hmem)).owner
  obtain ⟨w', rep', hret, hholds, hidle, hrep'⟩ := @setLoop_spec cb fuel config parentKey (h.cell parentKey) Q
    (fun r => h.cell (orig r)) (keyGetFullName ((ksDup w.heap w.ks).1.cell parentKey)) hset hparent w.ks.array
    ⟨(ksDup w.heap w.ks).1, w.ks⟩ m' (hw.keeps hdup.toKeeps) hown hw.sorted.nodup
    (fun r hr => by
      have hrlt := (hw.entry r hr).lt
      exact ⟨lt_of_lt_of_le hrlt hdup.next, hsource _ (horig r hr), (hdup.dup hrlt).trans (hdupr r hr)⟩)
    (lt_of_lt_of_le hg.lt hdup.next) (hg.parent.dup (hdup.dup hg.lt))
  have hend := @unchanged_delIterateKs parentKey w'.heap (ksDup w.heap w.ks).2
  have hclear : Clear (w.ks.array.map (setMove config (h.cell parentKey) (fun r => h.cell (orig r)) rep')) := by
    refine List.pairwise_map.mpr ((hw.sorted.and hw.sorted.nodup).imp_of_mem fun {i j} hi hj hij => ⟨?_, ?_⟩)
    · have hlt : identCmp (w.heap.ident i) (w.heap.ident j) = .lt := hij.1
      rw [hrep i hi, hrep j hj, hident _ (horig i hi), hident _ (horig j hj)] at hlt
      obtain hne | hpar := horder.set _ (horig i hi) _ (horig j hj) hlt
      · rw [setMove]
        split_ifs
        · exact fun he => by cases he
        · exact fun he => hne (Option.some.inj he).symm
      · rw [setMove, if_pos hpar]
        exact fun he => by cases he
    · intro he
      have hsame : orig i = orig j := by
        have hi' := hks.of_mem (horig i hi)
        have hj' := hks.of_mem (horig j hj)
        rw [Heap.ident, show ident (h.cell (orig i)) = ident (h.cell (orig j)) from he.symm] at hi'
        exact Option.some.inj (hi'.symm.trans hj')
      exact hij.2 (by rw [hrep i hi, hsame, ← hrep j hj])
  have hput : ∀ r ∈ w.ks.array, moveAll m' (w.ks.array.map (setMove config (h.cell parentKey)
      (fun r => h.cell (orig r)) rep')) (ident (h.cell (orig r))) = some (rep' r) := fun r hr =>
    moveAll_into hclear (List.mem_map_of_mem hr)
  -- what is left of the keys before
  have hother : ∀ id, (∀ r ∈ w.ks.array, ident (h.cell (orig r)) ≠ id) →
      moveAll m' (w.ks.array.map (setMove config (h.cell parentKey) (fun r => h.cell (orig r)) rep')) id =
        if ∃ s ∈ w.ks.array.map (setMove config (h.cell parentKey) (fun r => h.cell (orig r)) rep'),
          s.out = some id then none else m' id := fun id hid => moveAll_other fun s hs => by
    obtain ⟨r, hr, rfl⟩ := List.mem_map.mp hs
    exact hid r hr
  have hleft : ∀ id, (∀ r ∈ w.ks.array, ident (h.cell (orig r)) ≠ id) → ∀ r,
      moveAll m' (w.ks.array.map (setMove config (h.cell parentKey) (fun r => h.cell (orig r)) rep')) id = some r →
      (¬∃ s ∈ w.ks.array.map (setMove config (h.cell parentKey) (fun r => h.cell (orig r)) rep'),
        s.out = some id) ∧ m' id = some r := fun id hid r hr => by
    rw [hother id hid] at hr
    split_ifs at hr with hout
    exact ⟨hout, hr⟩
  have hback : ∀ r ∈ w.ks.array, rep' r ∈ w'.ks.array ∧ Restored config (h.cell parentKey) (h.cell (orig r))
      ((delIterateKs parentKey w'.heap (ksDup w.heap w.ks).2).cell (rep' r)) := fun r hr =>
    ⟨(hholds.mem.mp (hput r hr)).1, (hrep' r hr).2.congr (hend.dup (hrep' r hr).1)⟩
  refine ⟨⟨delIterateKs parentKey w'.heap (ksDup w.heap w.ks).2, ksRewind w'.ks⟩, ?_, ?_⟩
  · rw [elektraRenameSet]
    dsimp only
    rw [harray, hret]
    rfl
  · refine ⟨⟨_, (hholds.keeps hend.toKeeps).of_array rfl hholds.room hholds.least⟩, fun k hk => ?_,
      fun k' hk' => ?_, ?_⟩
    · obtain ⟨hmem, ho⟩ := horig_rep k hk
      obtain ⟨hin, hr⟩ := hback _ hmem
      rw [ho] at hr
      exact ⟨_, hin, hr⟩
    · have hmove := hholds.of_mem hk'
      by_cases hinto : ∃ r ∈ w.ks.array, ident (h.cell (orig r)) = w'.heap.ident k'
      · obtain ⟨r, hr, hid⟩ := hinto
        rw [← hid, hput r hr] at hmove
        obtain rfl := Option.some.inj hmove
        exact ⟨_, horig r hr, .inl (hback r hr).2⟩
      · -- the key that was not taken out
        push Not at hinto
        obtain ⟨hnot, hold⟩ := hleft _ hinto _ hmove
        obtain ⟨hmem, hid⟩ := hw.mem.mp hold
        have hklt := (hw.entry k' hmem).lt
        have hd := (hend.dup (lt_of_lt_of_le (lt_of_lt_of_le hklt hdup.next) hidle.next)).trans
          ((hidle.dup (lt_of_lt_of_le hklt hdup.next)).trans ((hdup.dup hklt).trans (hdupr k' hmem)))
        refine ⟨_, horig k' hmem, .inr ⟨?_, hd⟩⟩
        by_contra hne
        refine hnot ⟨_, List.mem_map_of_mem hmem, ?_⟩
        rw [setMove, if_neg hne, ← hid, hrep k' hmem, hident _ (horig k' hmem), ← hrep k' hmem]
    · rintro ⟨k, hk, hpar⟩
      by_cases hinto : ∃ r ∈ w.ks.array, ident (h.cell (orig r)) = ident (h.cell parentKey)
      · obtain ⟨r, hr, hid⟩ := hinto
        obtain ⟨hin, hres⟩ := hback r hr
        exact ⟨_, hin, hres.ident.trans hid⟩
      · push Not at hinto
        obtain ⟨hmem, -⟩ := horig_rep k hk
        have hold : m' (ident (h.cell parentKey)) = some (rep k) := by
          rw [← hpar, ← hident k hk]
          exact hw.of_mem hmem
        have hout : ¬∃ s ∈ w.ks.array.map (setMove config (h.cell parentKey) (fun r => h.cell (orig r)) rep'),
            s.out = some (ident (h.cell parentKey)) := by
          rintro ⟨s, hs, he⟩
          obtain ⟨r, hr, rfl⟩ := List.mem_map.mp hs
          rw [setMove] at he
          split_ifs at he with hne
          exact hne (Option.some.inj he)
        have hmove := hother _ hinto
        rw [if_neg hout, hold] at hmove
        obtain ⟨hin, hid⟩ := hholds.mem.mp hmove
        exact ⟨_, hin, (hend.toKeeps.ident (hholds.entry _ hin).lt).trans hid⟩

end RoundTrip

/-! ## One key -/

/-- The parent key `user/p`, and a key set with `user/p/a`. -/
def keyA : Heap × KeySet := ksNew (.ofList [keyNewName (str "user/p"), keyNewName (str "user/p/a")]) 1 [1]

theorem nul_p : 0 ∉ str "p" := by decide

def userP : Path := ⟨.ns .user, [⟨str "p", nul_p⟩]⟩

def userPA : Path := ⟨.ns .user, userP.parts ++ userA.parts⟩

def upper : Config := ⟨none, some (str "0"), none, none, none, none⟩

def cutA : Config := ⟨some (str "a"), none, none, none, none, none⟩

end Elektra.Rename
