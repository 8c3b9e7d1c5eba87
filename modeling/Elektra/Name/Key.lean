import Elektra.Name.Path

/-!
# Keys and the functions that name them

`Key` follows `struct _Key`. The name functions build a buffer level by level; the buffer and the
flag `avoidSlash` (the separator is there already) are the state `NameBuffer` of those loops.

* `elektraKeySetName`, `keySetName`, `keyAddName`, `keyAddBaseName`, `keySetBaseName`, `keyBaseName`;
* `keyGetMeta`, `keySetMeta`, `keySetOwner`.
-/

namespace Elektra

/-- `struct _Key`. The unescaped name stands behind the name, in the same buffer; `ukey` is that
part of it, its NULs included. -/
structure Key where
  data : Option Str
  key : Option Str
  ukey : Str
  keySize : ℕ
  keyUSize : ℕ
  /-- `KEY_FLAG_SYNC` -/
  sync : Bool
  /-- `KEY_FLAG_RO_NAME` -/
  roName : Bool
  /-- `KEY_FLAG_RO_VALUE` -/
  roValue : Bool
  /-- `KEY_FLAG_RO_META` -/
  roMeta : Bool
  ksReference : ℕ
  metaKeys : List (Str × Str)
  deriving DecidableEq, Repr

/-- `keyNew (0)`, `keyInit`: all data members are zero. -/
def keyNew : Key :=
  { data := none, key := none, ukey := [], keySize := 0, keyUSize := 0, sync := false,
    roName := false, roValue := false, roMeta := false, ksReference := 0, metaKeys := [] }

/-! ## Metadata -/

/-- The value of a metakey. -/
def keyGetMeta (key : Key) (metaName : Str) : Option Str := key.metaKeys.lookup metaName

def keySetMeta (key : Key) (metaName : Str) (newMetaString : Option Str) : ℤ × Key :=
  if key.roMeta then (-1, key)
  else
    let rest := key.metaKeys.filter fun m => m.1 ≠ metaName
    match newMetaString with
    | none => (0, { key with metaKeys := rest, sync := key.sync || (keyGetMeta key metaName).isSome })
    | some value => (value.length + 1, { key with metaKeys := (metaName, value) :: rest, sync := true })

def keySetOwner (key : Key) (newOwner : Option Str) : Key :=
  match newOwner with
  | none | some [] => (keySetMeta key (str "owner") none).2
  | some owner => (keySetMeta key (str "owner") (some owner)).2

/-! ## Namespaces of names -/

/-- `elektraNamespace`, as `keyGetNameNamespace` answers it. -/
inductive ElektraNamespace
  | empty | metaName | cascading | spec | proc | dir | user | system
  deriving DecidableEq, Repr

/-- The test of `keyNameIsSpec` and its siblings: the namespace alone, or before a separator. -/
def keyNameIs (ns name : Str) : Bool := ns = name || (ns ++ [pathSeparator]).isPrefixOf name

def keyNameIsSpec (name : Str) : Bool := keyNameIs (str "spec") name
def keyNameIsProc (name : Str) : Bool := keyNameIs (str "proc") name
def keyNameIsDir (name : Str) : Bool := keyNameIs (str "dir") name
def keyNameIsSystem (name : Str) : Bool := keyNameIs (str "system") name

/-- The user namespace may also be followed by an owner. -/
def keyNameIsUser (name : Str) : Bool :=
  keyNameIs (str "user") name || (str "user:").isPrefixOf name

def keyGetNameNamespace (name : Option Str) : ElektraNamespace :=
  match name with
  | none | some [] => .empty
  | some (c :: s) =>
    if c = pathSeparator then .cascading
    else if keyNameIsSpec (c :: s) then .spec
    else if keyNameIsProc (c :: s) then .proc
    else if keyNameIsDir (c :: s) then .dir
    else if keyNameIsUser (c :: s) then .user
    else if keyNameIsSystem (c :: s) then .system
    else .metaName

def keyGetNamespace (key : Key) : ElektraNamespace := keyGetNameNamespace key.key

/-! ## Finalizing a name -/

/-- `name` is what stands before `key->key[key->keySize - 1]`. -/
def elektraFinalizeName (key : Key) (name : Str) : Key :=
  { key with
    key := some name, keySize := name.length + 1, ukey := elektraUnescapeKeyName name,
    keyUSize := (elektraUnescapeKeyName name).length, sync := true }

def elektraFinalizeEmptyName (key : Key) : Key :=
  { key with key := some [], ukey := [0], keySize := 1, keyUSize := 1, sync := true }

def elektraRemoveKeyName (key : Key) : Key :=
  { key with key := none, ukey := [], keySize := 0, keyUSize := 0 }

/-! ## Validation -/

/-- The backwards iteration of `elektraValidateKeyName`; it stops at index `0` unseen. -/
def validateLoop (name : Str) : ℕ → ℕ → ℕ
  | 0, escapeCount => escapeCount
  | size + 1, escapeCount =>
    if name[size + 1]? = some pathEscape then validateLoop name size (escapeCount + 1)
    else escapeCount

def elektraValidateKeyName (name : Str) (size : ℕ) : Bool := validateLoop name (size - 2) 0 % 2 = 0

/-! ## Adding levels -/

/-- The buffer of `keyAddName` up to `key->keySize`, and whether a separator ends it. -/
structure NameBuffer where
  bytes : Str
  avoidSlash : Bool
  deriving DecidableEq

def elektraRemoveOneLevel (b : NameBuffer) : NameBuffer :=
  let ls := levels b.bytes
  let sizeOfLastLevel := (ls.getLastD []).length
  if 1 < ls.length then { b with bytes := b.bytes.take (b.bytes.length - (sizeOfLastLevel + 1)) }
  else if b.bytes.head? = some pathSeparator then { bytes := b.bytes.take 1, avoidSlash := true }
  else b

/-- One round of the loop of `keyAddName`. -/
def addLevel (b : NameBuffer) (level : Str) : NameBuffer :=
  if level = str "." then b
  else if level = str ".." then elektraRemoveOneLevel b
  else
    { bytes := (if b.avoidSlash then b.bytes else b.bytes ++ [pathSeparator]) ++ level,
      avoidSlash := false }

def keyAddName (key : Key) (newName : Option Str) : ℤ × Key :=
  if key.roName then (-1, key)
  else
    match key.key with
    | none => (-1, key)
    | some [] => (-1, key)
    | some name =>
      match newName with
      | none => (0, key)
      | some newName =>
        let nameSize := newName.length + 1
        if nameSize < 2 then (0, key)
        else if !elektraValidateKeyName newName nameSize then (-1, key)
        else
          let origSize := key.keySize
          let avoidSlash := name.head? = some pathSeparator && key.keySize = 2
          let b := (levels newName).foldl addLevel ⟨name, avoidSlash⟩
          let key := elektraFinalizeName key b.bytes
          (if origSize = key.keySize then 0 else key.keySize, key)

/-! ## Setting a name -/

/-- The sizes of a user root, and the owner that may follow it. -/
def elektraHandleUserName (key : Key) (newName : Str) : Key :=
  let userLength := 5
  let key := { key with keyUSize := userLength, keySize := userLength }
  match newName[userLength - 1]? with
  | none => key
  | some delim =>
    if delim = pathSeparator then key
    else
      let keyUSize := (keyNameGetOneLevel newName).2
      let ownerLength := keyUSize - userLength
      keySetOwner { key with keyUSize := keyUSize + 1 }
        (some ((newName.drop userLength).take ownerLength))

def elektraOnlySlashes (name : Str) : Bool := name.all (· = pathSeparator)

/-- The end of `elektraKeySetName`: `keySize` is the size of the root in the new name, `keyUSize`
where the path starts. -/
def elektraKeySetNameBelow (key : Key) (newName : Str) : ℤ × Key :=
  let length := newName.length + 1
  let root := newName.take (key.keySize - 1)
  if length = key.keyUSize ∨ length = key.keySize then
    let key := elektraFinalizeName key root
    (key.keyUSize, key)
  else if elektraOnlySlashes (newName.drop (key.keyUSize - 1)) then
    let key := elektraFinalizeName key root
    (key.keySize, key)
  else
    let (ret, key) := keyAddName { key with key := some root } (some (newName.drop key.keyUSize))
    if ret = -1 then (ret, elektraRemoveKeyName key) else (key.keySize, key)

/-- `metaName` is the option `KEY_META_NAME`. -/
def elektraKeySetName (key : Key) (newName : Option Str) (metaName : Bool) : ℤ × Key :=
  if key.roName then (-1, key)
  else
    let key := elektraRemoveKeyName key
    let key := if metaName then key else keySetOwner key none
    let name := newName.getD []
    match keyGetNameNamespace newName with
    | .empty => (0, elektraFinalizeEmptyName key)
    | .cascading => elektraKeySetNameBelow { key with keyUSize := 1, keySize := 2 } name
    | .spec => elektraKeySetNameBelow { key with keyUSize := 5, keySize := 5 } name
    | .proc => elektraKeySetNameBelow { key with keyUSize := 5, keySize := 5 } name
    | .dir => elektraKeySetNameBelow { key with keyUSize := 4, keySize := 4 } name
    | .user => elektraKeySetNameBelow (elektraHandleUserName key name) name
    | .system => elektraKeySetNameBelow { key with keyUSize := 7, keySize := 7 } name
    | .metaName =>
      if !metaName then (-1, key)
      else
        let size := (keyNameGetOneLevel name).2 + 1
        elektraKeySetNameBelow { key with keyUSize := size, keySize := size } name

def keySetName (key : Key) (newName : Option Str) : ℤ × Key := elektraKeySetName key newName false

/-! ## Base names -/

def keyAddBaseName (key : Key) (baseName : Option Str) : ℤ × Key :=
  match baseName with
  | none => (key.keySize, key)
  | some baseName =>
    if key.roName then (-1, key)
    else
      match key.key with
      | none => (-1, key)
      | some name =>
        let escaped := elektraEscapeKeyNamePart baseName
        let name := if name = [pathSeparator] then name else name ++ [pathSeparator]
        let key := elektraFinalizeName key (name ++ escaped)
        (key.keySize, key)

def keySetBaseName (key : Key) (baseName : Option Str) : ℤ × Key :=
  if key.roName then (-1, key)
  else
    match key.key with
    | none => (-1, key)
    | some name =>
      let ls := levels name
      -- no level, or the only one starts the name
      if ls = [] ∨ ls.length = 1 ∧ name.head? ≠ some pathSeparator then (-1, key)
      else
        let searchBaseSize := (ls.getLastD []).length + 1
        let keySize := key.keySize - searchBaseSize
        match baseName with
        | none =>
          let key := elektraFinalizeName key (name.take (keySize - 1))
          (key.keySize, key)
        | some baseName =>
          let escaped := elektraEscapeKeyNamePart baseName
          let key := elektraFinalizeName key (name.take (keySize - 1) ++ [pathSeparator] ++ escaped)
          (key.keySize, key)

def keyName (key : Key) : Str := key.key.getD []

/-- The bytes of the unescaped name; that of a key without name is the empty string. -/
def keyUnescapedName (key : Key) : Str :=
  match key.key with
  | none => [0]
  | some _ => key.ukey

/-- The string that ends the unescaped name, unless it is the root. -/
def keyBaseName (key : Key) : Str :=
  match key.key with
  | none => []
  | some name =>
    let buffer := (name ++ 0 :: key.ukey).take (key.keySize + key.keyUSize - 1)
    let base := (buffer.reverse.takeWhile (· ≠ 0)).reverse
    if buffer.length - base.length ≠ key.keyUSize then base else []

end Elektra
