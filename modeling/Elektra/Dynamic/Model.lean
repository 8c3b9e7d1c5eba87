import Elektra.KeySet.Duplicate

/-!
# Keys and their dynamic memory

A key points to a buffer with its name, to one with its value, and to a key set with its metadata. Each
allocation may fail.

* `KeyStruct`, `Memory`; `Memory.heap`: the keys, as functions on key sets see them;
* `elektraStrNDup`, `elektraFree`, `ksDup`, `ksDel`, `keyDel`, `keyClear`, `keyCopy`;
* `Memory.contents`, `Memory.Alive`: what can be read of a key, and that it is allocated.
-/

namespace Elektra.Dynamic

/-- A pointer to characters. -/
abbrev Buffer := ℕ

/-- A pointer to a key set. -/
abbrev KeySetRef := ℕ

/-- `struct _Key` -/
structure KeyStruct where
  data : Option Buffer
  dataSize : ℕ
  /-- The name, and the unescaped name behind it. -/
  key : Option Buffer
  keySize : ℕ
  keyUSize : ℕ
  sync : Bool
  roName : Bool
  roValue : Bool
  roMeta : Bool
  ksReference : ℕ
  /-- `meta` -/
  metaKeys : Option KeySetRef
  deriving DecidableEq, Repr

def keyInit : KeyStruct :=
  { data := none, dataSize := 0, key := none, keySize := 0, keyUSize := 0, sync := false, roName := false,
    roValue := false, roMeta := false, ksReference := 0, metaKeys := none }

/-- All memory. What is freed is not allocated again. -/
structure Memory where
  keys : KeyRef → KeyStruct
  freed : KeyRef → Bool
  next : KeyRef
  /-- What a buffer holds, while it is allocated. -/
  buffers : Buffer → Option Str
  nextBuffer : Buffer
  keysets : KeySetRef → Option KeySet
  nextKeySet : KeySetRef
  /-- Which allocations succeed, in their order. -/
  succeeds : ℕ → Bool
  allocs : ℕ

/-! ## What is read -/

namespace Memory

variable (m : Memory) (k : KeyRef)

def name : Option Str := ((m.keys k).key.bind m.buffers).map fun s => s.take ((m.keys k).keySize - 1)

def uname : Str :=
  ((m.keys k).key.bind m.buffers).elim [] fun s => (s.drop (m.keys k).keySize).take (m.keys k).keyUSize

def value : Option Str := ((m.keys k).data.bind m.buffers).map fun s => s.take (m.keys k).dataSize

/-- The name and the string of a metakey. -/
def entry : Str × Str := ((m.name k).getD [], ((m.value k).getD []).takeWhile (· ≠ 0))

/-- The metakeys of a key. -/
def metadata : List KeyRef := ((m.keys k).metaKeys.bind m.keysets).elim [] KeySet.array

/-- A key as functions on key sets see it. -/
def cell : Key :=
  let key := m.keys k
  { data := m.value k, key := m.name k, ukey := m.uname k, keySize := key.keySize, keyUSize := key.keyUSize,
    sync := key.sync, roName := key.roName, roValue := key.roValue, roMeta := key.roMeta,
    ksReference := key.ksReference, metaKeys := (m.metadata k).map m.entry }

/-- All keys as functions on key sets see them. -/
def heap : Heap := { cell := m.cell, freed := m.freed, next := m.next }

/-- Such functions write to the flags and counters of keys. -/
def store (h : Heap) : Memory :=
  { m with
    keys := fun k => { m.keys k with roName := (h.cell k).roName, ksReference := (h.cell k).ksReference }
    freed := h.freed }

def set (key : KeyStruct) : Memory := { m with keys := Function.update m.keys k key }

end Memory

/-! ## Allocating and freeing -/

/-- `elektraStrNDup (s, l)` -/
def elektraStrNDup (m : Memory) (s : Buffer) (l : ℕ) : Option Buffer × Memory :=
  if m.succeeds m.allocs then
    (some m.nextBuffer,
      { m with
        buffers := Function.update m.buffers m.nextBuffer ((m.buffers s).map (·.take l))
        nextBuffer := m.nextBuffer + 1
        allocs := m.allocs + 1 })
  else (none, { m with allocs := m.allocs + 1 })

def elektraFree (m : Memory) (ptr : Option Buffer) : Memory :=
  match ptr with
  | none => m
  | some ptr => { m with buffers := Function.update m.buffers ptr none }

/-- The struct and its array are allocated; the array is large enough for the keys of `source`. -/
def ksDup (m : Memory) (source : KeySetRef) : Option KeySetRef × Memory :=
  match m.keysets source with
  | none => (none, m)
  | some source =>
    if !m.succeeds m.allocs then (none, { m with allocs := m.allocs + 1 })
    else if !m.succeeds (m.allocs + 1) then (none, { m with allocs := m.allocs + 2 })
    else
      let (h, keyset) := Elektra.ksDup m.heap source
      (some m.nextKeySet,
        { m.store h with
          keysets := Function.update m.keysets m.nextKeySet (some keyset)
          nextKeySet := m.nextKeySet + 1
          allocs := m.allocs + 2 })

def keyDecRef (m : Memory) (k : KeyRef) : Memory :=
  m.set k { m.keys k with ksReference := (m.keys k).ksReference - 1 }

/-- `ksDel`, where `del` is `keyDel`. -/
def ksDelWith (del : Memory → KeyRef → Memory) (m : Memory) (ks : Option KeySetRef) : Memory :=
  match ks with
  | none => m
  | some ks =>
    let m := ((m.keysets ks).elim [] KeySet.array).foldl (fun m k => del (keyDecRef m k) k) m
    { m with keysets := Function.update m.keysets ks none }

/-- `keyClear`, where `del` is `keyDel`. -/
def keyClearWith (del : Memory → KeyRef → Memory) (m : Memory) (k : KeyRef) : Memory :=
  let key := m.keys k
  let m := elektraFree m key.key
  let m := elektraFree m key.data
  let m := ksDelWith del m key.metaKeys
  m.set k { keyInit with ksReference := key.ksReference }

/-- `fuel` bounds how deep metakeys have metadata. -/
def keyDel : ℕ → Memory → KeyRef → Memory
  | 0, m, _ => m
  | fuel + 1, m, k =>
    if 0 < (m.keys k).ksReference then m
    else
      let m := keyClearWith (keyDel fuel) m k
      { m with freed := Function.update m.freed k true }

def ksDel (fuel : ℕ) : Memory → Option KeySetRef → Memory := ksDelWith (keyDel fuel)

def keyClear (fuel : ℕ) : Memory → KeyRef → Memory := keyClearWith (keyDel fuel)

/-! ## keyCopy -/

section Copy

variable (fuel : ℕ) (m : Memory) (dest source : KeyRef)

/-- A text of the source is duplicated, and `put` into `dest`; whether there is memory for it. -/
def copyBuffer (s : Option Buffer) (l : ℕ) (put : Option Buffer → KeyStruct → KeyStruct) : Bool × Memory :=
  match s with
  | some s =>
    let (ptr, m) := elektraStrNDup m s l
    (ptr.isSome, m.set dest (put ptr (m.keys dest)))
  | none => (true, m.set dest (put none (m.keys dest)))

/-- The name -/
def copyKey : Bool × Memory :=
  copyBuffer m dest (m.keys source).key ((m.keys source).keySize + (m.keys source).keyUSize)
    fun ptr key => { key with key := ptr }

/-- The value -/
def copyData : Bool × Memory :=
  copyBuffer m dest (m.keys source).data (m.keys source).dataSize fun ptr key => { key with data := ptr }

/-- The metadata -/
def copyMeta : Bool × Memory :=
  match (m.keys source).metaKeys with
  | some metaKeys =>
    let (metaKeys, m) := ksDup m metaKeys
    (metaKeys.isSome, m.set dest { m.keys dest with metaKeys := metaKeys })
  | none => (true, m.set dest { m.keys dest with metaKeys := none })

/-- `old` are the dynamic properties that `dest` had. -/
def memerror (old : KeyStruct) : ℤ × Memory :=
  let m := elektraFree m (m.keys dest).key
  let m := elektraFree m (m.keys dest).data
  let m := ksDel fuel m (m.keys dest).metaKeys
  (-1, m.set dest { m.keys dest with key := old.key, data := old.data, metaKeys := old.metaKeys })

def finishCopy (old : KeyStruct) : ℤ × Memory :=
  let m := m.set dest
    { m.keys dest with
      sync := true, keySize := (m.keys source).keySize, keyUSize := (m.keys source).keyUSize,
      dataSize := (m.keys source).dataSize }
  let m := elektraFree m old.key
  let m := elektraFree m old.data
  (1, ksDel fuel m old.metaKeys)

end Copy

def KeyStruct.locked (key : KeyStruct) : Bool := key.roName || key.roValue || key.roMeta

def keyCopy (fuel : ℕ) (m : Memory) (dest source : Option KeyRef) : ℤ × Memory :=
  match dest with
  | none => (-1, m)
  | some dest =>
    if (m.keys dest).locked then (-1, m)
    else
      match source with
      | none => (0, keyClear fuel m dest)
      | some source =>
        let old := m.keys dest
        let (ok, m) := copyKey m dest source
        if !ok then memerror fuel m dest old
        else
          let (ok, m) := copyData m dest source
          if !ok then memerror fuel m dest old
          else
            let (ok, m) := copyMeta m dest source
            if !ok then memerror fuel m dest old else finishCopy fuel m dest source old

/-! ## What keys show -/

/-- The texts of a key, and their sizes. -/
structure Text where
  name : Option Str
  uname : Str
  value : Option Str
  keySize : ℕ
  keyUSize : ℕ
  dataSize : ℕ
  deriving DecidableEq, Repr

namespace Memory

def text (m : Memory) (k : KeyRef) : Text :=
  { name := m.name k, uname := m.uname k, value := m.value k, keySize := (m.keys k).keySize,
    keyUSize := (m.keys k).keyUSize, dataSize := (m.keys k).dataSize }

/-- Everything that can be read of a key: its texts, and the metakeys with theirs. -/
def contents (m : Memory) (k : KeyRef) : Text × Option (Option (List (KeyRef × Text))) :=
  (m.text k, (m.keys k).metaKeys.map fun ks => (m.keysets ks).map fun ks => ks.array.map fun r => (r, m.text r))

/-- A key whose texts are allocated. -/
structure Sound (m : Memory) (k : KeyRef) : Prop where
  live : m.freed k = false
  key : ∀ b, (m.keys k).key = some b → m.buffers b ≠ none
  data : ∀ b, (m.keys k).data = some b → m.buffers b ≠ none

/-- Everything that a key refers to is allocated. -/
structure Alive (m : Memory) (k : KeyRef) : Prop extends m.Sound k where
  keyset : ∀ ks, (m.keys k).metaKeys = some ks → m.keysets ks ≠ none
  metaKeys : ∀ r ∈ m.metadata k, m.Sound r

end Memory

end Elektra.Dynamic
