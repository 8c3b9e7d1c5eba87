import Elektra.KeySet.Order
import Elektra.Name.Below

/-!
# Key sets

A key set is an array of pointers to keys. Keys live in a `Heap`, shared by all key sets; the names
of keys, and with them the order of an array, are read there.

* `Heap`, `keyIncRef`, `keyDecRef`, `keyDel`, `elektraKeyLock`, `keyDup`, `keyString`;
* `KeySet`, its cursor, `ksResize`;
* `ksSearchInternal`, `ksAppendKey`, `ksAppend`, `ksPop`, `elektraKsPopAtCursor`, `ksCut`, `ksNew`,
  `ksDup`, `ksClear`, `ksCopy`, `ksDel`.
-/

namespace Elektra

/-! ## Keys in memory -/

/-- A pointer to a key. -/
abbrev KeyRef := ℕ

/-- All keys. Memory is not reused: a key that was freed keeps its cell. -/
structure Heap where
  cell : KeyRef → Key
  freed : KeyRef → Bool
  next : KeyRef

namespace Heap

def set (h : Heap) (k : KeyRef) (key : Key) : Heap := { h with cell := Function.update h.cell k key }

/-- A new key. -/
def alloc (h : Heap) (key : Key) : KeyRef × Heap :=
  (h.next, { h with cell := Function.update h.cell h.next key, next := h.next + 1 })

/-- Keys from `0` on. -/
def ofList (keys : List Key) : Heap :=
  { cell := fun k => keys.getD k keyNew, freed := fun _ => false, next := keys.length }

end Heap

/-- `keyNew (name, KEY_END)` -/
def keyNewName (name : Str) : Key := (keySetName keyNew (some name)).2

def keyIncRef (h : Heap) (k : KeyRef) : Heap :=
  h.set k { h.cell k with ksReference := (h.cell k).ksReference + 1 }

def keyDecRef (h : Heap) (k : KeyRef) : Heap :=
  h.set k { h.cell k with ksReference := (h.cell k).ksReference - 1 }

/-- A key is freed when no key set refers to it. -/
def keyDel (h : Heap) (k : KeyRef) : Heap :=
  if 0 < (h.cell k).ksReference then h else { h with freed := Function.update h.freed k true }

/-- `elektraKeyLock (key, KEY_LOCK_NAME)` -/
def elektraKeyLock (h : Heap) (k : KeyRef) : Heap := h.set k { h.cell k with roName := true }

/-- The flags and references of the source are not those of the duplicate. -/
def keyDup (source : Key) : Key :=
  { source with sync := true, roName := false, roValue := false, roMeta := false, ksReference := 0 }

def keyString (key : Key) : Str :=
  match key.data with
  | none => []
  | some data => if (keyGetMeta key (str "binary")).isSome then str "(binary)" else data.takeWhile (· ≠ 0)

/-! ## Key sets and their cursor -/

/-- `struct _KeySet`, without the NULL that ends the array; `size` is the length of the array. -/
structure KeySet where
  array : List KeyRef
  alloc : ℕ
  cursor : Option KeyRef
  current : ℕ
  /-- `KS_FLAG_SYNC` -/
  sync : Bool
  deriving DecidableEq, Repr

/-- `KEYSET_SIZE` -/
def KEYSET_SIZE : ℕ := 16

namespace KeySet

def size (ks : KeySet) : ℕ := ks.array.length

end KeySet

def ksRewind (ks : KeySet) : KeySet := { ks with cursor := none, current := 0 }

/-- `none` is the invalid cursor `-1`. -/
def ksGetCursor (ks : KeySet) : Option ℕ := if ks.cursor = none then none else some ks.current

def ksSetCursor (ks : KeySet) (cursor : Option ℕ) : KeySet :=
  match cursor with
  | none => ksRewind ks
  | some pos => { ks with current := pos, cursor := ks.array[pos]? }

def ksNext (ks : KeySet) : Option KeyRef × KeySet :=
  if ks.size = 0 then (none, ks)
  else if ks.size ≤ ks.current then (none, ks)
  else
    let current := if ks.cursor = none then ks.current else ks.current + 1
    (ks.array[current]?, { ks with current := current, cursor := ks.array[current]? })

/-! ## Allocation -/

/-- The new size of the array of a key set of `size` keys. -/
def resizeAlloc (size oldAlloc alloc : ℕ) : ℤ × ℕ :=
  let alloc := alloc + 1
  if alloc = oldAlloc then (1, oldAlloc)
  else if alloc < size then (0, oldAlloc)
  else if alloc < KEYSET_SIZE then
    if oldAlloc ≠ KEYSET_SIZE then (1, KEYSET_SIZE) else (0, oldAlloc)
  else (1, alloc)

def ksResize (ks : KeySet) (alloc : ℕ) : ℤ × KeySet :=
  let (ret, alloc) := resizeAlloc ks.size ks.alloc alloc
  (ret, { ks with alloc := alloc })

/-! ## Appending -/

/-- The order of `toAppend` relative to the entries of the array. -/
def searchOrder (h : Heap) (ks : KeySet) (toAppend : KeyRef) (i : ℕ) : Ordering :=
  (ks.array[i]?).elim .lt fun k => keyCompareByNameOwner (h.cell toAppend) (h.cell k)

def ksSearchInternal (h : Heap) (ks : KeySet) (toAppend : KeyRef) : ℤ :=
  Bisect.closed (searchOrder h ks toAppend) ks.size

def ksAppendKey (h : Heap) (ks : KeySet) (toAppend : KeyRef) : ℤ × Heap × KeySet :=
  if (h.cell toAppend).key = none then (-1, keyDel h toAppend, ks)
  else
    let h := elektraKeyLock h toAppend
    let result := ksSearchInternal h ks toAppend
    if 0 ≤ result then
      let pos := result.toNat
      if ks.array[pos]? = some toAppend then (ks.size, h, ks)
      else
        let old := ks.array.getD pos toAppend
        let h := keyDel (keyDecRef h old) old
        let h := keyIncRef h toAppend
        let ks := { ks with array := ks.array.set pos toAppend }
        (ks.size, h, ksSetCursor ks (some pos))
    else
      let insertpos := (-result - 1).toNat
      let size := ks.size + 1
      let alloc :=
        if ks.alloc ≤ size then (resizeAlloc size ks.alloc (ks.alloc * 2 - 1)).2 else ks.alloc
      let h := keyIncRef h toAppend
      let ks :=
        { ks with
          array := ks.array.take insertpos ++ toAppend :: ks.array.drop insertpos
          alloc := alloc }
      (ks.size, h, ksSetCursor ks (some insertpos))

/-- The loop `for (toAlloc = ks->alloc; n >= toAlloc; toAlloc *= 2)`. -/
def toAllocLoop (n : ℕ) : ℕ → ℕ → ℕ
  | 0, toAlloc => toAlloc
  | fuel + 1, toAlloc => if toAlloc ≤ n then toAllocLoop n fuel (toAlloc * 2) else toAlloc

/-- The loop of `ksAppend`. -/
def ksAppendLoop (h : Heap) (ks : KeySet) : List KeyRef → Heap × KeySet
  | [] => (h, ks)
  | k :: toAppend =>
    let (_, h, ks) := ksAppendKey h ks k
    ksAppendLoop h ks toAppend

def ksAppend (h : Heap) (ks toAppend : KeySet) : ℤ × Heap × KeySet :=
  if toAppend.size = 0 then (ks.size, h, ks)
  else
    let n := ks.size + toAppend.size
    let (_, ks) := ksResize ks (toAllocLoop n (n + 1) ks.alloc - 1)
    let (h, ks) := ksAppendLoop h ks toAppend.array
    (ks.size, h, ks)

/-! ## Creating and deleting -/

/-- `ksNew (alloc, keys..., KS_END)` -/
def ksNew (h : Heap) (alloc : ℕ) (keys : List KeyRef) : Heap × KeySet :=
  let alloc := alloc + 1
  let keyset : KeySet :=
    { array := [], alloc := if alloc < KEYSET_SIZE then KEYSET_SIZE else alloc, cursor := none,
      current := 0, sync := false }
  let (h, keyset) := if alloc ≠ 1 then ksAppendLoop h keyset keys else (h, keyset)
  (h, ksRewind keyset)

def ksDup (h : Heap) (source : KeySet) : Heap × KeySet :=
  let size := if source.alloc < KEYSET_SIZE then KEYSET_SIZE else source.alloc
  let (h, keyset) := ksNew h size []
  let (_, h, keyset) := ksAppend h keyset source
  (h, keyset)

/-- The loop of `ksClose`. -/
def closeLoop (h : Heap) (keys : List KeyRef) : Heap :=
  keys.foldl (fun h k => keyDel (keyDecRef h k) k) h

/-- The end of the iteration leaves the position at the old size. -/
def ksClose (h : Heap) (ks : KeySet) : Heap × KeySet :=
  (closeLoop h ks.array, { ks with array := [], alloc := 0, cursor := none, current := ks.size })

def ksClear (h : Heap) (ks : KeySet) : Heap × KeySet :=
  let (h, ks) := ksClose h ks
  (h, { ks with alloc := KEYSET_SIZE })

def ksDel (h : Heap) (ks : KeySet) : Heap := (ksClose h ks).1

def ksCopy (h : Heap) (dest : KeySet) (source : Option KeySet) : ℤ × Heap × KeySet :=
  let (h, dest) := ksClear h dest
  match source with
  | none => (0, h, dest)
  | some source =>
    let (_, h, dest) := ksAppend h dest source
    (1, h, ksSetCursor dest (ksGetCursor source))

/-! ## Taking keys out -/

def ksPop (h : Heap) (ks : KeySet) : Option KeyRef × Heap × KeySet :=
  let ks := { ks with sync := true }
  match ks.array.getLast? with
  | none => (none, h, ks)
  | some ret =>
    let ks := { ks with array := ks.array.dropLast }
    let ks := if ks.size + 1 < ks.alloc / 2 then (ksResize ks (ks.alloc / 2 - 1)).2 else ks
    (some ret, keyDecRef h ret, ks)

/-- The key is moved to the end of the array, and popped there. -/
def elektraKsPopAtCursor (h : Heap) (ks : KeySet) (pos : ℤ) : Option KeyRef × Heap × KeySet :=
  if pos < 0 then (none, h, ks)
  else
    match ks.array[pos.toNat]? with
    | none => (none, h, ks)
    | some k => ksPop h (ksRewind { ks with array := ks.array.eraseIdx pos.toNat ++ [k] })

/-! ## Cutting -/

/-- The cursor after the keys from `found` to `it` were cut out of `size` keys. -/
def cutCursor (ks : KeySet) (found it : ℕ) : KeySet :=
  let (ks, setCursor) :=
    if found ≤ ks.current ∧ ks.current < it then
      if found = 0 then (ksRewind ks, false) else ({ ks with current := found - 1 }, true)
    else (ks, false)
  let (ks, setCursor) :=
    if it ≤ ks.current then
      if ks.size ≤ it then (ksRewind ks, setCursor)
      else ({ ks with current := found + ks.current - it }, true)
    else (ks, setCursor)
  let ks := { ks with array := ks.array.take found ++ ks.array.drop it }
  if setCursor then { ks with cursor := ks.array[ks.current]? } else ks

/-- The test of `ksCut`. -/
def cutTest (h : Heap) (cutpoint k : KeyRef) : Bool :=
  keyIsBelowOrSame (h.cell cutpoint) (h.cell k)

/-- `ksCut` at a cutpoint in a namespace. -/
def ksCutBelow (h : Heap) (ks : KeySet) (cutpoint : KeyRef) : Heap × KeySet × KeySet :=
  let below := cutTest h cutpoint
  let found := (ks.array.takeWhile fun k => !below k).length
  let it := found + ((ks.array.drop found).takeWhile below).length
  if found = ks.size then
    let (h, returned) := ksNew h 0 []
    (h, ks, returned)
  else
    let (h, returned) := ksNew h (it - found) []
    let returned := { returned with array := (ks.array.drop found).take (it - found) }
    (h, cutCursor ks found it, returned)

/-- The name of a cascading cutpoint in a namespace. -/
def cutName (ns : Namespace) (name : Str) : Str :=
  if name = [pathSeparator] then ns.name else ns.name ++ name

/-- `KEY_NS_FIRST` to `KEY_NS_LAST` -/
def namespaces : List Namespace := [.spec, .proc, .dir, .user, .system]

/-- One round of the loop of `ksCut` over the namespaces; the key carries the name of the cutpoint
in the namespace while it cuts. -/
def cutRound (cutpoint : KeyRef) (name : Str) (st : Heap × KeySet × KeySet) (ns : Namespace) :
    Heap × KeySet × KeySet :=
  let (h, ks, ret) := st
  let h := h.set cutpoint (elektraFinalizeName (h.cell cutpoint) (cutName ns name))
  let (h, ks, n) := ksCutBelow h ks cutpoint
  let (_, h, ret) := ksAppend h ret n
  (ksDel h n, ks, ret)

/-- Give `key` the name, the unescaped name and the sizes of `old`. -/
def restoreName (key old : Key) : Key :=
  { key with key := old.key, ukey := old.ukey, keySize := old.keySize, keyUSize := old.keyUSize }

def ksCut (h : Heap) (ks : KeySet) (cutpoint : KeyRef) : Heap × KeySet × Option KeySet :=
  match (h.cell cutpoint).key with
  | none => (h, ks, none)
  | some name =>
    if name.head? = some pathSeparator then
      let old := h.cell cutpoint
      let (h, ret) := ksNew h 0 []
      let (h, ks, ret) := namespaces.foldl (cutRound cutpoint name) (h, ks, ret)
      (h.set cutpoint (restoreName (h.cell cutpoint) old), ks, some ret)
    else
      let (h, ks, returned) := ksCutBelow h ks cutpoint
      (h, ks, some returned)

end Elektra
