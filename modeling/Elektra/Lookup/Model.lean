import Elektra.KeySet.Map
import Elektra.Name.Rename

/-!
# ksLookup

The functions behind `ksLookup` rewrite the name of the search key and call `ksLookup` again. They
are given that call as a parameter, and `ksLookup` ties the knot with a bound on the depth of the
calls.

* `World`, `Options`, `Stop`, `Callback`;
* `elektraLookupBinarySearch`, `elektraLookupLinearSearch`, `elektraLookupSearch`;
* `elektraLookupBySpecLinks`, `elektraLookupBySpecNamespaces`, `elektraLookupBySpecDefault`,
  `elektraLookupBySpec`, `elektraLookupByCascading`;
* `ksLookup`, `ksLookupByName`.
-/

namespace Elektra

/-! ## States, options, outcomes -/

/-- The keys, and the key set of the call. -/
structure World where
  heap : Heap
  ks : KeySet

namespace World

def cell (w : World) (k : KeyRef) : Key := w.heap.cell k

def set (w : World) (k : KeyRef) (key : Key) : World := { w with heap := w.heap.set k key }

def alloc (w : World) (key : Key) : KeyRef × World :=
  ((w.heap.alloc key).1, { w with heap := (w.heap.alloc key).2 })

def del (w : World) (k : KeyRef) : World := { w with heap := keyDel w.heap k }

def appendKey (w : World) (k : KeyRef) : World :=
  let (_, h, ks) := ksAppendKey w.heap w.ks k
  { heap := h, ks := ks }

end World

/-- The option word of a lookup. -/
structure Options where
  /-- `KDB_O_DEL` -/
  del : Bool := false
  /-- `KDB_O_POP` -/
  pop : Bool := false
  /-- `KDB_O_NOCASE` -/
  nocase : Bool := false
  /-- `KDB_O_WITHOWNER` -/
  withowner : Bool := false
  /-- `KDB_O_NOALL` -/
  noall : Bool := false
  /-- `KDB_O_SPEC` -/
  spec : Bool := false
  /-- `KDB_O_CREATE` -/
  create : Bool := false
  /-- `KDB_O_NOCASCADING` -/
  nocascading : Bool := false
  /-- `KDB_O_NOSPEC` -/
  nospec : Bool := false
  /-- `KDB_O_NODEFAULT` -/
  nodefault : Bool := false
  /-- `KDB_O_CALLBACK` -/
  callback : Bool := false
  deriving DecidableEq, Repr

/-- How a lookup ends without a result: the bound on the calls is reached, the name of a namespace
does not fit into the buffer before the name, or `strchr` finds no separator. -/
inductive Stop
  | fuel
  | buffer
  | noSeparator
  deriving DecidableEq, Repr

/-- The function that the eight bytes of a key point to. -/
abbrev Callback := Str → World → KeyRef → Option KeyRef → Options → Option KeyRef × World

/-- `ksLookup`, as the functions below call it. -/
abbrev Lookup := World → KeyRef → Options → Except Stop (Option KeyRef × World)

/-! ## Values -/

def keyIsBinary (key : Key) : Bool := (keyGetMeta key (str "binary")).isSome

/-- The bytes from `keyValue`, as many as `keyGetValueSize` says. -/
def valueBytes (key : Key) : Option Str :=
  match key.data with
  | some data => some data
  | none => if keyIsBinary key then none else some [0]

def keySetBinary (key : Key) (newBinary : Option Str) : Key :=
  if key.roValue then key
  else { (keySetMeta key (str "binary") (some [])).2 with data := newBinary, sync := true }

/-- `keyNew (name, KEY_CASCADING_NAME, KEY_END)`, with `KEY_VALUE` where there is data. -/
def keyNewCascading (name : Str) (value : Option Str) : Key :=
  (elektraKeySetName { keyNew with data := value.map (· ++ [0]), sync := value.isSome } (some name)
    false).2

def elektraCopyCallbackMeta (dest source : Key) : Key :=
  if dest.roMeta then dest
  else
    let removed := dest.metaKeys.filter fun m => isCallbackMeta m.1
    let copied := source.metaKeys.filter fun m => isCallbackMeta m.1
    { dest with
      metaKeys := copied ++ dest.metaKeys.filter fun m => !isCallbackMeta m.1
      sync := dest.sync || !removed.isEmpty || !copied.isEmpty }

/-- The decimals of `elektraWriteArrayNumber`, after `#` and an underscore for each but the first. -/
def elektraWriteArrayNumber (newIndex : ℕ) : Str :=
  let digits : Str := (Nat.toDigits 10 newIndex).map fun c => UInt8.ofNat c.toNat
  str "#" ++ List.replicate (digits.length - 1) 95 ++ digits

/-! ## Searching -/

/-- The comparison that the options ask for. -/
def lookupCompare (options : Options) : Key → Key → Ordering :=
  if options.withowner && options.nocase then keyCompareByNameOwnerCase
  else if options.withowner then keyCompareByNameOwner
  else if options.nocase then keyCompareByNameCase
  else keyCompareByName

/-- `bsearch` over the array. -/
def bsearch (w : World) (key : KeyRef) (cmp : Key → Key → Ordering) : Option ℕ :=
  Bisect.halfOpen (fun i => (w.ks.array[i]?).elim .lt fun k => cmp (w.cell key) (w.cell k)) w.ks.size

def elektraLookupBinarySearch (w : World) (key : KeyRef) (options : Options) :
    Option KeyRef × World :=
  let cursor := ksGetCursor w.ks
  match bsearch w key (lookupCompare options) with
  | some found =>
    if options.pop then
      let (k, h, ks) := elektraKsPopAtCursor w.heap w.ks found
      (k, { heap := h, ks := ks })
    else (w.ks.array[found]?, { w with ks := ksSetCursor w.ks (some found) })
  | none => (none, { w with ks := ksSetCursor w.ks cursor })

/-- The loop of `elektraLookupLinearSearch`; every round moves the cursor. -/
def linearLoop (w : World) (key : KeyRef) (cmp : Key → Key → Ordering) : ℕ → KeySet → Option KeyRef × KeySet
  | 0, ks => (none, ks)
  | fuel + 1, ks =>
    match ksNext ks with
    | (none, ks) => (none, ks)
    | (some current, ks) =>
      if cmp (w.cell key) (w.cell current) = .eq then (some current, ks)
      else linearLoop w key cmp fuel ks

def elektraLookupLinearSearch (w : World) (key : KeyRef) (options : Options) :
    Option KeyRef × World :=
  let cursor := ksGetCursor w.ks
  let ks := if options.noall then w.ks else ksRewind w.ks
  match linearLoop w key (lookupCompare options) (ks.size + 1) ks with
  | (some current, ks) => (some current, { w with ks := ks })
  | (none, ks) => (none, { w with ks := ksSetCursor ks cursor })

/-- The pointer to a callback: eight bytes that are not all zero. -/
def callbackPointer (key : Key) : Option Str :=
  if (keyGetMeta key (str "callback")).isSome && keyIsBinary key then
    key.data.filter fun v => v.length = 8 && v.any (· ≠ 0)
  else none

def elektraLookupSearch (cb : Callback) (w : World) (key : KeyRef) (options : Options) :
    Option KeyRef × World :=
  let (found, w) := elektraLookupBinarySearch w key options
  match callbackPointer (w.cell key) with
  | none => (found, w)
  | some v => cb v w key found options

def elektraLookupCreateKey (w : World) (key : KeyRef) : Option KeyRef × World :=
  let (ret, w) := w.alloc (keyDup (w.cell key))
  (some ret, w.appendKey ret)

/-! ## The specification -/

section Spec

variable (lookup : Lookup)

/-- The loop of `elektraLookupBySpecLinks`: link `i` is looked up by the key `k`. Every round reads
another metakey, so their number bounds the rounds. -/
def specLinksLoop (specKey : KeyRef) (buffer : Str) :
    ℕ → ℕ → Option KeyRef → World → Except Stop (Option KeyRef × Option KeyRef × World)
  | 0, _, k, w => .ok (none, k, w)
  | fuel + 1, i, k, w =>
    match keyGetMeta (w.cell specKey) (buffer ++ elektraWriteArrayNumber i) with
    | none => .ok (none, k, w)
    | some m => do
      let (k, w) := match k with
        | none =>
          let key := keySetBinary (keyNewCascading m none) (valueBytes (w.cell specKey))
          w.alloc (elektraCopyCallbackMeta key (w.cell specKey))
        | some k => (k, w.set k (elektraKeySetName (w.cell k) (some m) false).2)
      let (ret, w) ← lookup w k { nodefault := true }
      match ret with
      | some ret => .ok (some ret, some k, w)
      | none => specLinksLoop specKey buffer fuel (i + 1) (some k) w

def elektraLookupBySpecLinks (w : World) (specKey : KeyRef) (buffer : Str) :
    Except Stop (Option KeyRef × World) := do
  let (ret, k, w) ←
    specLinksLoop lookup specKey buffer ((w.cell specKey).metaKeys.length + 1) 0 none w
  match k with
  | none => .ok (ret, w)
  | some k =>
    let w := w.set specKey (elektraCopyCallbackMeta (w.cell specKey) (w.cell k))
    .ok (ret, w.del k)

def elektraLookupBySpecDefault (w : World) (specKey : KeyRef) :
    Except Stop (Option KeyRef × World) := do
  let (ret, w) ← lookup w specKey { nocascading := true }
  match ret with
  | some ret => .ok (some ret, w) -- previously added default key
  | none =>
    match keyGetMeta (w.cell specKey) (str "default") with
    | none => .ok (none, w)
    | some m =>
      let (ret, w) := w.alloc (keyNewCascading (keyName (w.cell specKey)) (some m))
      .ok (some ret, w.appendKey ret)

/-- The lookups of `elektraLookupByCascading` in one namespace after the other. -/
def cascadingLoop (key : KeyRef) (name : Str) (options : Options) :
    List Namespace → World → Except Stop (Option KeyRef × World)
  | [], w => .ok (none, w)
  | ns :: rest, w => do
    let w := w.set key (elektraFinalizeName (w.cell key) (ns.name ++ name))
    let (found, w) ← lookup w key { options with del := false }
    match found with
    | some found => .ok (some found, w)
    | none => cascadingLoop key name options rest w

/-- The end of `elektraLookupByCascading`, where no key of the specification was found. -/
def defaultCascading (w : World) (key : KeyRef) (old : Key) (options : Options) :
    Except Stop (Option KeyRef × World) := do
  let (found, w) ←
    cascadingLoop lookup key (old.key.getD []) options [.proc, .dir, .user, .system] w
  let w := w.set key (restoreName (w.cell key) old)
  match found with
  | some found => .ok (some found, w)
  | none =>
    if options.nodefault then .ok (none, w)
    else lookup w key { options with del := false, nocascading := true }

/-- The loop of `elektraLookupBySpecNamespaces`. -/
def specNamespacesLoop (specKey : KeyRef) (name : Str) :
    ℕ → ℕ → World → Except Stop (Option KeyRef × World)
  | 0, _, w => .ok (none, w)
  | fuel + 1, i, w =>
    match keyGetMeta (w.cell specKey) (str "namespace/" ++ elektraWriteArrayNumber i) with
    | none => .ok (none, w)
    | some m =>
      -- `newname` has room for six bytes before the name
      if 6 < m.length then .error .buffer
      else do
        let w := w.set specKey (elektraFinalizeName (w.cell specKey) (m ++ name))
        let (ret, w) ← lookup w specKey {}
        match ret with
        | some ret => .ok (some ret, w)
        | none => specNamespacesLoop specKey name fuel (i + 1) w

def elektraLookupBySpecNamespaces (w : World) (specKey : KeyRef) :
    Except Stop (Option KeyRef × World) :=
  let old := w.cell specKey
  match keyGetMeta old (str "namespace/#0") with
  | none => defaultCascading lookup w specKey old { nospec := true, nodefault := true }
  | some _ => do
    let (ret, w) ←
      specNamespacesLoop lookup specKey (old.key.getD []) (old.metaKeys.length + 1) 0 w
    .ok (ret, w.set specKey (restoreName (w.cell specKey) old))

/-- The searches of `elektraLookupBySpec`, one after the other. -/
def specSearches (w : World) (specKey : KeyRef) (options : Options) :
    Except Stop (Option KeyRef × World) := do
  let (ret, w) ← elektraLookupBySpecLinks lookup w specKey (str "override/")
  match ret with
  | some ret => .ok (some ret, w)
  | none => do
    let (ret, w) ← elektraLookupBySpecNamespaces lookup w specKey
    match ret with
    | some ret => .ok (some ret, w)
    | none => do
      let (ret, w) ← elektraLookupBySpecLinks lookup w specKey (str "fallback/")
      match ret with
      | some ret => .ok (some ret, w)
      | none =>
        if options.nodefault then .ok (none, w) else elektraLookupBySpecDefault lookup w specKey

def elektraLookupBySpec (w : World) (specKey : KeyRef) (options : Options) :
    Except Stop (Option KeyRef × World) :=
  let name := keyName (w.cell specKey)
  -- strip away the beginning
  match name.dropWhile (· ≠ pathSeparator) with
  | [] => .error .noSeparator
  | c :: s => do
    let w := w.set specKey (elektraFinalizeName (w.cell specKey) (c :: s))
    let (ret, w) ← specSearches lookup w specKey options
    .ok (ret, w.set specKey (elektraFinalizeName (w.cell specKey) name))

/-! ## Cascading -/

/-- What `elektraLookupByCascading` does with the key of the specification. -/
def specFound (w : World) (key specKey : KeyRef) (options : Options) :
    Except Stop (Option KeyRef × World) :=
  -- the search may have been modified so that it is not one of the specification
  if !(str "spec/").isPrefixOf (keyName (w.cell specKey)) then .ok (some specKey, w)
  else do
    let dup := keySetBinary (keyDup (w.cell specKey)) (valueBytes (w.cell key))
    let (specKey, w) := w.alloc (elektraCopyCallbackMeta dup (w.cell key))
    let (found, w) ← elektraLookupBySpec lookup w specKey options
    let w := w.set key (elektraCopyCallbackMeta (w.cell key) (w.cell specKey))
    .ok (found, w.del specKey)

def elektraLookupByCascading (w : World) (key : KeyRef) (options : Options) :
    Except Stop (Option KeyRef × World) :=
  let old := w.cell key
  if options.nospec then defaultCascading lookup w key old options
  else do
    let w := w.set key (elektraFinalizeName (w.cell key) (str "spec" ++ old.key.getD []))
    let (specKey, w) ← lookup w key { options with del := false, callback := true }
    match specKey with
    | some specKey => specFound lookup (w.set key (restoreName (w.cell key) old)) key specKey options
    | none => defaultCascading lookup w key old options

/-- A key whose name is locked is not renamed, but a duplicate of it. -/
def withUnlocked (f : World → KeyRef → Except Stop (Option KeyRef × World)) (w : World)
    (key : KeyRef) : Except Stop (Option KeyRef × World) :=
  if (w.cell key).roName then do
    let (lookupKey, w) := w.alloc (keyDup (w.cell key))
    let (ret, w) ← f w lookupKey
    let w := w.set key (elektraCopyCallbackMeta (w.cell key) (w.cell lookupKey))
    .ok (ret, w.del lookupKey)
  else f w key

variable (cb : Callback)

/-- The choice of the search. -/
def lookupRet (w : World) (key : KeyRef) (name : Str) (options : Options) :
    Except Stop (Option KeyRef × World) :=
  let masked := { options with del := false, create := false }
  if options.spec then withUnlocked (fun w k => elektraLookupBySpec lookup w k masked) w key
  else if !options.nocascading && name.head? = some pathSeparator then
    withUnlocked (fun w k => elektraLookupByCascading lookup w k masked) w key
  else if options.noall then .ok (elektraLookupLinearSearch w key masked)
  else .ok (elektraLookupSearch cb w key masked)

end Spec

/-- `ksLookup`, with at most `fuel` calls inside one another. -/
def ksLookup (cb : Callback) : ℕ → Lookup
  | 0 => fun _ _ _ => .error .fuel
  | fuel + 1 => fun w key options =>
    match (w.cell key).key with
    | none => .ok (none, w)
    | some name => do
      let (ret, w) ← lookupRet (ksLookup cb fuel) cb w key name options
      let (ret, w) :=
        if ret = none ∧ options.create then elektraLookupCreateKey w key else (ret, w)
      .ok (ret, if options.del then w.del key else w)

/-- The key of the lookup is one of the caller's stack. -/
def ksLookupByName (cb : Callback) (fuel : ℕ) (w : World) (name : Str) (options : Options) :
    Except Stop (Option KeyRef × World) :=
  if w.ks.size = 0 then .ok (none, w)
  else
    let (key, w) := w.alloc (elektraKeySetName keyNew (some name) true).2
    ksLookup cb fuel w key options

end Elektra
