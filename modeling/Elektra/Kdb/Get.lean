import Elektra.Kdb.GlobalKS
import Elektra.Kdb.Postprocess

/-!
# kdbGet

The keys of the application are given to the backends that are not updated, and to the bypass. The plugins of the
others fill key sets of their own. After all of them succeeded, the key set of the application is cleared, and
everything is merged into it. Where there are global plugins for the end of `kdbGet`, the plugins behind the storage
are called after that.

* `MemPlugin`, `GetHandle`: plugins that work on keys in memory;
* `elektraGetCheckUpdateNeeded`, `elektraGetDoUpdate`, `elektraGetDoUpdateWithGlobalHooks`;
* `Memory.splitAppoint`, `Memory.splitMerge`, `splitUpdateFileName`;
* `kdbGet`.
-/

namespace Elektra

/-! ## Plugins -/

/-- What a plugin leaves. -/
structure MemResult (W : Type) where
  ret : ℤ
  world : W
  heap : Heap
  ks : KeySet

/-- What a plugin does with the state of the world, the keys, its key set and the parent key. -/
abbrev MemCall (W : Type) := W → Heap → KeySet → KeyRef → MemResult W

/-- A plugin writes the keys of its key set, the parent key and keys that it makes, and returns no other ones. -/
structure Reaches {W : Type} (call : MemCall W) : Prop where
  frame : ∀ w (h : Heap) (ks : KeySet) p k, k < h.next → k ∉ ks.array → k ≠ p →
    (call w h ks p).heap.cell k = h.cell k
  next : ∀ w (h : Heap) ks p, h.next ≤ (call w h ks p).heap.next
  known : ∀ w (h : Heap) (ks : KeySet) p, ∀ k ∈ (call w h ks p).ks.array, k ∈ ks.array ∨ k = p ∨ h.next ≤ k

/-- The `kdbGet` of a plugin. -/
structure MemPlugin (W : Type) where
  call : MemCall W
  reaches : Reaches call

/-- The handle, with plugins that work on keys in memory. Plugins of a backend without `kdbGet` are left out. -/
structure GetHandle (W : Type) where
  kdb : KDB Unit
  getplugins : BackendRef → ℕ → Option (MemPlugin W)
  globalPlugins : GlobalpluginPositions → Option (MemPlugin W)

/-- What a call of `kdbGet` works on, but for the key sets; `kdb` is the handle with the sizes of the backends. -/
structure GetState (W : Type) where
  world : W
  heap : Heap
  kdb : KDB Unit

namespace GetState

variable {W : Type}

def modify (st : GetState W) (k : KeyRef) (f : Key → Key) : GetState W :=
  { st with heap := st.heap.set k (f (st.heap.cell k)) }

/-- `keySetName (parentKey, name)` -/
def nameParent (st : GetState W) (parentKey : KeyRef) (name : Str) : GetState W :=
  st.modify parentKey fun key => (keySetName key (some name)).2

def stringParent (st : GetState W) (parentKey : KeyRef) (value : Str) : GetState W :=
  st.modify parentKey fun key => keySetString key value

def call (st : GetState W) (plugin : MemPlugin W) (ks : KeySet) (parentKey : KeyRef) : ℤ × KeySet × GetState W :=
  let r := plugin.call st.world st.heap ks parentKey
  (r.ret, r.ks, { st with world := r.world, heap := r.heap })

/-- A global plugin; its return value is not looked at. -/
def callGlobal (st : GetState W) (plugin : Option (MemPlugin W)) (ks : KeySet) (parentKey : KeyRef) :
    KeySet × GetState W :=
  match plugin with
  | none => (ks, st)
  | some plugin => (st.call plugin ks parentKey).2

/-- `backendUpdateSize (backend, split->parents[i], size)` -/
def updateSize (st : GetState W) (part : SplitPart) (size : ℤ) : GetState W :=
  let b := part.handle.getD 0
  { st with kdb := { st.kdb with
      backend := Function.update st.kdb.backend b (backendUpdateSize (st.kdb.backend b) part.parent size).2 } }

end GetState

/-! ## Updating -/

section Update

variable {W : Type} (getplugins : BackendRef → ℕ → Option (MemPlugin W)) (parentKey : KeyRef)

/-- The loop of `elektraGetCheckUpdateNeeded`. -/
def getCheckLoop : List SplitPart → GetState W → ℤ → ℤ × List SplitPart × GetState W
  | [], st, updateNeededOccurred => (updateNeededOccurred, [], st)
  | part :: split, st, updateNeededOccurred =>
    let part := { part with syncbits := clear_bit part.syncbits 1 }
    match getplugins (part.handle.getD 0) RESOLVER_PLUGIN with
    | none => (-1, part :: split, st)
    | some plugin =>
      let st := (st.nameParent parentKey (keyName part.parent)).stringParent parentKey []
      let (ret, keyset, st) := st.call plugin (ksRewind part.keyset) parentKey
      -- the resolved file name
      let part := { part with
        keyset := keyset, parent := keySetString part.parent (keyString (st.heap.cell parentKey)) }
      let st := st.updateSize part 0
      if ret = 1 then
        let r := getCheckLoop split st (updateNeededOccurred + 1)
        (r.1, { part with syncbits := set_bit part.syncbits SPLIT_FLAG_SYNC } :: r.2.1, r.2.2)
      else if ret = 0 then
        let r := getCheckLoop split st updateNeededOccurred
        (r.1, part :: r.2.1, r.2.2)
      else (-1, part :: split, st)

def elektraGetCheckUpdateNeeded (split : List SplitPart) (st : GetState W) : ℤ × List SplitPart × GetState W :=
  getCheckLoop getplugins parentKey split st 0

/-- The plugins of a backend at some positions. -/
def getPositionsLoop (plugins : ℕ → Option (MemPlugin W)) :
    List ℕ → KeySet → GetState W → ℤ × KeySet × GetState W
  | [], keyset, st => (0, keyset, st)
  | p :: ps, keyset, st =>
    match plugins p with
    | none => getPositionsLoop plugins ps keyset st
    | some plugin =>
      let (ret, keyset, st) := st.call plugin keyset parentKey
      if ret = -1 then (-1, keyset, st) else getPositionsLoop plugins ps keyset st

/-- `ksRewind`, `keySetName` and `keySetString` for a part. -/
def enterPart (part : SplitPart) (st : GetState W) : GetState W :=
  (st.nameParent parentKey (keyName part.parent)).stringParent parentKey (keyString part.parent)

/-- The loop of `elektraGetDoUpdate`. -/
def getUpdateLoop (positions : List ℕ) : List SplitPart → GetState W → ℤ × List SplitPart × GetState W
  | [], st => (0, [], st)
  | part :: split, st =>
    if test_bit part.syncbits SPLIT_FLAG_SYNC then
      let (ret, keyset, st) := getPositionsLoop parentKey (getplugins (part.handle.getD 0)) positions
        (ksRewind part.keyset) (enterPart parentKey part st)
      let part := { part with keyset := keyset }
      if ret = -1 then (-1, part :: split, st)
      else
        let r := getUpdateLoop positions split st
        (r.1, part :: r.2.1, r.2.2)
    else
      let r := getUpdateLoop positions split st
      (r.1, part :: r.2.1, r.2.2)

/-- The last part is the bypass. -/
def elektraGetDoUpdate (split : List SplitPart) (st : GetState W) : ℤ × List SplitPart × GetState W :=
  let r := getUpdateLoop getplugins parentKey ((List.range NR_OF_PLUGINS).drop 1) split.dropLast st
  (r.1, r.2.1 ++ split.getLast?.toList, r.2.2)

end Update

/-! ## Updating with global plugins -/

inductive UpdatePass
  | first | last
  deriving DecidableEq

/-- What `elektraGetDoUpdateWithGlobalHooks` works on. -/
structure HookState (W : Type) extends GetState W where
  ks : KeySet
  pgsDone : Bool
  pgcDone : Bool

section Hooks

variable {W : Type} (cb : Callback) (n : ℕ) (getplugins : BackendRef → ℕ → Option (MemPlugin W))
  (postGetStorage postGetCleanup : Option (MemPlugin W)) (parentKey : KeyRef) (initialParent : Key)

/-- A global plugin is called while a part is updated. -/
def callHooked (part : SplitPart) (st : HookState W) (plugin : MemPlugin W) : HookState W :=
  let (_, ks, g) := (st.nameParent parentKey (keyName initialParent)).call plugin (ksRewind st.ks) parentKey
  { st with toGetState := g.nameParent parentKey (keyName part.parent), ks := ks }

/-- The global plugins before position `p`. -/
def getHook (part : SplitPart) (p : ℕ) (st : HookState W) : HookState W :=
  match if !st.pgsDone && p = STORAGE_PLUGIN + 1 then postGetStorage else none with
  | some plugin => { callHooked parentKey initialParent part st plugin with pgsDone := true }
  | none =>
    match if !st.pgcDone && p = NR_OF_PLUGINS - 1 then postGetCleanup else none with
    | some plugin => { callHooked parentKey initialParent part st plugin with pgcDone := true }
    | none => st

/-- A plugin behind the storage gets keys of `ks`. There always are some to be cut: the cut key has a name. -/
def callCut (plugin : MemPlugin W) (st : HookState W) : Except Stop (ℤ × HookState W) := do
  let (h, ks, cutKS) ← prepareGlobalKS cb n st.heap st.ks parentKey
  match cutKS with
  | none => .ok (0, { st with heap := h, ks := ks })
  | some cutKS =>
    let (ret, cutKS, g) := GetState.call { st.toGetState with heap := h } plugin cutKS parentKey
    let (_, h, ks) := ksAppend g.heap ks cutKS
    .ok (ret, { st with toGetState := { g with heap := ksDel h cutKS }, ks := ks })

/-- The plugins of a backend at some positions, and the global plugins. -/
def hookPositionsLoop (part : SplitPart) : List ℕ → KeySet → HookState W → Except Stop (ℤ × KeySet × HookState W)
  | [], keyset, st => .ok (0, keyset, st)
  | p :: ps, keyset, st =>
    let st := getHook postGetStorage postGetCleanup parentKey initialParent part p st
    match getplugins (part.handle.getD 0) p with
    | none => hookPositionsLoop part ps keyset st
    | some plugin =>
      if p ≤ STORAGE_PLUGIN then
        let (ret, keyset, g) := st.call plugin keyset parentKey
        let st := { st with toGetState := g }
        if ret = -1 then .ok (-1, keyset, st) else hookPositionsLoop part ps keyset st
      else do
        let (ret, st) ← callCut cb n parentKey plugin st
        if ret = -1 then .ok (-1, keyset, st) else hookPositionsLoop part ps keyset st

/-- The loop of `elektraGetDoUpdateWithGlobalHooks`. -/
def hookUpdateLoop (positions : List ℕ) :
    List SplitPart → HookState W → Except Stop (ℤ × List SplitPart × HookState W)
  | [], st => .ok (0, [], st)
  | part :: split, st =>
    if test_bit part.syncbits SPLIT_FLAG_SYNC then do
      let (ret, keyset, st) ← hookPositionsLoop cb n getplugins postGetStorage postGetCleanup parentKey initialParent part positions
        (ksRewind part.keyset) { st with toGetState := enterPart parentKey part st.toGetState }
      let part := { part with keyset := keyset }
      if ret = -1 then .ok (-1, part :: split, st)
      else
        let (ret, split, st) ← hookUpdateLoop positions split st
        .ok (ret, part :: split, st)
    else do
      let (ret, split, st) ← hookUpdateLoop positions split st
      .ok (ret, part :: split, st)

def UpdatePass.positions : UpdatePass → List ℕ
  | .first => (List.range (STORAGE_PLUGIN + 1)).drop 1
  | .last => (List.range NR_OF_PLUGINS).drop (STORAGE_PLUGIN + 1)

def elektraGetDoUpdateWithGlobalHooks (split : List SplitPart) (ks : KeySet) (st : GetState W) (run : UpdatePass) :
    Except Stop (ℤ × List SplitPart × KeySet × GetState W) := do
  let (ret, parts, st) ← hookUpdateLoop cb n getplugins postGetStorage postGetCleanup parentKey initialParent run.positions
    split.dropLast { toGetState := st, ks := ks, pgsDone := false, pgcDone := false }
  .ok (ret, parts ++ split.getLast?.toList, st.ks, st.toGetState)

end Hooks

/-! ## The split -/

/-- What `splitAppend` makes of an entry without keys. -/
def SplitEntry.part (e : SplitEntry) : SplitPart :=
  { keyset := { array := [], alloc := KEYSET_SIZE, cursor := none, current := 0, sync := false }
    handle := e.handle, parent := e.parent, syncbits := e.syncbits }

namespace Memory

/-- The part that a key is appointed to. -/
def appointKey (defFound : ℕ) (curHandle : BackendRef) (split : List SplitPart) (h : Heap) (curKey : KeyRef) :
    Heap × List SplitPart :=
  let curFound := (splitSearchBackend (split.map SplitPart.entry) (some curHandle) (h.cell curKey)).getD defFound
  match split[curFound]? with
  | none => (h, split)
  | some part =>
    if test_bit part.syncbits SPLIT_FLAG_SYNC then (h, split)
    else
      let (_, h, keyset) := ksAppendKey h part.keyset curKey
      (h, split.set curFound { part with keyset := keyset })

/-- The loop of `splitAppoint`; no round adds keys to `ks`, so their number bounds the rounds. -/
def appointLoop (kdb : KDB Unit) (defFound : ℕ) :
    ℕ → List SplitPart → Heap → KeySet → ℤ × List SplitPart × Heap × KeySet
  | 0, split, h, ks => (1, split, h, ks)
  | fuel + 1, split, h, ks =>
    match ksNext ks with
    | (none, ks) => (1, split, h, ks)
    | (some curKey, ks) =>
      match mountGetBackend kdb (some (h.cell curKey)) with
      | none => (-1, split, h, ks)
      | some curHandle =>
        let (h, split) := appointKey defFound curHandle split h curKey
        appointLoop kdb defFound fuel split h ks

/-- The bypass is appended to the parts. -/
def splitAppoint (kdb : KDB Unit) (split : List SplitPart) (h : Heap) (ks : KeySet) :
    ℤ × List SplitPart × Heap × KeySet :=
  let bypass := SplitEntry.part { keyset := [], handle := none, parent := keyNew, syncbits := 0 }
  appointLoop kdb split.length (ks.size + 1) (split ++ [bypass]) h (ksRewind ks)

def splitMerge (split : List SplitPart) (h : Heap) (dest : KeySet) : Heap × KeySet :=
  split.foldl (fun st part => (ksAppend st.1 st.2 part.keyset).2) (h, dest)

/-- The parents of the parts are values here. -/
def splitDel (split : List SplitPart) (h : Heap) : Heap := split.foldl (fun h part => ksDel h part.keyset) h

end Memory

def splitUpdateFileName {W : Type} (split : List SplitPart) (key : KeyRef) (st : GetState W) : GetState W :=
  match mountGetBackend st.kdb (some (st.heap.cell key)) with
  | none => st
  | some curHandle =>
    match splitSearchBackend (split.map SplitPart.entry) (some curHandle) (st.heap.cell key) with
    | none => st
    | some curFound => st.stringParent key (keyString ((split[curFound]?).elim keyNew SplitPart.parent))

/-! ## kdbGet -/

/-- What `kdbGet` leaves behind. -/
structure GetResult (W : Type) where
  ret : ℤ
  kdb : KDB Unit
  world : W
  heap : Heap
  ks : KeySet

section Get

variable {W : Type} (env : Environment) (cb : Callback) (n : ℕ) (handle : GetHandle W) (parentKey : KeyRef)

/-- The end, on success and where there is no update. -/
def kdbGetEnd (ret : ℤ) (initialParent : Key) (split : List SplitPart) (ks : KeySet) (st : GetState W) :
    GetResult W :=
  let st := splitUpdateFileName split parentKey (st.nameParent parentKey (keyName initialParent))
  { ret := ret, kdb := st.kdb, world := st.world, heap := Memory.splitDel split st.heap, ks := ks }

/-- From the label `error:` on. -/
def kdbGetError (initialParent : Key) (split : List SplitPart) (ks : KeySet) (st : GetState W) : GetResult W :=
  let st := st.nameParent parentKey (keyName initialParent)
  let (ks, st) := st.callGlobal (handle.globalPlugins .postGetStorage) ks parentKey
  kdbGetEnd parentKey (-1) initialParent split ks st

/-- `splitGet` and its warning, `ksClear` and `splitMerge` -/
def kdbGetMerge (split : List SplitPart) (ks : KeySet) (st : GetState W) : List SplitPart × KeySet × GetState W :=
  let (ret, split, kdb, h) := splitGet env split parentKey st.kdb st.heap
  let st : GetState W := { st with heap := h, kdb := kdb }
  let st :=
    if ret = -1 then
      st.modify parentKey fun key => env.addWarning 108 key (ks.cursor.elim [] fun k => keyName (st.heap.cell k))
    else st
  let (h, ks) := ksClear st.heap ks
  let (h, ks) := Memory.splitMerge split h ks
  (split, ks, { st with heap := h })

/-- The update, without global plugins at its end. -/
def kdbGetUpdate (initialParent oldError : Key) (split : List SplitPart) (ks : KeySet) (st : GetState W) :
    GetResult W :=
  let (ret, split, st) := elektraGetDoUpdate handle.getplugins parentKey split (st.modify parentKey clearError)
  if ret = -1 then kdbGetError handle parentKey initialParent split ks st
  else
    let (split, ks, st) := kdbGetMerge env parentKey split ks (st.modify parentKey fun key => copyError key oldError)
    kdbGetEnd parentKey 1 initialParent split (ksRewind ks) st

/-- The update, with global plugins at its end. -/
def kdbGetUpdateHooks (initialParent oldError : Key) (split : List SplitPart) (ks : KeySet) (st : GetState W) :
    Except Stop (GetResult W) := do
  let hooks := elektraGetDoUpdateWithGlobalHooks cb n handle.getplugins
  -- the first pass gets neither a handle nor a key set
  let (ret, split, _, st) ← hooks none none parentKey initialParent split (SplitEntry.part
    { keyset := [], handle := none, parent := keyNew, syncbits := 0 }).keyset (st.modify parentKey clearError) .first
  if ret = -1 then .ok (kdbGetError handle parentKey initialParent split ks st)
  else
    let st := st.modify parentKey fun key => copyError key oldError
    let (split, ks, st) := kdbGetMerge env parentKey split ks (st.nameParent parentKey (keyName initialParent))
    let (ret, split, ks, st) ← hooks (handle.globalPlugins .postGetStorage) (handle.globalPlugins .postGetCleanup)
      parentKey initialParent split ks (st.modify parentKey clearError) .last
    if ret = -1 then .ok (kdbGetError handle parentKey initialParent split ks st)
    else
      let st := st.modify parentKey fun key => copyError key oldError
      .ok (kdbGetEnd parentKey 1 initialParent split (ksRewind ks) st)

/-- `kdbGet`, for arguments that are not null; `n` bounds the rounds of `prepareGlobalKS`. -/
def kdbGet (world : W) (heap : Heap) (ks : KeySet) : Except Stop (GetResult W) :=
  let parent := heap.cell parentKey
  let oldError := copyError (keyNewName (keyName parent)) parent
  let st : GetState W := { world := world, heap := heap, kdb := handle.kdb }
  if keyGetNamespace parent = .metaName then
    let st := st.modify parentKey fun key => env.setError 104 (clearError key) (keyName parent)
    .ok { ret := -1, kdb := st.kdb, world := st.world, heap := st.heap, ks := ks }
  else
    let st :=
      if keyGetNamespace parent = .empty then
        st.modify parentKey fun key => env.addWarning 105 key (str "invalid key name passed to kdbGet")
      else st
    let initialParent := keyDup (st.heap.cell parentKey)
    let (ks, st) := st.callGlobal (handle.globalPlugins .preGetStorage) ks parentKey
    let (built, split) := splitBuildup [] st.kdb (some (st.heap.cell parentKey))
    let split := split.map SplitEntry.part
    if built = -1 then
      let st := st.modify parentKey fun key => env.setError 38 (clearError key) (str "error in splitBuildup")
      .ok (kdbGetError handle parentKey initialParent split ks st)
    else
      let (updateNeeded, split, st) := elektraGetCheckUpdateNeeded handle.getplugins parentKey split st
      if updateNeeded = 0 then .ok (kdbGetEnd parentKey 0 initialParent split ks st)
      else if updateNeeded = -1 then .ok (kdbGetError handle parentKey initialParent split ks st)
      else
        let (appointed, split, h, ks) := Memory.splitAppoint st.kdb split st.heap ks
        let st : GetState W := { st with heap := h }
        if appointed = -1 then
          let st := st.modify parentKey fun key => env.setError 38 (clearError key) (str "error in splitAppoint")
          .ok (kdbGetError handle parentKey initialParent split ks st)
        else if (handle.globalPlugins .postGetStorage).isSome || (handle.globalPlugins .postGetCleanup).isSome then
          kdbGetUpdateHooks env cb n handle parentKey initialParent oldError split ks st
        else .ok (kdbGetUpdate env handle parentKey initialParent oldError split ks st)

end Get

end Elektra
