import Mathlib.Data.Int.Bitwise
import Elektra.Split.Model

/-!
# kdbSet

The keys are divided among the backends below the parent key. Those with changes are prepared, each
by its plugins up to the commit, and then all are committed, or all are rolled back.

* `Environment`: errors, warnings and lookups; `clearError`, `copyError`;
* `SetState`, `PluginEvent`: what the plugins work on, and a log of their calls;
* `elektraSetPrepare`, `elektraSetCommit`, `elektraSetRollback`, `kdbSet`.
-/

namespace Elektra

/-! ## Errors -/

/-- What `kdbSet` takes from elsewhere. -/
structure Environment where
  /-- `ELEKTRA_SET_ERROR (number, key, text)` -/
  setError : ℕ → Key → Str → Key
  /-- `ELEKTRA_ADD_WARNING (number, key, text)` -/
  addWarning : ℕ → Key → Str → Key
  /-- Whether `ksLookup (ks, key, 0)` finds a key, and the key set behind it. -/
  lookup : List Key → Key → Bool × List Key

def errorMeta : List Str :=
  [str "error", str "error/number", str "error/description", str "error/reason", str "error/ingroup",
    str "error/module", str "error/file", str "error/line", str "error/configfile",
    str "error/mountpoint"]

def clearError (key : Key) : Key := errorMeta.foldl (fun key m => (keySetMeta key m none).2) key

/-- The metakeys of an error stand side by side. -/
def copyError (dest src : Key) : Key :=
  match keyGetMeta src (str "error") with
  | none => dest
  | some _ =>
    (src.metaKeys.filter fun m => m.1 = str "error" ∨ (str "error/").isPrefixOf m.1).foldl
      (fun dest m => (keySetMeta dest m.1 (some m.2)).2) dest

/-- `keySetString` -/
def keySetString (key : Key) (newStringValue : Str) : Key :=
  let key := (keySetMeta key (str "binary") none).2
  if key.roValue then key else { key with data := stringData newStringValue, sync := true }

/-! ## Calls of plugins -/

/-- A call of a plugin with its return value: of `kdbSet` or `kdbError` at a position of a backend,
for an entry of the split, or of a global plugin. -/
inductive PluginEvent
  | set (entry position : ℕ) (ret : ℤ)
  | error (entry position : ℕ) (ret : ℤ)
  | hook (position : GlobalpluginPositions) (ret : ℤ)
  deriving DecidableEq

/-- The locals of `kdbSet` that plugins work on. -/
structure SetState (W : Type) where
  world : W
  split : Split
  parentKey : Key
  errorKey : Option Key
  anyError : ℤ
  log : List PluginEvent

namespace SetState

variable {W : Type}

/-- A call with the keys of an entry; the key at the cursor is kept aside. -/
def callAt (s : SetState W) (call : PluginCall W) (i : ℕ) (event : ℤ → PluginEvent) :
    ℤ × Option Key × SetState W :=
  let r := call s.world ((s.split[i]?).elim [] SplitEntry.keyset) s.parentKey
  (r.ret, r.cursor, { s with
    world := r.world
    split := s.split.modify i fun e => { e with keyset := r.keys }
    parentKey := r.parentKey
    log := s.log ++ [event r.ret] })

/-- `keySetName (parentKey, keyName (split->parents[i]))` -/
def nameParent (s : SetState W) (parent : Key) : SetState W :=
  { s with parentKey := (keySetName s.parentKey (some (keyName parent))).2 }

def stringParent (s : SetState W) (value : Str) : SetState W :=
  { s with parentKey := keySetString s.parentKey value }

/-- `keySetString (split->parents[i], keyString (parentKey))` -/
def storeString (s : SetState W) (i : ℕ) : SetState W :=
  { s with split := s.split.modify i fun e =>
      { e with parent := keySetString e.parent (keyString s.parentKey) } }

end SetState

section Loops

variable {W : Type} (handle : KDB W)

/-- The `kdbSet` of a global plugin, with the keys of an entry; its return value is not looked at. -/
def callHook (position : GlobalpluginPositions) (i : ℕ) (cursor : Option Key) (s : SetState W) :
    Option Key × SetState W :=
  match (handle.globalPlugins position).bind Plugin.kdbSet with
  | none => (cursor, s)
  | some call =>
    let (_, cursor, s) := s.callAt call i (.hook position)
    (cursor, s)

/-- The end of a round of `elektraSetPrepare`: the hooks, and the test of the return value. -/
def setPrepareEnd (i p : ℕ) (ret : ℤ) (cursor : Option Key) (s : SetState W) : SetState W :=
  let (cursor, s) :=
    if p = 0 then callHook handle .preSetStorage i cursor s
    else if p = STORAGE_PLUGIN - 1 then callHook handle .preSetCleanup i cursor s
    else (cursor, s)
  if ret = -1 then { s with errorKey := cursor, anyError := -1 } else s

/-- The round of `elektraSetPrepare` for entry `i` and position `p`; whether it ends the loop over
the positions. -/
def setPrepareRound (i p : ℕ) (s : SetState W) : Bool × SetState W :=
  match s.split[i]? with
  | none => (false, s)
  | some e =>
    match ((e.backend handle).setplugins p).bind Plugin.kdbSet with
    | none => (false, setPrepareEnd handle i p 0 none s)
    | some call =>
      let s := (s.stringParent (if p ≠ 0 then keyString e.parent else [])).nameParent e.parent
      let (ret, cursor, s) := s.callAt call i (.set i p)
      -- the resolver says that no sync is needed
      if p = 0 ∧ ret = 0 then (true, s)
      else (false, setPrepareEnd handle i p ret cursor (if p = 0 then s.storeString i else s))

/-- The loop of `elektraSetPrepare` over the positions. -/
def setPrepareEntry (i : ℕ) : List ℕ → SetState W → SetState W
  | [], s => s
  | p :: ps, s =>
    let (done, s) := setPrepareRound handle i p s
    if done then s else setPrepareEntry i ps s

def elektraSetPrepare (s : SetState W) : SetState W :=
  (List.range s.split.length).foldl
    (fun s i => setPrepareEntry handle i (List.range COMMIT_PLUGIN) s) s

/-- The round of `elektraSetCommit` for position `p` and entry `i`. -/
def setCommitRound (env : Environment) (p : ℕ) (s : SetState W) (i : ℕ) : SetState W :=
  match s.split[i]? with
  | none => s
  | some e =>
    match ((e.backend handle).setplugins p).bind Plugin.kdbSet with
    | none => s
    | some call =>
      let s := if p ≠ COMMIT_PLUGIN then s.stringParent (keyString e.parent) else s
      let (ret, _, s) := (s.nameParent e.parent).callAt call i (.set i p)
      let s := if p = COMMIT_PLUGIN then s.storeString i else s
      if ret = -1 then
        { s with parentKey :=
            env.addWarning 80 s.parentKey (keyName ((e.backend handle).mountpoint.getD keyNew)) }
      else s

def elektraSetCommit (env : Environment) (s : SetState W) : SetState W :=
  ((List.range NR_OF_PLUGINS).drop COMMIT_PLUGIN).foldl (fun s p =>
    (List.range s.split.length).foldl (setCommitRound handle env p) s) s

/-- The round of `elektraSetRollback` for position `p` and entry `i`. -/
def setRollbackRound (env : Environment) (p : ℕ) (s : SetState W) (i : ℕ) : SetState W :=
  match s.split[i]? with
  | none => s
  | some e =>
    match (e.backend handle).errorplugins p with
    | none => s
    | some plugin =>
      let (ret, _, s) := (s.nameParent e.parent).callAt plugin.kdbError i (.error i p)
      if ret = -1 then
        { s with parentKey :=
            env.addWarning 81 s.parentKey (keyName ((e.backend handle).mountpoint.getD keyNew)) }
      else s

def elektraSetRollback (env : Environment) (s : SetState W) : SetState W :=
  (List.range NR_OF_PLUGINS).foldl (fun s p =>
    (List.range s.split.length).foldl (setRollbackRound handle env p) s) s

end Loops

/-! ## kdbSet -/

/-- What `kdbSet` leaves behind; the split and the log are those of the call. -/
structure SetResult (W : Type) where
  ret : ℤ
  handle : KDB W
  world : W
  ks : List Key
  parentKey : Key
  split : Split
  log : List PluginEvent

section Set

variable {W : Type} (env : Environment) (handle : KDB W)

/-- A global plugin works on the key set of the caller; its return value is not looked at. -/
def callGlobal (call : Option (PluginCall W)) (position : GlobalpluginPositions) (ks : List Key)
    (s : SetState W) : List Key × SetState W :=
  match call with
  | none => (ks, s)
  | some call =>
    let r := call s.world ks s.parentKey
    (r.keys, { s with
      world := r.world, parentKey := r.parentKey, log := s.log ++ [.hook position r.ret] })

/-- From the label `error:` on. -/
def kdbSetError (ks : List Key) (initialParent : Key) (s : SetState W) : SetResult W :=
  let s := s.nameParent initialParent
  let preRollback := (handle.globalPlugins .preRollback).map Plugin.kdbError
  let (ks, s) := callGlobal preRollback .preRollback ks s
  let s := elektraSetRollback handle env s
  let (ks, s) :=
    match s.errorKey with
    | none => (ks, s)
    | some errorKey =>
      let (found, ks) := env.lookup ks errorKey
      if found then (ks, s)
      else (ks, { s with parentKey := env.addWarning 82 s.parentKey (keyName errorKey) })
  let s := s.nameParent initialParent
  let postRollback := (handle.globalPlugins .postRollback).map Plugin.kdbError
  let (ks, s) := callGlobal postRollback .postRollback ks s
  let s := s.nameParent initialParent
  { ret := -1, handle := handle, world := s.world, ks := ks, parentKey := s.parentKey,
    split := s.split, log := s.log }

/-- From `elektraSetCommit` on; the handle gets the new sizes, and all flags are removed. -/
def kdbSetCommit (ks : List Key) (initialParent oldError : Key) (s : SetState W) : SetResult W :=
  let s := SetState.nameParent { s with parentKey := copyError s.parentKey oldError } initialParent
  let preCommit := (handle.globalPlugins .preCommit).bind Plugin.kdbSet
  let (ks, s) := callGlobal preCommit .preCommit ks s
  let s := elektraSetCommit handle env s
  let (_, handle) := splitUpdateSize handle s.split
  let s := s.nameParent initialParent
  let postCommit := (handle.globalPlugins .postCommit).bind Plugin.kdbSet
  let (ks, s) := callGlobal postCommit .postCommit ks s
  let s := s.nameParent initialParent
  { ret := 1, handle := handle, world := s.world, ks := ks.map keyClearSync, parentKey := s.parentKey,
    split := s.split, log := s.log }

/-- `kdbSet`, for arguments that are not null. -/
def kdbSet (world : W) (ks : List Key) (parentKey : Key) : SetResult W :=
  let oldError := copyError (keyNewName (keyName parentKey)) parentKey
  let unchanged (ret : ℤ) (parentKey : Key) (split : Split) : SetResult W :=
    { ret := ret, handle := handle, world := world, ks := ks, parentKey := parentKey, split := split,
      log := [] }
  if keyGetNamespace parentKey = .metaName then
    unchanged (-1) (env.setError 104 (clearError parentKey) (keyName parentKey)) []
  else
    let parentKey :=
      if keyGetNamespace parentKey = .empty then
        env.addWarning 105 parentKey (str "invalid key name passed to kdbSet")
      else parentKey
    let initialParent := keyDup parentKey
    let split := (splitBuildup [] handle (some parentKey)).2
    let (divided, split) := splitDivide split handle ks
    let s : SetState W :=
      { world := world, split := split, parentKey := clearError parentKey, errorKey := none,
        anyError := 0, log := [] }
    if divided = -1 then
      let curKey := ks.find? fun k => mountGetBackend handle (some k) = none
      kdbSetError env handle ks initialParent
        { s with parentKey := env.setError 8 s.parentKey (keyName (curKey.getD keyNew)) }
    else
      let (sync, split) := splitSync split handle
      let syncstate := Int.lor divided sync
      if syncstate ≠ 1 then
        let parentKey := (keySetName parentKey (some (keyName initialParent))).2
        if syncstate = 0 then unchanged 0 parentKey split
        else if syncstate = -1 then
          unchanged (-1) (env.setError 107 (clearError parentKey) (str "Assert failed: invalid namespace"))
            split
        else
          let parent := (split[(-syncstate - 2).toNat]?).elim keyNew SplitEntry.parent
          unchanged (-1) (env.setError 107 (clearError parentKey) (keyName parent)) split
      else
        let s := elektraSetPrepare handle { s with split := splitPrepare split }
        if s.anyError = -1 then kdbSetError env handle ks initialParent s
        else kdbSetCommit env handle ks initialParent oldError s

end Set

end Elektra
