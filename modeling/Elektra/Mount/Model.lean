import Elektra.Trie.Model
import Elektra.KeySet.Relation

/-!
# Backends and mounting

A backend is known by its address. The handle keeps the mounted backends twice: in the trie, under
the names of their mountpoints, and in `split`, as a list.

* `Plugin`, `Backend`, `SplitEntry`, `KDB`;
* `mountBackend`, `mountOpen`, `mountDefault`, `mountGetBackend`.
-/

namespace Elektra

/-! ## Backends -/

/-- What a plugin leaves behind: its return value, the state of the world, the key set with the key
at its cursor, and the parent key. -/
structure PluginResult (W : Type) where
  ret : ℤ
  world : W
  keys : List Key
  cursor : Option Key
  parentKey : Key

/-- What a plugin does with the state of the world, the key set and the parent key. -/
abbrev PluginCall (W : Type) := W → List Key → Key → PluginResult W

/-- `struct _Plugin` -/
structure Plugin (W : Type) where
  kdbGet : Option (PluginCall W)
  kdbSet : Option (PluginCall W)
  kdbError : PluginCall W

def NR_OF_PLUGINS : ℕ := 10
def COMMIT_PLUGIN : ℕ := 7
def STORAGE_PLUGIN : ℕ := 5
def RESOLVER_PLUGIN : ℕ := 0

/-- A pointer to a backend. -/
abbrev BackendRef := ℕ

/-- `struct _Backend`; the sizes are `-1` before the first `kdbGet`. -/
structure Backend (W : Type) where
  mountpoint : Option Key
  setplugins : ℕ → Option (Plugin W)
  getplugins : ℕ → Option (Plugin W)
  errorplugins : ℕ → Option (Plugin W)
  specsize : ℤ
  dirsize : ℤ
  usersize : ℤ
  systemsize : ℤ
  refcounter : ℕ

inductive GlobalpluginPositions
  | preRollback | postRollback | preGetStorage | postGetStorage | postGetCleanup | preSetStorage
  | preSetCleanup | preCommit | postCommit
  deriving DecidableEq

/-! ## The split -/

/-- One entry of `struct _Split`. The bits are those of `splitflag_t`. -/
structure SplitEntry where
  keyset : List Key
  handle : Option BackendRef
  parent : Key
  syncbits : ℕ

abbrev Split := List SplitEntry

def SPLIT_FLAG_SYNC : ℕ := 1
def SPLIT_FLAG_CASCADING : ℕ := 2

def test_bit (var bit : ℕ) : Bool := var &&& bit ≠ 0
def set_bit (var bit : ℕ) : ℕ := var ||| bit
def clear_bit (var bit : ℕ) : ℕ := var - (var &&& bit)

def splitAppend (split : Split) (backend : Option BackendRef) (parentKey : Key) (syncbits : ℕ) : Split :=
  split ++ [{ keyset := [], handle := backend, parent := parentKey, syncbits := syncbits }]

/-! ## The handle -/

/-- `struct _KDB`, with the backends its pointers lead to. -/
structure KDB (W : Type) where
  trie : Trie BackendRef
  split : Split
  defaultBackend : Option BackendRef
  initBackend : Option BackendRef
  globalPlugins : GlobalpluginPositions → Option (Plugin W)
  backend : BackendRef → Backend W

variable {W : Type}

/-- The data of a string ends in a NUL; that of the empty string is null. -/
def stringData (value : Str) : Option Str := if value = [] then none else some (value ++ [0])

/-- `keyNew (name, KEY_VALUE, value, KEY_END)` -/
def keyNewValue (name value : Str) : Key := { keyNewName name with data := stringData value }

def KDB_SYSTEM_ELEKTRA : Str := str "system/elektra"

def mountGetBackend (handle : KDB W) (key : Option Key) : Option BackendRef :=
  match key with
  | none => handle.defaultBackend
  | some key =>
    if keyName key = [] then handle.defaultBackend
    else (trieLookup handle.trie (some key)).or handle.defaultBackend

/-! ## Mounting -/

/-- One insertion into the trie, and the entry that goes with it. -/
def mountAt (kdb : KDB W) (backend : BackendRef) (mountpoint : Str) (parent : Key) (syncbits : ℕ) :
    KDB W :=
  { kdb with
    trie := trieInsert kdb.trie mountpoint backend
    split := splitAppend kdb.split (some backend) parent syncbits }

def KDB.setRefcounter (kdb : KDB W) (backend : BackendRef) (n : ℕ) : KDB W :=
  { kdb with
    backend := Function.update kdb.backend backend { kdb.backend backend with refcounter := n } }

/-- The namespaces that the root backend is mounted in. -/
def rootNamespaces : List Namespace := [.spec, .dir, .user, .system]

/-- The namespaces that a cascading backend is mounted in; `spec` is excluded on purpose. -/
def cascadingNamespaces : List Namespace := [.dir, .user, .system]

def mountBackend (kdb : KDB W) (backend : BackendRef) : KDB W :=
  let key := (kdb.backend backend).mountpoint.getD keyNew
  let name := keyName key
  if name = [] then
    (mountAt kdb backend (str "system/elektra/") (keyNewValue (str "system/elektra/") (str "default"))
      0).setRefcounter backend 1
  else if name = [pathSeparator] then
    (rootNamespaces.foldl (fun kdb ns =>
      mountAt kdb backend (ns.name ++ name) (keyNewValue ns.name (str "root")) 2) kdb).setRefcounter
      backend rootNamespaces.length
  else if name.head? = some pathSeparator then
    (cascadingNamespaces.foldl (fun kdb ns =>
      let mountpoint := ns.name ++ name ++ [pathSeparator]
      mountAt kdb backend mountpoint (keyNewValue mountpoint (keyString key)) 2) kdb).setRefcounter
      backend cascadingNamespaces.length
  else
    (mountAt kdb backend (name ++ [pathSeparator]) (keyDup key) 0).setRefcounter backend 1

/-- One round of the loop of `mountOpen`: the return value and the handle. -/
def openStep (st : ℤ × KDB W) (backend : Option BackendRef) : ℤ × KDB W :=
  match backend with
  | none => (-1, st.2)
  | some backend =>
    if (st.2.backend backend).mountpoint = none then (-1, st.2)
    else (st.1, mountBackend st.2 backend)

/-- `mountOpen`, for the backends that `backendOpen` made of the configuration; `none` is one that
could not be opened. -/
def mountOpen (kdb : KDB W) (backends : List (Option BackendRef)) : ℤ × KDB W :=
  backends.foldl openStep (0, kdb)

/-- The round of `mountDefault` for a namespace whose root is that of the default backend. -/
def mountDefaultRoot (kdb : KDB W) (ns : Namespace) : KDB W :=
  let key := keyNewValue ns.name (str "default")
  let backend := mountGetBackend kdb (some key)
  if backend ≠ kdb.defaultBackend then kdb
  else { kdb with split := splitAppend kdb.split backend key 2 }

/-- `++backend->refcounter; split->syncbits[split->size - 1] = 2` -/
def mountShared (kdb : KDB W) (backend : BackendRef) : KDB W :=
  let kdb := kdb.setRefcounter backend ((kdb.backend backend).refcounter + 1)
  { kdb with
    split := kdb.split.dropLast ++ kdb.split.getLast?.toList.map fun e => { e with syncbits := 2 } }

/-- The round of `mountDefault` for `system`; `system/elektra` stays reachable. -/
def mountDefaultSystem (kdb : KDB W) (inFallback : Bool) (defaultBackend : BackendRef) : KDB W :=
  if inFallback then
    let backend := mountGetBackend kdb (some (keyNewName KDB_SYSTEM_ELEKTRA))
    if backend ≠ kdb.defaultBackend then mountShared (mountBackend kdb defaultBackend) defaultBackend
    else
      { kdb with
        split := splitAppend kdb.split backend (keyNewValue (str "system") (str "default")) 2 }
  else
    match kdb.initBackend with
    | none => kdb
    | some initBackend =>
      mountDefaultRoot (mountShared (mountBackend kdb initBackend) initBackend) .system

/-- The backends are those that `backendOpenDefault` makes. -/
def mountDefault (kdb : KDB W) (defaultBackend initBackend : Option BackendRef) (inFallback : Bool) :
    ℤ × KDB W :=
  let kdb := { kdb with defaultBackend := defaultBackend, initBackend := none }
  match defaultBackend with
  | none => (-1, kdb)
  | some defaultBackend =>
    let kdb := if inFallback then kdb else { kdb with initBackend := initBackend }
    if ¬ inFallback ∧ kdb.initBackend = none then (-1, kdb)
    else
      let kdb := mountDefaultRoot kdb .spec
      let kdb := mountDefaultRoot kdb .dir
      let kdb := mountDefaultRoot kdb .user
      (0, mountDefaultSystem kdb inFallback defaultBackend)

end Elektra
