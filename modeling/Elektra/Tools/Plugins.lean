import Elektra.Split.Model

/-!
# The plugins of a backend

A backend has three lists of ten slots. A plugin declares placements; each is a range of slots in one
of the lists, and a counter hands out its slots. `postgetstorage` is filled from both ends.

* `Placement`, `Plugin`, `PluginCheckException`;
* `Plugins`: `checkPlacement`, `addPlugin`, `checkStorage`, `checkResolver`, `checkOrdering`,
  `checkConflicts`, `addInfo`;
* `ErrorPlugins`, `GetPlugins`, `SetPlugins`: `tryPlugin` and `addPlugin` of each;
* `Backend`, `Backend.tryPlugin`, `Backend.addPlugin`.

A call that throws returns the exception together with the object it leaves.
-/

namespace Elektra.Tools

/-! ## Plugins and what is known of them -/

/-- The keys of `placementInfo`. -/
inductive Placement
  | prerollback | rollback | postrollback
  | getresolver | pregetstorage | getstorage | postgetstorage
  | setresolver | presetstorage | setstorage | precommit | commit | postcommit
  deriving DecidableEq, Repr

def Placement.name : Placement → Str
  | prerollback => str "prerollback"
  | rollback => str "rollback"
  | postrollback => str "postrollback"
  | getresolver => str "getresolver"
  | pregetstorage => str "pregetstorage"
  | getstorage => str "getstorage"
  | postgetstorage => str "postgetstorage"
  | setresolver => str "setresolver"
  | presetstorage => str "presetstorage"
  | setstorage => str "setstorage"
  | precommit => str "precommit"
  | commit => str "commit"
  | postcommit => str "postcommit"

/-- The words that `while (ss >> word)` reads. -/
def words (s : Str) : List Str := (s.splitOnP isspace).filter (· ≠ [])

/-- A loaded plugin. -/
structure Plugin where
  /-- `name ()` -/
  name : Str
  /-- `getFullName ()` -/
  fullName : Str
  /-- `lookupInfo (item)`; empty when it is missing. -/
  lookupInfo : Str → Str
  /-- Whether `getSymbol (which)` returns. -/
  hasSymbol : Str → Bool
  /-- `getNeededConfig ()` -/
  neededConfig : List Key

def Plugin.findInfo (plugin : Plugin) (compare item : Str) : Bool :=
  decide (compare ∈ words (plugin.lookupInfo item))

/-- The plugin declares the placement. -/
def Plugin.declares (plugin : Plugin) (which : Placement) : Bool :=
  plugin.findInfo which.name (str "placements")

inductive PluginCheckException
  | tooManyPlugins (message : Str)
  | orderingViolation
  | conflictViolation
  | missingSymbol (symbol : Str)
  | storagePlugin
  | resolverPlugin
  | pluginAlreadyInserted (name : Str)
  /-- The plugin could not be loaded. -/
  | notLoaded (message : Str)
  deriving DecidableEq, Repr

/-! ## A list of slots -/

structure Place where
  current : ℕ
  max : ℕ
  deriving DecidableEq, Repr

/-- A plugin is pointed to by its position in the plugins of the backend. -/
abbrev PluginRef := ℕ

/-- The vector has `NR_OF_PLUGINS` slots. -/
structure Plugins where
  plugins : ℕ → Option PluginRef
  needed : List Str
  recommended : List Str
  alreadyProvided : List Str
  alreadyConflict : List Str
  nrStoragePlugins : ℕ
  nrResolverPlugins : ℕ
  revPostGet : ℕ
  placementInfo : Placement → Place

/-- `RESOLVER_PLUGIN` and the other positions delimit the ranges. -/
def Placement.place : Placement → Place
  | prerollback => ⟨RESOLVER_PLUGIN, STORAGE_PLUGIN - 1⟩
  | rollback => ⟨STORAGE_PLUGIN, STORAGE_PLUGIN⟩
  | postrollback => ⟨STORAGE_PLUGIN + 1, NR_OF_PLUGINS - 1⟩
  | getresolver => ⟨RESOLVER_PLUGIN, RESOLVER_PLUGIN⟩
  | pregetstorage => ⟨RESOLVER_PLUGIN + 1, STORAGE_PLUGIN - 1⟩
  | getstorage => ⟨STORAGE_PLUGIN, STORAGE_PLUGIN⟩
  | postgetstorage => ⟨STORAGE_PLUGIN + 1, NR_OF_PLUGINS - 1⟩
  | setresolver => ⟨RESOLVER_PLUGIN, RESOLVER_PLUGIN⟩
  | presetstorage => ⟨RESOLVER_PLUGIN + 1, STORAGE_PLUGIN - 1⟩
  | setstorage => ⟨STORAGE_PLUGIN, STORAGE_PLUGIN⟩
  | precommit => ⟨STORAGE_PLUGIN + 1, COMMIT_PLUGIN - 1⟩
  | commit => ⟨COMMIT_PLUGIN, COMMIT_PLUGIN⟩
  | postcommit => ⟨COMMIT_PLUGIN + 1, NR_OF_PLUGINS - 1⟩

/-- `Plugins::Plugins` -/
def Plugins.init : Plugins where
  plugins _ := none
  needed := []
  recommended := []
  alreadyProvided := []
  alreadyConflict := []
  nrStoragePlugins := 0
  nrResolverPlugins := 0
  revPostGet := NR_OF_PLUGINS - 1
  placementInfo := Placement.place

/-- The plugin does not stack. -/
def Plugin.fromBehind (plugin : Plugin) (which : Placement) : Bool :=
  decide (which = .postgetstorage) && decide (plugin.lookupInfo (str "stacking") = [])

namespace Plugins

variable (p : Plugins) (plugin : Plugin)

def addInfo : Plugins :=
  { p with
    alreadyProvided := p.alreadyProvided ++ words (plugin.lookupInfo (str "provides")) ++ [plugin.name]
    needed := p.needed ++ words (plugin.lookupInfo (str "needs"))
    recommended := p.recommended ++ words (plugin.lookupInfo (str "recommends"))
    alreadyConflict := p.alreadyConflict ++ words (plugin.lookupInfo (str "conflicts")) }

def addPlugin (ref : PluginRef) (which : Placement) : Plugins :=
  if !plugin.declares which then p
  else if plugin.fromBehind which then
    { p with plugins := Function.update p.plugins p.revPostGet (some ref), revPostGet := p.revPostGet - 1 }
  else
    let place := p.placementInfo which
    { p with
      plugins := Function.update p.plugins place.current (some ref)
      placementInfo := Function.update p.placementInfo which { place with current := place.current + 1 } }

def tooMany (which : Placement) (reason : Str) : PluginCheckException :=
  .tooManyPlugins (str "Too many plugins!\nThe plugin " ++ plugin.name ++
    str " can't be positioned to position " ++ which.name ++
    str " anymore.\nTry to reduce the number of plugins!\n\nFailed because " ++ reason)

/-- A number as `operator<<` writes it. -/
def number (n : ℕ) : Str := str (toString n)

def checkPlacement (which : Placement) : Except PluginCheckException Bool :=
  if !plugin.declares which then .ok false
  else if plugin.fromBehind which then
    let current := (p.placementInfo .postgetstorage).current
    if current ≤ p.revPostGet then .ok true
    else .error (tooMany plugin which (str "of stack overflow: cant place to " ++ number p.revPostGet ++
      str " because " ++ number current ++ str " is larger (this slot is in use).\n"))
  else
    let place := p.placementInfo which
    if place.max < place.current then
      .error (tooMany plugin which (which.name ++ str " with " ++ number place.current ++
        str " is larger than " ++ number place.max ++ str "\n"))
    else .ok true

/-- The exception, if any, and the list afterwards. -/
def checkStorage : Option PluginCheckException × Plugins :=
  let p := if plugin.findInfo (str "storage") (str "provides") then
      { p with nrStoragePlugins := p.nrStoragePlugins + 1 }
    else p
  if 1 < p.nrStoragePlugins then
    (some .storagePlugin, { p with nrStoragePlugins := p.nrStoragePlugins - 1 })
  else (none, p)

def checkResolver : Option PluginCheckException × Plugins :=
  let p := if plugin.findInfo (str "resolver") (str "provides") then
      { p with nrResolverPlugins := p.nrResolverPlugins + 1 }
    else p
  if 1 < p.nrResolverPlugins then
    (some .resolverPlugin, { p with nrResolverPlugins := p.nrResolverPlugins - 1 })
  else (none, p)

def checkOrdering : Except PluginCheckException Unit :=
  if (words (plugin.lookupInfo (str "ordering"))).any fun order => order ∈ p.alreadyProvided then
    .error .orderingViolation
  else .ok ()

def checkConflicts : Except PluginCheckException Unit :=
  if (words (plugin.lookupInfo (str "conflicts"))).any fun order => order ∈ p.alreadyProvided then
    .error .conflictViolation
  else if plugin.name ∈ p.alreadyConflict then .error .conflictViolation
  else if (words (plugin.lookupInfo (str "provides"))).any fun order => order ∈ p.alreadyConflict then
    .error .conflictViolation
  else .ok ()

/-- `willBeAdded |= checkPlacement (plugin, which)`, for all of `l`. -/
def checkPlacements (l : List Placement) : Except PluginCheckException Bool :=
  l.foldlM (fun willBeAdded which => do .ok (willBeAdded || (← p.checkPlacement plugin which))) false

/-- What `tryPlugin` of a list does after its checks: the function must be there, and there must be
at most one storage and one resolver. -/
def tryCounts (symbol : Str) (storage : Bool) (checks : Except PluginCheckException Bool) :
    Option PluginCheckException × Plugins :=
  match checks with
  | .error e => (some e, p)
  | .ok false => (none, p)
  | .ok true =>
    if !plugin.hasSymbol symbol then (some (.missingSymbol symbol), p)
    else
      match if storage then p.checkStorage plugin else (none, p) with
      | (some e, p) => (some e, p)
      | (none, p) => p.checkResolver plugin

end Plugins

/-! ## The three lists -/

/-- The placements of a list, in the order in which they are checked and assigned. -/
def errorPlacements : List Placement := [.prerollback, .rollback, .postrollback]

def getPlacements : List Placement := [.getresolver, .pregetstorage, .getstorage, .postgetstorage]

def setPlacements : List Placement :=
  [.setresolver, .presetstorage, .setstorage, .precommit, .commit, .postcommit]

section Lists

variable (p : Plugins) (plugin : Plugin)

def ErrorPlugins.tryPlugin : Option PluginCheckException × Plugins :=
  p.tryCounts plugin (str "error") false do
    p.checkOrdering plugin
    p.checkConflicts plugin
    p.checkPlacements plugin errorPlacements

def GetPlugins.tryPlugin : Option PluginCheckException × Plugins :=
  p.tryCounts plugin (str "get") true (p.checkPlacements plugin getPlacements)

def SetPlugins.tryPlugin : Option PluginCheckException × Plugins :=
  p.tryCounts plugin (str "set") true (p.checkPlacements plugin setPlacements)

variable (ref : PluginRef)

/-- The calls of `Plugins::addPlugin`, one after the other. -/
def addPlacements (l : List Placement) : Plugins := l.foldl (fun p which => p.addPlugin plugin ref which) p

def ErrorPlugins.addPlugin : Plugins := (addPlacements p plugin ref errorPlacements).addInfo plugin

def GetPlugins.addPlugin : Plugins := addPlacements p plugin ref getPlacements

def SetPlugins.addPlugin : Plugins := addPlacements p plugin ref setPlacements

end Lists

/-! ## Backends -/

structure Backend where
  getplugins : Plugins
  setplugins : Plugins
  errorplugins : Plugins
  config : List Key
  plugins : List Plugin

def Backend.init : Backend where
  getplugins := Plugins.init
  setplugins := Plugins.init
  errorplugins := Plugins.init
  config := []
  plugins := []

/-- `modules.load (spec)` -/
abbrev Load (Spec : Type) := Spec → Except PluginCheckException Plugin

namespace Backend

variable {Spec : Type} (load : Load Spec) (b : Backend) (spec : Spec)

/-- The loaded plugin is returned with the backend. -/
def tryPlugin : Except PluginCheckException Plugin × Backend :=
  match load spec with
  | .error e => (.error e, b)
  | .ok plugin =>
    match ErrorPlugins.tryPlugin b.errorplugins plugin with
    | (some e, errorplugins) => (.error e, { b with errorplugins := errorplugins })
    | (none, errorplugins) =>
      let b := { b with errorplugins := errorplugins }
      match GetPlugins.tryPlugin b.getplugins plugin with
      | (some e, getplugins) => (.error e, { b with getplugins := getplugins })
      | (none, getplugins) =>
        let b := { b with getplugins := getplugins }
        match SetPlugins.tryPlugin b.setplugins plugin with
        | (some e, setplugins) => (.error e, { b with setplugins := setplugins })
        | (none, setplugins) =>
          let b := { b with setplugins := setplugins }
          if b.plugins.any fun elem => plugin.fullName = elem.fullName then
            (.error (.pluginAlreadyInserted plugin.fullName), b)
          else (.ok plugin, { b with plugins := b.plugins ++ [plugin] })

def addPlugin : Option PluginCheckException × Backend :=
  match b.tryPlugin load spec with
  | (.error e, b) => (some e, b)
  | (.ok plugin, b) =>
    let ref := b.plugins.length - 1
    (none, { b with
      errorplugins := ErrorPlugins.addPlugin b.errorplugins plugin ref
      getplugins := GetPlugins.addPlugin b.getplugins plugin ref
      setplugins := SetPlugins.addPlugin b.setplugins plugin ref
      config := plugin.neededConfig.foldl ksAppendValue b.config })

end Backend

end Elektra.Tools
