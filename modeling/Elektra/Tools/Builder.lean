import Elektra.Tools.Plugins
import Elektra.Meta.Array

/-!
# The backend builder

The builder keeps the plugins that are to be added. `sort` makes every key of a plugin that is
named in an `ordering` depend on all others, and has the keys sorted topologically.

* `PluginSpec`, `PluginDatabase`: what is known of plugins that are not loaded;
* `depsOf`, `dependOn`: the keys of the plugins and their dependencies;
* `BackendBuilder.sort`, `BackendBuilder.resolve`, `BackendBuilder.addPlugin`.
-/

namespace Elektra.Tools

/-! ## Plugins by their names -/

def isLetter (c : UInt8) : Bool := 97 ≤ c && c ≤ 122

/-- `PluginSpec::validate` -/
def validate (n : Str) : Bool :=
  (n.head?).elim false isLetter && n.all fun c => isLetter c || isdigit c || c = 95

/-- The reference name is a name or a number. -/
def validRefName (n : Str) : Bool := validate n || (decide (n ≠ []) && n.all isdigit)

structure PluginSpec where
  name : Str
  refname : Str
  config : List Key
  validName : validate name = true
  validRef : validRefName refname = true

namespace PluginSpec

variable (ps : PluginSpec)

def getFullName : Str := ps.name ++ str "#" ++ ps.refname

def setName (n : Str) (hn : validate n = true) : PluginSpec := { ps with name := n, validName := hn }

def appendConfig (c : List Key) : PluginSpec := { ps with config := c.foldl ksAppendValue ps.config }

def setConfig (c : List Key) : PluginSpec := { ps with config := c }

end PluginSpec

inductive BuilderException
  | pluginAlreadyInserted (name : Str)
  /-- What the database throws. -/
  | noPlugin (message : Str)
  | pluginConfigInvalid
  | cyclicOrderingViolation
  /-- `elektraSortTopology` was used wrongly. -/
  | logicError
  deriving DecidableEq, Repr

/-- The database; `checkconf` is the function of a plugin, if it has one. -/
structure PluginDatabase where
  lookupProvides : Str → Except BuilderException PluginSpec
  lookupInfo : PluginSpec → Str → Except BuilderException Str
  checkconf : PluginSpec → Option (List Key → ℤ × List Key)

structure BackendBuilder where
  toAdd : List PluginSpec
  backendConf : List Key

def BackendBuilder.init : BackendBuilder := ⟨[], []⟩

/-! ## Sorting -/

/-- The key of a plugin. -/
def depKey (ps : PluginSpec) : Key :=
  let dep := keyNewName (str "/" ++ ps.name)
  if ps.name ≠ ps.refname then (keyAddBaseName dep (some ps.refname)).2 else dep

/-- The key is appended, and then gets its index as value and as `order`. -/
def addDep (h : Heap) (deps : KeySet) (ps : PluginSpec) (i : ℕ) : Heap × KeySet :=
  let (dep, h) := h.alloc (depKey ps)
  let (_, h, deps) := ksAppendKey h deps dep
  (h.set dep (keySetMeta (keySetString (h.cell dep) (digits i)) (str "order") (some (digits i))).2, deps)

def depLoopFrom (i : ℕ) : List PluginSpec → Heap → KeySet → Heap × KeySet
  | [], h, deps => (h, deps)
  | ps :: toAdd, h, deps => depLoopFrom (i + 1) toAdd (addDep h deps ps i).1 (addDep h deps ps i).2

/-- The keys of the plugins. -/
def depsOf (toAdd : List PluginSpec) : Heap × KeySet :=
  let (h, deps) := ksNew (Heap.ofList []) 0 []
  depLoopFrom 0 toAdd h deps

/-- The word of an `ordering` stands at the beginning of the name of the key. -/
def isRelevant (order : Str) (self : Key) : Bool := order.isPrefixOf ((keyName self).drop 1)

/-- `self` depends on every other key. -/
def addDeps (deps : List KeyRef) (h : Heap) (self : KeyRef) : Heap :=
  deps.foldl (fun h k =>
    if keyCmp (h.cell k) (h.cell self) = .eq then h
    else h.set self (elektraMetaArrayAdd (h.cell self) (str "dep") (keyName (h.cell k)))) h

def dependOn (deps : List KeyRef) (h : Heap) (order : Str) : Heap :=
  deps.foldl (fun h self => if isRelevant order (h.cell self) then addDeps deps h self else h) h

/-- The words of all `ordering`, each once. -/
def orders (infos : List Str) : List Str := (infos.flatMap words).eraseDups

namespace BackendBuilder

/-- The plugins in the order of the sorted keys. There is one at least: the builder sorts what it has
appended to. -/
def sort (qsort qsort' : Qsort) (db : PluginDatabase) (toAdd : List PluginSpec) :
    Except BuilderException (List PluginSpec) := do
  let (h, deps) := depsOf toAdd
  let infos ← toAdd.mapM fun ps => db.lookupInfo ps (str "ordering")
  let h := (orders infos).foldl (dependOn deps.array) h
  match elektraSortTopology qsort qsort' h deps.array with
  | some (h, 1, some ordered) =>
    .ok (ordered.filterMap (fun o => toAdd[atoi (keyString (h.cell o))]?) ++ toAdd.drop ordered.length)
  | some (_, 0, _) => .error .cyclicOrderingViolation
  | _ => .error .logicError

/-- `ksCut`, of a key set that no other one shares keys with: what is cut, and the rest. -/
def cut (ks : List Key) (cutpoint : Key) : List Key × List Key :=
  let h := Heap.ofList (ks ++ [cutpoint])
  let keySet : KeySet :=
    { array := List.range ks.length, alloc := max KEYSET_SIZE (ks.length + 1), cursor := none,
      current := 0, sync := true }
  let (h, rest, returned) := ksCut h keySet ks.length
  ((returned.elim [] KeySet.array).map h.cell, rest.array.map h.cell)

variable (db : PluginDatabase) (b : BackendBuilder) (plugin : PluginSpec)

/-- What `addPlugin` does before it changes the plugins: the plugin that it appends, and the
configuration of the backend. -/
def resolve : Except BuilderException (PluginSpec × List Key) :=
  if b.toAdd.any fun p => p.getFullName = plugin.getFullName then
    .error (.pluginAlreadyInserted plugin.getFullName)
  else do
    let provides ← db.lookupProvides plugin.name
    let newPlugin :=
      if provides.name ≠ plugin.name then
        (plugin.setName provides.name provides.validName).appendConfig provides.config
      else plugin
    match db.checkconf newPlugin with
    | none => .ok (newPlugin, b.backendConf)
    | some checkConfFunction =>
      let (checkResult, pluginConfig) := checkConfFunction (b.backendConf.foldl ksAppendValue newPlugin.config)
      if checkResult = -1 then .error .pluginConfigInvalid
      else if checkResult = 1 then
        let (newBackendConfig, pluginConfig) := cut pluginConfig (keyNewName (str "system/"))
        .ok (newPlugin.setConfig pluginConfig, newBackendConfig)
      else .ok (newPlugin, b.backendConf)

/-- The exception, if any, and the builder afterwards. -/
def addPlugin (qsort qsort' : Qsort) : Option BuilderException × BackendBuilder :=
  match b.resolve db plugin with
  | .error e => (some e, b)
  | .ok (newPlugin, backendConf) =>
    let b : BackendBuilder := { toAdd := b.toAdd ++ [newPlugin], backendConf := backendConf }
    match sort qsort qsort' db b.toAdd with
    | .error e => (some e, b)
    | .ok toAdd => (none, { b with toAdd := toAdd })

end BackendBuilder

end Elektra.Tools
