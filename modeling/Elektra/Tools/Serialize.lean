import Elektra.Backend.Process
import Elektra.Ease.Index
import Elektra.Name.Dangling
import Elektra.Tools.Deps

/-!
# The mount configuration of a backend

The tools write the plugins of a backend below its key in the mount configuration: a plugin in full where it is
met first, and by its reference name from then on.

* `MountException`; `rebasePath`, `rebaseKey`, `removeNamespace`;
* `LoadedPlugin`, `MountBackend`;
* `serializeConfig`, `serialise`, `MountBackend.serialize`;
* `Slot`, `Reads`, **`serialized_reads`**: what the library reads of the keys.
-/

namespace Elektra.Tools.Mounting

/-! ## Helpers for keys -/

/-- What is thrown; `outOfRange` is thrown by strings. -/
inductive MountException
  | keyInvalidName
  | invalidRebase (message : Str)
  | outOfRange
  | mountpointAlreadyInUse (message : Str)
  | mountpointInvalid
  deriving DecidableEq, Repr

/-- `Key::setName` -/
def setName (key : Key) (newName : Str) : Except MountException Key :=
  if (keySetName key (some newName)).1 = -1 then .error .keyInvalidName else .ok (keySetName key (some newName)).2

/-- `Key::getNamespace`; this is a part of the name. -/
def getNamespace (key : Key) : Str :=
  if (keyName key).head? = some pathSeparator then [pathSeparator] else (keyName key).takeWhile (· ≠ pathSeparator)

/-- A cascading parent is taken in the namespace of the key. -/
def actualParent (key parent : Key) : Except MountException Key :=
  if getNamespace parent = [pathSeparator] then setName (keyDup parent) (getNamespace key ++ keyName parent)
  else .ok (keyDup parent)

def rebasePath (key oldParent newParent : Key) : Except MountException Str := do
  let oldKeyPath := keyName key
  let actualOldParent ← actualParent key oldParent
  let actualNewParent ← actualParent key newParent
  if !keyIsBelowOrSame actualOldParent key then
    .error (.invalidRebase (str "the supplied key " ++ keyName key ++ str " is not below the old parent " ++
      keyName actualOldParent))
  else if oldKeyPath.length < (keyName actualOldParent).length then .error .outOfRange
  else .ok (keyName actualNewParent ++ oldKeyPath.drop (keyName actualOldParent).length)

def rebaseKey (key oldParent newParent : Key) : Except MountException Key := do
  let newPath ← rebasePath key oldParent newParent
  setName (keyDup key) newPath

def removeNamespace (key : Key) : Except MountException Key :=
  match (keyName key).dropWhile (· ≠ pathSeparator) with
  | [] => setName key [pathSeparator] -- we directly had a namespace
  | name => setName key name

/-! ## Backends -/

/-- A plugin with what is written of it. -/
structure LoadedPlugin extends Plugin where
  refname : Str
  /-- `getConfig ()` -/
  config : List Key
  validName : validate name = true
  validRef : validRefName refname = true
  fullName_eq : fullName = name ++ str "#" ++ refname

/-- A backend that gets its plugins one after the other; `loaded` are the plugins its slots point to. -/
structure MountBackend where
  mp : Str
  configFile : Str
  backend : Backend
  loaded : List LoadedPlugin

def mountpointsPath : Str := str "system/elektra/mountpoints"

/-- `Backends::getBasePath` -/
def getBasePath (mp : Str) : Str :=
  keyName (keyAddBaseName (keyNewName mountpointsPath) (some (keyName (keyNewName mp)))).2

/-- `keyNew (name, KEY_VALUE, value, KEY_COMMENT, comment, KEY_END)` -/
def keyNewComment (name value comment : Str) : Key :=
  (keySetMeta (keyNewValue name value) (str "comment") (some comment)).2

/-! ## Writing -/

/-- Which plugins are still to be written in full. -/
abbrev FirstRef := PluginRef → Bool

/-- `Plugin::refname` -/
def refname (firstRef : FirstRef) (ref : PluginRef) (plugin : LoadedPlugin) : Str × FirstRef :=
  if firstRef ref then
    (str "#" ++ plugin.name ++ str "#" ++ plugin.refname ++ str "#", Function.update firstRef ref false)
  else (str "#" ++ plugin.refname, firstRef)

/-- The keys that are appended, in this order; so below. -/
def serializeConfig (name : Str) (ks : List Key) : Except MountException (List Key) :=
  if ks = [] then .ok []
  else do
    let oldParent := keyNewName (str "user")
    let newParent := keyNewName (name ++ str "/config")
    let rebased ← (ks.filter fun k => getNamespace k = str "user").mapM fun k =>
      rebaseKey (keyDup k) oldParent newParent
    .ok (newParent :: rebased)

/-- The plugin in a slot, with what it is pointed to by. -/
def slot (loaded : List LoadedPlugin) (p : Plugins) (i : ℕ) : Option (PluginRef × LoadedPlugin) := do
  let ref ← p.plugins i
  let plugin ← loaded[ref]?
  return (ref, plugin)

/-- One round of the loop of `serialise`. -/
def serialiseSlot (list : Str) (firstRef : FirstRef) (i : ℕ) (ref : PluginRef) (plugin : LoadedPlugin) :
    Except MountException (List Key × FirstRef) := do
  let fr := firstRef ref
  let (refname, firstRef) := refname firstRef ref plugin
  let name := list ++ str "/#" ++ digits i ++ refname
  let config ← serializeConfig name (if fr then plugin.config else [])
  .ok (keyNewComment name [] (str "A plugin") :: config, firstRef)

def serialiseLoop (loaded : List LoadedPlugin) (p : Plugins) (list : Str) :
    List ℕ → FirstRef → Except MountException (List Key × FirstRef)
  | [], firstRef => .ok ([], firstRef)
  | i :: slots, firstRef =>
    match slot loaded p i with
    | none => serialiseLoop loaded p list slots firstRef
    | some (ref, plugin) => do
      let (keys, firstRef) ← serialiseSlot list firstRef i ref plugin
      let (rest, firstRef) ← serialiseLoop loaded p list slots firstRef
      .ok (keys ++ rest, firstRef)

/-- `ErrorPlugins::serialise` and the other two, which differ in the name of the list. -/
def serialise (loaded : List LoadedPlugin) (p : Plugins) (baseKey : Key) (which : Str) (firstRef : FirstRef) :
    Except MountException (List Key × FirstRef) := do
  let list := keyName baseKey ++ str "/" ++ which
  let (keys, firstRef) ← serialiseLoop loaded p list (List.range NR_OF_PLUGINS) firstRef
  .ok (keyNewComment list [] (str "List of plugins to use") :: keys, firstRef)

def mountpointComment (mp : Str) : Str :=
  str "The mountpoint says the location where the backend should be mounted.\n" ++
    if mp = [pathSeparator] then str "This is the root mountpoint.\n"
    else if mp.head? = some pathSeparator then
      str "This is a cascading mountpoint.\nThat means it is both mounted to dir, user and system."
    else str "This is a normal mountpoint.\n"

namespace MountBackend

variable (b : MountBackend)

def backendRootKey : Key :=
  { (keyAddBaseName (keyNewName mountpointsPath) (some b.mp)).2 with
    data := some (str "This is a configuration for a backend, see subkeys for more information" ++ [0]) }

/-- What `Backend::serialize` appends, and which plugins are not written yet afterwards. -/
def serialized (firstRef : FirstRef) : Except MountException (List Key × FirstRef) := do
  let root := keyName b.backendRootKey
  let configBasePath := getBasePath b.mp ++ str "/config"
  let config ← b.backend.config.mapM fun k =>
    rebaseKey (keyDup k) (keyNewName (str "system")) (keyNewName configBasePath)
  let (errorplugins, firstRef) ←
    serialise b.loaded b.backend.errorplugins b.backendRootKey (str "errorplugins") firstRef
  let (getplugins, firstRef) ← serialise b.loaded b.backend.getplugins b.backendRootKey (str "getplugins") firstRef
  let (setplugins, firstRef) ← serialise b.loaded b.backend.setplugins b.backendRootKey (str "setplugins") firstRef
  .ok ([b.backendRootKey, keyNewComment (root ++ str "/mountpoint") b.mp (mountpointComment b.mp),
      keyNewName configBasePath] ++ config ++ errorplugins ++ getplugins ++ setplugins ++
    [keyNewComment (root ++ str "/config/path") b.configFile
      (str "The path for this backend. Note that plugins can override that with more specific configuration.")],
    firstRef)

/-- `Backend::serialize`, where no plugin was written before. -/
def serialize (ret : List Key) : Except MountException (List Key) := do
  let (keys, _) ← b.serialized fun _ => true
  .ok (keys.foldl ksAppendValue ret)

end MountBackend

/-! ## What the library reads -/

/-- An occupied slot of a list. -/
structure Slot where
  which : Str
  i : Fin NR_OF_PLUGINS
  ref : PluginRef
  plugin : LoadedPlugin

/-- The occupied slots, in the order in which they are written. -/
def slotsOf (loaded : List LoadedPlugin) (p : Plugins) (which : Str) (positions : List (Fin NR_OF_PLUGINS)) :
    List Slot :=
  positions.filterMap fun i : Fin _ => (slot loaded p i).map fun s => ⟨which, i, s.1, s.2⟩

def MountBackend.slots (b : MountBackend) : List Slot :=
  slotsOf b.loaded b.backend.errorplugins (str "errorplugins") (List.finRange _) ++
    slotsOf b.loaded b.backend.getplugins (str "getplugins") (List.finRange _) ++
    slotsOf b.loaded b.backend.setplugins (str "setplugins") (List.finRange _)

/-- None of the slots has the plugin. -/
def isNew (seen : List Slot) (ref : PluginRef) : Bool := seen.all fun s => s.ref ≠ ref

namespace Slot

variable (s : Slot)

/-- The base name of the key of a slot. -/
def baseName (full : Bool) : Str :=
  Process.hash :: (digits s.i ++ Process.hash ::
    if full then s.plugin.name ++ Process.hash :: (s.plugin.refname ++ [Process.hash]) else s.plugin.refname)

/-- The library gets the position and the label of the plugin, and its name where it is written in full. -/
def Reads (full : Bool) (cur : Key) : Prop :=
  ∀ (env : Environment) (fresh : ℕ → UInt8) (errorKey : Key), ∃ r,
    Process.elektraProcessPlugin env fresh cur errorKey = some r ∧ r.ret = (if full then 3 else 2) ∧
      r.pluginNumber = some s.i.1 ∧ Process.Holds r.pluginName (if full then some s.plugin.name else none) ∧
      Process.Holds r.referenceName (some (Process.prefixReferenceName ++ s.plugin.refname)) ∧ r.errorKey = errorKey

/-- The key is that of the slot in the list below `root`. -/
def IsKey (root : Str) (full : Bool) (k : Key) : Prop :=
  keyName k = root ++ str "/" ++ s.which ++ str "/" ++ s.baseName full ∧ s.Reads full k

variable {s}

theorem digits_i : ∃ d, digits s.i = [d] ∧ Process.isDigit d = true ∧ d.toNat - 48 = s.i := by
  have hall : ∀ i : Fin NR_OF_PLUGINS, Process.isDigit (UInt8.ofNat (48 + i)) = true ∧
      (UInt8.ofNat (48 + i)).toNat - 48 = i := by decide
  exact ⟨_, digits_of_lt s.i.2, hall s.i⟩

theorem not_hash {t : Str} (h : ∀ c ∈ t, plain c = true) : Process.hash ∉ t := fun hm => absurd (h _ hm) (by decide)

theorem reads_baseName {full : Bool} {cur : Key} (h : keyBaseName cur = s.baseName full) : s.Reads full cur := by
  intro env fresh errorKey
  obtain ⟨d, hdigits, hd, hi⟩ := s.digits_i
  have hn := plain_of_validate s.plugin.validName
  have hr := plain_of_validRefName s.plugin.validRef
  have h0 : 0 ∉ Process.prefixReferenceName ++ s.plugin.refname := by
    rw [List.mem_append, not_or]
    exact ⟨by decide, fun hm => (plain_ne (hr.2 0 hm)).2.2.1 rfl⟩
  rw [baseName, hdigits, List.singleton_append] at h
  cases full with
  | false =>
    refine ⟨_, Process.process_reference env fresh errorKey hd h hr.1 fun hlast => ?_, rfl, congrArg some hi, rfl, ?_,
      rfl⟩
    · exact not_hash hr.2 (List.mem_of_getLast? hlast)
    · rw [← List.append_assoc]
      exact Process.holds_string h0
  | true =>
    have hn0 : 0 ∉ s.plugin.name := fun hm => (plain_ne (hn.2 0 hm)).2.2.1 rfl
    refine ⟨_, Process.process_both env fresh errorKey hd h (not_hash hn.2) (Process.getLast_hash _), rfl,
      congrArg some hi, Process.holds_string hn0, ?_, rfl⟩
    rw [← List.append_assoc, List.dropLast_concat]
    exact Process.holds_string h0

end Slot

/-! ### The names of the keys -/

/-- What the names below a mountpoint are made of. -/
def Spelled (t : Str) : Prop := t ≠ [] ∧ (t.all fun c => plain c || c = Process.hash) = true

theorem Spelled.ne {t : Str} (h : Spelled t) {c : UInt8} (hc : c ∈ t) :
    c ≠ pathEscape ∧ c ≠ pathSeparator ∧ c ≠ 0 ∧ c ≠ 46 ∧ c ≠ 37 := by
  refine ⟨?_, ?_, ?_, ?_, ?_⟩ <;> rintro rfl <;> exact absurd (List.all_eq_true.mp h.2 _ hc) (by decide)

theorem spelled_baseName (s : Slot) (full : Bool) : Spelled (s.baseName full) := by
  obtain ⟨d, hdigits, hd, -⟩ := s.digits_i
  have hd : plain d = true := by
    rw [plain, show isdigit d = true from hd, Bool.or_true, Bool.true_or]
  have hn := (plain_of_validate s.plugin.validName).2
  have hr := (plain_of_validRefName s.plugin.validRef).2
  refine ⟨List.cons_ne_nil _ _, ?_⟩
  rw [Slot.baseName, hdigits]
  cases full <;> simp +contextual [hd, hn, hr]

theorem Spelled.escape {t : Str} (h : Spelled t) : elektraEscapeKeyNamePart t = t := by
  refine escape_self h.1 ⟨fun hhead => ?_, fun hhead => ?_⟩ fun c hc => ⟨(h.ne hc).1, (h.ne hc).2.1⟩
  · exact (h.ne (List.mem_of_head? hhead)).2.2.2.2 rfl
  · exact (h.ne (List.mem_of_head? hhead)).2.2.2.1 rfl

/-- The part with the name. -/
def Spelled.part {t : Str} (h : Spelled t) : CString := ⟨t, fun h0 => (h.ne h0).2.2.1 rfl⟩

theorem Spelled.name_add {P : Path} {t : Str} (h : Spelled t) (hP : P.stem ≠ []) :
    (P.add h.part).name = P.name ++ str "/" ++ t := by
  rw [Path.name_add, Path.name_of_stem hP, List.append_assoc]
  exact congrArg (fun e => P.stem ++ pathSeparator :: e) h.escape

theorem hasName_below {P : Path} {t : Str} (hP : P.stem ≠ []) (ht : Spelled t) (value comment : Str) :
    HasName (keyNewComment (P.name ++ str "/" ++ t) value comment) (P.add ht.part) := by
  obtain ⟨l, b, he⟩ := keySetMeta_fields (keyNewValue (P.name ++ str "/" ++ t) value) (str "comment") (some comment)
  rw [keyNewComment, he, keyNewValue, ← ht.name_add hP]
  have hro : keyNew.roName = false := rfl
  obtain ⟨-, hback⟩ | ⟨-, -, h⟩ := keySetName_name hro (P.add ht.part)
  · rw [Path.escaped_add, backslashPart_concat] at hback
    obtain ⟨c, u, rfl⟩ := List.exists_cons_of_ne_nil ht.1
    have hall : AllBackslashes (c :: u) := ht.escape ▸ hback.2
    rw [AllBackslashes, elektraWriteBackslashes, List.length_cons, List.replicate_succ] at hall
    exact absurd (List.cons.inj hall).1 (ht.ne List.mem_cons_self).1
  · exact ⟨h.key, h.keySize, h.ukey, h.keyUSize⟩

/-! ### The loop -/

/-- There is a key for each of the slots, which come behind those of `seen`. -/
def Written (root : Str) (seen slots : List Slot) (keys : List Key) : Prop :=
  ∀ before s after, slots = before ++ s :: after →
    ∃ k ∈ keys, s.IsKey root (isNew (seen ++ before) s.ref) k

theorem Written.nil {root : Str} {seen : List Slot} : Written root seen [] [] :=
  fun before s after hs => absurd hs (by simp)

section Loop

variable {loaded : List LoadedPlugin} {p : Plugins} {which root : Str} {seen slots slots' : List Slot}
  {keys keys' : List Key} {firstRef : FirstRef}

theorem Written.append (h : Written root seen slots keys) (h' : Written root (seen ++ slots) slots' keys') :
    Written root seen (slots ++ slots') (keys ++ keys') := by
  intro before s after hs
  obtain ⟨t, rfl, ht⟩ | ⟨t, rfl, ht⟩ := List.append_eq_append_iff.mp hs
  · obtain ⟨k, hk, hkey⟩ := h' t s after ht
    rw [List.append_assoc] at hkey
    exact ⟨k, List.mem_append_right _ hk, hkey⟩
  · cases t with
    | nil =>
      obtain ⟨k, hk, hkey⟩ := h' [] s after ht.symm
      rw [List.append_nil, List.append_nil] at hkey
      exact ⟨k, List.mem_append_right _ hk, hkey⟩
    | cons c t =>
      obtain ⟨rfl, -⟩ := List.cons.inj ht
      obtain ⟨k, hk, hkey⟩ := h before _ t rfl
      exact ⟨k, List.mem_append_left _ hk, hkey⟩

theorem Written.mono (h : Written root seen slots keys) (hsub : keys ⊆ keys') : Written root seen slots keys' := by
  intro before s after hs
  obtain ⟨k, hk, hkey⟩ := h before s after hs
  exact ⟨k, hsub hk, hkey⟩

theorem isNew_concat (s : Slot) : isNew (seen ++ [s]) = Function.update (isNew seen) s.ref false := by
  funext ref
  by_cases h : ref = s.ref
  · subst h
    simp [isNew]
  · simp [isNew, Function.update_of_ne h, Ne.symm h]

theorem refname_eq (seen : List Slot) (s : Slot) : ∃ t, refname (isNew seen) s.ref s.plugin = (t, isNew (seen ++ [s])) ∧
    s.baseName (isNew seen s.ref) = str "#" ++ digits s.i ++ t := by
  rw [refname, isNew_concat, Slot.baseName]
  cases hnew : isNew seen s.ref with
  | true =>
    refine ⟨_, if_pos rfl, ?_⟩
    simp [str, Process.hash]
  | false =>
    refine ⟨str "#" ++ s.plugin.refname, ?_, ?_⟩
    · rw [if_neg Bool.false_ne_true, ← hnew, Function.update_eq_self]
    · simp [str, Process.hash]

/-- One round: the plugin is written in full if it is new. -/
theorem serialiseSlot_written {R : Path} (s : Slot) (hwhich : Spelled s.which) (hR : R.stem ≠ [])
    (h : serialiseSlot (R.name ++ str "/" ++ s.which) (isNew seen) s.i s.ref s.plugin = .ok (keys, firstRef)) :
    firstRef = isNew (seen ++ [s]) ∧ Written R.name seen [s] keys := by
  obtain ⟨t, hrefname, hbase⟩ := refname_eq seen s
  simp only [serialiseSlot, hrefname] at h
  generalize serializeConfig _ _ = config at h
  cases config with
  | error e => cases h
  | ok config =>
    obtain ⟨rfl, rfl⟩ := Prod.mk.inj (Except.ok.inj h)
    refine ⟨rfl, fun before s' after hs => ?_⟩
    obtain ⟨rfl, rfl, rfl⟩ : before = [] ∧ s' = s ∧ after = [] := by
      simpa [List.singleton_eq_append_iff] using hs
    have hname := hasName_below (Path.stem_add_ne R hwhich.part) (spelled_baseName s' (isNew seen s'.ref)) []
      (str "A plugin")
    rw [hwhich.name_add hR] at hname
    have hkey : R.name ++ str "/" ++ s'.which ++ str "/#" ++ digits s'.i ++ t =
        R.name ++ str "/" ++ s'.which ++ str "/" ++ s'.baseName (isNew seen s'.ref) := by
      simp [hbase, str]
    refine ⟨_, List.mem_cons_self, ?_⟩
    rw [List.append_nil, hkey]
    refine ⟨?_, Slot.reads_baseName (Ease.keyBaseName_add hname)⟩
    rw [keyName, hname.key, Option.getD_some, Spelled.name_add _ (Path.stem_add_ne R _), hwhich.name_add hR]

theorem serialiseLoop_written {R : Path} (hwhich : Spelled which) (hR : R.stem ≠ [])
    {positions : List (Fin NR_OF_PLUGINS)} (h : serialiseLoop loaded p (R.name ++ str "/" ++ which)
      (positions.map Fin.val) (isNew seen) = .ok (keys, firstRef)) :
    firstRef = isNew (seen ++ slotsOf loaded p which positions) ∧
      Written R.name seen (slotsOf loaded p which positions) keys := by
  induction positions generalizing seen keys with
  | nil =>
    obtain ⟨rfl, rfl⟩ := Prod.mk.inj (Except.ok.inj h)
    exact ⟨congrArg isNew (List.append_nil _).symm, .nil⟩
  | cons i positions ih =>
    rw [List.map_cons, serialiseLoop] at h
    cases hslot : slot loaded p i with
    | none =>
      simp only [hslot] at h
      have hnone : slotsOf loaded p which (i :: positions) = slotsOf loaded p which positions := by
        simp [slotsOf, hslot]
      rw [hnone]
      exact ih h
    | some s =>
      simp only [hslot] at h
      have hsome : slotsOf loaded p which (i :: positions) =
          [⟨which, i, s.1, s.2⟩] ++ slotsOf loaded p which positions := by
        simp [slotsOf, hslot]
      obtain ⟨⟨first, fr⟩, hfirst, h⟩ := except_bind_ok h
      obtain ⟨⟨rest, fr'⟩, hrest, h⟩ := except_bind_ok h
      obtain ⟨rfl, rfl⟩ := Prod.mk.inj (Except.ok.inj h)
      obtain ⟨rfl, hwritten⟩ := serialiseSlot_written ⟨which, i, s.1, s.2⟩ hwhich hR hfirst
      obtain ⟨hnew, hwritten'⟩ := ih hrest
      rw [hsome, ← List.append_assoc]
      exact ⟨hnew, hwritten.append hwritten'⟩

theorem serialise_written {R : Path} {baseKey : Key} (hbase : HasName baseKey R) (hwhich : Spelled which)
    (hR : R.stem ≠ []) (h : serialise loaded p baseKey which (isNew seen) = .ok (keys, firstRef)) :
    firstRef = isNew (seen ++ slotsOf loaded p which (List.finRange _)) ∧
      Written (keyName baseKey) seen (slotsOf loaded p which (List.finRange _)) keys := by
  have hroot : keyName baseKey = R.name := by rw [keyName, hbase.key, Option.getD_some]
  obtain ⟨⟨rest, fr⟩, hrest, h⟩ := except_bind_ok h
  obtain ⟨rfl, rfl⟩ := Prod.mk.inj (Except.ok.inj h)
  rw [hroot, ← List.map_coe_finRange_eq_range] at hrest
  obtain ⟨hnew, hwritten⟩ := serialiseLoop_written hwhich hR hrest
  rw [hroot]
  exact ⟨hnew, hwritten.mono (List.subset_cons_self _ _)⟩

end Loop

theorem hasName_backendRootKey (b : MountBackend) (hmp : 0 ∉ b.mp) :
    ∃ R : Path, R.stem ≠ [] ∧ HasName b.backendRootKey R := by
  have hname : HasName (keyNewName mountpointsPath)
      ⟨.ns .system, [⟨str "elektra", by decide⟩, ⟨str "mountpoints", by decide⟩]⟩ := ⟨rfl, rfl, rfl, rfl⟩
  obtain ⟨-, -, hadd⟩ := keyAddBaseName_spec hname rfl ⟨b.mp, hmp⟩
  exact ⟨_, Path.stem_add_ne _ _, ⟨hadd.key, hadd.keySize, hadd.ukey, hadd.keyUSize⟩⟩

/-- **The library reads back every slot of a backend that the tools wrote: a plugin with its name where it comes
first, and by its label from then on.** -/
theorem serialized_reads (b : MountBackend) (hmp : 0 ∉ b.mp) {keys : List Key} {firstRef : FirstRef}
    (h : b.serialized (fun _ => true) = .ok (keys, firstRef)) :
    firstRef = isNew b.slots ∧ ∀ before s after, b.slots = before ++ s :: after →
      ∃ k ∈ keys, s.IsKey (keyName b.backendRootKey) (isNew before s.ref) k := by
  obtain ⟨R, hR, hroot⟩ := hasName_backendRootKey b hmp
  obtain ⟨config, -, h⟩ := except_bind_ok h
  obtain ⟨⟨errorplugins, fr⟩, herror, h⟩ := except_bind_ok h
  obtain ⟨⟨getplugins, fr'⟩, hget, h⟩ := except_bind_ok h
  obtain ⟨⟨setplugins, fr''⟩, hset, h⟩ := except_bind_ok h
  obtain ⟨rfl, rfl⟩ := Prod.mk.inj (Except.ok.inj h)
  have hnone : (fun _ => true) = isNew [] := rfl
  rw [hnone] at herror
  obtain ⟨rfl, hwritten⟩ := serialise_written hroot ⟨by decide, by decide⟩ hR herror
  obtain ⟨rfl, hwritten'⟩ := serialise_written hroot ⟨by decide, by decide⟩ hR hget
  obtain ⟨rfl, hwritten''⟩ := serialise_written hroot ⟨by decide, by decide⟩ hR hset
  refine ⟨by simp [MountBackend.slots], fun before s after hs => ?_⟩
  obtain ⟨k, hk, hkey⟩ := ((hwritten.append hwritten').append hwritten'') before s after hs
  exact ⟨k, by simp only [List.mem_append] at hk ⊢; tauto, hkey⟩

/-- The storage of a backend for `user/m`. -/
def dumpPlugin : LoadedPlugin where
  name := str "dump"
  fullName := str "dump#dump"
  lookupInfo _ := []
  hasSymbol _ := true
  neededConfig := []
  refname := str "dump"
  config := []
  validName := rfl
  validRef := rfl
  fullName_eq := rfl

def dumpBackend : MountBackend where
  mp := str "user/m"
  configFile := str "m.ecf"
  backend :=
    { Backend.init with
      getplugins := { Plugins.init with plugins := Function.update Plugins.init.plugins 5 (some 0) }
      setplugins := { Plugins.init with plugins := Function.update Plugins.init.plugins 5 (some 0) } }
  loaded := [dumpPlugin]

theorem serialized_reads_dump : ∃ keys firstRef, dumpBackend.serialized (fun _ => true) = .ok (keys, firstRef) ∧
    firstRef = isNew dumpBackend.slots ∧ ∀ before s after, dumpBackend.slots = before ++ s :: after →
      ∃ k ∈ keys, s.IsKey (keyName dumpBackend.backendRootKey) (isNew before s.ref) k :=
  ⟨_, _, rfl, serialized_reads dumpBackend (by decide) rfl⟩

end Elektra.Tools.Mounting
