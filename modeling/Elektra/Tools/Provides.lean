import Elektra.Search.OrderedMap
import Elektra.Tools.Database

/-!
# The plugins that provide a name

The plugins that are found are collected in a map from their statuses.

* `Modules`: the plugins that are there, and what loading one gives;
* `lookupAllProvidesWithStatus`, `lookupAllProvides`, `hasProvides`, `status`, `lookupProvides`;
* `Offers`: a plugin has the name, or lists it;
* **`lookups_iff`**: when all plugins are found, and the best one.
-/

namespace Elektra.Tools

open OrderedMap

/-! ## The code -/

/-- What `ModulesPluginDatabase` asks for. Loading a module gives the clauses of its contract, or the text of an
exception; `loadsForStatus` tells whether it is loaded with the configuration of `status`. -/
structure ModulesPluginDatabase where
  listAllPlugins : List Str
  load : Str → Except Str (List (Str × Str))
  loadsForStatus : Str → Bool

/-- `what ()` -/
def ResolveException.what : ResolveException → Str
  | .badPluginName name => str "You entered a bad name (" ++ name ++ str ") for a plugin!\n" ++
      str "A valid name of a plugin is either\n" ++ str "modulename or modulename#refname\n" ++
      str "where both modulename and refname must start with a-z\n" ++
      str "and then a-z, 0-9 and underscore (_) only"
  | .parse message => message
  | .builder _ => []

/-- `PluginSpec (plugin)` -/
def specOf (plugin : Str) : Except Str PluginSpec := (PluginSpec.ofFullName plugin).mapError ResolveException.what

namespace ModulesPluginDatabase

variable (db : ModulesPluginDatabase)

def lookupInfo (spec : PluginSpec) (which : Str) : Except Str Str := do
  let contract ← db.load spec.name
  .ok ((contract.lookup which).getD [])

/-- `calculateStatus` of the status of a plugin; an `int` wraps around. -/
def statusOf (spec : PluginSpec) : Except Str ℤ := do
  let info ← db.lookupInfo spec (str "status")
  match calculateStatus info with
  | some s => .ok (Int.bmod s (2 ^ 32))
  | none => .error (str "stoi")

/-- A round of the loop over the plugins. -/
def collect (which : Str) (foundPlugins : List (ℤ × PluginSpec)) (plugin : Str) :
    Except Str (List (ℤ × PluginSpec)) := do
  let spec ← specOf plugin
  if plugin = which then
    let s ← db.statusOf spec
    .ok (insert s spec foundPlugins)
  else
    let ss ← db.lookupInfo spec (str "provides")
    (words ss).foldlM (fun foundPlugins provide =>
      if provide = which then do
        let s ← db.statusOf spec
        .ok (insert s spec foundPlugins)
      else .ok foundPlugins) foundPlugins

/-- The loop, with the texts of the exceptions. -/
def collectAll (which : Str) (plugins : List Str) : List (ℤ × PluginSpec) × Str :=
  plugins.foldl (fun found plugin =>
    match db.collect which found.1 plugin with
    | .ok foundPlugins => (foundPlugins, found.2)
    | .error what => (found.1, found.2 ++ what ++ str ",")) ([], [])

/-- The exception is `NoPlugin`. -/
def lookupAllProvidesWithStatus (which : Str) : Except Str (List (ℤ × PluginSpec)) :=
  let (foundPlugins, errors) := db.collectAll which db.listAllPlugins
  if foundPlugins = [] then
    let message := str "No plugin that provides " ++ which ++ str " could be found"
    .error (if errors = [] then message else message ++ str ", got errors: " ++ errors)
  else .ok foundPlugins

def lookupAllProvides (which : Str) : List PluginSpec :=
  match db.lookupAllProvidesWithStatus which with
  | .ok foundPlugins => foundPlugins.map Prod.snd
  | .error _ => []

def hasProvidesLoop (which : Str) : List Str → Except Str Bool
  | [] => .ok false
  | plugin :: plugins => do
    let spec ← specOf plugin
    let ss ← db.lookupInfo spec (str "provides")
    if (words ss).contains which then .ok true else hasProvidesLoop which plugins

def hasProvides (which : Str) : Except Str Bool := db.hasProvidesLoop which db.listAllPlugins

def status (spec : PluginSpec) : Except Str Status :=
  if db.loadsForStatus spec.name then .ok .real
  else do
    if ← db.hasProvides spec.name then .ok .provides else .ok .missing

def lookupProvides (which : Str) : Except Str PluginSpec := do
  let spec ← specOf which
  if (← db.status spec) = .real then .ok spec
  else
    let foundPlugins ← db.lookupAllProvidesWithStatus which
    match foundPlugins.getLast? with
    | some p => .ok p.2
    | none => .error []

/-! ## The plugins -/

/-- The plugin can be loaded, and has the name or lists it. -/
def OffersAt (which plugin : Str) (spec : PluginSpec) : Prop :=
  specOf plugin = .ok spec ∧ ∃ contract, db.load spec.name = .ok contract ∧
    (plugin = which ∨ which ∈ words ((contract.lookup (str "provides")).getD []))

/-- The plugin is there and offers the name. -/
def Offers (which plugin : Str) (spec : PluginSpec) : Prop :=
  plugin ∈ db.listAllPlugins ∧ db.OffersAt which plugin spec

/-- There is a module of the name. -/
def NameExists (which : Str) : Prop :=
  ∃ spec, specOf which = .ok spec ∧ db.loadsForStatus spec.name = true

/-- All plugins that offer the name are returned, no other, and each once. -/
def FindsAll (which : Str) : Prop :=
  (db.lookupAllProvides which).Nodup ∧
    ∀ spec, spec ∈ db.lookupAllProvides which ↔ ∃ plugin, db.Offers which plugin spec

/-- Without a module of the name, one of the plugins that offer it is returned, with the largest status. -/
def FindsBest (which : Str) : Prop :=
  ¬ db.NameExists which → (∃ plugin spec, db.Offers which plugin spec) →
    ∃ plugin spec s, db.lookupProvides which = .ok spec ∧ db.Offers which plugin spec ∧ db.statusOf spec = .ok s ∧
      ∀ plugin' spec', db.Offers which plugin' spec' → ∃ s', db.statusOf spec' = .ok s' ∧ s' ≤ s

/-- The statuses of the plugins that offer the name can be calculated, and are different. -/
def DistinctStatuses (which : Str) : Prop :=
  (∀ plugin spec, db.Offers which plugin spec → ∃ s, db.statusOf spec = .ok s) ∧
    ∀ plugin spec plugin' spec' s, db.Offers which plugin spec → db.Offers which plugin' spec' →
      db.statusOf spec = .ok s → db.statusOf spec' = .ok s → spec = spec'

/-- The plugin cannot be loaded. -/
def Unloaded (plugin : Str) : Prop :=
  ∀ spec contract, specOf plugin = .ok spec → db.load spec.name ≠ .ok contract

/-- The plugin does not list the name. -/
def Silent (which plugin : Str) : Prop :=
  ∀ spec contract, specOf plugin = .ok spec → db.load spec.name = .ok contract →
    which ∉ words ((contract.lookup (str "provides")).getD [])

/-- A plugin that cannot be loaded is listed before all that list the name. -/
def Hidden (which : Str) : Prop :=
  ∃ before plugin rest, db.listAllPlugins = before ++ plugin :: rest ∧ db.Unloaded plugin ∧
    ∀ p ∈ before, db.Silent which p

/-- The name is one of a plugin, and the search for it comes to an end. -/
def Searchable (which : Str) : Prop :=
  ∃ spec, specOf which = .ok spec ∧ ¬ db.Hidden spec.name

end ModulesPluginDatabase

/-! ## What is collected -/

namespace ModulesPluginDatabase

variable {db : ModulesPluginDatabase} {which plugin : Str} {spec : PluginSpec} {s : ℤ}

theorem foldlM_words (ws : List Str) (found : List (ℤ × PluginSpec)) :
    ws.foldlM (fun foundPlugins provide => (if provide = which then do
        let s ← db.statusOf spec
        .ok (insert s spec foundPlugins)
      else .ok foundPlugins : Except Str (List (ℤ × PluginSpec)))) found =
    if which ∈ ws then db.statusOf spec >>= fun s => Except.ok (insert s spec found) else .ok found := by
  induction ws generalizing found with
  | nil => rfl
  | cons w ws ih =>
    rw [List.foldlM_cons]
    by_cases hw : w = which
    · rw [if_pos hw, if_pos (hw ▸ List.mem_cons_self)]
      cases hs : db.statusOf spec with
      | error e => rfl
      | ok s =>
        have hrest := ih (insert s spec found)
        rw [hs] at hrest
        refine hrest.trans ?_
        split_ifs
        · exact congrArg Except.ok insert_insert
        · rfl
    · rw [if_neg hw]
      have hmem : which ∈ w :: ws ↔ which ∈ ws := by
        rw [List.mem_cons]
        exact or_iff_right fun h => hw h.symm
      simp only [hmem]
      exact ih found

theorem collect_eq {contract : List (Str × Str)} (hspec : specOf plugin = .ok spec)
    (hload : db.load spec.name = .ok contract) (found : List (ℤ × PluginSpec)) : db.collect which found plugin =
      if plugin = which ∨ which ∈ words ((contract.lookup (str "provides")).getD []) then
        db.statusOf spec >>= fun s => .ok (insert s spec found)
      else .ok found := by
  have hinfo : db.lookupInfo spec (str "provides") = .ok ((contract.lookup (str "provides")).getD []) := by
    rw [lookupInfo, hload]
    rfl
  rw [collect, hspec]
  change (if plugin = which then _ else _) = _
  by_cases hp : plugin = which
  · rw [if_pos hp, if_pos (Or.inl hp)]
  · rw [if_neg hp, hinfo]
    change (words _).foldlM _ found = _
    rw [foldlM_words]
    simp only [hp, false_or]

theorem collect_unloaded (h : db.Unloaded plugin)
    (found : List (ℤ × PluginSpec)) : ∃ e, db.collect which found plugin = .error e := by
  rw [collect]
  cases hspec : specOf plugin with
  | error e => exact ⟨e, rfl⟩
  | ok spec =>
    cases hload : db.load spec.name with
    | ok contract => exact absurd hload (h spec contract hspec)
    | error e =>
      have hinfo : ∀ clause, db.lookupInfo spec clause = .error e := fun clause => by
        rw [lookupInfo, hload]
        rfl
      refine ⟨e, ?_⟩
      change (if plugin = which then _ else _) = _
      split_ifs
      · rw [statusOf, hinfo]
        rfl
      · rw [hinfo]
        rfl

/-- **A round of the loop**: the plugin is inserted, or its status cannot be calculated, or it does not offer the
name. -/
theorem collect_cases (db : ModulesPluginDatabase) (which plugin : Str) (found : List (ℤ × PluginSpec)) :
    (∃ spec s, db.OffersAt which plugin spec ∧ db.statusOf spec = .ok s ∧
      db.collect which found plugin = .ok (insert s spec found)) ∨
    (∃ spec e, db.OffersAt which plugin spec ∧ db.statusOf spec = .error e ∧
      db.collect which found plugin = .error e) ∨
    ((∀ spec, ¬ db.OffersAt which plugin spec) ∧
      (db.collect which found plugin = .ok found ∨ ∃ e, db.collect which found plugin = .error e)) := by
  by_cases hloaded : ∃ spec contract, specOf plugin = .ok spec ∧ db.load spec.name = .ok contract
  · obtain ⟨spec, contract, hspec, hload⟩ := hloaded
    rw [collect_eq hspec hload]
    by_cases hoffers : plugin = which ∨ which ∈ words ((contract.lookup (str "provides")).getD [])
    · rw [if_pos hoffers]
      cases hs : db.statusOf spec with
      | ok s => exact Or.inl ⟨spec, s, ⟨hspec, contract, hload, hoffers⟩, hs, rfl⟩
      | error e => exact Or.inr (Or.inl ⟨spec, e, ⟨hspec, contract, hload, hoffers⟩, hs, rfl⟩)
    · rw [if_neg hoffers]
      refine Or.inr (Or.inr ⟨?_, Or.inl rfl⟩)
      rintro spec' ⟨h, contract', hcontract, ho⟩
      cases Except.ok.inj (hspec.symm.trans h)
      cases Except.ok.inj (hload.symm.trans hcontract)
      exact hoffers ho
  · push Not at hloaded
    exact Or.inr (Or.inr ⟨fun spec ⟨h, contract, hcontract, _⟩ => hloaded spec contract h hcontract,
      Or.inr (collect_unloaded hloaded found)⟩)

/-- **What is collected**: for each status of the plugins that offer the name one of them. -/
theorem collectAll_spec (db : ModulesPluginDatabase) (which : Str) (plugins : List Str) :
    Sorted (db.collectAll which plugins).1 ∧
    (∀ p ∈ (db.collectAll which plugins).1, ∃ plugin ∈ plugins, db.OffersAt which plugin p.2 ∧
      db.statusOf p.2 = .ok p.1) ∧
    ∀ plugin ∈ plugins, ∀ spec s, db.OffersAt which plugin spec → db.statusOf spec = .ok s →
      ∃ spec', (s, spec') ∈ (db.collectAll which plugins).1 := by
  induction plugins using List.reverseRecOn with
  | nil => exact ⟨.nil, fun p hp => (by cases hp), fun p hp => (by cases hp)⟩
  | append_singleton plugins plugin ih =>
    obtain ⟨hsorted, hsound, hcomplete⟩ := ih
    have hstep : (db.collectAll which (plugins ++ [plugin])).1 =
        match db.collect which (db.collectAll which plugins).1 plugin with
        | .ok found => found
        | .error _ => (db.collectAll which plugins).1 := by
      rw [collectAll, List.foldl_append, List.foldl_cons, List.foldl_nil, ← collectAll]
      cases db.collect which (db.collectAll which plugins).1 plugin <;> rfl
    have hold : ∀ p ∈ (db.collectAll which plugins).1, ∃ plugin' ∈ plugins ++ [plugin], db.OffersAt which plugin' p.2 ∧
        db.statusOf p.2 = .ok p.1 := fun p hp => by
      obtain ⟨plugin', hmem, h⟩ := hsound p hp
      exact ⟨plugin', List.mem_append_left _ hmem, h⟩
    rw [hstep]
    obtain ⟨spec, s, hoffers, hs, hrun⟩ | ⟨spec, e, hoffers, hs, hrun⟩ | ⟨hno, hrun⟩ :=
      collect_cases db which plugin (db.collectAll which plugins).1
    · rw [hrun]
      refine ⟨hsorted.insert s spec, fun p hp => ?_, fun plugin' hmem spec' s' hoffers' hs' => ?_⟩
      · obtain rfl | hp := mem_of_insert hp
        · exact ⟨plugin, by simp, hoffers, hs⟩
        · exact hold p hp
      · obtain hmem | hmem := List.mem_append.mp hmem
        · obtain ⟨w, hw⟩ := hcomplete plugin' hmem spec' s' hoffers' hs'
          exact ⟨w, mem_insert_of_mem hw⟩
        · obtain rfl := List.mem_singleton.mp hmem
          cases Except.ok.inj (hoffers.1.symm.trans hoffers'.1)
          cases Except.ok.inj (hs.symm.trans hs')
          exact exists_mem_insert _ _ _
    · rw [hrun]
      refine ⟨hsorted, hold, fun plugin' hmem spec' s' hoffers' hs' => ?_⟩
      obtain hmem | hmem := List.mem_append.mp hmem
      · exact hcomplete plugin' hmem spec' s' hoffers' hs'
      · obtain rfl := List.mem_singleton.mp hmem
        cases Except.ok.inj (hoffers.1.symm.trans hoffers'.1)
        rw [hs] at hs'
        cases hs'
    · have hsame : (match db.collect which (db.collectAll which plugins).1 plugin with
          | .ok found => found
          | .error _ => (db.collectAll which plugins).1) = (db.collectAll which plugins).1 := by
        obtain hrun | ⟨e, hrun⟩ := hrun <;> rw [hrun]
      rw [hsame]
      refine ⟨hsorted, hold, fun plugin' hmem spec' s' hoffers' hs' => ?_⟩
      obtain hmem | hmem := List.mem_append.mp hmem
      · exact hcomplete plugin' hmem spec' s' hoffers' hs'
      · obtain rfl := List.mem_singleton.mp hmem
        exact absurd hoffers' (hno spec')

end ModulesPluginDatabase

/-! ## What is looked up -/

namespace ModulesPluginDatabase

variable {db : ModulesPluginDatabase} {which : Str}

theorem lookupAllProvidesWithStatus_ok (h : (db.collectAll which db.listAllPlugins).1 ≠ []) :
    db.lookupAllProvidesWithStatus which = .ok (db.collectAll which db.listAllPlugins).1 :=
  if_neg h

theorem lookupAllProvides_eq (db : ModulesPluginDatabase) (which : Str) :
    db.lookupAllProvides which = (db.collectAll which db.listAllPlugins).1.map Prod.snd := by
  rw [lookupAllProvides]
  by_cases h : (db.collectAll which db.listAllPlugins).1 = []
  · have herror : ∃ e, db.lookupAllProvidesWithStatus which = .error e := ⟨_, if_pos h⟩
    obtain ⟨e, he⟩ := herror
    rw [he, h]
    rfl
  · rw [lookupAllProvidesWithStatus_ok h]

/-- **All plugins that offer the name are found exactly if their statuses are different.** -/
theorem findsAll_iff : db.FindsAll which ↔ db.DistinctStatuses which := by
  obtain ⟨hsorted, hsound, hcomplete⟩ := collectAll_spec db which db.listAllPlugins
  rw [FindsAll, lookupAllProvides_eq]
  generalize (db.collectAll which db.listAllPlugins).1 = found at hsorted hsound hcomplete
  constructor
  · rintro ⟨-, hall⟩
    have hfound : ∀ plugin spec, db.Offers which plugin spec → ∃ s, (s, spec) ∈ found ∧ db.statusOf spec = .ok s := by
      intro plugin spec h
      obtain ⟨p, hp, rfl⟩ := List.mem_map.mp ((hall spec).mpr ⟨plugin, h⟩)
      obtain ⟨-, -, -, hs⟩ := hsound p hp
      exact ⟨p.1, hp, hs⟩
    refine ⟨fun plugin spec h => ?_, fun plugin spec plugin' spec' s h h' hs hs' => ?_⟩
    · obtain ⟨s, -, hs⟩ := hfound plugin spec h
      exact ⟨s, hs⟩
    · obtain ⟨t, ht, hts⟩ := hfound plugin spec h
      obtain ⟨t', ht', hts'⟩ := hfound plugin' spec' h'
      cases Except.ok.inj (hs.symm.trans hts)
      cases Except.ok.inj (hs'.symm.trans hts')
      exact hsorted.unique ht ht'
  · rintro ⟨hstatus, hdistinct⟩
    refine ⟨?_, fun spec => ⟨fun h => ?_, ?_⟩⟩
    · rw [List.Nodup, List.pairwise_map]
      refine hsorted.imp_of_mem fun {p q} hp hq hlt he => ?_
      obtain ⟨-, -, -, hs⟩ := hsound p hp
      obtain ⟨-, -, -, hs'⟩ := hsound q hq
      rw [he] at hs
      exact hlt.ne (Except.ok.inj (hs.symm.trans hs'))
    · obtain ⟨p, hp, rfl⟩ := List.mem_map.mp h
      obtain ⟨plugin, hmem, hoffers, -⟩ := hsound p hp
      exact ⟨plugin, hmem, hoffers⟩
    · rintro ⟨plugin, h⟩
      obtain ⟨s, hs⟩ := hstatus plugin spec h
      obtain ⟨spec', hfound⟩ := hcomplete plugin h.1 spec s h.2 hs
      obtain ⟨plugin', hmem', hoffers', hs'⟩ := hsound _ hfound
      rw [hdistinct plugin spec plugin' spec' s h ⟨hmem', hoffers'⟩ hs hs']
      exact List.mem_map_of_mem hfound

/-- **The search for a plugin that lists the name ends, or comes to one that cannot be loaded first.** -/
theorem hasProvidesLoop_ok (db : ModulesPluginDatabase) (which : Str) (plugins : List Str) :
    (∃ b, db.hasProvidesLoop which plugins = .ok b) ↔ ¬ ∃ before plugin rest,
      plugins = before ++ plugin :: rest ∧ db.Unloaded plugin ∧ ∀ p ∈ before, db.Silent which p := by
  induction plugins with
  | nil =>
    refine iff_of_true ⟨false, rfl⟩ ?_
    rintro ⟨before, plugin, rest, h, -⟩
    simp at h
  | cons p plugins ih =>
    by_cases hloaded : db.Unloaded p
    · refine iff_of_false ?_ (not_not.mpr ⟨[], p, plugins, rfl, hloaded, fun q hq => (by cases hq)⟩)
      rintro ⟨b, hb⟩
      rw [hasProvidesLoop] at hb
      cases hspec : specOf p with
      | error e =>
        rw [hspec] at hb
        cases hb
      | ok spec =>
        cases hload : db.load spec.name with
        | ok contract => exact hloaded spec contract hspec hload
        | error e =>
          rw [hspec] at hb
          change (db.lookupInfo spec (str "provides") >>= _) = _ at hb
          rw [lookupInfo, hload] at hb
          cases hb
    · have hloaded' := hloaded
      rw [Unloaded] at hloaded'
      push Not at hloaded'
      obtain ⟨spec, contract, hspec, hload⟩ := hloaded'
      have hrun : db.hasProvidesLoop which (p :: plugins) =
          if which ∈ words ((contract.lookup (str "provides")).getD []) then .ok true
          else db.hasProvidesLoop which plugins := by
        rw [hasProvidesLoop, hspec]
        change (db.lookupInfo spec (str "provides") >>= _) = _
        rw [lookupInfo, hload]
        change (if List.contains _ _ then _ else _) = _
        simp only [List.contains_iff_mem]
      rw [hrun]
      by_cases hlists : which ∈ words ((contract.lookup (str "provides")).getD [])
      · rw [if_pos hlists]
        refine iff_of_true ⟨true, rfl⟩ ?_
        rintro ⟨before, plugin, rest, h, hplugin, hbefore⟩
        cases before with
        | nil =>
          cases h
          exact hloaded hplugin
        | cons q before =>
          cases h
          exact hbefore p List.mem_cons_self spec contract hspec hload hlists
      · rw [if_neg hlists, ih, not_iff_not]
        have hp : db.Silent which p := by
          intro spec' contract' h h'
          cases Except.ok.inj (hspec.symm.trans h)
          cases Except.ok.inj (hload.symm.trans h')
          exact hlists
        constructor
        · rintro ⟨before, plugin, rest, rfl, hplugin, hbefore⟩
          exact ⟨p :: before, plugin, rest, rfl, hplugin, List.forall_mem_cons.mpr ⟨hp, hbefore⟩⟩
        · rintro ⟨before, plugin, rest, h, hplugin, hbefore⟩
          cases before with
          | nil =>
            cases h
            exact absurd hplugin hloaded
          | cons q before =>
            cases h
            exact ⟨before, plugin, rest, rfl, hplugin, (List.forall_mem_cons.mp hbefore).2⟩

theorem hasProvides_ok : (∃ b, db.hasProvides which = .ok b) ↔ ¬ db.Hidden which :=
  hasProvidesLoop_ok db which db.listAllPlugins

/-- **The best of the plugins is found exactly if the name is one of a plugin and the search for it is not
stopped.** -/
theorem findsBest_iff (hdistinct : db.DistinctStatuses which) : db.FindsBest which ↔
    (¬ db.NameExists which → (∃ plugin spec, db.Offers which plugin spec) → db.Searchable which) := by
  obtain ⟨hsorted, hsound, hcomplete⟩ := collectAll_spec db which db.listAllPlugins
  refine forall_congr' fun hname => forall_congr' fun hoffer => ⟨?_, ?_⟩
  · rintro ⟨-, spec, -, hlookup, -⟩
    cases hspec : specOf which with
    | error e =>
      rw [lookupProvides, hspec] at hlookup
      cases hlookup
    | ok spec₀ =>
      refine ⟨spec₀, hspec, hasProvides_ok.mp ?_⟩
      have hreal : db.loadsForStatus spec₀.name = false := by
        by_contra hload
        exact hname ⟨spec₀, hspec, Bool.eq_true_of_not_eq_false hload⟩
      cases hhas : db.hasProvides spec₀.name with
      | ok b => exact ⟨b, rfl⟩
      | error e =>
        rw [lookupProvides, hspec] at hlookup
        change (db.status spec₀ >>= _) = _ at hlookup
        rw [status, hreal, if_neg Bool.false_ne_true, hhas] at hlookup
        cases hlookup
  · rintro ⟨spec₀, hspec, hhidden⟩
    obtain ⟨plugin, spec, hoffers⟩ := hoffer
    obtain ⟨s, hs⟩ := hdistinct.1 plugin spec hoffers
    obtain ⟨w, hw⟩ := hcomplete plugin hoffers.1 spec s hoffers.2 hs
    have hne := List.ne_nil_of_mem hw
    have hlast := List.getLast?_eq_some_getLast hne
    obtain ⟨best, hbest⟩ : ∃ best, best = (db.collectAll which db.listAllPlugins).1.getLast hne := ⟨_, rfl⟩
    rw [← hbest] at hlast
    obtain ⟨plugin', hmem, hoffers', hs'⟩ := hsound best (List.mem_of_getLast? hlast)
    refine ⟨plugin', best.2, best.1, ?_, ⟨hmem, hoffers'⟩, hs', fun plugin'' spec'' h'' => ?_⟩
    · have hreal : db.loadsForStatus spec₀.name = false := by
        by_contra hload
        exact hname ⟨spec₀, hspec, Bool.eq_true_of_not_eq_false hload⟩
      obtain ⟨b, hb⟩ := hasProvides_ok.mpr hhidden
      have hstatus : ∃ st, st ≠ Status.real ∧ db.status spec₀ = .ok st := by
        rw [status, hreal, if_neg Bool.false_ne_true, hb]
        cases b with
        | true => exact ⟨.provides, by simp, rfl⟩
        | false => exact ⟨.missing, by simp, rfl⟩
      obtain ⟨st, hst, hstatus⟩ := hstatus
      rw [lookupProvides, hspec]
      change (db.status spec₀ >>= _) = _
      rw [hstatus]
      change (if st = .real then _ else _) = _
      rw [if_neg hst, lookupAllProvidesWithStatus_ok hne]
      change (match (db.collectAll which db.listAllPlugins).1.getLast? with
        | some p => Except.ok p.2
        | none => .error []) = _
      rw [hlast]
    · obtain ⟨s'', hs''⟩ := hdistinct.1 plugin'' spec'' h''
      obtain ⟨w, hw⟩ := hcomplete plugin'' h''.1 spec'' s'' h''.2 hs''
      exact ⟨s'', hs'', hsorted.le_last hlast hw⟩

/-- **All plugins that offer a name are found, and the best of them, exactly if their statuses are different and
the search is not stopped.** -/
theorem lookups_iff (db : ModulesPluginDatabase) (which : Str) : (db.FindsAll which ∧ db.FindsBest which) ↔
    db.DistinctStatuses which ∧
      (¬ db.NameExists which → (∃ plugin spec, db.Offers which plugin spec) → db.Searchable which) := by
  rw [findsAll_iff]
  exact and_congr_right findsBest_iff

/-- Two plugins with the same clauses. -/
def twoProviders : ModulesPluginDatabase where
  listAllPlugins := [str "ini", str "ni"]
  load := fun _ => .ok [(str "provides", str "storage"), (str "status", str "maintained")]
  loadsForStatus := [str "ini", str "ni"].contains

theorem not_lookups :
    ¬ (twoProviders.FindsAll (str "storage") ∧ twoProviders.FindsBest (str "storage")) := by
  rintro ⟨⟨-, hall⟩, -⟩
  have hvalid : validate (str "ni") = true := by decide
  have hoffers : twoProviders.Offers (str "storage") (str "ni") (PluginSpec.ofName (str "ni") hvalid) :=
    ⟨by decide, rfl, _, rfl, Or.inr (by decide +kernel)⟩
  have hmem := List.mem_map_of_mem (f := PluginSpec.name) ((hall _).mpr ⟨_, hoffers⟩)
  have hnames : (twoProviders.lookupAllProvides (str "storage")).map PluginSpec.name = [str "ini"] := by
    decide +kernel
  rw [hnames, List.mem_singleton] at hmem
  have hsame : str "ni" = str "ini" := hmem
  exact absurd hsame (by decide)

end ModulesPluginDatabase

end Elektra.Tools
