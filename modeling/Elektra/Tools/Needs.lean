import Elektra.Search.Loop
import Elektra.Tools.Database
import Elektra.Tools.Ordering

/-!
# Resolving needs

`resolveNeeds` adds plugins until nothing is needed: in each round it collects what the plugins need and
recommend, takes away what they provide, and adds a plugin for the first entry that is left. Whether it
goes on is decided before the needs of that plugin are collected.

* `Resolving`, `round`, `resolveNeeds`;
* `Supplied`, `Closed`, `Resolves`: what it is to do;
* `Inv`: nothing is lost; `remaining`: what a round takes away from;
* `Proper`: rounds that are as they are to be; **`resolveNeeds_spec`**.
-/

namespace Elektra.Tools

open Loop

/-! ## The code -/

/-- The builder in `resolveNeeds`; `metadata` is a set. -/
structure Resolving where
  builder : BackendBuilder
  neededPlugins : List Str
  recommendedPlugins : List Str
  metadata : List Str
  missingRecommends : List Str

/-- How a call ends; `undefined` is a use of an invalid iterator or of an element of unspecified value. -/
inductive Resolved
  | throws (e : ResolveException)
  | undefined
  | returns (st : Resolving)

/-- The first element of a set of strings. -/
def least : List Str → Option Str
  | [] => none
  | s :: l =>
    match least l with
    | some t => some (if compare s t = .gt then t else s)
    | none => some s

/-- `erase (remove (...))` erases one element: the rest is what it is to be when there is just one. -/
def removeMissing (recommendedPlugins missingPlugins : List Str) : Option (List Str) :=
  missingPlugins.foldlM (fun l mp => if l.count mp = 1 then some (l.erase mp) else none) recommendedPlugins

section Code

variable (db : MockPluginDatabase) (toAdd : List PluginSpec)

/-- `collectNeeds` and `collectRecommends` -/
def collect (which : Str) (needs : List Str) : List Str := needs ++ toAdd.flatMap (db.clause which)

def removeProvided (needs : List Str) : List Str :=
  toAdd.foldl (fun needs ps => (db.clause (str "provides") ps).foldl
    (fun needs toRemove => needs.filter (· ≠ toRemove)) (needs.filter (· ≠ ps.name))) needs

def removeMetadata (needsMetadata : List Str) : List Str :=
  toAdd.foldl (fun needs ps => (db.clause (str "metadata") ps).foldl
    (fun needs toRemove => needs.filter (· ≠ toRemove)) needs) needsMetadata

namespace Resolving

variable (qsort qsort' : Qsort) (addRecommends : Bool) (st : Resolving)

/-- What is still needed. -/
def collected : Option Resolving := do
  let toAdd := st.builder.toAdd
  let recommendedPlugins ← removeMissing
    (removeProvided db toAdd (collect db toAdd (str "recommends") st.recommendedPlugins)) st.missingRecommends
  some { st with
    neededPlugins := removeProvided db toAdd (collect db toAdd (str "needs") st.neededPlugins)
    recommendedPlugins := recommendedPlugins
    metadata := removeMetadata db toAdd st.metadata }

/-- The plugin for the first entry, and the entries without it. -/
def choose : Except ResolveException (Option PluginSpec × Resolving) :=
  match st.neededPlugins, least st.metadata, st.recommendedPlugins with
  | n :: needs, _, _ => do
    let plugin ← PluginSpec.ofFullName n
    .ok (some plugin, { st with neededPlugins := needs })
  | [], some first, _ =>
    match db.lookupMetadata first with
    | .error e => .error (.builder e)
    | .ok plugin => .ok (some plugin, { st with metadata := st.metadata.filter (· ≠ first) })
  | [], none, r :: recommends =>
    if addRecommends then do
      let rp ← PluginSpec.ofFullName r
      if db.status rp ≠ .missing then .ok (some rp, { st with recommendedPlugins := recommends })
      else
        .ok (none, { st with
          recommendedPlugins := recommends
          missingRecommends := st.missingRecommends ++ [r] })
    else .ok (none, st)
  | [], none, [] => .ok (none, st)

def addPlugin (plugin : PluginSpec) : Except ResolveException Resolving :=
  match st.builder.addPlugin db.database plugin qsort qsort' with
  | (some e, _) => .error (.builder e)
  | (none, b) => .ok { st with builder := b }

/-- The first entry is dealt with. -/
def act : Except ResolveException Resolving := do
  let (plugin, st) ← st.choose db addRecommends
  match plugin with
  | none => .ok st
  | some plugin => st.addPlugin db qsort qsort' plugin

/-- The condition of the loop. -/
def pending : Bool :=
  st.neededPlugins ≠ [] || st.metadata ≠ [] || (st.recommendedPlugins ≠ [] && addRecommends)

def round : Round Resolving Resolved :=
  match st.collected db with
  | none => .done .undefined
  | some st =>
    match st.act db qsort qsort' addRecommends with
    | .error e => .done (.throws e)
    | .ok st => if st.pending addRecommends then .again st else .done (.returns st)

/-- The loop that adds the plugins listed in `plugins`; it iterates over the plugins that it appends to. -/
def dependencies : List PluginSpec → Option Resolved
  | [] => none
  | ps :: toAdd =>
    match parseArguments (db.lookupInfo ps (str "plugins")) with
    | .error e => some (.throws e)
    | .ok [] => dependencies toAdd
    | .ok plugins =>
      match plugins.foldlM (fun st plugin => addPlugin db qsort qsort' st plugin) st with
      | .error e => some (.throws e)
      | .ok _ => some .undefined

/-- With a bound on the rounds. -/
def resolveNeeds (fuel : ℕ) : Option Resolved :=
  match st.dependencies db qsort qsort' st.builder.toAdd with
  | some r => some r
  | none => loop (round db qsort qsort' addRecommends) fuel { st with missingRecommends := [] }

end Resolving

end Code

/-! ## What is expected -/

/-- The plugin that an entry names. -/
def moduleName (n : Str) : Str := n.takeWhile (· ≠ numberSign)

/-- A plugin or a provider of that name is there. -/
def Supplied (db : MockPluginDatabase) (toAdd : List PluginSpec) (n : Str) : Prop :=
  ∃ ps ∈ toAdd, ps.name = moduleName n ∨ n ∈ db.clause (str "provides") ps ∨
    moduleName n ∈ db.clause (str "provides") ps

/-- Nothing is missing for the plugins of `st`, which come from those of `start`. -/
structure Closed (db : MockPluginDatabase) (addRecommends : Bool) (start st : Resolving) : Prop where
  needs : ∀ ps ∈ st.builder.toAdd, ∀ n ∈ db.clause (str "needs") ps, Supplied db st.builder.toAdd n
  metadata : ∀ md ∈ start.metadata, ∃ ps ∈ st.builder.toAdd, md ∈ db.clause (str "metadata") ps
  recommends : addRecommends = true → ∀ ps ∈ st.builder.toAdd, ∀ r ∈ db.clause (str "recommends") ps,
    Supplied db st.builder.toAdd r ∨ r ∈ st.missingRecommends
  missing : ∀ r ∈ st.missingRecommends,
    (r ∈ start.recommendedPlugins ∨ ∃ ps ∈ st.builder.toAdd, r ∈ db.clause (str "recommends") ps) ∧
    ∃ rp, PluginSpec.ofFullName r = .ok rp ∧ db.status rp = .missing

/-- The call ends, by an exception or with nothing missing. -/
def Resolves (db : MockPluginDatabase) (qsort qsort' : Qsort) (addRecommends : Bool) (start : Resolving) : Prop :=
  ∃ n r, start.resolveNeeds db qsort qsort' addRecommends n = some r ∧
    match r with
    | .throws _ => True
    | .undefined => False
    | .returns st => Closed db addRecommends start st

/-! ## Lists of entries -/

section Lists

variable {db : MockPluginDatabase} {toAdd : List PluginSpec} {n : Str}

theorem mem_foldl_filter {l needs : List Str} :
    n ∈ l.foldl (fun needs toRemove => needs.filter (· ≠ toRemove)) needs ↔ n ∈ needs ∧ n ∉ l := by
  induction l generalizing needs with
  | nil => simp
  | cons r l ih =>
    rw [List.foldl_cons, ih, List.mem_filter, decide_eq_true_iff, List.mem_cons, not_or, and_assoc]

theorem mem_removeProvided {needs : List Str} : n ∈ removeProvided db toAdd needs ↔
    n ∈ needs ∧ ∀ ps ∈ toAdd, n ≠ ps.name ∧ n ∉ db.clause (str "provides") ps := by
  unfold removeProvided
  induction toAdd generalizing needs with
  | nil => simp
  | cons ps toAdd ih =>
    rw [List.foldl_cons, ih, mem_foldl_filter, List.mem_filter, decide_eq_true_iff, List.forall_mem_cons,
      and_assoc, and_assoc, and_assoc]

theorem removeProvided_sublist : ∀ (toAdd : List PluginSpec) (needs : List Str),
    (removeProvided db toAdd needs).Sublist needs
  | [], needs => List.Sublist.refl needs
  | ps :: toAdd, needs => by
    have hfilter : ∀ l needs : List Str,
        (l.foldl (fun needs toRemove => needs.filter (· ≠ toRemove)) needs).Sublist needs := by
      intro l
      induction l with
      | nil => exact fun needs => List.Sublist.refl needs
      | cons r l ih => exact fun needs => (ih _).trans List.filter_sublist
    refine (removeProvided_sublist toAdd _).trans ?_
    exact (hfilter _ _).trans List.filter_sublist

theorem mem_removeMetadata {needs : List Str} : n ∈ removeMetadata db toAdd needs ↔
    n ∈ needs ∧ ∀ ps ∈ toAdd, n ∉ db.clause (str "metadata") ps := by
  unfold removeMetadata
  induction toAdd generalizing needs with
  | nil => simp
  | cons ps toAdd ih => rw [List.foldl_cons, ih, mem_foldl_filter, List.forall_mem_cons, and_assoc]

theorem mem_collect {which : Str} {needs : List Str} : n ∈ collect db toAdd which needs ↔
    n ∈ needs ∨ ∃ ps ∈ toAdd, n ∈ db.clause which ps := by
  rw [collect, List.mem_append, List.mem_flatMap]

theorem removeMissing_spec : ∀ {missing l : List Str}, missing.Nodup → (∀ mp ∈ missing, l.count mp = 1) →
    ∃ l', removeMissing l missing = some l' ∧ ∀ r, r ∈ l' ↔ r ∈ l ∧ r ∉ missing
  | [], l, _, _ => ⟨l, rfl, by simp⟩
  | mp :: missing, l, hnodup, hcount => by
    obtain ⟨hmp, hnodup⟩ := List.nodup_cons.mp hnodup
    have hone := hcount mp List.mem_cons_self
    obtain ⟨l', hl', hmem⟩ := @removeMissing_spec missing (l.erase mp) hnodup fun r hr => by
      have hne : r ≠ mp := fun he => hmp (he ▸ hr)
      rw [List.count_erase_of_ne hne]
      exact hcount r (List.mem_cons_of_mem mp hr)
    refine ⟨l', ?_, fun r => ?_⟩
    · rw [removeMissing, List.foldlM_cons, if_pos hone]
      exact hl'
    · rw [hmem, List.mem_cons, not_or]
      have hgone : mp ∉ l.erase mp := by
        rw [← List.count_eq_zero, List.count_erase_self, hone]
      by_cases hr : r = mp
      · rw [hr]
        exact iff_of_false (fun h => hgone h.1) fun h => h.2.1 rfl
      · rw [List.mem_erase_of_ne hr, and_iff_right hr]

theorem removeMissing_sublist : ∀ {missing l l' : List Str}, removeMissing l missing = some l' → l'.Sublist l
  | [], l, _, h => by
    cases h
    exact List.Sublist.refl l
  | mp :: missing, l, l', h => by
    rw [removeMissing, List.foldlM_cons] at h
    split_ifs at h
    · exact (@removeMissing_sublist missing (l.erase mp) l' h).trans List.erase_sublist
    · cases h

theorem removeMissing_some : ∀ {missing l l' : List Str}, removeMissing l missing = some l' →
    missing.Nodup ∧ ∀ mp ∈ missing, l.count mp = 1
  | [], _, _, _ => ⟨List.nodup_nil, by simp⟩
  | mp :: missing, l, l', h => by
    rw [removeMissing, List.foldlM_cons] at h
    split_ifs at h with hone
    · obtain ⟨hnodup, hcount⟩ := @removeMissing_some missing (l.erase mp) l' h
      have hmp : mp ∉ missing := fun hmem => by
        have hzero := hcount mp hmem
        rw [List.count_erase_self, hone] at hzero
        cases hzero
      refine ⟨List.nodup_cons.mpr ⟨hmp, hnodup⟩, fun r hr => ?_⟩
      obtain rfl | hr := List.mem_cons.mp hr
      · exact hone
      · have hne : r ≠ mp := fun he => hmp (he ▸ hr)
        rw [← List.count_erase_of_ne hne]
        exact hcount r hr
    · cases h

theorem least_eq_none : ∀ {l : List Str}, least l = none → l = []
  | [], _ => rfl
  | s :: l, h => by
    rw [least] at h
    cases hl : least l <;> rw [hl] at h <;> cases h

theorem mem_least : ∀ {l : List Str} {s : Str}, least l = some s → s ∈ l
  | t :: l, s, h => by
    rw [least] at h
    cases hl : least l with
    | some u =>
      rw [hl] at h
      dsimp only at h
      split_ifs at h
      · cases h
        exact List.mem_cons_of_mem t (mem_least hl)
      · cases h
        exact List.mem_cons_self
    | none =>
      rw [hl] at h
      cases h
      exact List.mem_cons_self

end Lists

/-! ## Adding a plugin -/

section Adding

variable {db : MockPluginDatabase} {b b' : BackendBuilder} {plugin newPlugin : PluginSpec}
  {backendConf : List Key} {qsort qsort' : Qsort} {toAdd toAdd' : List PluginSpec}

/-- A plugin or one that provides it. -/
structure Picked (db : MockPluginDatabase) (plugin newPlugin : PluginSpec) : Prop where
  refname : newPlugin.refname = plugin.refname
  known : newPlugin.name ∈ db.listAllPlugins
  provides : newPlugin.name = plugin.name ∨ plugin.name ∈ db.clause (str "provides") newPlugin
  name : plugin.name ∈ db.listAllPlugins → newPlugin.name = plugin.name

theorem resolve_picked (h : b.resolve db.database plugin = .ok (newPlugin, backendConf)) :
    Picked db plugin newPlugin := by
  unfold BackendBuilder.resolve at h
  split_ifs at h
  cases hp : db.lookupProvides plugin.name with
  | error e =>
    simp only [MockPluginDatabase.database, hp] at h
    cases h
  | ok provides =>
    obtain ⟨hknown, -, hprovides⟩ := MockPluginDatabase.lookupProvides_spec hp
    have hname := fun hmem => MockPluginDatabase.lookupProvides_name hmem hp
    simp only [MockPluginDatabase.database, hp, bind, Except.bind] at h
    have hclause : ∀ p : PluginSpec, p.name = provides.name →
        db.clause (str "provides") provides = db.clause (str "provides") p := fun p hn =>
      MockPluginDatabase.clause_name hn.symm _
    -- the name is the one that was looked up, with the reference name of the plugin
    have hpicked : ∀ p : PluginSpec, p.name = provides.name → p.refname = plugin.refname → Picked db plugin p := by
      intro p hn hr
      refine ⟨hr, hn ▸ hknown, ?_, fun hmem => hn.trans (hname hmem)⟩
      obtain hsame | hmem := hprovides
      · exact .inl (hn.trans hsame)
      · exact .inr (hclause p hn ▸ hmem)
    have hnew : ∀ p : PluginSpec, (p = if provides.name ≠ plugin.name then
        (plugin.setName provides.name provides.validName).appendConfig provides.config else plugin) →
        p.name = provides.name ∧ p.refname = plugin.refname := by
      rintro p rfl
      split_ifs with hne
      · exact ⟨rfl, rfl⟩
      · exact ⟨(not_not.mp hne).symm, rfl⟩
    generalize (if provides.name ≠ plugin.name then
      (plugin.setName provides.name provides.validName).appendConfig provides.config else plugin) = p at h hnew
    obtain ⟨hn, hr⟩ := hnew p rfl
    cases hc : db.checkconf with
    | none =>
      rw [hc] at h
      cases h
      exact hpicked _ hn hr
    | some checkconf =>
      rw [hc] at h
      dsimp only at h
      split_ifs at h
      · cases h
        exact hpicked _ hn hr
      · cases h
        exact hpicked _ hn hr

/-- The full names after a plugin was added. -/
structure Adds (toAdd : List PluginSpec) (newPlugin : PluginSpec) (toAdd' : List PluginSpec) : Prop where
  old : ∀ p ∈ toAdd', p ∈ toAdd ∨ p = newPlugin
  kept : ∀ p ∈ toAdd, ∃ p' ∈ toAdd', p'.path = p.path
  new : ∃ p' ∈ toAdd', p'.path = newPlugin.path

theorem addPlugin_adds (hsort : qsort.Sorts) (hsort' : qsort'.Sorts)
    (h : b.addPlugin db.database plugin qsort qsort' = (none, b')) :
    ∃ newPlugin backendConf, b.resolve db.database plugin = .ok (newPlugin, backendConf) ∧
      Adds b.toAdd newPlugin b'.toAdd := by
  unfold BackendBuilder.addPlugin at h
  cases hres : b.resolve db.database plugin with
  | error e =>
    rw [hres] at h
    cases h
  | ok r =>
    obtain ⟨newPlugin, backendConf⟩ := r
    rw [hres] at h
    dsimp only at h
    cases hrun : BackendBuilder.sort qsort qsort' db.database (b.toAdd ++ [newPlugin]) with
    | error e =>
      rw [hrun] at h
      cases h
    | ok l =>
      rw [hrun] at h
      cases h
      obtain ⟨hold, hnew⟩ := sort_paths hsort hsort'
        (List.append_ne_nil_of_right_ne_nil _ (List.cons_ne_nil _ _)) hrun
      refine ⟨newPlugin, backendConf, rfl, fun p hp => ?_, fun p hp => ?_, ?_⟩
      · exact (List.mem_append.mp (hold p hp)).imp_right List.mem_singleton.mp
      · exact hnew p (List.mem_append_left _ hp)
      · exact hnew newPlugin (List.mem_append_right _ (List.mem_singleton_self _))

theorem Adds.all (h : Adds toAdd newPlugin toAdd') :
    ∀ p ∈ toAdd ++ [newPlugin], ∃ p' ∈ toAdd', p'.path = p.path := by
  intro p hp
  obtain hp | hp := List.mem_append.mp hp
  · exact h.kept p hp
  · rw [List.mem_singleton.mp hp]
    exact h.new

/-- What the plugins of one list have, those of another one have too. -/
theorem exists_clause {which n : Str} (h : ∀ p ∈ toAdd, ∃ p' ∈ toAdd', p'.path = p.path)
    (hn : ∃ ps ∈ toAdd, n ∈ db.clause which ps) : ∃ ps ∈ toAdd', n ∈ db.clause which ps := by
  obtain ⟨ps, hps, hmem⟩ := hn
  obtain ⟨ps', hps', hpath⟩ := h ps hps
  exact ⟨ps', hps', MockPluginDatabase.clause_name (PluginSpec.path_inj.mp hpath).1 which ▸ hmem⟩

theorem Supplied.mono {n : Str} (h : ∀ p ∈ toAdd, ∃ p' ∈ toAdd', p'.path = p.path)
    (hn : Supplied db toAdd n) : Supplied db toAdd' n := by
  obtain ⟨ps, hps, hsup⟩ := hn
  obtain ⟨ps', hps', hpath⟩ := h ps hps
  have hname := (PluginSpec.path_inj.mp hpath).1
  refine ⟨ps', hps', ?_⟩
  rwa [hname, MockPluginDatabase.clause_name hname]

theorem validated_ok {n : Str} {r : {n : Str // validate n = true}} (h : PluginSpec.validated n = .ok r) :
    r.1 = n := by
  unfold PluginSpec.validated at h
  split_ifs at h
  cases h
  rfl

theorem ofFullName_spec {n : Str} {spec : PluginSpec} (h : PluginSpec.ofFullName n = .ok spec) :
    spec.name = moduleName n := by
  unfold PluginSpec.ofFullName at h
  split at h
  · rename_i hnil
    have hself : moduleName n = n := by
      rw [moduleName, List.takeWhile_eq_self_iff]
      exact List.dropWhile_eq_nil_iff.mp hnil
    cases hv : PluginSpec.validated n with
    | error e =>
      rw [hv] at h
      cases h
    | ok r =>
      rw [hv] at h
      cases h
      exact (validated_ok hv).trans hself.symm
  · cases hv : PluginSpec.validated (n.takeWhile (· ≠ numberSign)) with
    | error e =>
      rw [hv] at h
      cases h
    | ok r =>
      rw [hv] at h
      rename_i rn _
      cases hr : PluginSpec.validated rn with
      | error e =>
        rw [hr] at h
        cases h
      | ok r' =>
        rw [hr] at h
        cases h
        exact validated_ok hv

theorem moduleName_of_validate {n : Str} (h : validate n = true) : moduleName n = n := by
  rw [moduleName, List.takeWhile_eq_self_iff]
  intro c hc
  have hall := (plain_of_validate h).2 c hc
  rw [decide_eq_true_iff]
  rintro rfl
  cases hall

theorem supplied_of_removed {needs : List Str} {n : Str} (hn : n ∈ needs)
    (h : n ∉ removeProvided db toAdd needs) : Supplied db toAdd n := by
  by_contra hnot
  refine h (mem_removeProvided.mpr ⟨hn, fun ps hps => ⟨fun hname => hnot ⟨ps, hps, .inl ?_⟩,
    fun hprov => hnot ⟨ps, hps, .inr (.inl hprov)⟩⟩⟩)
  rw [hname, moduleName_of_validate ps.validName]

theorem Picked.supplied {n : Str} (hp : Picked db plugin newPlugin) (hn : plugin.name = moduleName n)
    (hmem : ∃ p ∈ toAdd, p.path = newPlugin.path) : Supplied db toAdd n := by
  obtain ⟨p, hp', hpath⟩ := hmem
  have hname := (PluginSpec.path_inj.mp hpath).1
  refine ⟨p, hp', ?_⟩
  obtain hsame | hprov := hp.provides
  · exact .inl (hname.trans (hsame.trans hn))
  · rw [hn] at hprov
    exact .inr (.inr (MockPluginDatabase.clause_name hname _ ▸ hprov))

end Adding

/-! ## Choosing an entry -/

namespace Resolving

/-- The entry that is chosen, and what is left. -/
inductive Chosen (db : MockPluginDatabase) (addRecommends : Bool) (st : Resolving) :
    Option PluginSpec → Resolving → Prop
  | need {n : Str} {needs : List Str} {plugin : PluginSpec} (hneeds : st.neededPlugins = n :: needs)
      (hn : PluginSpec.ofFullName n = .ok plugin) :
      Chosen db addRecommends st (some plugin) { st with neededPlugins := needs }
  | metadata {first : Str} {plugin : PluginSpec} (hneeds : st.neededPlugins = [])
      (hfirst : first ∈ st.metadata) (hplugin : db.lookupMetadata first = .ok plugin) :
      Chosen db addRecommends st (some plugin) { st with metadata := st.metadata.filter (· ≠ first) }
  | recommend {r : Str} {recommends : List Str} {plugin : PluginSpec} (hneeds : st.neededPlugins = [])
      (hmetadata : st.metadata = []) (hrecommends : st.recommendedPlugins = r :: recommends)
      (hr : PluginSpec.ofFullName r = .ok plugin) :
      Chosen db addRecommends st (some plugin) { st with recommendedPlugins := recommends }
  | missing {r : Str} {recommends : List Str} {plugin : PluginSpec} (hneeds : st.neededPlugins = [])
      (hmetadata : st.metadata = []) (hrecommends : st.recommendedPlugins = r :: recommends)
      (hr : PluginSpec.ofFullName r = .ok plugin) (hmissing : db.status plugin = .missing) :
      Chosen db addRecommends st none { st with
        recommendedPlugins := recommends, missingRecommends := st.missingRecommends ++ [r] }
  | nothing (hneeds : st.neededPlugins = []) (hmetadata : st.metadata = [])
      (hrecommends : addRecommends = true → st.recommendedPlugins = []) : Chosen db addRecommends st none st

section Choose

variable {db : MockPluginDatabase} {addRecommends : Bool} {st st' : Resolving} {plugin : Option PluginSpec}

theorem choose_chosen (h : st.choose db addRecommends = .ok (plugin, st')) :
    Chosen db addRecommends st plugin st' := by
  unfold choose at h
  cases hneeds : st.neededPlugins with
  | cons n needs =>
    rw [hneeds] at h
    dsimp only at h
    cases hp : PluginSpec.ofFullName n with
    | error e =>
      rw [hp] at h
      cases h
    | ok p =>
      rw [hp] at h
      cases h
      exact .need hneeds hp
  | nil =>
    cases hfirst : least st.metadata with
    | some first =>
      rw [hneeds, hfirst] at h
      dsimp only at h
      cases hp : db.lookupMetadata first with
      | error e =>
        rw [hp] at h
        cases h
      | ok p =>
        rw [hp] at h
        cases h
        have hchosen : Chosen db addRecommends st _ _ := .metadata hneeds (mem_least hfirst) hp
        rwa [hneeds] at hchosen
    | none =>
      have hmetadata := least_eq_none hfirst
      cases hrecommends : st.recommendedPlugins with
      | nil =>
        rw [hneeds, hfirst, hrecommends] at h
        cases h
        exact .nothing hneeds hmetadata fun _ => hrecommends
      | cons r recommends =>
        rw [hneeds, hfirst, hrecommends] at h
        dsimp only at h
        split_ifs at h with hadd
        · cases hp : PluginSpec.ofFullName r with
          | error e =>
            rw [hp] at h
            cases h
          | ok p =>
            simp only [hp, bind, Except.bind] at h
            split_ifs at h with hmissing
            · cases h
              have hchosen : Chosen db addRecommends st _ _ :=
                .recommend hneeds hmetadata hrecommends hp
              rwa [hneeds] at hchosen
            · cases h
              have hchosen : Chosen db addRecommends st _ _ :=
                .missing hneeds hmetadata hrecommends hp (not_not.mp hmissing)
              rwa [hneeds] at hchosen
        · cases h
          exact .nothing hneeds hmetadata fun ht => absurd ht hadd

theorem Chosen.builder (h : Chosen db addRecommends st plugin st') : st'.builder = st.builder := by
  cases h <;> rfl

end Choose

/-! ## Rounds -/

/-- Each entry that is missing in the database was collected once. -/
def Counts (db : MockPluginDatabase) (st : Resolving) : Prop :=
  st.missingRecommends.Nodup ∧ ∀ mp ∈ st.missingRecommends, (removeProvided db st.builder.toAdd
    (collect db st.builder.toAdd (str "recommends") st.recommendedPlugins)).count mp = 1

/-- What is collected. -/
structure Collected (db : MockPluginDatabase) (st st₁ : Resolving) : Prop where
  builder : st₁.builder = st.builder
  missing : st₁.missingRecommends = st.missingRecommends
  needs : st₁.neededPlugins =
    removeProvided db st.builder.toAdd (collect db st.builder.toAdd (str "needs") st.neededPlugins)
  recommends : ∀ r, r ∈ st₁.recommendedPlugins ↔ r ∈ removeProvided db st.builder.toAdd
    (collect db st.builder.toAdd (str "recommends") st.recommendedPlugins) ∧ r ∉ st.missingRecommends
  rest : st₁.recommendedPlugins.Sublist (removeProvided db st.builder.toAdd
    (collect db st.builder.toAdd (str "recommends") st.recommendedPlugins))
  metadata : st₁.metadata = removeMetadata db st.builder.toAdd st.metadata

section Rounds

variable {db : MockPluginDatabase} {qsort qsort' : Qsort} {addRecommends : Bool} {st st₁ st' : Resolving}
  {r : Resolved}

theorem collected_of_counts (h : st.Counts db) : ∃ st₁, st.collected db = some st₁ := by
  obtain ⟨l', hl', -⟩ := removeMissing_spec h.1 h.2
  unfold collected
  dsimp only
  rw [hl']
  exact ⟨_, rfl⟩

theorem collected_spec (h : st.collected db = some st₁) : st.Counts db ∧ Collected db st st₁ := by
  unfold collected at h
  dsimp only at h
  cases hr : removeMissing (removeProvided db st.builder.toAdd
      (collect db st.builder.toAdd (str "recommends") st.recommendedPlugins)) st.missingRecommends with
  | none =>
    rw [hr] at h
    cases h
  | some l =>
    have hcounts := removeMissing_some hr
    obtain ⟨l', hl', hmem⟩ := removeMissing_spec hcounts.1 hcounts.2
    obtain rfl : l = l' := Option.some.inj (hr.symm.trans hl')
    rw [hr] at h
    cases h
    exact ⟨hcounts, rfl, rfl, rfl, hmem, removeMissing_sublist hr, rfl⟩

/-- What an entry leads to. -/
inductive Acted (db : MockPluginDatabase) (qsort qsort' : Qsort) (addRecommends : Bool) (st₁ : Resolving) :
    Resolving → Prop
  | idle {st' : Resolving} (h : Chosen db addRecommends st₁ none st') : Acted db qsort qsort' addRecommends st₁ st'
  | added {plugin newPlugin : PluginSpec} {st₂ : Resolving} {backendConf : List Key} {b : BackendBuilder}
      (hchoose : st₁.choose db addRecommends = .ok (some plugin, st₂))
      (hadd : st₂.addPlugin db qsort qsort' plugin = .ok { st₂ with builder := b })
      (hres : st₁.builder.resolve db.database plugin = .ok (newPlugin, backendConf))
      (hadds : Adds st₁.builder.toAdd newPlugin b.toAdd) :
      Acted db qsort qsort' addRecommends st₁ { st₂ with builder := b }

theorem addPlugin_ok {plugin : PluginSpec} (hsort : qsort.Sorts) (hsort' : qsort'.Sorts)
    (h : st.addPlugin db qsort qsort' plugin = .ok st') :
    ∃ b newPlugin backendConf, st' = { st with builder := b } ∧
      st.builder.resolve db.database plugin = .ok (newPlugin, backendConf) ∧
      Adds st.builder.toAdd newPlugin b.toAdd := by
  unfold addPlugin at h
  cases hb : st.builder.addPlugin db.database plugin qsort qsort' with
  | mk e b =>
    rw [hb] at h
    cases e with
    | some e => cases h
    | none =>
      cases h
      obtain ⟨newPlugin, backendConf, hres, hadds⟩ := addPlugin_adds hsort hsort' hb
      exact ⟨b, newPlugin, backendConf, rfl, hres, hadds⟩

theorem act_acted (hsort : qsort.Sorts) (hsort' : qsort'.Sorts)
    (h : st₁.act db qsort qsort' addRecommends = .ok st') : Acted db qsort qsort' addRecommends st₁ st' := by
  unfold act at h
  cases hc : st₁.choose db addRecommends with
  | error e =>
    rw [hc] at h
    cases h
  | ok c =>
    obtain ⟨plugin, st₂⟩ := c
    have hchosen := choose_chosen hc
    rw [hc] at h
    cases plugin with
    | none =>
      cases h
      exact .idle hchosen
    | some plugin =>
      change st₂.addPlugin db qsort qsort' plugin = .ok st' at h
      obtain ⟨b, newPlugin, backendConf, rfl, hres, hadds⟩ := addPlugin_ok hsort hsort' h
      rw [hchosen.builder] at hres hadds
      exact .added hc h hres hadds

theorem round_again : st.round db qsort qsort' addRecommends = .again st' ↔
    ∃ st₁, st.collected db = some st₁ ∧ st₁.act db qsort qsort' addRecommends = .ok st' ∧
      st'.pending addRecommends = true := by
  unfold round
  cases hc : st.collected db with
  | none => simp
  | some st₁ =>
    cases ha : st₁.act db qsort qsort' addRecommends with
    | error e => simp [ha]
    | ok st₂ =>
      by_cases hp : st₂.pending addRecommends = true
      · simp only [hp, if_true, Round.again.injEq, Option.some.injEq, exists_eq_left', ha, Except.ok.injEq]
        exact ⟨fun h => ⟨h, h ▸ hp⟩, And.left⟩
      · simp only [hp, Option.some.injEq, exists_eq_left', ha, Except.ok.injEq]
        exact iff_of_false (fun h => by cases h) fun h => hp (h.1 ▸ h.2)

theorem round_returns : st.round db qsort qsort' addRecommends = .done (.returns st') ↔
    ∃ st₁, st.collected db = some st₁ ∧ st₁.act db qsort qsort' addRecommends = .ok st' ∧
      st'.pending addRecommends = false := by
  unfold round
  cases hc : st.collected db with
  | none => simp
  | some st₁ =>
    cases ha : st₁.act db qsort qsort' addRecommends with
    | error e => simp [ha]
    | ok st₂ =>
      by_cases hp : st₂.pending addRecommends = true
      · simp only [hp, if_true, Option.some.injEq, exists_eq_left', ha, Except.ok.injEq]
        exact iff_of_false (fun h => by cases h) fun h => by
          rw [← h.1, hp] at h
          cases h.2
      · simp only [hp, Option.some.injEq, exists_eq_left', ha, Except.ok.injEq]
        exact ⟨fun h => by cases h; exact ⟨rfl, Bool.eq_false_of_not_eq_true hp⟩, fun h => by rw [h.1]; rfl⟩

end Rounds

/-! ## What rounds keep -/

/-- Nothing was lost since the start. -/
structure Inv (db : MockPluginDatabase) (start st : Resolving) : Prop where
  metadata : ∀ md ∈ start.metadata,
    md ∈ st.metadata ∨ ∃ ps ∈ st.builder.toAdd, md ∈ db.clause (str "metadata") ps
  needs : ∀ n ∈ st.neededPlugins, n ∈ start.neededPlugins ∨ ∃ e ∈ db.data, n ∈ db.clause (str "needs") e.1
  recommends : ∀ r ∈ st.recommendedPlugins,
    r ∈ start.recommendedPlugins ∨ ∃ ps ∈ st.builder.toAdd, r ∈ db.clause (str "recommends") ps
  missing : ∀ r ∈ st.missingRecommends,
    (r ∈ start.recommendedPlugins ∨ ∃ ps ∈ st.builder.toAdd, r ∈ db.clause (str "recommends") ps) ∧
    ∃ rp, PluginSpec.ofFullName r = .ok rp ∧ db.status rp = .missing

/-- What a plugin needs is there. -/
def Complete (db : MockPluginDatabase) (addRecommends : Bool) (toAdd : List PluginSpec) (missing : List Str)
    (ps : PluginSpec) : Prop :=
  (∀ n ∈ db.clause (str "needs") ps, Supplied db toAdd n) ∧
    (addRecommends = true → ∀ r ∈ db.clause (str "recommends") ps, Supplied db toAdd r ∨ r ∈ missing)

section Keep

variable {db : MockPluginDatabase} {qsort qsort' : Qsort} {addRecommends : Bool} {start st st₁ st' : Resolving}

theorem clause_data {which n : Str} {ps : PluginSpec} (h : n ∈ db.clause which ps) :
    ∃ e ∈ db.data, e.1.name = ps.name ∧ n ∈ db.clause which e.1 := by
  cases he : db.find ps.name with
  | some e =>
    obtain ⟨hmem, hname⟩ := MockPluginDatabase.find_some he
    exact ⟨e, hmem, hname, MockPluginDatabase.clause_name hname which ▸ h⟩
  | none =>
    have hnil : words [] = [] := by decide
    rw [MockPluginDatabase.clause, MockPluginDatabase.lookupInfo, he, Option.elim_none, hnil] at h
    exact absurd h List.not_mem_nil

theorem Collected.inv (hc : Collected db st st₁) (h : Inv db start st) : Inv db start st₁ where
  metadata md hmd := by
    rw [hc.builder]
    obtain hmem | hhandled := h.metadata md hmd
    · by_cases hleft : md ∈ st₁.metadata
      · exact .inl hleft
      · rw [hc.metadata, mem_removeMetadata, and_iff_right hmem] at hleft
        by_contra hnot
        rw [not_or] at hnot
        exact hleft fun ps hps hclause => hnot.2 ⟨ps, hps, hclause⟩
    · exact .inr hhandled
  needs n hn := by
    rw [hc.needs, mem_removeProvided, mem_collect] at hn
    obtain hn | ⟨ps, -, hclause⟩ := hn.1
    · exact h.needs n hn
    · obtain ⟨e, he, -, hmem⟩ := clause_data hclause
      exact .inr ⟨e, he, hmem⟩
  recommends r hr := by
    rw [hc.builder]
    obtain ⟨hr, -⟩ := (hc.recommends r).mp hr
    rw [mem_removeProvided, mem_collect] at hr
    obtain hr | hclause := hr.1
    · exact h.recommends r hr
    · exact .inr hclause
  missing := by
    rw [hc.builder, hc.missing]
    exact h.missing

theorem Chosen.inv {plugin : Option PluginSpec} (hc : Chosen db addRecommends st₁ plugin st')
    (h : Inv db start st₁) {toAdd : List PluginSpec}
    (hkept : ∀ p ∈ st₁.builder.toAdd, ∃ p' ∈ toAdd, p'.path = p.path)
    (hnew : ∀ p, plugin = some p → ∃ newPlugin, Picked db p newPlugin ∧ ∃ p' ∈ toAdd, p'.path = newPlugin.path)
    {backendConf : List Key} : Inv db start { st' with builder := ⟨toAdd, backendConf⟩ } := by
  have hinv : Inv db start { st₁ with builder := ⟨toAdd, backendConf⟩ } :=
    ⟨fun md hmd => (h.metadata md hmd).imp_right (exists_clause hkept), h.needs,
      fun r hr => (h.recommends r hr).imp_right (exists_clause hkept),
      fun r hr => (h.missing r hr).imp_left (Or.imp_right (exists_clause hkept))⟩
  cases hc with
  | need hneeds hn =>
    exact ⟨hinv.metadata, fun m hm => h.needs m (hneeds ▸ List.mem_cons_of_mem _ hm), hinv.recommends,
      hinv.missing⟩
  | @metadata first plugin hneeds hfirst hplugin =>
    refine ⟨fun md hmd => ?_, hinv.needs, hinv.recommends, hinv.missing⟩
    obtain hmem | hhandled := hinv.metadata md hmd
    · by_cases he : md = first
      · obtain ⟨newPlugin, hpicked, p', hp', hpath⟩ := hnew _ rfl
        obtain ⟨hknown, -, hclause⟩ := MockPluginDatabase.lookupMetadata_spec hplugin
        have hname := (PluginSpec.path_inj.mp hpath).1.trans (hpicked.name hknown)
        rw [he]
        exact .inr ⟨p', hp', MockPluginDatabase.clause_name hname _ ▸ hclause⟩
      · exact .inl (List.mem_filter.mpr ⟨hmem, decide_eq_true he⟩)
    · exact .inr hhandled
  | recommend hneeds hmetadata hrecommends hr =>
    exact ⟨hinv.metadata, hinv.needs, fun m hm => hinv.recommends m (hrecommends ▸ List.mem_cons_of_mem _ hm),
      hinv.missing⟩
  | @missing r recommends plugin hneeds hmetadata hrecommends hr hmissing =>
    refine ⟨hinv.metadata, hinv.needs, fun m hm => hinv.recommends m (hrecommends ▸ List.mem_cons_of_mem _ hm),
      fun m hm => ?_⟩
    obtain hm | hm := List.mem_append.mp hm
    · exact hinv.missing m hm
    · rw [List.mem_singleton.mp hm]
      exact ⟨hinv.recommends r (hrecommends ▸ List.mem_cons_self), plugin, hr, hmissing⟩
  | nothing => exact hinv

theorem Acted.inv (ha : Acted db qsort qsort' addRecommends st₁ st') (h : Inv db start st₁) :
    Inv db start st' := by
  cases ha with
  | idle hc =>
    have hinv := @Chosen.inv db addRecommends start st₁ st' none hc h st₁.builder.toAdd
      (fun p hp => ⟨p, hp, rfl⟩) (fun p hp => by cases hp) st₁.builder.backendConf
    rwa [← hc.builder] at hinv
  | added hchoose hadd hres hadds =>
    refine (choose_chosen hchoose).inv h hadds.kept fun p hp => ?_
    obtain rfl := Option.some.inj hp
    exact ⟨_, resolve_picked hres, hadds.new⟩

theorem Acted.kept (ha : Acted db qsort qsort' addRecommends st₁ st') :
    ∀ p ∈ st₁.builder.toAdd, ∃ p' ∈ st'.builder.toAdd, p'.path = p.path := by
  cases ha with
  | idle hc =>
    rw [hc.builder]
    exact fun p hp => ⟨p, hp, rfl⟩
  | added _ _ _ hadds => exact hadds.kept

theorem Acted.missing (ha : Acted db qsort qsort' addRecommends st₁ st') :
    ∀ r ∈ st₁.missingRecommends, r ∈ st'.missingRecommends := by
  cases ha with
  | idle hc =>
    cases hc with
    | missing => exact fun r hr => List.mem_append_left _ hr
    | nothing => exact fun r hr => hr
  | added hchoose _ _ _ =>
    cases choose_chosen hchoose with
    | need => exact fun r hr => hr
    | metadata => exact fun r hr => hr
    | recommend => exact fun r hr => hr

theorem Acted.need {n : Str} (ha : Acted db qsort qsort' addRecommends st₁ st')
    (hn : n ∈ st₁.neededPlugins) (hnil : st'.neededPlugins = []) : Supplied db st'.builder.toAdd n := by
  cases ha with
  | idle hc =>
    cases hc with
    | missing hneeds => exact absurd (hneeds ▸ hn) List.not_mem_nil
    | nothing => exact absurd (hnil ▸ hn) List.not_mem_nil
  | added hchoose _ hres hadds =>
    cases choose_chosen hchoose with
    | need hneeds hspec =>
      obtain rfl : _ = [] := hnil
      rw [hneeds, List.mem_singleton] at hn
      rw [hn]
      exact (resolve_picked hres).supplied (ofFullName_spec hspec) hadds.new
    | metadata hneeds => exact absurd (hneeds ▸ hn) List.not_mem_nil
    | recommend hneeds => exact absurd (hneeds ▸ hn) List.not_mem_nil

/-- The last entry that is recommended is there, or missing in the database. -/
theorem Acted.recommend {r : Str} (ha : Acted db qsort qsort' addRecommends st₁ st')
    (hr : r ∈ st₁.recommendedPlugins) (hnil : st'.recommendedPlugins = []) :
    Supplied db st'.builder.toAdd r ∨ r ∈ st'.missingRecommends := by
  cases ha with
  | idle hc =>
    cases hc with
    | missing hneeds hmetadata hrecommends =>
      obtain rfl : _ = [] := hnil
      rw [hrecommends, List.mem_singleton] at hr
      rw [hr]
      exact .inr (List.mem_append_right _ (List.mem_singleton_self _))
    | nothing => exact absurd (hnil ▸ hr) List.not_mem_nil
  | added hchoose _ hres hadds =>
    cases choose_chosen hchoose with
    | need => exact absurd (hnil ▸ hr) List.not_mem_nil
    | metadata => exact absurd (hnil ▸ hr) List.not_mem_nil
    | recommend hneeds hmetadata hrecommends hspec =>
      obtain rfl : _ = [] := hnil
      rw [hrecommends, List.mem_singleton] at hr
      rw [hr]
      exact .inl ((resolve_picked hres).supplied (ofFullName_spec hspec) hadds.new)

/-- Where a round adds the last plugin, what that one needs is there. -/
def LastComplete (db : MockPluginDatabase) (qsort qsort' : Qsort) (addRecommends : Bool) (st : Resolving) : Prop :=
  ∀ st₁ plugin st₂ newPlugin backendConf, st.collected db = some st₁ →
    st₁.choose db addRecommends = .ok (some plugin, st₂) → st₂.pending addRecommends = false →
    (∃ st₃, st₂.addPlugin db qsort qsort' plugin = .ok st₃) →
    st.builder.resolve db.database plugin = .ok (newPlugin, backendConf) →
    Complete db addRecommends (st.builder.toAdd ++ [newPlugin]) st.missingRecommends newPlugin

/-- The last round closes what is needed, when the plugin that it adds is complete. -/
theorem Acted.closed (ha : Acted db qsort qsort' addRecommends st₁ st') (hcol : st.collected db = some st₁)
    (h : Inv db start st) (hp : st'.pending addRecommends = false)
    (hlast : LastComplete db qsort qsort' addRecommends st) : Closed db addRecommends start st' := by
  have hc := (collected_spec hcol).2
  have hinv := ha.inv (hc.inv h)
  have hkept := ha.kept
  have hpending := hp
  simp only [pending, Bool.or_eq_false_iff, decide_eq_false_iff_not, ne_eq, not_not, Bool.and_eq_false_iff] at hp
  obtain ⟨⟨hneeds', hmetadata'⟩, hrecommends'⟩ := hp
  have hrecommends' : addRecommends = true → st'.recommendedPlugins = [] := fun ht =>
    hrecommends'.resolve_right (by simp [ht])
  rw [hc.builder] at hkept
  -- the plugins so far, and the one that was added last
  have hps : ∀ ps ∈ st'.builder.toAdd,
      ps ∈ st.builder.toAdd ∨ Complete db addRecommends st'.builder.toAdd st'.missingRecommends ps := by
    intro ps hps
    have hmissing := ha.missing
    cases ha with
    | idle hchosen =>
      rw [hchosen.builder, hc.builder] at hps
      exact .inl hps
    | added hchoose hadd hres hadds =>
      rw [hc.builder] at hres hadds
      refine (hadds.old ps hps).imp_right fun he => ?_
      obtain ⟨hneeds, hrecommends⟩ := hlast _ _ _ _ _ hcol hchoose hpending ⟨_, hadd⟩ hres
      rw [he]
      refine ⟨fun n hn => (hneeds n hn).mono hadds.all, fun ht r hr => ?_⟩
      refine (hrecommends ht r hr).imp (fun hs => hs.mono hadds.all) fun hmem => hmissing r ?_
      rw [hc.missing]
      exact hmem
  refine ⟨fun ps hmem n hn => ?_, fun md hmd => ?_, fun ht ps hmem r hr => ?_, hinv.missing⟩
  · obtain hold | hcomplete := hps ps hmem
    · by_cases hleft : n ∈ st₁.neededPlugins
      · exact ha.need hleft hneeds'
      · rw [hc.needs] at hleft
        exact (supplied_of_removed (mem_collect.mpr (.inr ⟨ps, hold, hn⟩)) hleft).mono hkept
    · exact hcomplete.1 n hn
  · refine (hinv.metadata md hmd).resolve_left ?_
    rw [hmetadata']
    exact List.not_mem_nil
  · obtain hold | hcomplete := hps ps hmem
    · by_cases hleft : r ∈ removeProvided db st.builder.toAdd
          (collect db st.builder.toAdd (str "recommends") st.recommendedPlugins)
      · by_cases hmissing : r ∈ st.missingRecommends
        · exact .inr (ha.missing r (hc.missing ▸ hmissing))
        · exact ha.recommend ((hc.recommends r).mpr ⟨hleft, hmissing⟩) (hrecommends' ht)
      · exact .inl ((supplied_of_removed (mem_collect.mpr (.inr ⟨ps, hold, hr⟩)) hleft).mono hkept)
    · exact hcomplete.2 ht r hr

end Keep

/-! ## New plugins -/

/-- One of the plugins asks for the entry that a plugin is chosen for. -/
def Asked (db : MockPluginDatabase) (st : Resolving) (n : Str) : Prop :=
  (∃ needs, st.neededPlugins = n :: needs ∧ ∃ ps ∈ st.builder.toAdd, n ∈ db.clause (str "needs") ps) ∨
    st.neededPlugins = [] ∧ st.metadata = [] ∧ ∃ recommends, st.recommendedPlugins = n :: recommends ∧
      ∃ ps ∈ st.builder.toAdd, n ∈ db.clause (str "recommends") ps

section New

variable {db : MockPluginDatabase} {addRecommends : Bool} {st st₁ st₂ : Resolving} {plugin newPlugin : PluginSpec}
  {backendConf : List Key} {n : Str}

theorem fresh_of_removed {needs : List Str} (h : n ∈ removeProvided db st.builder.toAdd needs)
    (hn : numberSign ∉ n) (hspec : PluginSpec.ofFullName n = .ok plugin) :
    BackendBuilder.Fresh db.database st.builder plugin := by
  intro newPlugin backendConf hres p hp he
  have hname : p.name = newPlugin.name := (PluginSpec.path_inj.mp (PluginSpec.fullName_inj.mp he)).1
  obtain ⟨hne, hclause⟩ := (mem_removeProvided.mp h).2 p hp
  have hself : plugin.name = n := by
    rw [ofFullName_spec hspec, moduleName, List.takeWhile_eq_self_iff]
    exact fun c hc => decide_eq_true fun he => hn (he ▸ hc)
  obtain hsame | hprov := (resolve_picked hres).provides
  · exact hne (by rw [hname, hsame, hself])
  · rw [hself, ← MockPluginDatabase.clause_name hname] at hprov
    exact hclause hprov

/-- A plugin that handles the metadata would be found among those that are there. -/
theorem fresh_of_metadata {first : Str} (hc : Collected db st st₁) (h : first ∈ st₁.metadata)
    (hplugin : db.lookupMetadata first = .ok plugin) : BackendBuilder.Fresh db.database st.builder plugin := by
  intro newPlugin backendConf hres p hp he
  have hname : p.name = newPlugin.name := (PluginSpec.path_inj.mp (PluginSpec.fullName_inj.mp he)).1
  obtain ⟨hknown, -, hclause⟩ := MockPluginDatabase.lookupMetadata_spec hplugin
  rw [hc.metadata] at h
  refine (mem_removeMetadata.mp h).2 p hp ?_
  rwa [MockPluginDatabase.clause_name (hname.trans ((resolve_picked hres).name hknown))]

/-- **A plugin that is added is new, unless its entry has a reference name.** -/
theorem Collected.fresh (hc : Collected db st st₁) (hchoose : st₁.choose db addRecommends = .ok (some plugin, st₂))
    (h : ∀ n, numberSign ∈ n → st₁.Asked db n → BackendBuilder.Fresh db.database st.builder plugin) :
    BackendBuilder.Fresh db.database st.builder plugin ∨
      (∃ n, st₁.neededPlugins = n :: st₂.neededPlugins ∧
        ∀ ps ∈ st.builder.toAdd, n ∉ db.clause (str "needs") ps) ∨
      ∃ r, st₁.recommendedPlugins = r :: st₂.recommendedPlugins ∧
        ∀ ps ∈ st.builder.toAdd, r ∉ db.clause (str "recommends") ps := by
  cases choose_chosen hchoose with
  | @need n needs _ hneeds hspec =>
    by_cases hn : numberSign ∈ n
    · by_cases hasked : ∃ ps ∈ st.builder.toAdd, n ∈ db.clause (str "needs") ps
      · exact .inl (h n hn (.inl ⟨needs, hneeds, hc.builder ▸ hasked⟩))
      · push Not at hasked
        exact .inr (.inl ⟨n, hneeds, hasked⟩)
    · exact .inl (fresh_of_removed (hc.needs ▸ hneeds ▸ List.mem_cons_self) hn hspec)
  | metadata hneeds hfirst hplugin => exact .inl (fresh_of_metadata hc hfirst hplugin)
  | @recommend r recommends _ hneeds hmetadata hrecommends hspec =>
    by_cases hn : numberSign ∈ r
    · by_cases hasked : ∃ ps ∈ st.builder.toAdd, r ∈ db.clause (str "recommends") ps
      · exact .inl (h r hn (.inr ⟨hneeds, hmetadata, recommends, hrecommends, hc.builder ▸ hasked⟩))
      · push Not at hasked
        exact .inr (.inr ⟨r, hrecommends, hasked⟩)
    · exact .inl (fresh_of_removed ((hc.recommends r).mp (hrecommends ▸ List.mem_cons_self)).1 hn hspec)

end New

/-! ## The loop ends -/

theorem card_sdiff_lt {α : Type} [DecidableEq α] {u s t : Finset α} {a : α} (hst : s ⊆ t) (hu : a ∈ u)
    (hs : a ∉ s) (ht : a ∈ t) : (u \ t).card < (u \ s).card := by
  refine Finset.card_lt_card ⟨Finset.sdiff_subset_sdiff le_rfl hst, fun hsub => ?_⟩
  have hmem := hsub (Finset.mem_sdiff.mpr ⟨hu, hs⟩)
  exact (Finset.mem_sdiff.mp hmem).2 ht

/-- All entries that there can be. -/
def entries (db : MockPluginDatabase) (start : Resolving) : List Str :=
  start.neededPlugins ++ start.recommendedPlugins ++
    db.data.flatMap fun e => db.clause (str "needs") e.1 ++ db.clause (str "recommends") e.1

/-- The names and reference names that plugins for them can have. -/
def fullNames (db : MockPluginDatabase) (start : Resolving) : Finset (Str × Str) :=
  db.listAllPlugins.toFinset ×ˢ (db.listAllPlugins ++ (start.entries db).filterMap fun n =>
    (PluginSpec.ofFullName n).toOption.map PluginSpec.refname).toFinset

def fullName (ps : PluginSpec) : Str × Str := (ps.name, ps.refname)

/-- The entries that none of the plugins asks for. -/
def unasked (db : MockPluginDatabase) (which : Str) (toAdd : List PluginSpec) (needs : List Str) : ℕ :=
  needs.countP fun n => toAdd.all fun ps => !(db.clause which ps).contains n

/-- How many plugins can still be added, how many entries found missing, and how many dropped. -/
def remaining (db : MockPluginDatabase) (start st : Resolving) : ℕ :=
  (start.fullNames db \ (st.builder.toAdd.map fullName).toFinset).card +
    ((start.entries db).toFinset \ st.missingRecommends.toFinset).card +
    (unasked db (str "needs") st.builder.toAdd st.neededPlugins +
      unasked db (str "recommends") st.builder.toAdd st.recommendedPlugins)

section Remaining

variable {db : MockPluginDatabase} {qsort qsort' : Qsort} {addRecommends : Bool} {start st st₁ st' : Resolving}
  {which n : Str} {toAdd toAdd' : List PluginSpec} {needs needs' : List Str}

theorem asked_by_none : (toAdd.all fun ps => !(db.clause which ps).contains n) = true ↔
    ∀ ps ∈ toAdd, n ∉ db.clause which ps := by
  rw [List.all_eq_true]
  refine forall₂_congr fun ps _ => ?_
  rw [Bool.not_eq_true', ← Bool.not_eq_true, List.contains_iff_mem]

theorem unasked_le (hkept : ∀ p ∈ toAdd, ∃ p' ∈ toAdd', p'.path = p.path) (h : needs'.Sublist needs) :
    unasked db which toAdd' needs' ≤ unasked db which toAdd needs := by
  refine (List.Sublist.countP_le h).trans (List.countP_mono_left fun n _ hn => ?_)
  rw [asked_by_none] at hn ⊢
  intro p hp hclause
  obtain ⟨p', hp', hmem⟩ := exists_clause hkept ⟨p, hp, hclause⟩
  exact hn p' hp' hmem

theorem unasked_collect : unasked db which toAdd (collect db toAdd which needs) = unasked db which toAdd needs := by
  rw [unasked, unasked, collect, List.countP_append, Nat.add_eq_left, List.countP_eq_zero]
  intro n hn hall
  obtain ⟨ps, hps, hclause⟩ := List.mem_flatMap.mp hn
  exact asked_by_none.mp hall ps hps hclause

theorem unasked_lt (hkept : ∀ p ∈ toAdd, ∃ p' ∈ toAdd', p'.path = p.path)
    (hn : ∀ ps ∈ toAdd, n ∉ db.clause which ps) :
    unasked db which toAdd' needs < unasked db which toAdd (n :: needs) := by
  have hcons : unasked db which toAdd (n :: needs) = unasked db which toAdd needs + 1 :=
    List.countP_cons_of_pos (asked_by_none.mpr hn)
  rw [hcons, Nat.lt_succ_iff]
  exact unasked_le hkept (List.Sublist.refl needs)

theorem Inv.entries (h : Inv db start st) :
    (∀ n ∈ st.neededPlugins, n ∈ start.entries db) ∧ ∀ r ∈ st.recommendedPlugins, r ∈ start.entries db := by
  have hdata : ∀ {n : Str} {e}, e ∈ db.data →
      n ∈ db.clause (str "needs") e.1 ∨ n ∈ db.clause (str "recommends") e.1 → n ∈ start.entries db :=
    fun he hn => List.mem_append_right _ (List.mem_flatMap.mpr ⟨_, he, List.mem_append.mpr hn⟩)
  constructor
  · intro n hn
    obtain hstart | ⟨e, he, hclause⟩ := h.needs n hn
    · exact List.mem_append_left _ (List.mem_append_left _ hstart)
    · exact hdata he (.inl hclause)
  · intro r hr
    obtain hstart | ⟨ps, -, hclause⟩ := h.recommends r hr
    · exact List.mem_append_left _ (List.mem_append_right _ hstart)
    · obtain ⟨e, he, -, hmem⟩ := clause_data hclause
      exact hdata he (.inr hmem)

theorem mem_fullNames {n : Str} {plugin newPlugin : PluginSpec} (hp : Picked db plugin newPlugin)
    (h : plugin.refname ∈ db.listAllPlugins ∨ n ∈ start.entries db ∧ PluginSpec.ofFullName n = .ok plugin) :
    fullName newPlugin ∈ start.fullNames db := by
  refine Finset.mem_product.mpr ⟨List.mem_toFinset.mpr hp.known, List.mem_toFinset.mpr ?_⟩
  change newPlugin.refname ∈ _
  rw [hp.refname]
  obtain h | ⟨hn, hspec⟩ := h
  · exact List.mem_append_left _ h
  · refine List.mem_append_right _ (List.mem_filterMap.mpr ⟨n, hn, ?_⟩)
    rw [hspec]
    rfl

theorem Chosen.mem_fullNames {st₂ : Resolving} {plugin newPlugin : PluginSpec}
    (hc : Chosen db addRecommends st₁ (some plugin) st₂) (h : Inv db start st₁)
    (hp : Picked db plugin newPlugin) : fullName newPlugin ∈ start.fullNames db := by
  cases hc with
  | need hneeds hspec =>
    exact Resolving.mem_fullNames hp (.inr ⟨h.entries.1 _ (hneeds ▸ List.mem_cons_self), hspec⟩)
  | metadata hneeds hfirst hplugin =>
    obtain ⟨hknown, href, -⟩ := MockPluginDatabase.lookupMetadata_spec hplugin
    exact @Resolving.mem_fullNames _ _ [] _ _ hp (.inl (href ▸ hknown))
  | recommend hneeds hmetadata hrecommends hspec =>
    exact Resolving.mem_fullNames hp (.inr ⟨h.entries.2 _ (hrecommends ▸ List.mem_cons_self), hspec⟩)

theorem Chosen.sublist {plugin : Option PluginSpec} (hc : Chosen db addRecommends st₁ plugin st') :
    st'.neededPlugins.Sublist st₁.neededPlugins ∧ st'.recommendedPlugins.Sublist st₁.recommendedPlugins := by
  cases hc with
  | need hneeds => exact ⟨hneeds ▸ List.sublist_cons_self _ _, List.Sublist.refl _⟩
  | metadata => exact ⟨List.Sublist.refl _, List.Sublist.refl _⟩
  | recommend _ _ hrecommends => exact ⟨List.Sublist.refl _, hrecommends ▸ List.sublist_cons_self _ _⟩
  | missing _ _ hrecommends => exact ⟨List.Sublist.refl _, hrecommends ▸ List.sublist_cons_self _ _⟩
  | nothing => exact ⟨List.Sublist.refl _, List.Sublist.refl _⟩

theorem Collected.remaining_le (hc : Collected db st st₁) : remaining db start st₁ ≤ remaining db start st := by
  have hself : ∀ p ∈ st.builder.toAdd, ∃ p' ∈ st.builder.toAdd, p'.path = p.path := fun p hp => ⟨p, hp, rfl⟩
  rw [remaining, remaining, hc.builder, hc.missing, hc.needs]
  refine Nat.add_le_add_left (Nat.add_le_add ?_ ?_) _
  · exact (unasked_le hself (removeProvided_sublist _ _)).trans unasked_collect.le
  · exact (unasked_le hself (hc.rest.trans (removeProvided_sublist _ _))).trans unasked_collect.le

/-- **A round adds a new plugin, finds an entry missing or drops one**, unless the loop ends. -/
theorem Acted.remaining_lt (ha : Acted db qsort qsort' addRecommends st₁ st') (hc : Collected db st st₁)
    (h : Inv db start st₁) (hp : st'.pending addRecommends = true)
    (hfresh : ∀ n plugin st₂, numberSign ∈ n → st₁.choose db addRecommends = .ok (some plugin, st₂) →
      st₁.Asked db n → BackendBuilder.Fresh db.database st.builder plugin) :
    remaining db start st' < remaining db start st₁ := by
  have hkept := ha.kept
  cases ha with
  | idle hchosen =>
    cases hchosen with
    | @missing r recommends plugin hneeds hmetadata hrecommends hspec hmissing =>
      have hr : r ∈ st₁.recommendedPlugins := hrecommends ▸ List.mem_cons_self
      have hnew : r ∉ st₁.missingRecommends := hc.missing ▸ ((hc.recommends r).mp hr).2
      rw [remaining, remaining]
      refine Nat.add_lt_add_of_lt_of_le (Nat.add_lt_add_left (@card_sdiff_lt _ _ _ _ _ r (fun x hx => ?_)
        (List.mem_toFinset.mpr (h.entries.2 r hr)) (fun hmem => hnew (List.mem_toFinset.mp hmem)) ?_) _) ?_
      · exact List.mem_toFinset.mpr (List.mem_append_left _ (List.mem_toFinset.mp hx))
      · exact List.mem_toFinset.mpr (List.mem_append_right _ (List.mem_singleton_self r))
      · refine Nat.add_le_add_left (unasked_le hkept ?_) _
        rw [hrecommends]
        exact List.sublist_cons_self r recommends
    | nothing hneeds hmetadata hrecommends =>
      simp only [pending, hneeds, hmetadata, Bool.or_eq_true, Bool.and_eq_true, decide_eq_true_eq, ne_eq,
        not_true, or_self, false_or] at hp
      exact absurd (hrecommends hp.2) hp.1
  | @added plugin newPlugin st₂ backendConf b hchoose hadd hres hadds =>
    have hpicked := resolve_picked hres
    have hchosen := choose_chosen hchoose
    have hmem := hchosen.mem_fullNames h hpicked
    have hmissing : st₂.missingRecommends = st₁.missingRecommends := by cases hchosen <;> rfl
    have hname : ∀ {p q : PluginSpec}, p.path = q.path → fullName p = fullName q := fun hpath =>
      Prod.ext (PluginSpec.path_inj.mp hpath).1 (PluginSpec.path_inj.mp hpath).2
    have hsub : (st₁.builder.toAdd.map fullName).toFinset ⊆ (b.toAdd.map fullName).toFinset := by
      intro x hx
      obtain ⟨p, hp', rfl⟩ := List.mem_map.mp (List.mem_toFinset.mp hx)
      obtain ⟨p', hmem', hpath⟩ := hkept p hp'
      exact List.mem_toFinset.mpr (List.mem_map.mpr ⟨p', hmem', hname hpath⟩)
    have hle := Finset.card_le_card (Finset.sdiff_subset_sdiff (le_refl (start.fullNames db)) hsub)
    rw [remaining, remaining, hmissing]
    obtain hnew | hdropped | hdropped := hc.fresh hchoose fun n hn hasked => hfresh n _ _ hn hchoose hasked
    · -- the plugin is new
      refine Nat.add_lt_add_of_lt_of_le (Nat.add_lt_add_right (card_sdiff_lt hsub hmem (fun hx => ?_) ?_) _) ?_
      · obtain ⟨p, hp', he⟩ := List.mem_map.mp (List.mem_toFinset.mp hx)
        rw [hc.builder] at hres hp'
        refine hnew newPlugin backendConf hres p hp' (PluginSpec.fullName_inj.mpr ?_)
        exact PluginSpec.path_inj.mpr (Prod.mk.inj he)
      · obtain ⟨p', hmem', hpath⟩ := hadds.new
        exact List.mem_toFinset.mpr (List.mem_map.mpr ⟨p', hmem', hname hpath⟩)
      · exact Nat.add_le_add (unasked_le hkept hchosen.sublist.1) (unasked_le hkept hchosen.sublist.2)
    · -- nothing asks for the entry
      obtain ⟨n, hneeds, hn⟩ := hdropped
      refine Nat.add_lt_add_of_le_of_lt (Nat.add_le_add_right hle _) (Nat.add_lt_add_of_lt_of_le ?_ ?_)
      · rw [hneeds]
        exact unasked_lt hkept (hc.builder ▸ hn)
      · exact unasked_le hkept hchosen.sublist.2
    · obtain ⟨r, hrecommends, hr⟩ := hdropped
      refine Nat.add_lt_add_of_le_of_lt (Nat.add_le_add_right hle _) (Nat.add_lt_add_of_le_of_lt ?_ ?_)
      · exact unasked_le hkept hchosen.sublist.1
      · rw [hrecommends]
        exact unasked_lt hkept (hc.builder ▸ hr)

end Remaining

/-! ## The rounds that are as they are to be -/

/-- Entries that are missing were collected once, an entry with a reference name that one of the plugins asks
for leads to a new plugin, and what the last plugin needs is there. -/
structure Proper (db : MockPluginDatabase) (qsort qsort' : Qsort) (addRecommends : Bool) (st : Resolving) :
    Prop where
  counts : st.Counts db
  fresh : ∀ st₁ n plugin st₂, st.collected db = some st₁ → numberSign ∈ n →
    st₁.choose db addRecommends = .ok (some plugin, st₂) → st₁.Asked db n →
    BackendBuilder.Fresh db.database st.builder plugin
  last : st.LastComplete db qsort qsort' addRecommends

/-- The state before the first round. -/
def first (start : Resolving) : Resolving := { start with missingRecommends := [] }

section Spec

variable {db : MockPluginDatabase} {qsort qsort' : Qsort} {addRecommends : Bool} {start st st₁ st' : Resolving}
  {r : Resolved}

theorem inv_first (db : MockPluginDatabase) (start : Resolving) : Inv db start start.first where
  metadata _ h := .inl h
  needs _ h := .inl h
  recommends _ h := .inl h
  missing _ h := absurd h List.not_mem_nil

theorem round_inv (hsort : qsort.Sorts) (hsort' : qsort'.Sorts) (h : Inv db start st)
    (hr : st.round db qsort qsort' addRecommends = .again st') : Inv db start st' := by
  obtain ⟨st₁, hcol, hact, -⟩ := round_again.mp hr
  exact (act_acted hsort hsort' hact).inv ((collected_spec hcol).2.inv h)

/-- A call yields what its last round does, when no plugin has dependencies of its own. -/
theorem resolveNeeds_eq_some (hdep : start.dependencies db qsort qsort' start.builder.toAdd = none) :
    (∃ n, start.resolveNeeds db qsort qsort' addRecommends n = some r) ↔
      ∃ st, Loop.Reaches (round db qsort qsort' addRecommends) start.first st ∧
        st.round db qsort qsort' addRecommends = .done r := by
  rw [← loop_eq_some]
  refine exists_congr fun n => ?_
  rw [resolveNeeds, hdep]
  exact Iff.rfl

theorem dependencies_some : ∀ {toAdd : List PluginSpec},
    start.dependencies db qsort qsort' toAdd = some r → r = .undefined ∨ ∃ e, r = .throws e
  | [], h => by cases h
  | ps :: toAdd, h => by
    rw [dependencies] at h
    split at h
    · cases h
      exact .inr ⟨_, rfl⟩
    · exact dependencies_some h
    · split at h
      · cases h
        exact .inr ⟨_, rfl⟩
      · cases h
        exact .inl rfl

theorem round_undefined : st.round db qsort qsort' addRecommends = .done .undefined ↔ ¬st.Counts db := by
  unfold round
  cases hc : st.collected db with
  | none =>
    refine iff_of_true rfl fun hcounts => ?_
    obtain ⟨st₁, h⟩ := collected_of_counts hcounts
    rw [hc] at h
    cases h
  | some st₁ =>
    refine iff_of_false (fun h => ?_) (not_not.mpr (collected_spec hc).1)
    cases ha : st₁.act db qsort qsort' addRecommends with
    | error e =>
      simp only [ha] at h
      cases h
    | ok st₂ =>
      simp only [ha] at h
      split_ifs at h
      cases h

/-- **The rounds end** when an entry with a reference name leads to a new plugin. -/
theorem rounds_end (hsort : qsort.Sorts) (hsort' : qsort'.Sorts)
    (hproper : ∀ st, Loop.Reaches (round db qsort qsort' addRecommends) start.first st →
      st.Proper db qsort qsort' addRecommends) :
    ∃ st r, Loop.Reaches (round db qsort qsort' addRecommends) start.first st ∧ Inv db start st ∧
      st.round db qsort qsort' addRecommends = .done r := by
  refine @loop_ends _ _ _ _ (Inv db start) (remaining db start) (fun st hst hinv st' hr => ?_) (inv_first db start)
  obtain ⟨st₁, hcol, hact, hp⟩ := round_again.mp hr
  have hc := (collected_spec hcol).2
  refine ⟨round_inv hsort hsort' hinv hr, ?_⟩
  calc remaining db start st' < remaining db start st₁ :=
        (act_acted hsort hsort' hact).remaining_lt hc (hc.inv hinv) hp fun n plugin st₂ hn hchoose hasked =>
          (hproper st hst).fresh st₁ n plugin st₂ hcol hn hchoose hasked
    _ ≤ remaining db start st := hc.remaining_le

/-- **A call ends by an exception or with nothing missing when no plugin has dependencies of its own and each
round is as it is to be.** -/
theorem resolves_of_proper (hsort : qsort.Sorts) (hsort' : qsort'.Sorts)
    (hdep : start.dependencies db qsort qsort' start.builder.toAdd ≠ some .undefined)
    (hproper : ∀ st, Loop.Reaches (round db qsort qsort' addRecommends) start.first st →
      st.Proper db qsort qsort' addRecommends) :
    Resolves db qsort qsort' addRecommends start := by
  cases hd : start.dependencies db qsort qsort' start.builder.toAdd with
  | some r =>
    refine ⟨0, r, by rw [resolveNeeds, hd], ?_⟩
    obtain rfl | ⟨e, rfl⟩ := dependencies_some hd
    · exact hdep hd
    · trivial
  | none =>
    obtain ⟨st, r, hst, hinv, hr⟩ := @rounds_end db qsort qsort' addRecommends start hsort hsort' hproper
    obtain ⟨n, hn⟩ := (resolveNeeds_eq_some hd).mpr ⟨st, hst, hr⟩
    refine ⟨n, r, hn, ?_⟩
    cases r with
    | throws e => trivial
    | undefined => exact round_undefined.mp hr (hproper st hst).counts
    | returns st' =>
      obtain ⟨st₁, hcol, hact, hp⟩ := round_returns.mp hr
      exact (act_acted hsort hsort' hact).closed hcol hinv hp (hproper st hst).last

theorem lastComplete_of_closed (start : Resolving) (hsort : qsort.Sorts) (hsort' : qsort'.Sorts)
    (h : ∀ st', st.round db qsort qsort' addRecommends = .done (.returns st') →
      Closed db addRecommends start st') : st.LastComplete db qsort qsort' addRecommends := by
  rintro st₁ plugin st₂ newPlugin backendConf hcol hchoose hpending ⟨st₃, hadd⟩ hres
  have hc := (collected_spec hcol).2
  have hact : st₁.act db qsort qsort' addRecommends = .ok st₃ := by
    unfold act
    rw [hchoose]
    exact hadd
  have hmissing : st₂.missingRecommends = st.missingRecommends := by
    rw [← hc.missing]
    cases choose_chosen hchoose <;> rfl
  have hsame : st₂.builder = st.builder := (choose_chosen hchoose).builder.trans hc.builder
  obtain ⟨b, p, conf, rfl, hres', hadds⟩ := addPlugin_ok hsort hsort' hadd
  rw [hsame] at hres' hadds
  cases hres.symm.trans hres'
  have hclosed := h _ (round_returns.mpr ⟨st₁, hcol, hact, hpending⟩)
  obtain ⟨p', hp', hpath⟩ := hadds.new
  have hclause : ∀ which, db.clause which p' = db.clause which newPlugin :=
    MockPluginDatabase.clause_name (PluginSpec.path_inj.mp hpath).1
  have hold : ∀ q ∈ b.toAdd, ∃ q' ∈ st.builder.toAdd ++ [newPlugin], q'.path = q.path := fun q hq =>
    ⟨q, List.mem_append.mpr ((hadds.old q hq).imp_right List.mem_singleton.mpr), rfl⟩
  refine ⟨fun n hn => ?_, fun ht r hr => ?_⟩
  · exact (hclosed.needs p' hp' n (hclause _ ▸ hn)).mono hold
  · rw [← hmissing]
    exact (hclosed.recommends ht p' hp' r (hclause _ ▸ hr)).imp_left fun hs => hs.mono hold

/-- **A call that ends well had such rounds.** -/
theorem proper_of_resolves (hsort : qsort.Sorts) (hsort' : qsort'.Sorts)
    (hdep : start.dependencies db qsort qsort' start.builder.toAdd = none)
    (h : Resolves db qsort qsort' addRecommends start)
    (hst : Loop.Reaches (round db qsort qsort' addRecommends) start.first st) :
    st.Counts db ∧ st.LastComplete db qsort qsort' addRecommends := by
  obtain ⟨n, r, hn, hr⟩ := h
  -- a round that ends the loop yields what the call does
  have hdone : ∀ r', st.round db qsort qsort' addRecommends = .done r' → r' = r := by
    intro r' hr'
    obtain ⟨m, hm⟩ := (@resolveNeeds_eq_some db qsort qsort' addRecommends start _ hdep).mpr ⟨st, hst, hr'⟩
    rw [resolveNeeds, hdep] at hn hm
    exact loop_unique hm hn
  constructor
  · by_contra hcounts
    obtain rfl := hdone _ (round_undefined.mpr hcounts)
    exact hr
  · refine lastComplete_of_closed start hsort hsort' fun st' hst' => ?_
    obtain rfl := hdone _ hst'
    exact hr

end Spec

/-! ## A chain -/

theorem validate_a : validate (str "a") = true := by decide

theorem validate_b : validate (str "b") = true := by decide

theorem validate_c : validate (str "c") = true := by decide

/-- `a` needs `b`, and `b` needs `c`. -/
def chain : MockPluginDatabase where
  data := [(.ofName (str "a") validate_a, [(str "needs", str "b")]),
    (.ofName (str "b") validate_b, [(str "needs", str "c")]), (.ofName (str "c") validate_c, [])]
  checkconf := none
  what := []

/-- A plugin, and nothing else asked for. -/
def only (n : Str) (h : validate n = true) : Resolving := ⟨⟨[.ofName n h], []⟩, [], [], [], []⟩

def startA : Resolving := only (str "a") validate_a

def startB : Resolving := only (str "b") validate_b

/-- The names of the plugins that a call ends with. -/
def Resolved.names : Resolved → Option (List Str)
  | .returns st => some (st.builder.toAdd.map PluginSpec.name)
  | _ => none

end Resolving

end Elektra.Tools
