import Elektra.Tools.Placement
import Elektra.Tools.Ordering

/-!
# Calls that throw

* `Passes`, `Counts`: whether the checks of a list return, and whether they leave a counter changed;
* `Backend.Clean`, `BackendBuilder.Clean`: the calls that return, or leave the object as it was;
* **`addPlugin_unchanged`**.

The defects are that the lists count a plugin that a later check rejects, and that the builder appends
before it sorts.
-/

namespace Elektra.Tools

/-! ## The counters of a list -/

section Counts

/-- The plugin is a storage that the list counts. -/
def countsStorage (plugin : Plugin) (storage : Bool) : Bool :=
  storage && plugin.findInfo (str "storage") (str "provides")

def countsResolver (plugin : Plugin) : Bool := plugin.findInfo (str "resolver") (str "provides")

/-- The checks of a list return. -/
def Passes (p : Plugins) (plugin : Plugin) (symbol : Str) (storage : Bool)
    (checks : Except PluginCheckException Bool) : Prop :=
  checks = .ok false ∨ (checks = .ok true ∧ plugin.hasSymbol symbol = true ∧
    (countsStorage plugin storage = true → p.nrStoragePlugins = 0) ∧
    (countsResolver plugin = true → p.nrResolverPlugins = 0))

/-- The checks count the plugin as a storage, or as a resolver. -/
def Counts (p : Plugins) (plugin : Plugin) (symbol : Str) (storage : Bool)
    (checks : Except PluginCheckException Bool) : Prop :=
  checks = .ok true ∧ plugin.hasSymbol symbol = true ∧
    (countsStorage plugin storage = true → p.nrStoragePlugins = 0) ∧
    (countsStorage plugin storage = true ∨ countsResolver plugin = true ∧ p.nrResolverPlugins = 0)

variable {p : Plugins} {plugin : Plugin}

theorem checkStorage_first (h : p.nrStoragePlugins ≤ 1)
    (hs : plugin.findInfo (str "storage") (str "provides") = true) :
    p.checkStorage plugin = if p.nrStoragePlugins = 0 then (none, { p with nrStoragePlugins := 1 })
      else (some .storagePlugin, p) := by
  unfold Plugins.checkStorage
  rw [hs]
  dsimp only
  rw [if_pos rfl]
  by_cases h0 : p.nrStoragePlugins = 0
  · rw [if_neg (by dsimp only; omega), if_pos h0, h0]
  · rw [if_pos (by dsimp only; omega), if_neg h0]
    exact congrArg (Prod.mk _) (congrArg (fun n => { p with nrStoragePlugins := n }) (Nat.add_sub_cancel _ _))

theorem checkStorage_other (h : p.nrStoragePlugins ≤ 1)
    (hs : plugin.findInfo (str "storage") (str "provides") = false) : p.checkStorage plugin = (none, p) := by
  unfold Plugins.checkStorage
  rw [hs]
  dsimp only
  rw [if_neg Bool.false_ne_true, if_neg (not_lt.mpr h)]

theorem checkResolver_first (h : p.nrResolverPlugins ≤ 1) (hr : countsResolver plugin = true) :
    p.checkResolver plugin = if p.nrResolverPlugins = 0 then (none, { p with nrResolverPlugins := 1 })
      else (some .resolverPlugin, p) := by
  unfold countsResolver at hr
  unfold Plugins.checkResolver
  rw [hr]
  dsimp only
  rw [if_pos rfl]
  by_cases h0 : p.nrResolverPlugins = 0
  · rw [if_neg (by dsimp only; omega), if_pos h0, h0]
  · rw [if_pos (by dsimp only; omega), if_neg h0]
    exact congrArg (Prod.mk _) (congrArg (fun n => { p with nrResolverPlugins := n }) (Nat.add_sub_cancel _ _))

theorem checkResolver_other (h : p.nrResolverPlugins ≤ 1) (hr : countsResolver plugin = false) :
    p.checkResolver plugin = (none, p) := by
  unfold countsResolver at hr
  unfold Plugins.checkResolver
  rw [hr]
  dsimp only
  rw [if_neg Bool.false_ne_true, if_neg (not_lt.mpr h)]

theorem storageCheck_eq (h : AtMostOne p) (storage : Bool) :
    (if storage = true then p.checkStorage plugin else (none, p)) =
      if countsStorage plugin storage = true then
        if p.nrStoragePlugins = 0 then (none, { p with nrStoragePlugins := 1 }) else (some .storagePlugin, p)
      else (none, p) := by
  unfold countsStorage
  cases storage with
  | false => rfl
  | true =>
    rw [if_pos rfl, Bool.true_and]
    cases hs : plugin.findInfo (str "storage") (str "provides") with
    | true => exact checkStorage_first h.1 hs
    | false => exact checkStorage_other h.1 hs

theorem resolverCheck_eq (h : p.nrResolverPlugins ≤ 1) : p.checkResolver plugin =
    if countsResolver plugin = true then
      if p.nrResolverPlugins = 0 then (none, { p with nrResolverPlugins := 1 }) else (some .resolverPlugin, p)
    else (none, p) := by
  cases hr : countsResolver plugin with
  | true => exact checkResolver_first h hr
  | false => exact checkResolver_other h hr

/-- **The checks of a list return exactly when they pass, and leave the list as it was exactly when they
count nothing.** -/
theorem tryCounts_iff (h : AtMostOne p) (symbol : Str) (storage : Bool)
    (checks : Except PluginCheckException Bool) :
    ((p.tryCounts plugin symbol storage checks).1 = none ↔ Passes p plugin symbol storage checks) ∧
    ((p.tryCounts plugin symbol storage checks).2 = p ↔ ¬ Counts p plugin symbol storage checks) := by
  unfold Passes Counts
  match checks with
  | .error e => exact ⟨iff_of_false nofun (by rintro (h | ⟨h, -⟩) <;> cases h), iff_of_true rfl fun h => by cases h.1⟩
  | .ok false => exact ⟨iff_of_true rfl (Or.inl rfl), iff_of_true rfl fun h => by cases h.1⟩
  | .ok true =>
    unfold Plugins.tryCounts
    dsimp only
    cases hsym : plugin.hasSymbol symbol with
    | false =>
      exact ⟨iff_of_false nofun (by rintro (h | ⟨-, h, -⟩) <;> cases h), iff_of_true rfl fun h => by cases h.2.1⟩
    | true =>
      have hne : (1 : ℕ) ≠ 0 := one_ne_zero
      have hno : ¬ (Except.ok true : Except PluginCheckException Bool) = .ok false := nofun
      rw [Bool.not_true, if_neg Bool.false_ne_true, storageCheck_eq h, or_iff_right hno, and_iff_right rfl,
        and_iff_right rfl, and_iff_right rfl, and_iff_right rfl]
      by_cases hs : countsStorage plugin storage = true
      · rw [if_pos hs]
        by_cases hs0 : p.nrStoragePlugins = 0
        · -- the storage is counted, and stays so
          have hchanged : ∀ p' : Plugins, p'.nrStoragePlugins = 1 → p' ≠ p := by
            rintro p' hp' rfl
            exact hne (hp'.symm.trans hs0)
          rw [if_pos hs0]
          dsimp only
          rw [@resolverCheck_eq { p with nrStoragePlugins := 1 } plugin h.2]
          by_cases hr : countsResolver plugin = true
          · rw [if_pos hr]
            by_cases hr0 : p.nrResolverPlugins = 0
            · rw [if_pos hr0]
              exact ⟨iff_of_true rfl ⟨fun _ => hs0, fun _ => hr0⟩,
                iff_of_false (hchanged _ rfl) fun hn => hn ⟨fun _ => hs0, Or.inl hs⟩⟩
            · rw [if_neg hr0]
              exact ⟨iff_of_false nofun fun hp => hr0 (hp.2 hr),
                iff_of_false (hchanged _ rfl) fun hn => hn ⟨fun _ => hs0, Or.inl hs⟩⟩
          · rw [if_neg hr]
            exact ⟨iff_of_true rfl ⟨fun _ => hs0, fun h => absurd h hr⟩,
              iff_of_false (hchanged _ rfl) fun hn => hn ⟨fun _ => hs0, Or.inl hs⟩⟩
        · rw [if_neg hs0]
          exact ⟨iff_of_false nofun fun hp => hs0 (hp.1 hs), iff_of_true rfl fun hc => hs0 (hc.1 hs)⟩
      · rw [if_neg hs]
        dsimp only
        rw [resolverCheck_eq h.2]
        have hvac : countsStorage plugin storage = true → p.nrStoragePlugins = 0 := fun h => absurd h hs
        by_cases hr : countsResolver plugin = true
        · rw [if_pos hr]
          by_cases hr0 : p.nrResolverPlugins = 0
          · have hchanged : ({ p with nrResolverPlugins := 1 } : Plugins) ≠ p := fun he =>
              hne ((congrArg Plugins.nrResolverPlugins he).trans hr0)
            rw [if_pos hr0]
            exact ⟨iff_of_true rfl ⟨hvac, fun _ => hr0⟩,
              iff_of_false hchanged fun hn => hn ⟨hvac, Or.inr ⟨hr, hr0⟩⟩⟩
          · rw [if_neg hr0]
            exact ⟨iff_of_false nofun fun hp => hr0 (hp.2 hr),
              iff_of_true rfl fun hc => hc.2.elim hs fun h => hr0 h.2⟩
        · rw [if_neg hr]
          exact ⟨iff_of_true rfl ⟨hvac, fun h => absurd h hr⟩, iff_of_true rfl fun hc => hc.2.elim hs fun h => hr h.1⟩

end Counts

/-! ## Backends -/

namespace Backend

/-- The checks of the error list before it counts. -/
def errorChecks (b : Backend) (plugin : Plugin) : Except PluginCheckException Bool := do
  b.errorplugins.checkOrdering plugin
  b.errorplugins.checkConflicts plugin
  b.errorplugins.checkPlacements plugin errorPlacements

def ErrorPasses (b : Backend) (plugin : Plugin) : Prop :=
  Passes b.errorplugins plugin (str "error") false (b.errorChecks plugin)

def GetPasses (b : Backend) (plugin : Plugin) : Prop :=
  Passes b.getplugins plugin (str "get") true (b.getplugins.checkPlacements plugin getPlacements)

def SetPasses (b : Backend) (plugin : Plugin) : Prop :=
  Passes b.setplugins plugin (str "set") true (b.setplugins.checkPlacements plugin setPlacements)

/-- The plugin is accepted. -/
structure Accepts (b : Backend) (plugin : Plugin) : Prop where
  error : b.ErrorPasses plugin
  get : b.GetPasses plugin
  set : b.SetPasses plugin
  new : ∀ elem ∈ b.plugins, plugin.fullName ≠ elem.fullName

/-- No list that is asked counts the plugin. -/
structure Uncounted (b : Backend) (plugin : Plugin) : Prop where
  error : ¬ Counts b.errorplugins plugin (str "error") false (b.errorChecks plugin)
  get : b.ErrorPasses plugin →
    ¬ Counts b.getplugins plugin (str "get") true (b.getplugins.checkPlacements plugin getPlacements)
  set : b.ErrorPasses plugin → b.GetPasses plugin →
    ¬ Counts b.setplugins plugin (str "set") true (b.setplugins.checkPlacements plugin setPlacements)

/-- The call returns, or no list has counted the plugin when it throws. -/
def Clean {Spec : Type} (load : Load Spec) (b : Backend) (spec : Spec) : Prop :=
  ∀ plugin, load spec = .ok plugin → b.Accepts plugin ∨ b.Uncounted plugin

section Unchanged

variable {Spec : Type} {load : Load Spec} {b : Backend} {spec : Spec} {plugin : Plugin}

theorem lists_eq_iff {pe pg ps : Plugins} :
    ({ b with errorplugins := pe, getplugins := pg, setplugins := ps } : Backend) = b ↔
      pe = b.errorplugins ∧ pg = b.getplugins ∧ ps = b.setplugins := by
  obtain ⟨g, s, e, c, l⟩ := b
  rw [Backend.mk.injEq]
  exact ⟨fun ⟨hg, hs, he, _⟩ => ⟨he, hg, hs⟩, fun ⟨he, hg, hs⟩ => ⟨hg, hs, he, rfl, rfl⟩⟩

theorem addPlugin_fst : (b.addPlugin load spec).1 = none ↔ ∃ plugin, (b.tryPlugin load spec).1 = .ok plugin := by
  unfold addPlugin
  generalize b.tryPlugin load spec = r
  obtain ⟨e | plugin, b'⟩ := r
  · exact iff_of_false nofun nofun
  · exact iff_of_true rfl ⟨plugin, rfl⟩

theorem addPlugin_snd (h : (b.addPlugin load spec).1 ≠ none) :
    (b.addPlugin load spec).2 = (b.tryPlugin load spec).2 := by
  unfold addPlugin at h ⊢
  generalize b.tryPlugin load spec = r at h ⊢
  obtain ⟨e | plugin, b'⟩ := r
  · rfl
  · exact absurd rfl h

theorem tryPlugin_iff (hone : Single b) (hload : load spec = .ok plugin) :
    ((∃ x, (b.tryPlugin load spec).1 = .ok x) ↔ b.Accepts plugin) ∧
    (¬ b.Accepts plugin → ((b.tryPlugin load spec).2 = b ↔ b.Uncounted plugin)) := by
  obtain ⟨hep, hec⟩ := @tryCounts_iff b.errorplugins plugin hone.error (str "error") false (b.errorChecks plugin)
  obtain ⟨hgp, hgc⟩ := @tryCounts_iff b.getplugins plugin hone.get (str "get") true
    (b.getplugins.checkPlacements plugin getPlacements)
  obtain ⟨hsp, hsc⟩ := @tryCounts_iff b.setplugins plugin hone.set (str "set") true
    (b.setplugins.checkPlacements plugin setPlacements)
  unfold tryPlugin GetPlugins.tryPlugin SetPlugins.tryPlugin
  rw [hload]
  dsimp only
  rw [show ErrorPlugins.tryPlugin b.errorplugins plugin =
    b.errorplugins.tryCounts plugin (str "error") false (b.errorChecks plugin) from rfl]
  generalize b.errorplugins.tryCounts plugin (str "error") false (b.errorChecks plugin) = re at hep hec ⊢
  generalize b.getplugins.tryCounts plugin (str "get") true
    (b.getplugins.checkPlacements plugin getPlacements) = rg at hgp hgc ⊢
  generalize b.setplugins.tryCounts plugin (str "set") true
    (b.setplugins.checkPlacements plugin setPlacements) = rs at hsp hsc ⊢
  obtain ⟨_ | e, pe⟩ := re
  · have he : b.ErrorPasses plugin := hep.mp rfl
    obtain ⟨_ | e, pg⟩ := rg
    · have hg : b.GetPasses plugin := hgp.mp rfl
      have hall : ({ b with errorplugins := pe, getplugins := pg, setplugins := rs.2 } : Backend) = b ↔
          b.Uncounted plugin := by
        rw [lists_eq_iff]
        exact ⟨fun ⟨h1, h2, h3⟩ => ⟨hec.mp h1, fun _ => hgc.mp h2, fun _ _ => hsc.mp h3⟩,
          fun h => ⟨hec.mpr h.error, hgc.mpr (h.get he), hsc.mpr (h.set he hg)⟩⟩
      obtain ⟨_ | e, ps⟩ := rs
      · dsimp only
        split_ifs with hdup
        · refine ⟨iff_of_false nofun fun hacc => ?_, fun _ => hall⟩
          obtain ⟨elem, hmem, hname⟩ := List.any_eq_true.mp hdup
          exact hacc.new elem hmem (of_decide_eq_true hname)
        · have hacc : b.Accepts plugin := by
            refine ⟨he, hg, hsp.mp rfl, fun elem hmem hname => hdup ?_⟩
            exact List.any_eq_true.mpr ⟨elem, hmem, decide_eq_true hname⟩
          exact ⟨iff_of_true ⟨plugin, rfl⟩ hacc, fun h => absurd hacc h⟩
      · exact ⟨iff_of_false nofun fun hacc => Option.some_ne_none e (hsp.mpr hacc.set), fun _ => hall⟩
    · refine ⟨iff_of_false nofun fun hacc => Option.some_ne_none e (hgp.mpr hacc.get), fun _ => ?_⟩
      have hnot : ¬ b.GetPasses plugin := fun h => Option.some_ne_none e (hgp.mpr h)
      refine (@lists_eq_iff b pe pg b.setplugins).trans ?_
      exact ⟨fun ⟨h1, h2, _⟩ => ⟨hec.mp h1, fun _ => hgc.mp h2, fun _ h => absurd h hnot⟩,
        fun h => ⟨hec.mpr h.error, hgc.mpr (h.get he), rfl⟩⟩
  · refine ⟨iff_of_false nofun fun hacc => Option.some_ne_none e (hep.mpr hacc.error), fun _ => ?_⟩
    have hnot : ¬ b.ErrorPasses plugin := fun h => Option.some_ne_none e (hep.mpr h)
    refine (@lists_eq_iff b pe b.getplugins b.setplugins).trans ?_
    exact ⟨fun ⟨h1, _⟩ => ⟨hec.mp h1, fun h => absurd h hnot, fun h => absurd h hnot⟩,
      fun h => ⟨hec.mpr h.error, rfl, rfl⟩⟩

/-- **A call on a backend that throws leaves it as it was exactly when it is clean.** -/
theorem unchanged_iff (hone : Single b) :
    ((b.addPlugin load spec).1 ≠ none → (b.addPlugin load spec).2 = b) ↔ Clean load b spec := by
  unfold Clean
  cases hload : load spec with
  | error e =>
    have htry : b.tryPlugin load spec = (.error e, b) := by rw [tryPlugin, hload]
    refine iff_of_true (fun h => ?_) fun _ hx => by cases hx
    rw [addPlugin_snd h, htry]
  | ok plugin =>
    obtain ⟨hok, hsame⟩ := @tryPlugin_iff Spec load b spec plugin hone hload
    constructor
    · rintro h x hx
      obtain rfl := Except.ok.inj hx
      by_cases hacc : b.Accepts plugin
      · exact Or.inl hacc
      · have hthrow : (b.addPlugin load spec).1 ≠ none := mt addPlugin_fst.mp (mt hok.mp hacc)
        exact Or.inr ((hsame hacc).mp ((addPlugin_snd hthrow).symm.trans (h hthrow)))
    · intro h hthrow
      have hacc : ¬ b.Accepts plugin := fun hacc => hthrow (addPlugin_fst.mpr (hok.mpr hacc))
      rw [addPlugin_snd hthrow]
      exact (hsame hacc).mpr ((h plugin rfl).resolve_left hacc)

/-- The backends that calls lead to. -/
inductive Run (load : Load Spec) : Backend → Prop
  | init : Run load Backend.init
  | call {b : Backend} (spec : Spec) : Run load b → Run load (b.addPlugin load spec).2

theorem Run.single {b : Backend} (h : Run load b) : Single b := by
  induction h with
  | init => exact good_init.single
  | @call b spec _ ih =>
    cases hload : load spec with
    | error e =>
      have htry : b.tryPlugin load spec = (.error e, b) := by rw [tryPlugin, hload]
      rw [addPlugin, htry]
      exact ih
    | ok plugin =>
      have htried := (@tryPlugin_spec Spec load b spec plugin ih hload).single
      unfold addPlugin
      generalize b.tryPlugin load spec = r at htried ⊢
      obtain ⟨e | x, b'⟩ := r
      · exact htried
      · exact ⟨atMostOne_addPlacements htried.error, atMostOne_addPlacements htried.get,
          atMostOne_addPlacements htried.set⟩

end Unchanged

end Backend

/-! ## Builders -/

namespace BackendBuilder

/-- The call throws before it appends, or the plugins can be sorted. -/
def Clean (db : PluginDatabase) (b : BackendBuilder) (plugin : PluginSpec) : Prop :=
  ∀ newPlugin backendConf, b.resolve db plugin = .ok (newPlugin, backendConf) →
    ∃ infos, lookupOrdering db (b.toAdd ++ [newPlugin]) = .ok infos ∧
      Unambiguous (b.toAdd ++ [newPlugin]) (orders infos)

section Unchanged

variable {db : PluginDatabase} {b : BackendBuilder} {plugin : PluginSpec} {qsort qsort' : Qsort}

theorem sort_isOk_iff (hsort : qsort.Sorts) (hsort' : qsort'.Sorts) {toAdd : List PluginSpec} (hne : toAdd ≠ []) :
    (∃ l, sort qsort qsort' db toAdd = .ok l) ↔
      ∃ infos, lookupOrdering db toAdd = .ok infos ∧ Unambiguous toAdd (orders infos) := by
  cases hinfos : lookupOrdering db toAdd with
  | error e =>
    rw [sort_error hinfos]
    exact iff_of_false nofun nofun
  | ok infos =>
    obtain ⟨hok, herr⟩ := sort_spec hsort hsort' hne hinfos
    constructor
    · rintro ⟨l, hl⟩
      refine ⟨infos, rfl, ?_⟩
      by_contra hun
      rw [herr hun] at hl
      cases hl
    · rintro ⟨_, he, hun⟩
      obtain rfl := Except.ok.inj he
      obtain ⟨_, -, -, hl⟩ := hok hun
      exact ⟨_, hl⟩

/-- **A call on a builder that throws leaves it as it was exactly when it is clean.** -/
theorem unchanged_iff (hsort : qsort.Sorts) (hsort' : qsort'.Sorts) :
    ((b.addPlugin db plugin qsort qsort').1 ≠ none → (b.addPlugin db plugin qsort qsort').2 = b) ↔
      Clean db b plugin := by
  unfold Clean
  cases hres : b.resolve db plugin with
  | error e =>
    refine iff_of_true (fun _ => ?_) fun _ _ he => by cases he
    rw [addPlugin, hres]
  | ok r =>
    obtain ⟨newPlugin, backendConf⟩ := r
    have hne : b.toAdd ++ [newPlugin] ≠ [] := List.append_ne_nil_of_right_ne_nil _ (List.cons_ne_nil _ _)
    have hisOk := @sort_isOk_iff db qsort qsort' hsort hsort' (b.toAdd ++ [newPlugin]) hne
    have hforall : (∀ p conf, (.ok (newPlugin, backendConf) : Except BuilderException _) = .ok (p, conf) →
        ∃ infos, lookupOrdering db (b.toAdd ++ [p]) = .ok infos ∧ Unambiguous (b.toAdd ++ [p]) (orders infos)) ↔
        ∃ l, sort qsort qsort' db (b.toAdd ++ [newPlugin]) = .ok l := by
      rw [hisOk]
      constructor
      · exact fun h => h newPlugin backendConf rfl
      · rintro h p conf he
        cases he
        exact h
    rw [hforall]
    cases hrun : sort qsort qsort' db (b.toAdd ++ [newPlugin]) with
    | ok l =>
      rw [addPlugin_of_ok hres hrun]
      exact iff_of_true (fun h => absurd rfl h) ⟨l, rfl⟩
    | error e =>
      rw [addPlugin_of_error hres hrun]
      refine iff_of_false (fun h => ?_) (by rintro ⟨l, hl⟩; cases hl)
      have hlen := congrArg (fun b : BackendBuilder => b.toAdd.length) (h (Option.some_ne_none e))
      rw [List.length_append, List.length_singleton] at hlen
      omega

end Unchanged

end BackendBuilder

/-! ## Backends and builders -/

/-- **A call of `addPlugin` that throws leaves the object as it was exactly when it is clean.** -/
theorem addPlugin_unchanged {Spec : Type} {load : Load Spec} {backend : Backend}
    (hrun : Backend.Run load backend) (spec : Spec) (db : PluginDatabase) (builder : BackendBuilder)
    (plugin : PluginSpec) {qsort qsort' : Qsort} (hsort : qsort.Sorts) (hsort' : qsort'.Sorts) :
    (((backend.addPlugin load spec).1 ≠ none → (backend.addPlugin load spec).2 = backend) ↔
      Backend.Clean load backend spec) ∧
    (((builder.addPlugin db plugin qsort qsort').1 ≠ none →
        (builder.addPlugin db plugin qsort qsort').2 = builder) ↔
      BackendBuilder.Clean db builder plugin) :=
  ⟨Backend.unchanged_iff hrun.single, BackendBuilder.unchanged_iff hsort hsort'⟩

/-- The first resolver has no `get`, the second one has. -/
def resolvers : Load Bool := fun complete => .ok
  { name := str "resolver"
    fullName := str "resolver"
    lookupInfo item :=
      if item = str "placements" then str "rollback getresolver setresolver commit"
      else if item = str "provides" then str "resolver" else []
    hasSymbol symbol := complete || symbol ≠ str "get"
    neededConfig := [] }

open BackendBuilder in
theorem addPlugin_unchanged_resolvers :
    (((Backend.init.addPlugin resolvers true).1 ≠ none → (Backend.init.addPlugin resolvers true).2 = Backend.init) ↔
      Backend.Clean resolvers Backend.init true) ∧
    (((init.addPlugin listing pluginA (sortOf id) (sortOf id)).1 ≠ none →
        (init.addPlugin listing pluginA (sortOf id) (sortOf id)).2 = init) ↔
      BackendBuilder.Clean listing init pluginA) :=
  addPlugin_unchanged .init true listing init pluginA (sortOf_sorts fun l => .refl l)
    (sortOf_sorts fun l => .refl l)

/-- **A resolver that is rejected is counted, so the next one is rejected too; and a plugin that cannot be
ordered stays in the builder.** -/
theorem not_addPlugin_unchanged :
    (Backend.init.addPlugin resolvers true).1 = none ∧
      (Backend.init.addPlugin resolvers false).1 = some (.missingSymbol (str "get")) ∧
      ((Backend.init.addPlugin resolvers false).2.addPlugin resolvers true).1 = some .resolverPlugin ∧
      (BackendBuilder.twoAdded.addPlugin BackendBuilder.listing BackendBuilder.pluginC (sortOf id) (sortOf id)).1 =
        some .cyclicOrderingViolation ∧
      (BackendBuilder.twoAdded.addPlugin BackendBuilder.listing BackendBuilder.pluginC (sortOf id)
        (sortOf id)).2.toAdd.length = BackendBuilder.twoAdded.toAdd.length + 1 := by
  decide +kernel

end Elektra.Tools
