import Elektra.Plugin.Base64
import Elektra.Tools.Star

/-!
# The order of the plugins

A plugin that lists another one in its `ordering` is not to stand before it.

* `Unambiguous`: the condition on the plugins and their words under which `sort` returns;
* **`sort_spec`**;
* `Satisfies`, `Ordered`: what `addPlugin` is documented to do; **`addPlugin_ordered`**.

The defect is that a key that a word stands for depends on all others, not on those that list it: two
of them depend on each other.
-/

namespace Elektra.Tools

/-! ## The keys of the plugins as a star -/

/-- The place of the key with this index. -/
def pathAt (toAdd : List PluginSpec) (k : KeyRef) : Path :=
  ((toAdd[k]?).map PluginSpec.path).getD ⟨.cascading, []⟩

/-- At most one name begins with a word, and if it begins with two, the last plugin of the name is
behind those of all other names, by the decimals of the indices. -/
structure Unambiguous (toAdd : List PluginSpec) (words : List Str) : Prop where
  one : ∀ ps ∈ toAdd, ∀ ps' ∈ toAdd, 0 < hits words ps.path → 0 < hits words ps'.path → ps.path = ps'.path
  behind : ∀ i ps, toAdd[i]? = some ps → IsLast toAdd i → 2 ≤ hits words ps.path →
    ∀ j, IsLast toAdd j → j ≠ i → compare (digits j) (digits i) = .lt

section Star

variable {toAdd : List PluginSpec} {h : Heap} {deps : KeySet} {words : List Str}

theorem pathAt_eq {k : ℕ} {ps : PluginSpec} (hk : toAdd[k]? = some ps) : pathAt toAdd k = ps.path := by
  rw [pathAt, hk]
  rfl

theorem Deps.spec (hd : Deps toAdd h deps) {k : KeyRef} (hk : k ∈ deps.array) :
    ∃ ps, toAdd[k]? = some ps ∧ IsDep ps k (h.cell k) ∧ pathAt toAdd k = ps.path := by
  obtain ⟨ps, hps, -⟩ := (hd.mem_array k).mp hk
  exact ⟨ps, hps, hd.dep k ps hps, pathAt_eq hps⟩

theorem Deps.named (hd : Deps toAdd h deps) : Named h deps.array (pathAt toAdd) where
  name k hk := by
    obtain ⟨ps, -, hdep, hpath⟩ := hd.spec hk
    rw [hpath]
    exact hdep.name
  owner k hk := by
    obtain ⟨ps, -, hdep, -⟩ := hd.spec hk
    exact hdep.other _ (by decide)
  inj k hk k' hk' he := by
    obtain ⟨ps, hps, -, hpath⟩ := hd.spec hk
    obtain ⟨ps', hps', -, hpath'⟩ := hd.spec hk'
    exact hd.unique hk hk' hps hps' (hpath.symm.trans (he.trans hpath'))
  unlocked k hk := by
    obtain ⟨ps, -, hdep, -⟩ := hd.spec hk
    exact hdep.roMeta
  nodup := hd.holds.sorted.nodup

theorem Deps.depending (hd : Deps toAdd h deps) :
    Depending h h deps.array (dependencies (pathAt toAdd) deps.array []) := by
  refine ⟨fun k => MetaOnly.refl _, fun k hk => ?_, fun _ _ _ => rfl⟩
  obtain ⟨ps, -, hdep, -⟩ := hd.spec hk
  refine ⟨hdep.other _ (by decide), fun i => hdep.other _ fun he => ?_⟩
  have hhead : some (100 : UInt8) = some 111 := congrArg List.head? he
  exact absurd hhead (by decide)

theorem not_backslash_path (ps : PluginSpec) : ¬ BackslashPart ps.path.escaped := by
  have hn := plain_of_validate ps.validName
  have he : elektraEscapeKeyNamePart ps.namePart.1 = ps.name := escape_plain hn.1 hn.2
  unfold PluginSpec.path Path.escaped
  split_ifs
  · show ¬ AllBackslashes (elektraEscapeKeyNamePart ps.namePart.1)
    rw [he]
    exact not_allBackslashes hn.1 hn.2
  · exact id

theorem Deps.star (hd : Deps toAdd h deps) (words : List Str) :
    Star (words.foldl (dependOn deps.array) h) deps.array (pathAt toAdd)
      fun k => hits words (pathAt toAdd k) := by
  have hn := hd.named
  have hall := depending_orders hn [] words hd.depending
  rw [List.nil_append] at hall
  refine ⟨⟨fun k hk => hall.name hn hk, fun k hk => ?_, hn.inj, fun k hk => hall.roMeta hn hk, hn.nodup⟩,
    fun k hk => ?_, hall.array, fun k hk => ?_⟩
  · rw [hall.other k _ (by decide)]
    exact hn.owner k hk
  · obtain ⟨ps, -, -, hpath⟩ := hd.spec hk
    rw [hpath]
    exact ⟨rfl, not_backslash_path ps⟩
  · obtain ⟨ps, -, hdep, -⟩ := hd.spec hk
    rw [hall.other k _ (by decide)]
    exact hdep.order

theorem Deps.oneStar_iff (hd : Deps toAdd h deps) (words : List Str) :
    OneStar deps.array (fun k => hits words (pathAt toAdd k)) ↔ Unambiguous toAdd words := by
  constructor
  · rintro ⟨hone, hbehind⟩
    refine ⟨fun ps hps ps' hps' hr hr' => ?_, fun i ps hi hlast hr j hj hne => ?_⟩
    · obtain ⟨i, hi⟩ := List.mem_iff_getElem?.mp hps
      obtain ⟨j, hj⟩ := List.mem_iff_getElem?.mp hps'
      obtain ⟨k, hk, a, ha, hpath⟩ := hd.exists_mem hi
      obtain ⟨k', hk', a', ha', hpath'⟩ := hd.exists_mem hj
      have he := hone k hk k' hk' (by rw [pathAt_eq ha, hpath]; exact hr) (by rw [pathAt_eq ha', hpath']; exact hr')
      subst he
      obtain rfl := Option.some.inj (ha.symm.trans ha')
      exact hpath.symm.trans hpath'
    · refine hbehind i ((hd.mem_array i).mpr hlast) ?_ j ((hd.mem_array j).mpr hj) hne
      rw [pathAt_eq hi]
      exact hr
  · rintro ⟨hone, hbehind⟩
    refine ⟨fun k hk k' hk' hr hr' => ?_, fun k hk hr j hj hne => ?_⟩
    · obtain ⟨ps, hps, -, hpath⟩ := hd.spec hk
      obtain ⟨ps', hps', -, hpath'⟩ := hd.spec hk'
      rw [hpath] at hr
      rw [hpath'] at hr'
      exact hd.unique hk hk' hps hps'
        (hone ps (List.mem_of_getElem? hps) ps' (List.mem_of_getElem? hps') hr hr')
    · obtain ⟨ps, hps, -, hpath⟩ := hd.spec hk
      rw [hpath] at hr
      exact hbehind k ps hps ((hd.mem_array k).mp hk) hr j ((hd.mem_array j).mp hj) hne

end Star

/-! ## Sorting -/

section Sorting

variable {db : PluginDatabase} {toAdd : List PluginSpec} {infos : List Str} {qsort qsort' : Qsort}

/-- What the database says of `ordering`. -/
def lookupOrdering (db : PluginDatabase) (toAdd : List PluginSpec) : Except BuilderException (List Str) :=
  toAdd.mapM fun ps => db.lookupInfo ps (str "ordering")

theorem sort_spec (hsort : qsort.Sorts) (hsort' : qsort'.Sorts) (hne : toAdd ≠ [])
    (hinfos : lookupOrdering db toAdd = .ok infos) :
    (Unambiguous toAdd (orders infos) → ∃ ordered : List KeyRef, ordered.Perm (depsOf toAdd).2.array ∧
      (ordered.Pairwise fun k i => k ≠ i → hits (orders infos) (pathAt toAdd k) = 0) ∧
      BackendBuilder.sort qsort qsort' db toAdd =
        .ok (ordered.filterMap (fun o => toAdd[o]?) ++ toAdd.drop ordered.length)) ∧
    (¬ Unambiguous toAdd (orders infos) →
      BackendBuilder.sort qsort qsort' db toAdd = .error .cyclicOrderingViolation) := by
  have hd := deps_depsOf toAdd
  have hstar := hd.star (orders infos)
  have hone := hd.oneStar_iff (orders infos)
  have hall := depending_orders hd.named [] (orders infos) hd.depending
  have hkeys : (depsOf toAdd).2.array ≠ [] := by
    obtain ⟨ps, hps⟩ := List.exists_mem_of_ne_nil _ hne
    obtain ⟨i, hi⟩ := List.mem_iff_getElem?.mp hps
    obtain ⟨k, hk, -⟩ := hd.exists_mem hi
    exact List.ne_nil_of_mem hk
  obtain ⟨hok, herr⟩ := sortTopology_star qsort qsort' hsort hsort' hstar hkeys
  unfold lookupOrdering at hinfos
  refine ⟨fun hun => ?_, fun hun => ?_⟩
  · obtain ⟨h', ordered, hret, hperm, hpair⟩ := hok (hone.mpr hun)
    have horder := orderOnly_sortTopology qsort qsort' _ _ _ hret
    -- the values are the indices still
    have hvalue : ∀ o ∈ ordered, toAdd[atoi (keyString (h'.cell o))]? = toAdd[o]? := by
      intro o ho
      obtain ⟨ps, -, hdep, -⟩ := hd.spec (hperm.mem_iff.mp ho)
      obtain ⟨_, _, honly⟩ := (hall.only o).trans (horder o).1
      have hbinary : keyIsBinary (h'.cell o) = false := by
        have hnone := hdep.other (str "binary") (by decide)
        rw [← hall.other o _ (by decide), ← (horder o).2 _ (by decide)] at hnone
        rw [keyIsBinary, hnone]
        rfl
      have hdata : (h'.cell o).data = stringData (digits o) := by
        rw [honly]
        exact hdep.data
      have hzero : (0 : UInt8) ∉ digits o := fun h0 => absurd (isdigit_digits o 0 h0) (by decide)
      rw [keyString_of_data hbinary hzero hdata, atoi_digits]
    refine ⟨ordered, hperm, ?_, ?_⟩
    · refine hpair.imp_of_mem fun {k i} hk hi hnot hne => ?_
      by_contra hpos
      exact hnot (hstar.dependsOn_iff.mpr
        ⟨hperm.mem_iff.mp hk, hperm.mem_iff.mp hi, Ne.symm hne, Nat.pos_of_ne_zero hpos⟩)
    · unfold BackendBuilder.sort
      dsimp only
      rw [hinfos]
      dsimp only [bind, Except.bind]
      rw [hret]
      exact congrArg (fun l => Except.ok (l ++ toAdd.drop ordered.length)) (List.filterMap_congr hvalue)
  · obtain ⟨h', hret⟩ := herr (mt hone.mp hun)
    unfold BackendBuilder.sort
    dsimp only
    rw [hinfos]
    dsimp only [bind, Except.bind]
    rw [hret]
    rfl

end Sorting

/-! ## Orders of the plugins -/

/-- `a` lists `b` in its `ordering`. -/
def Lists (db : PluginDatabase) (a b : PluginSpec) : Prop :=
  ∃ info, db.lookupInfo a (str "ordering") = .ok info ∧ b.name ∈ words info

/-- No plugin stands before one that lists it. -/
def Satisfies (db : PluginDatabase) (l : List PluginSpec) : Prop := l.Pairwise fun x y => ¬ Lists db y x

/-- What a call is documented to do, for the plugins added so far: it throws if they cannot be ordered, and
orders them otherwise. -/
structure Ordered (db : PluginDatabase) (added : List PluginSpec)
    (r : Option BuilderException × BackendBuilder) : Prop where
  throws : r.1 = some .cyclicOrderingViolation ↔ ¬ ∃ l, l.Perm added ∧ Satisfies db l
  sorted : r.1 ≠ some .cyclicOrderingViolation → r.1 = none ∧ r.2.toAdd.Perm added ∧ Satisfies db r.2.toAdd

section Ordering

variable {db : PluginDatabase} {toAdd : List PluginSpec} {infos : List Str} {qsort qsort' : Qsort}

theorem mem_of_mapM {α β : Type} {f : α → Except BuilderException β} : ∀ {l : List α} {r : List β},
    l.mapM f = .ok r → ∀ {a b}, a ∈ l → f a = .ok b → b ∈ r
  | x :: l, r, h, a, b, ha, hab => by
    rw [List.mapM_cons] at h
    cases hx : f x with
    | error e =>
      rw [hx] at h
      cases h
    | ok y =>
      rw [hx] at h
      cases hl : l.mapM f with
      | error e =>
        rw [hl] at h
        cases h
      | ok ys =>
        rw [hl] at h
        obtain rfl := Except.ok.inj h
        obtain rfl | ha := List.mem_cons.mp ha
        · rw [Except.ok.inj (hab.symm.trans hx)]
          exact List.mem_cons_self
        · exact List.mem_cons_of_mem y (mem_of_mapM hl ha hab)

theorem hits_of_lists (hinfos : lookupOrdering db toAdd = .ok infos) {a b : PluginSpec} (ha : a ∈ toAdd)
    (hab : Lists db a b) : 0 < hits (orders infos) b.path := by
  obtain ⟨info, hinfo, hword⟩ := hab
  have hmem : info ∈ infos := mem_of_mapM hinfos ha hinfo
  refine List.countP_pos_iff.mpr ⟨b.name, ?_, ?_⟩
  · rw [orders, List.mem_eraseDups]
    exact List.mem_flatMap.mpr ⟨info, hmem, hword⟩
  · rw [PluginSpec.path_name, List.drop_one, List.tail_cons, List.isPrefixOf_iff_prefix]
    exact List.prefix_append _ _

theorem filterMap_range {α : Type} : ∀ l : List α, (List.range l.length).filterMap (fun i => l[i]?) = l
  | [] => rfl
  | a :: l => by
    have htail : ((List.range l.length).map Nat.succ).filterMap (fun i => (a :: l)[i]?) = l := by
      rw [List.filterMap_map]
      exact filterMap_range l
    rw [List.length_cons, List.range_succ_eq_map]
    exact congrArg (a :: ·) htail

theorem perm_filterMap {ordered : List KeyRef} (h : ordered.Perm (List.range toAdd.length)) :
    (ordered.filterMap (fun o => toAdd[o]?) ++ toAdd.drop ordered.length).Perm toAdd := by
  have hlen : ordered.length = toAdd.length := by rw [h.length_eq, List.length_range]
  rw [hlen, List.drop_length, List.append_nil]
  exact (h.filterMap _).trans (List.Perm.of_eq (filterMap_range toAdd))

/-- **Plugins of different names are sorted as they are to be, or there is a cycle.** -/
theorem sort_ordered (hsort : qsort.Sorts) (hsort' : qsort'.Sorts) (hne : toAdd ≠ [])
    (hnodup : (toAdd.map PluginSpec.path).Nodup) (hinfos : lookupOrdering db toAdd = .ok infos)
    (hun : Unambiguous toAdd (orders infos)) : ∃ l, BackendBuilder.sort qsort qsort' db toAdd = .ok l ∧
      l.Perm toAdd ∧ Satisfies db l := by
  obtain ⟨ordered, hperm, hpair, hret⟩ := (sort_spec hsort hsort' hne hinfos).1 hun
  have hd := deps_depsOf toAdd
  have hrange := hperm.trans (hd.perm hnodup)
  have hlen : ordered.length = toAdd.length := by rw [hrange.length_eq, List.length_range]
  refine ⟨_, hret, perm_filterMap hrange, ?_⟩
  rw [hlen, List.drop_length, List.append_nil]
  refine List.pairwise_filterMap.mpr ((hpair.and (hrange.nodup_iff.mpr List.nodup_range)).imp ?_)
  rintro k i ⟨hzero, hne⟩ x hx y hy hlists
  have hpos := hits_of_lists hinfos (List.mem_of_getElem? hy) hlists
  rw [← pathAt_eq hx, hzero hne] at hpos
  exact lt_irrefl 0 hpos

theorem sort_error {e : BuilderException} (hinfos : lookupOrdering db toAdd = .error e) :
    BackendBuilder.sort qsort qsort' db toAdd = .error e := by
  unfold lookupOrdering at hinfos
  unfold BackendBuilder.sort
  dsimp only
  rw [hinfos]
  rfl

theorem sort_perm (hsort : qsort.Sorts) (hsort' : qsort'.Sorts) (hne : toAdd ≠ [])
    (hnodup : (toAdd.map PluginSpec.path).Nodup) {l : List PluginSpec}
    (hret : BackendBuilder.sort qsort qsort' db toAdd = .ok l) : l.Perm toAdd := by
  cases hinfos : lookupOrdering db toAdd with
  | error e =>
    rw [sort_error hinfos] at hret
    cases hret
  | ok infos =>
    by_cases hun : Unambiguous toAdd (orders infos)
    · obtain ⟨l', hret', hperm, -⟩ := sort_ordered hsort hsort' hne hnodup hinfos hun
      obtain rfl := Except.ok.inj (hret.symm.trans hret')
      exact hperm
    · rw [(sort_spec hsort hsort' hne hinfos).2 hun] at hret
      cases hret

theorem sort_paths (hsort : qsort.Sorts) (hsort' : qsort'.Sorts) (hne : toAdd ≠ []) {l : List PluginSpec}
    (hret : BackendBuilder.sort qsort qsort' db toAdd = .ok l) :
    (∀ p ∈ l, p ∈ toAdd) ∧ ∀ p ∈ toAdd, ∃ p' ∈ l, p'.path = p.path := by
  cases hinfos : lookupOrdering db toAdd with
  | error e =>
    rw [sort_error hinfos] at hret
    cases hret
  | ok infos =>
    by_cases hun : Unambiguous toAdd (orders infos)
    · obtain ⟨ordered, hperm, -, hret'⟩ := (sort_spec hsort hsort' hne hinfos).1 hun
      obtain rfl := Except.ok.inj (hret.symm.trans hret')
      refine ⟨fun p hp => ?_, fun p hp => ?_⟩
      · obtain hp | hp := List.mem_append.mp hp
        · obtain ⟨o, -, ho⟩ := List.mem_filterMap.mp hp
          exact List.mem_of_getElem? ho
        · exact List.mem_of_mem_drop hp
      · obtain ⟨i, hi⟩ := List.mem_iff_getElem?.mp hp
        obtain ⟨k, hk, p', hp', hpath⟩ := (deps_depsOf toAdd).exists_mem hi
        exact ⟨p', List.mem_append_left _ (List.mem_filterMap.mpr ⟨k, hperm.mem_iff.mpr hk, hp'⟩), hpath⟩
    · rw [(sort_spec hsort hsort' hne hinfos).2 hun] at hret
      cases hret

end Ordering

/-! ## Calls -/

namespace BackendBuilder

/-- What a call appends has the name of none of the plugins. -/
def Fresh (db : PluginDatabase) (b : BackendBuilder) (plugin : PluginSpec) : Prop :=
  ∀ newPlugin backendConf, b.resolve db plugin = .ok (newPlugin, backendConf) →
    ∀ p ∈ b.toAdd, p.getFullName ≠ newPlugin.getFullName

/-- The builders that calls lead to. -/
inductive Calls (db : PluginDatabase) : BackendBuilder → Prop
  | init (backendConf : List Key) : Calls db ⟨[], backendConf⟩
  | call {b : BackendBuilder} {qsort qsort' : Qsort} (plugin : PluginSpec) : Calls db b → qsort.Sorts →
    qsort'.Sorts → Fresh db b plugin → Calls db (b.addPlugin db plugin qsort qsort').2

section Calls

variable {db : PluginDatabase} {b : BackendBuilder} {plugin newPlugin : PluginSpec} {backendConf : List Key}
  {infos : List Str} {qsort qsort' : Qsort}

theorem nodup_concat (h : (b.toAdd.map PluginSpec.path).Nodup) (hfresh : Fresh db b plugin)
    (hres : b.resolve db plugin = .ok (newPlugin, backendConf)) :
    ((b.toAdd ++ [newPlugin]).map PluginSpec.path).Nodup := by
  rw [List.map_append, List.map_singleton]
  refine List.nodup_append.mpr ⟨h, List.nodup_singleton _, fun x hx y hy => ?_⟩
  obtain rfl := List.mem_singleton.mp hy
  obtain ⟨p, hp, rfl⟩ := List.mem_map.mp hx
  exact fun he => hfresh newPlugin backendConf hres p hp (PluginSpec.fullName_inj.mpr he)

theorem Calls.nodup (hb : Calls db b) : (b.toAdd.map PluginSpec.path).Nodup := by
  induction hb with
  | init => exact List.nodup_nil
  | @call b qsort qsort' plugin _ hsort hsort' hfresh ih =>
    unfold addPlugin
    cases hres : b.resolve db plugin with
    | error e => exact ih
    | ok r =>
      obtain ⟨newPlugin, conf⟩ := r
      have hnodup := nodup_concat ih hfresh hres
      dsimp only
      cases hrun : sort qsort qsort' db (b.toAdd ++ [newPlugin]) with
      | error e => exact hnodup
      | ok l =>
        have hl := sort_perm hsort hsort' (List.append_ne_nil_of_right_ne_nil _ (List.cons_ne_nil _ _)) hnodup hrun
        exact ((hl.map PluginSpec.path).nodup_iff).mpr hnodup

theorem addPlugin_of_ok {l : List PluginSpec} (hres : b.resolve db plugin = .ok (newPlugin, backendConf))
    (hrun : sort qsort qsort' db (b.toAdd ++ [newPlugin]) = .ok l) :
    b.addPlugin db plugin qsort qsort' = (none, ⟨l, backendConf⟩) := by
  rw [addPlugin, hres]
  dsimp only
  rw [hrun]

theorem addPlugin_of_error {e : BuilderException}
    (hres : b.resolve db plugin = .ok (newPlugin, backendConf))
    (hrun : sort qsort qsort' db (b.toAdd ++ [newPlugin]) = .error e) :
    b.addPlugin db plugin qsort qsort' = (some e, ⟨b.toAdd ++ [newPlugin], backendConf⟩) := by
  rw [addPlugin, hres]
  dsimp only
  rw [hrun]

/-- **In every run of calls that append new names, a call orders the plugins or finds that they cannot
be ordered, exactly when no two names begin with words, or they cannot be ordered.** -/
theorem addPlugin_ordered (hb : Calls db b) (hsort : qsort.Sorts) (hsort' : qsort'.Sorts)
    (hfresh : Fresh db b plugin) (hres : b.resolve db plugin = .ok (newPlugin, backendConf))
    (hinfos : lookupOrdering db (b.toAdd ++ [newPlugin]) = .ok infos) :
    Ordered db (b.toAdd ++ [newPlugin]) (b.addPlugin db plugin qsort qsort') ↔
      Unambiguous (b.toAdd ++ [newPlugin]) (orders infos) ∨
        ¬ ∃ l, l.Perm (b.toAdd ++ [newPlugin]) ∧ Satisfies db l := by
  have hne : b.toAdd ++ [newPlugin] ≠ [] := List.append_ne_nil_of_right_ne_nil _ (List.cons_ne_nil _ _)
  have hnodup := nodup_concat hb.nodup hfresh hres
  by_cases hun : Unambiguous (b.toAdd ++ [newPlugin]) (orders infos)
  · obtain ⟨l, hret, hperm, hsat⟩ := sort_ordered hsort hsort' hne hnodup hinfos hun
    rw [addPlugin_of_ok hres hret]
    exact ⟨fun _ => Or.inl hun, fun _ => ⟨⟨nofun, fun hnot => absurd ⟨l, hperm, hsat⟩ hnot⟩,
      fun _ => ⟨rfl, hperm, hsat⟩⟩⟩
  · have hthrow := (sort_spec hsort hsort' hne hinfos).2 hun
    rw [addPlugin_of_error hres hthrow, or_iff_right hun]
    exact ⟨fun h => h.throws.mp rfl, fun hnot => ⟨⟨fun _ => hnot, fun _ => rfl⟩, fun h => absurd rfl h⟩⟩

end Calls

/-! ## Two listed plugins -/

/-- A plugin without reference name. -/
def plain (n : Str) (hn : validate n = true) : PluginSpec := ⟨n, n, [], hn, by rw [validRefName, hn, Bool.true_or]⟩

/-- The plugin `a` lists `b` and `c`. -/
def listing : PluginDatabase where
  lookupProvides n := if hn : validate n = true then .ok (plain n hn) else .error (.noPlugin n)
  lookupInfo ps which := .ok (if ps.name = str "a" ∧ which = str "ordering" then str "b c" else [])
  checkconf _ := none

def pluginA : PluginSpec := plain (str "a") (by decide)

def pluginB : PluginSpec := plain (str "b") (by decide)

def pluginC : PluginSpec := plain (str "c") (by decide)

theorem addPlugin_ordered_first : Ordered listing [pluginA] (init.addPlugin listing pluginA (sortOf id) (sortOf id)) ↔
    Unambiguous [pluginA] (orders [str "b c"]) ∨ ¬ ∃ l, l.Perm [pluginA] ∧ Satisfies listing l :=
  addPlugin_ordered (.init []) (sortOf_sorts fun l => .refl l) (sortOf_sorts fun l => .refl l)
    (fun _ _ _ _ hp => absurd hp List.not_mem_nil) (by rfl) (by rfl)

/-- The builder with `a` and `b`. -/
def twoAdded : BackendBuilder :=
  ((init.addPlugin listing pluginA (sortOf id) (sortOf id)).2.addPlugin listing pluginB (sortOf id) (sortOf id)).2

/-- **`a`, `b`, `c` are ordered as they are to be, but adding `c` throws.** -/
theorem not_addPlugin_ordered :
    twoAdded.toAdd.map PluginSpec.name = [str "a", str "b"] ∧
      (twoAdded.addPlugin listing pluginC (sortOf id) (sortOf id)).1 = some .cyclicOrderingViolation ∧
      Satisfies listing [pluginA, pluginB, pluginC] := by
  refine ⟨by decide +kernel, by decide +kernel, ?_⟩
  have hlists : ∀ x ∈ [pluginB, pluginC], ∀ y, ¬ Lists listing x y := by
    rintro x hx y ⟨info, hinfo, hword⟩
    have hnil : info = [] := by
      simp only [List.mem_cons, List.not_mem_nil, or_false] at hx
      obtain rfl | rfl := hx
      · exact (Except.ok.inj hinfo).symm
      · exact (Except.ok.inj hinfo).symm
    rw [hnil, show words [] = [] by decide] at hword
    exact absurd hword List.not_mem_nil
  refine List.pairwise_cons.mpr ⟨fun y hy => hlists y hy _, List.pairwise_cons.mpr ⟨fun y hy => ?_,
    List.pairwise_singleton _ _⟩⟩
  exact hlists y (List.mem_cons_of_mem _ hy) _

end BackendBuilder

end Elektra.Tools
