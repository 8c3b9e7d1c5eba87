import Elektra.Context.Bound

/-!
# The names of contextual values

After an event, every value has the name that its specification has under the context, as long as the
answers of the layers do not change by themselves: the observers that listen to a layer that has changed
have looked for their keys anew, and the name of no other value mentions it.

* `Extends`: keys that are added only;
* `build_frame`, `rollback_of_notMem`: a chain changes the layers on its stack only;
* `Current`, `update_current`, `act_current`: a step keeps the names;
* **`run_current`**.
-/

namespace Elektra.ContextualValue

open Contextual

/-! ## Keys that are kept -/

/-- No name gets lost, and the keys that there were keep their names. -/
structure Extends (ks ks' : Keys) : Prop where
  next : ks.next ≤ ks'.next
  name : ∀ k, k < ks.next → ks'.name k = ks.name k
  content : ∀ n, ks.content n ≠ none → ks'.content n ≠ none

section Extends

variable {ι : Type} {T : ι → Type} {S : Values ι T} {ks ks' ks'' : Keys} {i : ι} {k : KeyRef}

theorem Extends.refl (ks : Keys) : Extends ks ks := ⟨le_rfl, fun _ _ => rfl, fun _ h => h⟩

theorem Extends.trans (h : Extends ks ks') (h' : Extends ks' ks'') : Extends ks ks'' :=
  ⟨h.next.trans h'.next, fun k hk => (h'.name k (hk.trans_le h.next)).trans (h.name k hk),
    fun n hn => h'.content n (h.content n hn)⟩

theorem append_content_ne (ks : Keys) (info : KeyInfo) (value : Str) :
    (ks.append info value).2.content info.name ≠ none :=
  (Function.update_self _ _ _).trans_ne (Option.some_ne_none (ks.entry info))

theorem extends_append (ks : Keys) (info : KeyInfo) (value : Str) : Extends ks (ks.append info value).2 := by
  refine ⟨Nat.le_succ _, fun _ hk => Function.update_of_ne hk.ne _ _, fun n hn => ?_⟩
  by_cases he : n = info.name
  · rw [he]
    exact append_content_ne ks info value
  · exact (Function.update_of_ne he _ _).trans_ne hn

theorem extends_setString (ks : Keys) (k : KeyRef) (value : Str) : Extends ks (ks.setString k value) :=
  ⟨le_rfl, fun _ _ => rfl, fun _ h => h⟩

theorem extends_get {depth : ℕ} {s : Spec} (h : DefaultGetPolicy.get depth ks s = some (k, ks')) :
    Extends ks ks' := by
  rw [DefaultGetPolicy.get] at h
  split at h
  · cases h
  · cases h
    exact .refl ks
  · obtain ⟨name, -, hadd⟩ := Option.map_eq_some_iff.mp h
    obtain ⟨-, rfl⟩ := Prod.mk.inj hadd
    exact extends_append ks _ _
  · obtain ⟨-, rfl⟩ := Prod.mk.inj (Option.some.inj h)
    exact extends_append ks _ _

theorem extends_update {evaluatedName : Str}
    (h : unsafeUpdateKeyUsingContext S ks i evaluatedName = some (k, ks')) : Extends ks ks' := by
  obtain ⟨_, -, hget⟩ := Option.bind_eq_some_iff.mp h
  exact extends_get hget

theorem extends_sync {v v' : Value (T i)} (h : unsafeSyncKeySet S ks i v = some (v', ks')) :
    Extends ks ks' := by
  rw [unsafeSyncKeySet] at h
  split_ifs at h
  · obtain ⟨_, -, h⟩ := Option.bind_eq_some_iff.mp h
    cases h
    exact (extends_append ks _ _).trans (extends_setString _ _ _)
  · cases h
    exact extends_setString ks _ _

end Extends

/-! ## Layers that a chain leaves alone -/

section Chains

variable {V : Type} {c : Context Str V} {P : Layer Str V → Prop}

/-- All layers of a context are such. -/
structure Layered (P : Layer Str V → Prop) (c : Context Str V) : Prop where
  active : ∀ id layer, c.activeLayers id = some layer → P layer
  stack : ∀ p ∈ c.withStack, ∀ layer, p.2 = some layer → P layer

theorem chainCall_frame (c : Context Str V) (call : ChainCall Str V) :
    c.withStack <+: (c.chainCall call).withStack ∧
    ∀ id, id ∉ (c.chainCall call).withStack.map Prod.fst →
      (c.chainCall call).activeLayers id = c.activeLayers id := by
  have hpush : ∀ (layer : Layer Str V) (x y : Option (Layer Str V)) (id : Str),
      id ∉ (c.withStack ++ [(layer.id, y)]).map Prod.fst →
        Function.update c.activeLayers layer.id x id = c.activeLayers id := by
    intro layer x y id hid
    refine Function.update_of_ne (fun he => hid ?_) _ _
    rw [he]
    exact List.mem_map.mpr ⟨_, List.mem_append_right _ List.mem_cons_self, rfl⟩
  cases call with
  | «with» layer => exact ⟨List.prefix_append _ _, fun id hid => hpush layer _ _ id hid⟩
  | without layer =>
    rw [Context.chainCall, Context.lazyDeactivateLayer]
    cases hlayer : c.activeLayers layer.id with
    | none => exact ⟨List.prefix_refl _, fun _ _ => rfl⟩
    | some old => exact ⟨List.prefix_append _ _, fun id hid => hpush layer _ _ id hid⟩

theorem build_frame (chain : List (ChainCall Str V)) (c : Context Str V) :
    c.withStack <+: (c.build chain).withStack ∧
    ∀ id, id ∉ (c.build chain).withStack.map Prod.fst →
      (c.build chain).activeLayers id = c.activeLayers id := by
  induction chain generalizing c with
  | nil => exact ⟨List.prefix_refl _, fun _ _ => rfl⟩
  | cons call chain ih =>
    obtain ⟨hstack, hlayers⟩ := chainCall_frame c call
    obtain ⟨hstack', hlayers'⟩ := ih (c.chainCall call)
    refine ⟨hstack.trans hstack', fun id hid => (hlayers' id hid).trans (hlayers id fun hm => hid ?_)⟩
    exact (hstack'.map Prod.fst).subset hm

theorem rollback_of_notMem {layers : Str → Option (Layer Str V)} {id : Str} :
    ∀ {withStack : List (Str × Option (Layer Str V))}, id ∉ withStack.map Prod.fst →
      rollback withStack layers id = layers id
  | [], _ => rfl
  | p :: withStack, h => by
    rw [List.map_cons, List.mem_cons, not_or] at h
    exact (Function.update_of_ne h.1 _ _).trans (rollback_of_notMem h.2)

theorem Layered.update (h : Layered P c) {id : Str} {x : Option (Layer Str V)}
    (hx : ∀ layer, x = some layer → P layer) :
    ∀ id' layer, Function.update c.activeLayers id x id' = some layer → P layer := by
  intro id' layer hlayer
  by_cases hid : id' = id
  · rw [hid, Function.update_self] at hlayer
    exact hx layer hlayer
  · rw [Function.update_of_ne hid] at hlayer
    exact h.active id' layer hlayer

theorem Layered.push (h : Layered P c) (id : Str) :
    ∀ p ∈ c.withStack ++ [(id, c.activeLayers id)], ∀ layer, p.2 = some layer → P layer := by
  intro p hp layer hlayer
  obtain hp | hp := List.mem_append.mp hp
  · exact h.stack p hp layer hlayer
  · rw [List.mem_singleton.mp hp] at hlayer
    exact h.active id layer hlayer

theorem Layered.build {chain : List (ChainCall Str V)} (h : Layered P c)
    (hchain : ∀ layer, .with layer ∈ chain → P layer) : Layered P (c.build chain) := by
  induction chain generalizing c with
  | nil => exact h
  | cons call chain ih =>
    refine ih ?_ fun layer hm => hchain layer (List.mem_cons_of_mem _ hm)
    cases call with
    | «with» layer =>
      have hlayer : ∀ layer', some layer = some layer' → P layer' := by
        rintro _ ⟨⟩
        exact hchain layer List.mem_cons_self
      exact ⟨h.update hlayer, h.push layer.id⟩
    | without layer =>
      rw [Context.chainCall, Context.lazyDeactivateLayer]
      cases hlayer : c.activeLayers layer.id with
      | none => exact h
      | some old =>
        have hpush := h.push layer.id
        rw [hlayer] at hpush
        exact ⟨h.update fun _ hnone => (Option.some_ne_none _ hnone.symm).elim, hpush⟩

theorem layered_rollback {withStack : List (Str × Option (Layer Str V))}
    {layers : Str → Option (Layer Str V)} (hl : ∀ id layer, layers id = some layer → P layer)
    (hs : ∀ p ∈ withStack, ∀ layer, p.2 = some layer → P layer) :
    ∀ id layer, rollback withStack layers id = some layer → P layer := by
  induction withStack with
  | nil => exact hl
  | cons p withStack ih =>
    intro id layer hlayer
    change Function.update (rollback withStack layers) p.1 p.2 id = some layer at hlayer
    by_cases hid : id = p.1
    · rw [hid, Function.update_self] at hlayer
      exact hs p List.mem_cons_self layer hlayer
    · rw [Function.update_of_ne hid] at hlayer
      exact ih (fun q hq => hs q (List.mem_cons_of_mem p hq)) id layer hlayer

end Chains

/-! ## Evaluated names -/

/-- A layer that answers the same always. -/
def Fixed {ι : Type} (layer : Layer Str (Answer ι)) : Prop :=
  ∀ strings strings', layer.value strings = layer.value strings'

/-- The layers of an event are such. -/
def Event.Fixed {ι : Type} {T : ι → Type} : Event ι T → Prop
  | .activate layer => ContextualValue.Fixed layer
  | .enter chain => ∀ layer, .with layer ∈ chain → ContextualValue.Fixed layer
  | .construct _ | .assign _ _ | .deactivate _ | .leave => True

section Current

variable {ι : Type} [LinearOrder ι] {T : ι → Type} {S : Values ι T} {s s' : State ι T} {i j : ι}
  {l : List ι}

/-- The name of the key of a value is the one of its specification under the context. -/
def Named (S : Values ι T) (s : State ι T) (i : ι) (v : Value (T i)) : Prop :=
  setName (s.evaluatedName S i) = some (cascadingName (s.keys.name v.key)) ∨
    s.evaluatedName S i = cascadingName (s.keys.name v.key)

/-- All values but those of a list have their names. -/
structure Current (S : Values ι T) (l : List ι) (s : State ι T) : Prop where
  layers : ∀ id layer, s.context.activeLayers id = some layer → Fixed layer
  stack : s.context.withStack = []
  calls : ∀ withStack ∈ s.calls, ∀ p ∈ withStack, ∀ layer, p.2 = some layer → Fixed layer
  observers : ∀ i, (s.values i).isSome → i ∈ s.observers
  old : ∀ i v, s.values i = some v → v.key < s.keys.next
  named : ∀ i v, s.values i = some v → i ∉ l → Named S s i v

omit [LinearOrder ι] in
theorem current_start (ks : Keys) : Current S [] (State.start ks) where
  layers _ _ h := nomatch h
  stack := rfl
  calls _ h := nomatch h
  observers _ h := nomatch h
  old _ _ h := nomatch h
  named _ _ h := nomatch h

omit [LinearOrder ι] in
theorem answers_eq (hl : ∀ id layer, s.context.activeLayers id = some layer → Fixed layer) {id : Str}
    (hc : s'.context.activeLayers id = s.context.activeLayers id) : s'.answers id = s.answers id := by
  rw [State.answers, State.answers, hc]
  cases hlayer : s.context.activeLayers id with
  | none => rfl
  | some layer => exact congrArg some (hl id layer hlayer _ _)

omit [LinearOrder ι] in
theorem evaluatedName_eq (hl : ∀ id layer, s.context.activeLayers id = some layer → Fixed layer)
    (hc : ∀ id ∈ attached (S.spec i).name, s'.context.activeLayers id = s.context.activeLayers id) :
    s'.evaluatedName S i = s.evaluatedName S i :=
  evaluate_congr fun id hid => answers_eq hl (hc id hid)

omit [LinearOrder ι] in
theorem Current.but (h : Current S l s) (i : ι) : Current S (i :: l) s :=
  ⟨h.layers, h.stack, h.calls, h.observers, h.old, fun j v hv hj =>
    h.named j v hv (List.not_mem_of_not_mem_cons hj)⟩

theorem Current.bind (h : Current S (i :: l) s) {ks : Keys} {v : Value (T i)} (hext : Extends s.keys ks)
    (hcontext : s'.context = s.context) (hcalls : s'.calls = s.calls)
    (hobservers : ∀ j, j = i ∨ j ∈ s.observers → j ∈ s'.observers) (hkeys : s'.keys = ks)
    (hvalues : s'.values = Function.update s.values i (some v)) (hold : v.key < ks.next)
    (hnamed : setName (s.evaluatedName S i) = some (cascadingName (ks.name v.key)) ∨
      s.evaluatedName S i = cascadingName (ks.name v.key)) : Current S l s' := by
  have heval : ∀ j, s'.evaluatedName S j = s.evaluatedName S j := fun j =>
    evaluatedName_eq h.layers fun id _ => by rw [hcontext]
  refine ⟨?_, ?_, ?_, fun j hj => ?_, fun j w hw => ?_, fun j w hw hjl => ?_⟩
  · rw [hcontext]
    exact h.layers
  · rw [hcontext]
    exact h.stack
  · rw [hcalls]
    exact h.calls
  · by_cases hji : j = i
    · exact hobservers j (.inl hji)
    · rw [hvalues, Function.update_of_ne hji] at hj
      exact hobservers j (.inr (h.observers j hj))
  · rw [hkeys]
    rw [hvalues] at hw
    by_cases hji : j = i
    · subst hji
      rw [Function.update_self] at hw
      cases hw
      exact hold
    · rw [Function.update_of_ne hji] at hw
      exact (h.old j w hw).trans_le hext.next
  · rw [Named, heval, hkeys]
    rw [hvalues] at hw
    by_cases hji : j = i
    · subst hji
      rw [Function.update_self] at hw
      cases hw
      exact hnamed
    · rw [Function.update_of_ne hji] at hw
      rw [hext.name _ (h.old j w hw)]
      exact h.named j w hw (List.not_mem_cons_of_ne_of_not_mem hji hjl)

theorem construct_current (hs : ∀ i, Plain (S.spec i)) (h : Current S l s)
    (hrun : s.construct S i = some s') : Current S l s' := by
  obtain ⟨k, ks, cache, -, hget, -, rfl⟩ := State.construct_cases hrun
  obtain ⟨n, hset, hrebound⟩ := rebound hs (head_evaluate _ (hs i).name) hget
  refine (h.but i).bind (extends_update hget) rfl rfl (fun j hj => ?_) rfl rfl (mem_of_found hrebound.found).2
    (.inl ?_)
  · rw [List.mem_orderedInsert]
    exact hj
  · rw [name_of_found hrebound.isName.head hrebound.found]
    exact hset

theorem update_current (hs : ∀ i, Plain (S.spec i)) (h : Current S (i :: l) s)
    (hrun : s.updateContext S i = some s') : Current S l s' := by
  have hkeep : (∀ v, s.values i = some v → Named S s i v) → Current S l s := fun hi =>
    ⟨h.layers, h.stack, h.calls, h.observers, h.old, fun j w hw hj => by
      by_cases hji : j = i
      · subst hji
        exact hi w hw
      · exact h.named j w hw (List.not_mem_cons_of_ne_of_not_mem hji hj)⟩
  obtain ⟨rfl, hsame⟩ | ⟨v, v', ks, k, ks', cache, hv, -, hflush, hget, -, rfl⟩ :=
    State.updateContext_cases hrun
  · refine ⟨h.layers, h.stack, h.calls, h.observers, h.old, fun j w hw hj => ?_⟩
    by_cases hji : j = i
    · subst hji
      have hhead : (s'.evaluatedName S j).head? = some pathSeparator := head_evaluate _ (hs j).name
      rw [hsame w hw] at hhead
      rw [Named, cascadingName_eq hhead]
      exact .inr (hsame w hw)
    · exact h.named j w hw (List.not_mem_cons_of_ne_of_not_mem hji hj)
  · obtain ⟨n, hset, hrebound⟩ := rebound hs (head_evaluate _ (hs i).name) hget
    refine h.bind ((extends_sync hflush).trans (extends_update hget)) rfl rfl (fun j hj => ?_) rfl rfl
      (mem_of_found hrebound.found).2 (.inl ?_)
    · obtain rfl | hj := hj
      · exact h.observers j (Option.isSome_of_eq_some hv)
      · exact hj
    · rw [name_of_found hrebound.isName.head hrebound.found]
      exact hset

theorem updateAll_current (hs : ∀ i, Plain (S.spec i)) (h : Current S l s)
    (hrun : s.updateAll S l = some s') : Current S [] s' := by
  induction l generalizing s with
  | nil =>
    cases hrun
    exact h
  | cons i l ih =>
    obtain ⟨s₁, hi, hrun⟩ := Option.bind_eq_some_iff.mp hrun
    exact ih (update_current hs h hi) hrun

theorem assign_current (hs : ∀ i, Plain (S.spec i)) (h : Current S [] s) {f : T i → T i}
    (hrun : s.assign S i f = some s') : Current S [] s' := by
  obtain ⟨v, v', ks, hv, hsync, rfl⟩ := State.assign_cases hrun
  have hobservers : ∀ j, j = i ∨ j ∈ s.observers → j ∈ s.observers := by
    rintro j (rfl | hj)
    · exact h.observers j (Option.isSome_of_eq_some hv)
    · exact hj
  have hext := extends_sync hsync
  have hnamed := h.named i v hv List.not_mem_nil
  have hkey : v'.key < ks.next ∧ (setName (s.evaluatedName S i) = some (cascadingName (ks.name v'.key)) ∨
      s.evaluatedName S i = cascadingName (ks.name v'.key)) := by
    rw [unsafeSyncKeySet] at hsync
    split_ifs at hsync with hdefault
    · obtain ⟨n, hset, hsync⟩ := Option.bind_eq_some_iff.mp hsync
      cases hsync
      have hn : IsName n := isName_setName hdefault.2 hset
      have hname : cascadingName (Function.update s.keys.name s.keys.next
          (Namespace.user.name ++ n) s.keys.next) = n := by
        rw [Function.update_self, cascadingName_ns .user hn.head]
      refine ⟨Nat.lt_succ_self _, .inl ?_⟩
      change setName (s.evaluatedName S i) = some (cascadingName (Function.update s.keys.name s.keys.next
        (Namespace.user.name ++ n) s.keys.next))
      rw [hname]
      rw [Named, cascadingName_eq hdefault.2] at hnamed
      obtain hnamed | hnamed := hnamed
      · have hagain := (isName_setName (head_evaluate _ (hs i).name) hnamed).again n hset
        rw [hagain]
        exact hnamed
      · rw [hnamed]
        exact hset
    · cases hsync
      exact ⟨h.old i v hv, hnamed⟩
  exact (h.but i).bind hext rfl rfl hobservers rfl rfl hkey.1 hkey.2

omit [LinearOrder ι] in
theorem Current.relayer (h : Current S [] s) {events : List Str} (hvalues : s'.values = s.values)
    (hkeys : s'.keys = s.keys) (hobservers : s'.observers = s.observers)
    (hlayers : ∀ id layer, s'.context.activeLayers id = some layer → Fixed layer)
    (hstack : s'.context.withStack = [])
    (hcalls : ∀ withStack ∈ s'.calls, ∀ p ∈ withStack, ∀ layer, p.2 = some layer → Fixed layer)
    (hframe : ∀ id, id ∉ events → s'.context.activeLayers id = s.context.activeLayers id) :
    Current S (s'.notified S events) s' := by
  refine ⟨hlayers, hstack, hcalls, ?_, ?_, fun i v hv hi => ?_⟩
  · rw [hvalues, hobservers]
    exact h.observers
  · rw [hvalues, hkeys]
    exact h.old
  · rw [hvalues] at hv
    have hmem : i ∈ s'.observers := by
      rw [hobservers]
      exact h.observers i (Option.isSome_of_eq_some hv)
    have hnot : ∀ id ∈ attached (S.spec i).name, id ∉ events := by
      intro id hid hevent
      refine hi (List.mem_filter.mpr ⟨hmem, List.any_eq_true.mpr ⟨id, hid, ?_⟩⟩)
      exact List.contains_iff_mem.mpr hevent
    rw [Named, evaluatedName_eq h.layers fun id hid => hframe id (hnot id hid), hkeys]
    exact h.named i v hv List.not_mem_nil

omit [LinearOrder ι] in
theorem notified_nil (s : State ι T) : s.notified S [] = [] :=
  List.filter_eq_nil_iff.mpr fun i _ => by simp

theorem act_current (hs : ∀ i, Plain (S.spec i)) (h : Current S [] s) {e : Event ι T} (he : e.Fixed)
    {events : List Str} (hrun : s.act S e = some (s', events)) : Current S (s'.notified S events) s' := by
  have hlayered : Layered Fixed s.context := ⟨h.layers, by rw [h.stack]; exact nofun⟩
  cases e with
  | construct i =>
    obtain ⟨s₁, hi, hrun⟩ := Option.map_eq_some_iff.mp hrun
    cases hrun
    rw [notified_nil]
    exact construct_current hs h hi
  | assign i f =>
    obtain ⟨s₁, hi, hrun⟩ := Option.map_eq_some_iff.mp hrun
    cases hrun
    rw [notified_nil]
    exact assign_current hs h hi
  | activate layer =>
    cases hrun
    refine h.relayer rfl rfl rfl (hlayered.update ?_) h.stack h.calls fun id hid =>
      Function.update_of_ne (fun h => hid (List.mem_singleton.mpr h)) _ _
    rintro _ ⟨⟩
    exact he
  | deactivate layer =>
    cases hrun
    exact h.relayer rfl rfl rfl (hlayered.update nofun) h.stack h.calls fun id hid =>
      Function.update_of_ne (fun h => hid (List.mem_singleton.mpr h)) _ _
  | enter chain =>
    cases hrun
    have hbuild : Layered Fixed (s.context.build chain) := hlayered.build he
    refine h.relayer rfl rfl rfl hbuild.active rfl (fun withStack hm => ?_) (build_frame chain s.context).2
    obtain rfl | hm := List.mem_cons.mp hm
    · exact hbuild.stack
    · exact h.calls withStack hm
  | leave =>
    rw [State.act] at hrun
    cases hcalls : s.calls with
    | nil =>
      rw [hcalls] at hrun
      exact nomatch hrun
    | cons withStack calls =>
      rw [hcalls] at hrun
      cases hrun
      have hfixed := h.calls withStack (hcalls ▸ List.mem_cons_self)
      exact h.relayer rfl rfl rfl (layered_rollback h.layers hfixed) h.stack
        (fun st hm => h.calls st (hcalls ▸ List.mem_cons_of_mem _ hm)) fun id hid => rollback_of_notMem hid

/-- **After every event, the values have the names of their specifications under the context.** -/
theorem run_current (hs : ∀ i, Plain (S.spec i)) {es : List (Event ι T)} (hes : ∀ e ∈ es, e.Fixed)
    (h : Current S [] s) (hrun : s.run S es = some s') : Current S [] s' := by
  induction es generalizing s with
  | nil =>
    cases hrun
    exact h
  | cons e es ih =>
    rw [List.forall_mem_cons] at hes
    obtain ⟨s₁, hstep, hrun⟩ := Option.bind_eq_some_iff.mp hrun
    obtain ⟨⟨s₂, events⟩, hact, hnotify⟩ := Option.bind_eq_some_iff.mp hstep
    exact ih hes.2 (updateAll_current hs (act_current hs h hes.1 hact) hnotify) hrun

end Current

end Elektra.ContextualValue
