import Elektra.Context.Layers

/-!
# Layers of several threads

Each thread has a context of its own. An activation first takes over what is pending for the context, then
changes the context, and last goes to the coordinator, which keeps it for each other context until that
synchronises, and for contexts to come.

* `LayerMap`, `LayerMap.insert`: pending actions, of which there is one for a layer;
* `Threads`, `Event`, `step`: the coordinator and the contexts, a locked section at a time;
* `Consistent`, **`step_consistent_iff`**: what a locked section keeps, and when;
* **`layers_agree`**: after all have synchronised, the last action on each layer counts.
-/

namespace Elektra.Contextual

variable {Id V Ctx : Type} [DecidableEq Id] [DecidableEq Ctx]

/-! ## Pending actions -/

structure LayerAction (Id V : Type) where
  /-- `false` if deactivate -/
  activate : Bool
  layer : Layer Id V

namespace LayerAction

/-- The layer that is active after the action. -/
def effect (a : LayerAction Id V) : Option (Layer Id V) := if a.activate then some a.layer else none

def apply (c : Context Id V) (a : LayerAction Id V) : Context Id V :=
  if a.activate then c.activateLayer a.layer else c.deactivateLayer a.layer

theorem apply_layers (c : Context Id V) (a : LayerAction Id V) (id : Id) :
    (a.apply c).activeLayers id = if id = a.layer.id then a.effect else c.activeLayers id := by
  rw [apply, effect]
  split_ifs with ha hid hid
  · subst hid
    exact Function.update_self _ _ _
  · exact Function.update_of_ne hid _ _
  · subst hid
    exact Function.update_self _ _ _
  · exact Function.update_of_ne hid _ _

end LayerAction

/-- The layer that a last action leaves active. -/
def effectOf (a : Option (LayerAction Id V)) : Option (Layer Id V) := a.bind LayerAction.effect

/-- A map by the ids of the layers, in the order in which it is walked through. -/
structure LayerMap (Id V : Type) where
  entries : List (LayerAction Id V)
  nodup : (entries.map fun a => a.layer.id).Nodup

namespace LayerMap

def empty : LayerMap Id V := ⟨[], List.nodup_nil⟩

def find (m : LayerMap Id V) (id : Id) : Option (LayerAction Id V) := m.entries.find? fun a => a.layer.id = id

/-- An entry that is there stays. -/
def insert (m : LayerMap Id V) (a : LayerAction Id V) : LayerMap Id V :=
  if h : a.layer.id ∈ m.entries.map fun a => a.layer.id then m
  else ⟨a :: m.entries, List.nodup_cons.mpr ⟨h, m.nodup⟩⟩

/-- The loop of `syncLayers`. -/
def applyAll (m : LayerMap Id V) (c : Context Id V) : Context Id V := m.entries.foldl LayerAction.apply c

theorem find_eq_none {m : LayerMap Id V} {id : Id} :
    m.find id = none ↔ id ∉ m.entries.map fun a => a.layer.id := by
  simp [find]

/-- The first action on a layer that is not pending is, and no other becomes so. -/
theorem find_insert (m : LayerMap Id V) (a : LayerAction Id V) (id : Id) :
    (m.insert a).find id = if id = a.layer.id then (m.find id).or (some a) else m.find id := by
  rw [insert]
  split_ifs with hmem hid hid
  · subst hid
    have hsome : m.find a.layer.id ≠ none := fun hnone => find_eq_none.mp hnone hmem
    obtain ⟨p, hp⟩ := Option.ne_none_iff_exists'.mp hsome
    rw [hp, Option.some_or]
  · rfl
  · subst hid
    rw [find_eq_none.mpr hmem, Option.none_or]
    exact List.find?_cons_of_pos (by simp)
  · exact List.find?_cons_of_neg (by simpa using fun he => hid he.symm)

theorem find_empty (id : Id) : (empty : LayerMap Id V).find id = none := rfl

theorem applyAll_layers (m : LayerMap Id V) (c : Context Id V) (id : Id) :
    (m.applyAll c).activeLayers id = (m.find id).elim (c.activeLayers id) LayerAction.effect := by
  obtain ⟨l, hl⟩ := m
  rw [applyAll, find]
  dsimp only
  induction l generalizing c with
  | nil => rfl
  | cons a l ih =>
    obtain ⟨ha, hrest⟩ := List.nodup_cons.mp hl
    rw [List.foldl_cons, ih (a.apply c) hrest, LayerAction.apply_layers]
    by_cases hid : a.layer.id = id
    · -- no later one is on the same layer
      have hnone : (l.find? fun a => a.layer.id = id) = none := by
        rw [List.find?_eq_none]
        intro b hb
        simpa using fun he => ha (List.mem_map.mpr ⟨b, hb, he.trans hid.symm⟩)
      rw [hnone, List.find?_cons_of_pos (by simpa using hid), if_pos hid.symm]
      rfl
    · rw [List.find?_cons_of_neg (by simpa using hid), if_neg fun he => hid he.symm]

end LayerMap

/-! ## The coordinator and the contexts -/

structure Threads (Ctx Id V : Type) where
  /-- `m_updates`; the null pointer is for the history -/
  updates : Option Ctx → Option (LayerMap Id V)
  contexts : Ctx → Context Id V
  /-- an action that the context has taken, and has not told the coordinator -/
  calls : Ctx → Option (LayerAction Id V)
  /-- the last action on a layer that the coordinator was told -/
  last : Id → Option (LayerAction Id V)

inductive Event (Ctx Id V : Type)
  | construct (c : Ctx)
  | destruct (c : Ctx)
  | syncLayers (c : Ctx)
  /-- `activate` and `deactivate` before they call the coordinator -/
  | request (c : Ctx) (a : LayerAction Id V)
  | broadcast (c : Ctx)

namespace Threads

def start : Threads Ctx Id V where
  updates := fun c => if c = none then some .empty else none
  contexts := fun _ => ⟨fun _ => none, []⟩
  calls := fun _ => none
  last := fun _ => none

variable (s : Threads Ctx Id V)

def attach (c : Ctx) : Threads Ctx Id V :=
  { s with
    updates := if (s.updates (some c)).isSome then s.updates
      else Function.update s.updates (some c) (s.updates none)
    contexts := Function.update s.contexts c ⟨fun _ => none, []⟩ }

def detach (c : Ctx) : Threads Ctx Id V := { s with updates := Function.update s.updates (some c) none }

/-- `fetchGlobalActivation`, and the loop over what it returns. -/
def sync (c : Ctx) : Threads Ctx Id V :=
  { s with
    updates := Function.update s.updates (some c) (some .empty)
    contexts := Function.update s.contexts c (((s.updates (some c)).getD .empty).applyAll (s.contexts c)) }

def request (c : Ctx) (a : LayerAction Id V) : Threads Ctx Id V :=
  { s with
    contexts := Function.update s.contexts c (a.apply (s.contexts c))
    calls := Function.update s.calls c (some a) }

/-- `globalActivate` and `globalDeactivate`. -/
def broadcast (c : Ctx) (a : LayerAction Id V) : Threads Ctx Id V :=
  { s with
    updates := fun k => if k = some c then s.updates k else (s.updates k).map (·.insert a)
    calls := Function.update s.calls c none
    last := Function.update s.last a.layer.id (some a) }

def step : Event Ctx Id V → Threads Ctx Id V
  | .construct c => s.attach c
  | .destruct c => s.detach c
  | .syncLayers c => s.sync c
  | .request c a => (s.sync c).request c a
  | .broadcast c => (s.calls c).elim s (s.broadcast c)

/-- A context is there while it is used, and its thread does one thing after the other. -/
def Allowed : Event Ctx Id V → Prop
  | .construct c => s.updates (some c) = none
  | .destruct c | .syncLayers c | .request c _ => (s.updates (some c)).isSome ∧ s.calls c = none
  | .broadcast c => (s.calls c).isSome

/-- What is pending on a layer, for contexts to come or for one that is not itself about to tell of the
layer, is like the last action on it. -/
def Fits : Event Ctx Id V → Prop
  | .construct _ => ∀ m, s.updates none = some m → ∀ id, effectOf (m.find id) = effectOf (s.last id)
  | .broadcast c => ∀ a, s.calls c = some a → ∀ c' m, s.updates (some c') = some m →
      (c' = c ∨ ∀ b, s.calls c' = some b → b.layer.id ≠ a.layer.id) →
      ∀ p, m.find a.layer.id = some p → p.effect = a.effect
  | _ => True

/-- `P` holds of every event of a run, and of the state that it is in then. -/
def Each (P : Threads Ctx Id V → Event Ctx Id V → Prop) : Threads Ctx Id V → List (Event Ctx Id V) → Prop
  | _, [] => True
  | s, e :: es => P s e ∧ Each P (s.step e) es

def run (es : List (Event Ctx Id V)) : Threads Ctx Id V := es.foldl step s

end Threads

/-! ## What a locked section leaves alone -/

section Fields

variable {s : Threads Ctx Id V} {c c' : Ctx} {k : Option Ctx}

namespace Threads

section

omit [DecidableEq Id]

theorem attach_contexts_of_ne (h : c' ≠ c) : (s.attach c).contexts c' = s.contexts c' :=
  Function.update_of_ne h _ _

theorem attach_contexts_self : (s.attach c).contexts c = ⟨fun _ => none, []⟩ := Function.update_self _ _ _

theorem attach_updates_of_ne (h : k ≠ some c) : (s.attach c).updates k = s.updates k := by
  rw [attach]
  split_ifs
  · rfl
  · exact Function.update_of_ne h _ _

theorem attach_updates_self (h : s.updates (some c) = none) : (s.attach c).updates (some c) = s.updates none := by
  rw [attach, h]
  exact Function.update_self _ _ _

theorem detach_updates_of_ne (h : k ≠ some c) : (s.detach c).updates k = s.updates k :=
  Function.update_of_ne h _ _

theorem detach_updates_self : (s.detach c).updates (some c) = none := Function.update_self _ _ _

end

theorem sync_contexts_of_ne (h : c' ≠ c) : (s.sync c).contexts c' = s.contexts c' :=
  Function.update_of_ne h _ _

theorem sync_contexts_self {m : LayerMap Id V} (h : s.updates (some c) = some m) :
    (s.sync c).contexts c = m.applyAll (s.contexts c) := by
  rw [← Option.getD_some (a := m) (b := .empty), ← h]
  exact Function.update_self _ _ _

theorem sync_updates_of_ne (h : k ≠ some c) : (s.sync c).updates k = s.updates k :=
  Function.update_of_ne h _ _

theorem sync_updates_self : (s.sync c).updates (some c) = some .empty := Function.update_self _ _ _

variable {a : LayerAction Id V}

theorem request_contexts_of_ne (h : c' ≠ c) : (s.request c a).contexts c' = s.contexts c' :=
  Function.update_of_ne h _ _

theorem request_contexts_self : (s.request c a).contexts c = a.apply (s.contexts c) :=
  Function.update_self _ _ _

theorem request_calls_of_ne (h : c' ≠ c) : (s.request c a).calls c' = s.calls c' :=
  Function.update_of_ne h _ _

theorem request_calls_self : (s.request c a).calls c = some a := Function.update_self _ _ _

theorem broadcast_updates_of_ne (h : k ≠ some c) :
    (s.broadcast c a).updates k = (s.updates k).map (·.insert a) := if_neg h

theorem broadcast_updates_self : (s.broadcast c a).updates (some c) = s.updates (some c) := if_pos rfl

theorem broadcast_calls_of_ne (h : c' ≠ c) : (s.broadcast c a).calls c' = s.calls c' :=
  Function.update_of_ne h _ _

theorem broadcast_calls_self : (s.broadcast c a).calls c = none := Function.update_self _ _ _

theorem broadcast_last (id : Id) :
    (s.broadcast c a).last id = if id = a.layer.id then some a else s.last id := Function.update_apply _ _ _ _

end Threads

end Fields

/-! ## What a locked section keeps -/

/-- What a context is going to have is what the last action on each layer says, for all layers but one that
it is about to tell the coordinator of. -/
structure Consistent (s : Threads Ctx Id V) : Prop where
  history : (s.updates none).isSome
  attached : ∀ c, (s.calls c).isSome → (s.updates (some c)).isSome
  calling : ∀ c a, s.calls c = some a → (s.contexts c).activeLayers a.layer.id = a.effect
  agree : ∀ c m, s.updates (some c) = some m → ∀ id, (∀ a, s.calls c = some a → a.layer.id ≠ id) →
    (m.find id).elim ((s.contexts c).activeLayers id) LayerAction.effect = effectOf (s.last id)

section Steps

open Threads

variable {s : Threads Ctx Id V} {c c' : Ctx} {a : LayerAction Id V}

omit [DecidableEq Id] [DecidableEq Ctx] in
theorem some_ne_some (h : c' ≠ c) : some c' ≠ some c := fun he => h (Option.some.inj he)

omit [DecidableEq Id] [DecidableEq Ctx] in
theorem ne_of_calls (hc : s.calls c = none) (hc' : (s.calls c').isSome) : c' ≠ c := by
  rintro rfl
  rw [hc] at hc'
  exact nomatch hc'

omit [DecidableEq Ctx] in
theorem consistent_start : Consistent (start : Threads Ctx Id V) where
  history := rfl
  attached _ h := nomatch h
  calling _ _ h := nomatch h
  agree _ _ h := nomatch h

omit [DecidableEq Ctx] in
theorem Consistent.calls_eq_none (h : Consistent s) (hc : s.updates (some c) = none) : s.calls c = none := by
  by_contra hne
  have hsome := h.attached c (Option.isSome_iff_ne_none.mpr hne)
  rw [hc] at hsome
  exact nomatch hsome

theorem attach_consistent_iff (h : Consistent s) (hc : s.updates (some c) = none) :
    Consistent (s.attach c) ↔ s.Fits (.construct c) := by
  have hcalls : s.calls c = none := h.calls_eq_none hc
  have hview : ∀ (m : LayerMap Id V) id, (m.find id).elim (((s.attach c).contexts c).activeLayers id)
      LayerAction.effect = effectOf (m.find id) := by
    intro m id
    rw [attach_contexts_self]
    cases m.find id with
    | none => rfl
    | some a => rfl
  constructor
  · intro h' m hm id
    rw [← hview m id]
    exact h'.agree c m ((attach_updates_self hc).trans hm) id fun a ha => nomatch hcalls.symm.trans ha
  · intro hfits
    refine ⟨?_, fun c' hc' => ?_, fun c' a ha => ?_, fun c' m hm id hid => ?_⟩
    · rw [attach_updates_of_ne (Option.some_ne_none c).symm]
      exact h.history
    · rw [attach_updates_of_ne (some_ne_some (ne_of_calls hcalls hc'))]
      exact h.attached c' hc'
    · rw [attach_contexts_of_ne (ne_of_calls hcalls (Option.isSome_of_eq_some ha))]
      exact h.calling c' a ha
    · by_cases hne : c' = c
      · subst hne
        rw [attach_updates_self hc] at hm
        rw [hview m id]
        exact hfits m hm id
      · rw [attach_contexts_of_ne hne]
        rw [attach_updates_of_ne (some_ne_some hne)] at hm
        exact h.agree c' m hm id hid

theorem detach_consistent (h : Consistent s) (hc : s.calls c = none) : Consistent (s.detach c) where
  history := by
    rw [detach_updates_of_ne (Option.some_ne_none c).symm]
    exact h.history
  attached c' hc' := by
    rw [detach_updates_of_ne (some_ne_some (ne_of_calls hc hc'))]
    exact h.attached c' hc'
  calling := h.calling
  agree c' m hm := by
    by_cases hne : c' = c
    · rw [hne, detach_updates_self] at hm
      exact nomatch hm
    · rw [detach_updates_of_ne (some_ne_some hne)] at hm
      exact h.agree c' m hm

theorem sync_consistent (h : Consistent s) (hc : (s.updates (some c)).isSome) (hcalls : s.calls c = none) :
    Consistent (s.sync c) := by
  obtain ⟨m, hm⟩ := Option.isSome_iff_exists.mp hc
  refine ⟨?_, fun c' hc' => ?_, fun c' a ha => ?_, fun c' m' hm' id hid => ?_⟩
  · rw [sync_updates_of_ne (Option.some_ne_none c).symm]
    exact h.history
  · rw [sync_updates_of_ne (some_ne_some (ne_of_calls hcalls hc'))]
    exact h.attached c' hc'
  · rw [sync_contexts_of_ne (ne_of_calls hcalls (Option.isSome_of_eq_some ha))]
    exact h.calling c' a ha
  · by_cases hne : c' = c
    · subst hne
      cases sync_updates_self.symm.trans hm'
      rw [sync_contexts_self hm, LayerMap.find_empty, Option.elim_none, LayerMap.applyAll_layers]
      exact h.agree c' m hm id hid
    · rw [sync_updates_of_ne (some_ne_some hne)] at hm'
      rw [sync_contexts_of_ne hne]
      exact h.agree c' m' hm' id hid

/-- The context changes one layer, and is about to tell the coordinator. -/
theorem request_consistent (h : Consistent s) (hc : (s.updates (some c)).isSome) (hcalls : s.calls c = none)
    (a : LayerAction Id V) : Consistent (s.request c a) := by
  refine ⟨h.history, fun c' hc' => ?_, fun c' b hb => ?_, fun c' m hm id hid => ?_⟩
  · by_cases hne : c' = c
    · rw [hne]
      exact hc
    · rw [request_calls_of_ne hne] at hc'
      exact h.attached c' hc'
  · by_cases hne : c' = c
    · subst hne
      cases request_calls_self.symm.trans hb
      rw [request_contexts_self, LayerAction.apply_layers, if_pos rfl]
    · rw [request_calls_of_ne hne] at hb
      rw [request_contexts_of_ne hne]
      exact h.calling c' b hb
  · by_cases hne : c' = c
    · subst hne
      have hother : id ≠ a.layer.id := (hid a request_calls_self).symm
      rw [request_contexts_self, LayerAction.apply_layers, if_neg hother]
      exact h.agree c' m hm id fun b hb => nomatch hcalls.symm.trans hb
    · rw [request_calls_of_ne hne] at hid
      rw [request_contexts_of_ne hne]
      exact h.agree c' m hm id hid

theorem broadcast_consistent_iff (h : Consistent s) (hc : s.calls c = some a) :
    Consistent (s.broadcast c a) ↔ s.Fits (.broadcast c) := by
  constructor
  · intro h' b hb c' m hm hc' p hp
    cases hc.symm.trans hb
    -- the action is pending for the context after the section, too
    have hpending : ∃ m', (s.broadcast c a).updates (some c') = some m' ∧ m'.find a.layer.id = some p := by
      by_cases hne : c' = c
      · subst hne
        exact ⟨m, broadcast_updates_self.trans hm, hp⟩
      · refine ⟨m.insert a, ?_, ?_⟩
        · rw [broadcast_updates_of_ne (some_ne_some hne), hm]
          rfl
        · rw [LayerMap.find_insert, if_pos rfl, hp, Option.some_or]
    obtain ⟨m', hm', hp'⟩ := hpending
    have hagree := h'.agree c' m' hm' a.layer.id fun b hb => by
      by_cases hne : c' = c
      · rw [hne, broadcast_calls_self] at hb
        exact nomatch hb
      · rw [broadcast_calls_of_ne hne] at hb
        exact hc'.resolve_left hne b hb
    rw [hp', broadcast_last, if_pos rfl] at hagree
    exact hagree
  · intro hfits
    refine ⟨?_, fun c' hc' => ?_, fun c' b hb => ?_, fun c' m hm id hid => ?_⟩
    · rw [broadcast_updates_of_ne (Option.some_ne_none c).symm, Option.isSome_map]
      exact h.history
    · have hne : c' ≠ c := ne_of_calls broadcast_calls_self hc'
      rw [broadcast_calls_of_ne hne] at hc'
      rw [broadcast_updates_of_ne (some_ne_some hne), Option.isSome_map]
      exact h.attached c' hc'
    · have hne : c' ≠ c := ne_of_calls broadcast_calls_self (Option.isSome_of_eq_some hb)
      rw [broadcast_calls_of_ne hne] at hb
      exact h.calling c' b hb
    · rw [broadcast_last]
      by_cases hne : c' = c
      · subst hne
        rw [broadcast_updates_self] at hm
        split_ifs with hida
        · subst hida
          cases hp : m.find a.layer.id with
          | none => exact h.calling c' a hc
          | some p => exact hfits a hc c' m hm (.inl rfl) p hp
        · refine h.agree c' m hm id fun b hb => ?_
          cases hc.symm.trans hb
          exact fun he => hida he.symm
      · rw [broadcast_updates_of_ne (some_ne_some hne)] at hm
        rw [broadcast_calls_of_ne hne] at hid
        obtain ⟨m₀, hm₀, rfl⟩ := Option.map_eq_some_iff.mp hm
        rw [LayerMap.find_insert]
        split_ifs with hida
        · subst hida
          cases hp : m₀.find a.layer.id with
          | none => rfl
          | some p => exact hfits a hc c' m₀ hm₀ (.inr hid) p hp
        · exact h.agree c' m₀ hm₀ id hid

/-- **A step keeps the contexts consistent exactly if it fits.** -/
theorem step_consistent_iff (h : Consistent s) {e : Event Ctx Id V} (he : s.Allowed e) :
    Consistent (s.step e) ↔ s.Fits e := by
  cases e with
  | construct c => exact attach_consistent_iff h he
  | destruct c => exact iff_of_true (detach_consistent h he.2) trivial
  | syncLayers c => exact iff_of_true (sync_consistent h he.1 he.2) trivial
  | request c a =>
    have hsync : Consistent (s.sync c) := sync_consistent h he.1 he.2
    exact iff_of_true (request_consistent hsync (by rw [sync_updates_self]; rfl) he.2 a) trivial
  | broadcast c =>
    obtain ⟨a, ha⟩ := Option.isSome_iff_exists.mp he
    have hstep : s.step (.broadcast c) = s.broadcast c a := by rw [step, ha, Option.elim_some]
    rw [hstep]
    exact broadcast_consistent_iff h ha

theorem run_consistent (h : Consistent s) {es : List (Event Ctx Id V)} (hes : s.Each Allowed es)
    (hfits : s.Each Fits es) : Consistent (s.run es) := by
  induction es generalizing s with
  | nil => exact h
  | cons e es ih => exact ih ((step_consistent_iff h hes.1).mpr hfits.1) hes.2 hfits.2

end Steps

/-! ## After all have synchronised -/

/-- No context activates or deactivates, and the one given is not constructed anew. -/
def Event.Quiet (c : Ctx) : Event Ctx Id V → Prop
  | .construct c' => c' ≠ c
  | .request _ _ | .broadcast _ => False
  | .destruct _ | .syncLayers _ => True

/-- The context has called `syncLayers` after the last activation or deactivation. -/
def Synced (es : List (Event Ctx Id V)) (c : Ctx) : Prop :=
  ∃ before after, es = before ++ .syncLayers c :: after ∧ ∀ e ∈ after, e.Quiet c

section Run

open Threads

variable {s : Threads Ctx Id V} {c : Ctx}

theorem each_append {P : Threads Ctx Id V → Event Ctx Id V → Prop} {es es' : List (Event Ctx Id V)} :
    s.Each P (es ++ es') ↔ s.Each P es ∧ (s.run es).Each P es' := by
  induction es generalizing s with
  | nil => exact (and_iff_right trivial).symm
  | cons e es ih =>
    change P s e ∧ (s.step e).Each P (es ++ es') ↔ (P s e ∧ (s.step e).Each P es) ∧ _
    rw [ih, and_assoc]
    rfl

/-- Nothing is pending for the context and it has no call in progress, or it is not there. -/
def Settled (s : Threads Ctx Id V) (c : Ctx) : Prop :=
  s.calls c = none ∧ ∀ m, s.updates (some c) = some m → m = .empty

theorem step_settled (h : Settled s c) {e : Event Ctx Id V} (he : e.Quiet c) : Settled (s.step e) c := by
  cases e with
  | construct c' =>
    refine ⟨h.1, fun m hm => h.2 m ?_⟩
    rwa [step, attach_updates_of_ne (some_ne_some he.symm)] at hm
  | destruct c' =>
    refine ⟨h.1, fun m hm => ?_⟩
    by_cases hne : c = c'
    · rw [hne, step, detach_updates_self] at hm
      exact nomatch hm
    · rw [step, detach_updates_of_ne (some_ne_some hne)] at hm
      exact h.2 m hm
  | syncLayers c' =>
    refine ⟨h.1, fun m hm => ?_⟩
    by_cases hne : c = c'
    · rw [hne, step, sync_updates_self] at hm
      exact (Option.some.inj hm).symm
    · rw [step, sync_updates_of_ne (some_ne_some hne)] at hm
      exact h.2 m hm
  | request c' a => exact he.elim
  | broadcast c' => exact he.elim

theorem run_settled (h : Settled s c) {es : List (Event Ctx Id V)} (hes : ∀ e ∈ es, e.Quiet c) :
    Settled (s.run es) c := by
  induction es generalizing s with
  | nil => exact h
  | cons e es ih =>
    rw [List.forall_mem_cons] at hes
    exact ih (step_settled h hes.1) hes.2

/-- **In a run that fits, after each context has called `syncLayers`, each has the layers that the last
actions say.** -/
theorem layers_agree {es : List (Event Ctx Id V)} (hes : (start : Threads Ctx Id V).Each Allowed es)
    (hfits : (start : Threads Ctx Id V).Each Fits es)
    (hsync : ∀ c, ((start.run es).updates (some c)).isSome → Synced es c) :
    ∀ c, ((start.run es).updates (some c)).isSome → ∀ id,
      ((start.run es).contexts c).activeLayers id = effectOf ((start.run es).last id) := by
  intro c hc id
  obtain ⟨before, after, rfl, hquiet⟩ := hsync c hc
  have hrun : (start : Threads Ctx Id V).run (before ++ .syncLayers c :: after) =
      ((start.run before).sync c).run after := List.foldl_append
  have hallowed : (start.run before).Allowed (.syncLayers c) := (each_append.mp hes).2.1
  have hsettled : Settled ((start.run before).sync c) c :=
    ⟨hallowed.2, fun m hm => (Option.some.inj (sync_updates_self.symm.trans hm)).symm⟩
  obtain ⟨hcalls, hempty⟩ := run_settled hsettled hquiet
  rw [← hrun] at hcalls hempty
  obtain ⟨m, hm⟩ := Option.isSome_iff_exists.mp hc
  have hagree := (run_consistent consistent_start hes hfits).agree c m hm id
    fun a ha => nomatch hcalls.symm.trans ha
  rw [hempty m hm] at hagree
  exact hagree

end Run

open Threads in
/-- Two contexts, and one activates a layer. -/
theorem layers_agree_two :
    let es : List (Event Bool Bool Unit) := [.construct true, .construct false,
      .request true ⟨true, ⟨true, ()⟩⟩, .broadcast true, .syncLayers true, .syncLayers false]
    ((start.run es).contexts false).activeLayers true = some ⟨true, ()⟩ := by
  intro es
  have hes : (start : Threads Bool Bool Unit).Each Allowed es :=
    ⟨rfl, rfl, ⟨rfl, rfl⟩, rfl, ⟨rfl, rfl⟩, ⟨rfl, rfl⟩, trivial⟩
  have hfits : (start : Threads Bool Bool Unit).Each Fits es := by
    refine ⟨fun m hm id => ?_, fun m hm id => ?_, trivial, fun a ha c' m hm hc' p hp => ?_,
      trivial, trivial, trivial⟩
    · cases hm
      rfl
    · cases hm
      rfl
    · cases c' with
      | true =>
        cases hm
        exact nomatch hp
      | false =>
        cases hm
        exact nomatch hp
  have hsync : ∀ c, ((start.run es).updates (some c)).isSome → Synced es c := by
    intro c hc
    cases c with
    | true => exact ⟨es.take 4, [.syncLayers false], rfl, by simp [Event.Quiet]⟩
    | false => exact ⟨es.take 5, [], rfl, by simp⟩
  exact layers_agree hes hfits hsync false rfl true

open Threads in
/-- A layer that is activated and deactivated stays active for the other context. -/
theorem not_layers_agree : ¬ ∀ es : List (Event Bool Bool Unit), start.Each Allowed es →
    (∀ c, ((start.run es).updates (some c)).isSome → Synced es c) →
    ∀ c, ((start.run es).updates (some c)).isSome → ∀ id,
      ((start.run es).contexts c).activeLayers id = effectOf ((start.run es).last id) := by
  intro h
  let es : List (Event Bool Bool Unit) := [.construct true, .construct false,
    .request true ⟨true, ⟨true, ()⟩⟩, .broadcast true, .request true ⟨false, ⟨true, ()⟩⟩, .broadcast true,
    .syncLayers true, .syncLayers false]
  have hes : (start : Threads Bool Bool Unit).Each Allowed es :=
    ⟨rfl, rfl, ⟨rfl, rfl⟩, rfl, ⟨rfl, rfl⟩, rfl, ⟨rfl, rfl⟩, ⟨rfl, rfl⟩, trivial⟩
  have hsync : ∀ c, ((start.run es).updates (some c)).isSome → Synced es c := by
    intro c hc
    cases c with
    | true => exact ⟨es.take 6, [.syncLayers false], rfl, by simp [Event.Quiet]⟩
    | false => exact ⟨es.take 7, [], rfl, by simp⟩
  exact nomatch h es hes hsync false rfl true

end Elektra.Contextual
