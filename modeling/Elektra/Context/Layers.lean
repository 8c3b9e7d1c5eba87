import Mathlib.Data.List.Basic
import Mathlib.Logic.Function.Basic
import Mathlib.Tactic.Common

/-!
# Layers that are active during a call

A chain of `with` and `without` changes the active layers of a context, and remembers what it changed
on a stack. The function that ends the chain is called with these layers; then the stack is rolled
back, unless the function throws.

* `Context`, `lazyActivateLayer`, `lazyDeactivateLayer`, `execHelper`;
* `Func`: what functions do, chains of their own included;
* `Restored`: a call leaves the layers as they were; **`layers_restored_iff`**.
-/

namespace Elektra.Contextual

variable {Id V : Type}

/-! ## The context -/

/-- A layer; `value` is what it answers. -/
structure Layer (Id V : Type) where
  id : Id
  value : V
  deriving DecidableEq

/-- A null pointer on the stack is for a layer that was not active. -/
structure Context (Id V : Type) where
  activeLayers : Id → Option (Layer Id V)
  withStack : List (Id × Option (Layer Id V))

/-- A call of a chain; `withl` is `with` for a layer that there is. -/
inductive ChainCall (Id V : Type)
  | with (layer : Layer Id V)
  | without (layer : Layer Id V)

def ChainCall.id : ChainCall Id V → Id
  | .with layer => layer.id
  | .without layer => layer.id

variable [DecidableEq Id]

namespace Context

variable (c : Context Id V)

def lazyActivateLayer (layer : Layer Id V) : Context Id V where
  activeLayers := Function.update c.activeLayers layer.id (some layer)
  withStack := c.withStack ++ [(layer.id, c.activeLayers layer.id)]

def lazyDeactivateLayer (layer : Layer Id V) : Context Id V :=
  match c.activeLayers layer.id with
  | none => c -- deactivate what's not there
  | some old =>
    { activeLayers := Function.update c.activeLayers layer.id none
      withStack := c.withStack ++ [(layer.id, some old)] }

def activateLayer (layer : Layer Id V) : Context Id V :=
  { c with activeLayers := Function.update c.activeLayers layer.id (some layer) }

def deactivateLayer (layer : Layer Id V) : Context Id V :=
  { c with activeLayers := Function.update c.activeLayers layer.id none }

def chainCall : ChainCall Id V → Context Id V
  | .with layer => c.lazyActivateLayer layer
  | .without layer => c.lazyDeactivateLayer layer

/-- The context that a chain leaves to the function. -/
def build (chain : List (ChainCall Id V)) : Context Id V := chain.foldl chainCall c

/-- The stack is swapped out, to allow `with` to be called recursively. -/
def entered (chain : List (ChainCall Id V)) : Context Id V := { c.build chain with withStack := [] }

end Context

/-- The loop of `execHelper` at its end; the last pair is popped first. -/
def rollback (withStack : List (Id × Option (Layer Id V))) (layers : Id → Option (Layer Id V)) :
    Id → Option (Layer Id V) :=
  withStack.foldr (fun s layers => Function.update layers s.1 s.2) layers

/-- `execHelper`. A function returns, which is `true`, or throws. -/
def execHelper (f : Context Id V → Bool × Context Id V) (c : Context Id V) : Bool × Context Id V :=
  let r := f { c with withStack := [] }
  if r.1 then (true, { r.2 with activeLayers := rollback c.withStack r.2.activeLayers }) else r

/-! ## Functions -/

/-- What a function does with the context. -/
inductive Func (Id V : Type)
  | ret
  | throw
  | activate (layer : Layer Id V) (next : Func Id V)
  | deactivate (layer : Layer Id V) (next : Func Id V)
  /-- The layers decide on what comes next. -/
  | read (next : (Id → Option (Layer Id V)) → Func Id V)
  /-- A chain that ends in `f`. What comes next may depend on whether `f` returned. -/
  | call (chain : List (ChainCall Id V)) (f : Func Id V) (next : Bool → Func Id V)

namespace Func

def exec : Func Id V → Context Id V → Bool × Context Id V
  | .ret, c => (true, c)
  | .throw, c => (false, c)
  | .activate layer next, c => next.exec (c.activateLayer layer)
  | .deactivate layer next, c => next.exec (c.deactivateLayer layer)
  | .read next, c => (next c.activeLayers).exec c
  | .call chain f next, c =>
    let r := execHelper f.exec (c.build chain)
    (next r.1).exec r.2

/-- The function, or one that it calls, activates or deactivates the layer globally. -/
def Touches : Func Id V → Context Id V → Id → Prop
  | .ret, _, _ => False
  | .throw, _, _ => False
  | .activate layer next, c, id => layer.id = id ∨ next.Touches (c.activateLayer layer) id
  | .deactivate layer next, c, id => layer.id = id ∨ next.Touches (c.deactivateLayer layer) id
  | .read next, c, id => (next c.activeLayers).Touches c id
  | .call chain f next, c, id =>
    let r := execHelper f.exec (c.build chain)
    f.Touches (c.entered chain) id ∨ (next r.1).Touches r.2 id

/-- `Q` holds of every chain that the function, or one that it calls, ends with a function. -/
def EveryCall (Q : List (ChainCall Id V) → Func Id V → Context Id V → Prop) :
    Func Id V → Context Id V → Prop
  | .ret, _ => True
  | .throw, _ => True
  | .activate layer next, c => next.EveryCall Q (c.activateLayer layer)
  | .deactivate layer next, c => next.EveryCall Q (c.deactivateLayer layer)
  | .read next, c => (next c.activeLayers).EveryCall Q c
  | .call chain f next, c =>
    let r := execHelper f.exec (c.build chain)
    Q chain f c ∧ f.EveryCall Q (c.entered chain) ∧ (next r.1).EveryCall Q r.2

end Func

/-! ## What a call leaves behind -/

section Calls

variable (chain : List (ChainCall Id V)) (f : Func Id V) (c : Context Id V)

/-- After the call, the layers are those before the chain, but for those that only the function
changed; and no entry is left on the stack. -/
structure Restored : Prop where
  layers : ∀ id, id ∈ chain.map ChainCall.id ∨ ¬ f.Touches (c.entered chain) id →
    (execHelper f.exec (c.build chain)).2.activeLayers id = c.activeLayers id
  stack : (execHelper f.exec (c.build chain)).2.withStack = []

/-- The chain does nothing but deactivate the layer, and the layer was not active. -/
def Forgotten (id : Id) : Prop :=
  (∀ layer, .with layer ∈ chain → layer.id ≠ id) ∧ c.activeLayers id = none

/-- The function does itself what the rollback does not: one that returns leaves the forgotten layers
inactive, and one that throws leaves all layers of the chain as they were before it. -/
structure PutsBack : Prop where
  returns : (f.exec (c.entered chain)).1 = true → ∀ id ∈ chain.map ChainCall.id,
    Forgotten chain c id → (f.exec (c.entered chain)).2.activeLayers id = none
  throws : (f.exec (c.entered chain)).1 = false → ∀ id ∈ chain.map ChainCall.id,
    (f.exec (c.entered chain)).2.activeLayers id = c.activeLayers id

end Calls

/-! ## Chains -/

section Chains

variable {c c' : Context Id V} {chain : List (ChainCall Id V)} {call : ChainCall Id V}

/-- What a chain puts on the stack, and what it leaves alone. -/
structure Built (c c' : Context Id V) (chain : List (ChainCall Id V))
    (pushed : List (Id × Option (Layer Id V))) : Prop where
  stack : c'.withStack = c.withStack ++ pushed
  layers : ∀ id ∉ chain.map ChainCall.id, c'.activeLayers id = c.activeLayers id
  undone : ∀ layers id, rollback pushed layers id =
    if id ∈ pushed.map Prod.fst then c.activeLayers id else layers id
  pushed : ∀ id, id ∈ pushed.map Prod.fst ↔ id ∈ chain.map ChainCall.id ∧ ¬ Forgotten chain c id

theorem Built.cons {x : Option (Layer Id V)} {pushed : List (Id × Option (Layer Id V))}
    (hc : c.chainCall call =
      ⟨Function.update c.activeLayers call.id x, c.withStack ++ [(call.id, c.activeLayers call.id)]⟩)
    (hf : ¬ Forgotten (call :: chain) c call.id) (h : Built (c.chainCall call) c' chain pushed) :
    Built c c' (call :: chain) ((call.id, c.activeLayers call.id) :: pushed) := by
  have hne : ∀ id, id ≠ call.id → (c.chainCall call).activeLayers id = c.activeLayers id := by
    intro id hid
    rw [hc]
    exact Function.update_of_ne hid _ _
  refine ⟨?_, fun id hid => ?_, fun layers id => ?_, fun id => ?_⟩
  · rw [h.stack, hc, List.append_assoc]
    rfl
  · rw [List.map_cons, List.mem_cons, not_or] at hid
    rw [h.layers id hid.2, hne id hid.1]
  · change Function.update (rollback pushed layers) call.id (c.activeLayers call.id) id = _
    by_cases hid : id = call.id
    · rw [hid, Function.update_self, if_pos (List.mem_map.mpr ⟨_, List.mem_cons_self, rfl⟩)]
    · rw [Function.update_of_ne hid, h.undone, hne id hid]
      have hmem : id ∈ ((call.id, c.activeLayers call.id) :: pushed).map Prod.fst ↔
          id ∈ pushed.map Prod.fst := by
        rw [List.map_cons, List.mem_cons, or_iff_right hid]
      simp only [hmem]
  · by_cases hid : id = call.id
    · rw [hid]
      exact iff_of_true List.mem_cons_self ⟨List.mem_cons_self, hf⟩
    · have hforgotten : Forgotten (call :: chain) c id ↔ Forgotten chain (c.chainCall call) id := by
        rw [Forgotten, Forgotten, hne id hid]
        refine and_congr_left' (forall_congr' fun layer => ?_)
        rw [List.mem_cons, or_imp, and_iff_right_iff_imp]
        rintro - rfl he
        exact hid he.symm
      simp only [List.map_cons, List.mem_cons, hid, false_or, hforgotten]
      exact h.pushed id

/-- The stack of a chain leads back to the layers before it, but for those that it forgot. -/
theorem build_spec : ∀ (chain : List (ChainCall Id V)) (c : Context Id V),
    ∃ pushed, Built c (c.build chain) chain pushed
  | [], c => ⟨[], (List.append_nil _).symm, fun _ _ => rfl, fun _ _ => rfl, fun _ => by simp⟩
  | .with layer :: chain, c => by
    obtain ⟨pushed, h⟩ := build_spec chain (c.lazyActivateLayer layer)
    refine ⟨_, Built.cons rfl ?_ h⟩
    rintro ⟨hwith, -⟩
    exact hwith layer List.mem_cons_self rfl
  | .without layer :: chain, c => by
    obtain ⟨pushed, h⟩ := build_spec chain (c.lazyDeactivateLayer layer)
    cases hlayer : c.activeLayers layer.id with
    | some old =>
      have hc : c.lazyDeactivateLayer layer =
          ⟨Function.update c.activeLayers layer.id none,
            c.withStack ++ [(layer.id, c.activeLayers layer.id)]⟩ := by
        rw [Context.lazyDeactivateLayer, hlayer]
      refine ⟨_, Built.cons hc ?_ h⟩
      rintro ⟨-, hnone⟩
      exact Option.some_ne_none old (hlayer.symm.trans hnone)
    | none =>
      have hc : c.lazyDeactivateLayer layer = c := by rw [Context.lazyDeactivateLayer, hlayer]
      have hbuild : c.build (.without layer :: chain) = (c.lazyDeactivateLayer layer).build chain := rfl
      rw [hbuild, hc]
      rw [hc] at h
      have hforgotten : ∀ id, Forgotten (.without layer :: chain) c id ↔ Forgotten chain c id := by
        intro id
        simp [Forgotten]
      refine ⟨pushed, h.stack, fun id hid => h.layers id ?_, h.undone, fun id => ?_⟩
      · exact fun hmem => hid (List.mem_cons_of_mem _ hmem)
      · rw [h.pushed, hforgotten, List.map_cons, List.mem_cons]
        refine and_congr_left fun hnot => (or_iff_right_of_imp ?_).symm
        -- a layer that was not active, and is not forgotten, is activated later in the chain
        rintro rfl
        by_contra hmem
        refine hnot ⟨fun l hl he => hmem ?_, hlayer⟩
        exact List.mem_map.mpr ⟨_, hl, he⟩

end Chains

/-! ## Calls -/

section Exec

variable {c : Context Id V} {chain : List (ChainCall Id V)} {f : Func Id V}

theorem execHelper_stack {f : Context Id V → Bool × Context Id V} (c : Context Id V)
    (hf : ∀ c', c'.withStack = [] → (f c').2.withStack = []) :
    (execHelper f c).2.withStack = [] := by
  unfold execHelper
  dsimp only
  split
  · exact hf _ rfl
  · exact hf _ rfl

theorem exec_stack : ∀ (f : Func Id V) (c : Context Id V), c.withStack = [] →
    (f.exec c).2.withStack = []
  | .ret, _, h => h
  | .throw, _, h => h
  | .activate _ next, _, h => exec_stack next _ h
  | .deactivate _ next, _, h => exec_stack next _ h
  | .read next, c, h => exec_stack (next c.activeLayers) c h
  | .call _ f next, _, _ => exec_stack (next _) _ (execHelper_stack _ (exec_stack f))

/-- Layers that are not touched stay, where every call restores its own. -/
theorem exec_layers : ∀ (f : Func Id V) (c : Context Id V), f.EveryCall Restored c →
    ∀ id, ¬ f.Touches c id → (f.exec c).2.activeLayers id = c.activeLayers id
  | .ret, _, _, _, _ => rfl
  | .throw, _, _, _, _ => rfl
  | .activate layer next, c, h, id, ht => by
    obtain ⟨hne, ht⟩ := not_or.mp ht
    exact (exec_layers next _ h id ht).trans (Function.update_of_ne (Ne.symm hne) _ _)
  | .deactivate layer next, c, h, id, ht => by
    obtain ⟨hne, ht⟩ := not_or.mp ht
    exact (exec_layers next _ h id ht).trans (Function.update_of_ne (Ne.symm hne) _ _)
  | .read next, c, h, id, ht => exec_layers (next c.activeLayers) c h id ht
  | .call chain f next, c, h, id, ht => by
    obtain ⟨hf, ht⟩ := not_or.mp ht
    exact (exec_layers (next _) _ h.2.2 id ht).trans (h.1.layers id (.inr hf))

/-- A call restores the layers exactly when the function puts back what the rollback does not. -/
theorem restored_call (hs : c.withStack = []) (h : f.EveryCall Restored (c.entered chain)) :
    Restored chain f c ↔ PutsBack chain f c := by
  obtain ⟨pushed, hb⟩ := build_spec chain c
  have hstack : (c.build chain).withStack = pushed := by rw [hb.stack, hs, List.nil_append]
  have hexec : execHelper f.exec (c.build chain) =
      if (f.exec (c.entered chain)).1 then (true, { (f.exec (c.entered chain)).2 with
        activeLayers := rollback pushed (f.exec (c.entered chain)).2.activeLayers })
      else f.exec (c.entered chain) := by
    rw [← hstack]
    rfl
  have hstays : ∀ id ∉ chain.map ChainCall.id, ¬ f.Touches (c.entered chain) id →
      (f.exec (c.entered chain)).2.activeLayers id = c.activeLayers id := fun id hid ht =>
    (exec_layers f _ h id ht).trans (hb.layers id hid)
  constructor
  · rintro ⟨hlayers, -⟩
    rw [hexec] at hlayers
    constructor
    · intro hret id hid hforgotten
      have hl := hlayers id (.inl hid)
      rw [if_pos hret] at hl
      change rollback pushed _ id = _ at hl
      rwa [hb.undone, if_neg fun hp => ((hb.pushed id).mp hp).2 hforgotten, hforgotten.2] at hl
    · intro hret id hid
      have hl := hlayers id (.inl hid)
      rwa [if_neg (by rw [hret]; exact Bool.false_ne_true)] at hl
  · rintro ⟨hreturns, hthrows⟩
    refine ⟨fun id hid => ?_, execHelper_stack _ (exec_stack f)⟩
    rw [hexec]
    cases hret : (f.exec (c.entered chain)).1 with
    | false =>
      rw [if_neg Bool.false_ne_true]
      by_cases hmem : id ∈ chain.map ChainCall.id
      · exact hthrows hret id hmem
      · exact hstays id hmem (hid.resolve_left hmem)
    | true =>
      rw [if_pos rfl]
      change rollback pushed _ id = _
      rw [hb.undone]
      split_ifs with hp
      · rfl
      · by_cases hmem : id ∈ chain.map ChainCall.id
        · have hforgotten : Forgotten chain c id := by
            by_contra hnot
            exact hp ((hb.pushed id).mpr ⟨hmem, hnot⟩)
          rw [hreturns hret id hmem hforgotten, hforgotten.2]
        · exact hstays id hmem (hid.resolve_left hmem)

theorem everyCall_iff : ∀ (f : Func Id V) (c : Context Id V), c.withStack = [] →
    (f.EveryCall Restored c ↔ f.EveryCall PutsBack c)
  | .ret, _, _ => Iff.rfl
  | .throw, _, _ => Iff.rfl
  | .activate _ next, _, h => everyCall_iff next _ h
  | .deactivate _ next, _, h => everyCall_iff next _ h
  | .read next, c, h => everyCall_iff (next c.activeLayers) c h
  | .call chain f next, c, h => by
    have hf := everyCall_iff f (c.entered chain) rfl
    have hnext := everyCall_iff (next (execHelper f.exec (c.build chain)).1)
      (execHelper f.exec (c.build chain)).2 (execHelper_stack _ (exec_stack f))
    constructor
    · rintro ⟨hcall, hin, hout⟩
      exact ⟨(restored_call h hin).mp hcall, hf.mp hin, hnext.mp hout⟩
    · rintro ⟨hcall, hin, hout⟩
      exact ⟨(restored_call h (hf.mpr hin)).mpr hcall, hf.mpr hin, hnext.mpr hout⟩

end Exec

/-- **Every call leaves the active layers as they were, exactly when every function puts back what
the rollback does not.** -/
theorem layers_restored_iff (layers : Id → Option (Layer Id V)) (f : Func Id V) :
    f.EveryCall Restored ⟨layers, []⟩ ↔ f.EveryCall PutsBack ⟨layers, []⟩ :=
  everyCall_iff f _ rfl

/-- A layer is active for a function that throws, and one is deactivated for a function that activates
it globally. -/
theorem not_restored :
    ¬ (Func.call [.with ⟨0, 1⟩] .throw fun _ => .ret).EveryCall Restored
        (⟨fun _ => none, []⟩ : Context ℕ ℕ) ∧
      ¬ (Func.call [.without ⟨0, 1⟩] (.activate ⟨0, 2⟩ .ret) fun _ => .ret).EveryCall Restored
        (⟨fun _ => none, []⟩ : Context ℕ ℕ) := by
  constructor
  · rintro ⟨⟨hlayers, -⟩, -⟩
    exact absurd (hlayers 0 (.inl (by decide))) (Option.some_ne_none _)
  · rintro ⟨⟨hlayers, -⟩, -⟩
    exact absurd (hlayers 0 (.inl (by decide))) (Option.some_ne_none _)

end Elektra.Contextual
