import Elektra.Context.Evaluate
import Elektra.Context.Layers
import Elektra.Lookup.Resolution
import Elektra.Name.Dangling

/-!
# Contextual values

A contextual value has the key that a lookup of its name finds under the present context, and a cache of
what the key says. A change of the context makes the values that listen to the layer write their cache to
their key and look for another key.

* `Keys`, `DefaultGetPolicy.get`, `DefaultSetPolicy.set`: the keys that values are bound to;
* `Value`, `State`, `updateContext`, `notifyByEvents`, `assign`;
* `Event`, `step`, `run`: what happens to the values of a context.
-/

namespace Elektra.ContextualValue

open Choice Contextual

/-! ## Keys -/

/-- A key set, and the keys that values have. A key is named as a lookup in its namespace spells it. -/
structure Keys where
  content : Content
  name : KeyRef → Str
  value : KeyRef → Str
  next : KeyRef
  named : ∀ n s, content n = some s → name s.ref = n
  old : ∀ n s, content n = some s → s.ref < next

namespace Keys

variable (ks : Keys) (info : KeyInfo)

/-- The entry of a new key. -/
def entry : KeyInfo := { info with ref := ks.next }

theorem append_named (n : Str) (s : KeyInfo)
    (h : Function.update ks.content info.name (some (ks.entry info)) n = some s) :
    Function.update ks.name ks.next info.name s.ref = n := by
  by_cases hn : n = info.name
  · rw [hn, Function.update_self] at h
    cases h
    rw [hn]
    exact Function.update_self _ _ _
  · rw [Function.update_of_ne hn] at h
    rw [Function.update_of_ne (ks.old n s h).ne]
    exact ks.named n s h

theorem append_old (n : Str) (s : KeyInfo)
    (h : Function.update ks.content info.name (some (ks.entry info)) n = some s) : s.ref < ks.next + 1 := by
  by_cases hn : n = info.name
  · rw [hn, Function.update_self] at h
    cases h
    exact Nat.lt_succ_self _
  · rw [Function.update_of_ne hn] at h
    exact Nat.lt_succ_of_lt (ks.old n s h)

/-- A new key is added, in the place of one of its name. -/
def append (value : Str) : KeyRef × Keys where
  fst := ks.next
  snd :=
    { content := Function.update ks.content info.name (some (ks.entry info))
      name := Function.update ks.name ks.next info.name
      value := Function.update ks.value ks.next value
      next := ks.next + 1
      named := ks.append_named info
      old := ks.append_old info }

def setString (k : KeyRef) (value : Str) : Keys := { ks with value := Function.update ks.value k value }

end Keys

/-- `Key::setName`, which throws where this is `none`. -/
def setName (name : Str) : Option Str :=
  let r := keySetName keyNew (some (name.takeWhile (· ≠ 0)))
  if r.1 = -1 then none else some (keyName r.2)

/-- A key without metadata. -/
def plainKey (name : Str) : KeyInfo := ⟨0, name, [], [], [], none⟩

/-- A key whose metadata specifies others. -/
structure Spec extends KeyInfo where
  value : Str

/-- `ks.lookup (spec, KDB_O_SPEC | KDB_O_CREATE)`, with at most `depth` links inside one another. -/
def DefaultGetPolicy.get (depth : ℕ) (ks : Keys) (spec : Spec) : Option (KeyRef × Keys) :=
  match first (eval (resolution ks.content) Stop.fuel (depth + 1)) (specAttempts spec.toKeyInfo {}) with
  | .error _ => none
  | .ok (some (.found k)) => some (k, ks)
  | .ok (some (.default name value)) => (setName name).map fun name => ks.append (plainKey name) value
  | .ok none => some (ks.append spec.toKeyInfo spec.value) -- a duplicate of the key

/-- A new key of the namespace `user`. The name of the specification starts with a slash of its own. -/
def DefaultSetPolicy.set (ks : Keys) (spec : KeyInfo) : KeyRef × Keys :=
  ks.append (plainKey (Namespace.user.name ++ spec.name)) []

/-! ## Values -/

structure Value (T : Type) where
  cache : T
  /-- triggers the transition from transient to persistent keys -/
  hasChanged : Bool
  key : KeyRef

/-- The values of a program: their specifications, and how their types are read from a key and written. -/
structure Values (ι : Type) (T : ι → Type) where
  spec : ι → Spec
  get : (i : ι) → Str → Option (T i)
  set : (i : ι) → T i → Str
  depth : ℕ

/-- What a layer answers may depend on the strings of the keys that values have. -/
abbrev Answer (ι : Type) := (ι → Str) → Str

structure State (ι : Type) (T : ι → Type) where
  context : Context Str (Answer ι)
  /-- The stacks of the calls of `execHelper` in progress, the innermost first. -/
  calls : List (List (Str × Option (Layer Str (Answer ι))))
  /-- The values that there are, in the order of their addresses. -/
  observers : List ι
  values : (i : ι) → Option (Value (T i))
  keys : Keys
  /-- What was last assigned to a value while it had a name. -/
  last : (i : ι) → Str → Option (T i)

/-- The name without a namespace. -/
def cascadingName (name : Str) : Str := name.dropWhile (· ≠ pathSeparator)

section Operations

variable {ι : Type} {T : ι → Type} (S : Values ι T)

/-- The key that the value is bound to under the evaluated name. -/
def unsafeUpdateKeyUsingContext (ks : Keys) (i : ι) (evaluatedName : Str) : Option (KeyRef × Keys) := do
  let name ← setName evaluatedName
  DefaultGetPolicy.get S.depth ks { S.spec i with name := name }

def unsafeSyncKeySet (ks : Keys) (i : ι) (v : Value (T i)) : Option (Value (T i) × Keys) :=
  if v.hasChanged = true ∧ (ks.name v.key).head? = some pathSeparator then do
    let name ← setName (ks.name v.key)
    let (k, ks) := DefaultSetPolicy.set ks { S.spec i with name := name }
    some ({ v with hasChanged := false, key := k }, ks.setString k (S.set i v.cache))
  else some (v, ks.setString v.key (S.set i v.cache))

namespace State

variable (s : State ι T)

/-- `layerVal` -/
def layerVal (i : ι) : Str := (s.values i).elim [] fun v => s.keys.value v.key

/-- What the active layers answer. -/
def answers (id : Str) : Option Str := (s.context.activeLayers id).map fun layer => layer.value s.layerVal

/-- The name of a value under the context. -/
def evaluatedName (i : ι) : Str := evaluate s.answers (S.spec i).name

variable [LinearOrder ι]

/-- `updateContext`, with `write`. -/
def updateContext (i : ι) : Option (State ι T) :=
  match s.values i with
  | none => some s
  | some v =>
    let evaluatedName := s.evaluatedName S i
    if evaluatedName = s.keys.name v.key then some s -- nothing changed, same name
    else do
      let (v, ks) ← unsafeSyncKeySet S s.keys i v -- flush out what currently is in cache
      let (k, ks) ← unsafeUpdateKeyUsingContext S ks i evaluatedName
      let cache ← S.get i (ks.value k) -- read what we have under new context
      some { s with
        values := Function.update s.values i (some { v with cache := cache, key := k })
        keys := ks }

/-- The observers that listen to one of the events. -/
def notified (events : List Str) : List ι :=
  s.observers.filter fun i => (attached (S.spec i).name).any (events.contains ·)

/-- One after the other is updated. -/
def updateAll (l : List ι) : Option (State ι T) := l.foldlM (fun s i => s.updateContext S i) s

def notifyByEvents (events : List Str) : Option (State ι T) := s.updateAll S (s.notified S events)

/-- An assigning operator: `f` is what it does to the cache. -/
def assign (i : ι) (f : T i → T i) : Option (State ι T) :=
  match s.values i with
  | none => none
  | some v => do
    let cache := f v.cache
    let (v', ks) ← unsafeSyncKeySet S s.keys i { v with cache := cache, hasChanged := true }
    some { s with
      values := Function.update s.values i (some v')
      keys := ks
      last := Function.update s.last i
        (Function.update (s.last i) (cascadingName (s.keys.name v.key)) (some cache)) }

/-- The constructor of a value. -/
def construct (i : ι) : Option (State ι T) :=
  if (s.values i).isSome then none
  else do
    let (k, ks) ← unsafeUpdateKeyUsingContext S s.keys i (s.evaluatedName S i)
    let cache ← S.get i (ks.value k)
    some { s with
      observers := s.observers.orderedInsert (· ≤ ·) i
      values := Function.update s.values i (some ⟨cache, false, k⟩)
      keys := ks }

/-! What each operation can do. -/

variable {S} {s} {s' : State ι T} {i : ι}

/-- A value keeps its name, or it is flushed and bound to the key of another. -/
theorem updateContext_cases (hrun : s.updateContext S i = some s') :
    (s' = s ∧ ∀ v, s.values i = some v → s.evaluatedName S i = s.keys.name v.key) ∨
    ∃ v v' ks k ks' cache, s.values i = some v ∧ s.evaluatedName S i ≠ s.keys.name v.key ∧
      unsafeSyncKeySet S s.keys i v = some (v', ks) ∧
      unsafeUpdateKeyUsingContext S ks i (s.evaluatedName S i) = some (k, ks') ∧
      S.get i (ks'.value k) = some cache ∧
      s' = { s with
        values := Function.update s.values i (some { v' with cache := cache, key := k })
        keys := ks' } := by
  rw [updateContext] at hrun
  cases hv : s.values i with
  | none =>
    rw [hv] at hrun
    cases hrun
    exact .inl ⟨rfl, fun v hsome => by cases hsome⟩
  | some v =>
    rw [hv] at hrun
    dsimp only at hrun
    by_cases hsame : s.evaluatedName S i = s.keys.name v.key
    · rw [if_pos hsame] at hrun
      cases hrun
      refine .inl ⟨rfl, fun w hw => ?_⟩
      cases hw
      exact hsame
    · rw [if_neg hsame] at hrun
      obtain ⟨⟨v', ks⟩, hflush, hrun⟩ := Option.bind_eq_some_iff.mp hrun
      obtain ⟨⟨k, ks'⟩, hget, hrun⟩ := Option.bind_eq_some_iff.mp hrun
      obtain ⟨cache, hcache, hrun⟩ := Option.bind_eq_some_iff.mp hrun
      cases hrun
      exact .inr ⟨v, v', ks, k, ks', cache, rfl, hsame, hflush, hget, hcache, rfl⟩

theorem assign_cases {f : T i → T i} (hrun : s.assign S i f = some s') :
    ∃ v v' ks, s.values i = some v ∧
      unsafeSyncKeySet S s.keys i { v with cache := f v.cache, hasChanged := true } = some (v', ks) ∧
      s' = { s with
        values := Function.update s.values i (some v')
        keys := ks
        last := Function.update s.last i
          (Function.update (s.last i) (cascadingName (s.keys.name v.key)) (some (f v.cache))) } := by
  rw [assign] at hrun
  cases hv : s.values i with
  | none =>
    rw [hv] at hrun
    cases hrun
  | some v =>
    rw [hv] at hrun
    obtain ⟨⟨v', ks⟩, hsync, hrun⟩ := Option.bind_eq_some_iff.mp hrun
    exact ⟨v, v', ks, rfl, hsync, (Option.some.inj hrun).symm⟩

theorem construct_cases (hrun : s.construct S i = some s') :
    ∃ k ks cache, s.values i = none ∧
      unsafeUpdateKeyUsingContext S s.keys i (s.evaluatedName S i) = some (k, ks) ∧
      S.get i (ks.value k) = some cache ∧
      s' = { s with
        observers := s.observers.orderedInsert (· ≤ ·) i
        values := Function.update s.values i (some ⟨cache, false, k⟩)
        keys := ks } := by
  rw [construct] at hrun
  split_ifs at hrun with hsome
  obtain ⟨⟨k, ks⟩, hget, hrun⟩ := Option.bind_eq_some_iff.mp hrun
  obtain ⟨cache, hcache, hrun⟩ := Option.bind_eq_some_iff.mp hrun
  cases hrun
  exact ⟨k, ks, cache, Option.not_isSome_iff_eq_none.mp hsome, hget, hcache, rfl⟩

end State

end Operations

/-! ## Runs -/

inductive Event (ι : Type) (T : ι → Type)
  | construct (i : ι)
  | assign (i : ι) (f : T i → T i)
  | activate (layer : Layer Str (Answer ι))
  | deactivate (layer : Layer Str (Answer ι))
  /-- A chain of `with` and `without`, up to the call of the function. -/
  | enter (chain : List (ChainCall Str (Answer ι)))
  /-- The function has returned. -/
  | leave

namespace State

variable {ι : Type} [LinearOrder ι] {T : ι → Type} (S : Values ι T) (s : State ι T)

def start (ks : Keys) : State ι T where
  context := ⟨fun _ => none, []⟩
  calls := []
  observers := []
  values := fun _ => none
  keys := ks
  last := fun _ _ => none

/-- What an event does before the observers are notified, and of what they are notified. -/
def act : Event ι T → Option (State ι T × List Str)
  | .construct i => (s.construct S i).map (·, [])
  | .assign i f => (s.assign S i f).map (·, [])
  | .activate layer => some ({ s with context := s.context.activateLayer layer }, [layer.id])
  | .deactivate layer => some ({ s with context := s.context.deactivateLayer layer }, [layer.id])
  | .enter chain =>
    let c := s.context.build chain
    -- the stack is cleared, to allow `with` to be called recursively
    some ({ s with context := { c with withStack := [] }, calls := c.withStack :: s.calls },
      c.withStack.map Prod.fst)
  | .leave =>
    match s.calls with
    | [] => none
    | withStack :: calls =>
      let layers := rollback withStack s.context.activeLayers
      some ({ s with context := { s.context with activeLayers := layers }, calls := calls },
        withStack.map Prod.fst)

def step (e : Event ι T) : Option (State ι T) := do
  let (s, events) ← s.act S e
  s.notifyByEvents S events

def run (es : List (Event ι T)) : Option (State ι T) := es.foldlM (step S) s

/-! ## What holds whenever a name is evaluated -/

variable (P : State ι T → ι → Prop)

def EachUpdate : State ι T → List ι → Prop
  | _, [] => True
  | s, i :: l => P s i ∧ ∀ s' ∈ s.updateContext S i, EachUpdate s' l

/-- `P` holds of the values of which an event evaluates the name, and of the states in which it does. -/
def AtEvent (e : Event ι T) : Prop :=
  (match e with
    | .construct i => P s i
    | _ => True) ∧ ∀ r ∈ s.act S e, r.1.EachUpdate S P (r.1.notified S r.2)

def Each : State ι T → List (Event ι T) → Prop
  | _, [] => True
  | s, e :: es => s.AtEvent S P e ∧ ∀ s' ∈ s.step S e, Each s' es

variable [∀ s i, Decidable (P s i)]

instance decidableEachUpdate : ∀ (s : State ι T) (l : List ι), Decidable (s.EachUpdate S P l)
  | _, [] => .isTrue trivial
  | s, i :: l =>
    have (s' : State ι T) := decidableEachUpdate s' l
    inferInstanceAs (Decidable (P s i ∧ ∀ s' ∈ s.updateContext S i, s'.EachUpdate S P l))

instance decidableAtEvent (e : Event ι T) : Decidable (s.AtEvent S P e) :=
  have : Decidable (∀ r ∈ s.act S e, r.1.EachUpdate S P (r.1.notified S r.2)) := inferInstance
  match e with
  | .construct i => inferInstanceAs (Decidable (P s i ∧ _))
  | .assign _ _ | .activate _ | .deactivate _ | .enter _ | .leave => inferInstanceAs (Decidable (True ∧ _))

instance decidableEach : ∀ (s : State ι T) (es : List (Event ι T)), Decidable (s.Each S P es)
  | _, [] => .isTrue trivial
  | s, e :: es =>
    have (s' : State ι T) := decidableEach s' es
    inferInstanceAs (Decidable (s.AtEvent S P e ∧ ∀ s' ∈ s.step S e, s'.Each S P es))

end State

end Elektra.ContextualValue
