import Elektra.KeySet.Cut
import Elektra.Lookup.Pop

/-!
# Several key sets over the same keys

An application works on several key sets that share their keys. A call is one of the operations on
key sets; what it should do is said of finite maps, in terms of the keys that it returned.

* `Store`, `Call`, `step`, `run`: the key sets and the calls;
* `Maps`, `Call.apply`: the abstract maps, and what a call does to them;
* `Call.Valid`, `Call.Fits`: the arguments that calls are made for, and those that they get right.
-/

namespace Elektra

/-- The keys, and the key sets by their pointers. -/
structure Store where
  heap : Heap
  sets : ℕ → Option KeySet

namespace Store

/-- No key set yet. -/
def init (h : Heap) : Store := { heap := h, sets := fun _ => none }

def put (st : Store) (i : ℕ) (h : Heap) (ks : KeySet) : Store :=
  { heap := h, sets := Function.update st.sets i (some ks) }

end Store

/-- A call. Key sets and keys are given by their pointers; the new key set of `new`, `cut` and `dup`
goes to a pointer that the caller names. -/
inductive Call
  | new (i alloc : ℕ) (keys : List KeyRef)
  | appendKey (i : ℕ) (k : KeyRef)
  | append (i toAppend : ℕ)
  | pop (i : ℕ)
  | popAtCursor (i : ℕ) (pos : ℤ)
  | cut (i returned : ℕ) (cutpoint : KeyRef)
  /-- The calls inside one another are at most `fuel`. -/
  | lookup (i : ℕ) (key : KeyRef) (o : Options) (fuel : ℕ)
  | dup (i source : ℕ)
  | copy (dest source : ℕ)
  | clear (i : ℕ)
  | resize (i alloc : ℕ)

/-- The keys that a call returns. -/
inductive Ret
  | none
  | key (k : Option KeyRef)
  | keys (l : List KeyRef)

/-- One call; `none` where a key set does not exist, or a lookup does not return. -/
def step (cb : Callback) (st : Store) : Call → Option (Store × Ret)
  | .new i alloc keys =>
    let (h, ks) := ksNew st.heap alloc keys
    some (st.put i h ks, .none)
  | .appendKey i k => do
    let ks ← st.sets i
    let (_, h, ks) := ksAppendKey st.heap ks k
    some (st.put i h ks, .none)
  | .append i toAppend => do
    let ks ← st.sets i
    let other ← st.sets toAppend
    let (_, h, ks) := ksAppend st.heap ks other
    some (st.put i h ks, .none)
  | .pop i => do
    let ks ← st.sets i
    let (k, h, ks) := ksPop st.heap ks
    some (st.put i h ks, .key k)
  | .popAtCursor i pos => do
    let ks ← st.sets i
    let (k, h, ks) := elektraKsPopAtCursor st.heap ks pos
    some (st.put i h ks, .key k)
  | .cut i returned cutpoint => do
    let ks ← st.sets i
    let (h, ks, ret) := ksCut st.heap ks cutpoint
    let ret ← ret
    some ((st.put i h ks).put returned h ret, .keys ret.array)
  | .lookup i key o fuel => do
    let ks ← st.sets i
    let (k, w) ← (ksLookup cb fuel { heap := st.heap, ks := ks } key o).toOption
    some (st.put i w.heap w.ks, .key k)
  | .dup i source => do
    let ks ← st.sets source
    let (h, ks) := ksDup st.heap ks
    some (st.put i h ks, .none)
  | .copy dest source => do
    let ks ← st.sets dest
    let other ← st.sets source
    -- the source is read after the destination was cleared
    let other := if dest = source then (ksClear st.heap ks).2 else other
    let (_, h, ks) := ksCopy st.heap ks (some other)
    some (st.put dest h ks, .none)
  | .clear i => do
    let ks ← st.sets i
    let (h, ks) := ksClear st.heap ks
    some (st.put i h ks, .none)
  | .resize i alloc => do
    let ks ← st.sets i
    some (st.put i st.heap (ksResize ks alloc).2, .none)

/-! ## The abstract maps -/

/-- The finite maps that the key sets should hold. -/
abbrev Maps := ℕ → Option (Ident → Option KeyRef)

namespace Maps

def modify (ms : Maps) (i : ℕ) (f : (Ident → Option KeyRef) → Ident → Option KeyRef) : Maps :=
  Function.update ms i ((ms i).map f)

end Maps

/-- What a call should do to the maps, given the keys that it returned: appending replaces the key of
the same identity, popping and cutting remove exactly the keys that are returned, and a default key
that a lookup returns is added. -/
def Call.apply (h : Heap) : Call → Ret → Maps → Maps
  | .new i alloc keys, _, ms =>
    Function.update ms i (some (appendAll h.ident (fun _ => none) (if alloc = 0 then [] else keys)))
  | .appendKey i k, _, ms => ms.modify i fun m => Function.update m (h.ident k) (some k)
  | .append i toAppend, _, ms =>
    ms.modify i fun m id => ((ms toAppend).bind (· id)).or (m id)
  | .pop i, .key (some k), ms => ms.modify i fun m => Function.update m (h.ident k) none
  | .popAtCursor i _, .key (some k), ms => ms.modify i fun m => Function.update m (h.ident k) none
  | .cut i returned _, .keys l, ms =>
    Function.update (ms.modify i fun m id => (m id).filter (· ∉ l)) returned
      ((ms i).map fun m id => (m id).filter (· ∈ l))
  | .lookup i _ o _, .key (some k), ms =>
    if o.pop then ms.modify i fun m => Function.update m (h.ident k) none
    else if (h.cell k).key = none then ms
    else ms.modify i fun m => Function.update m (h.ident k) (some k)
  | .dup i source, _, ms => Function.update ms i (ms source)
  | .copy dest source, _, ms => Function.update ms dest (ms source)
  | .clear i, _, ms => ms.modify i fun _ _ => none
  | _, _, ms => ms

/-! ## Arguments -/

/-- The keys are keys with a name, and the options of lookups are at most `KDB_O_POP` and those that
say where to search. -/
def Call.Valid (st : Store) : Call → Prop
  | .new _ _ keys => ∀ k ∈ keys, Entry st.heap k
  | .appendKey _ k => Entry st.heap k
  | .cut _ _ cutpoint => Entry st.heap cutpoint
  | .lookup _ key o _ =>
    key < st.heap.next ∧ (∃ name, Finalized (st.heap.cell key) name) ∧ (o.Plain ∨ o.Popping)
  | _ => True

/-- No key set is copied to itself, the cutpoint is not a cascading key of the key set itself, a
lookup with `KDB_O_POP` consults no key of the specification, and an array of `KEYSET_SIZE` keys or
more is not resized to just its keys. -/
def Call.Fits (st : Store) : Call → Prop
  | .cut i _ cutpoint => ∀ ks, st.sets i = some ks → Cascading (st.heap.cell cutpoint) →
    cutpoint ∉ ks.array
  | .lookup i key o _ => ∀ ks name, st.sets i = some ks → (st.heap.cell key).key = some name →
    o.pop = true → ¬ ConsultsSpec (content st.heap ks) name o
  | .copy dest source => dest = source → ∀ ks, st.sets dest = some ks → ks.array = []
  | .resize i alloc => ∀ ks, st.sets i = some ks → alloc + 1 = ks.size → ks.size < KEYSET_SIZE
  | _ => True

/-! ## Runs -/

/-- A sequence of calls, and what it should do to the maps. -/
def run (cb : Callback) : Store → Maps → List Call → Option (Store × Maps)
  | st, ms, [] => some (st, ms)
  | st, ms, c :: calls => do
    let (st, ret) ← step cb st c
    run cb st (c.apply st.heap ret ms) calls

/-- All calls of a sequence satisfy a condition, each in the state in which it is made. -/
def AllCalls (cb : Callback) (P : Store → Call → Prop) : Store → List Call → Prop
  | _, [] => True
  | st, c :: calls => P st c ∧ ∀ st' ret, step cb st c = some (st', ret) → AllCalls cb P st' calls

end Elektra
