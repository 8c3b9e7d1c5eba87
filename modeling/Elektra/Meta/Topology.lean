import Elektra.Lookup.Search

/-!
# Topological sorting

The metakeys `dep/#0`, `dep/#1`, ... of a key name the keys that it depends on. Keys without them are
resolved at once, the others by and by; each key that is resolved gets the next number as its
`order`, and by it the keys are sorted in the end.

* `Qsort`: what is known of `qsort`;
* `AdjMatrix`: the matrix, whose rows and columns are named by their keys;
* `resolveDeps`: all keys that a key depends on; **`elektraSortTopology`**.
-/

namespace Elektra

/-- `qsort` of pointers to keys. -/
abbrev Qsort := (KeyRef → KeyRef → Ordering) → List KeyRef → List KeyRef

/-- It sorts; keys that compare equal stand in any order. -/
structure Qsort.Sorts (sort : Qsort) : Prop where
  perm : ∀ cmp l, (sort cmp l).Perm l
  pairwise : ∀ cmp l, Std.TransCmp cmp → (sort cmp l).Pairwise fun a b => cmp a b ≠ .gt

/-! ## Metadata -/

/-- `elektraMetaArrayToKS`: the value of the metakey, and of the elements of its array. -/
def elektraMetaArrayToKS (key : Key) (metaName : Str) : Option (Str × List Str) :=
  (keyGetMeta key metaName).map fun value =>
    (value, if value.head? = some 35 then linkValues key (metaName ++ [pathSeparator]) else [])

/-- `keyString (keyGetMeta (key, "order"))` -/
def orderString (key : Key) : Str := (keyGetMeta key (str "order")).getD (str "(null)")

def topCmpOrder (h : Heap) (a b : KeyRef) : Ordering :=
  compare (orderString (h.cell a)) (orderString (h.cell b))

def isValidKeyName (testName : Str) : Bool := keyName (keyNewName testName) = testName

/-! ## The matrix -/

/-- `_adjMatrix`. The keys of `done` are counted only; `orderCounter` is at their number. -/
structure AdjMatrix where
  heap : Heap
  isResolved : KeyRef → Bool
  deps : KeyRef → KeyRef → Bool
  done : ℕ

/-- The key with this name; it stands for its index. -/
def getArrayIndex (h : Heap) (keys : List KeyRef) (name : Str) : Option KeyRef :=
  keys.find? fun k => keyName (h.cell k) = name

namespace AdjMatrix

variable (m : AdjMatrix) (keys : List KeyRef)

/-- The next number as `order`, the number incremented, and the key appended to `done`. -/
def append (k : KeyRef) : AdjMatrix :=
  { m with
    heap := m.heap.set k
      (keySetMeta (m.heap.cell k) (str "order") (some (elektraWriteArrayNumber m.done))).2
    isResolved := Function.update m.isResolved k true
    done := m.done + 1 }

def resolveDep (j : KeyRef) : ℕ × AdjMatrix :=
  (keys.countP fun i => m.deps i j,
    { m with deps := fun i k => if i ∈ keys ∧ k = j then false else m.deps i k })

def hasUnresolvedDependencies (j : KeyRef) : Bool := keys.any (m.deps j)

/-- A key whose dependencies are resolved. -/
def resolve (j : KeyRef) : AdjMatrix := (m.resolveDep keys j).2.append j

end AdjMatrix

/-! ## Collecting the dependencies -/

/-- The inner loop over the dependencies of `j`: the return value, and how many are unresolved. -/
def depLoop (keys : List KeyRef) (j : KeyRef) : List Str → AdjMatrix → ℕ → ℤ × ℕ × AdjMatrix
  | [], m, gotUnresolved => (1, gotUnresolved, m)
  | name :: deps, m, gotUnresolved =>
    if !isValidKeyName name then (-1, gotUnresolved, m)
    else
      match getArrayIndex m.heap keys name with
      | none => depLoop keys j deps m gotUnresolved
      | some i =>
        if i = j ∨ m.isResolved i then depLoop keys j deps m gotUnresolved
        else
          let m := { m with deps := Function.update m.deps j (Function.update (m.deps j) i true) }
          if m.deps i j then (0, gotUnresolved + 1, m) else depLoop keys j deps m (gotUnresolved + 1)

/-- What the loop over the keys collects. -/
structure Collected where
  matrix : AdjMatrix
  unresolved : ℕ
  depCount : ℤ

/-- The keys that need nothing to be resolved: they have no dependencies, or only themselves. -/
def resolvedAtOnce (key : Key) : Bool :=
  match elektraMetaArrayToKS key (str "dep") with
  | none => true
  | some (_, deps) => deps = [keyName key]

/-- The names that a key depends on. -/
def depNames (key : Key) : List Str := (elektraMetaArrayToKS key (str "dep")).elim [] Prod.snd

def collectLoop (keys : List KeyRef) : List KeyRef → Collected → ℤ × Collected
  | [], c => (1, c)
  | j :: js, c =>
    if resolvedAtOnce (c.matrix.heap.cell j) then
      collectLoop keys js { c with matrix := c.matrix.append j }
    else
      let (retVal, gotUnresolved, m) := depLoop keys j (depNames (c.matrix.heap.cell j)) c.matrix 0
      let c :=
        if gotUnresolved = 0 then { c with matrix := m }
        else
          { matrix := { m with isResolved := Function.update m.isResolved j false }
            unresolved := c.unresolved + 1
            depCount := c.depCount + gotUnresolved }
      if retVal ≤ 0 then (retVal, c) else collectLoop keys js c

/-! ## Resolving -/

/-- The keys that are still to be resolved for another one. -/
structure Frontier where
  member : KeyRef → Bool
  todo : ℕ
  found : Bool

/-- The dependencies of `i` are added. -/
def frontierAdd (m : AdjMatrix) (keys : List KeyRef) (f : Frontier) (i : KeyRef) : Frontier :=
  if f.member i && m.hasUnresolvedDependencies keys i then
    keys.foldl (fun f k =>
      if m.deps i k && !f.member k then
        { member := Function.update f.member k true, todo := f.todo + 1, found := true }
      else f) f
  else f

/-- The loop that adds until nothing is found; each round but the last adds a key. -/
def frontierLoop (m : AdjMatrix) (keys : List KeyRef) : ℕ → Frontier → Frontier
  | 0, f => f
  | n + 1, f =>
    let f := keys.foldl (frontierAdd m keys) { f with found := false }
    if f.found then frontierLoop m keys n f else f

/-- A pass over the keys that resolves those of the frontier, as far as possible. -/
def frontierPass (keys : List KeyRef) : List KeyRef → Frontier → AdjMatrix → Frontier × AdjMatrix
  | [], f, m => (f, m)
  | i :: is, f, m =>
    if f.todo = 0 then (f, m)
    else if f.member i && !m.hasUnresolvedDependencies keys i then
      frontierPass keys is
        { f with member := Function.update f.member i false, todo := f.todo - 1 } (m.resolve keys i)
    else frontierPass keys is f m

/-- At most so many passes. -/
def frontierPasses (keys : List KeyRef) : ℕ → Frontier → AdjMatrix → ℤ × AdjMatrix
  | 0, f, m => (if f.todo = 0 then 1 else -1, m)
  | n + 1, f, m =>
    if f.todo = 0 then (1, m)
    else
      let (f, m) := frontierPass keys keys f m
      frontierPasses keys n f m

def resolveDeps (keys : List KeyRef) (j : KeyRef) (m : AdjMatrix) : ℤ × AdjMatrix :=
  let frontier : Frontier :=
    { member := fun i => keys.contains i && m.deps j i, todo := keys.countP (m.deps j), found := true }
  let frontier := frontierLoop m keys (keys.length + 1) frontier
  if frontier.todo = 0 then (1, m.resolve keys j)
  else frontierPasses keys (frontier.todo + 1) frontier m

/-- The loop that resolves the keys; `js` are those behind the index. -/
def sortLoop (keys : List KeyRef) (hasOrder : Bool) :
    ℕ → List KeyRef → Bool → ℕ → AdjMatrix → Option (ℕ × AdjMatrix)
  | 0, _, _, _, _ => none
  | fuel + 1, [], found, unresolved, m =>
    if found then sortLoop keys hasOrder fuel keys false 0 m else some (unresolved, m)
  | fuel + 1, j :: js, found, unresolved, m =>
    if m.isResolved j then sortLoop keys hasOrder fuel js found unresolved m
    else if hasOrder then
      let (ret, m) := resolveDeps keys j m
      if ret = -1 then some (unresolved + 1, m)
      else sortLoop keys hasOrder fuel keys true (unresolved + 1) m
    else if m.hasUnresolvedDependencies keys j then
      sortLoop keys hasOrder fuel js found (unresolved + 1) m
    else sortLoop keys hasOrder fuel js true (unresolved + 1) (m.resolve keys j)

/-- The dependencies on keys that are resolved are removed, and no longer counted. -/
def resolveImmediately (keys : List KeyRef) (depCount : ℤ) (m : AdjMatrix) : ℤ × AdjMatrix :=
  keys.foldl (fun r j =>
    if r.2.isResolved j then (r.1 - (r.2.resolveDep keys j).1, (r.2.resolveDep keys j).2) else r)
    (depCount, m)

/-- More steps than `sortLoop` takes. -/
def sortFuel (size : ℕ) : ℕ := (2 * size + 2) * (size + 1)

/-- The keys with their new `order`, the return value, and the array. The two calls of `qsort` need
not arrange keys of one `order` alike. `none`: the first entry of an empty array is read. -/
def elektraSortTopology (sort sort' : Qsort) (h : Heap) (ks : List KeyRef) :
    Option (Heap × ℤ × Option (List KeyRef)) :=
  match sort (topCmpOrder h) ks with
  | [] => none
  | first :: rest =>
    let localArray := first :: rest
    let hasOrder := (keyGetMeta (h.cell first) (str "order")).isSome
    let matrix : AdjMatrix :=
      { heap := h, isResolved := fun _ => false, deps := fun _ _ => false, done := 0 }
    let (retVal, c) :=
      collectLoop localArray localArray { matrix := matrix, unresolved := 0, depCount := 0 }
    if retVal ≤ 0 then some (c.matrix.heap, retVal, none)
    else
      let (depCount, m) := resolveImmediately localArray c.depCount c.matrix
      if depCount + m.done ≥ localArray.length ∧ c.unresolved ≠ 0 then some (m.heap, 0, none)
      else
        let r :=
          if c.unresolved ≠ 0 then
            sortLoop localArray hasOrder (sortFuel localArray.length) localArray true c.unresolved m
          else some (0, m)
        r.map fun (unresolved, m) =>
          if unresolved = 0 then (m.heap, 1, some (sort' (topCmpOrder m.heap) ks))
          else (m.heap, 0, none)

end Elektra
