import Elektra.Mount.Model

/-!
# Splitting key sets

A split is the part of the handle's list of backends that a parent key asks for, each backend with
its own keys.

* `ksAppendValue`: what `ksAppendKey` does to a key set that no other one shares keys with;
* `splitBuildup`;
* `splitSearchBackend`, `splitDivide`, `splitAppoint`, `splitMerge`;
* `splitSync`, `splitPrepare`, `splitUpdateSize`.
-/

namespace Elektra

/-! ## Key sets by their keys -/

/-- `ksAppendKey`, of the keys themselves. -/
def ksAppendValue (ks : List Key) (toAppend : Key) : List Key :=
  if toAppend.key = none then ks
  else
    let toAppend := { toAppend with roName := true }
    let order (i : ℕ) := (ks[i]?).elim .lt fun k => keyCompareByNameOwner toAppend k
    let result := Bisect.closed order ks.length
    if 0 ≤ result then ks.set result.toNat toAppend
    else
      let insertpos := (-result - 1).toNat
      ks.take insertpos ++ toAppend :: ks.drop insertpos

def keyClearSync (key : Key) : Key := { key with sync := false }

def keyNeedSync (key : Key) : Bool := key.sync

/-- `ksDeepDup`; the duplicates keep the flag of their key. -/
def ksDeepDup (ks : List Key) : List Key :=
  ks.foldl (fun n k => ksAppendValue n (if k.sync then keyDup k else keyClearSync (keyDup k))) []

/-! ## Building up -/

variable {W : Type}

/-- `keyRel (key, check) >= 0` -/
def keyRelated (key check : Key) : Bool := (keyRel key check).any (0 ≤ ·)

/-- Whether an entry of the handle is appended; `backend` is that of `parentKey`. -/
def splitBuildupTest (backend : Option BackendRef) (parentKey : Option Key) (e : SplitEntry) : Bool :=
  match parentKey with
  | none => true
  | some parentKey =>
    backend = e.handle && keyRelated e.parent parentKey || keyRelated parentKey e.parent

/-- The loop of `splitBuildup`. -/
def splitBuildupLoop (split : Split) (kdb : KDB W) (parentKey : Option Key) : Split :=
  let backend := mountGetBackend kdb parentKey
  kdb.split.foldl (fun split e =>
    if splitBuildupTest backend parentKey e then
      splitAppend split e.handle (keyDup e.parent) e.syncbits
    else split) split

/-- The name of a cascading parent key in a namespace. -/
def splitNamespaceKey (ns : Namespace) (parentKey : Key) : Key :=
  (keyAddName (keyNewName ns.name) (some (keyName parentKey))).2

/-- A cascading parent key is looked for in every namespace that a backend can be mounted in. -/
def splitBuildup (split : Split) (kdb : KDB W) (parentKey : Option Key) : ℤ × Split :=
  match parentKey with
  | none => (1, splitBuildupLoop split kdb none)
  | some parentKey =>
    let name := keyName parentKey
    if name = [] ∨ name = [pathSeparator] then (1, splitBuildupLoop split kdb none)
    else if name.head? = some pathSeparator then
      (1, rootNamespaces.foldl (fun split ns =>
        splitBuildupLoop split kdb (some (splitNamespaceKey ns parentKey))) split)
    else (1, splitBuildupLoop split kdb (some parentKey))

/-! ## Which part a key belongs to -/

def keyIsSpec (key : Key) : Bool := (key.key.map keyNameIsSpec).getD false

def keyIsDir (key : Key) : Bool := (key.key.map keyNameIsDir).getD false

/-- The test of the parent of a cascading entry; `none` are the namespaces without one. -/
def parentTest : ElektraNamespace → Option (Key → Bool)
  | .spec => some keyIsSpec
  | .dir => some keyIsDir
  | .user => some keyIsUser
  | .system => some keyIsSystem
  | .proc | .empty | .metaName | .cascading => none

/-- The first entry of the backend, of those of a cascading one that in the namespace of `parent`. -/
def splitSearchBackend : Split → Option BackendRef → Key → Option ℕ
  | [], _, _ => none
  | e :: split, backend, parent =>
    if backend = e.handle then
      if test_bit e.syncbits SPLIT_FLAG_CASCADING then
        match parentTest (keyGetNamespace parent) with
        | none => none
        | some test =>
          if test e.parent then some 0 else (splitSearchBackend split backend parent).map (· + 1)
      else some 0
    else (splitSearchBackend split backend parent).map (· + 1)

/-- The loop of `splitDivide`: the return value and the entries. -/
def splitDivideLoop (handle : KDB W) : List Key → Split → ℤ → ℤ × Split
  | [], split, needsSync => (needsSync, split)
  | curKey :: ks, split, needsSync =>
    match mountGetBackend handle (some curKey) with
    | none => (-1, split)
    | some curHandle =>
      match splitSearchBackend split (some curHandle) curKey with
      | none => splitDivideLoop handle ks split needsSync -- not relevant in this kdbSet
      | some curFound =>
        let split := split.modify curFound fun e =>
          { e with
            keyset := ksAppendValue e.keyset curKey
            syncbits := if keyNeedSync curKey then set_bit e.syncbits SPLIT_FLAG_SYNC else e.syncbits }
        splitDivideLoop handle ks split (if keyNeedSync curKey then 1 else needsSync)

def splitDivide (split : Split) (handle : KDB W) (ks : List Key) : ℤ × Split :=
  splitDivideLoop handle ks split 0

/-- The loop of `splitAppoint`. -/
def splitAppointLoop (handle : KDB W) (defFound : ℕ) : List Key → Split → ℤ × Split
  | [], split => (1, split)
  | curKey :: ks, split =>
    match mountGetBackend handle (some curKey) with
    | none => (-1, split)
    | some curHandle =>
      let curFound := (splitSearchBackend split (some curHandle) curKey).getD defFound
      if test_bit ((split[curFound]?).elim 0 SplitEntry.syncbits) SPLIT_FLAG_SYNC then
        splitAppointLoop handle defFound ks split
      else
        splitAppointLoop handle defFound ks
          (split.modify curFound fun e => { e with keyset := ksAppendValue e.keyset curKey })

/-- The last entry is the bypass, for the keys that belong to no other one; it has neither a backend
nor a parent. -/
def splitAppoint (split : Split) (handle : KDB W) (ks : List Key) : ℤ × Split :=
  splitAppointLoop handle split.length ks (splitAppend split none keyNew 0)

def splitMerge (split : Split) (dest : List Key) : ℤ × List Key :=
  (1, split.foldl (fun dest e => e.keyset.foldl ksAppendValue dest) dest)

/-! ## Sizes -/

/-- The recorded size of a namespace; `none` are the namespaces without one. -/
def Backend.size (backend : Backend W) : ElektraNamespace → Option ℤ
  | .spec => some backend.specsize
  | .dir => some backend.dirsize
  | .user => some backend.usersize
  | .system => some backend.systemsize
  | .proc | .empty | .metaName | .cascading => none

def backendUpdateSize (backend : Backend W) (parent : Key) (size : ℤ) : ℤ × Backend W :=
  match keyGetNamespace parent with
  | .spec => (0, { backend with specsize := size })
  | .dir => (0, { backend with dirsize := size })
  | .user => (0, { backend with usersize := size })
  | .system => (0, { backend with systemsize := size })
  | .proc | .empty | .metaName | .cascading => (-1, backend)

/-- The backend of an entry; only the bypass of `kdbGet` has none, and there it is not asked for. -/
def SplitEntry.backend (e : SplitEntry) (handle : KDB W) : Backend W := handle.backend (e.handle.getD 0)

/-- The loop of `splitSync` from entry `i` on. -/
def splitSyncLoop (handle : KDB W) : ℕ → Split → ℤ → ℤ × Split
  | _, [], needsSync => (needsSync, [])
  | i, e :: split, needsSync =>
    match (e.backend handle).size (keyGetNamespace e.parent) with
    | none => (-1, e :: split)
    | some size =>
      if size = -1 then (-i - 2, e :: split)
      else if size ≠ e.keyset.length then
        let r := splitSyncLoop handle (i + 1) split 1
        (r.1, { e with syncbits := set_bit e.syncbits SPLIT_FLAG_SYNC } :: r.2)
      else
        let r := splitSyncLoop handle (i + 1) split needsSync
        (r.1, e :: r.2)

def splitSync (split : Split) (handle : KDB W) : ℤ × Split := splitSyncLoop handle 0 split 0

/-- Entries without sync bit are removed, the keys of the others duplicated. -/
def splitPrepare (split : Split) : Split :=
  (split.filter fun e => test_bit e.syncbits 1).map fun e => { e with keyset := ksDeepDup e.keyset }

/-- `backend->...size = ksGetSize (...)`, up to the first entry of a namespace without size. -/
def splitUpdateSize (handle : KDB W) : Split → ℤ × KDB W
  | [] => (1, handle)
  | e :: split =>
    let (ret, backend) := backendUpdateSize (e.backend handle) e.parent e.keyset.length
    if ret = -1 then (-1, handle)
    else
      splitUpdateSize
        { handle with backend := Function.update handle.backend (e.handle.getD 0) backend } split

end Elektra
