import Elektra.Ease.RelativeName
import Elektra.KeySet.Payload
import Elektra.Lookup.Pop
import Elektra.Mount.Model

/-!
# The profile plugin

A get appends keys to the specification that override those of the current profile: for a key of the
selected profile, and for one of the default profile, where there is none in `current`. The next set is
to remove them again.

* `fnmatch`, `Level`, `profileLevel`, `defaultLevel`: the profiles of a key set;
* `linkLevel`, `elektraProfileGet`, `elektraProfileSet`;
* `session`, `Correct`: runs of gets and sets, and what is expected of them;
* `Covered`: no key is missing in `current`; **`linkLevel_steady`**, **`session_correct`**.

The keys that were appended are not remembered: their key set is freed between the two parts of a get,
and never becomes the data of the plugin.
-/

namespace Elektra.Profile

open Ease (elektraKeyGetRelativeName)

/-! ## Names -/

/-- The ends of a string that a star of a pattern leads to. -/
def starTails : Str → List Str
  | [] => [[]]
  | c :: s => (c :: s) :: if c = pathSeparator then [] else starTails s

/-- `fnmatch` with `FNM_PATHNAME`, where the pattern has no special characters but stars. -/
def fnmatch : Str → Str → Bool
  | [] => fun s => s.isEmpty
  | p :: pattern => fun s =>
    if p = 42 then (starTails s).any (fnmatch pattern)
    else
      match s with
      | [] => false
      | c :: s => p = c && fnmatch pattern s

def PROFILEPATH : Str := str "*/sw/*/*/#*/profile"

def CURRENTPATH : Str := str "*/sw/*/*/#*/current"

def keyDupWithNS (origKey : Key) (ns : ElektraNamespace) : Key :=
  let newKey := match ns with
    | .spec => keyNewName (str "spec")
    | .dir => keyNewName (str "dir")
    | .user => keyNewName (str "user")
    | .system => keyNewName (str "system")
    | .proc => keyNewName (str "proc")
    | _ => keyNewCascading (str "/") none
  let relativeName := match (keyName origKey).dropWhile (· ≠ pathSeparator) with
    | [] => keyName origKey
    | _ :: s => s
  (keyAddName newKey (some relativeName)).2

/-! ## Profiles -/

/-- Where the keys of a profile are, where they are to be as the current ones, and the keys that are
looked up for an override key. -/
structure Level where
  cut : Key
  current : Key
  lookups : Key → List Key

/-- The profile that is the value of a key. -/
def profileLevel (profileKey : Key) : Level :=
  let parent := (keyAddName (keyDup profileKey) (some (str ".."))).2
  let currentProfileKey := (keyAddBaseName parent (some (str "current"))).2
  { cut := (keyAddBaseName parent (some (keyString profileKey))).2
    current := currentProfileKey
    lookups := fun overrideKey => [keyDupWithNS overrideKey (keyGetNamespace currentProfileKey)] }

/-- The default profile below a key. -/
def defaultLevel (profileParent : Key) : Level where
  cut := (keyAddName (keyDup profileParent) (some (str "%"))).2
  current := (keyAddName (keyDup profileParent) (some (str "current"))).2
  lookups overrideKey := [overrideKey, keyDupWithNS overrideKey (keyGetNamespace profileParent)]

/-- The parent of a key `current`. -/
def profileParent (cur : Key) : Key := (keyAddName (keyDup cur) (some (str ".."))).2

def Level.override (level : Level) (cur : Key) : Key :=
  (keyAddName (keyDupWithNS level.current .spec) (some (elektraKeyGetRelativeName cur level.cut))).2

/-! ## Linking -/

/-- The keys below `/sw`, the keys that were appended (also as a log), and whether the key set
`appendedKeys` was freed, and used after that. -/
structure Links where
  w : World
  appended : KeySet
  log : List Key
  freed : Bool
  used : Bool

section Code

variable (cb : Callback) (fuel : ℕ)

/-- `ksLookup` of one key after the other, until one is found. -/
def lookupAny : List Key → World → Except Stop (Bool × World)
  | [], w => .ok (false, w)
  | key :: keys, w => do
    let (k, w) := w.alloc key
    let (found, w) ← ksLookup cb fuel w k {}
    if found.isSome then .ok (true, w.del k) else lookupAny keys (w.del k)

/-- A key is appended to both key sets. -/
def Links.append (st : Links) (overrideKey : Key) : Links :=
  let (k, w) := st.w.alloc (keyDup overrideKey)
  let w := w.appendKey k
  let (k, w) := w.alloc (keyDup overrideKey)
  let (_, h, appended) := ksAppendKey w.heap st.appended k
  { st with
    w := { w with heap := h }
    appended := appended
    log := st.log ++ [overrideKey]
    used := st.used || st.freed }

/-- The loop over the keys of a profile. -/
def linkLoop (level : Level) : List KeyRef → Links → Except Stop Links
  | [], st => .ok st
  | k :: keys, st =>
    let cur := st.w.cell k
    if keyName cur = keyName level.cut then linkLoop level keys st
    else do
      let overrideKey := level.override cur
      let (found, w) ← lookupAny cb fuel (level.lookups overrideKey) st.w
      let st := { st with w := w }
      if found then linkLoop level keys st
      else
        linkLoop level keys
          (st.append (keySetMeta overrideKey (str "override/#0") (some (keyName cur))).2)

/-- The keys of a profile are cut out while they are linked. -/
def linkLevel (st : Links) (level : Level) : Except Stop Links :=
  let (cutKey, w) := st.w.alloc level.cut
  match ksCut w.heap w.ks cutKey with
  | (_, _, none) => .ok st
  | (h, swKS, some profileKS) => do
    let st ← linkLoop cb fuel level profileKS.array { st with w := { heap := h, ks := swKS } }
    let (_, h, swKS) := ksAppend st.w.heap st.w.ks profileKS
    .ok { st with w := { heap := ksDel h profileKS, ks := swKS } }

def linkProfileKeys (st : Links) (profileKeys : List KeyRef) : Except Stop Links :=
  profileKeys.foldlM (fun st k => linkLevel cb fuel st (profileLevel (st.w.cell k))) st

def linkDefaultKeys (st : Links) (profileParents : List KeyRef) : Except Stop Links :=
  profileParents.foldlM (fun st k => linkLevel cb fuel st (defaultLevel (st.w.cell k))) st

/-- The keys of a key set whose names match a pattern. -/
def matching (pattern : Str) (h : Heap) (keys : List KeyRef) : List KeyRef :=
  keys.filter fun k => fnmatch pattern (keyName (h.cell k))

/-- What the profiles below `/sw` are linked to. -/
def linkAll (st : Links) : Except Stop Links := do
  let (h, profileKeys) :=
    ksAppendLoop st.w.heap (ksNew st.w.heap 0 []).2 (matching PROFILEPATH st.w.heap st.w.ks.array)
  let st ← linkProfileKeys cb fuel { st with w := { st.w with heap := h } } profileKeys.array
  let h := ksDel (ksDel st.w.heap profileKeys) st.appended
  let parents := (matching CURRENTPATH h st.w.ks.array).map fun k => profileParent (h.cell k)
  let (h, profileParents) := ksAppendLoop (h.addKeys parents) (ksNew h 0 []).2
    (List.range' h.next parents.length)
  let st ← linkDefaultKeys cb fuel { st with w := { st.w with heap := h }, freed := true } profileParents.array
  .ok { st with w := { st.w with heap := ksDel st.w.heap profileParents } }

/-- The keys after the call, those that were appended, and whether `appendedKeys` was used after it was
freed. -/
structure Got where
  heap : Heap
  returned : KeySet
  log : List Key
  used : Bool

def modules : Str := str "system/elektra/modules/profile"

/-- The data of the plugin stays as it is. -/
def elektraProfileGet (contract : List Key) (h : Heap) (data : Option KeySet) (returned : KeySet)
    (parentKey : Key) : Except Stop Got :=
  if keyName parentKey = modules then
    let (h, contract) := readKeys h contract
    let (_, h, returned) := ksAppend h returned contract
    .ok { heap := ksDel h contract, returned := returned, log := [], used := false }
  else
    let (swKey, h) := h.alloc (keyNewCascading (str "/sw") none)
    match ksCut h returned swKey with
    | (h, returned, none) => .ok { heap := h, returned := returned, log := [], used := false }
    | (h, returned, some swKS) => do
      let (h, appendedKeys) := match data with
        | some appendedKeys => (h, appendedKeys)
        | none => ksNew h 0 []
      let st ← linkAll cb fuel
        { w := { heap := h, ks := swKS }, appended := appendedKeys, log := [], freed := false, used := false }
      let (_, h, returned) := ksAppend st.w.heap returned st.w.ks
      .ok { heap := ksDel h st.w.ks, returned := returned, log := st.log, used := st.used }

/-- The loop of `elektraProfileSet`. -/
def popLoop : List KeyRef → World → Except Stop World
  | [], w => .ok w
  | cur :: keys, w => do
    let (found, w) ← ksLookup cb fuel w cur { pop := true }
    popLoop keys (found.elim w w.del)

def elektraProfileSet (h : Heap) (data : Option KeySet) (returned : KeySet) :
    Except Stop (Heap × Option KeySet × KeySet) :=
  match data with
  | none => .ok (h, none, returned)
  | some appendedKeys => do
    let w ← popLoop cb fuel appendedKeys.array { heap := h, ks := returned }
    .ok (ksDel w.heap appendedKeys, none, w.ks)

/-! ## Sessions -/

inductive Call
  /-- what the storage has -/
  | get (storage : Stored) (parentKey : Key)
  /-- what the caller has -/
  | set (edited : Stored)

/-- The keys before and after a call. -/
inductive Entry
  | get (parentKey : Key) (before after log : List Key) (used : Bool)
  | set (before after : List Key)

/-- Calls on one handle; the storage and the caller make new keys. -/
def session (contract : List Key) (h : Heap) (data : Option KeySet) : List Call → Except Stop (List Entry)
  | [] => .ok []
  | .get storage parentKey :: calls => do
    let (h, returned) := readKeys h storage.keys
    let got ← elektraProfileGet cb fuel contract h data returned parentKey
    let trace ← session contract got.heap data calls
    .ok (.get parentKey storage.keys (got.returned.array.map got.heap.cell) got.log got.used :: trace)
  | .set edited :: calls => do
    let (h, returned) := readKeys h edited.keys
    let (h, data, returned) ← elektraProfileSet cb fuel h data returned
    let trace ← session contract h data calls
    .ok (.set edited.keys (returned.array.map h.cell) :: trace)

end Code

/-! ## What is expected -/

/-- A key that a get may append, the keys that are looked up for it, and where. -/
structure Candidate where
  override : Key
  lookups : List Key
  others : List Key

def Level.candidates (level : Level) (keys : List Key) : List Candidate :=
  (keys.filter fun key => key ∉ leftOver level.cut keys ∧ keyName key ≠ keyName level.cut).map fun key =>
    ⟨level.override key, level.lookups (level.override key), leftOver level.cut keys⟩

/-- The profiles that are selected, and the default profiles. -/
def levels (keys : List Key) : List Level :=
  (keys.filter fun key => fnmatch PROFILEPATH (keyName key)).map profileLevel ++
    (keys.filter fun key => fnmatch CURRENTPATH (keyName key)).map fun key =>
      defaultLevel (profileParent key)

/-- The keys that are taken out below `/sw`. -/
def swKeys (keys : List Key) : List Key :=
  keys.filter fun key => key ∉ leftOver (keyNewCascading (str "/sw") none) keys

def candidates (keys : List Key) : List Candidate :=
  (levels (swKeys keys)).flatMap fun level => level.candidates (swKeys keys)

/-- There is a key of the name. -/
def Candidate.Exists (c : Candidate) : Prop := ∃ l ∈ c.lookups, ∃ key ∈ c.others, key.ukey = l.ukey

/-- What each call has to do; `pending` are the keys appended since the last set. -/
def Correct : List Key → List Entry → Prop
  | _, [] => True
  | pending, .get parentKey before after log used :: rest =>
    used = false ∧
    (keyName parentKey ≠ modules →
      (∀ name, (∃ key ∈ log, keyName key = name) ↔
        ∃ c ∈ candidates before, ¬c.Exists ∧ keyName c.override = name) ∧
      ∀ id, (SortedArray.lookup ident after id).map payload =
        ((SortedArray.lookup ident log id).or (SortedArray.lookup ident before id)).map payload) ∧
    Correct (pending ++ log) rest
  | pending, .set before after :: rest =>
    (∀ id, (SortedArray.lookup ident after id).map payload =
      if ∃ key ∈ pending, ident key = id then none
      else (SortedArray.lookup ident before id).map payload) ∧
    Correct [] rest

/-- Every key that a get may append exists, and none is looked up in all namespaces. -/
def Covered (keys : List Key) : Prop :=
  ∀ c ∈ candidates keys, c.Exists ∧ ∀ l ∈ c.lookups, (keyName l).head? ≠ some pathSeparator

/-! ## New keys -/

theorem storable_addName {key : Key} (h : Storable key) (newName : Option Str) :
    Storable (keyAddName key newName).2 := by
  obtain he | ⟨name, he⟩ := keyAddName_cases key newName
  · rwa [he]
  · rw [he]
    exact ⟨Option.some_ne_none _, rfl⟩

theorem storable_addBaseName {key : Key} (h : Storable key) (baseName : Str) :
    Storable (keyAddBaseName key (some baseName)).2 := by
  unfold keyAddBaseName
  dsimp only
  split_ifs
  · exact h
  · split
    · exact h
    · exact ⟨Option.some_ne_none _, rfl⟩

/-- A key with a name and without a value. -/
structure Blank (key : Key) : Prop where
  storable : Storable key
  data : key.data = none

theorem Blank.addName {key : Key} (h : Blank key) (newName : Option Str) :
    Blank (keyAddName key newName).2 := by
  refine ⟨storable_addName h.storable newName, ?_⟩
  obtain he | ⟨name, he⟩ := keyAddName_cases key newName
  · rw [he, h.data]
  · rw [he]
    exact h.data

theorem blank_dupWithNS (origKey : Key) (ns : ElektraNamespace) : Blank (keyDupWithNS origKey ns) := by
  unfold keyDupWithNS
  refine Blank.addName ?_ _
  cases ns <;> exact ⟨⟨Option.some_ne_none _, rfl⟩, rfl⟩

theorem Blank.callback {key : Key} (h : Blank key) : callbackPointer key = none := by
  rw [callbackPointer, h.data]
  exact ite_self none

theorem storable_dup {key : Key} (h : Storable key) : Storable (keyDup key) := h

/-- A level is made of keys with names. -/
structure Level.Proper (level : Level) : Prop where
  cut : Storable level.cut
  lookups : ∀ key, ∀ l ∈ level.lookups (level.override key), Blank l

theorem proper_profileLevel {key : Key} (h : Storable key) : (profileLevel key).Proper where
  cut := storable_addBaseName (storable_addName (storable_dup h) _) _
  lookups _ l hl := by
    obtain rfl := List.mem_singleton.mp hl
    exact blank_dupWithNS _ _

theorem proper_defaultLevel {key : Key} (h : Storable key) : (defaultLevel key).Proper where
  cut := storable_addName (storable_dup h) _
  lookups _ l hl := by
    obtain rfl | hl := List.mem_cons.mp hl
    · exact (blank_dupWithNS _ _).addName _
    · obtain rfl := List.mem_singleton.mp hl
      exact blank_dupWithNS _ _

theorem storable_profileParent {key : Key} (h : Storable key) : Storable (profileParent key) :=
  storable_addName (storable_dup h) _

theorem proper_levels {keys : List Key} (h : ∀ key ∈ keys, Storable key) :
    ∀ level ∈ levels keys, level.Proper := by
  intro level hl
  obtain hl | hl := List.mem_append.mp hl
  · obtain ⟨key, hkey, rfl⟩ := List.mem_map.mp hl
    exact proper_profileLevel (h key (List.mem_filter.mp hkey).1)
  · obtain ⟨key, hkey, rfl⟩ := List.mem_map.mp hl
    exact proper_defaultLevel (storable_profileParent (h key (List.mem_filter.mp hkey).1))

/-! ## Lookups that find a key -/

/-- The key set stays as it is, and keys keep their contents. -/
structure Idle (w w' : World) : Prop extends Same w w' where
  heap : Unchanged w.heap w'.heap

theorem Idle.trans {w w' w'' : World} (h : Idle w w') (h' : Idle w' w'') : Idle w w'' :=
  ⟨h.toSame.trans h'.toSame, h.heap.trans h'.heap⟩

theorem Idle.holds {w w' : World} (h : Idle w w') {m : Ident → Option KeyRef}
    (hm : w.ks.Holds w.heap m) : w'.ks.Holds w'.heap m :=
  (hm.keeps h.heap.toKeeps).of_array h.array (h.alloc ▸ hm.room) (h.alloc ▸ hm.least)

theorem Idle.ukeys {w w' : World} (h : Idle w w') {m : Ident → Option KeyRef}
    (hm : w.ks.Holds w.heap m) :
    (w'.ks.array.map w'.cell).map Key.ukey = (w.ks.array.map w.cell).map Key.ukey := by
  rw [h.array, List.map_map, List.map_map]
  exact List.map_congr_left fun k hk => (h.heap.toKeeps.cell k (hm.entry k hk).lt).ukey

theorem unchanged_keyDel (h : Heap) (k : KeyRef) : Unchanged h (keyDel h k) :=
  (sameKeys_del h k).sameMeta.unchanged (keeps_del h k)

/-- Some key that is looked up has the name of a key of the list. -/
structure Findable (keys lookups : List Key) : Prop where
  blank : ∀ l ∈ lookups, Blank l
  direct : ∀ l ∈ lookups, (keyName l).head? ≠ some pathSeparator
  found : ∃ l ∈ lookups, ∃ key ∈ keys, key.ukey = l.ukey

section Lookups

variable {cb : Callback} {fuel : ℕ} {w : World} {m : Ident → Option KeyRef}

theorem elektraLookupSearch_ukey {k : KeyRef} (hm : w.ks.Holds w.heap m) (hk : Blank (w.cell k)) :
    (elektraLookupSearch cb w k {}).1 = findByName w.heap w.ks (w.cell k).ukey ∧
      Idle w (elektraLookupSearch cb w k {}).2 := by
  obtain ⟨hfound, hheap, hsame⟩ := @elektraLookupBinarySearch_ukey w k {} m
    ⟨rfl, rfl, rfl, rfl, rfl, rfl, rfl⟩ hm hk.storable.2
  unfold elektraLookupSearch
  generalize elektraLookupBinarySearch w k {} = r at hfound hheap hsame ⊢
  obtain ⟨found, w'⟩ := r
  dsimp only at hfound hheap hsame ⊢
  have hcall : callbackPointer (w'.cell k) = none := by
    rw [World.cell, hheap]
    exact hk.callback
  rw [hcall]
  exact ⟨hfound, hsame, hheap ▸ Unchanged.refl _⟩

theorem Findable.lookup {l : Key} {keys lookups : List Key} (h : Findable keys (l :: lookups)) :
    (∃ key ∈ keys, key.ukey = l.ukey) ∨ Findable keys lookups := by
  obtain ⟨l', hl, hkey⟩ := h.found
  obtain rfl | hl := List.mem_cons.mp hl
  · exact .inl hkey
  · exact .inr ⟨fun l hl => h.blank l (List.mem_cons_of_mem _ hl),
      fun l hl => h.direct l (List.mem_cons_of_mem _ hl), l', hl, hkey⟩

theorem Findable.congr {keys keys' lookups : List Key} (h : Findable keys lookups)
    (hkeys : keys'.map Key.ukey = keys.map Key.ukey) : Findable keys' lookups := by
  obtain ⟨l, hl, key, hkey, hu⟩ := h.found
  have hmem : key.ukey ∈ keys.map Key.ukey := List.mem_map_of_mem hkey
  rw [← hkeys] at hmem
  obtain ⟨key', hkey', hu'⟩ := List.mem_map.mp hmem
  exact ⟨h.blank, h.direct, l, hl, key', hkey', hu'.trans hu⟩

theorem lookupAny_found : ∀ {lookups : List Key} {w : World}, (∃ m, w.ks.Holds w.heap m) →
    Findable (w.ks.array.map w.cell) lookups →
    ∃ w', lookupAny cb (fuel + 1) lookups w = .ok (true, w') ∧ Idle w w'
  | [], _, _, h => by
    obtain ⟨l, hl, -⟩ := h.found
    cases hl
  | l :: lookups, w, ⟨m, hm⟩, h => by
    have halloc : Idle w (w.alloc l).2 := ⟨⟨rfl, rfl⟩, unchanged_alloc _ _⟩
    have hcell : (w.alloc l).2.cell (w.alloc l).1 = l := Function.update_self _ _ _
    have hblank := h.blank l List.mem_cons_self
    obtain ⟨hfound, hidle⟩ := @elektraLookupSearch_ukey cb _ _ _ (halloc.holds hm) (hcell.symm ▸ hblank)
    obtain ⟨name, hname⟩ := Option.ne_none_iff_exists'.mp hblank.storable.1
    have hsearch : ksLookup cb (fuel + 1) (w.alloc l).2 (w.alloc l).1 {} =
        .ok (elektraLookupSearch cb (w.alloc l).2 (w.alloc l).1 {}) := by
      refine @ksLookup_search (w.alloc l).2 (w.alloc l).1 {} cb fuel name rfl rfl rfl rfl
        (hcell.symm ▸ hname) ?_
      have hdirect := h.direct l List.mem_cons_self
      rw [keyName, hname] at hdirect
      simpa [direct] using hdirect
    rw [lookupAny]
    dsimp only
    rw [hsearch]
    rw [hcell] at hfound
    generalize elektraLookupSearch cb (w.alloc l).2 (w.alloc l).1 {} = r at hfound hidle ⊢
    obtain ⟨found, w'⟩ := r
    dsimp only at hfound hidle ⊢
    have hdel : Idle w (w'.del (w.alloc l).1) :=
      (halloc.trans hidle).trans ⟨⟨rfl, rfl⟩, unchanged_keyDel _ _⟩
    cases found with
    | some k => exact ⟨_, rfl, hdel⟩
    | none =>
      have hnone := findByName_none (halloc.holds hm) hfound.symm
      obtain hkey | hrest := h.lookup
      · obtain ⟨key, hkey, hu⟩ := hkey
        obtain ⟨k, hk, rfl⟩ := List.mem_map.mp hkey
        have hlt := (hm.entry k hk).lt
        exact absurd (((halloc.heap.toKeeps.cell k hlt).ukey).trans hu) (hnone k hk)
      · obtain ⟨w'', hret, hidle'⟩ := @lookupAny_found lookups (w'.del (w.alloc l).1)
          ⟨m, hdel.holds hm⟩ (hrest.congr (hdel.ukeys hm))
        exact ⟨w'', hret, hdel.trans hidle'⟩

end Lookups

/-! ## Profiles whose keys are all there -/

theorem Level.override_dup {level : Level} {a b : Key} (h : keyDup b = keyDup a) :
    level.override b = level.override a := by
  change level.override (keyDup b) = level.override (keyDup a)
  rw [h]

theorem keyName_dup {a b : Key} (h : keyDup b = keyDup a) : keyName b = keyName a := by
  change keyName (keyDup b) = keyName (keyDup a)
  rw [h]

/-- The keys are those that `cell` gives, and nothing was appended. -/
structure Steady (refs : List KeyRef) (cell : KeyRef → Key) (m : Ident → Option KeyRef) (st : Links) :
    Prop where
  array : st.w.ks.array = refs
  holds : st.w.ks.Holds st.w.heap m
  dup : ∀ k ∈ refs, keyDup (st.w.cell k) = keyDup (cell k)
  log : st.log = []
  used : st.used = false

/-- All keys that a get may append for the level can be found. -/
structure Level.Settled (level : Level) (keys : List Key) : Prop where
  proper : level.Proper
  findable : ∀ c ∈ level.candidates keys, Findable c.others c.lookups

section Levels

variable {cb : Callback} {fuel : ℕ} {level : Level} {refs : List KeyRef} {cell : KeyRef → Key}
  {m : Ident → Option KeyRef}

theorem linkLoop_settled : ∀ {l : List KeyRef} {st : Links}, (∃ m, st.w.ks.Holds st.w.heap m) →
    (∀ k ∈ l, k < st.w.heap.next ∧ (keyName (st.w.cell k) ≠ keyName level.cut →
      Findable (st.w.ks.array.map st.w.cell) (level.lookups (level.override (st.w.cell k))))) →
    ∃ w', linkLoop cb (fuel + 1) level l st = .ok { st with w := w' } ∧ Idle st.w w'
  | [], st, _, _ => ⟨st.w, rfl, ⟨rfl, rfl⟩, Unchanged.refl _⟩
  | k :: l, st, ⟨m, hm⟩, h => by
    have hrest := fun j hj => h j (List.mem_cons_of_mem k hj)
    rw [linkLoop]
    dsimp only
    split_ifs with hcut
    · exact linkLoop_settled ⟨m, hm⟩ hrest
    · obtain ⟨w₁, hfound, hidle⟩ := @lookupAny_found cb fuel _ st.w ⟨m, hm⟩
        ((h k List.mem_cons_self).2 hcut)
      obtain ⟨w', hret, hidle'⟩ := @linkLoop_settled l { st with w := w₁ } ⟨m, hidle.holds hm⟩
        fun j hj => by
          obtain ⟨hlt, hfind⟩ := hrest j hj
          have hdup := hidle.heap.dup hlt
          refine ⟨lt_of_lt_of_le hlt hidle.heap.next, fun hne => ?_⟩
          change Findable _ (level.lookups (level.override (w₁.heap.cell j)))
          rw [Level.override_dup hdup]
          exact (hfind (keyName_dup hdup ▸ hne)).congr (hidle.ukeys hm)
      rw [hfound]
      exact ⟨w', hret, hidle.trans hidle'⟩

/-- **The keys of a profile are cut out and come back**, when there is a key for each of them. -/
theorem linkLevel_steady {st : Links} (hs : Steady refs cell m st)
    (hset : level.Settled (refs.map cell)) :
    ∃ st', linkLevel cb (fuel + 1) st level = .ok st' ∧ Steady refs cell m st' ∧
      Unchanged st.w.heap st'.w.heap := by
  obtain ⟨w, appended, log, freed, used⟩ := st
  obtain ⟨rfl, hm, hdup, hlog, hused⟩ := hs
  dsimp only at hm hdup hlog hused hset ⊢
  have halloc := unchanged_alloc w.heap level.cut
  have hm₁ := hm.keeps halloc.toKeeps
  obtain ⟨profileKS, hp⟩ := ksCut_new hm hset.proper.cut hdup
  have hrestsub := hp.rest_subset hm₁
  have htakensub := hp.taken_subset hm₁
  obtain ⟨hret, hh, hrest, htaken, hleft, htook⟩ := hp
  rw [alloc_cell] at hleft htook
  have hall := halloc.trans hh
  simp only [linkLevel, World.alloc, alloc_fst]
  generalize ksCut (w.heap.alloc level.cut).2 w.ks w.heap.next = cut at *
  obtain ⟨h₁, swKS, ret⟩ := cut
  dsimp only at *
  subst hret
  have hdup₁ : ∀ k ∈ w.ks.array, keyDup (h₁.cell k) = keyDup (cell k) :=
    fun k hk => (hall.dup (hm.entry k hk).lt).trans (hdup k hk)
  have hukeys : (swKS.array.map h₁.cell).map Key.ukey =
      (leftOver level.cut (w.ks.array.map cell)).map Key.ukey := by
    rw [← hleft, List.map_map, List.map_map]
    exact List.map_congr_left fun k hk => (sameName_of_dup (hdup₁ k (hrestsub k hk))).ukey
  obtain ⟨w', hloop, hidle⟩ := @linkLoop_settled cb fuel level profileKS.array
    ⟨⟨h₁, swKS⟩, appended, log, freed, used⟩ ⟨_, hrest⟩ fun k hk => by
      have hdup := hdup₁ k (htakensub k hk)
      refine ⟨(htaken.entry k hk).lt, fun hne => ?_⟩
      change keyName (h₁.cell k) ≠ keyName level.cut at hne
      change Findable (swKS.array.map h₁.cell) (level.lookups (level.override (h₁.cell k)))
      rw [keyName_dup hdup] at hne
      rw [Level.override_dup hdup]
      refine (hset.findable _ (List.mem_map.mpr ⟨cell k, ?_, rfl⟩)).congr hukeys
      have hmem : cell k ∈ profileKS.array.map cell := List.mem_map_of_mem hk
      rw [htook, List.mem_filter] at hmem
      exact List.mem_filter.mpr ⟨hmem.1, decide_eq_true ⟨of_decide_eq_true hmem.2, hne⟩⟩
  have hunch := hall.trans (hidle.heap.trans
    ((unchanged_append w'.heap w'.ks profileKS).trans (unchanged_del _ profileKS)))
  have hback := ksAppend_holds (hidle.holds hrest) (htaken.keeps hidle.heap.toKeeps)
  rw [CutParts.or] at hback
  have hback := hback.keeps (unchanged_del _ profileKS).toKeeps
  have harray := hm.array_eq hback hunch.toKeeps
  simp only [hloop]
  refine ⟨_, rfl, ⟨harray, hback, fun k hk => ?_, hlog, hused⟩, hunch⟩
  exact (hunch.dup (hm.entry k hk).lt).trans (hdup k hk)

theorem Steady.unchanged {st st' : Links} (hs : Steady refs cell m st) (hks : st'.w.ks = st.w.ks)
    (hh : Unchanged st.w.heap st'.w.heap) (hlog : st'.log = st.log) (hused : st'.used = st.used) :
    Steady refs cell m st' where
  array := hks ▸ hs.array
  holds := hks ▸ hs.holds.keeps hh.toKeeps
  dup k hk := (hh.dup (hs.holds.entry k (hs.array ▸ hk)).lt).trans (hs.dup k hk)
  log := hlog.trans hs.log
  used := hused.trans hs.used

theorem linkLevels_steady {f : Key → Level} (hf : ∀ {a b : Key}, keyDup b = keyDup a → f b = f a) :
    ∀ {keys : List KeyRef} {st : Links}, Steady refs cell m st →
      (∀ k ∈ keys, k < st.w.heap.next ∧ (f (st.w.cell k)).Settled (refs.map cell)) →
      ∃ st', keys.foldlM (fun st k => linkLevel cb (fuel + 1) st (f (st.w.cell k))) st = .ok st' ∧
        Steady refs cell m st' ∧ Unchanged st.w.heap st'.w.heap
  | [], st, hs, _ => ⟨st, rfl, hs, Unchanged.refl _⟩
  | k :: keys, st, hs, h => by
    obtain ⟨st₁, hlevel, hs₁, hh⟩ := @linkLevel_steady cb fuel _ _ _ _ st hs (h k List.mem_cons_self).2
    obtain ⟨st', hret, hs', hh'⟩ := @linkLevels_steady f hf keys st₁ hs₁ fun j hj => by
      obtain ⟨hlt, hset⟩ := h j (List.mem_cons_of_mem k hj)
      have hdup : keyDup (st₁.w.cell j) = keyDup (st.w.cell j) := hh.dup hlt
      refine ⟨lt_of_lt_of_le hlt hh.next, ?_⟩
      rwa [hf hdup]
    refine ⟨st', ?_, hs', hh.trans hh'⟩
    rw [List.foldlM_cons, hlevel]
    exact hret

theorem profileLevel_dup {a b : Key} (h : keyDup b = keyDup a) : profileLevel b = profileLevel a := by
  change profileLevel (keyDup b) = profileLevel (keyDup a)
  rw [h]

theorem defaultLevel_dup {a b : Key} (h : keyDup b = keyDup a) : defaultLevel b = defaultLevel a := by
  change defaultLevel (keyDup b) = defaultLevel (keyDup a)
  rw [h]

theorem profileParent_dup {a b : Key} (h : keyDup b = keyDup a) : profileParent b = profileParent a := by
  change profileParent (keyDup b) = profileParent (keyDup a)
  rw [h]

theorem appendLoop_new {h : Heap} {l : List KeyRef} (ks : KeySet) (hks : ks = (ksNew h 0 []).2)
    (hl : ∀ k ∈ l, Elektra.Entry h k) :
    Unchanged h (ksAppendLoop h ks l).1 ∧ ∀ k ∈ (ksAppendLoop h ks l).2.array, k ∈ l ∧ k < h.next := by
  subst hks
  have hempty := @ksNew_holds h 0 [] (by simp)
  rw [ksNew_empty] at hempty
  have hholds := appendLoop_holds l hempty hl
  refine ⟨(sameKeys_appendLoop l h _).sameMeta.unchanged (keeps_appendLoop l h _), fun k hk => ?_⟩
  obtain hmem | hnone := mem_appendAll (hholds.of_mem hk)
  · exact ⟨hmem, (hl k hmem).lt⟩
  · cases hnone

/-- **Nothing is appended where all keys can be found.** -/
theorem linkAll_steady {st : Links} (hs : Steady refs cell m st)
    (hstorable : ∀ k ∈ refs, Storable (cell k))
    (hset : ∀ level ∈ levels (refs.map cell), level.Settled (refs.map cell)) :
    ∃ st', linkAll cb (fuel + 1) st = .ok st' ∧ Steady refs cell m st' ∧
      Unchanged st.w.heap st'.w.heap := by
  have hentry : ∀ k ∈ refs, Elektra.Entry st.w.heap k := fun k hk => hs.holds.entry k (hs.array ▸ hk)
  obtain ⟨hnew, hmem⟩ := @appendLoop_new st.w.heap (matching PROFILEPATH st.w.heap st.w.ks.array) _ rfl
    fun k hk => hs.holds.entry k (List.mem_of_mem_filter hk)
  unfold linkAll
  dsimp only
  generalize ksAppendLoop st.w.heap (ksNew st.w.heap 0 []).2
    (matching PROFILEPATH st.w.heap st.w.ks.array) = r at hnew hmem ⊢
  obtain ⟨h₁, profileKeys⟩ := r
  dsimp only at hnew hmem ⊢
  obtain ⟨st₁, hfold, hs₁, hh₁⟩ := @linkLevels_steady cb fuel refs cell m profileLevel profileLevel_dup
    profileKeys.array { st with w := { st.w with heap := h₁ } } (hs.unchanged rfl hnew rfl rfl)
    fun k hk => by
      obtain ⟨hk, hlt⟩ := hmem k hk
      obtain ⟨hk, hmatch⟩ := List.mem_filter.mp hk
      rw [hs.array] at hk
      have hdup : keyDup (h₁.cell k) = keyDup (cell k) := (hnew.dup hlt).trans (hs.dup k hk)
      refine ⟨lt_of_lt_of_le hlt hnew.next, ?_⟩
      change (profileLevel (h₁.cell k)).Settled _
      rw [profileLevel_dup hdup]
      refine hset _ (List.mem_append_left _ (List.mem_map.mpr ⟨cell k, List.mem_filter.mpr
        ⟨List.mem_map_of_mem hk, ?_⟩, rfl⟩))
      rwa [← keyName_dup (hs.dup k hk)]
  rw [linkProfileKeys, hfold]
  simp only [bind, Except.bind]
  have hdel : Unchanged st₁.w.heap (ksDel (ksDel st₁.w.heap profileKeys) st₁.appended) :=
    (unchanged_del _ _).trans (unchanged_del _ _)
  generalize ksDel (ksDel st₁.w.heap profileKeys) st₁.appended = h₂ at hdel ⊢
  have hold : ∀ k ∈ refs, keyDup (h₂.cell k) = keyDup (cell k) := fun k hk =>
    (hdel.dup (hs₁.holds.entry k (hs₁.array ▸ hk)).lt).trans (hs₁.dup k hk)
  have hparents : ∀ key ∈ (matching CURRENTPATH h₂ st₁.w.ks.array).map fun k => profileParent (h₂.cell k),
      Storable key ∧ (defaultLevel key).Settled (refs.map cell) := by
    intro key hkey
    obtain ⟨k, hk, rfl⟩ := List.mem_map.mp hkey
    obtain ⟨hk, hmatch⟩ := List.mem_filter.mp hk
    rw [hs₁.array] at hk
    rw [keyName_dup (hold k hk)] at hmatch
    rw [profileParent_dup (hold k hk)]
    exact ⟨storable_profileParent (hstorable k hk), hset _ (List.mem_append_right _ (List.mem_map.mpr
      ⟨cell k, List.mem_filter.mpr ⟨List.mem_map_of_mem hk, hmatch⟩, rfl⟩))⟩
  generalize ((matching CURRENTPATH h₂ st₁.w.ks.array).map fun k => profileParent (h₂.cell k)) = parents
    at hparents ⊢
  obtain ⟨hnew₂, hmem₂⟩ := @appendLoop_new (h₂.addKeys parents) (List.range' h₂.next parents.length)
    (ksNew h₂ 0 []).2 rfl fun k hk => entry_addKeys (fun key hkey => (hparents key hkey).1) hk
  generalize ksAppendLoop (h₂.addKeys parents) (ksNew h₂ 0 []).2
    (List.range' h₂.next parents.length) = r at hnew₂ hmem₂ ⊢
  obtain ⟨h₃, profileParents⟩ := r
  dsimp only at hnew₂ hmem₂ ⊢
  have hh₃ := hdel.trans ((unchanged_addKeys h₂ parents).trans hnew₂)
  obtain ⟨st', hfold', hs', hh'⟩ := @linkLevels_steady cb fuel refs cell m defaultLevel defaultLevel_dup
    profileParents.array { st₁ with w := { st₁.w with heap := h₃ }, freed := true }
    (hs₁.unchanged rfl hh₃ rfl rfl) fun k hk => by
      obtain ⟨hk, hlt⟩ := hmem₂ k hk
      refine ⟨lt_of_lt_of_le hlt hnew₂.next, ?_⟩
      change (defaultLevel (h₃.cell k)).Settled _
      rw [defaultLevel_dup (hnew₂.dup hlt)]
      exact (hparents _ (mem_addKeys hk).1).2
  rw [linkDefaultKeys, hfold']
  exact ⟨_, rfl, hs'.unchanged rfl (unchanged_del _ _) rfl rfl,
    hnew.trans (hh₁.trans (hh₃.trans (hh'.trans (unchanged_del _ _))))⟩

end Levels

/-! ## Calls -/

theorem Covered.settled {keys : List Key} (h : Covered keys) (hstorable : ∀ key ∈ keys, Storable key) :
    ∀ level ∈ levels (swKeys keys), level.Settled (swKeys keys) := by
  intro level hlevel
  have hproper := proper_levels (fun key hkey => hstorable key (List.mem_of_mem_filter hkey)) level hlevel
  refine ⟨hproper, fun c hc => ?_⟩
  obtain ⟨⟨l, hl, key, hkey, hu⟩, hdirect⟩ := h c (List.mem_flatMap.mpr ⟨level, hlevel, hc⟩)
  obtain ⟨key', -, rfl⟩ := List.mem_map.mp hc
  exact ⟨hproper.lookups key', hdirect, l, hl, key, hkey, hu⟩

section Calls

variable {cb : Callback} {fuel : ℕ} {contract : List Key} {h : Heap} {ks : KeySet} {parentKey : Key}
  {m : Ident → Option KeyRef} {cell : KeyRef → Key}

theorem elektraProfileGet_covered (hp : keyName parentKey ≠ modules) (hks : ks.Holds h m)
    (hcell : ∀ k ∈ ks.array, keyDup (h.cell k) = keyDup (cell k) ∧ Storable (cell k))
    (hcov : Covered (ks.array.map cell)) :
    ∃ got, elektraProfileGet cb (fuel + 1) contract h none ks parentKey = .ok got ∧
      got.log = [] ∧ got.used = false ∧ got.returned.Holds got.heap m ∧ Unchanged h got.heap := by
  have hsw : Storable (keyNewCascading (str "/sw") none) := by decide
  obtain ⟨swKS, hparts⟩ := ksCut_new hks hsw fun k hk => (hcell k hk).1
  have halloc := unchanged_alloc h (keyNewCascading (str "/sw") none)
  have hks₁ := hks.keeps halloc.toKeeps
  have htakensub := hparts.taken_subset hks₁
  obtain ⟨hret, hh, hrest, htaken, hleft, htook⟩ := hparts
  rw [alloc_cell] at hleft htook
  have hall := halloc.trans hh
  unfold elektraProfileGet
  rw [if_neg hp]
  simp only [alloc_fst]
  generalize ksCut (h.alloc (keyNewCascading (str "/sw") none)).2 ks h.next = cut at *
  obtain ⟨h₁, returned, ret⟩ := cut
  dsimp only at *
  subst hret
  have hdup : ∀ k ∈ ks.array, keyDup (h₁.cell k) = keyDup (cell k) := fun k hk =>
    (hall.dup (hks.entry k hk).lt).trans (hcell k hk).1
  have hswKeys : swKS.array.map cell = swKeys (ks.array.map cell) := htook
  obtain ⟨st', hlink, hs', hh'⟩ := @linkAll_steady cb fuel swKS.array cell _
    { w := { heap := h₁, ks := swKS }, appended := (ksNew h₁ 0 []).2, log := [], freed := false, used := false }
    ⟨rfl, htaken, fun k hk => hdup k (htakensub k hk), rfl, rfl⟩
    (fun k hk => (hcell k (htakensub k hk)).2)
    (by
      rw [hswKeys]
      refine hcov.settled fun key hkey => ?_
      obtain ⟨k, hk, rfl⟩ := List.mem_map.mp hkey
      exact (hcell k hk).2)
  simp only [ksNew_empty, hlink]
  have hback := ksAppend_holds (hrest.keeps hh'.toKeeps) hs'.holds
  rw [CutParts.or] at hback
  exact ⟨_, rfl, hs'.log, hs'.used, hback.keeps (unchanged_del _ _).toKeeps,
    hall.trans (hh'.trans ((unchanged_append _ _ _).trans (unchanged_del _ _)))⟩

theorem elektraProfileGet_contract (hp : keyName parentKey = modules) :
    ∃ got, elektraProfileGet cb fuel contract h none ks parentKey = .ok got ∧
      got.log = [] ∧ got.used = false := by
  unfold elektraProfileGet
  rw [if_pos hp]
  exact ⟨_, rfl, rfl, rfl⟩

theorem elektraProfileGet_read (h : Heap) (storage : Stored) (hp : keyName parentKey ≠ modules)
    (hcov : Covered storage.keys) :
    ∃ got, elektraProfileGet cb (fuel + 1) contract (readKeys h storage.keys).1 none
        (readKeys h storage.keys).2 parentKey = .ok got ∧
      got.log = [] ∧ got.used = false ∧ ∀ id,
        (SortedArray.lookup ident (got.returned.array.map got.heap.cell) id).map payload =
          (SortedArray.lookup ident storage.keys id).map payload := by
  have hshows := shows_read h storage
  obtain ⟨⟨m, hks⟩, harray, hmap⟩ := readKeys_spec h storage
  have hnew : Unchanged (h.addKeys storage.keys) (readKeys h storage.keys).1 := unchanged_new _ _ _
  rw [← hmap] at hcov
  obtain ⟨got, hgot, hlog, hused, hholds, hunch⟩ := @elektraProfileGet_covered cb fuel contract _ _
    parentKey m _ hp hks (fun k hk => by
      rw [harray] at hk
      obtain ⟨hmem, hlt⟩ := mem_addKeys hk
      exact ⟨hnew.dup hlt, storage.named _ hmem⟩) hcov
  exact ⟨got, hgot, hlog, hused, (hshows.holds hks hholds hunch).lookup.2⟩

theorem session_get {storage : Stored} {calls : List Call} {got : Got} {trace : List Entry}
    (hgot : elektraProfileGet cb fuel contract (readKeys h storage.keys).1 none
      (readKeys h storage.keys).2 parentKey = .ok got)
    (hret : session cb fuel contract got.heap none calls = .ok trace) :
    session cb fuel contract h none (.get storage parentKey :: calls) =
      .ok (.get parentKey storage.keys (got.returned.array.map got.heap.cell) got.log got.used :: trace) := by
  simp only [session, hgot, bind, Except.bind, hret]

/-- **Calls do what is expected when each get finds all keys that it looks up.** -/
theorem session_correct (cb : Callback) (fuel : ℕ) (contract : List Key) : ∀ (calls : List Call) (h : Heap),
    (∀ storage parentKey, .get storage parentKey ∈ calls →
      keyName parentKey = modules ∨ Covered storage.keys) →
    ∃ trace, session cb (fuel + 1) contract h none calls = .ok trace ∧ Correct [] trace
  | [], h, _ => ⟨[], rfl, trivial⟩
  | .get storage parentKey :: calls, h, hcov => by
    have hrest := fun s p hmem => hcov s p (List.mem_cons_of_mem _ hmem)
    by_cases hp : keyName parentKey = modules
    · obtain ⟨got, hgot, hlog, hused⟩ := @elektraProfileGet_contract cb (fuel + 1) contract
        (readKeys h storage.keys).1 (readKeys h storage.keys).2 parentKey hp
      obtain ⟨trace, hret, hcorrect⟩ := session_correct cb fuel contract calls got.heap hrest
      refine ⟨_, session_get hgot hret, ?_⟩
      rw [Correct, hlog]
      exact ⟨hused, fun hne => absurd hp hne, hcorrect⟩
    · have hcov := (hcov storage parentKey List.mem_cons_self).resolve_left hp
      obtain ⟨got, hgot, hlog, hused, hkeys⟩ := @elektraProfileGet_read cb fuel contract parentKey h storage hp hcov
      obtain ⟨trace, hret, hcorrect⟩ := session_correct cb fuel contract calls got.heap hrest
      refine ⟨_, session_get hgot hret, ?_⟩
      rw [Correct, hlog]
      refine ⟨hused, fun _ => ⟨fun name => ⟨?_, ?_⟩, hkeys⟩, hcorrect⟩
      · rintro ⟨key, hkey, -⟩
        cases hkey
      · rintro ⟨c, hc, hnot, -⟩
        exact absurd (hcov c hc).1 hnot
  | .set edited :: calls, h, hcov => by
    have hrest := fun s p hmem => hcov s p (List.mem_cons_of_mem _ hmem)
    obtain ⟨trace, hret, hcorrect⟩ := session_correct cb fuel contract calls (readKeys h edited.keys).1 hrest
    have hlookup := (shows_read h edited).lookup.2
    refine ⟨.set edited.keys ((readKeys h edited.keys).2.array.map (readKeys h edited.keys).1.cell) :: trace,
      ?_, fun id => ?_, hcorrect⟩
    · simp only [session, elektraProfileSet, bind, Except.bind, hret]
    · simpa using hlookup id

end Calls

/-! ## The keys of a profile -/

/-- `user/sw/org/app/#0/profile` with the value `p`. -/
def profileKey : Key := { keyNewName (str "user/sw/org/app/#0/profile") with data := some (str "p" ++ [0]) }

/-- A key of the profile `p`, one of the default profile, and the key of that name in `current`. -/
def linked : Stored where
  keys := [keyNewName (str "user/sw/org/app/#0/%/x"), keyNewName (str "user/sw/org/app/#0/current"),
    keyNewName (str "user/sw/org/app/#0/current/x"), keyNewName (str "user/sw/org/app/#0/p/x"), profileKey]
  sorted := by
    unfold SortedArray.Sorted
    decide +kernel
  named := by decide +kernel

instance (c : Candidate) : Decidable c.Exists :=
  inferInstanceAs (Decidable (∃ l ∈ c.lookups, ∃ key ∈ c.others, key.ukey = l.ukey))

instance (keys : List Key) : Decidable (Covered keys) := List.decidableBAll _ _

theorem session_linked : ∃ trace, session noCallback 1 [] (Heap.ofList []) none
      [.get linked (keyNewName (str "user")), .set linked, .get linked (keyNewName (str "user"))] = .ok trace ∧
    Correct [] trace := by
  refine session_correct noCallback 0 [] _ _ fun storage parentKey hmem => .inr ?_
  have hlinked : storage = linked ∧ parentKey = keyNewName (str "user") := by simpa using hmem
  rw [hlinked.1]
  decide +kernel

/-- A key of the profile `p`. -/
def selected : Stored where
  keys := [keyNewName (str "user/sw/org/app/#0/p/x"), profileKey]
  sorted := by
    unfold SortedArray.Sorted
    decide +kernel
  named := by decide +kernel

/-- The keys that a get makes of them. -/
def overridden : Stored where
  keys := [keyNewName (str "spec/sw/org/app/#0/current/x"), keyNewName (str "user/sw/org/app/#0/p/x"),
    profileKey]
  sorted := by
    unfold SortedArray.Sorted
    decide +kernel
  named := by decide +kernel

/-- The trace is a get that appends the key, and a set that leaves it. -/
def keeps (id : Ident) : List Entry → Bool
  | [.get _ _ _ log _, .set _ after] =>
    decide (∃ key ∈ log, ident key = id) && (SortedArray.lookup ident after id).isSome
  | _ => false

theorem not_correct_of_keeps {id : Ident} {trace : List Entry} (h : keeps id trace = true) :
    ¬Correct [] trace := by
  unfold keeps at h
  split at h
  · rw [Bool.and_eq_true, decide_eq_true_iff] at h
    rintro ⟨-, -, hset, -⟩
    have hnone := hset id
    rw [List.nil_append, if_pos h.1, Option.map_eq_none_iff] at hnone
    rw [hnone] at h
    cases h.2
  · cases h

/-- The override key is appended, and the set does not remove it. -/
theorem not_session_correct : ¬∃ trace, session noCallback 1 [] (Heap.ofList []) none
      [.get selected (keyNewName (str "user")), .set overridden] = .ok trace ∧ Correct [] trace := by
  rintro ⟨trace, htrace, hcorrect⟩
  have hrun : (session noCallback 1 [] (Heap.ofList []) none
      [.get selected (keyNewName (str "user")), .set overridden]).toOption.any
        (keeps (ident (keyNewName (str "spec/sw/org/app/#0/current/x")))) = true := by decide +kernel
  rw [htrace] at hrun
  exact not_correct_of_keeps hrun hcorrect

end Elektra.Profile
