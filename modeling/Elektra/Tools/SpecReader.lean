import Mathlib.Data.List.Sort
import Elektra.KeySet.CutCursor
import Elektra.Lookup.Take
import Elektra.Search.Nested
import Elektra.Tools.Builder

/-!
# The reader of a specification

The keys of a specification that have a `mountpoint` get a builder each. The reader takes the keys below a
mountpoint out of the key set that it iterates over, and reads them in turn.

* `BuilderCalls`: what is called of a builder, whatever it does;
* `processKey`, `readMountpointSpecification`, `readSpecification`;
* `built`: a builder that has processed given keys;
* **`readSpecification_spec`**: each key is processed by the builder of the nearest mountpoint.
-/

namespace Elektra.Tools

open Nested Run

/-! ## The code -/

/-- What the reader calls of a `MountBackendBuilder`, with the exceptions `E`. `addPlugins` parses its
argument, and the mountpoint is set for an empty mount configuration. -/
structure BuilderCalls (B E : Type) where
  create : B
  setMountpoint : B → Key → Except E B
  addPlugins : B → Str → Except E B
  needPlugin : B → Str → B
  recommendPlugin : B → Str → B
  needMetadata : B → Str → B
  setBackendConfig : B → List Key → B
  useConfigFile : B → Str → Except E B

structure SpecBackendBuilder (B : Type) where
  builder : B
  nodes : ℕ

/-- How reading ends without a result. The first two are exceptions; `nullKey` is a use of a null pointer, and
`rounds` the bound on the rounds of the model. -/
inductive SpecStop (E : Type)
  | builder (e : E)
  | keyInvalidName
  | nullKey
  | lookup (stop : Stop)
  | rounds

structure SpecMountpointReader (B : Type) where
  bb : SpecBackendBuilder B
  backendConfig : List Key

/-- A map from keys, of which those with the same name and owner are equal. -/
abbrev Backends (B : Type) := Ident → Option (SpecBackendBuilder B)

def startsWith (s start : Str) : Bool := start.isPrefixOf s

def isToBeIgnored (name : Str) : Bool :=
  startsWith name (str "infos") || startsWith name (str "exports") || startsWith name (str "constants") ||
  startsWith name (str "fallback") || startsWith name (str "override") || startsWith name (str "namespace") ||
  name = str "default" || name = str "context" ||
  startsWith name (str "callback") || startsWith name (str "required") || startsWith name (str "binary") ||
  startsWith name (str "type") || startsWith name (str "opt") || startsWith name (str "env") ||
  startsWith name (str "comment") || startsWith name (str "description") || startsWith name (str "see") ||
  startsWith name (str "rationale") || startsWith name (str "example") ||
  name = str "mountpoint" || startsWith name (str "config")

/-- The metadata of a key in the order of its key set. -/
def metadataOf (key : Key) : List (Str × Str) :=
  key.metaKeys.insertionSort fun a b => (compare (unameOf a.1) (unameOf b.1)).isLE

/-- `Key::setName` -/
def setName {E : Type} (key : Key) (newName : Str) : Except (SpecStop E) Key :=
  let (ret, key) := keySetName key (some newName)
  if ret = -1 then .error .keyInvalidName else .ok key

def removeNamespace {E : Type} (key : Key) : Except (SpecStop E) Key :=
  match (keyName key).dropWhile (· ≠ pathSeparator) with
  | [] => setName key [pathSeparator]
  | name => setName key name

def hasMountpoint (key : Key) : Bool := (keyGetMeta key (str "mountpoint")).isSome

section Reader

variable {B E : Type} (calls : BuilderCalls B E)

/-- A round of `processKey`, for a metakey. -/
def processMeta (st : SpecMountpointReader B) (m : Str × Str) : Except (SpecStop E) (SpecMountpointReader B) :=
  let needs := str "config/needs"
  if startsWith m.1 needs then do
    let bKey ← setName { keyNew with data := some (m.2 ++ [0]) } (str "user" ++ m.1.drop needs.length)
    .ok { st with backendConfig := ksAppendValue st.backendConfig bKey }
  else if m.1 = str "infos/plugins" then
    match calls.addPlugins st.bb.builder m.2 with
    | .error e => .error (.builder e)
    | .ok builder => .ok { st with bb := { st.bb with builder := builder } }
  else if m.1 = str "infos/needs" then
    .ok { st with bb := { st.bb with builder := calls.needPlugin st.bb.builder m.2 } }
  else if m.1 = str "infos/recommends" then
    .ok { st with bb := { st.bb with builder := calls.recommendPlugin st.bb.builder m.2 } }
  else if isToBeIgnored m.1 then .ok st
  else .ok { st with bb := { st.bb with builder := calls.needMetadata st.bb.builder m.1 } }

def processKey (st : SpecMountpointReader B) (ck : Key) : Except (SpecStop E) (SpecMountpointReader B) :=
  (metadataOf ck).foldlM (processMeta calls) st

/-- `processKey (k); bb.nodes++;` -/
def countKey (st : SpecMountpointReader B) (k : Key) : Except (SpecStop E) (SpecMountpointReader B) := do
  let st ← processKey calls st k
  .ok { st with bb := { st.bb with nodes := st.bb.nodes + 1 } }

/-- What is done first with the key of the mountpoint. -/
def openBuilder (mp : Key) : Except (SpecStop E) (SpecMountpointReader B) := do
  let rmp ← removeNamespace mp
  match calls.setMountpoint calls.create rmp with
  | .error e => .error (.builder e)
  | .ok builder => .ok ⟨⟨builder, 0⟩, []⟩

/-- What is done last. -/
def closeBuilder (st : SpecMountpointReader B) (mp : Key) : Except (SpecStop E) (SpecBackendBuilder B) :=
  let builder := calls.setBackendConfig st.bb.builder st.backendConfig
  match calls.useConfigFile builder ((keyGetMeta mp (str "mountpoint")).getD []) with
  | .error e => .error (.builder e)
  | .ok builder => .ok { st.bb with builder := builder }

/-- `smr.readMountpointSpecification (ks.cut (k))`, with the keys and the backends it leaves. -/
abbrev ReadNested (B E : Type) :=
  Heap → KeySet → Backends B → Except (SpecStop E) (Heap × SpecBackendBuilder B × Backends B)

variable {S : Type}

/-- The loop of both functions; they differ in what they do with a key without a mountpoint. -/
def readLoop (nested : ReadNested B E) (visit : S → Key → Except (SpecStop E) S) :
    ℕ → Heap → KeySet → Backends B → S → Except (SpecStop E) (Heap × Backends B × S)
  | 0, _, _, _, _ => .error .rounds
  | rounds + 1, h, ks, backends, st =>
    match ksNext ks with
    | (none, _) => .ok (h, backends, st)
    | (some k, ks) =>
      if hasMountpoint (h.cell k) then
        match ksCut h ks k with
        | (_, _, none) => .error .nullKey
        | (h, ks, some cut) => do
          let (h, bb, backends) ← nested h cut backends
          readLoop nested visit rounds h ks (Function.update backends (h.ident k) (some bb)) st
      else do
        let st ← visit st (h.cell k)
        readLoop nested visit rounds h ks backends st

variable (cb : Callback) (lookupFuel : ℕ)

/-- With a bound on the readers inside one another. -/
def readMountpointSpecification : ℕ → ReadNested B E
  | 0, _, _, _ => .error .rounds
  | depth + 1, h, cks, backends =>
    let (h, ks) := ksDup h cks
    match ks.array.head? with
    | none => .error .nullKey
    | some head => do
      let (mp, h) := h.alloc (keyDup (h.cell head))
      let st ← openBuilder calls (keyDup (h.cell mp))
      let st ← countKey calls st (h.cell mp)
      match ksLookup cb lookupFuel ⟨h, ks⟩ mp { pop := true } with
      | .error stop => .error (.lookup stop)
      | .ok (_, w) => do
        let (h, backends, st) ← readLoop (readMountpointSpecification depth) (countKey calls) (w.ks.size + 1)
          w.heap (ksRewind w.ks) backends st
        let bb ← closeBuilder calls st (h.cell mp)
        .ok (h, bb, backends)

/-- The keys and the backends afterwards. -/
def readSpecification (depth : ℕ) (h : Heap) (cks : KeySet) (backends : Backends B) :
    Except (SpecStop E) (Heap × Backends B) := do
  let (h, ks) := ksDup h cks
  let (h, backends, _) ← readLoop (readMountpointSpecification calls cb lookupFuel depth)
    (fun _ _ => .ok ()) (ks.size + 1) h (ksRewind ks) backends ()
  .ok (h, backends)

end Reader

/-! ## The keys of a specification -/

/-- `b` is at or below `a`. -/
def AtOrAbove (h : Heap) (a b : KeyRef) : Prop := keyIsBelowOrSame (h.cell a) (h.cell b) = true

def IsMountpoint (h : Heap) (k : KeyRef) : Prop := hasMountpoint (h.cell k) = true

instance (h : Heap) : DecidableRel (AtOrAbove h) := fun a b =>
  inferInstanceAs (Decidable (keyIsBelowOrSame (h.cell a) (h.cell b) = true))

instance (h : Heap) : DecidablePred (IsMountpoint h) := fun k =>
  inferInstanceAs (Decidable (hasMountpoint (h.cell k) = true))

/-- The keys have different names, each in a namespace, and none carries a function. -/
structure Specification (h : Heap) (ks : KeySet) (path : KeyRef → Path) : Prop where
  named : ∀ k ∈ ks.array, HasName (h.cell k) (path k)
  namespaced : ∀ k ∈ ks.array, (path k).root ≠ .cascading
  distinct : ∀ k ∈ ks.array, ∀ j ∈ ks.array, path k = path j → k = j
  plain : ∀ k ∈ ks.array, callbackPointer (h.cell k) = none

section Keys

variable {h : Heap} {ks : KeySet} {m : Ident → Option KeyRef} {path : KeyRef → Path}

theorem Specification.above_iff (hs : Specification h ks path) {a b : KeyRef} (ha : a ∈ ks.array)
    (hb : b ∈ ks.array) : AtOrAbove h a b ↔ (path a).root = (path b).root ∧ (path a).parts <+: (path b).parts := by
  obtain ⟨n, hn⟩ : ∃ n, (path a).root = .ns n := by
    cases hroot : (path a).root with
    | cascading => exact absurd hroot (hs.namespaced a ha)
    | ns n => exact ⟨n, rfl⟩
  have hname : HasName (h.cell a) ⟨.ns n, (path a).parts⟩ := hn ▸ hs.named a ha
  rw [AtOrAbove, belowOrSame_iff hname (hs.named b hb), hn, eq_comm]
  exact ⟨fun hsel => hsel.resolve_left fun hc => hs.namespaced b hb hc.1, .inr⟩

theorem Specification.hierarchy (hs : Specification h ks path) (hks : ks.Holds h m) :
    Hierarchy (AtOrAbove h) ks.array where
  refl a ha := (hs.above_iff ha ha).mpr ⟨rfl, List.prefix_rfl⟩
  trans a ha b hb c hc hab hbc := by
    rw [hs.above_iff ha hb] at hab
    rw [hs.above_iff hb hc] at hbc
    exact (hs.above_iff ha hc).mpr ⟨hab.1.trans hbc.1, hab.2.trans hbc.2⟩
  chain a ha b hb c hc hac hbc := by
    rw [hs.above_iff ha hc] at hac
    rw [hs.above_iff hb hc] at hbc
    rw [hs.above_iff ha hb, hs.above_iff hb ha]
    exact (List.prefix_or_prefix_of_prefix hac.2 hbc.2).imp (fun h => ⟨hac.1.trans hbc.1.symm, h⟩)
      fun h => ⟨hbc.1.trans hac.1.symm, h⟩
  ordered := by
    refine List.pairwise_iff_forall_sublist.mpr fun {a b} hab hba => ?_
    have ha := hab.subset List.mem_cons_self
    have hb := hab.subset (List.mem_cons_of_mem a List.mem_cons_self)
    have hle := uname_isLE hks.sorted hs.named hab
    have hpre := Path.uname_prefix.mpr ((hs.above_iff hb ha).mp hba)
    obtain rfl := hs.distinct a ha b hb (Path.uname_injective (eq_of_prefix_of_isLE hpre hle))
    exact SortedArray.key_ne_of_lt (List.rel_of_pairwise_cons (hks.sorted.sublist hab) List.mem_cons_self) rfl
  row a b c hsub hac := by
    have hmem : ∀ k ∈ [a, b, c], k ∈ ks.array := fun k hk => hsub.subset hk
    have ha := hmem a (by simp)
    have hb := hmem b (by simp)
    have hc := hmem c (by simp)
    have hab := uname_isLE hks.sorted hs.named (a := a) (b := b) (List.Sublist.trans (by simp) hsub)
    have hbc := uname_isLE hks.sorted hs.named (a := b) (b := c) (List.Sublist.trans (by simp) hsub)
    rw [hs.above_iff ha hc] at hac
    rw [hs.above_iff ha hb]
    have hbetween := prefix_between rfl List.prefix_rfl hac.1.symm hac.2 hab hbc
    exact ⟨hbetween.1.symm, hbetween.2⟩

end Keys

/-! ## Builders -/

section Built

variable {B E : Type} (calls : BuilderCalls B E)

/-- The builder of the mountpoint `m`, when the keys are those of `l`. -/
def built (h : Heap) (l : List KeyRef) (m : KeyRef) : Except (SpecStop E) (SpecBackendBuilder B) := do
  let st ← openBuilder calls (keyDup (h.cell m))
  let st ← (own (AtOrAbove h) (IsMountpoint h) l m).foldlM (fun st k => countKey calls st (h.cell k)) st
  closeBuilder calls st (h.cell m)

variable {calls} {h₀ h : Heap} {k m : KeyRef} {l : List KeyRef} {st : SpecMountpointReader B}

theorem hasMountpoint_dup {a b : Key} (hd : keyDup b = keyDup a) : hasMountpoint b = hasMountpoint a := by
  change hasMountpoint (keyDup b) = hasMountpoint (keyDup a)
  rw [hd]

theorem countKey_dup {a b : Key} (hd : keyDup b = keyDup a) : countKey calls st b = countKey calls st a := by
  change countKey calls st (keyDup b) = countKey calls st (keyDup a)
  rw [hd]

theorem closeBuilder_dup {a b : Key} (hd : keyDup b = keyDup a) :
    closeBuilder calls st b = closeBuilder calls st a := by
  change closeBuilder calls st (keyDup b) = closeBuilder calls st (keyDup a)
  rw [hd]

theorem cutTest_idle {a b : KeyRef} (hh : Idle h₀ h) (ha : a < h₀.next) (hb : b < h₀.next) :
    cutTest h a b = true ↔ AtOrAbove h₀ a b := by
  have hsame : keyIsBelowOrSame (h.cell a) (h.cell b) = keyIsBelowOrSame (h₀.cell a) (h₀.cell b) := by
    change keyIsBelowOrSame (keyDup (h.cell a)) (keyDup (h.cell b)) =
      keyIsBelowOrSame (keyDup (h₀.cell a)) (keyDup (h₀.cell b))
    rw [hh.dup ha, hh.dup hb]
  rw [cutTest, hsame, AtOrAbove]

theorem processMeta_nodes {st' : SpecMountpointReader B} {x : Str × Str} (hx : processMeta calls st x = .ok st') :
    st'.bb.nodes = st.bb.nodes := by
  unfold processMeta at hx
  dsimp only at hx
  split_ifs at hx
  · simp only [bind, Except.bind] at hx
    split at hx
    · cases hx
    · cases hx
      rfl
  · split at hx
    · cases hx
    · cases hx
      rfl
  all_goals
    cases hx
    rfl

theorem processKey_nodes {key : Key} {st' : SpecMountpointReader B} (hk : processKey calls st key = .ok st') :
    st'.bb.nodes = st.bb.nodes := by
  unfold processKey at hk
  generalize metadataOf key = l at hk
  induction l generalizing st with
  | nil =>
    cases hk
    rfl
  | cons x l ih =>
    rw [List.foldlM_cons] at hk
    cases hx : processMeta calls st x with
    | error e =>
      rw [hx] at hk
      cases hk
    | ok st₁ =>
      rw [hx] at hk
      exact (ih hk).trans (processMeta_nodes hx)

theorem countKey_nodes {key : Key} {st' : SpecMountpointReader B} (hk : countKey calls st key = .ok st') :
    st'.bb.nodes = st.bb.nodes + 1 := by
  unfold countKey at hk
  cases hp : processKey calls st key with
  | error e =>
    rw [hp] at hk
    cases hk
  | ok st₁ =>
    rw [hp] at hk
    cases hk
    exact congrArg (· + 1) (processKey_nodes hp)

theorem countKeys_nodes {st' : SpecMountpointReader B}
    (hl : l.foldlM (fun st k => countKey calls st (h.cell k)) st = .ok st') :
    st'.bb.nodes = st.bb.nodes + l.length := by
  induction l generalizing st with
  | nil =>
    cases hl
    rfl
  | cons k l ih =>
    rw [List.foldlM_cons] at hl
    cases hk : countKey calls st (h.cell k) with
    | error e =>
      rw [hk] at hl
      cases hl
    | ok st₁ =>
      rw [hk] at hl
      rw [ih hl, countKey_nodes hk, List.length_cons]
      omega

theorem built_nodes {bb : SpecBackendBuilder B} (hb : built calls h l m = .ok bb) :
    bb.nodes = (own (AtOrAbove h) (IsMountpoint h) l m).length := by
  unfold built at hb
  cases hopen : openBuilder calls (keyDup (h.cell m)) with
  | error e =>
    rw [hopen] at hb
    cases hb
  | ok st =>
    rw [hopen] at hb
    have hzero : st.bb.nodes = 0 := by
      unfold openBuilder at hopen
      simp only [bind, Except.bind] at hopen
      split at hopen
      · cases hopen
      · split at hopen
        · cases hopen
        · cases hopen
          rfl
    change ((own (AtOrAbove h) (IsMountpoint h) l m).foldlM (fun st k => countKey calls st (h.cell k)) st >>= _) =
      _ at hb
    cases hl : (own (AtOrAbove h) (IsMountpoint h) l m).foldlM (fun st k => countKey calls st (h.cell k)) st with
    | error e =>
      rw [hl] at hb
      cases hb
    | ok st' =>
      rw [hl] at hb
      have hnodes := countKeys_nodes hl
      rw [hzero, Nat.zero_add] at hnodes
      rw [← hnodes]
      change closeBuilder calls st' (h.cell m) = _ at hb
      unfold closeBuilder at hb
      dsimp only at hb
      split at hb
      · cases hb
      · cases hb
        rfl

end Built

/-! ## The loops -/

section Loops

variable {B E S : Type} (calls : BuilderCalls B E) (h₀ : Heap) (ks₀ : KeySet)

/-- The iteration over `ks` is behind `pre` and has still to visit `post`. -/
structure Visiting (h : Heap) (ks : KeySet) (pre post : List KeyRef) : Prop where
  idle : Idle h₀ h
  holds : ∃ m, ks.Holds h m
  array : ks.array = pre ++ post
  sub : ks.array.Sublist ks₀.array
  before : ks.Before pre.length

/-- The mountpoints in `l` have got their builders, for the keys of `all`. -/
structure Filled (all l : List KeyRef) (backends backends' : Backends B) : Prop where
  stored : ∀ m ∈ l, IsMountpoint h₀ m →
    ∃ bb, built calls h₀ all m = .ok bb ∧ backends' (h₀.ident m) = some bb
  others : ∀ id, (∀ m ∈ l, IsMountpoint h₀ m → h₀.ident m ≠ id) → backends' id = backends id

/-- What a loop over `l` ends with. -/
def Outcome (visit : S → Key → Except (SpecStop E) S) (h : Heap) (l : List KeyRef) (backends : Backends B) (st : S) :
    Except (SpecStop E) (Heap × Backends B × S) → Prop
  | .ok (h', backends', st') => Idle h h' ∧
      (top (AtOrAbove h₀) (IsMountpoint h₀) l).foldlM (fun st k => visit st (h₀.cell k)) st = .ok st' ∧
      Filled calls h₀ l l backends backends'
  | .error e =>
      (top (AtOrAbove h₀) (IsMountpoint h₀) l).foldlM (fun st k => visit st (h₀.cell k)) st = .error e ∨
      ∃ m ∈ l, IsMountpoint h₀ m ∧ built calls h₀ l m = .error e

/-- What a reader of the mountpoint `k` and the keys `l` below it ends with. -/
def ReaderOutcome (h : Heap) (k : KeyRef) (l : List KeyRef) (backends : Backends B) :
    Except (SpecStop E) (Heap × SpecBackendBuilder B × Backends B) → Prop
  | .ok (h', bb, backends') => Idle h h' ∧ built calls h₀ (k :: l) k = .ok bb ∧
      Filled calls h₀ (k :: l) l backends backends'
  | .error e => ∃ m ∈ k :: l, IsMountpoint h₀ m ∧ built calls h₀ (k :: l) m = .error e

/-- Readers of at most `n` keys. -/
def Reads (n : ℕ) (nested : ReadNested B E) : Prop :=
  ∀ {h cut m k l backends}, Idle h₀ h → cut.Holds h m → cut.array = k :: l → (k :: l).Sublist ks₀.array →
    IsMountpoint h₀ k → (∀ a ∈ l, AtOrAbove h₀ k a) → (k :: l).length ≤ n →
    ReaderOutcome calls h₀ h k l backends (nested h cut backends)

variable {calls h₀ ks₀} {h : Heap} {ks : KeySet} {m : Ident → Option KeyRef} {path : KeyRef → Path}
  {all l l' pre post : List KeyRef} {k : KeyRef} {backends backends' backends'' : Backends B} {st : S}

theorem Filled.nil : Filled calls h₀ all [] backends backends :=
  ⟨fun _ hm => (by cases hm), fun _ _ => rfl⟩

theorem Filled.append (h1 : Filled calls h₀ all l backends backends')
    (h2 : Filled calls h₀ all l' backends' backends'')
    (hne : ∀ a ∈ l, ∀ b ∈ l', h₀.ident b ≠ h₀.ident a) : Filled calls h₀ all (l ++ l') backends backends'' where
  stored m hm hmark := by
    obtain hm | hm := List.mem_append.mp hm
    · obtain ⟨bb, hb, hget⟩ := h1.stored m hm hmark
      exact ⟨bb, hb, (h2.others _ fun b hb _ => hne m hm b hb).trans hget⟩
    · exact h2.stored m hm hmark
  others id hid := by
    rw [h2.others id fun b hb => hid b (List.mem_append_right _ hb),
      h1.others id fun a ha => hid a (List.mem_append_left _ ha)]

theorem Filled.head {bb : SpecBackendBuilder B} (hf : Filled calls h₀ all l backends backends')
    (hb : built calls h₀ all k = .ok bb) (hk : IsMountpoint h₀ k) (hne : ∀ a ∈ l, h₀.ident a ≠ h₀.ident k) :
    Filled calls h₀ all (k :: l) backends (Function.update backends' (h₀.ident k) (some bb)) where
  stored m hm hmark := by
    obtain rfl | hm := List.mem_cons.mp hm
    · exact ⟨bb, hb, Function.update_self _ _ _⟩
    · rw [Function.update_of_ne (hne m hm)]
      exact hf.stored m hm hmark
  others id hid := by
    rw [Function.update_of_ne (Ne.symm (hid k List.mem_cons_self hk))]
    exact hf.others id fun a ha => hid a (List.mem_cons_of_mem k ha)

theorem Filled.congr {all' : List KeyRef} (hf : Filled calls h₀ all l backends backends')
    (hown : ∀ m ∈ l, IsMountpoint h₀ m →
      own (AtOrAbove h₀) (IsMountpoint h₀) all' m = own (AtOrAbove h₀) (IsMountpoint h₀) all m) :
    Filled calls h₀ all' l backends backends' where
  stored m hm hmark := by
    obtain ⟨bb, hb, hget⟩ := hf.stored m hm hmark
    refine ⟨bb, ?_, hget⟩
    rw [built, hown m hm hmark]
    exact hb
  others := hf.others

/-! ## Rounds -/

theorem Visiting.done (hv : Visiting h₀ ks₀ h ks pre []) : (ksNext ks).1 = none :=
  hv.before.next_none (by rw [hv.array, List.append_nil])

theorem Visiting.next (hv : Visiting h₀ ks₀ h ks pre (k :: post)) :
    ∃ ks', ksNext ks = (some k, ks') ∧ Visiting h₀ ks₀ h ks' (pre ++ [k]) post := by
  obtain ⟨ks', hnext, harray, halloc, hbefore⟩ := hv.before.next_some hv.array
  obtain ⟨m, hm⟩ := hv.holds
  refine ⟨ks', hnext, hv.idle, ⟨m, hm.of_array harray ?_ (halloc ▸ hm.least)⟩, ?_, harray ▸ hv.sub, ?_⟩
  · rw [halloc]
    exact hm.room
  · exact harray.trans (hv.array.trans (by simp))
  · rw [List.length_append, List.length_singleton]
    exact hbefore

section Specified

variable {m₀ : Ident → Option KeyRef} (hs : Specification h₀ ks₀ path) (hks₀ : ks₀.Holds h₀ m₀)

include hs hks₀

theorem Visiting.cut (hv : Visiting h₀ ks₀ h ks (pre ++ [k]) post) :
    ∃ ks' cut, ksCut h ks k = (h, ks', some cut) ∧
      Visiting h₀ ks₀ h ks' pre (post.dropWhile (AtOrAbove h₀ k ·)) ∧ (∃ m, cut.Holds h m) ∧
      cut.array = k :: post.takeWhile (AtOrAbove h₀ k ·) := by
  have harray : ks.array = pre ++ k :: post := by rw [hv.array, List.append_assoc, List.singleton_append]
  have hsub := hv.sub
  have hmem : ∀ a ∈ pre ++ k :: post, a ∈ ks₀.array := fun a ha => hsub.subset (harray ▸ ha)
  have hkmem : k ∈ ks₀.array := hmem k (by simp)
  have hlt : ∀ a ∈ ks₀.array, a < h₀.next := fun a ha => (hks₀.entry a ha).lt
  have htest : ∀ a ∈ pre ++ k :: post, cutTest h k a = decide (AtOrAbove h₀ k a) := fun a ha => by
    rw [Bool.eq_iff_iff, decide_eq_true_iff]
    exact cutTest_idle hv.idle (hlt k hkmem) (hlt a (hmem a ha))
  have hpre : ∀ a ∈ pre, ¬ AtOrAbove h₀ k a := fun a ha => by
    have hordered := (hs.hierarchy hks₀).ordered.sublist hsub
    rw [harray, List.pairwise_append] at hordered
    exact hordered.2.2 a ha k List.mem_cons_self
  obtain ⟨name, hname, hc⟩ : ∃ name, (h.cell k).key = some name ∧ name.head? ≠ some pathSeparator := by
    have hn := (sameName_of_dup (hv.idle.dup (hlt k hkmem))).key.trans (hs.named k hkmem).key
    exact ⟨_, hn, fun hhead => hs.namespaced k hkmem ((path k).head_name.mp hhead)⟩
  have hself : cutTest h k k = true := by
    rw [htest k (by simp), decide_eq_true_iff]
    exact (hs.hierarchy hks₀).refl k hkmem
  have hpost : ∀ a ∈ post, cutTest h k a = decide (AtOrAbove h₀ k a) := fun a ha => htest a (by simp [ha])
  have hkeep : ks.array.Nodup := hks₀.sorted.nodup.sublist hsub
  have hbefore := hv.before
  rw [List.length_append, List.length_singleton] at hbefore
  obtain ⟨hrest, hcut, hplace⟩ := @ksCutBelow_at ks h k pre post harray hkeep
    (fun a ha => by rw [htest a (List.mem_append_left _ ha), decide_eq_false (hpre a ha)]) hself hbefore
  rw [Run.takeWhile_congr hpost] at hcut
  rw [dropWhile_congr hpost] at hrest
  obtain ⟨hheap, -, halloc, -, hroom, hleast⟩ := ksCutBelow_spec h ks k
  obtain ⟨m, hm⟩ := hv.holds
  refine ⟨(ksCutBelow h ks k).2.1, (ksCutBelow h ks k).2.2, ?_, ?_, ⟨_, hm.sublist ?_ hroom hleast⟩, hcut⟩
  · rw [ksCut_below hname hc, hheap]
  · have hrestsub : (ksCutBelow h ks k).2.1.array.Sublist ks.array := by
      rw [hrest, harray]
      exact ((List.dropWhile_sublist _).trans (List.sublist_cons_self k post)).append_left pre
    refine ⟨hv.idle, ⟨_, hm.sublist hrestsub ?_ (halloc ▸ hm.least)⟩, hrest, hrestsub.trans hsub, hplace⟩
    rw [halloc]
    exact lt_of_le_of_lt hrestsub.length_le hm.room
  · rw [hcut, harray]
    exact ((List.takeWhile_sublist _).cons_cons k).trans (List.sublist_append_right _ _)

omit hs in
theorem ident_ne {a b : KeyRef} (hl : (l ++ l').Sublist ks₀.array) (ha : a ∈ l) (hb : b ∈ l') :
    h₀.ident b ≠ h₀.ident a := by
  have hsorted := hks₀.sorted.sublist hl
  rw [SortedArray.Sorted, List.pairwise_append] at hsorted
  exact (SortedArray.key_ne_of_lt (hsorted.2.2 a ha b hb)).symm

omit hs hks₀ in
theorem Outcome.visit {visit : S → Key → Except (SpecStop E) S} {st' : S} {post : List KeyRef}
    {r : Except (SpecStop E) (Heap × Backends B × S)} (hhier : Hierarchy (AtOrAbove h₀) (k :: post))
    (hk : ¬ IsMountpoint h₀ k) (hv : visit st (h₀.cell k) = .ok st')
    (hr : Outcome calls h₀ visit h post backends st' r) : Outcome calls h₀ visit h (k :: post) backends st r := by
  have hfold : (top (AtOrAbove h₀) (IsMountpoint h₀) (k :: post)).foldlM (fun st k => visit st (h₀.cell k)) st =
      (top (AtOrAbove h₀) (IsMountpoint h₀) post).foldlM (fun st k => visit st (h₀.cell k)) st' := by
    rw [top_cons hhier hk, List.foldlM_cons, hv]
    rfl
  have hown : ∀ m ∈ post, own (AtOrAbove h₀) (IsMountpoint h₀) (k :: post) m =
      own (AtOrAbove h₀) (IsMountpoint h₀) post m := fun m hm => own_cons hhier hk hm
  cases r with
  | error e =>
    refine hr.imp (fun h => hfold.trans h) ?_
    rintro ⟨m, hm, hmark, hb⟩
    refine ⟨m, List.mem_cons_of_mem k hm, hmark, ?_⟩
    rw [built, hown m hm]
    exact hb
  | ok r =>
    obtain ⟨h', backends', st''⟩ := r
    obtain ⟨hidle, hvisited, hfilled⟩ := hr
    have hcongr := hfilled.congr fun m hm _ => hown m hm
    refine ⟨hidle, hfold.trans hvisited, fun m hm hmark => ?_, fun id hid => ?_⟩
    · obtain rfl | hm := List.mem_cons.mp hm
      · exact absurd hmark hk
      · exact hcongr.stored m hm hmark
    · exact hcongr.others id fun m hm => hid m (List.mem_cons_of_mem k hm)

theorem Outcome.read {visit : S → Key → Except (SpecStop E) S} {post : List KeyRef} {h' : Heap}
    {bb : SpecBackendBuilder B} {r : Except (SpecStop E) (Heap × Backends B × S)}
    (hsub : (k :: post).Sublist ks₀.array) (hk : IsMountpoint h₀ k) (hidle : Idle h₀ h)
    (hread : ReaderOutcome calls h₀ h k (post.takeWhile (AtOrAbove h₀ k ·)) backends (.ok (h', bb, backends')))
    (hr : Outcome calls h₀ visit h' (post.dropWhile (AtOrAbove h₀ k ·))
      (Function.update backends' (h'.ident k) (some bb)) st r) :
    Outcome calls h₀ visit h (k :: post) backends st r := by
  have hhier := (hs.hierarchy hks₀).sublist hsub
  have hsplit := @split_first _ (AtOrAbove h₀) post k _
  have htop := top_first hhier hk
  obtain ⟨hidle', hb, hfilled⟩ := hread
  have hlt : k < h₀.next := (hks₀.entry k (hsub.subset List.mem_cons_self)).lt
  rw [(hidle.trans hidle').toKeeps.ident hlt] at hr
  cases r with
  | error e =>
    refine hr.imp (fun h => htop ▸ h) ?_
    rintro ⟨m, hm, hmark, hbm⟩
    refine ⟨m, List.mem_cons_of_mem k ((List.dropWhile_sublist _).subset hm), hmark, ?_⟩
    rw [built, own_rest hhier hm]
    exact hbm
  | ok r =>
    obtain ⟨h'', backends'', st''⟩ := r
    obtain ⟨hidle'', hvisited, hfilled'⟩ := hr
    have hrun : ([k] ++ post.takeWhile (AtOrAbove h₀ k ·)).Sublist ks₀.array :=
      ((List.takeWhile_sublist _).cons_cons k).trans hsub
    have hstored := (hfilled.head hb hk fun a ha =>
      ident_ne hks₀ hrun (List.mem_singleton_self k) ha).congr fun m hm _ => own_first hhier hm
    have hrest := hfilled'.congr fun m hm _ => own_rest hhier hm
    have hsub' := hsub
    rw [hsplit] at hsub'
    have hall := hstored.append hrest fun a ha b hb => ident_ne hks₀ hsub' ha hb
    rw [← hsplit] at hall
    exact ⟨hidle'.trans hidle'', htop ▸ hvisited, hall⟩

theorem readLoop_spec {visit : S → Key → Except (SpecStop E) S}
    (hvisit : ∀ st a b, keyDup b = keyDup a → visit st b = visit st a) {nested : ReadNested B E} {n : ℕ}
    (hnested : Reads calls h₀ ks₀ n nested) : ∀ {rounds : ℕ} {h : Heap} {ks : KeySet} {pre post : List KeyRef}
    {backends : Backends B} {st : S}, Visiting h₀ ks₀ h ks pre post → post.length ≤ n → post.length < rounds →
    Outcome calls h₀ visit h post backends st (readLoop nested visit rounds h ks backends st)
  | rounds + 1, h, ks, pre, [], backends, st, hv, _, _ => by
    have hdone := hv.done
    have hrun : readLoop nested visit (rounds + 1) h ks backends st = .ok (h, backends, st) := by
      unfold readLoop
      split
      · rfl
      · rename_i hnext
        rw [hnext] at hdone
        cases hdone
    rw [hrun]
    exact ⟨Idle.refl h, rfl, Filled.nil⟩
  | rounds + 1, h, ks, pre, k :: post, backends, st, hv, hn, hrounds => by
    obtain ⟨ks', hnext, hv'⟩ := hv.next
    have hsub : (pre ++ k :: post).Sublist ks₀.array := hv.array ▸ hv.sub
    have hpost : (k :: post).Sublist ks₀.array := (List.sublist_append_right _ _).trans hsub
    have hhier := (hs.hierarchy hks₀).sublist hpost
    have hlt : k < h₀.next := (hks₀.entry k (hpost.subset List.mem_cons_self)).lt
    have hdup := hv.idle.dup hlt
    rw [List.length_cons] at hn hrounds
    by_cases hk : IsMountpoint h₀ k
    · -- a mountpoint: what is below is read
      have hmark : hasMountpoint (h.cell k) = true := by
        rw [hasMountpoint_dup hdup]
        exact hk
      obtain ⟨ks₁, cut, hcut, hv₁, ⟨mc, hmc⟩, harray⟩ := hv'.cut hs hks₀
      have hrun : readLoop nested visit (rounds + 1) h ks backends st = nested h cut backends >>= fun r =>
          readLoop nested visit rounds r.1 ks₁ (Function.update r.2.2 (r.1.ident k) (some r.2.1)) st := by
        conv_lhs => unfold readLoop
        rw [hnext]
        simp only [if_pos hmark]
        rw [hcut]
      have htake := List.takeWhile_sublist (l := post) (AtOrAbove h₀ k ·)
      have hlen : (k :: post.takeWhile (AtOrAbove h₀ k ·)).length ≤ n := by
        have := htake.length_le
        rw [List.length_cons]
        omega
      have hread : ReaderOutcome calls h₀ h k (post.takeWhile (AtOrAbove h₀ k ·)) backends (nested h cut backends) :=
        hnested hv.idle hmc harray ((htake.cons_cons k).trans hpost) hk hhier.run.1 hlen
      rw [hrun]
      cases hr : nested h cut backends with
      | error e =>
        rw [hr] at hread
        obtain ⟨m, hm, hmarkm, hb⟩ := hread
        refine .inr ⟨m, ?_, hmarkm, ?_⟩
        · exact (htake.cons_cons k).subset hm
        · rw [built, own_first hhier hm]
          exact hb
      | ok r =>
        obtain ⟨h', bb, backends'⟩ := r
        rw [hr] at hread
        obtain ⟨m₁, hm₁⟩ := hv₁.holds
        have hv₂ : Visiting h₀ ks₀ h' ks₁ pre (post.dropWhile (AtOrAbove h₀ k ·)) :=
          ⟨hv.idle.trans hread.1, ⟨m₁, hm₁.keeps hread.1.toKeeps⟩, hv₁.array, hv₁.sub, hv₁.before⟩
        have hdrop := (List.dropWhile_sublist (l := post) (AtOrAbove h₀ k ·)).length_le
        exact Outcome.read hs hks₀ hpost hk hv.idle hread
          (readLoop_spec hvisit hnested hv₂ (by omega) (by omega))
    · -- no mountpoint: the key is visited
      have hmark : ¬ hasMountpoint (h.cell k) = true := by
        rw [hasMountpoint_dup hdup]
        exact hk
      have hrun : readLoop nested visit (rounds + 1) h ks backends st =
          visit st (h₀.cell k) >>= readLoop nested visit rounds h ks' backends := by
        rw [← hvisit st _ _ hdup]
        conv_lhs => unfold readLoop
        rw [hnext]
        simp only [if_neg hmark]
      rw [hrun]
      cases hr : visit st (h₀.cell k) with
      | error e =>
        refine .inl ?_
        rw [top_cons hhier hk, List.foldlM_cons, hr]
        rfl
      | ok st' => exact Outcome.visit hhier hk hr (readLoop_spec hvisit hnested hv' (by omega) (by omega))

omit hs hks₀ in
theorem holds_tail (hm : ks.Holds h m) (harray : ks.array = k :: l) :
    ({ ks with array := l } : KeySet).Holds h (Function.update m (h.ident k) none) := by
  have hsub : l.Sublist ks.array := harray ▸ List.sublist_cons_self k l
  have hmap : Function.update m (h.ident k) none = fun id => (m id).filter (· ∈ l) := by
    funext id
    by_cases hid : id = h.ident k
    · subst hid
      have hk : k ∉ l := (List.nodup_cons.mp (harray ▸ hm.sorted.nodup)).1
      rw [Function.update_self, hm.of_mem (harray ▸ List.mem_cons_self), Option.filter_some,
        if_neg (by simpa using hk)]
    · rw [Function.update_of_ne hid]
      cases hget : m id with
      | none => rfl
      | some j =>
        obtain ⟨hj, hident⟩ := hm.mem.mp hget
        rw [harray] at hj
        have hjl : j ∈ l := (List.mem_cons.mp hj).resolve_left fun he => hid (he ▸ hident.symm)
        rw [Option.filter_some, if_pos (by simpa using hjl)]
  rw [hmap]
  exact hm.sublist hsub (lt_of_le_of_lt hsub.length_le hm.room) hm.least

/-- The reader copies the keys, duplicates the first and takes it out. -/
theorem popped (cb : Callback) (fuel : ℕ) {cut : KeySet} (hidle : Idle h₀ h) (hcut : cut.Holds h m)
    (harray : cut.array = k :: l) (hsub : (k :: l).Sublist ks₀.array) :
    ∃ h₁ ks₁ found w, ksDup h cut = (h₁, ks₁) ∧ ks₁.array = k :: l ∧ Idle h h₁ ∧
      keyDup ((h₁.alloc (keyDup (h₁.cell k))).2.cell h₁.next) = keyDup (h₀.cell k) ∧
      ksLookup cb (fuel + 1) ⟨(h₁.alloc (keyDup (h₁.cell k))).2, ks₁⟩ h₁.next { pop := true } = .ok (found, w) ∧
      Idle (h₁.alloc (keyDup (h₁.cell k))).2 w.heap ∧ (∃ m, w.ks.Holds w.heap m) ∧ w.ks.array = l := by
  have hidle₁ := idle_dup h cut
  have hholds := ksDup_holds hcut
  have hsame := hcut.array_eq hholds hidle₁.toKeeps
  rcases hdup : ksDup h cut with ⟨h₁, ks₁⟩
  rw [hdup] at hidle₁ hholds hsame
  rw [harray] at hsame
  have hlt : k < h₀.next := (hks₀.entry k (hsub.subset List.mem_cons_self)).lt
  have hall := hidle.trans hidle₁
  have halloc := idle_alloc h₁ (keyDup (h₁.cell k))
  -- the duplicate is the key but for flags and references
  have hcell : keyDup ((h₁.alloc (keyDup (h₁.cell k))).2.cell h₁.next) = keyDup (h₀.cell k) := by
    rw [Heap.alloc]
    dsimp only
    rw [Function.update_self]
    exact hall.dup hlt
  have hfinal := finalized_dup hcell (hs.named k (hsub.subset List.mem_cons_self)).finalized
  have hnext : h₁.next < (h₁.alloc (keyDup (h₁.cell k))).2.next := Nat.lt_succ_self _
  have hident : ident ((h₁.alloc (keyDup (h₁.cell k))).2.cell h₁.next) = h₀.ident k := ident_of_dup hcell
  have hidents : ∀ r ∈ ks₀.array, (h₁.alloc (keyDup (h₁.cell k))).2.ident r = h₀.ident r := fun r hr =>
    (hall.trans halloc).toKeeps.ident (hks₀.entry r hr).lt
  have hk₀ : k ∈ ks₀.array := hsub.subset List.mem_cons_self
  have hnames : ∀ r ∈ ks₁.array, ((h₁.alloc (keyDup (h₁.cell k))).2.ident r).1 = unameOf (path k).name →
      (h₁.alloc (keyDup (h₁.cell k))).2.ident r = ident ((h₁.alloc (keyDup (h₁.cell k))).2.cell h₁.next) := by
    intro r hr hu
    have hr₀ : r ∈ ks₀.array := hsub.subset (hsame ▸ hr)
    rw [hidents r hr₀, ← (hs.named k hk₀).finalized.ukey _ rfl] at hu
    have hpath : path r = path k := Path.uname_injective
      ((hs.named r hr₀).ukey.symm.trans (hu.trans (hs.named k hk₀).ukey))
    rw [hidents r hr₀, hident, hs.distinct r hr₀ k hk₀ hpath]
  have hplain : callbackPointer ((h₁.alloc (keyDup (h₁.cell k))).2.cell h₁.next) = none := by
    change callbackPointer (keyDup ((h₁.alloc (keyDup (h₁.cell k))).2.cell h₁.next)) = none
    rw [hcell]
    exact hs.plain k hk₀
  obtain ⟨found, w, hlookup, hw, hidlew⟩ := @ksLookup_removes cb fuel ⟨(h₁.alloc (keyDup (h₁.cell k))).2, ks₁⟩
    m h₁.next _ (hholds.keeps halloc.toKeeps) hnames hnext hfinal
    (fun hhead => hs.namespaced k hk₀ ((path k).head_name.mp hhead)) hplain
  refine ⟨h₁, ks₁, found, w, rfl, hsame, hidle₁, hcell, hlookup, hidlew, ⟨_, hw⟩, ?_⟩
  have htail := holds_tail (hholds.keeps halloc.toKeeps) hsame
  rw [hidents k hk₀, ← hident] at htail
  exact htail.array_eq hw hidlew.toKeeps

variable (calls) in
omit hs hks₀ in
/-- The builder of the first key processes it, and then what no other one does. -/
theorem built_head (hhier : Hierarchy (AtOrAbove h₀) (k :: l)) (hk : IsMountpoint h₀ k)
    (hbelow : ∀ a ∈ l, AtOrAbove h₀ k a) : built calls h₀ (k :: l) k =
      openBuilder calls (keyDup (h₀.cell k)) >>= fun st => countKey calls st (h₀.cell k) >>= fun st =>
        (top (AtOrAbove h₀) (IsMountpoint h₀) l).foldlM (fun st k => countKey calls st (h₀.cell k)) st >>= fun st =>
          closeBuilder calls st (h₀.cell k) := by
  rw [built, own_head hhier hk hbelow]
  simp only [List.foldlM_cons, bind_assoc]

omit hs hks₀ in
theorem Outcome.close {h' : Heap} {mp : KeyRef} {st : SpecMountpointReader B}
    {r : Except (SpecStop E) (Heap × Backends B × SpecMountpointReader B)}
    (hhier : Hierarchy (AtOrAbove h₀) (k :: l)) (hk : IsMountpoint h₀ k) (hbelow : ∀ a ∈ l, AtOrAbove h₀ k a)
    (hbuilt : built calls h₀ (k :: l) k =
      (top (AtOrAbove h₀) (IsMountpoint h₀) l).foldlM (fun st k => countKey calls st (h₀.cell k)) st >>= fun st =>
        closeBuilder calls st (h₀.cell k))
    (hidle : Idle h h') (hmp : ∀ h'', Idle h' h'' → keyDup (h''.cell mp) = keyDup (h₀.cell k))
    (hr : Outcome calls h₀ (countKey calls) h' l backends st r) :
    ReaderOutcome calls h₀ h k l backends
      (r >>= fun r => closeBuilder calls r.2.2 (r.1.cell mp) >>= fun bb => .ok (r.1, bb, r.2.1)) := by
  have hown : ∀ m ∈ l, own (AtOrAbove h₀) (IsMountpoint h₀) (k :: l) m =
      own (AtOrAbove h₀) (IsMountpoint h₀) l m := fun m hm => own_below hhier hk hbelow hm
  cases r with
  | error e =>
    obtain hfold | ⟨m, hm, hmark, hb⟩ := hr
    · refine ⟨k, List.mem_cons_self, hk, ?_⟩
      rw [hbuilt, hfold]
      rfl
    · refine ⟨m, List.mem_cons_of_mem k hm, hmark, ?_⟩
      rw [built, hown m hm]
      exact hb
  | ok r =>
    obtain ⟨h'', backends', st'⟩ := r
    obtain ⟨hidle', hfold, hfilled⟩ := hr
    have hclose : closeBuilder calls st' (h''.cell mp) = built calls h₀ (k :: l) k := by
      rw [hbuilt, hfold]
      exact closeBuilder_dup (hmp h'' hidle')
    change ReaderOutcome calls h₀ h k l backends (closeBuilder calls st' (h''.cell mp) >>= _)
    cases hb : closeBuilder calls st' (h''.cell mp) with
    | error e => exact ⟨k, List.mem_cons_self, hk, hclose.symm.trans hb⟩
    | ok bb => exact ⟨hidle.trans hidle', hclose.symm.trans hb, hfilled.congr fun m hm _ => hown m hm⟩

/-- **Readers read what is below their mountpoint.** -/
theorem reads (cb : Callback) (fuel : ℕ) : ∀ depth : ℕ,
    Reads calls h₀ ks₀ depth (readMountpointSpecification calls cb (fuel + 1) depth)
  | 0, _, _, _, _, _, _, _, _, _, _, _, _, hlen => by
    cases hlen
  | depth + 1, h, cut, m, k, l, backends, hidle, hcut, harray, hsub, hk, hbelow, hlen => by
    obtain ⟨h₁, ks₁, found, w, hdup, hks₁, hidle₁, hcell, hlookup, hidlew, ⟨mw, hw⟩, hl⟩ :=
      popped hs hks₀ cb fuel hidle hcut harray hsub
    have hhier := (hs.hierarchy hks₀).sublist hsub
    have halloc := idle_alloc h₁ (keyDup (h₁.cell k))
    have hall := hidle₁.trans (halloc.trans hidlew)
    have hrun : readMountpointSpecification calls cb (fuel + 1) (depth + 1) h cut backends =
        openBuilder calls (keyDup (h₀.cell k)) >>= fun st => countKey calls st (h₀.cell k) >>= fun st =>
          readLoop (readMountpointSpecification calls cb (fuel + 1) depth) (countKey calls) (l.length + 1) w.heap
            (ksRewind w.ks) backends st >>= fun r => closeBuilder calls r.2.2 (r.1.cell h₁.next) >>= fun bb =>
              .ok (r.1, bb, r.2.1) := by
      rw [← hcell]
      conv_lhs => unfold readMountpointSpecification
      rw [hdup]
      simp only [hks₁, List.head?_cons]
      refine bind_congr fun st => ?_
      have hcount : ∀ st, countKey calls st ((h₁.alloc (keyDup (h₁.cell k))).2.cell h₁.next) =
          countKey calls st (h₀.cell k) := fun st => countKey_dup hcell
      have hmp : (h₁.alloc (keyDup (h₁.cell k))).1 = h₁.next := rfl
      have hsize : w.ks.size = l.length := congrArg List.length hl
      rw [hmp, hlookup, hcount]
      dsimp only
      rw [hsize]
    have hbuilt := built_head calls hhier hk hbelow
    have hself : k ∈ k :: l := List.mem_cons_self
    rw [hrun]
    cases hopen : openBuilder calls (keyDup (h₀.cell k)) with
    | error e =>
      refine ⟨k, hself, hk, ?_⟩
      rw [hbuilt, hopen]
      rfl
    | ok st' =>
      cases hcount : countKey calls st' (h₀.cell k) with
      | error e =>
        change ReaderOutcome calls h₀ h k l backends (countKey calls st' (h₀.cell k) >>= _)
        rw [hcount]
        refine ⟨k, hself, hk, ?_⟩
        rw [hbuilt, hopen]
        change countKey calls st' (h₀.cell k) >>= _ = _
        rw [hcount]
        rfl
      | ok st =>
        have hvisiting : Visiting h₀ ks₀ w.heap (ksRewind w.ks) [] l :=
          ⟨hidle.trans hall, ⟨mw, hw.of_array rfl hw.room hw.least⟩, hl,
            hl ▸ (List.sublist_cons_self k l).trans hsub, rewound_rewind w.ks⟩
        have hloop : Outcome calls h₀ (countKey calls) w.heap l backends st
            (readLoop (readMountpointSpecification calls cb (fuel + 1) depth) (countKey calls) (l.length + 1) w.heap
              (ksRewind w.ks) backends st) := by
          rw [List.length_cons] at hlen
          have hcountKey : ∀ (st : SpecMountpointReader B) (a b : Key), keyDup b = keyDup a →
              countKey calls st b = countKey calls st a := fun _ _ _ => countKey_dup
          exact readLoop_spec hs hks₀ hcountKey (reads cb fuel depth) hvisiting (by omega)
            (Nat.lt_succ_self l.length)
        change ReaderOutcome calls h₀ h k l backends (countKey calls st' (h₀.cell k) >>= _)
        rw [hcount]
        refine Outcome.close hhier hk hbelow ?_ hall (fun h'' hidle' => ?_) hloop
        · rw [hbuilt, hopen]
          change countKey calls st' (h₀.cell k) >>= _ = _
          rw [hcount]
          rfl
        · exact ((hidlew.trans hidle').dup (Nat.lt_succ_self h₁.next)).trans hcell

end Specified

end Loops

/-! ## The reader -/

section Specification

variable {B E : Type} (calls : BuilderCalls B E)

/-- What was thrown by a builder, or for a name. -/
inductive Thrown : SpecStop E → Prop
  | builder (e : E) : Thrown (.builder e)
  | keyInvalidName : Thrown .keyInvalidName

/-- Each mountpoint has one builder, which has processed, and counted, the keys whose nearest mountpoint it is;
each key at or below a mountpoint has just one such. -/
structure Created (h : Heap) (ks : KeySet) (backends backends' : Backends B) : Prop where
  filled : Filled calls h ks.array ks.array backends backends'
  nearest : ∀ k ∈ ks.array, Nested.Covered (AtOrAbove h) (IsMountpoint h) ks.array k →
    ∃! m, Nearest (AtOrAbove h) (IsMountpoint h) ks.array m k
  counts : ∀ m ∈ ks.array, IsMountpoint h m → (backends' (h.ident m)).map SpecBackendBuilder.nodes =
    some (own (AtOrAbove h) (IsMountpoint h) ks.array m).length
  nodes : ((ks.array.filter fun m => IsMountpoint h m).map fun m =>
      ((backends' (h.ident m)).map SpecBackendBuilder.nodes).getD 0).sum =
    (ks.array.filter fun k => Nested.Covered (AtOrAbove h) (IsMountpoint h) ks.array k).length

variable {calls} {h : Heap} {ks : KeySet} {m₀ : Ident → Option KeyRef} {path : KeyRef → Path} {k m : KeyRef}
  {l : List KeyRef} {st : SpecMountpointReader B} {e : SpecStop E}

theorem thrown_setName {key : Key} {n : Str} (he : setName key n = .error e) : Thrown e := by
  unfold setName at he
  dsimp only at he
  split_ifs at he
  cases he
  exact .keyInvalidName

theorem thrown_processMeta {x : Str × Str} (he : processMeta calls st x = .error e) : Thrown e := by
  unfold processMeta at he
  dsimp only at he
  split_ifs at he
  · simp only [bind, Except.bind] at he
    split at he
    · rename_i hn
      cases he
      exact thrown_setName hn
    · cases he
  · split at he
    · cases he
      exact .builder _
    · cases he

theorem thrown_foldlM {α : Type} {f : SpecMountpointReader B → α → Except (SpecStop E) (SpecMountpointReader B)}
    (hf : ∀ st a e, f st a = .error e → Thrown e) : ∀ {l : List α} {st : SpecMountpointReader B} {e : SpecStop E},
    l.foldlM f st = .error e → Thrown e
  | [], _, _, he => by cases he
  | a :: l, st, e, he => by
    rw [List.foldlM_cons] at he
    cases ha : f st a with
    | error e' =>
      rw [ha] at he
      cases he
      exact hf st a _ ha
    | ok st' =>
      rw [ha] at he
      exact thrown_foldlM hf he

theorem thrown_countKey {key : Key} (he : countKey calls st key = .error e) : Thrown e := by
  unfold countKey at he
  simp only [bind, Except.bind] at he
  split at he
  · rename_i hp
    cases he
    exact thrown_foldlM (fun _ _ _ => thrown_processMeta) hp
  · cases he

theorem thrown_built (he : built calls h l m = .error e) : Thrown e := by
  unfold built at he
  cases hopen : openBuilder calls (keyDup (h.cell m)) with
  | error e' =>
    rw [hopen] at he
    cases he
    unfold openBuilder removeNamespace at hopen
    simp only [bind, Except.bind] at hopen
    split at hopen
    · rename_i hn
      cases hopen
      split at hn <;> exact thrown_setName hn
    · split at hopen
      · cases hopen
        exact .builder _
      · cases hopen
  | ok st =>
    rw [hopen] at he
    change (own (AtOrAbove h) (IsMountpoint h) l m).foldlM (fun st k => countKey calls st (h.cell k)) st >>= _ =
      _ at he
    cases hl : (own (AtOrAbove h) (IsMountpoint h) l m).foldlM (fun st k => countKey calls st (h.cell k)) st with
    | error e' =>
      rw [hl] at he
      cases he
      exact thrown_foldlM (fun _ _ _ => thrown_countKey) hl
    | ok st' =>
      rw [hl] at he
      change closeBuilder calls st' (h.cell m) = _ at he
      unfold closeBuilder at he
      dsimp only at he
      split at he
      · cases he
        exact .builder _
      · cases he

theorem Filled.created (hs : Specification h ks path) (hks : ks.Holds h m₀) {backends backends' : Backends B}
    (hf : Filled calls h ks.array ks.array backends backends') : Created calls h ks backends backends' := by
  have hhier := hs.hierarchy hks
  have hcounts : ∀ m ∈ ks.array, IsMountpoint h m → (backends' (h.ident m)).map SpecBackendBuilder.nodes =
      some (own (AtOrAbove h) (IsMountpoint h) ks.array m).length := fun m hm hmark => by
    obtain ⟨bb, hb, hget⟩ := hf.stored m hm hmark
    rw [hget, Option.map_some, built_nodes hb]
  refine ⟨hf, fun k hk hc => existsUnique_nearest hhier hk hc, hcounts, ?_⟩
  rw [← sum_own hhier hks.sorted.nodup]
  refine congrArg List.sum (List.map_congr_left fun m hm => ?_)
  obtain ⟨hm, hmark⟩ := List.mem_filter.mp hm
  rw [hcounts m hm (of_decide_eq_true hmark)]
  rfl

/-- **A specification is read into one builder for each mountpoint**, unless the builder of one of them throws. -/
theorem readSpecification_spec (cb : Callback) (fuel : ℕ) {depth : ℕ} (hks : ks.Holds h m₀)
    (hs : Specification h ks path) (hdepth : ks.size ≤ depth) (backends : Backends B) :
    (∃ h' backends', readSpecification calls cb (fuel + 1) depth h ks backends = .ok (h', backends') ∧
        Created calls h ks backends backends') ∨
      ∃ e, readSpecification calls cb (fuel + 1) depth h ks backends = .error e ∧ Thrown e ∧
        ∃ m ∈ ks.array, IsMountpoint h m ∧ built calls h ks.array m = .error e := by
  have hidle := idle_dup h ks
  have hholds := ksDup_holds hks
  have hsame := hks.array_eq hholds hidle.toKeeps
  rcases hdup : ksDup h ks with ⟨h₁, ks₁⟩
  rw [hdup] at hidle hholds hsame
  have hvisiting : Visiting h ks h₁ (ksRewind ks₁) [] ks.array :=
    ⟨hidle, ⟨m₀, hholds.of_array rfl hholds.room hholds.least⟩, hsame, hsame ▸ List.Sublist.refl _,
      rewound_rewind ks₁⟩
  have hsize : ks₁.size = ks.array.length := congrArg List.length hsame
  have hloop : Outcome calls h (fun _ _ => .ok ()) h₁ ks.array backends ()
      (readLoop (readMountpointSpecification calls cb (fuel + 1) depth) (fun _ _ => .ok ()) (ks.array.length + 1) h₁
        (ksRewind ks₁) backends ()) :=
    readLoop_spec hs hks (fun _ _ _ _ => rfl) (reads hs hks cb fuel depth) hvisiting hdepth
      (Nat.lt_succ_self ks.array.length)
  have hvisit : ∀ l : List KeyRef, l.foldlM (fun (_ : Unit) (_ : KeyRef) => (.ok () : Except (SpecStop E) Unit)) () =
      .ok () := fun l => by
    induction l with
    | nil => rfl
    | cons k l ih => exact ih
  have hrun : readSpecification calls cb (fuel + 1) depth h ks backends =
      readLoop (readMountpointSpecification calls cb (fuel + 1) depth) (fun _ _ => .ok ()) (ks.array.length + 1) h₁
        (ksRewind ks₁) backends () >>= fun r => .ok (r.1, r.2.1) := by
    rw [readSpecification, hdup, ← hsize]
  rw [hrun]
  cases hr : readLoop (readMountpointSpecification calls cb (fuel + 1) depth) (fun _ _ => .ok ())
    (ks.array.length + 1) h₁ (ksRewind ks₁) backends () with
  | error e =>
    rw [hr] at hloop
    obtain hfold | ⟨m, hm, hmark, hb⟩ := hloop
    · rw [hvisit] at hfold
      cases hfold
    · exact .inr ⟨e, rfl, thrown_built hb, m, hm, hmark, hb⟩
  | ok r =>
    obtain ⟨h', backends', _⟩ := r
    rw [hr] at hloop
    exact .inl ⟨h', backends', rfl, hloop.2.2.created hs hks⟩

end Specification

/-! ## Runs -/

/-- Builders that refuse the reserved names, as backends do, and take everything else. -/
def reservedNames : BuilderCalls Unit Str where
  create := ()
  setMountpoint _ mountpoint :=
    if keyIsBelowOrSame (keyNewName (str "/elektra")) mountpoint then
      .error (str "Mountpoint " ++ keyName mountpoint ++ str " is below the reserved names /elektra because it " ++
        str "would cause inconsistencies in this or future versions")
    else .ok ()
  addPlugins _ _ := .ok ()
  needPlugin _ _ := ()
  recommendPlugin _ _ := ()
  needMetadata _ _ := ()
  setBackendConfig _ _ := ()
  useConfigFile _ _ := .ok ()

def withMountpoint (name : Str) : Key := (keySetMeta (keyNewName name) (str "mountpoint") (some (str "file.ini"))).2

/-- `spec/mp` with `below` and another mountpoint `below/recursive`. -/
def recursiveSet : Heap × KeySet :=
  ksNew (.ofList [withMountpoint (str "spec/mp"), keyNewName (str "spec/mp/below"),
    withMountpoint (str "spec/mp/below/recursive")]) 3 [0, 1, 2]

def recursivePath : KeyRef → Path
  | 0 => ⟨.ns .spec, [⟨str "mp", by decide⟩]⟩
  | 1 => ⟨.ns .spec, [⟨str "mp", by decide⟩, ⟨str "below", by decide⟩]⟩
  | _ => ⟨.ns .spec, [⟨str "mp", by decide⟩, ⟨str "below", by decide⟩, ⟨str "recursive", by decide⟩]⟩

theorem recursiveSet_array : recursiveSet.2.array = [0, 1, 2] := by decide +kernel

theorem specification_recursiveSet : Specification recursiveSet.1 recursiveSet.2 recursivePath where
  named k hk := by
    rw [recursiveSet_array] at hk
    obtain rfl | rfl | rfl : k = 0 ∨ k = 1 ∨ k = 2 := by simpa using hk
    all_goals exact ⟨rfl, rfl, rfl, rfl⟩
  namespaced k hk := by
    rw [recursiveSet_array] at hk
    obtain rfl | rfl | rfl : k = 0 ∨ k = 1 ∨ k = 2 := by simpa using hk
    all_goals decide
  distinct k hk j hj := by
    rw [recursiveSet_array] at hk hj
    obtain rfl | rfl | rfl : k = 0 ∨ k = 1 ∨ k = 2 := by simpa using hk
    all_goals
      obtain rfl | rfl | rfl : j = 0 ∨ j = 1 ∨ j = 2 := by simpa using hj
      all_goals decide
  plain k hk := by
    rw [recursiveSet_array] at hk
    obtain rfl | rfl | rfl : k = 0 ∨ k = 1 ∨ k = 2 := by simpa using hk
    all_goals rfl

/-- The nodes of the builder that a run without builders before it leaves for a key. -/
def nodesOf (set : Heap × KeySet) (k : KeyRef) : Option ℕ :=
  match readSpecification reservedNames noCallback 2 3 set.1 set.2 fun _ => none with
  | .ok (_, backends) => (backends (set.1.ident k)).map SpecBackendBuilder.nodes
  | .error _ => none

theorem readSpecification_recursiveSet :
    (∃ h' backends', readSpecification reservedNames noCallback 2 3 recursiveSet.1 recursiveSet.2 (fun _ => none) =
        .ok (h', backends') ∧ Created reservedNames recursiveSet.1 recursiveSet.2 (fun _ => none) backends') ∨
      ∃ e, readSpecification reservedNames noCallback 2 3 recursiveSet.1 recursiveSet.2 (fun _ => none) = .error e ∧
        Thrown e ∧ ∃ m ∈ recursiveSet.2.array, IsMountpoint recursiveSet.1 m ∧
          built reservedNames recursiveSet.1 recursiveSet.2.array m = .error e := by
  refine readSpecification_spec noCallback 1 (ksNew_holds 3 fun k hk => ?_) specification_recursiveSet
    (by decide +kernel) fun _ => none
  obtain rfl | rfl | rfl : k = 0 ∨ k = 1 ∨ k = 2 := by simpa using hk
  · exact HasName.entry (P := recursivePath 0) ⟨rfl, rfl, rfl, rfl⟩ (by decide)
  · exact HasName.entry (P := recursivePath 1) ⟨rfl, rfl, rfl, rfl⟩ (by decide)
  · exact HasName.entry (P := recursivePath 2) ⟨rfl, rfl, rfl, rfl⟩ (by decide)

example : nodesOf recursiveSet 0 = some 2 ∧ nodesOf recursiveSet 2 = some 1 := by decide +kernel

/-- A mountpoint with a reserved name. -/
def reservedSet : Heap × KeySet := ksNew (.ofList [withMountpoint (str "spec/elektra")]) 1 [0]

/-- A mountpoint, and a cascading key below it. -/
def cascadingSet : Heap × KeySet :=
  ksNew (.ofList [keyNewName (str "/mp/below"), withMountpoint (str "spec/mp")]) 2 [0, 1]

/-- Two keys of the same name. -/
def ownedSet : Heap × KeySet :=
  ksNew (.ofList [keySetOwner (withMountpoint (str "spec/mp")) (some (str "a")),
    keySetOwner (keyNewName (str "spec/mp")) (some (str "b"))]) 2 [0, 1]

/-- Whether the reader succeeds on the set, with the builders it is to create. -/
def Succeeds (set : Heap × KeySet) : Prop :=
  ∃ h' backends', readSpecification reservedNames noCallback 2 3 set.1 set.2 (fun _ => none) = .ok (h', backends') ∧
    Created reservedNames set.1 set.2 (fun _ => none) backends'

theorem not_succeeds {set : Heap × KeySet} {m : KeyRef} (hmem : m ∈ set.2.array)
    (hmark : hasMountpoint (set.1.cell m) = true)
    (hnodes : nodesOf set m ≠ some (own (AtOrAbove set.1) (IsMountpoint set.1) set.2.array m).length) :
    ¬ Succeeds set := by
  rintro ⟨h', backends', hrun, hcreated⟩
  refine hnodes ?_
  rw [nodesOf, hrun]
  exact hcreated.counts m hmem hmark

/-- No builder for the first one, and one that counts too few keys for the others. -/
theorem not_created : ¬ Succeeds reservedSet ∧ ¬ Succeeds cascadingSet ∧ ¬ Succeeds ownedSet := by
  refine ⟨not_succeeds (m := 0) ?_ ?_ ?_, not_succeeds (m := 1) ?_ ?_ ?_, not_succeeds (m := 0) ?_ ?_ ?_⟩
  all_goals decide +kernel

end Elektra.Tools
