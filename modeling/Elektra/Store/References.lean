import Elektra.Lookup.References
import Elektra.Lookup.Resolve

/-!
# References across key sets

An application takes references to keys, and works on any number of key sets that share them. The
counter of each key is the number of key sets that contain it and of the references that the
application holds.

* `Memory`, `RefCall`, `perform`, `performAll`;
* `RefCall.Valid`: calls on keys that are not freed, and on references that were taken;
* `Memory.Sound`: what every call keeps;
* **`references_counted`**.
-/

namespace Elektra

/-- `held` has no counterpart in memory: the references that the application took by `keyIncRef` and
did not release yet. -/
structure Memory where
  heap : Heap
  sets : List KeySet
  held : List KeyRef

/-- Key sets are given by their position; new ones get the last one. -/
inductive RefCall
  | keyNew (name : Str)
  | keyDel (k : KeyRef)
  | keyIncRef (k : KeyRef)
  | keyDecRef (k : KeyRef)
  | ksNew (alloc : ℕ)
  | ksAppendKey (i : ℕ) (k : KeyRef)
  | ksAppend (i toAppend : ℕ)
  | ksPop (i : ℕ)
  | ksPopAtCursor (i : ℕ) (pos : ℤ)
  | ksCut (i : ℕ) (cutpoint : KeyRef)
  /-- The calls inside one another are at most `fuel`. -/
  | ksLookup (i : ℕ) (key : KeyRef) (o : Options) (fuel : ℕ)
  | ksDup (i : ℕ)
  | ksClear (i : ℕ)
  | ksDel (i : ℕ)

/-- One call; `none` where a key set does not exist, a cutpoint has no name, or a lookup does not
return. -/
def perform (cb : Callback) (st : Memory) : RefCall → Option Memory
  | .keyNew name => some { st with heap := (st.heap.alloc (keyNewName name)).2 }
  | .keyDel k => some { st with heap := keyDel st.heap k }
  | .keyIncRef k => some { st with heap := keyIncRef st.heap k, held := k :: st.held }
  | .keyDecRef k => some { st with heap := keyDecRef st.heap k, held := st.held.erase k }
  | .ksNew alloc =>
    let (h, ks) := ksNew st.heap alloc []
    some { st with heap := h, sets := st.sets ++ [ks] }
  | .ksAppendKey i k => do
    let ks ← st.sets[i]?
    let (_, h, ks) := ksAppendKey st.heap ks k
    some { st with heap := h, sets := st.sets.set i ks }
  | .ksAppend i toAppend => do
    let ks ← st.sets[i]?
    let other ← st.sets[toAppend]?
    let (_, h, ks) := ksAppend st.heap ks other
    some { st with heap := h, sets := st.sets.set i ks }
  | .ksPop i => do
    let ks ← st.sets[i]?
    let (_, h, ks) := ksPop st.heap ks
    some { st with heap := h, sets := st.sets.set i ks }
  | .ksPopAtCursor i pos => do
    let ks ← st.sets[i]?
    let (_, h, ks) := elektraKsPopAtCursor st.heap ks pos
    some { st with heap := h, sets := st.sets.set i ks }
  | .ksCut i cutpoint => do
    let ks ← st.sets[i]?
    let (h, ks, ret) := ksCut st.heap ks cutpoint
    let ret ← ret
    some { st with heap := h, sets := st.sets.set i ks ++ [ret] }
  | .ksLookup i key o fuel => do
    let ks ← st.sets[i]?
    let (_, w) ← (ksLookup cb fuel { heap := st.heap, ks := ks } key o).toOption
    some { st with heap := w.heap, sets := st.sets.set i w.ks }
  | .ksDup i => do
    let ks ← st.sets[i]?
    let (h, ks) := ksDup st.heap ks
    some { st with heap := h, sets := st.sets ++ [ks] }
  | .ksClear i => do
    let ks ← st.sets[i]?
    let (h, ks) := ksClear st.heap ks
    some { st with heap := h, sets := st.sets.set i ks }
  | .ksDel i => do
    let ks ← st.sets[i]?
    some { st with heap := ksDel st.heap ks, sets := st.sets.eraseIdx i }

/-- Calls one after the other. -/
def performAll (cb : Callback) (st : Memory) (calls : List RefCall) : Option Memory :=
  calls.foldlM (perform cb) st

/-- The key was made, with the size of its name, and is not freed. -/
structure Live (h : Heap) (k : KeyRef) : Prop where
  lt : k < h.next
  unfreed : h.freed k = false
  nameSized : NameSized (h.cell k)

/-- Keys are used before they are freed, references are released once, and a cascading cutpoint is
no key of the key set itself. -/
def RefCall.Valid (st : Memory) : RefCall → Prop
  | .keyDel k | .keyIncRef k | .ksAppendKey _ k | .ksLookup _ k _ _ => Live st.heap k
  | .keyDecRef k => k ∈ st.held
  | .ksCut i cutpoint => Live st.heap cutpoint ∧
      ∀ ks, st.sets[i]? = some ks → Cascading (st.heap.cell cutpoint) → cutpoint ∉ ks.array
  | _ => True

/-- Each call of a sequence satisfies a condition in the state in which it is made. -/
def AllPerformed (cb : Callback) (P : Memory → RefCall → Prop) : Memory → List RefCall → Prop
  | _, [] => True
  | st, c :: calls => P st c ∧ ∀ st', perform cb st c = some st' → AllPerformed cb P st' calls

/-- Calls that leave a key to the application: it may be alive though nothing refers to it. -/
def RefCall.leak : RefCall → Bool
  | .keyDecRef _ | .ksPop _ | .ksPopAtCursor _ _ => true
  | .ksLookup _ _ o _ => o.pop
  | _ => false

/-! ## What every call keeps -/

namespace Memory

/-- The references to a key. -/
def refs (st : Memory) (k : KeyRef) : ℕ :=
  (st.sets.map fun ks => ks.array.count k).sum + st.held.count k

/-- The references from elsewhere than a key set. -/
def rest (st : Memory) (i : ℕ) : KeyRef → ℕ := refs { st with sets := st.sets.eraseIdx i }

/-- The key sets are valid, and the counters right. -/
structure Sound (st : Memory) : Prop where
  holds : ∀ ks ∈ st.sets, ∃ m, ks.Holds st.heap m
  counted : Counted st.heap st.refs

end Memory

section Sound

variable {st : Memory} {i : ℕ} {ks ks' ret : KeySet} {h : Heap} {leak : Bool}

theorem sum_perm {l l' : List KeySet} (hp : l.Perm l') (k : KeyRef) :
    (l.map fun ks => ks.array.count k).sum = (l'.map fun ks => ks.array.count k).sum :=
  (hp.map _).sum_eq

theorem refs_get (hi : st.sets[i]? = some ks) : st.refs = ks.refs (st.rest i) := by
  obtain ⟨hlt, rfl⟩ := List.getElem?_eq_some_iff.mp hi
  funext k
  have hp := sum_perm (List.getElem_cons_eraseIdx_perm hlt) k
  rw [List.map_cons, List.sum_cons] at hp
  simp only [Memory.refs, Memory.rest, KeySet.refs]
  omega

theorem refs_put (hi : st.sets[i]? = some ks) :
    Memory.refs { st with heap := h, sets := st.sets.set i ks' } = ks'.refs (st.rest i) := by
  obtain ⟨hlt, -⟩ := List.getElem?_eq_some_iff.mp hi
  funext k
  have hp := sum_perm (List.set_perm_cons_eraseIdx hlt ks') k
  rw [List.map_cons, List.sum_cons] at hp
  simp only [Memory.refs, Memory.rest, KeySet.refs]
  omega

theorem refs_concat (l : List KeySet) :
    Memory.refs { st with heap := h, sets := l ++ [ret] } =
      ret.refs (Memory.refs { st with heap := h, sets := l }) := by
  funext k
  simp only [Memory.refs, KeySet.refs, List.map_append, List.sum_append, List.map_cons, List.map_nil,
    List.sum_cons, List.sum_nil]
  omega

theorem refs_pos {k : KeyRef} (hks : ks ∈ st.sets) (hk : k ∈ ks.array) : 0 < st.refs k := by
  have hle : ks.array.count k ≤ (st.sets.map fun ks => ks.array.count k).sum :=
    List.le_sum_of_mem (List.mem_map_of_mem hks)
  have := List.count_pos_iff.mpr hk
  rw [Memory.refs]
  omega

/-- What a call leaves. -/
structure Memory.Leaves (leak : Bool) (st st' : Memory) : Prop where
  holds : ∀ ks ∈ st'.sets, ∃ m, ks.Holds st'.heap m
  counts : Counts leak st.heap st'.heap st.refs st'.refs

theorem Memory.Leaves.sound {st' : Memory} (h : st.Leaves leak st') : st'.Sound :=
  ⟨h.holds, h.counts.counted⟩

theorem Memory.Sound.get (hst : st.Sound) (hi : st.sets[i]? = some ks) :
    (∃ m, ks.Holds st.heap m) ∧ Counted st.heap (ks.refs (st.rest i)) := by
  rw [← refs_get hi]
  exact ⟨hst.holds ks (List.mem_of_getElem? hi), hst.counted⟩

theorem Memory.Sound.set (hst : st.Sound)
    (hother : ∀ (ks : KeySet) m, ks.Holds st.heap m → ks.Holds h m) (hks : ∃ m, ks'.Holds h m) :
    ∀ ks ∈ st.sets.set i ks', ∃ m, ks.Holds h m := by
  intro ks hmem
  obtain hmem | rfl := List.mem_or_eq_of_mem_set hmem
  · obtain ⟨m, hm⟩ := hst.holds ks hmem
    exact ⟨m, hother ks m hm⟩
  · exact hks

theorem Memory.Sound.put (hst : st.Sound) (hi : st.sets[i]? = some ks)
    (hother : ∀ (ks : KeySet) m, ks.Holds st.heap m → ks.Holds h m) (hks : ∃ m, ks'.Holds h m)
    (hc : Counts leak st.heap h (ks.refs (st.rest i)) (ks'.refs (st.rest i))) :
    st.Leaves leak { st with heap := h, sets := st.sets.set i ks' } where
  holds := hst.set hother hks
  counts := by
    rw [refs_get hi, refs_put hi]
    exact hc

theorem leaves_concat {l : List KeySet} (hl : ∀ ks ∈ l, ∃ m, ks.Holds h m)
    (hret : ∃ m, ret.Holds h m)
    (hc : Counts leak st.heap h st.refs (ret.refs (Memory.refs { st with heap := h, sets := l }))) :
    st.Leaves leak { st with heap := h, sets := l ++ [ret] } where
  holds ks hmem := by
    obtain hmem | hmem := List.mem_append.mp hmem
    · exact hl ks hmem
    · obtain rfl := List.mem_singleton.mp hmem
      exact hret
  counts := by
    rw [refs_concat]
    exact hc

theorem Memory.Sound.keys (hst : st.Sound) {held : List KeyRef} (hh : Keeps st.heap h)
    (hc : Counts leak st.heap h st.refs (refs { st with held := held })) :
    st.Leaves leak { st with heap := h, held := held } where
  holds ks hks := by
    obtain ⟨m, hm⟩ := hst.holds ks hks
    exact ⟨m, hm.keeps hh⟩
  counts := hc

end Sound

/-! ## One call -/

section Calls

variable {cb : Callback} {st st' : Memory} {i j : ℕ} {k : KeyRef}

theorem perform_keyIncRef (hst : st.Sound) (hk : Live st.heap k) :
    st.Leaves false { st with heap := keyIncRef st.heap k, held := k :: st.held } := by
  refine hst.keys (keeps_incRef _ _) (hst.counted.incRef hk.lt hk.unfreed fun j => ?_)
  simp only [Memory.refs, List.count_cons, beq_iff_eq]
  omega

theorem perform_keyDecRef (hst : st.Sound) (hk : k ∈ st.held) :
    st.Leaves true { st with heap := keyDecRef st.heap k, held := st.held.erase k } := by
  refine hst.keys (keeps_decRef _ _) (hst.counted.decRef fun j => ?_)
  have hp := (List.perm_cons_erase hk).count_eq j
  simp only [Memory.refs, List.count_cons, beq_iff_eq] at hp ⊢
  omega

theorem perform_ksNew (hst : st.Sound) (alloc : ℕ) :
    st.Leaves false
      { st with heap := (ksNew st.heap alloc []).1, sets := st.sets ++ [(ksNew st.heap alloc []).2] } := by
  have hnew := @ksNew_holds st.heap alloc [] nofun
  rw [ksNew_empty] at hnew ⊢
  refine leaves_concat hst.holds ⟨_, hnew⟩ ?_
  have hrefs : (ksNew st.heap alloc []).2.refs st.refs = st.refs := refs_new _ _ _
  have hsame : Memory.refs { st with heap := st.heap, sets := st.sets } = st.refs := rfl
  rw [hsame, hrefs]
  exact Counts.refl hst.counted

theorem perform_ksAppendKey (hst : st.Sound) (hk : Live st.heap k)
    (h : perform cb st (.ksAppendKey i k) = some st') : st.Leaves false st' := by
  obtain ⟨ks, hi, h⟩ := Option.bind_eq_some_iff.mp h
  obtain rfl : { st with
      heap := (ksAppendKey st.heap ks k).2.1
      sets := st.sets.set i (ksAppendKey st.heap ks k).2.2 } = st' := Option.some.inj h
  obtain ⟨⟨m, hks⟩, hc⟩ := hst.get hi
  have hentry : (st.heap.cell k).key ≠ none → Entry st.heap k := fun hn => ⟨hk.lt, hn, hk.nameSized hn⟩
  refine hst.put hi (fun _ _ hm => hm.keeps (keeps_appendKey _ _ _)) ?_
    (ksAppendKey_counts hks hentry hk.lt hk.unfreed hc)
  by_cases hn : (st.heap.cell k).key = none
  · rw [ksAppendKey, if_pos hn]
    exact ⟨m, hks.keeps (keeps_del _ _)⟩
  · exact ⟨_, ksAppendKey_holds hks (hentry hn)⟩

theorem perform_ksAppend (hst : st.Sound) (h : perform cb st (.ksAppend i j) = some st') :
    st.Leaves false st' := by
  obtain ⟨ks, hi, h⟩ := Option.bind_eq_some_iff.mp h
  obtain ⟨other, hj, h⟩ := Option.bind_eq_some_iff.mp h
  obtain rfl : { st with
      heap := (ksAppend st.heap ks other).2.1
      sets := st.sets.set i (ksAppend st.heap ks other).2.2 } = st' := Option.some.inj h
  obtain ⟨⟨m, hks⟩, hc⟩ := hst.get hi
  obtain ⟨⟨m', hother⟩, -⟩ := hst.get hj
  refine hst.put hi (fun _ _ hm => hm.keeps (keeps_append _ _ _)) ⟨_, ksAppend_holds hks hother⟩ ?_
  by_cases hij : i = j
  · subst hij
    obtain rfl : ks = other := Option.some.inj (hi.symm.trans hj)
    exact ksAppend_self hks hc
  · refine ksAppend_counts hks hother (fun k hk => ?_) hc
    have hmem : other ∈ st.sets.eraseIdx i := by
      obtain ⟨hlt, rfl⟩ := List.getElem?_eq_some_iff.mp hj
      exact List.mem_eraseIdx_iff_getElem.mpr ⟨j, hlt, Ne.symm hij, rfl⟩
    exact @refs_pos { st with sets := st.sets.eraseIdx i } other k hmem hk

theorem perform_ksPop (hst : st.Sound) (h : perform cb st (.ksPop i) = some st') :
    st.Leaves true st' := by
  obtain ⟨ks, hi, h⟩ := Option.bind_eq_some_iff.mp h
  obtain rfl : { st with
      heap := (ksPop st.heap ks).2.1
      sets := st.sets.set i (ksPop st.heap ks).2.2 } = st' := Option.some.inj h
  obtain ⟨⟨m, hks⟩, hc⟩ := hst.get hi
  refine hst.put hi (fun _ _ hm => hm.keeps (keeps_pop _ _)) ?_ (ksPop_counts hc)
  cases hlast : ks.array.getLast? with
  | some k => exact ⟨_, (ksPop_holds hks hlast).2⟩
  | none =>
    have hpop : ksPop st.heap ks = (none, st.heap, { ks with sync := true }) := by
      rw [ksPop]
      dsimp only
      rw [hlast]
    rw [hpop]
    exact ⟨m, hks.of_array rfl hks.room hks.least⟩

theorem perform_ksPopAtCursor (hst : st.Sound) {pos : ℤ}
    (h : perform cb st (.ksPopAtCursor i pos) = some st') : st.Leaves true st' := by
  obtain ⟨ks, hi, h⟩ := Option.bind_eq_some_iff.mp h
  obtain rfl : { st with
      heap := (elektraKsPopAtCursor st.heap ks pos).2.1
      sets := st.sets.set i (elektraKsPopAtCursor st.heap ks pos).2.2 } = st' := Option.some.inj h
  obtain ⟨⟨m, hks⟩, hc⟩ := hst.get hi
  refine hst.put hi (fun _ _ hm => hm.keeps (keeps_popAtCursor _ _ _)) ?_
    (elektraKsPopAtCursor_counts hc)
  by_cases hpos : pos < 0
  · rw [elektraKsPopAtCursor, if_pos hpos]
    exact ⟨m, hks⟩
  · obtain ⟨p, rfl⟩ := Int.eq_ofNat_of_zero_le (not_lt.mp hpos)
    exact (@moves_pop ⟨st.heap, ks⟩ p).holds ⟨m, hks⟩

theorem perform_ksCut (hst : st.Sound) {cutpoint : KeyRef} (hk : Live st.heap cutpoint)
    (hcut : ∀ ks, st.sets[i]? = some ks → Cascading (st.heap.cell cutpoint) → cutpoint ∉ ks.array)
    (h : perform cb st (.ksCut i cutpoint) = some st') : st.Leaves false st' := by
  obtain ⟨ks, hi, h⟩ := Option.bind_eq_some_iff.mp h
  obtain ⟨⟨m, hks⟩, hc⟩ := hst.get hi
  by_cases hn : (st.heap.cell cutpoint).key = none
  · have hnone : ksCut st.heap ks cutpoint = (st.heap, ks, none) := by
      unfold ksCut
      rw [hn]
    rw [hnone] at h
    cases h
  have hentry : Entry st.heap cutpoint := ⟨hk.lt, hn, hk.nameSized hn⟩
  obtain ⟨ret, hret, hkeeps, -, hrest, hcutks⟩ := ksCut_spec hks hentry (hcut ks hi)
  obtain ⟨ret', hret', hcounts⟩ := @ksCut_counts _ _ _ _ _ false hks hentry (hcut ks hi) hc
  obtain rfl : ret = ret' := Option.some.inj (hret.symm.trans hret')
  generalize ksCut st.heap ks cutpoint = x at h hret hkeeps hrest hcutks hcounts
  obtain ⟨h', ks', r⟩ := x
  dsimp only at h hret hkeeps hrest hcutks hcounts
  subst hret
  cases h
  refine leaves_concat (hst.set (fun _ _ hm => hm.keeps hkeeps) ⟨_, hrest⟩) ⟨_, hcutks⟩ ?_
  rw [refs_put hi, refs_get hi, refs_swap]
  exact hcounts

theorem perform_ksLookup (hcb : Balanced cb) (hst : st.Sound) {key : KeyRef} {o : Options} {fuel : ℕ}
    (hk : Live st.heap key) (h : perform cb st (.ksLookup i key o fuel) = some st') :
    st.Leaves o.pop st' := by
  obtain ⟨ks, hi, h⟩ := Option.bind_eq_some_iff.mp h
  obtain ⟨⟨r, w⟩, hr, h⟩ := Option.bind_eq_some_iff.mp h
  cases h
  obtain ⟨hks, hc⟩ := hst.get hi
  have hmoves : Moves o.pop ⟨st.heap, ks⟩ w := by
    refine ksLookup_moves hcb fuel ⟨st.heap, ks⟩ key o hk.lt hk.nameSized id r w ?_
    cases hx : ksLookup cb fuel ⟨st.heap, ks⟩ key o with
    | error e =>
      rw [hx] at hr
      cases hr
    | ok x =>
      rw [hx] at hr
      cases hr
      rfl
  refine hst.put hi (fun ks' m hm => ?_) (hmoves.holds hks) (hmoves.counts hks _ hc)
  exact hm.of_cells hmoves.next fun k hk => hmoves.locked k (hm.entry k hk).lt (hm.locked k hk)

theorem perform_ksDup (hst : st.Sound) (h : perform cb st (.ksDup i) = some st') :
    st.Leaves false st' := by
  obtain ⟨ks, hi, h⟩ := Option.bind_eq_some_iff.mp h
  obtain rfl : { st with
      heap := (ksDup st.heap ks).1
      sets := st.sets ++ [(ksDup st.heap ks).2] } = st' := Option.some.inj h
  have hmem := List.mem_of_getElem? hi
  obtain ⟨m, hks⟩ := hst.holds ks hmem
  refine leaves_concat (fun ks' hks' => ?_) ⟨m, ksDup_holds hks⟩
    (ksDup_counts hks (fun k hk => refs_pos hmem hk) hst.counted)
  obtain ⟨m', hm'⟩ := hst.holds ks' hks'
  exact ⟨m', hm'.keeps (keeps_dup _ _)⟩

theorem perform_ksClear (hst : st.Sound) (h : perform cb st (.ksClear i) = some st') :
    st.Leaves false st' := by
  obtain ⟨ks, hi, h⟩ := Option.bind_eq_some_iff.mp h
  obtain rfl : { st with
      heap := (ksClear st.heap ks).1
      sets := st.sets.set i (ksClear st.heap ks).2 } = st' := Option.some.inj h
  obtain ⟨-, hc⟩ := hst.get hi
  refine hst.put hi (fun _ _ hm => hm.keeps (keeps_close _ _)) ⟨_, ksClear_holds _ _⟩ ?_
  have hclose : Counts false st.heap _ (ks.refs (st.rest i)) (st.rest i) := closeLoop_counts ks.array hc
  have hempty : (ksClear st.heap ks).2.refs (st.rest i) = st.rest i := funext fun k => Nat.zero_add _
  rw [hempty]
  exact hclose

theorem perform_ksDel (hst : st.Sound) (h : perform cb st (.ksDel i) = some st') :
    st.Leaves false st' := by
  obtain ⟨ks, hi, h⟩ := Option.bind_eq_some_iff.mp h
  cases h
  obtain ⟨-, hc⟩ := hst.get hi
  refine ⟨fun ks' hmem => ?_, ?_⟩
  · obtain ⟨m, hm⟩ := hst.holds ks' (List.mem_of_mem_eraseIdx hmem)
    exact ⟨m, hm.keeps (keeps_close _ _)⟩
  · rw [refs_get hi]
    exact closeLoop_counts ks.array hc

/-- **Every call keeps the counters right, and leaves no unreachable key alive but those that it hands
to the application.** -/
theorem perform_leaves (hcb : Balanced cb) (hst : st.Sound) {c : RefCall} (hv : c.Valid st)
    (h : perform cb st c = some st') : st.Leaves c.leak st' := by
  cases c with
  | keyNew name =>
    cases h
    exact hst.keys (keeps_alloc _ _) (hst.counted.alloc (keySetName_reference keyNew (some name) false))
  | keyDel k =>
    cases h
    exact hst.keys (keeps_del _ _) (hst.counted.del hv.lt)
  | keyIncRef k =>
    cases h
    exact perform_keyIncRef hst hv
  | keyDecRef k =>
    cases h
    exact perform_keyDecRef hst hv
  | ksNew alloc =>
    obtain rfl := Option.some.inj h
    exact perform_ksNew hst alloc
  | ksAppendKey i k => exact perform_ksAppendKey hst hv h
  | ksAppend i toAppend => exact perform_ksAppend hst h
  | ksPop i => exact perform_ksPop hst h
  | ksPopAtCursor i pos => exact perform_ksPopAtCursor hst h
  | ksCut i cutpoint => exact perform_ksCut hst hv.1 hv.2 h
  | ksLookup i key o fuel => exact perform_ksLookup hcb hst hv h
  | ksDup i => exact perform_ksDup hst h
  | ksClear i => exact perform_ksClear hst h
  | ksDel i => exact perform_ksDel hst h

/-! ## Sequences of calls -/

theorem performAll_sound (hcb : Balanced cb) : ∀ (calls : List RefCall) {st st' : Memory}, st.Sound →
    AllPerformed cb (fun st c => c.Valid st) st calls → performAll cb st calls = some st' → st'.Sound
  | [], st, st', hst, _, h => by
    cases h
    exact hst
  | c :: calls, st, st', hst, ⟨hv, hall⟩, h => by
    obtain ⟨st1, hstep, h⟩ := Option.bind_eq_some_iff.mp h
    exact performAll_sound hcb calls (perform_leaves hcb hst hv hstep).sound (hall st1 hstep) h

/-- Memory with keys, and no key set yet. -/
def Memory.init (h : Heap) : Memory := { heap := h, sets := [], held := [] }

/-- Nothing refers to the keys. -/
structure Unreferenced (h : Heap) : Prop where
  count : ∀ k < h.next, (h.cell k).ksReference = 0
  unfreed : ∀ k, h.freed k = false

theorem init_sound {h : Heap} (hh : Unreferenced h) : (Memory.init h).Sound where
  holds := nofun
  counted := ⟨fun _ hk => absurd hk (Nat.lt_irrefl 0), hh.count, fun k _ => hh.unfreed k⟩

/-- The counter of a key that is alive is the number of key sets that contain it and of the references
that the application holds; a key that is freed has the counter 0, and is in no key set. -/
structure Memory.Accounted (st : Memory) : Prop where
  counter : ∀ k < st.heap.next, st.heap.freed k = false → (st.heap.cell k).ksReference =
    (st.sets.countP fun ks => decide (k ∈ ks.array)) + st.held.count k
  zero : ∀ k < st.heap.next, st.heap.freed k = true → (st.heap.cell k).ksReference = 0
  member : ∀ ks ∈ st.sets, ∀ k ∈ ks.array, st.heap.freed k = false

theorem sum_count (k : KeyRef) : ∀ l : List KeySet, (∀ ks ∈ l, ks.array.Nodup) →
    (l.map fun ks => ks.array.count k).sum = l.countP fun ks => decide (k ∈ ks.array)
  | [], _ => rfl
  | ks :: l, hl => by
    have ih := sum_count k l fun ks hks => hl ks (List.mem_cons_of_mem _ hks)
    have hks := hl ks List.mem_cons_self
    rw [List.map_cons, List.sum_cons, ih, List.countP_cons]
    by_cases hk : k ∈ ks.array
    · rw [List.count_eq_one_of_mem hks hk, if_pos (decide_eq_true hk), Nat.add_comm]
    · rw [List.count_eq_zero_of_not_mem hk, if_neg (by simpa using hk), Nat.zero_add, Nat.add_zero]

theorem Memory.Sound.accounted (hst : st.Sound) : st.Accounted where
  counter k hk _ := by
    rw [hst.counted.count k hk, Memory.refs, sum_count k st.sets fun ks hks => ?_]
    obtain ⟨m, hm⟩ := hst.holds ks hks
    exact hm.sorted.nodup
  zero k hk hf := by
    rw [hst.counted.count k hk]
    by_contra hne
    have hlive := (hst.counted.live k (Nat.pos_of_ne_zero hne)).2
    rw [hf] at hlive
    cases hlive
  member ks hks k hk := (hst.counted.live k (refs_pos hks hk)).2

/-- The counter says how many key sets and references there are, and a key is freed exactly when it is
0. -/
def Memory.Exact (st : Memory) : Prop :=
  ∀ k < st.heap.next, (st.heap.freed k = false → (st.heap.cell k).ksReference =
    (st.sets.countP fun ks => decide (k ∈ ks.array)) + st.held.count k) ∧
    (st.heap.freed k = true ↔ (st.heap.cell k).ksReference = 0)

instance (st : Memory) : Decidable st.Exact := inferInstanceAs (Decidable (∀ k < st.heap.next, _))

/-- `/a`, `dir/a/x` and `user/a` in a key set -/
def cascadingSet : List RefCall :=
  [.keyNew (str "/a"), .keyNew (str "dir/a/x"), .keyNew (str "user/a"), .ksNew 0, .ksAppendKey 0 0,
    .ksAppendKey 0 1, .ksAppendKey 0 2]

theorem inexact_of {calls : List RefCall} (h : (performAll noCallback (.init (.ofList [])) calls).any
    (fun st => decide ¬ st.Exact) = true) :
    ∃ st, performAll noCallback (.init (.ofList [])) calls = some st ∧ ¬ st.Exact := by
  obtain ⟨st, hst, he⟩ := (Option.any_eq_true _ _).mp h
  exact ⟨st, hst, of_decide_eq_true he⟩

end Calls

end Elektra
