import Mathlib.Data.List.Sort
import Elektra.KeySet.Cursor
import Elektra.Meta.Memory
import Elektra.Trie.Model

/-!
# Comparing metadata

`keyCompareMeta` reads the metadata of two keys in lock step, through the cursors of the keys, and ends
where the first one has no more.

* `keyRewindMeta`, `keyNextMeta`, `keyCompareMeta`, `keyCompare`;
* `entries`, `SameMeta`; **`keyCompareMeta_eq`**: whether the one list begins the other;
* **`comparesMeta_iff`**.
-/

namespace Elektra.KeyMeta

def KEY_META : ℤ := 2 ^ 15

def keyRewindMeta (s : Memory) (k : KeyRef) : Memory :=
  { s with metas := Function.update s.metas k ((s.metas k).map ksRewind) }

def keyNextMeta (s : Memory) (k : KeyRef) : Option KeyRef × Memory :=
  match s.metas k with
  | none => (none, s)
  | some ks => ((ksNext ks).1, { s with metas := Function.update s.metas k (some (ksNext ks).2) })

/-- The loop of `keyCompareMeta`. -/
def compareMetaLoop (key1 key2 : KeyRef) : ℕ → Memory → Except Stop (ℤ × Memory)
  | 0, _ => .error .fuel
  | fuel + 1, s =>
    match keyNextMeta s key1 with
    | (none, s) => .ok (0, s)
    | (some meta1, s) =>
      match keyNextMeta s key2 with
      | (none, s) => .ok (KEY_META, s)
      | (some meta2, s) =>
        if keyName (s.heap.cell meta1) ≠ keyName (s.heap.cell meta2) then .ok (KEY_META, s)
        else if keyString (s.heap.cell meta1) ≠ keyString (s.heap.cell meta2) then .ok (KEY_META, s)
        else compareMetaLoop key1 key2 fuel s

/-- Every round moves the cursor of the first key. -/
def keyCompareMeta (s : Memory) (k1 k2 : KeyRef) : Except Stop (ℤ × Memory) :=
  compareMetaLoop k1 k2 ((s.metadata k1).length + 1) (keyRewindMeta (keyRewindMeta s k1) k2)

/-- The bits of `keyswitch_t` that `keyCompare` sets. -/
structure KeySwitch where
  /-- `KEY_NAME` -/
  name : Bool := false
  /-- `KEY_VALUE` -/
  value : Bool := false
  /-- `KEY_OWNER` -/
  owner : Bool := false
  /-- `KEY_COMMENT` -/
  comment : Bool := false
  /-- `KEY_META` -/
  metadata : Bool := false
  /-- `KEY_NULL` -/
  null : Bool := false
  deriving DecidableEq, Repr

section Code

variable (fuel : ℕ) (s : Memory)

/-- `keyOwner`, up to the NUL. -/
def keyOwner (k : KeyRef) : Except Stop (Str × Memory) := do
  let (owner, s) ← s.getMeta fuel k (str "owner")
  .ok (owner.elim [] fun r => ((s.heap.cell r).data.getD []).takeWhile (· ≠ 0), s)

/-- The bytes from `keyValue`. -/
def keyValue (k : KeyRef) : Except Stop (Option Str × Memory) :=
  match (s.heap.cell k).data with
  | some data => .ok (some data, s)
  | none => do
    let (binary, s) ← s.getMeta fuel k (str "binary")
    .ok (if binary.isSome then none else some [0], s)

def keyGetValueSize (k : KeyRef) : Except Stop (ℕ × Memory) :=
  match (s.heap.cell k).data with
  | some data => .ok (data.length, s)
  | none => do
    let (binary, s) ← s.getMeta fuel k (str "binary")
    .ok (if binary.isSome then 0 else 1, s)

/-- The end of `keyCompare`, with what it has read. -/
def keySwitches (key1 key2 : Key) (comment1 comment2 owner1 owner2 : Str) (value1 value2 : Option Str)
    (size1 size2 : ℕ) (metadata : ℤ) : KeySwitch where
  comment := comment1 ≠ comment2
  owner := owner1 ≠ owner2
  metadata := metadata ≠ 0
  name := keyGetNameSize key1 ≠ keyGetNameSize key2 ∨ keyName key1 ≠ keyName key2
  value := size1 ≠ size2 ∨ value1 = none ∨ value2 = none ∨
    (value1.getD []).take size1 ≠ (value2.getD []).take size1

def keyCompare (key1 key2 : Option KeyRef) : Except Stop (KeySwitch × Memory) :=
  match key1, key2 with
  | none, none => .ok ({}, s)
  | none, some _ => .ok ({ null := true }, s)
  | some _, none => .ok ({ null := true }, s)
  | some k1, some k2 => do
    let (comment1, s) ← s.getMeta fuel k1 (str "comment")
    let (comment2, s) ← s.getMeta fuel k2 (str "comment")
    let (owner1, s) ← keyOwner fuel s k1
    let (owner2, s) ← keyOwner fuel s k2
    let (value1, s) ← keyValue fuel s k1
    let (value2, s) ← keyValue fuel s k2
    let (size1, s) ← keyGetValueSize fuel s k1
    let (size2, s) ← keyGetValueSize fuel s k2
    let (ret, s) ← keyCompareMeta s k1 k2
    let text (comment : Option KeyRef) : Str := comment.elim (str "(null)") fun r => keyString (s.heap.cell r)
    .ok (keySwitches (s.heap.cell k1) (s.heap.cell k2) (text comment1) (text comment2) owner1 owner2 value1 value2
      size1 size2 ret, s)

end Code

/-! ## What the cursors have still to visit -/

/-- The name and the string of a metakey. -/
def entry (h : Heap) (r : KeyRef) : Str × Str := (keyName (h.cell r), keyString (h.cell r))

/-- The metadata of a key, in order. -/
def Memory.entries (s : Memory) (k : KeyRef) : List (Str × Str) := (s.metadata k).map (entry s.heap)

/-- What `keyNextMeta` has still to read. -/
def Memory.unread (s : Memory) (k : KeyRef) : List (Str × Str) :=
  (s.metas k).elim [] fun ks => ks.remaining.map (entry s.heap)

/-- The same names with the same values. -/
def SameMeta (s : Memory) (k1 k2 : KeyRef) : Prop :=
  ∀ name value, (name, value) ∈ s.entries k1 ↔ (name, value) ∈ s.entries k2

section Cursor

variable {s : Memory} {k k1 k2 : KeyRef}

theorem unread_rewind (s : Memory) (k j : KeyRef) :
    (keyRewindMeta s k).unread j = if j = k then s.entries k else s.unread j := by
  unfold keyRewindMeta Memory.unread Memory.entries Memory.metadata
  dsimp only
  by_cases hj : j = k
  · subst hj
    rw [Function.update_self, if_pos rfl]
    cases s.metas j <;> rfl
  · rw [Function.update_of_ne hj, if_neg hj]

theorem entries_rewind (s : Memory) (k j : KeyRef) : (keyRewindMeta s k).entries j = s.entries j := by
  unfold keyRewindMeta Memory.entries Memory.metadata
  dsimp only
  by_cases hj : j = k
  · subst hj
    rw [Function.update_self]
    cases s.metas j <;> rfl
  · rw [Function.update_of_ne hj]

/-- **One step through the metadata of a key.** -/
theorem keyNextMeta_cases (s : Memory) (k : KeyRef) :
    (s.unread k = [] ∧ (keyNextMeta s k).1 = none) ∨
      ∃ r rest, s.unread k = entry s.heap r :: rest ∧ (keyNextMeta s k).1 = some r ∧
        (keyNextMeta s k).2.heap = s.heap ∧ (keyNextMeta s k).2.unread k = rest ∧
        ∀ j ≠ k, (keyNextMeta s k).2.unread j = s.unread j := by
  unfold keyNextMeta Memory.unread
  cases hks : s.metas k with
  | none => exact .inl ⟨rfl, rfl⟩
  | some ks =>
    obtain ⟨hnil, hnone, -⟩ | ⟨r, rest, hcons, hnext, -, hrest⟩ := ksNext_cases ks
    · exact .inl ⟨congrArg _ hnil, hnone⟩
    · refine .inr ⟨r, rest.map (entry s.heap), congrArg _ hcons, congrArg Prod.fst hnext, rfl, ?_, fun j hj => ?_⟩
      · dsimp only
        rw [Function.update_self, Option.elim_some, hrest]
      · dsimp only
        rw [Function.update_of_ne hj]

/-- Two keys: the loop finds out whether the one list begins the other. -/
theorem compareMetaLoop_eq (hne : k1 ≠ k2) : ∀ (fuel : ℕ) {s : Memory}, (s.unread k1).length < fuel →
    ∃ s', compareMetaLoop k1 k2 fuel s = .ok (if s.unread k1 <+: s.unread k2 then 0 else KEY_META, s')
  | 0, _, h => absurd h (Nat.not_lt_zero _)
  | fuel + 1, s, h => by
    rw [compareMetaLoop]
    obtain ⟨hnil, hnone⟩ | ⟨r, rest, hcons, hsome, hheap, hrest, hother⟩ := keyNextMeta_cases s k1
    · rw [hnil, if_pos (List.nil_prefix)]
      rcases hx : keyNextMeta s k1 with ⟨ret, s'⟩
      rw [hx] at hnone
      obtain rfl : ret = none := hnone
      exact ⟨s', rfl⟩
    rcases hx : keyNextMeta s k1 with ⟨ret, s'⟩
    rw [hx] at hsome hheap hrest hother
    dsimp only at hsome hheap hrest hother
    subst hsome
    have h2 := hother k2 hne.symm
    rw [hcons, ← h2]
    obtain ⟨hnil, hnone⟩ | ⟨r', rest', hcons', hsome', hheap', hrest', hother'⟩ := keyNextMeta_cases s' k2
    · rcases hy : keyNextMeta s' k2 with ⟨ret, s''⟩
      rw [hy] at hnone
      obtain rfl : ret = none := hnone
      rw [hnil, if_neg (by simp)]
      dsimp only
      rw [hy]
      exact ⟨s'', rfl⟩
    rcases hy : keyNextMeta s' k2 with ⟨ret, s''⟩
    rw [hy] at hsome' hheap' hrest' hother'
    dsimp only at hsome' hheap' hrest' hother'
    subst hsome'
    have hr : entry s.heap r = (keyName (s''.heap.cell r), keyString (s''.heap.cell r)) := by
      rw [hheap', hheap]
      rfl
    have hr' : entry s'.heap r' = (keyName (s''.heap.cell r'), keyString (s''.heap.cell r')) := by
      rw [hheap']
      rfl
    have hbegin : entry s.heap r :: rest <+: s'.unread k2 ↔
        (keyName (s''.heap.cell r) = keyName (s''.heap.cell r') ∧
          keyString (s''.heap.cell r) = keyString (s''.heap.cell r')) ∧ rest <+: rest' := by
      rw [hcons', hr, hr', List.cons_prefix_cons, Prod.mk.injEq]
    dsimp only
    rw [hy]
    dsimp only
    by_cases hname : keyName (s''.heap.cell r) = keyName (s''.heap.cell r')
    · by_cases hstring : keyString (s''.heap.cell r) = keyString (s''.heap.cell r')
      · -- the next round
        have hk1 : s''.unread k1 = rest := (hother' k1 hne).trans hrest
        rw [if_neg (not_not.mpr hname), if_neg (not_not.mpr hstring)]
        obtain ⟨t, ht⟩ := compareMetaLoop_eq hne fuel (s := s'') (by
          rw [hk1]
          rw [hcons, List.length_cons] at h
          omega)
        rw [hk1, hrest'] at ht
        exact ⟨t, ht.trans (by rw [if_congr (hbegin.trans (and_iff_right ⟨hname, hstring⟩)) rfl rfl])⟩
      · rw [if_neg (not_not.mpr hname), if_pos hstring, if_neg fun he => hstring (hbegin.mp he).1.2]
        exact ⟨s'', rfl⟩
    · rw [if_pos hname, if_neg fun he => hname (hbegin.mp he).1.1]
      exact ⟨s'', rfl⟩

/-- One key: the cursor is that of both, and two metakeys have different names. -/
theorem compareMetaLoop_self (hk : ((s.unread k).map Prod.fst).Nodup) (fuel : ℕ) :
    ∃ s', compareMetaLoop k k (fuel + 1) s = .ok (if s.unread k = [] then 0 else KEY_META, s') := by
  rw [compareMetaLoop]
  obtain ⟨hnil, hnone⟩ | ⟨r, rest, hcons, hsome, hheap, hrest, -⟩ := keyNextMeta_cases s k
  · rcases hx : keyNextMeta s k with ⟨ret, s'⟩
    rw [hx] at hnone
    obtain rfl : ret = none := hnone
    rw [if_pos hnil]
    exact ⟨s', rfl⟩
  rcases hx : keyNextMeta s k with ⟨ret, s'⟩
  rw [hx] at hsome hheap hrest
  dsimp only at hsome hheap hrest
  subst hsome
  rw [if_neg (by rw [hcons]; simp)]
  dsimp only
  obtain ⟨hnil, hnone⟩ | ⟨r', rest', hcons', hsome', hheap', -⟩ := keyNextMeta_cases s' k
  · rcases hy : keyNextMeta s' k with ⟨ret, s''⟩
    rw [hy] at hnone
    obtain rfl : ret = none := hnone
    exact ⟨s'', rfl⟩
  rcases hy : keyNextMeta s' k with ⟨ret, s''⟩
  rw [hy] at hsome' hheap'
  dsimp only at hsome' hheap'
  subst hsome'
  have hne : keyName (s''.heap.cell r) ≠ keyName (s''.heap.cell r') := by
    rw [hcons, ← hrest, hcons', hheap, List.map_cons, List.map_cons, List.nodup_cons] at hk
    rw [hheap', hheap]
    exact fun he => hk.1 (List.mem_cons.mpr (.inl he))
  dsimp only
  rw [if_pos hne]
  exact ⟨s'', rfl⟩

end Cursor

/-! ## Metadata in order -/

section Order

variable {s s' : Memory} {k k1 k2 : KeyRef}

theorem length_entries (s : Memory) (k : KeyRef) : (s.entries k).length = (s.metadata k).length := List.length_map _

theorem entries_sorted (hv : s.ValidMeta k) :
    (s.entries k).Pairwise fun a b => compare (unameOf a.1) (unameOf b.1) = .lt := by
  have hident : ∀ r ∈ s.metadata k, s.heap.ident r = (unameOf (keyName (s.heap.cell r)), none) := fun r hr => by
    obtain ⟨⟨name, hname⟩, -, hbare⟩ := hv.metaKey r hr
    have hkey : keyName (s.heap.cell r) = name := by rw [keyName, hname.key]; rfl
    rw [Heap.ident, ident, hname.ukey name rfl, hkey, hbare _ rfl]
  rw [Memory.entries, List.pairwise_map]
  cases hks : s.metas k with
  | none =>
    rw [Memory.metadata, hks]
    exact List.Pairwise.nil
  | some ks =>
    obtain ⟨m, hm⟩ := hv.holds ks hks
    have harray : s.metadata k = ks.array := by rw [Memory.metadata, hks]; rfl
    rw [harray] at hident ⊢
    refine hm.sorted.imp_of_mem fun {a b} ha hb hlt => ?_
    rw [identCmp_eq, hident a ha, hident b hb] at hlt
    simpa [entry] using hlt

theorem compare_uname (u : Str) : compare u u = .eq := Std.ReflCmp.compare_self

theorem entries_names (hv : s.ValidMeta k) : ((s.entries k).map Prod.fst).Nodup := by
  rw [List.nodup_iff_pairwise_ne, List.pairwise_map]
  refine (entries_sorted hv).imp fun {a b} hlt he => ?_
  rw [he, compare_uname] at hlt
  cases hlt

theorem sameMeta_iff (hv1 : s.ValidMeta k1) (hv2 : s.ValidMeta k2) :
    SameMeta s k1 k2 ↔ s.entries k1 = s.entries k2 := by
  constructor
  · intro h
    have hirrefl : Std.Irrefl fun a b : Str × Str => compare (unameOf a.1) (unameOf b.1) = .lt :=
      ⟨fun a ha => by
        rw [compare_uname] at ha
        cases ha⟩
    have hantisymm : Std.Antisymm fun a b : Str × Str => compare (unameOf a.1) (unameOf b.1) = .lt :=
      ⟨fun a b hab hba => by
        have hswap : compare (unameOf b.1) (unameOf a.1) = (compare (unameOf a.1) (unameOf b.1)).swap :=
          Std.OrientedCmp.eq_swap
        rw [hab, hba] at hswap
        cases hswap⟩
    exact (entries_sorted hv1).eq_of_mem_iff (entries_sorted hv2) fun {x} => h x.1 x.2
  · intro h name value
    rw [h]

/-- **What `keyCompareMeta` finds out.** -/
theorem keyCompareMeta_eq (hv : s.ValidMeta k1) (k2 : KeyRef) :
    ∃ s', keyCompareMeta s k1 k2 = .ok (if k1 = k2 ∧ s.entries k1 = [] ∨ k1 ≠ k2 ∧ s.entries k1 <+: s.entries k2
      then 0 else KEY_META, s') := by
  unfold keyCompareMeta
  by_cases he : k1 = k2
  · subst he
    have hunread : (keyRewindMeta (keyRewindMeta s k1) k1).unread k1 = s.entries k1 := by
      rw [unread_rewind, if_pos rfl, entries_rewind]
    obtain ⟨s', hs'⟩ := compareMetaLoop_self (s := keyRewindMeta (keyRewindMeta s k1) k1) (k := k1)
      (hunread ▸ entries_names hv) (s.metadata k1).length
    rw [hunread] at hs'
    exact ⟨s', by simpa using hs'⟩
  · have h1 : (keyRewindMeta (keyRewindMeta s k1) k2).unread k1 = s.entries k1 := by
      rw [unread_rewind, if_neg he, unread_rewind, if_pos rfl]
    have h2 : (keyRewindMeta (keyRewindMeta s k1) k2).unread k2 = s.entries k2 := by
      rw [unread_rewind, if_pos rfl, entries_rewind]
    obtain ⟨s', hs'⟩ := compareMetaLoop_eq he ((s.metadata k1).length + 1)
      (s := keyRewindMeta (keyRewindMeta s k1) k2) (by rw [h1, length_entries]; exact Nat.lt_succ_self _)
    rw [h1, h2] at hs'
    exact ⟨s', by simpa [he] using hs'⟩

/-! ## The report of keyCompare -/

theorem Reads.entries (hv : s.ValidMeta k) (h : Reads s s') : s'.entries k = s.entries k := by
  rw [Memory.entries, Memory.entries, h.metadata]
  refine List.map_congr_left fun r hr => ?_
  have ha := (h.frame.cell r (hv.lt hr)).toAlike
  rw [entry, entry, keyName, keyName, keyString, keyString, ha.key, ha.data, ha.getMeta _ rfl]

variable (fuel : ℕ)

theorem keyOwner_reads (hv : s.ValidMeta k) : ∃ o s', keyOwner (fuel + 2) s k = .ok (o, s') ∧ Reads s s' := by
  obtain ⟨s', hs', hr, -⟩ := getMeta_spec fuel hv (str "owner")
  exact ⟨_, s', by rw [keyOwner, hs']; rfl, hr⟩

theorem keyValue_reads (hv : s.ValidMeta k) : ∃ v s', keyValue (fuel + 2) s k = .ok (v, s') ∧ Reads s s' := by
  unfold keyValue
  cases (s.heap.cell k).data with
  | some data => exact ⟨_, s, rfl, Reads.refl s⟩
  | none =>
    obtain ⟨s', hs', hr, -⟩ := getMeta_spec fuel hv (str "binary")
    exact ⟨_, s', by rw [hs']; rfl, hr⟩

theorem keyGetValueSize_reads (hv : s.ValidMeta k) :
    ∃ n s', keyGetValueSize (fuel + 2) s k = .ok (n, s') ∧ Reads s s' := by
  unfold keyGetValueSize
  cases (s.heap.cell k).data with
  | some data => exact ⟨_, s, rfl, Reads.refl s⟩
  | none =>
    obtain ⟨s', hs', hr, -⟩ := getMeta_spec fuel hv (str "binary")
    exact ⟨_, s', by rw [hs']; rfl, hr⟩

/-- `keyCompare` reports what `keyCompareMeta` finds out, wherever the cursors are. -/
theorem keyCompare_metadata (hv1 : s.ValidMeta k1) (hv2 : s.ValidMeta k2) :
    ∃ sw s', keyCompare (fuel + 2) s (some k1) (some k2) = .ok (sw, s') ∧ (sw.metadata = true ↔
      ¬ (k1 = k2 ∧ s.entries k1 = [] ∨ k1 ≠ k2 ∧ s.entries k1 <+: s.entries k2)) := by
  obtain ⟨sa, ha, ra, -⟩ := getMeta_spec fuel hv1 (str "comment")
  obtain ⟨sb, hb, rb, -⟩ := getMeta_spec fuel (hv2.reads ra) (str "comment")
  have r2 := ra.trans rb
  obtain ⟨owner1, sc, hc, rc⟩ := keyOwner_reads fuel (hv1.reads r2)
  have r3 := r2.trans rc
  obtain ⟨owner2, sd, hd, rd⟩ := keyOwner_reads fuel (hv2.reads r3)
  have r4 := r3.trans rd
  obtain ⟨value1, se, he, re⟩ := keyValue_reads fuel (hv1.reads r4)
  have r5 := r4.trans re
  obtain ⟨value2, sf, hf, rf⟩ := keyValue_reads fuel (hv2.reads r5)
  have r6 := r5.trans rf
  obtain ⟨size1, sg, hg, rg⟩ := keyGetValueSize_reads fuel (hv1.reads r6)
  have r7 := r6.trans rg
  obtain ⟨size2, sh, hh, rh⟩ := keyGetValueSize_reads fuel (hv2.reads r7)
  have r8 := r7.trans rh
  obtain ⟨s', hs'⟩ := keyCompareMeta_eq (hv1.reads r8) k2
  rw [r8.entries hv1, r8.entries hv2] at hs'
  unfold keyCompare
  simp only [bind, Except.bind, ha, hb, hc, hd, he, hf, hg, hh, hs']
  refine ⟨_, s', rfl, ?_⟩
  rw [keySwitches, decide_eq_true_eq]
  split_ifs with hcond
  · exact ⟨fun h => absurd rfl h, fun h => absurd hcond h⟩
  · exact ⟨fun _ => hcond, fun _ => by decide⟩

/-- `keyCompareMeta` tells whether the metadata is the same, whichever key comes first, and `keyCompare`
reports it. -/
structure ComparesMeta (s : Memory) (k1 k2 : KeyRef) : Prop where
  zero : ∃ ret s', keyCompareMeta s k1 k2 = .ok (ret, s') ∧ (ret = 0 ↔ SameMeta s k1 k2)
  symmetric : (keyCompareMeta s k1 k2).map Prod.fst = (keyCompareMeta s k2 k1).map Prod.fst
  reported : ∃ sw s', keyCompare (fuel + 2) s (some k1) (some k2) = .ok (sw, s') ∧
    (sw.metadata = true ↔ ¬ SameMeta s k1 k2)

/-- **The comparison is right exactly when neither list of metadata properly begins the other, and it is
not one key with metadata that is compared with itself.** -/
theorem comparesMeta_iff (hv1 : s.ValidMeta k1) (hv2 : s.ValidMeta k2) :
    ComparesMeta fuel s k1 k2 ↔
      (s.entries k1 <+: s.entries k2 ∨ s.entries k2 <+: s.entries k1 → s.entries k1 = s.entries k2) ∧
        (k1 = k2 → s.entries k1 = []) := by
  have hzero : ∀ (c : Prop) [Decidable c], (if c then 0 else KEY_META) = 0 ↔ c := fun c _ => by
    split_ifs with hc
    · exact ⟨fun _ => hc, fun _ => rfl⟩
    · exact ⟨fun h => absurd h (by decide), fun h => absurd h hc⟩
  obtain ⟨s1, h1⟩ := keyCompareMeta_eq hv1 k2
  obtain ⟨s2, h2⟩ := keyCompareMeta_eq hv2 k1
  constructor
  · rintro ⟨⟨ret, s', hret, hsame⟩, hsym, -⟩
    rw [h1] at hret
    rw [h1, h2] at hsym
    obtain ⟨rfl, -⟩ := Prod.mk.inj (Except.ok.inj hret)
    rw [sameMeta_iff hv1 hv2, hzero] at hsame
    have hswap := (hzero _).symm.trans ((iff_of_eq (congrArg (· = 0) (Except.ok.inj hsym))).trans (hzero _))
    refine ⟨fun h => ?_, fun he => ?_⟩
    · by_cases he : k1 = k2
      · rw [he]
      · exact h.elim (fun hp => hsame.mp (.inr ⟨he, hp⟩)) fun hp =>
          hsame.mp (hswap.mpr (.inr ⟨Ne.symm he, hp⟩))
    · obtain h | h := hsame.mpr (by rw [he])
      · exact h.2
      · exact absurd he h.1
  · rintro ⟨hbegin, hself⟩
    have hcond1 : k1 = k2 ∧ s.entries k1 = [] ∨ k1 ≠ k2 ∧ s.entries k1 <+: s.entries k2 ↔ SameMeta s k1 k2 := by
      rw [sameMeta_iff hv1 hv2]
      refine ⟨fun h => h.elim (fun h => by rw [h.1]) fun h => hbegin (.inl h.2), fun h => ?_⟩
      by_cases he : k1 = k2
      · exact .inl ⟨he, hself he⟩
      · exact .inr ⟨he, h ▸ List.prefix_rfl⟩
    have hcond2 : k2 = k1 ∧ s.entries k2 = [] ∨ k2 ≠ k1 ∧ s.entries k2 <+: s.entries k1 ↔ SameMeta s k1 k2 := by
      rw [sameMeta_iff hv1 hv2]
      refine ⟨fun h => h.elim (fun h => by rw [h.1]) fun h => hbegin (.inr h.2), fun h => ?_⟩
      by_cases he : k1 = k2
      · exact .inl ⟨he.symm, h ▸ hself he⟩
      · exact .inr ⟨Ne.symm he, h ▸ List.prefix_rfl⟩
    obtain ⟨sw, s', hsw, hreport⟩ := keyCompare_metadata fuel hv1 hv2
    refine ⟨⟨_, s1, h1, (hzero _).trans hcond1⟩, ?_, ⟨sw, s', hsw, by rw [hreport, hcond1]⟩⟩
    rw [h1, h2, if_congr (hcond1.trans hcond2.symm) rfl rfl]
    rfl

end Order

/-- A metakey in one key set. -/
def metaKeyOf (name value : Str) : Key :=
  { metaKey name with
    data := some (value ++ [0]), roName := true, roValue := true, roMeta := true, ksReference := 1 }

/-- `user/a` with `a`, `user/b` with `b`, and `user/c` without metadata. -/
def threeKeys : Memory where
  heap := .ofList [metaKeyOf (str "a") (str "x"), metaKeyOf (str "b") (str "y"), keyNewName (str "user/a"),
    keyNewName (str "user/b"), keyNewName (str "user/c")]
  metas k :=
    if k = 2 then some { array := [0], alloc := KEYSET_SIZE, cursor := none, current := 0, sync := false }
    else if k = 3 then some { array := [1], alloc := KEYSET_SIZE, cursor := none, current := 0, sync := false }
    else none

theorem isMetaKey_metaKeyOf {name value : Str} (hn : (metaKey name).key ≠ none) (hv : 0 ∉ value)
    (hm : (metaKey name).metaKeys = []) : IsMetaKey (metaKeyOf name value) where
  named := by
    have hf := metaKey_finalized hn
    exact ⟨_, hf.key, hf.ukey, hf.sized⟩
  string := ⟨value, hv, rfl⟩
  bare m _ := by
    rw [Elektra.keyGetMeta, metaKeyOf, hm]
    rfl

theorem validMeta_threeKeys {k r : KeyRef} (hr : r < 2)
    (hk : threeKeys.metas k = some { array := [r], alloc := KEYSET_SIZE, cursor := none, current := 0, sync := false }) :
    threeKeys.ValidMeta k := by
  have hmeta : IsMetaKey (threeKeys.heap.cell r) ∧ (threeKeys.heap.cell r).roName = true := by
    obtain rfl | rfl : r = 0 ∨ r = 1 := Nat.lt_succ_iff_lt_or_eq.mp hr |>.imp_left Nat.lt_one_iff.mp
    · exact ⟨isMetaKey_metaKeyOf (by decide) (by decide) (by decide), rfl⟩
    · exact ⟨isMetaKey_metaKeyOf (by decide) (by decide) (by decide), rfl⟩
  obtain ⟨name, hname⟩ := hmeta.1.named
  have hentry : Entry threeKeys.heap r :=
    ⟨lt_of_lt_of_le hr (by decide), by rw [hname.key]; exact Option.some_ne_none _, hname.sized⟩
  constructor
  · intro ks hks
    obtain rfl := Option.some.inj (hk.symm.trans hks)
    exact ⟨_, List.pairwise_singleton _ _, fun a ha => List.mem_singleton.mp ha ▸ hentry,
      fun a ha => List.mem_singleton.mp ha ▸ hmeta.2, (by decide : 1 < KEYSET_SIZE), le_rfl, rfl⟩
  · intro a ha
    rw [Memory.metadata, hk] at ha
    exact List.mem_singleton.mp ha ▸ hmeta.1

theorem comparesMeta_threeKeys : ComparesMeta 0 threeKeys 2 3 :=
  (comparesMeta_iff 0 (validMeta_threeKeys (r := 0) (by decide) rfl) (validMeta_threeKeys (r := 1) (by decide) rfl)).mpr
    ⟨by decide +kernel, by decide⟩

/-- `user/c` has no metadata, `user/a` has. -/
theorem not_comparesMeta : ¬ ComparesMeta 0 threeKeys 4 2 := by
  rintro ⟨⟨ret, s', hret, hzero⟩, -, -⟩
  have hrun : (keyCompareMeta threeKeys 4 2).map Prod.fst = .ok 0 := rfl
  rw [hret] at hrun
  have hsame := (hzero.mp (Except.ok.inj hrun) (str "a") (str "x")).mpr (by decide +kernel)
  exact absurd hsame (by decide +kernel)

end Elektra.KeyMeta
