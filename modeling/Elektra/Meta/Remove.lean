import Elektra.Lookup.Iterate
import Elektra.Meta.Copy

/-!
# Removing metadata by a prefix

`elektraRemoveMetaData` goes through the metadata of a key and lets `keySetMeta` remove what begins with a
prefix. A removal looks the name up once more, pops what it finds, and rewinds the cursor.

* `Memory.setMeta`, `elektraRemoveMetaData`;
* `Memory.pending`: the metakeys that `keyNextMeta` has still to visit;
* `Removable`: a metakey is found by its own name, and no other one before it;
* **`setMeta_removes`**: the removal of such a metakey;
* `Spoiled`, **`removeLoop_spoiled`**: what can not be made good again;
* **`removesMetaData_iff`**.
-/

namespace Elektra.KeyMeta

/-! ## The functions -/

/-- `keySetMeta (k, metaName, newMetaString)`. The flags of the key are written back. -/
def Memory.setMeta (fuel : ℕ) (s : Memory) (k : KeyRef) (metaName newMetaString : Option Str) :
    Except Stop (ℤ × Memory) := do
  let (ret, t) ← keySetMeta fuel (s.state k) metaName newMetaString
  .ok (ret, { heap := t.heap.set k { t.heap.cell k with roMeta := t.roMeta, sync := t.sync },
              metas := Function.update s.metas k t.keyset })

/-- The loop of `elektraRemoveMetaData`. -/
def removeLoop (fuel : ℕ) (key : KeyRef) (searchfor : Str) : ℕ → Memory → Except Stop Memory
  | 0, _ => .error .fuel
  | rounds + 1, s =>
    match keyNextMeta s key with
    | (none, s) => .ok s
    | (some iterKey, s) =>
      -- starts with
      if searchfor.isPrefixOf (keyName (s.heap.cell iterKey)) then do
        let (_, s) ← s.setMeta fuel key (some (keyName (s.heap.cell iterKey))) none
        removeLoop fuel key searchfor rounds s
      else removeLoop fuel key searchfor rounds s

def elektraRemoveMetaData (fuel rounds : ℕ) (s : Memory) (key : KeyRef) (searchfor : Str) : Except Stop Memory :=
  removeLoop fuel key searchfor rounds (keyRewindMeta s key)

theorem removeLoop_unique {fuel : ℕ} {key : KeyRef} {searchfor : Str} : ∀ {m n : ℕ} {s s' s'' : Memory},
    removeLoop fuel key searchfor m s = .ok s' → removeLoop fuel key searchfor n s = .ok s'' → s' = s''
  | 0, _, _, _, _, h, _ => by cases h
  | _ + 1, 0, _, _, _, _, h => by cases h
  | m + 1, n + 1, s, s', s'', h, h' => by
    rw [removeLoop] at h h'
    generalize keyNextMeta s key = x at h h'
    obtain ⟨_ | r, s₁⟩ := x
    · exact Except.ok.inj (h.symm.trans h')
    · dsimp only at h h'
      split_ifs at h h'
      · obtain ⟨⟨ret, s₂⟩, hset, h⟩ := except_bind_ok h
        obtain ⟨⟨ret', s₃⟩, hset', h'⟩ := except_bind_ok h'
        obtain ⟨-, rfl⟩ := Prod.mk.inj (Except.ok.inj (hset.symm.trans hset'))
        exact removeLoop_unique h h'
      · exact removeLoop_unique h h'

/-! ## One step of the iteration -/

/-- The metakeys that `keyNextMeta` has still to visit. -/
def Memory.pending (s : Memory) (k : KeyRef) : List KeyRef := (s.metas k).elim [] KeySet.remaining

section Iteration

variable {s s' : Memory} {k r : KeyRef}

theorem reads_update {ks ks' : KeySet} (hks : s.metas k = some ks) (harray : ks'.array = ks.array)
    (halloc : ks'.alloc = ks.alloc) : Reads s { s with metas := Function.update s.metas k (some ks') } := by
  refine ⟨Frame.refl _, fun j => ?_⟩
  by_cases hj : j = k
  · subst hj
    dsimp only
    rw [Function.update_self, hks, Option.map_some, Option.map_some, harray, halloc]
  · dsimp only
    rw [Function.update_of_ne hj]

theorem rewindMeta_spec (s : Memory) (k : KeyRef) : Reads s (keyRewindMeta s k) ∧
    (keyRewindMeta s k).pending k = s.metadata k ∧ (keyRewindMeta s k).heap = s.heap ∧
    ∀ j ≠ k, (keyRewindMeta s k).metas j = s.metas j := by
  unfold keyRewindMeta Memory.pending Memory.metadata
  refine ⟨?_, ?_, rfl, fun j hj => Function.update_of_ne hj _ _⟩
  · cases hks : s.metas k with
    | none =>
      have hsame : Function.update s.metas k (Option.map ksRewind none) = s.metas := by
        rw [Option.map_none, ← hks, Function.update_eq_self]
      rw [hsame]
      exact Reads.refl s
    | some ks => exact reads_update hks rfl rfl
  · dsimp only
    rw [Function.update_self]
    cases s.metas k <;> rfl

theorem nextMeta_cases (s : Memory) (k : KeyRef) :
    (s.pending k = [] ∧ (keyNextMeta s k).1 = none ∨
      ∃ r rest ks, s.pending k = r :: rest ∧ (keyNextMeta s k).1 = some r ∧
        (keyNextMeta s k).2.pending k = rest ∧ (keyNextMeta s k).2.metas k = some ks ∧ ks.Stands r) ∧
    Reads s (keyNextMeta s k).2 ∧ (keyNextMeta s k).2.heap = s.heap ∧
    ∀ j ≠ k, (keyNextMeta s k).2.metas j = s.metas j := by
  unfold keyNextMeta Memory.pending
  cases hks : s.metas k with
  | none => exact ⟨.inl ⟨rfl, rfl⟩, Reads.refl s, rfl, fun _ _ => rfl⟩
  | some ks =>
    dsimp only
    obtain ⟨hnil, hnone, harray, -⟩ | ⟨r, rest, hcons, hnext, hat, hrest⟩ := ksNext_cases ks
    · refine ⟨.inl ⟨hnil, hnone⟩, reads_update hks harray ?_, rfl, fun j hj => Function.update_of_ne hj _ _⟩
      rw [ksNext_eq]
      split_ifs <;> rfl
    · have harray : (ksNext ks).2.array = ks.array := by rw [hnext]
      have hget : (ksNext ks).2.array[ks.nextIndex]? = some r := by
        rw [← hat.cursor, hnext]
      refine ⟨.inr ⟨r, rest, (ksNext ks).2, hcons, by rw [hnext], ?_, Function.update_self _ _ _, ⟨_, hat, hget⟩⟩,
        reads_update hks harray (by rw [hnext]), rfl, fun j hj => Function.update_of_ne hj _ _⟩
      rw [Function.update_self]
      exact hrest

end Iteration

/-! ## A removal -/

section Removal

variable {s s' : Memory} {k r : KeyRef} {ks : KeySet} {n : Str}

/-- The key that is searched is in place. -/
def Memory.beside (s : Memory) (n : Str) : Memory := { s with heap := (s.heap.alloc (metaKey n)).2 }

/-- **A removal pops what is found**, but for the flags and the key that was searched. -/
theorem setMeta_pop (fuel : ℕ) (hro : (s.heap.cell k).roMeta = false) (hks : s.metas k = some ks) (n : Str) :
    match popMeta fuel (s.beside n) k (some s.heap.next) with
    | .error e => s.setMeta fuel k (some n) none = .error e
    | .ok s₂ => ∃ s', s.setMeta fuel k (some n) none = .ok (0, s') ∧ s'.metas = s₂.metas ∧ Keeps s₂.heap s'.heap ∧
        (s'.heap.cell k).roMeta = false := by
  have hstate : s.state k = { heap := s.heap, keyset := some ks, roMeta := false, sync := (s.heap.cell k).sync } := by
    rw [Memory.state, hks, hro]
  have hset : ∀ (h : Heap) (sync : Bool), Keeps h ((keyDel h s.heap.next).set k
      { (keyDel h s.heap.next).cell k with roMeta := false, sync := sync }) := fun h sync =>
    (keeps_del h s.heap.next).trans (keeps_set ⟨rfl, rfl, rfl, rfl, rfl, id, fun _ _ => rfl⟩)
  have hbeside : (s.beside n).metas k = some ks := hks
  rw [Memory.setMeta, hstate]
  unfold keySetMeta dropMeta popMeta
  rw [hbeside]
  dsimp only
  rw [if_neg Bool.false_ne_true, if_neg fun h => Option.some_ne_none ks h.1]
  rcases hw : lookup fuel { heap := (s.beside n).heap, ks := ks } s.heap.next { pop := true } with e | ⟨ret, w⟩
  · change (lookup fuel { heap := (s.beside n).heap, ks := ks } s.heap.next { pop := true } >>= _ >>= _ >>= _) = _
    rw [hw]
    rfl
  · have hflags : ∀ (h : Heap) (sync : Bool),
        (((keyDel h s.heap.next).set k { (keyDel h s.heap.next).cell k with roMeta := false, sync := sync }).cell k).roMeta =
          false := fun h sync => by rw [set_cell_self]
    change ∃ s', (lookup fuel { heap := (s.beside n).heap, ks := ks } s.heap.next { pop := true } >>= _ >>= _ >>= _) =
      .ok (0, s') ∧ _
    rw [hw]
    cases ret with
    | none => exact ⟨_, rfl, rfl, hset w.heap _, hflags w.heap _⟩
    | some a => exact ⟨_, rfl, rfl, hset (keyDel w.heap a) _, hflags (keyDel w.heap a) _⟩

theorem popMeta_unnamed (fuel : ℕ) (hks : s.metas k = some ks) (hn : (metaKey n).key = none) :
    popMeta (fuel + 1) (s.beside n) k (some s.heap.next) = .ok (s.beside n) := by
  have hc : (World.cell { heap := (s.beside n).heap, ks := ks } s.heap.next).key = none := by
    rw [World.cell, Memory.beside, alloc_cell]
    exact hn
  have hbeside : (s.beside n).metas k = some ks := hks
  unfold popMeta
  rw [hbeside]
  dsimp only
  rw [lookup_unnamed hc]
  change Except.ok { s.beside n with metas := Function.update (s.beside n).metas k (some ks) } = _
  rw [← hbeside, Function.update_eq_self]

/-- **The metakey that is found is popped, and the cursor rewound.** -/
theorem popMeta_rewinds (fuel : ℕ) (hv : s.ValidMeta k) (hr : r < s.heap.next) (hks : s.metas k = some ks)
    (hs : ks.Settled) {name : Str} (hname : Finalized (s.heap.cell r) (some name))
    (hq : name.head? ≠ some pathSeparator ∨ Quiet (s.content k) name) {a : KeyRef}
    (ha : s.named k (s.heap.cell r).ukey = some a) (hpop : popMeta (fuel + 2) s k (some r) = .ok s') :
    s'.metadata k = (s.metadata k).filter (· ≠ a) ∧ s'.pending k = s'.metadata k := by
  obtain ⟨m, hm⟩ := hv.holds ks hks
  obtain ⟨w, hw, hp⟩ := popMeta_run fuel hv hr hks hname hq
  rw [ha] at hw hp
  unfold popMeta at hpop
  rw [hks] at hpop
  dsimp only at hpop
  rw [hw] at hpop
  obtain rfl := Except.ok.inj hpop
  have hmem : a ∈ ks.array := hp.mem a rfl
  have harray : w.ks.array = ks.array.filter (· ≠ a) := by
    rw [hp.array]
    refine List.filter_congr fun b _ => ?_
    rw [decide_eq_decide, Ne, Ne, Option.some.injEq, eq_comm]
  have hgone : a ∉ w.ks.array := fun h => by
    rw [harray] at h
    exact of_decide_eq_true (List.mem_filter.mp h).2 rfl
  have hrewound : w.ks.Rewound := by
    obtain ⟨-, hresult⟩ := ksLookup_course transparent_noCallback (fuel + 2) (proper_of_holds hm) hs hr (some a) w hw
    obtain ⟨hat, -⟩ | ⟨-, hrewound, -⟩ | ⟨-, hnew, -⟩ := hresult.outcome
    · exact absurd hat.mem hgone
    · exact hrewound
    · exact absurd (hm.entry a hmem).lt (not_lt.mpr hnew)
  rw [metadata_eq hks, metadata_eq (Function.update_self _ _ _), Memory.pending]
  dsimp only
  rw [Function.update_self]
  refine ⟨harray, ?_⟩
  change w.ks.array.drop w.ks.nextIndex = w.ks.array
  rw [hrewound.nextIndex, List.drop_zero]

/-- A metakey is removed by its name: the metadata is not locked, the name is stored as what it is, and what is
looked up stands for no other metakey. -/
structure Removable (s : Memory) (k r : KeyRef) : Prop where
  unlocked : (s.heap.cell k).roMeta = false
  stored : (metaKey (keyName (s.heap.cell r))).key ≠ none
  same : (metaKey (keyName (s.heap.cell r))).ukey = (s.heap.cell r).ukey
  lone : (keyName (metaKey (keyName (s.heap.cell r)))).head? = some pathSeparator →
    Quiet (s.content k) (keyName (metaKey (keyName (s.heap.cell r))))

theorem beside_valid (hv : s.ValidMeta k) (n : Str) : (s.beside n).ValidMeta k :=
  hv.keeps rfl (keeps_alloc s.heap (metaKey n))

theorem beside_content (hv : s.ValidMeta k) (n : Str) : (s.beside n).content k = s.content k :=
  (@content_keeps s (s.beside n) k rfl (keeps_alloc s.heap (metaKey n)) hv).1

theorem beside_finalized (hn : (metaKey n).key ≠ none) :
    Finalized ((s.beside n).heap.cell s.heap.next) (some (keyName (metaKey n))) := by
  rw [Memory.beside, alloc_cell]
  exact metaKey_finalized hn

/-- What a removal leaves. -/
structure Removed (s s' : Memory) (k : KeyRef) : Prop where
  keeps : Keeps s.heap s'.heap
  others : ∀ j ≠ k, s'.metas j = s.metas j
  valid : s'.ValidMeta k
  roMeta : (s'.heap.cell k).roMeta = false

/-- **A metakey is removed by its name.** -/
theorem setMeta_removes (fuel : ℕ) (hv : s.ValidMeta k) (hks : s.metas k = some ks) (hs : ks.Stands r)
    (h : Removable s k r) :
    ∃ s', s.setMeta (fuel + 2) k (some (keyName (s.heap.cell r))) none = .ok (0, s') ∧ Removed s s' k ∧
      s'.metadata k = (s.metadata k).filter (· ≠ r) ∧ s'.pending k = s'.metadata k := by
  generalize hn : keyName (s.heap.cell r) = n
  have hlt : s.heap.next < (s.beside n).heap.next := Nat.lt_succ_self _
  have hv' := beside_valid hv n
  have hname : Finalized ((s.beside n).heap.cell s.heap.next) (some (keyName (metaKey n))) :=
    beside_finalized (hn ▸ h.stored)
  have hq : (keyName (metaKey n)).head? ≠ some pathSeparator ∨ Quiet ((s.beside n).content k) (keyName (metaKey n)) := by
    rw [beside_content hv, ← hn, ← imp_iff_not_or]
    exact h.lone
  have hmem : r ∈ (s.beside n).metadata k := by
    rw [metadata_eq (s := s.beside n) hks]
    exact hs.mem
  have hukey : ((s.beside n).heap.cell r).ukey = (s.heap.cell r).ukey :=
    ((keeps_alloc s.heap (metaKey n)).cell r (hv.lt hmem)).ukey
  have hfound : (s.beside n).named k ((s.beside n).heap.cell s.heap.next).ukey = some r := by
    refine (named_iff hv').mpr ⟨hmem, ?_⟩
    rw [hukey, Memory.beside, alloc_cell, ← hn]
    exact h.same.symm
  obtain ⟨s₂, hpop, ht, -, -⟩ := popMeta_quiet fuel hv' hlt hname hq
  obtain ⟨hmetadata, hpending⟩ := popMeta_rewinds fuel hv' hlt hks hs.settled hname hq hfound hpop
  have hset := @setMeta_pop s k ks (fuel + 2) h.unlocked hks n
  rw [hpop] at hset
  obtain ⟨s', hset, hmetas, hkeeps, hro'⟩ := hset
  have hsame : s'.metadata k = s₂.metadata k ∧ s'.pending k = s₂.pending k := by
    rw [Memory.metadata, Memory.metadata, Memory.pending, Memory.pending, hmetas]
    exact ⟨rfl, rfl⟩
  refine ⟨s', hset, ⟨((keeps_alloc s.heap (metaKey n)).trans ht.keeps).trans hkeeps, fun j hj => ?_,
    ht.valid.keeps (congrFun hmetas k) hkeeps, hro'⟩, ?_, ?_⟩
  · rw [hmetas]
    exact ht.metas j hj
  · rw [hsame.1, hmetadata]
    rfl
  · rw [hsame.1, hsame.2, hpending]

end Removal

/-! ## The loop -/

section Loop

variable {s s' s'' : Memory} {k : KeyRef} {searchfor : Str}

/-- The metakeys that begin otherwise are kept, and nothing else. -/
structure Removes (s s' : Memory) (k : KeyRef) (searchfor : Str) : Prop where
  metadata : s'.metadata k = (s.metadata k).filter fun r => !searchfor.isPrefixOf (keyName (s.heap.cell r))
  keeps : Keeps s.heap s'.heap
  others : ∀ j ≠ k, s'.metas j = s.metas j

/-- What begins with the prefix can be removed by its name. -/
def Orderly (s : Memory) (k : KeyRef) (searchfor : Str) : Prop :=
  ∀ r ∈ s.metadata k, searchfor.isPrefixOf (keyName (s.heap.cell r)) = true → Removable s k r

theorem keyName_alike {a b : Key} (h : Alike a b) : keyName b = keyName a := by rw [keyName, keyName, h.key]

theorem keyName_keeps (hv : s.ValidMeta k) (hk : Keeps s.heap s'.heap) {r : KeyRef} (hr : r ∈ s.metadata k) :
    keyName (s'.heap.cell r) = keyName (s.heap.cell r) := keyName_alike (hk.cell r (hv.lt hr))

theorem quiet_mono (hv : s.ValidMeta k) (hv' : s'.ValidMeta k) (hk : Keeps s.heap s'.heap)
    (hsub : ∀ r ∈ s'.metadata k, r ∈ s.metadata k) {name : Str} (hq : Quiet (s.content k) name) :
    Quiet (s'.content k) name := by
  intro ns hns
  have hnone := hq ns hns
  rw [content_named, Option.map_eq_none_iff] at hnone ⊢
  refine Option.eq_none_iff_forall_ne_some.mpr fun r hr => ?_
  obtain ⟨hmem, hu⟩ := (named_iff hv').mp hr
  have hr' := hsub r hmem
  have hsome : s.named k (unameOf (ns.name ++ name)) = some r :=
    (named_iff hv).mpr ⟨hr', (hk.cell r (hv.lt hr')).ukey.symm.trans hu⟩
  rw [hnone] at hsome
  cases hsome

theorem Orderly.mono (h : Orderly s k searchfor) (hv : s.ValidMeta k) (hk : Keeps s.heap s'.heap)
    (hv' : s'.ValidMeta k) (hsub : ∀ r ∈ s'.metadata k, r ∈ s.metadata k)
    (hro : (s.heap.cell k).roMeta = false → (s'.heap.cell k).roMeta = false) : Orderly s' k searchfor := by
  intro r hr hpre
  have hmem := hsub r hr
  have hname := keyName_keeps hv hk hmem
  rw [hname] at hpre
  obtain ⟨hunlocked, hstored, hsame, hlone⟩ := h r hmem hpre
  refine ⟨hro hunlocked, ?_, ?_, ?_⟩
  · rw [hname]
    exact hstored
  · rw [hname, (hk.cell r (hv.lt hmem)).ukey]
    exact hsame
  · rw [hname]
    exact fun hhead => quiet_mono hv hv' hk hsub (hlone hhead)

theorem Removes.of_reads (h : Removes s' s'' k searchfor) (hr : Reads s s') (hheap : s'.heap = s.heap)
    (hothers : ∀ j ≠ k, s'.metas j = s.metas j) : Removes s s'' k searchfor where
  metadata := by rw [h.metadata, hr.metadata, hheap]
  keeps := by
    have hk := h.keeps
    rwa [hheap] at hk
  others j hj := (h.others j hj).trans (hothers j hj)

theorem Removes.of_removed (h : Removes s' s'' k searchfor) (hv : s.ValidMeta k) {r : KeyRef}
    (hr : searchfor.isPrefixOf (keyName (s.heap.cell r)) = true) (hrem : Removed s s' k)
    (hm : s'.metadata k = (s.metadata k).filter (· ≠ r)) : Removes s s'' k searchfor where
  metadata := by
    rw [h.metadata, hm, List.filter_filter]
    refine List.filter_congr fun a ha => ?_
    rw [keyName_keeps hv hrem.keeps ha]
    by_cases har : a = r
    · rw [har, hr]
      rfl
    · rw [decide_eq_true har, Bool.and_true]
  keeps := hrem.keeps.trans h.keeps
  others j hj := (h.others j hj).trans (hrem.others j hj)

/-- **The loop removes what begins with the prefix,** from wherever nothing of that was passed over. -/
theorem removeLoop_removes (fuel : ℕ) : ∀ (count : ℕ) (rest : List KeyRef) (s : Memory),
    ((s.metadata k).filter fun r => searchfor.isPrefixOf (keyName (s.heap.cell r))).length = count →
    s.pending k = rest → ∀ passed : List KeyRef, s.metadata k = passed ++ rest →
    (∀ r ∈ passed, searchfor.isPrefixOf (keyName (s.heap.cell r)) = false) → s.ValidMeta k → Orderly s k searchfor →
    ∃ rounds s', removeLoop (fuel + 2) k searchfor rounds s = .ok s' ∧ Removes s s' k searchfor := by
  intro count
  induction count using Nat.strong_induction_on with
  | _ count ih =>
  intro rest
  induction rest with
  | nil =>
    intro s hcount hpending passed hpassed hnot hv hord
    obtain ⟨hcase, hreads, hheap, hothers⟩ := nextMeta_cases s k
    obtain ⟨-, hnone⟩ | ⟨r, rest, ks, hcons, -⟩ := hcase
    · generalize hx : keyNextMeta s k = x at hnone hreads hheap hothers
      obtain ⟨o, s₁⟩ := x
      dsimp only at hnone hreads hheap hothers
      subst hnone
      refine ⟨1, s₁, by rw [removeLoop, hx], ⟨?_, hreads.frame.keeps, hothers⟩⟩
      rw [hreads.metadata, hpassed, List.append_nil]
      exact (List.filter_eq_self.mpr fun r hr => by rw [hnot r hr]; rfl).symm
    · rw [hpending] at hcons
      cases hcons
  | cons r rest ih' =>
    intro s hcount hpending passed hpassed hnot hv hord
    obtain ⟨hcase, hreads, hheap, hothers⟩ := nextMeta_cases s k
    obtain ⟨hnil, -⟩ | ⟨r', rest', ks, hcons, hsome, hrest, hks, hstands⟩ := hcase
    · rw [hpending] at hnil
      cases hnil
    · rw [hpending] at hcons
      obtain ⟨rfl, rfl⟩ := List.cons.inj hcons
      generalize hx : keyNextMeta s k = x at hsome hreads hheap hothers hrest hks
      obtain ⟨o, s₁⟩ := x
      dsimp only at hsome hreads hheap hothers hrest hks
      subst hsome
      have hv₁ := hv.reads hreads
      have hord₁ : Orderly s₁ k searchfor := hord.mono hv hreads.frame.keeps hv₁
        (fun a ha => by rwa [← hreads.metadata k]) (fun hro => by rwa [hheap])
      have hmem : r ∈ s.metadata k := by
        rw [hpassed]
        exact List.mem_append_right passed List.mem_cons_self
      by_cases hpre : searchfor.isPrefixOf (keyName (s₁.heap.cell r)) = true
      · -- it is removed, and the iteration starts again with fewer metakeys
        have hsingle := hord₁ r (by rw [hreads.metadata]; exact hmem) hpre
        obtain ⟨s₂, hset, hrem, hmetadata, hpending₂⟩ :=
          setMeta_removes fuel hv₁ hks hstands hsingle
        have hord₂ : Orderly s₂ k searchfor := hord₁.mono hv₁ hrem.keeps hrem.valid
          (fun a ha => by rw [hmetadata] at ha; exact List.mem_of_mem_filter ha) fun _ => hrem.roMeta
        have hfewer : ((s₂.metadata k).filter fun a => searchfor.isPrefixOf (keyName (s₂.heap.cell a))).length < count := by
          rw [← hcount, hmetadata, List.filter_congr fun a ha => congrArg searchfor.isPrefixOf
            (keyName_keeps hv₁ hrem.keeps (List.mem_of_mem_filter ha)), List.filter_comm, hreads.metadata, hheap]
          refine List.length_filter_lt_length_iff_exists.mpr ⟨r, List.mem_filter.mpr ⟨hmem, hheap ▸ hpre⟩, ?_⟩
          exact fun h => of_decide_eq_true h rfl
        obtain ⟨rounds, s', hrun, hdone⟩ := ih _ hfewer (s₂.metadata k) s₂ rfl hpending₂ [] rfl
          (fun a ha => absurd ha List.not_mem_nil) hrem.valid hord₂
        refine ⟨rounds + 1, s', ?_, (hdone.of_removed hv₁ hpre hrem hmetadata).of_reads hreads hheap hothers⟩
        rw [removeLoop, hx]
        dsimp only
        rw [if_pos hpre, hset]
        exact hrun
      · have hpre' := Bool.eq_false_of_not_eq_true hpre
        rw [hheap] at hpre'
        obtain ⟨rounds, s', hrun, hdone⟩ := ih' s₁ (by rw [hreads.metadata, hheap]; exact hcount) hrest
          (passed ++ [r]) (by rw [hreads.metadata, hpassed, List.append_assoc]; rfl)
          (fun a ha => by
            rw [hheap]
            obtain ha | ha := List.mem_append.mp ha
            · exact hnot a ha
            · rw [List.mem_singleton.mp ha]
              exact hpre') hv₁ hord₁
        refine ⟨rounds + 1, s', ?_, hdone.of_reads hreads hheap hothers⟩
        rw [removeLoop, hx]
        dsimp only
        rw [if_neg hpre]
        exact hrun

end Loop

/-! ## What goes wrong -/

section Spoiling

variable {s s' s'' : Memory} {k : KeyRef} {searchfor : Str}

theorem keySetNameBelow_head {key : Key} {n : Str} (hn : n ≠ []) (hhead : n.head? ≠ some pathSeparator)
    (hsize : 2 ≤ key.keySize) : (keyName (elektraKeySetNameBelow key n).2).head? ≠ some pathSeparator := by
  have htake : n.take (key.keySize - 1) ≠ [] := by
    simp only [ne_eq, List.take_eq_nil_iff, hn, or_false]
    omega
  have hroot : (n.take (key.keySize - 1)).head? ≠ some pathSeparator := by
    rwa [List.head?_take, if_neg (by omega)]
  unfold elektraKeySetNameBelow
  dsimp only
  split_ifs
  · exact hroot
  · exact hroot
  · rw [keyName]
    exact fun h => by cases h
  · obtain ⟨c, t, hct⟩ := List.exists_cons_of_ne_nil htake
    unfold keyAddName
    rw [hct]
    dsimp only
    split_ifs
    · exact hct ▸ hroot
    · exact hct ▸ hroot
    · exact hct ▸ hroot
    all_goals
      change ((levels (n.drop key.keyUSize)).foldl addLevel ⟨c :: t, _⟩).bytes.head? ≠ _
      rw [foldl_addLevel_head _ (List.cons_ne_nil c t) (hct ▸ hroot)]
      exact hct ▸ hroot

theorem handleUserName_size (key : Key) (n : Str) : 2 ≤ (elektraHandleUserName key n).keySize := by
  unfold elektraHandleUserName
  dsimp only
  split
  · exact (by decide : 2 ≤ 5)
  · split_ifs
    · exact (by decide : 2 ≤ 5)
    · rw [(keySetOwner_sizes _ _).1]
      exact (by decide : 2 ≤ 5)

/-- Only a name that begins with a separator is looked up as such a name. -/
theorem metaKey_head {n : Str} (h : (keyName (metaKey n)).head? = some pathSeparator) :
    n.head? = some pathSeparator := by
  by_contra hhead
  refine absurd h ?_
  by_cases hn : n = []
  · subst hn
    nofun
  have hspec := namespace_spec n
  unfold metaKey elektraKeySetName
  rw [if_neg (by decide)]
  dsimp only
  cases hns : keyGetNameNamespace (some n) <;> rw [hns] at hspec
  case empty => exact absurd hspec hn
  case cascading => exact absurd hspec hhead
  case user => exact keySetNameBelow_head hn hhead (handleUserName_size _ n)
  case metaName =>
    obtain ⟨c, t, rfl⟩ := List.exists_cons_of_ne_nil hn
    have hc : c ≠ pathSeparator := fun h => hhead (congrArg some h)
    have hone : (keyNameGetOneLevel (c :: t)).2 = levelSize 0 (c :: t) := by simp [keyNameGetOneLevel, hc]
    refine keySetNameBelow_head hn hhead ?_
    dsimp only [Option.getD_some]
    rw [hone]
    exact Nat.succ_le_succ (levelSize_pos hc)
  all_goals exact keySetNameBelow_head hn hhead (by decide)

theorem not_prefix_of_head {p n m : Str} (hp : p ≠ []) (hn : p.isPrefixOf n = true)
    (hhead : n.head? = some pathSeparator) (hm : m.head? ≠ some pathSeparator) : p.isPrefixOf m = false := by
  obtain ⟨c, t, rfl⟩ := List.exists_cons_of_ne_nil hp
  obtain ⟨u, rfl⟩ := List.isPrefixOf_iff_prefix.mp hn
  obtain rfl : c = pathSeparator := Option.some.inj hhead
  refine Bool.eq_false_of_not_eq_true fun h => hm ?_
  obtain ⟨v, rfl⟩ := List.isPrefixOf_iff_prefix.mp h
  rfl

theorem setMeta_locked (fuel : ℕ) (hro : (s.heap.cell k).roMeta = true) (n : Str) :
    ∃ s', s.setMeta fuel k (some n) none = .ok (-1, s') ∧ s'.metas = s.metas ∧ Keeps s.heap s'.heap ∧
      (s'.heap.cell k).roMeta = true := by
  have hstate : s.state k = { heap := s.heap, keyset := s.metas k, roMeta := true, sync := (s.heap.cell k).sync } := by
    rw [Memory.state, hro]
  rw [Memory.setMeta, hstate]
  unfold keySetMeta
  rw [if_pos rfl]
  refine ⟨_, rfl, Function.update_eq_self k s.metas, keeps_set ⟨rfl, rfl, rfl, rfl, rfl, id, fun _ _ => rfl⟩, ?_⟩
  dsimp only
  rw [set_cell_self]

theorem setMeta_known {fuel : ℕ} {ks : KeySet} (hks : s.metas k = some ks) {n : Str} {ret : ℤ}
    (h : s.setMeta fuel k (some n) none = .ok (ret, s')) :
    s.heap.next ≤ s'.heap.next ∧ (∀ a ∈ s'.metadata k, a ∈ s.metadata k ∨ s.heap.next ≤ a) ∧
      (s'.heap.cell k).roMeta = (s.heap.cell k).roMeta := by
  cases hro : (s.heap.cell k).roMeta with
  | true =>
    obtain ⟨s₁, hset, hmetas, hkeeps, hro'⟩ := setMeta_locked fuel hro n
    obtain ⟨-, rfl⟩ := Prod.mk.inj (Except.ok.inj (hset.symm.trans h))
    refine ⟨hkeeps.next, fun a ha => .inl ?_, hro'⟩
    rwa [Memory.metadata, hmetas] at ha
  | false =>
    have hset := @setMeta_pop s k ks fuel hro hks n
    cases hpop : popMeta fuel (s.beside n) k (some s.heap.next) with
    | error e =>
      rw [hpop] at hset
      cases hset.symm.trans h
    | ok s₂ =>
      rw [hpop] at hset
      obtain ⟨s₁, hset, hmetas, hkeeps, hro'⟩ := hset
      obtain ⟨-, rfl⟩ := Prod.mk.inj (Except.ok.inj (hset.symm.trans h))
      have hbeside : (s.beside n).metas k = some ks := hks
      unfold popMeta at hpop
      rw [hbeside] at hpop
      obtain ⟨⟨found, w⟩, hw, he⟩ := except_bind_ok hpop
      obtain rfl := Except.ok.inj he
      have hforgets := ksLookup_forgets transparent_noCallback fuel _ _ _ found w hw
      have hnext : w.heap.next ≤ (found.elim w.heap (keyDel w.heap)).next := by
        cases found with
        | none => exact le_rfl
        | some a => exact (frame_del w.heap a).next
      refine ⟨((Nat.le_succ _).trans hforgets.next).trans (hnext.trans hkeeps.next), fun a ha => ?_, hro'⟩
      have hafter : s₁.metas k = some w.ks := by
        rw [hmetas]
        exact Function.update_self _ _ _
      rw [metadata_eq hafter] at ha
      rw [metadata_eq hks]
      exact (hforgets.known a ha).imp_right fun h => (Nat.le_succ _).trans h

/-- What can not be made good again: a metakey is gone that begins otherwise, or one is there that begins with the
prefix and is not removed by its name. -/
inductive Spoiled (s s' : Memory) (k : KeyRef) (searchfor : Str) : Prop
  | lost (a : KeyRef) (ha : a ∈ s.metadata k) (hnot : searchfor.isPrefixOf (keyName (s.heap.cell a)) = false)
      (hlt : a < s'.heap.next) (hgone : a ∉ s'.metadata k)
  | stuck (hk : Keeps s.heap s'.heap) (hv : s'.ValidMeta k) (hsub : ∀ r ∈ s'.metadata k, r ∈ s.metadata k)
      (hro : (s'.heap.cell k).roMeta = (s.heap.cell k).roMeta) (r : KeyRef) (hr : r ∈ s'.metadata k)
      (hpre : searchfor.isPrefixOf (keyName (s.heap.cell r)) = true) (hstuck : ¬ Removable s k r)

theorem Spoiled.not_removes (h : Spoiled s s' k searchfor) : ¬ Removes s s' k searchfor := by
  intro hdone
  cases h with
  | lost a ha hnot hlt hgone =>
    rw [hdone.metadata] at hgone
    exact hgone (List.mem_filter.mpr ⟨ha, by rw [hnot]; rfl⟩)
  | stuck hk hv hsub hro r hr hpre hstuck =>
    rw [hdone.metadata] at hr
    have hnot := (List.mem_filter.mp hr).2
    rw [hpre] at hnot
    cases hnot

theorem Spoiled.reads (h : Spoiled s s' k searchfor) (hr : Reads s' s'') (hheap : s''.heap = s'.heap) :
    Spoiled s s'' k searchfor := by
  cases h with
  | lost a ha hnot hlt hgone =>
    exact .lost a ha hnot (by rw [hheap]; exact hlt) (by rw [hr.metadata]; exact hgone)
  | stuck hk hv hsub hro r hm hpre hstuck =>
    exact .stuck (hk.trans hr.frame.keeps) (hv.reads hr) (fun a ha => hsub a (by rwa [← hr.metadata k]))
      (by rw [hheap]; exact hro) r (by rw [hr.metadata]; exact hm) hpre hstuck

theorem exists_stray (hv : s.ValidMeta k) {name : Str} (hhead : name.head? = some pathSeparator)
    (hq : ¬ Quiet (s.content k) name) :
    ∃ a ∈ s.metadata k, (keyName (s.heap.cell a)).head? ≠ some pathSeparator ∧
      ∀ s' : Memory, Keeps s.heap s'.heap → s'.ValidMeta k → Quiet (s'.content k) name → a ∉ s'.metadata k := by
  obtain ⟨t, rfl⟩ : ∃ t, name = pathSeparator :: t := by
    obtain ⟨d, t, rfl⟩ := List.exists_cons_of_ne_nil (fun h : name = [] => by rw [h] at hhead; cases hhead)
    exact ⟨t, by rw [Option.some.inj hhead]⟩
  unfold Quiet at hq
  push Not at hq
  obtain ⟨ns, hns, hsome⟩ := hq
  rw [content_named] at hsome
  obtain ⟨a, ha⟩ : ∃ a, s.named k (unameOf (ns.name ++ pathSeparator :: t)) = some a := by
    cases hnamed : s.named k (unameOf (ns.name ++ pathSeparator :: t)) with
    | none => exact absurd (by rw [hnamed]; rfl) hsome
    | some a => exact ⟨a, rfl⟩
  obtain ⟨hmem, hu⟩ := (named_iff hv).mp ha
  refine ⟨a, hmem, fun hfirst => ?_, fun s' hk hv' hquiet hmem' => ?_⟩
  · obtain ⟨q, hqname⟩ := (hv.metaKey a hmem).named
    obtain ⟨d, u, hdu⟩ := List.exists_cons_of_ne_nil
      (fun h : keyName (s.heap.cell a) = [] => by rw [h] at hfirst; cases hfirst)
    rw [hdu] at hfirst
    obtain rfl := Option.some.inj hfirst
    have hq' : q = pathSeparator :: u := by rw [← hdu, keyName, hqname.key]; rfl
    have hzero : (unameOf (pathSeparator :: u)).head? = some 0 := rfl
    rw [← hq', ← hqname.ukey q rfl, hu, unameOf_ns] at hzero
    cases ns <;> cases hzero
  · have hnone := hquiet ns hns
    rw [content_named, (named_iff hv').mpr ⟨hmem', (hk.cell a (hv.lt hmem)).ukey.trans hu⟩] at hnone
    cases hnone

theorem metadata_of_named (hv : s.ValidMeta k) (hv' : s'.ValidMeta k) {v : Str}
    (hnamed : ∀ u, s'.named k u = if u = v then none else s.named k u) (a : KeyRef) :
    a ∈ s'.metadata k ↔ a ∈ s.metadata k ∧ (s.heap.cell a).ukey ≠ v := by
  constructor
  · intro ha
    have h := (named_iff hv').mpr ⟨ha, rfl⟩
    rw [hnamed] at h
    split_ifs at h with hu
    obtain ⟨hm, hu'⟩ := (named_iff hv).mp h
    exact ⟨hm, hu' ▸ hu⟩
  · rintro ⟨hm, hu⟩
    have h : s'.named k (s.heap.cell a).ukey = some a := by
      rw [hnamed, if_neg hu]
      exact (named_iff hv).mpr ⟨hm, rfl⟩
    exact ((named_iff hv').mp h).1

/-- **What was spoiled stays so.** -/
theorem Spoiled.setMeta (fuel : ℕ) (hv : s.ValidMeta k) (hp : searchfor ≠ []) (h : Spoiled s s' k searchfor)
    {r₁ : KeyRef} (hr₁ : r₁ ∈ s'.metadata k) (hpre₁ : searchfor.isPrefixOf (keyName (s'.heap.cell r₁)) = true) {ret : ℤ}
    (hrun : s'.setMeta (fuel + 2) k (some (keyName (s'.heap.cell r₁))) none = .ok (ret, s'')) :
    Spoiled s s'' k searchfor := by
  obtain ⟨ks, hks⟩ : ∃ ks, s'.metas k = some ks := by
    cases hks : s'.metas k with
    | none =>
      rw [Memory.metadata, hks] at hr₁
      cases hr₁
    | some ks => exact ⟨ks, rfl⟩
  obtain ⟨hnext, hknown, hro''⟩ := setMeta_known hks hrun
  have hlost : ∀ a ∈ s.metadata k, searchfor.isPrefixOf (keyName (s.heap.cell a)) = false → a < s'.heap.next →
      a ∉ s'.metadata k → Spoiled s s'' k searchfor := fun a ha hnot hlt hgone =>
    .lost a ha hnot (lt_of_lt_of_le hlt hnext) fun hm => (hknown a hm).elim hgone (not_le.mpr hlt)
  cases h with
  | lost a ha hnot hlt hgone => exact hlost a ha hnot hlt hgone
  | stuck hk hv' hsub hro r hr hpre hstuck =>
    have hname : ∀ a ∈ s'.metadata k, keyName (s'.heap.cell a) = keyName (s.heap.cell a) := fun a ha =>
      keyName_keeps hv hk (hsub a ha)
    have hukey : ∀ a ∈ s'.metadata k, (s'.heap.cell a).ukey = (s.heap.cell a).ukey := fun a ha =>
      (hk.cell a (hv.lt (hsub a ha))).ukey
    generalize hn : keyName (s'.heap.cell r₁) = n at hpre₁ hrun
    -- nothing is taken out
    have hsame : s''.metas = s'.metas → Keeps s'.heap s''.heap → Spoiled s s'' k searchfor := fun hmetas hk' =>
      .stuck (hk.trans hk') (hv'.keeps (congrFun hmetas k) hk')
        (fun a ha => hsub a (by rwa [Memory.metadata, hmetas] at ha)) (hro''.trans hro) r
        (by rw [Memory.metadata, hmetas]; exact hr) hpre hstuck
    cases hlock : (s'.heap.cell k).roMeta with
    | true =>
      obtain ⟨s₁, hset, hmetas, hk', -⟩ := setMeta_locked (fuel + 2) hlock n
      obtain ⟨-, rfl⟩ := Prod.mk.inj (Except.ok.inj (hset.symm.trans hrun))
      exact hsame hmetas hk'
    | false =>
      have hset := @setMeta_pop s' k ks (fuel + 2) hlock hks n
      by_cases hnone : (metaKey n).key = none
      · rw [popMeta_unnamed (fuel + 1) hks hnone] at hset
        obtain ⟨s₁, hset, hmetas, hk', -⟩ := hset
        obtain ⟨-, rfl⟩ := Prod.mk.inj (Except.ok.inj (hset.symm.trans hrun))
        exact hsame hmetas ((keeps_alloc s'.heap (metaKey n)).trans hk')
      have hb := beside_valid hv' n
      have hcontent := beside_content hv' n
      have hlt : s'.heap.next < (s'.beside n).heap.next := Nat.lt_succ_self _
      have hsearch : (s'.beside n).heap.cell s'.heap.next = metaKey n := alloc_cell _ _
      have hname₁ : keyName (s.heap.cell r₁) = n := (hname r₁ hr₁).symm.trans hn
      -- what begins otherwise than the prefix does
      have hother : (keyName (metaKey n)).head? = some pathSeparator → ∀ a,
          (keyName (s.heap.cell a)).head? ≠ some pathSeparator →
          searchfor.isPrefixOf (keyName (s.heap.cell a)) = false := fun hhead a hfirst =>
        not_prefix_of_head hp hpre₁ (metaKey_head hhead) hfirst
      by_cases hq : (keyName (metaKey n)).head? ≠ some pathSeparator ∨ Quiet (s'.content k) (keyName (metaKey n))
      · obtain ⟨s₂, hpop, ht, hnamed, -⟩ := popMeta_quiet fuel hb hlt (beside_finalized hnone) (by rwa [hcontent])
        rw [hpop] at hset
        obtain ⟨s₁, hset, hmetas, hk', -⟩ := hset
        obtain ⟨-, rfl⟩ := Prod.mk.inj (Except.ok.inj (hset.symm.trans hrun))
        rw [hsearch] at hnamed
        have hk'' : Keeps s'.heap s₁.heap := ((keeps_alloc s'.heap (metaKey n)).trans ht.keeps).trans hk'
        have hv'' : s₁.ValidMeta k := ht.valid.keeps (congrFun hmetas k) hk'
        have hleft : ∀ a, a ∈ s₁.metadata k ↔ a ∈ s'.metadata k ∧ (s'.heap.cell a).ukey ≠ (metaKey n).ukey := by
          intro a
          have harray : s₁.metadata k = s₂.metadata k := by rw [Memory.metadata, hmetas]; rfl
          rw [harray, metadata_of_named hb ht.valid hnamed]
          refine and_congr_right fun ha => ?_
          rw [((keeps_alloc s'.heap (metaKey n)).cell a (hv'.lt ha)).ukey.symm]
          rfl
        have hkept : ∀ a ∈ s'.metadata k, (s'.heap.cell a).ukey ≠ (metaKey n).ukey →
            searchfor.isPrefixOf (keyName (s.heap.cell a)) = true → ¬ Removable s k a → Spoiled s s₁ k searchfor :=
          fun a ha hu hpre hstuck => .stuck (hk.trans hk'') hv'' (fun b hb => hsub b ((hleft b).mp hb).1) (hro''.trans hro)
            a ((hleft a).mpr ⟨ha, hu⟩) hpre hstuck
        by_cases hu : (s'.heap.cell r).ukey = (metaKey n).ukey
        · by_cases hr₁r : r₁ = r
          · -- it is read back, so that it stood for another metakey, which is gone
            subst hr₁r
            have hstrays : (keyName (metaKey n)).head? = some pathSeparator ∧
                ¬ Quiet (s.content k) (keyName (metaKey n)) := by
              by_contra hlone
              refine hstuck ⟨hro.symm.trans hlock, ?_, ?_, ?_⟩
              · rwa [hname₁]
              · rw [hname₁, ← hu, hukey r₁ hr₁]
              · rw [hname₁]
                exact fun hhead => by_contra fun hnq => hlone ⟨hhead, hnq⟩
            obtain ⟨hhead, hnq⟩ := hstrays
            obtain ⟨a, ha, hfirst, hgone⟩ := exists_stray hv hhead hnq
            exact hlost a ha (hother hhead a hfirst) (lt_of_lt_of_le (hv.lt ha) hk.next)
              (hgone s' hk hv' (hq.resolve_left (not_not_intro hhead)))
          · -- another metakey was removed by its name, which is not read back
            have hne : (s'.heap.cell r₁).ukey ≠ (metaKey n).ukey := fun he => hr₁r <| Option.some.inj <|
              ((named_iff hv').mpr ⟨hr₁, he.trans hu.symm⟩).symm.trans ((named_iff hv').mpr ⟨hr, rfl⟩)
            refine hkept r₁ hr₁ hne (by rwa [hname₁]) fun hrem => hne ?_
            rw [hukey r₁ hr₁, ← hrem.same, hname₁]
        · exact hkept r hr hu hpre hstuck
      · push Not at hq
        obtain ⟨hhead, hnq⟩ := hq
        cases hpop : popMeta (fuel + 2) (s'.beside n) k (some s'.heap.next) with
        | error e =>
          rw [hpop] at hset
          cases hset.symm.trans hrun
        | ok s₂ =>
          rw [hpop] at hset
          obtain ⟨s₁, hset, hmetas, -, -⟩ := hset
          obtain ⟨-, rfl⟩ := Prod.mk.inj (Except.ok.inj (hset.symm.trans hrun))
          obtain ⟨a, ha, -, hfirst, hgone⟩ := popMeta_loses fuel hb hlt (beside_finalized hnone) hhead
            (by rwa [hcontent]) hpop
          have ha' : a ∈ s'.metadata k := ha
          have hafter : a ∉ s₁.metadata k := by
            rw [Memory.metadata, hmetas]
            exact hgone
          have hfirst' : (keyName (s.heap.cell a)).head? ≠ some pathSeparator := by
            rw [← hname a ha', ← @keyName_keeps s' (s'.beside n) k hv' (keeps_alloc s'.heap (metaKey n)) a ha']
            exact hfirst
          exact .lost a (hsub a ha') (hother hhead a hfirst') (lt_of_lt_of_le (hv'.lt ha') hnext) hafter

theorem removeLoop_spoiled (fuel : ℕ) (hv : s.ValidMeta k) (hp : searchfor ≠ []) : ∀ (rounds : ℕ) {s' : Memory},
    Spoiled s s' k searchfor → removeLoop (fuel + 2) k searchfor rounds s' = .ok s'' → Spoiled s s'' k searchfor
  | 0, _, _, hrun => by cases hrun
  | rounds + 1, s', h, hrun => by
    obtain ⟨hcase, hreads, hheap, -⟩ := nextMeta_cases s' k
    have h₁ := h.reads hreads hheap
    rw [removeLoop] at hrun
    obtain ⟨-, hnone⟩ | ⟨r, rest, ks, -, hsome, -, hks, hstands⟩ := hcase
    · generalize hx : keyNextMeta s' k = x at hnone hrun h₁
      obtain ⟨o, s₁⟩ := x
      dsimp only at hnone hrun h₁
      subst hnone
      obtain rfl := Except.ok.inj hrun
      exact h₁
    · generalize hx : keyNextMeta s' k = x at hsome hrun h₁ hks
      obtain ⟨o, s₁⟩ := x
      dsimp only at hsome hrun h₁ hks
      subst hsome
      dsimp only at hrun
      split_ifs at hrun with hpre
      · obtain ⟨⟨ret, s₂⟩, hset, hrun⟩ := except_bind_ok hrun
        have hmem : r ∈ s₁.metadata k := by
          rw [metadata_eq hks]
          exact hstands.mem
        exact removeLoop_spoiled fuel hv hp rounds (h₁.setMeta fuel hv hp hmem hpre hset) hrun
      · exact removeLoop_spoiled fuel hv hp rounds h₁ hrun

end Spoiling

/-! ## The whole function -/

/-- `elektraRemoveMetaData` ends, and removes what begins with the prefix and nothing else. -/
def RemovesMetaData (fuel : ℕ) (s : Memory) (key : KeyRef) (searchfor : Str) : Prop :=
  ∃ rounds s', elektraRemoveMetaData fuel rounds s key searchfor = .ok s' ∧ Removes s s' key searchfor

/-- **All metadata that begins with a prefix is removed, and nothing else,** where each of it can be removed by its
name; and only there, unless the prefix is that of all names. -/
theorem removesMetaData_iff (fuel : ℕ) {s : Memory} {k : KeyRef} (hv : s.ValidMeta k) (searchfor : Str) :
    (Orderly s k searchfor → RemovesMetaData (fuel + 2) s k searchfor) ∧
      (searchfor ≠ [] → RemovesMetaData (fuel + 2) s k searchfor → Orderly s k searchfor) := by
  obtain ⟨hreads, hpending, hheap, hothers⟩ := rewindMeta_spec s k
  constructor
  · intro hord
    obtain ⟨rounds, s', hrun, hdone⟩ := @removeLoop_removes k searchfor fuel _ (s.metadata k)
      (keyRewindMeta s k) rfl hpending [] (hreads.metadata k) (fun r hr => absurd hr List.not_mem_nil) (hv.reads hreads)
      (hord.mono hv hreads.frame.keeps (hv.reads hreads) (fun r hr => by rwa [← hreads.metadata k])
        fun hro => by rwa [hheap])
    exact ⟨rounds, s', hrun, hdone.of_reads hreads hheap hothers⟩
  · rintro hp ⟨rounds, s', hrun, hdone⟩ r hr hpre
    by_contra hstuck
    have hspoiled : Spoiled s s k searchfor := .stuck (Keeps.refl _) hv (fun _ h => h) rfl r hr hpre hstuck
    exact (removeLoop_spoiled fuel hv hp rounds (hspoiled.reads hreads hheap) hrun).not_removes hdone

/-- `user/a` has the metadata `a`, and that is removed. -/
theorem removesMetaData_threeKeys : RemovesMetaData 2 threeKeys 2 (str "a") := by
  refine (removesMetaData_iff 0 (validMeta_threeKeys (r := 0) (by decide) rfl) (str "a")).1 fun r hr _ => ?_
  obtain rfl : r = 0 := List.mem_singleton.mp hr
  exact ⟨rfl, by decide, by decide, fun h => absurd h (by decide)⟩

/-- `user/a` with the metadata `/x` and `user/x`. -/
def cascadingMeta : Memory where
  heap := .ofList [metaKeyOf (str "/x") (str "1"), metaKeyOf (str "user/x") (str "2"), keyNewName (str "user/a")]
  metas k := if k = 2 then some { array := [0, 1], alloc := KEYSET_SIZE, cursor := none, current := 0, sync := false }
    else none

/-- Looking for `/x` finds `user/x`. -/
theorem not_removesMetaData : ¬ RemovesMetaData 2 cascadingMeta 2 (str "/") := by
  rintro ⟨rounds, s', hrun, hdone⟩
  have hkept : s'.metadata 2 = [1] := hdone.metadata.trans (by decide +kernel)
  have hgone : (elektraRemoveMetaData 2 3 cascadingMeta 2 (str "/")).toOption.map (fun s => s.metadata 2) = some [] := by
    decide +kernel
  cases hthree : elektraRemoveMetaData 2 3 cascadingMeta 2 (str "/") with
  | error e =>
    rw [hthree] at hgone
    cases hgone
  | ok s'' =>
    rw [hthree, removeLoop_unique hthree hrun] at hgone
    cases hkept.symm.trans (Option.some.inj hgone)

end Elektra.KeyMeta
