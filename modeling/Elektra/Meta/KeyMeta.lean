import Elektra.Lookup.Pop

/-!
# Metadata as a key set

The metadata of a key is a key set of its own, whose keys are named by the function that names all
keys and found by `ksLookup`. `metaKeys` of a `Key` is what this should be, a map from names to
strings; here it is the key set that the code works on.

* `metaKey`, `MetaState`, `KeyMeta.keyGetMeta`, `KeyMeta.keySetMeta`;
* `Separate`, `Suits`: names that are stored and keep apart, and the calls for them;
* `Holds`, **`keySetMeta_holds`**: on such names the metadata is a map;
* **`metadata_map`**: after every sequence of calls.
-/

namespace Elektra.KeyMeta

/-- The key that a metadata name is stored and searched under. -/
def metaKey (metaName : Str) : Key := (elektraKeySetName keyNew (some metaName) true).2

/-- What the two functions read and write: `key->meta`, the two flags of the key, and all keys. -/
structure MetaState where
  heap : Heap
  keyset : Option KeySet
  /-- `KEY_FLAG_RO_META` -/
  roMeta : Bool
  /-- `KEY_FLAG_SYNC` -/
  sync : Bool

/-- A lookup in the metadata. The search key is new and has no callback. -/
def lookup (fuel : ℕ) : Lookup := ksLookup noCallback fuel

section Code

variable (fuel : ℕ)

/-- `keyGetMeta`: the metakey. -/
def keyGetMeta (s : MetaState) (metaName : Option Str) : Except Stop (Option KeyRef × MetaState) :=
  match metaName, s.keyset with
  | none, _ => .ok (none, s)
  | _, none => .ok (none, s)
  | some metaName, some ks => do
    let (search, w) := World.alloc { heap := s.heap, ks := ks } (metaKey metaName)
    let (ret, w) ← lookup fuel w search {}
    .ok (ret, { s with heap := (w.del search).heap, keyset := some w.ks })

/-- The part of `keySetMeta` that takes the metakey out which is there already. -/
def dropMeta (s : MetaState) (toSet : KeyRef) : Except Stop MetaState :=
  match s.keyset with
  | none => .ok s
  | some ks => do
    let (ret, w) ← lookup fuel { heap := s.heap, ks := ks } toSet { pop := true }
    match ret with
    | none => .ok { s with heap := w.heap, keyset := some w.ks }
    | some ret => .ok { s with heap := keyDel w.heap ret, keyset := some w.ks, sync := true }

/-- The part of `keySetMeta` that appends the metakey with its value. What `ksAppendKey` returns is
not looked at. -/
def addMeta (s : MetaState) (toSet : KeyRef) (metaString : Str) : MetaState :=
  let h := s.heap.set toSet
    { s.heap.cell toSet with
      data := some (metaString ++ [0]), roName := true, roValue := true, roMeta := true }
  let ks := s.keyset.getD (ksNew h 0 []).2
  { s with
    heap := (ksAppendKey h ks toSet).2.1, keyset := some (ksAppendKey h ks toSet).2.2, sync := true }

/-- `keySetMeta` -/
def keySetMeta (s : MetaState) (metaName newMetaString : Option Str) : Except Stop (ℤ × MetaState) :=
  if s.roMeta then .ok (-1, s)
  else
    match metaName with
    | none => .ok (-1, s)
    | some metaName =>
      -- nothing is there and something is to be removed
      if s.keyset = none ∧ newMetaString = none then .ok (0, s)
      else do
        let toSet := s.heap.next
        let s ← dropMeta fuel { s with heap := (s.heap.alloc (metaKey metaName)).2 } toSet
        match newMetaString with
        | none => .ok (0, { s with heap := keyDel s.heap toSet })
        | some v => .ok (v.length + 1, addMeta s toSet v)

/-- The string of the metakey that `keyGetMeta` finds, its NUL included. -/
def metaValue (s : MetaState) (metaName : Str) : Except Stop (Option Str) := do
  let (ret, s) ← keyGetMeta fuel s (some metaName)
  .ok (ret.bind fun k => (s.heap.cell k).data)

end Code

/-! ## The map -/

/-- What the metadata of a key should be. -/
abbrev Values := Str → Option Str

/-- A call that returned `ret`. -/
def Values.set (μ : Values) (metaName : Str) (newMetaString : Option Str) (ret : ℤ) : Values :=
  if 0 ≤ ret then Function.update μ metaName (newMetaString.map (· ++ [0])) else μ

/-- Calls of `keySetMeta`, one after the other, and what the map should be after them. -/
def run (fuel : ℕ) : MetaState → Values → List (Str × Option Str) → Except Stop (MetaState × Values)
  | s, μ, [] => .ok (s, μ)
  | s, μ, (n, v) :: calls => do
    let (ret, s) ← keySetMeta fuel s (some n) v
    run fuel s (μ.set n v ret) calls

/-- A key without metadata. -/
def MetaState.new (h : Heap) (roMeta : Bool) : MetaState :=
  { heap := h, keyset := none, roMeta := roMeta, sync := false }

/-- Names that keep apart: each is stored at all, no two have the same unescaped name, and none is
one that a cascading lookup of another tries. -/
structure Separate (U : Set Str) : Prop where
  stored : ∀ n ∈ U, (metaKey n).key ≠ none
  distinct : ∀ n ∈ U, ∀ n' ∈ U, (metaKey n).ukey = (metaKey n').ukey → n = n'
  quiet : ∀ n ∈ U, (keyName (metaKey n)).head? = some pathSeparator → ∀ ns ∈ namespaces, ∀ n' ∈ U,
    (metaKey n').ukey ≠ unameOf (ns.name ++ keyName (metaKey n))

/-- The calls for names that are not stored remove them. -/
def Suits (U : Set Str) (c : Str × Option Str) : Prop :=
  c.1 ∈ U ∨ (metaKey c.1).key = none ∧ c.2 = none

/-! ## The key of a name -/

theorem below_finalized {key : Key} {n : Str} (hro : key.roName = false) (hn : n ≠ [])
    (hhead : n.head? ≠ some pathSeparator) :
    let size := (keyNameGetOneLevel n).2 + 1
    let key' := (elektraKeySetNameBelow { key with keyUSize := size, keySize := size } n).2
    key'.key = none ∨ ∃ name, Finalized key' (some name) := by
  obtain ⟨c, t, rfl⟩ := List.exists_cons_of_ne_nil hn
  have hc : c ≠ pathSeparator := by simpa using hhead
  have hone : (keyNameGetOneLevel (c :: t)).2 = levelSize 0 (c :: t) := by
    simp [keyNameGetOneLevel, hc]
  have hroot : (c :: t).take (levelSize 0 (c :: t)) ≠ [] := by
    have := levelSize_pos (s := t) hc
    simp only [ne_eq, List.take_eq_nil_iff, reduceCtorEq, or_false]
    omega
  dsimp only
  rw [hone]
  unfold elektraKeySetNameBelow
  dsimp only
  rw [Nat.add_sub_cancel]
  split_ifs with h1 h2 h3
  · exact Or.inr ⟨_, finalized_finalize _ hroot⟩
  · exact Or.inr ⟨_, finalized_finalize _ hroot⟩
  · exact Or.inl rfl
  · have hrest : (c :: t).drop (levelSize 0 (c :: t) + 1) ≠ [] := by
      intro he
      obtain hd | ⟨u, hd, -⟩ := drop_levelSize (c :: t) 0
      · rw [hd] at h2
        exact h2 rfl
      · have hu : u = [] := by
          have h4 := congrArg (List.drop 1) hd
          rw [List.drop_drop] at h4
          exact h4.symm.trans he
        rw [hd, hu] at h2
        exact h2 rfl
    right
    have hlen : ¬ ((c :: t).drop (levelSize 0 (c :: t) + 1)).length + 1 < 2 := by
      have := List.length_pos_of_ne_nil hrest
      omega
    obtain ⟨d, u, hr⟩ := List.exists_cons_of_ne_nil hroot
    simp only [keyAddName, hro, hr, Bool.false_eq_true, if_false, hlen] at h3 ⊢
    split_ifs at h3 ⊢ with h4
    · exact absurd rfl h3
    all_goals exact ⟨_, finalized_finalize _ (foldl_addLevel_ne_nil _ (List.cons_ne_nil d u))⟩

theorem metaKey_finalized {n : Str} (h : (metaKey n).key ≠ none) :
    Finalized (metaKey n) (some (keyName (metaKey n))) := by
  have hcase : (metaKey n).key = none ∨ ∃ name, Finalized (metaKey n) (some name) := by
    by_cases hm : keyGetNameNamespace (some n) = .metaName
    · have hn : n ≠ [] := by
        rintro rfl
        cases hm
      have hhead : n.head? ≠ some pathSeparator := by
        obtain ⟨c, t, rfl⟩ := List.exists_cons_of_ne_nil hn
        intro hc
        simp [keyGetNameNamespace, Option.some.inj hc] at hm
      have hb := @below_finalized (elektraRemoveKeyName keyNew) n rfl hn hhead
      have he : metaKey n = (elektraKeySetNameBelow { elektraRemoveKeyName keyNew with
          keyUSize := (keyNameGetOneLevel n).2 + 1, keySize := (keyNameGetOneLevel n).2 + 1 } n).2 := by
        unfold metaKey elektraKeySetName
        simp [hm, keyNew]
      rw [he]
      exact hb
    · have he : metaKey n = (keySetName keyNew (some n)).2 := by
        have hown : keySetOwner (elektraRemoveKeyName keyNew) none = elektraRemoveKeyName keyNew := rfl
        unfold metaKey keySetName elektraKeySetName
        cases hns : keyGetNameNamespace (some n) <;> simp_all [keyNew]
      obtain ⟨name, hname⟩ := keySetName_finalized n
      have hf := (hname keyNew rfl).1
      rw [he]
      cases name with
      | none => exact Or.inl hf.key
      | some name => exact Or.inr ⟨name, hf⟩
  obtain ⟨name, hf⟩ := hcase.resolve_left h
  have hk : keyName (metaKey n) = name := by simp [keyName, hf.key]
  rw [hk]
  exact hf

/-! ## What the key set holds -/

/-- The key set holds the map `m`, its keys are named by `U`, and their values are those of `μ`. -/
structure Stores (U : Set Str) (h : Heap) (ks : KeySet) (m : Ident → Option KeyRef) (μ : Values) :
    Prop where
  holds : ks.Holds h m
  named : ∀ k ∈ ks.array, ∃ n ∈ U, h.ident k = ident (metaKey n)
  value : ∀ n ∈ U, ((m (ident (metaKey n))).bind fun k => (h.cell k).data) = μ n

/-- The metadata is `μ` on the names of `U`, and on those that cannot be stored. -/
structure Holds (U : Set Str) (s : MetaState) (μ : Values) : Prop where
  unstored : ∀ n, (metaKey n).key = none → μ n = none
  absent : s.keyset = none → ∀ n ∈ U, μ n = none
  stores : ∀ ks, s.keyset = some ks → ∃ m, Stores U s.heap ks m μ

theorem holds_new {U : Set Str} (h : Heap) (roMeta : Bool) :
    Holds U (MetaState.new h roMeta) fun _ => none :=
  ⟨fun _ _ => rfl, fun _ _ _ => rfl, nofun⟩

variable {U : Set Str} {h h' : Heap} {ks : KeySet} {m : Ident → Option KeyRef} {μ : Values} {n : Str}

theorem Separate.ident_ne (hU : Separate U) {n' : Str} (hn : n ∈ U) (hn' : n' ∈ U) (hne : n' ≠ n) :
    ident (metaKey n') ≠ ident (metaKey n) := fun he =>
  hne (hU.distinct n' hn' n hn (congrArg Prod.fst he))

theorem Stores.keeps (hs : Stores U h ks m μ) (hh : Keeps h h') : Stores U h' ks m μ where
  holds := hs.holds.keeps hh
  named k hk := by
    obtain ⟨n, hn, he⟩ := hs.named k hk
    exact ⟨n, hn, (hh.ident (hs.holds.entry k hk).lt).trans he⟩
  value n hn := by
    rw [← hs.value n hn]
    cases hm : m (ident (metaKey n)) with
    | none => rfl
    | some k =>
      have hk := (hs.holds.mem.mp hm).1
      exact (hh.cell k (hs.holds.entry k hk).lt).data

theorem Stores.find (hs : Stores U h ks m μ) (hU : Separate U) (hn : n ∈ U) :
    findByName h ks (metaKey n).ukey = m (ident (metaKey n)) := by
  cases hf : findByName h ks (metaKey n).ukey with
  | some k =>
    obtain ⟨hk, hu⟩ := findByName_some hf
    obtain ⟨n', hn', he⟩ := hs.named k hk
    have hsame : n' = n := hU.distinct n' hn' n hn ((congrArg Prod.fst he).symm.trans hu)
    rw [← hsame]
    exact (hs.holds.mem.mpr ⟨hk, he⟩).symm
  | none =>
    symm
    refine Option.eq_none_iff_forall_ne_some.mpr fun k hm => ?_
    obtain ⟨hk, he⟩ := hs.holds.mem.mp hm
    exact findByName_none hs.holds hf k hk (congrArg Prod.fst he)

theorem unameOf_metaKey (hU : Separate U) (hn : n ∈ U) :
    unameOf (keyName (metaKey n)) = (metaKey n).ukey :=
  ((metaKey_finalized (hU.stored n hn)).ukey _ rfl).symm

theorem Stores.quiet (hs : Stores U h ks m μ) (hU : Separate U) (hn : n ∈ U) (o : Options) :
    direct (keyName (metaKey n)) o = true ∨ Quiet (content h ks) (keyName (metaKey n)) := by
  by_cases hhead : (keyName (metaKey n)).head? = some pathSeparator
  · right
    intro ns hns
    rw [content, Option.map_eq_none_iff]
    refine Option.eq_none_iff_forall_ne_some.mpr fun k hf => ?_
    obtain ⟨hk, hu⟩ := findByName_some hf
    obtain ⟨n', hn', he⟩ := hs.named k hk
    exact hU.quiet n hn hhead ns hns n' hn' ((congrArg Prod.fst he).symm.trans hu)
  · left
    simp [direct, hhead]

/-! ## Reading -/

section Lookup

variable (hs : Stores U h ks m μ) (hU : Separate U) (hn : n ∈ U) {c : KeyRef}
  (hc : h.cell c = metaKey n) (hlt : c < h.next) (fuel : ℕ)

include hs hU hn hc hlt

omit hlt in
theorem metaKey_ready : Ready (content h ks) { heap := h, ks := ks } ∧
    Finalized (World.cell { heap := h, ks := ks } c) (some (keyName (metaKey n))) := by
  have hf := metaKey_finalized (hU.stored n hn)
  refine ⟨⟨⟨m, hs.holds⟩, rfl⟩, ?_⟩
  rw [World.cell, hc]
  exact hf

theorem lookup_spec :
    ∃ w, lookup (fuel + 2) { heap := h, ks := ks } c {} = .ok (m (ident (metaKey n)), w) ∧
      Frame h w.heap ∧ w.ks.array = ks.array ∧ w.ks.alloc = ks.alloc := by
  obtain ⟨hr, hk⟩ := metaKey_ready hs hU hn hc
  have href := ksLookup_refines transparent_noCallback (content h ks) (fuel + 2) hr hlt hk
    plain_default
  rw [eval_quiet rfl (hs.quiet hU hn {}), content, unameOf_metaKey hU hn, hs.find hU hn] at href
  unfold lookup
  rcases hx : ksLookup noCallback (fuel + 2) { heap := h, ks := ks } c {} with e | ⟨ret, w⟩
  · rw [hx] at href
    exact href.elim
  · rw [hx] at href
    obtain ⟨hframe, hd⟩ := href
    cases hm : m (ident (metaKey n)) with
    | none =>
      rw [hm] at hd
      obtain ⟨rfl, hsame⟩ := hd
      exact ⟨w, rfl, hframe, hsame.array, hsame.alloc⟩
    | some k =>
      rw [hm] at hd
      obtain ⟨rfl, hsame⟩ := hd
      exact ⟨w, rfl, hframe, hsame.array, hsame.alloc⟩

theorem pop_spec :
    ∃ w, lookup (fuel + 2) { heap := h, ks := ks } c { pop := true } =
        .ok (m (ident (metaKey n)), w) ∧ Frame h w.heap ∧ (∀ k ∈ w.ks.array, k ∈ ks.array) ∧
      Stores U w.heap w.ks (Function.update m (ident (metaKey n)) none)
        (Function.update μ n none) := by
  obtain ⟨hr, hk⟩ := metaKey_ready hs hU hn hc
  have ho : ({ pop := true } : Options).Popping := ⟨plain_default, rfl⟩
  obtain ⟨w, hw, hp⟩ := ksLookup_quiet transparent_noCallback ho rfl hr hlt hk
    (hs.quiet hU hn _) fuel
  dsimp only at hw hp
  rw [unameOf_metaKey hU hn, hs.find hU hn] at hw hp
  have hmap : popMap h m (m (ident (metaKey n))) = Function.update m (ident (metaKey n)) none := by
    cases hm : m (ident (metaKey n)) with
    | none => rw [popMap, ← hm, Function.update_eq_self]
    | some k => rw [popMap, (hs.holds.mem.mp hm).2]
  have hsub : ∀ k ∈ w.ks.array, k ∈ ks.array := by
    intro k hk
    rw [hp.array] at hk
    exact List.mem_of_mem_filter hk
  have hkeeps := hs.keeps hp.frame.keeps
  refine ⟨w, hw, hp.frame, hsub, ⟨hmap ▸ hp.holds m hs.holds, fun k hk => hkeeps.named k (hsub k hk),
    fun n' hn' => ?_⟩⟩
  by_cases hne : n' = n
  · subst hne
    simp
  · rw [Function.update_of_ne (hU.ident_ne hn hn' hne), Function.update_of_ne hne]
    exact hkeeps.value n' hn'

end Lookup

theorem lookup_unnamed {w : World} {c : KeyRef} (hc : (w.cell c).key = none) (fuel : ℕ)
    (o : Options) : lookup (fuel + 1) w c o = .ok (none, w) := by
  unfold lookup ksLookup
  dsimp only
  rw [hc]

theorem alloc_cell (h : Heap) (key : Key) : (h.alloc key).2.cell h.next = key :=
  Function.update_self _ _ _

theorem metaValue_eq (fuel : ℕ) {s : MetaState} (hU : Separate U) (hs : Holds U s μ)
    (hn : n ∈ U ∨ (metaKey n).key = none) : metaValue (fuel + 2) s n = .ok (μ n) := by
  have hcell := alloc_cell s.heap (metaKey n)
  unfold metaValue keyGetMeta
  cases hks : s.keyset with
  | none =>
    have hv : μ n = none := hn.elim (hs.absent hks n) (hs.unstored n)
    rw [hv]
    rfl
  | some ks =>
    obtain ⟨m, hst⟩ := hs.stores ks hks
    have hst' := hst.keeps (keeps_alloc s.heap (metaKey n))
    rcases hn with hn | hn
    · obtain ⟨w, hw, hframe, -⟩ := lookup_spec hst' hU hn hcell (Nat.lt_succ_self _) fuel
      have hv := (hst'.keeps (hframe.keeps.trans (keeps_del w.heap s.heap.next))).value n hn
      simp only [World.alloc, ← hv]
      change (lookup (fuel + 2) { heap := (s.heap.alloc (metaKey n)).2, ks := ks } s.heap.next {} >>=
        _) >>= _ = _
      rw [hw]
      rfl
    · have hc : (World.cell { heap := (s.heap.alloc (metaKey n)).2, ks := ks } s.heap.next).key =
          none := by
        rw [World.cell, hcell]
        exact hn
      rw [hs.unstored n hn]
      simp only [World.alloc]
      change (lookup (fuel + 2) { heap := (s.heap.alloc (metaKey n)).2, ks := ks } s.heap.next {} >>=
        _) >>= _ = _
      rw [lookup_unnamed hc]
      rfl

/-! ## Writing -/

/-- The key that is to be set, beside the metadata. -/
structure Beside (s : MetaState) (toSet : KeyRef) (n : Str) : Prop where
  lt : toSet < s.heap.next
  alike : Alike (metaKey n) (s.heap.cell toSet)
  mem : ∀ ks, s.keyset = some ks → toSet ∉ ks.array

theorem beside_alloc {s : MetaState} (hs : Holds U s μ) :
    Beside { s with heap := (s.heap.alloc (metaKey n)).2 } s.heap.next n where
  lt := Nat.lt_succ_self _
  alike := by
    dsimp only
    rw [alloc_cell]
    exact Alike.refl _
  mem ks hks hm := by
    obtain ⟨m, hst⟩ := hs.stores ks hks
    exact (hst.holds.entry _ hm).lt.false

theorem Holds.keeps {s : MetaState} (hs : Holds U s μ) (hh : Keeps s.heap h') :
    Holds U { s with heap := h' } μ where
  unstored := hs.unstored
  absent := hs.absent
  stores ks hks := by
    obtain ⟨m, hst⟩ := hs.stores ks hks
    exact ⟨m, hst.keeps hh⟩

theorem unstored_update {μ : Values} {v : Option Str} (h : ∀ n, (metaKey n).key = none → μ n = none)
    (hn : (metaKey n).key ≠ none) (n' : Str) (hn' : (metaKey n').key = none) :
    Function.update μ n v n' = none := by
  have hne : n' ≠ n := by
    rintro rfl
    exact hn hn'
  rw [Function.update_of_ne hne]
  exact h n' hn'

theorem dropMeta_spec (fuel : ℕ) {s : MetaState} {c : KeyRef} (hU : Separate U) (hs : Holds U s μ)
    (hn : n ∈ U) (hc : s.heap.cell c = metaKey n) (hb : Beside s c n) :
    ∃ s', dropMeta (fuel + 2) s c = .ok s' ∧ Holds U s' (Function.update μ n none) ∧
      Beside s' c n := by
  unfold dropMeta
  cases hks : s.keyset with
  | none =>
    have hsame : Function.update μ n none = μ := by
      rw [← hs.absent hks n hn, Function.update_eq_self]
    exact ⟨s, rfl, hsame.symm ▸ hs, hb⟩
  | some ks =>
    obtain ⟨m, hst⟩ := hs.stores ks hks
    obtain ⟨w, hw, hframe, hsub, hst'⟩ := pop_spec hst hU hn hc hb.lt fuel
    have halike := hb.alike.trans (hframe.cell c hb.lt).toAlike
    have hlt := lt_of_lt_of_le hb.lt hframe.next
    have hmem : c ∉ w.ks.array := fun hm => hb.mem ks hks (hsub c hm)
    have hun := unstored_update (v := none) hs.unstored (hU.stored n hn)
    simp only [hw]
    cases m (ident (metaKey n)) with
    | none =>
      refine ⟨_, rfl, ⟨hun, nofun, ?_⟩, hlt, halike, ?_⟩
      · rintro _ ⟨⟩
        exact ⟨_, hst'⟩
      · rintro _ ⟨⟩
        exact hmem
    | some ret =>
      have hdel := keeps_del w.heap ret
      refine ⟨_, rfl, ⟨hun, nofun, ?_⟩, lt_of_lt_of_le hlt hdel.next,
        halike.trans (hdel.cell c hlt), ?_⟩
      · rintro _ ⟨⟩
        exact ⟨_, hst'.keeps hdel⟩
      · rintro _ ⟨⟩
        exact hmem

theorem Stores.append (hs : Stores U h ks m μ) (hU : Separate U) (hn : n ∈ U) {c : KeyRef}
    (hc : Entry h c) (hid : h.ident c = ident (metaKey n)) :
    Stores U (ksAppendKey h ks c).2.1 (ksAppendKey h ks c).2.2
      (Function.update m (ident (metaKey n)) (some c))
      (Function.update μ n (h.cell c).data) := by
  have hh := keeps_appendKey h ks c
  have hold := hs.keeps hh
  have hnew := ksAppendKey_holds hs.holds hc
  rw [hid] at hnew
  have hid' : (ksAppendKey h ks c).2.1.ident c = ident (metaKey n) := (hh.ident hc.lt).trans hid
  refine ⟨hnew, fun k hk => ?_, fun n' hn' => ?_⟩
  · have hm := hnew.of_mem hk
    by_cases he : (ksAppendKey h ks c).2.1.ident k = ident (metaKey n)
    · exact ⟨n, hn, he⟩
    · rw [Function.update_of_ne he] at hm
      exact hold.named k (hold.holds.mem.mp hm).1
  · by_cases hne : n' = n
    · subst hne
      rw [Function.update_self, Function.update_self, Option.bind_some]
      exact (hh.cell c hc.lt).data
    · rw [Function.update_of_ne (hU.ident_ne hn hn' hne), Function.update_of_ne hne]
      exact hold.value n' hn'

theorem addMeta_spec {s : MetaState} {c : KeyRef} (hU : Separate U) (hs : Holds U s μ)
    (hn : n ∈ U) (hb : Beside s c n) (v : Str) :
    Holds U (addMeta s c v) (Function.update μ n (some (v ++ [0]))) := by
  have hf := metaKey_finalized (hU.stored n hn)
  generalize hkey : ({ s.heap.cell c with
    data := some (v ++ [0]), roName := true, roValue := true, roMeta := true } : Key) = key
  have hcell : (s.heap.set c key).cell c = key := set_cell_self _ _ _
  have hc : Entry (s.heap.set c key) c := by
    refine ⟨hb.lt, ?_, ?_⟩
    · rw [hcell, ← hkey]
      exact hb.alike.key ▸ hU.stored n hn
    · rw [hcell, ← hkey]
      exact (hb.alike.finalized hf).sized
  have hid : (s.heap.set c key).ident c = ident (metaKey n) := by
    rw [Heap.ident, hcell, ← hkey]
    exact hb.alike.ident
  have hdata : ((s.heap.set c key).cell c).data = some (v ++ [0]) := by
    rw [hcell, ← hkey]
  have hst : ∃ m, Stores U (s.heap.set c key) (s.keyset.getD (ksNew (s.heap.set c key) 0 []).2) m μ := by
    cases hks : s.keyset with
    | none =>
      have hnew := @ksNew_holds (s.heap.set c key) 0 [] nofun
      rw [ksNew_empty] at hnew
      exact ⟨_, hnew, nofun, fun n hn => (hs.absent hks n hn).symm⟩
    | some ks =>
      obtain ⟨m, hst⟩ := hs.stores ks hks
      have hsame : ∀ k ∈ ks.array, (s.heap.set c key).cell k = s.heap.cell k := fun k hk =>
        set_cell_ne fun he => hb.mem ks hks (he ▸ hk)
      refine ⟨m, hst.holds.of_cells le_rfl fun k hk => ?_, fun k hk => ?_, fun n' hn' => ?_⟩
      · rw [hsame k hk]
        exact Alike.refl _
      · rw [Heap.ident, hsame k hk]
        exact hst.named k hk
      · rw [← hst.value n' hn']
        cases hm : m (ident (metaKey n')) with
        | none => rfl
        | some k => exact congrArg Key.data (hsame k (hst.holds.mem.mp hm).1)
  obtain ⟨m, hst⟩ := hst
  have happ := hst.append hU hn hc hid
  rw [hdata] at happ
  refine ⟨unstored_update hs.unstored (hU.stored n hn), nofun, ?_⟩
  unfold addMeta
  dsimp only
  rw [hkey]
  rintro _ ⟨⟩
  exact ⟨_, happ⟩

theorem dropMeta_unnamed (fuel : ℕ) {s : MetaState} {c : KeyRef} (hc : (s.heap.cell c).key = none) :
    dropMeta (fuel + 1) s c = .ok s := by
  unfold dropMeta
  cases hks : s.keyset with
  | none => rfl
  | some ks =>
    have hw := @lookup_unnamed { heap := s.heap, ks := ks } c hc fuel { pop := true }
    have hsame : ({ s with keyset := some ks } : MetaState) = s := by rw [← hks]
    simp only [hw]
    exact congrArg Except.ok hsame

/-- **A call of `keySetMeta` on separate names sets the map.** -/
theorem keySetMeta_holds (fuel : ℕ) {s : MetaState} (hU : Separate U) (hs : Holds U s μ)
    {v : Option Str} (hn : Suits U (n, v)) :
    ∃ ret s', keySetMeta (fuel + 2) s (some n) v = .ok (ret, s') ∧ Holds U s' (μ.set n v ret) := by
  have hremove : μ n = none → μ.set n none 0 = μ := fun hv => by
    rw [Values.set, if_pos le_rfl, Option.map_none, ← hv, Function.update_eq_self]
  have hcell := alloc_cell s.heap (metaKey n)
  have hs' := hs.keeps (keeps_alloc s.heap (metaKey n))
  unfold keySetMeta
  split_ifs with hro hnone
  · exact ⟨-1, s, rfl, hs⟩
  · obtain ⟨hks, rfl⟩ := hnone
    have hv : μ n = none := hn.elim (hs.absent hks n) fun h => hs.unstored n h.1
    exact ⟨0, s, rfl, (hremove hv).symm ▸ hs⟩
  · obtain hn | ⟨hn, rfl⟩ := hn
    · obtain ⟨s1, hd, h1, hb⟩ := dropMeta_spec fuel hU hs' hn hcell (beside_alloc hs)
      simp only [hd]
      cases v with
      | none => exact ⟨0, _, rfl, h1.keeps (keeps_del s1.heap s.heap.next)⟩
      | some v =>
        have hadd := addMeta_spec hU h1 hn hb v
        rw [Function.update_idem] at hadd
        have hpos : (0 : ℤ) ≤ v.length + 1 := by omega
        refine ⟨v.length + 1, _, rfl, ?_⟩
        simpa [Values.set, hpos] using hadd
    · have hc : ((s.heap.alloc (metaKey n)).2.cell s.heap.next).key = none := by
        rw [hcell]
        exact hn
      have hd := @dropMeta_unnamed (fuel + 1) { s with heap := (s.heap.alloc (metaKey n)).2 } _ hc
      simp only [hd]
      refine ⟨0, _, rfl, ?_⟩
      rw [hremove (hs.unstored n hn)]
      exact hs'.keeps (keeps_del _ _)

theorem calls_holds (fuel : ℕ) (hU : Separate U) : ∀ (calls : List (Str × Option Str))
    {s : MetaState} {μ : Values}, Holds U s μ → (∀ c ∈ calls, Suits U c) →
      ∃ s' μ', run (fuel + 2) s μ calls = .ok (s', μ') ∧ Holds U s' μ'
  | [], s, μ, hs, _ => ⟨s, μ, rfl, hs⟩
  | (n, v) :: calls, s, μ, hs, hc => by
    obtain ⟨ret, s1, hret, h1⟩ := keySetMeta_holds fuel hU hs (hc _ List.mem_cons_self)
    obtain ⟨s', μ', hrun, h'⟩ := calls_holds fuel hU calls h1 fun c hm =>
      hc c (List.mem_cons_of_mem _ hm)
    refine ⟨s', μ', ?_, h'⟩
    unfold run
    simp only [hret]
    exact hrun

/-- **Metadata is a map from names to strings**, for every sequence of calls of `keySetMeta` on names
that keep apart: `keyGetMeta` returns the last value that was stored with a return value that is not
negative, or nothing after a removal, and the calls for other names do not matter. -/
theorem metadata_map (fuel : ℕ) (hU : Separate U) {s : MetaState} (hs : Holds U s μ)
    {calls : List (Str × Option Str)} (hc : ∀ c ∈ calls, Suits U c) :
    ∃ s' μ', run (fuel + 2) s μ calls = .ok (s', μ') ∧
      ∀ n, n ∈ U ∨ (metaKey n).key = none → metaValue (fuel + 2) s' n = .ok (μ' n) := by
  obtain ⟨s', μ', hrun, h'⟩ := calls_holds fuel hU calls hs hc
  exact ⟨s', μ', hrun, fun n hn => metaValue_eq fuel hU h' hn⟩

theorem separate_order : Separate {n | n = str "a" ∨ n = str "/order"} where
  stored := by
    rintro n (rfl | rfl) <;> decide
  distinct := by
    rintro n (rfl | rfl) n' (rfl | rfl) <;> decide
  quiet := by
    rintro n (rfl | rfl) hh ns hns n' (rfl | rfl)
    · exact absurd hh (by decide)
    · exact absurd hh (by decide)
    · cases ns <;> decide
    · cases ns <;> decide

/-- `a` is set, `/order` is set, and `a` is removed. -/
theorem metadata_map_order :
    ∃ s' μ', run 2 (MetaState.new (Heap.ofList []) false) (fun _ => none)
        [(str "a", some (str "x")), (str "/order", some (str "1")), (str "a", none)] = .ok (s', μ') ∧
      ∀ n, n ∈ {n | n = str "a" ∨ n = str "/order"} ∨ (metaKey n).key = none →
        metaValue 2 s' n = .ok (μ' n) :=
  metadata_map 0 separate_order (holds_new _ _) (by
    rintro c hc
    simp only [List.mem_cons, List.not_mem_nil, or_false] at hc
    rcases hc with rfl | rfl | rfl
    · exact Or.inl (Or.inl rfl)
    · exact Or.inl (Or.inr rfl)
    · exact Or.inl (Or.inl rfl))

/-! ## Names that do not keep apart -/

/-- What is read after some calls for a new key, and what it should be. -/
def readAfter (calls : List (Str × Option Str)) (n : Str) : Option (Option Str × Option Str) :=
  match run 9 (MetaState.new (Heap.ofList []) false) (fun _ => none) calls with
  | .ok (s, μ) => (metaValue 9 s n).toOption.map fun v => (v, μ n)
  | .error _ => none

/-- A name that ends with a backslash is not stored; `a//b` is overwritten through `a/b`; setting
`/a` takes `user/a` away. -/
theorem not_metadata_map :
    readAfter [(str "a/b\\", some (str "x"))] (str "a/b\\") = some (none, some [120, 0]) ∧
      readAfter [(str "a//b", some (str "x")), (str "a/b", some (str "y"))] (str "a//b") =
        some (some [121, 0], some [120, 0]) ∧
      readAfter [(str "user/a", some (str "x")), (str "/a", some (str "y"))] (str "user/a") =
        some (none, some [120, 0]) := by
  decide +kernel

end Elektra.KeyMeta
