import Elektra.KeySet.CutExact

/-!
# Contents of keys

What a storage keeps of a key, and key sets that are read from a storage.

* `payload`, `Unchanged`: appending and cutting change no content;
* `Stored`, `readKeys`, **`readKeys_spec`**: a key set of new keys;
* `leftOver`, **`ksCut_leftOver`**: what `ksCut` leaves, as a list of keys.
-/

namespace Elektra

open Run

/-- The name, the value and the metadata. -/
abbrev Payload := Option Str × Option Str × List (Str × Str)

def payload (key : Key) : Payload := (key.key, key.data, key.metaKeys)

/-- The keys of `h` have their contents in `h'`, which may have more keys. -/
structure Unchanged (h h' : Heap) : Prop extends Keeps h h' where
  payload : ∀ k < h.next, payload (h'.cell k) = payload (h.cell k)

theorem Unchanged.refl (h : Heap) : Unchanged h h := ⟨Keeps.refl h, fun _ _ => rfl⟩

theorem unchanged_alloc (h : Heap) (key : Key) : Unchanged h (h.alloc key).2 := by
  exact ⟨keeps_alloc h key, fun k hk =>
    congrArg Elektra.payload (Function.update_of_ne (Nat.ne_of_lt hk) _ _)⟩

theorem Unchanged.trans {h h' h'' : Heap} (h1 : Unchanged h h') (h2 : Unchanged h' h'') :
    Unchanged h h'' :=
  ⟨h1.toKeeps.trans h2.toKeeps, fun k hk =>
    (h2.payload k (lt_of_lt_of_le hk h1.next)).trans (h1.payload k hk)⟩

theorem Unchanged.dup {h h' : Heap} (hh : Unchanged h h') {k : KeyRef} (hk : k < h.next) :
    keyDup (h'.cell k) = keyDup (h.cell k) := by
  have ha := hh.toKeeps.cell k hk
  have hp := hh.payload k hk
  simp only [Elektra.payload, Prod.mk.injEq] at hp
  rw [keyDup, keyDup, hp.1, hp.2.1, hp.2.2, ha.ukey, ha.keySize, ha.keyUSize]

/-- `ks` is valid, and shows the contents `f` under their names. -/
def Shows (h : Heap) (ks : KeySet) (f : Ident → Option Payload) : Prop :=
  ∃ m, ks.Holds h m ∧ ∀ id, (m id).map (fun k => payload (h.cell k)) = f id

theorem shows_of {h : Heap} {ks : KeySet} {m : Ident → Option KeyRef} (hks : ks.Holds h m)
    {cell : KeyRef → Key} (hident : ∀ k ∈ ks.array, h.ident k = ident (cell k))
    (hcontent : ∀ k ∈ ks.array, payload (h.cell k) = payload (cell k)) :
    Shows h ks fun id => (SortedArray.lookup ident (ks.array.map cell) id).map payload := by
  refine ⟨m, hks, fun id => ?_⟩
  have hfind : m id = ks.array.find? fun k => decide (ident (cell k) = id) := by
    rw [hks.map]
    exact List.find?_congr fun k hk => by rw [hident k hk]
  simp only [SortedArray.lookup, List.find?_map, Option.map_map, hfind]
  exact Option.map_congr fun k hk => hcontent k (List.mem_of_find?_eq_some hk)

theorem Shows.unchanged {h h' : Heap} {ks : KeySet}
    {f : Ident → Option Payload} (hs : Shows h ks f)
    (hh : Unchanged h h') : Shows h' ks f := by
  obtain ⟨m, hks, hf⟩ := hs
  refine ⟨m, hks.keeps hh.toKeeps, fun id => ?_⟩
  rw [← hf id]
  cases hm : m id with
  | none => rfl
  | some k => exact congrArg some (hh.payload k (hks.entry k (hks.mem.mp hm).1).lt)

theorem Shows.holds {h h' : Heap} {ks ks' : KeySet} {f : Ident → Option Payload}
    {m : Ident → Option KeyRef} (hs : Shows h ks f) (hks : ks.Holds h m) (hks' : ks'.Holds h' m)
    (hh : Unchanged h h') : Shows h' ks' f := by
  obtain ⟨m', hm, hf⟩ := hs.unchanged hh
  obtain rfl : m' = m := hm.map.trans (hks.keeps hh.toKeeps).map.symm
  exact ⟨m', hks', hf⟩

/-! ## What the operations leave -/

/-- Keys differ in the lock of their names and in references only. -/
def SameKeys (h h' : Heap) : Prop :=
  ∀ k, ∃ b r, h'.cell k = { h.cell k with roName := b, ksReference := r }

theorem SameKeys.refl (h : Heap) : SameKeys h h := fun k => ⟨(h.cell k).roName, (h.cell k).ksReference, rfl⟩

theorem SameKeys.trans {a b c : Heap} (h : SameKeys a b) (h' : SameKeys b c) : SameKeys a c := fun k => by
  obtain ⟨_, _, hb⟩ := h k
  obtain ⟨l, r, hc⟩ := h' k
  exact ⟨l, r, by rw [hc, hb]⟩

theorem sameKeys_set {h : Heap} {k : KeyRef} {b : Bool} {r : ℕ} :
    SameKeys h (h.set k { h.cell k with roName := b, ksReference := r }) := fun j => by
  by_cases hj : j = k
  · subst hj
    exact ⟨b, r, set_cell_self h j _⟩
  · exact ⟨_, _, set_cell_ne hj⟩

theorem sameKeys_del (h : Heap) (k : KeyRef) : SameKeys h (keyDel h k) := by
  unfold keyDel
  split_ifs
  · exact SameKeys.refl h
  · exact SameKeys.refl h

theorem sameKeys_drop (h : Heap) (k : KeyRef) : SameKeys h (keyDel (keyDecRef h k) k) :=
  SameKeys.trans (b := keyDecRef h k) sameKeys_set (sameKeys_del _ k)

theorem sameKeys_appendKey (h : Heap) (ks : KeySet) (k : KeyRef) : SameKeys h (ksAppendKey h ks k).2.1 := by
  have hlock : SameKeys h (elektraKeyLock h k) := sameKeys_set
  have hinc : ∀ (h : Heap) k, SameKeys h (keyIncRef h k) := fun _ _ => sameKeys_set
  unfold ksAppendKey
  dsimp only
  split_ifs
  · exact sameKeys_del h k
  · exact hlock
  · exact hlock.trans ((sameKeys_drop _ _).trans (hinc _ _))
  all_goals exact hlock.trans (hinc _ _)

theorem sameKeys_appendLoop : ∀ (l : List KeyRef) (h : Heap) (ks : KeySet), SameKeys h (ksAppendLoop h ks l).1
  | [], h, _ => .refl h
  | k :: l, h, ks => (sameKeys_appendKey h ks k).trans (sameKeys_appendLoop l _ _)

theorem sameKeys_append (h : Heap) (ks toAppend : KeySet) : SameKeys h (ksAppend h ks toAppend).2.1 := by
  unfold ksAppend
  split_ifs
  · exact .refl h
  · exact sameKeys_appendLoop _ _ _

theorem sameKeys_new (h : Heap) (alloc : ℕ) (keys : List KeyRef) : SameKeys h (ksNew h alloc keys).1 := by
  obtain ⟨ks, he⟩ := ksNew_fst h alloc keys
  rw [he]
  exact sameKeys_appendLoop _ _ _

theorem sameKeys_close : ∀ (l : List KeyRef) (h : Heap), SameKeys h (closeLoop h l)
  | [], h => .refl h
  | k :: l, h => (sameKeys_drop h k).trans (sameKeys_close l _)

/-! ## Metadata -/

/-- The keys have the same metadata. -/
def SameMeta (h h' : Heap) : Prop := ∀ k, (h'.cell k).metaKeys = (h.cell k).metaKeys

theorem SameKeys.sameMeta {h h' : Heap} (hs : SameKeys h h') : SameMeta h h' := fun k => by
  obtain ⟨_, _, hk⟩ := hs k
  rw [hk]

theorem SameMeta.trans {h h' h'' : Heap} (h1 : SameMeta h h') (h2 : SameMeta h' h'') : SameMeta h h'' :=
  fun k => (h2 k).trans (h1 k)

theorem SameMeta.unchanged {h h' : Heap} (hm : SameMeta h h') (hh : Keeps h h') : Unchanged h h' :=
  ⟨hh, fun k hk => by rw [Elektra.payload, Elektra.payload, hm k, (hh.cell k hk).data, (hh.cell k hk).key]⟩

theorem sameMeta_set {h : Heap} {c : KeyRef} {key : Key} (hkey : key.metaKeys = (h.cell c).metaKeys) :
    SameMeta h (h.set c key) := by
  intro k
  by_cases hk : k = c
  · rw [hk, set_cell_self, hkey]
  · rw [set_cell_ne hk]

theorem sameMeta_cutRound (cutpoint : KeyRef) (name : Str) (st : Heap × KeySet × KeySet)
    (ns : Namespace) : SameMeta st.1 (cutRound cutpoint name st ns).1 := by
  obtain ⟨h, ks, ret⟩ := st
  have hset : SameMeta h (h.set cutpoint (elektraFinalizeName (h.cell cutpoint) (cutName ns name))) :=
    sameMeta_set rfl
  unfold cutRound
  dsimp only
  generalize h.set cutpoint (elektraFinalizeName (h.cell cutpoint) (cutName ns name)) = h₁ at hset ⊢
  have hcut := (ksCutBelow_spec h₁ ks cutpoint).1
  generalize ksCutBelow h₁ ks cutpoint = cut at hcut ⊢
  obtain ⟨h₂, ks', n⟩ := cut
  simp only at hcut ⊢
  subst hcut
  exact hset.trans ((sameKeys_append _ _ _).trans (sameKeys_close _ _)).sameMeta

theorem sameMeta_cutRounds (cutpoint : KeyRef) (name : Str) : ∀ (l : List Namespace)
    (st : Heap × KeySet × KeySet), SameMeta st.1 (l.foldl (cutRound cutpoint name) st).1
  | [], _ => fun _ => rfl
  | ns :: l, st =>
    (sameMeta_cutRound cutpoint name st ns).trans (sameMeta_cutRounds cutpoint name l _)

theorem sameMeta_cut (h : Heap) (ks : KeySet) (cutpoint : KeyRef) :
    SameMeta h (ksCut h ks cutpoint).1 := by
  cases hn : (h.cell cutpoint).key with
  | none =>
    have hcut : ksCut h ks cutpoint = (h, ks, none) := by
      unfold ksCut
      rw [hn]
    rw [hcut]
    exact fun _ => rfl
  | some name =>
    by_cases hc : name.head? = some pathSeparator
    · rw [ksCut_cascading hn hc]
      have hrounds := sameMeta_cutRounds cutpoint name namespaces (cutStart h ks)
      generalize namespaces.foldl (cutRound cutpoint name) (cutStart h ks) = st at hrounds ⊢
      exact SameMeta.trans hrounds (sameMeta_set rfl)
    · rw [ksCut_below hn hc, (ksCutBelow_spec h ks cutpoint).1]
      exact fun _ => rfl

theorem unchanged_append (h : Heap) (ks toAppend : KeySet) : Unchanged h (ksAppend h ks toAppend).2.1 :=
  (sameKeys_append h ks toAppend).sameMeta.unchanged (keeps_append h ks toAppend)

theorem unchanged_new (h : Heap) (alloc : ℕ) (keys : List KeyRef) : Unchanged h (ksNew h alloc keys).1 :=
  (sameKeys_new h alloc keys).sameMeta.unchanged (keeps_new h alloc keys)

theorem unchanged_del (h : Heap) (ks : KeySet) : Unchanged h (ksDel h ks) :=
  (sameKeys_close ks.array h).sameMeta.unchanged (keeps_close ks.array h)

theorem unchanged_clear (h : Heap) (ks : KeySet) : Unchanged h (ksClear h ks).1 :=
  unchanged_del h ks

theorem Shows.append {h : Heap} {ks ks' : KeySet}
    {f f' : Ident → Option Payload} (hs : Shows h ks f)
    (hs' : Shows h ks' f') :
    Shows (ksAppend h ks ks').2.1 (ksAppend h ks ks').2.2 fun id => (f' id).or (f id) := by
  have hh := unchanged_append h ks ks'
  obtain ⟨m, hks, hf⟩ := hs
  obtain ⟨m', hks', hf'⟩ := hs'
  refine ⟨_, ksAppend_holds hks hks', fun id => ?_⟩
  simp only [← hf, ← hf']
  cases hm' : m' id with
  | some k => exact congrArg some (hh.payload k (hks'.entry k (hks'.mem.mp hm').1).lt)
  | none =>
    cases hm : m id with
    | some k => exact congrArg some (hh.payload k (hks.entry k (hks.mem.mp hm).1).lt)
    | none => rfl

theorem shows_empty (h : Heap) (alloc : ℕ) : Shows (ksNew h alloc []).1 (ksNew h alloc []).2 fun _ => none := by
  refine ⟨_, ksNew_holds alloc (by simp), fun id => ?_⟩
  rw [ite_self]
  rfl

theorem Shows.lookup {h : Heap} {ks : KeySet}
    {f : Ident → Option Payload} (hs : Shows h ks f) :
    SortedArray.Sorted ident identCmp (ks.array.map h.cell) ∧
      ∀ id, (SortedArray.lookup ident (ks.array.map h.cell) id).map payload = f id := by
  obtain ⟨m, hks, hf⟩ := hs
  refine ⟨List.pairwise_map.mpr hks.sorted, fun id => ?_⟩
  rw [← hf id, hks.map, SortedArray.lookup, List.find?_map, Option.map_map]
  rfl

/-! ## New keys -/

/-- A key has a name. -/
def Storable (key : Key) : Prop := key.key ≠ none ∧ Sized key

instance (key : Key) : Decidable (Storable key) :=
  inferInstanceAs (Decidable (key.key ≠ none ∧ key.keyUSize = key.ukey.length))

/-- The keys of a storage, in their order. -/
structure Stored where
  keys : List Key
  sorted : SortedArray.Sorted ident identCmp keys
  named : ∀ key ∈ keys, Storable key

/-- New keys. -/
def Heap.addKeys (h : Heap) (keys : List Key) : Heap :=
  { h with
    cell := fun k => if k < h.next then h.cell k else keys.getD (k - h.next) (h.cell k)
    next := h.next + keys.length }

/-- A key set of new keys. -/
def readKeys (h : Heap) (keys : List Key) : Heap × KeySet :=
  ksNew (h.addKeys keys) keys.length (List.range' h.next keys.length)

section Read

variable {h : Heap} {keys : List Key}

theorem addKeys_old {k : KeyRef} (hk : k < h.next) : (h.addKeys keys).cell k = h.cell k := if_pos hk

theorem addKeys_new {i : ℕ} (hi : i < keys.length) :
    (h.addKeys keys).cell (h.next + i) = keys[i] := by
  have hnew : ¬ h.next + i < h.next := Nat.not_lt.mpr (Nat.le_add_right _ _)
  refine (if_neg hnew).trans ?_
  rw [Nat.add_sub_cancel_left, List.getD_eq_getElem?_getD, List.getElem?_eq_getElem hi]
  rfl

theorem mem_addKeys {k : KeyRef} (hk : k ∈ List.range' h.next keys.length) :
    (h.addKeys keys).cell k ∈ keys ∧ k < (h.addKeys keys).next := by
  obtain ⟨i, hi, rfl⟩ := List.mem_range'.mp hk
  rw [Nat.one_mul, addKeys_new hi]
  exact ⟨List.getElem_mem hi, Nat.add_lt_add_left hi _⟩

theorem entry_addKeys (hkeys : ∀ key ∈ keys, Storable key) {k : KeyRef}
    (hk : k ∈ List.range' h.next keys.length) : Entry (h.addKeys keys) k := by
  obtain ⟨hmem, hlt⟩ := mem_addKeys hk
  exact ⟨hlt, (hkeys _ hmem).1, (hkeys _ hmem).2⟩

theorem unchanged_addKeys (h : Heap) (keys : List Key) : Unchanged h (h.addKeys keys) where
  next := Nat.le_add_right _ _
  cell k hk := by
    rw [addKeys_old hk]
    exact Alike.refl _
  payload k hk := by rw [addKeys_old hk]

theorem unchanged_read (h : Heap) (keys : List Key) : Unchanged h (readKeys h keys).1 :=
  (unchanged_addKeys h keys).trans (unchanged_new _ _ _)

theorem map_addKeys (h : Heap) (keys : List Key) :
    (List.range' h.next keys.length).map (h.addKeys keys).cell = keys := by
  refine List.ext_getElem (by rw [List.length_map, List.length_range']) fun i h₁ h₂ => ?_
  rw [List.getElem_map, List.getElem_range', Nat.one_mul, addKeys_new h₂]

theorem sorted_map {h : Heap} {refs : List KeyRef} :
    SortedArray.Sorted ident identCmp (refs.map h.cell) ↔ SortedArray.Sorted h.ident identCmp refs :=
  List.pairwise_map

/-- **A key set that was read has the keys of the storage**, which are new. -/
theorem readKeys_spec (h : Heap) (s : Stored) :
    (∃ m, (readKeys h s.keys).2.Holds (readKeys h s.keys).1 m) ∧
      (readKeys h s.keys).2.array = List.range' h.next s.keys.length ∧
      (readKeys h s.keys).2.array.map (h.addKeys s.keys).cell = s.keys := by
  have hmap := map_addKeys h s.keys
  have hsorted : SortedArray.Sorted (h.addKeys s.keys).ident identCmp
      (List.range' h.next s.keys.length) := sorted_map.mp (by rw [hmap]; exact s.sorted)
  have hentry : ∀ k ∈ List.range' h.next s.keys.length, Entry (h.addKeys s.keys) k :=
    fun k hk => entry_addKeys s.named hk
  have hks := ksNew_holds s.keys.length hentry
  have hrefs : (if s.keys.length = 0 then [] else List.range' h.next s.keys.length) =
      List.range' h.next s.keys.length := by
    split_ifs with h0
    · rw [h0]
      rfl
    · rfl
  rw [hrefs] at hks
  have harray : (readKeys h s.keys).2.array = List.range' h.next s.keys.length := by
    have hkeeps := keeps_new (h.addKeys s.keys) s.keys.length (List.range' h.next s.keys.length)
    have hident : ∀ k ∈ List.range' h.next s.keys.length,
        (readKeys h s.keys).1.ident k = (h.addKeys s.keys).ident k :=
      fun k hk => hkeeps.ident (hentry k hk).lt
    have hmem : ∀ {k id}, k ∈ (readKeys h s.keys).2.array ∧ (readKeys h s.keys).1.ident k = id ↔
        k ∈ List.range' h.next s.keys.length ∧ (h.addKeys s.keys).ident k = id := by
      intro k id
      refine hks.mem.symm.trans ?_
      rw [← SortedArray.lookup_eq_some hsorted]
      have hfold := SortedArray.foldl_update hsorted fun _ => none
      simp only [Option.or_none] at hfold
      rw [appendAll, hfold]
    refine hks.sorted.eq_of_mem (hsorted.congr hident) fun k => ⟨fun hk => ?_, fun hk => ?_⟩
    · exact (hmem.mp ⟨hk, rfl⟩).1
    · exact (hmem.mpr ⟨hk, (hident k hk).symm⟩).1
  exact ⟨⟨_, hks⟩, harray, by rw [harray, hmap]⟩

theorem shows_read (h : Heap) (s : Stored) :
    Shows (readKeys h s.keys).1 (readKeys h s.keys).2 fun id =>
      (SortedArray.lookup ident s.keys id).map payload := by
  obtain ⟨⟨m, hks⟩, harray, hmap⟩ := readKeys_spec h s
  have hnew := unchanged_new (h.addKeys s.keys) s.keys.length (List.range' h.next s.keys.length)
  have hlt : ∀ k ∈ (readKeys h s.keys).2.array, k < (h.addKeys s.keys).next := by
    intro k hk
    rw [harray] at hk
    obtain ⟨i, hi, rfl⟩ := List.mem_range'.mp hk
    exact Nat.add_lt_add_left (by omega) _
  have hshows := shows_of hks (fun k hk => hnew.toKeeps.ident (hlt k hk))
    fun k hk => hnew.payload k (hlt k hk)
  rwa [hmap] at hshows

end Read

/-! ## What is left over -/

section Lists

variable {α β : Type} {p q : α → Bool}

theorem dropWhile_congr : ∀ {l : List α}, (∀ a ∈ l, p a = q a) → l.dropWhile p = l.dropWhile q
  | [], _ => rfl
  | a :: l, h => by
    rw [List.dropWhile_cons, List.dropWhile_cons, h a List.mem_cons_self,
      dropWhile_congr fun b hb => h b (List.mem_cons_of_mem a hb)]

theorem besides_congr {l : List α} (h : ∀ a ∈ l, p a = q a) : besides p l = besides q l := by
  have hnot : ∀ a ∈ l, (!p a) = !q a := fun a ha => by rw [h a ha]
  rw [besides, besides, takeWhile_congr hnot, dropWhile_congr hnot]
  exact congrArg _ (dropWhile_congr fun a ha => h a ((List.dropWhile_sublist _).subset ha))

theorem besides_map (p : β → Bool) (f : α → β) (l : List α) :
    besides p (l.map f) = (besides (p ∘ f) l).map f := by
  rw [besides, besides, List.takeWhile_map, List.dropWhile_map, List.dropWhile_map, List.map_append]
  rfl

end Lists

/-- The keys have one name. -/
structure SameName (a b : Key) : Prop where
  key : b.key = a.key
  ukey : b.ukey = a.ukey
  keySize : b.keySize = a.keySize
  keyUSize : b.keyUSize = a.keyUSize

theorem SameName.unescaped {a b : Key} (h : SameName a b) : keyUnescapedName b = keyUnescapedName a := by
  unfold keyUnescapedName
  rw [h.key, h.ukey]

theorem keyIsBelowOrSame_congr {a a' b b' : Key} (ha : SameName a a') (hb : SameName b b') :
    keyIsBelowOrSame a' b' = keyIsBelowOrSame a b := by
  have hname : keyName a' = keyName a := by rw [keyName, keyName, ha.key]
  have hname' : keyName b' = keyName b := by rw [keyName, keyName, hb.key]
  simp only [keyIsBelowOrSame, keyIsBelow, hname, hname', ha.unescaped, hb.unescaped, ha.keySize,
    hb.keySize, ha.keyUSize, hb.keyUSize]

theorem SameName.trans {a b c : Key} (h : SameName a b) (h' : SameName b c) : SameName a c :=
  ⟨h'.key.trans h.key, h'.ukey.trans h.ukey, h'.keySize.trans h.keySize, h'.keyUSize.trans h.keyUSize⟩

theorem Alike.sameName {a b : Key} (h : Alike a b) : SameName a b := ⟨h.key, h.ukey, h.keySize, h.keyUSize⟩

theorem sameName_finalize (a b : Key) (name : Str) :
    SameName (elektraFinalizeName a name) (elektraFinalizeName b name) := ⟨rfl, rfl, rfl, rfl⟩

/-- The tests of `ksCut`, which are one in each namespace for a cascading cutpoint. -/
def cutTests (cutpoint : Key) : List (Key → Bool) :=
  if Cascading cutpoint then
    namespaces.map fun ns =>
      keyIsBelowOrSame (elektraFinalizeName cutpoint (cutName ns (keyName cutpoint)))
  else [keyIsBelowOrSame cutpoint]

/-- The keys that `ksCut` leaves: each test takes the first run of those that meet it. -/
def leftOver (cutpoint : Key) (keys : List Key) : List Key :=
  (cutTests cutpoint).foldl (fun keys test => besides test keys) keys

section LeftOver

variable {h : Heap} {ks : KeySet} {m : Ident → Option KeyRef} {cutpoint : KeyRef} {cell : KeyRef → Key}

theorem cutRounds_leftOver (hcell : ∀ k ∈ ks.array, SameName (cell k) (h.cell k)) (hks : ks.Holds h m) (hc : cutpoint ∉ ks.array) (hlt : cutpoint < h.next)
    (name : Str) : ∀ (l : List Namespace) {st : Heap × KeySet × KeySet}, CutState h ks cutpoint st →
    (l.foldl (cutRound cutpoint name) st).2.1.array = l.foldl (fun refs ns => besides (fun k =>
      keyIsBelowOrSame (elektraFinalizeName (h.cell cutpoint) (cutName ns name)) (cell k)) refs)
        st.2.1.array
  | [], _, _ => rfl
  | ns :: l, st, hst => by
    rw [List.foldl_cons, List.foldl_cons,
      cutRounds_leftOver hcell hks hc hlt name l (cutRound_state hks hc hlt hst name ns).1, cutRound_rest]
    congr 1
    refine besides_congr fun k hk => ?_
    have hne : k ≠ cutpoint := hst.ne hc (Or.inl hk)
    have hk := hst.rest.subset hk
    have hname := (hcell k hk).trans (hst.cell k (hks.entry k hk).lt hne).sameName
    rw [roundTest, cutTest, set_cell_self, set_cell_ne hne]
    exact keyIsBelowOrSame_congr (sameName_finalize _ _ _) hname

/-- **What `ksCut` leaves**, by the keys. -/
theorem ksCut_leftOver (hcell : ∀ k ∈ ks.array, SameName (cell k) (h.cell k)) (hks : ks.Holds h m)
    (he : Entry h cutpoint) (hc : cutpoint ∉ ks.array) :
    (ksCut h ks cutpoint).2.1.array.map cell = leftOver (h.cell cutpoint) (ks.array.map cell) := by
  obtain ⟨name, hn⟩ := Option.ne_none_iff_exists'.mp he.named
  have hname : keyName (h.cell cutpoint) = name := by rw [keyName, hn]; rfl
  by_cases hcas : name.head? = some pathSeparator
  · have hcascading : Cascading (h.cell cutpoint) := by rw [Cascading, hname, hcas]
    rw [ksCut_cascading hn hcas, leftOver, cutTests, if_pos hcascading, hname, List.foldl_map]
    dsimp only
    rw [cutRounds_leftOver hcell hks hc he.lt name namespaces cutStart_state]
    change List.map _ (List.foldl _ ks.array namespaces) = _
    generalize ks.array = refs
    induction namespaces generalizing refs with
    | nil => rfl
    | cons ns l ih =>
      rw [List.foldl_cons, List.foldl_cons, ih, besides_map]
      rfl
  · have hns : ¬Cascading (h.cell cutpoint) := by rw [Cascading, hname]; exact hcas
    have htest : ∀ k ∈ ks.array,
        cutTest h cutpoint k = keyIsBelowOrSame (h.cell cutpoint) (cell k) := fun k hk =>
      keyIsBelowOrSame_congr ⟨rfl, rfl, rfl, rfl⟩ (hcell k hk)
    rw [ksCut_below hn hcas, leftOver, cutTests, if_neg hns]
    dsimp only
    rw [(ksCutBelow_spec h ks cutpoint).2.1, List.foldl_cons, List.foldl_nil, besides_map,
      besides_congr htest]
    rfl

/-- What `ksCut` leaves and what it takes, by the keys. -/
structure CutParts (h : Heap) (ks : KeySet) (cutpoint : KeyRef) (m : Ident → Option KeyRef)
    (cell : KeyRef → Key) (returned : KeySet) : Prop where
  ret : (ksCut h ks cutpoint).2.2 = some returned
  unchanged : Unchanged h (ksCut h ks cutpoint).1
  rest : (ksCut h ks cutpoint).2.1.Holds (ksCut h ks cutpoint).1 fun id =>
    (m id).filter (· ∉ returned.array)
  taken : returned.Holds (ksCut h ks cutpoint).1 fun id => (m id).filter (· ∈ returned.array)
  left : (ksCut h ks cutpoint).2.1.array.map cell = leftOver (h.cell cutpoint) (ks.array.map cell)
  took : returned.array.map cell =
    (ks.array.map cell).filter (· ∉ leftOver (h.cell cutpoint) (ks.array.map cell))

theorem CutParts.rest_subset {returned : KeySet} (hp : CutParts h ks cutpoint m cell returned)
    (hks : ks.Holds h m) : ∀ k ∈ (ksCut h ks cutpoint).2.1.array, k ∈ ks.array := fun _ hk =>
  (hks.mem.mp (Option.filter_eq_some_iff.mp (hp.rest.of_mem hk)).1).1

theorem CutParts.taken_subset {returned : KeySet} (hp : CutParts h ks cutpoint m cell returned)
    (hks : ks.Holds h m) : ∀ k ∈ returned.array, k ∈ ks.array := fun _ hk =>
  (hks.mem.mp (Option.filter_eq_some_iff.mp (hp.taken.of_mem hk)).1).1

theorem CutParts.or (returned : KeySet) (m : Ident → Option KeyRef) :
    (fun id => ((m id).filter (· ∈ returned.array)).or ((m id).filter (· ∉ returned.array))) = m := by
  funext id
  cases m id with
  | none => rfl
  | some k => by_cases hk : k ∈ returned.array <;> simp [hk]

theorem ksCut_parts (hks : ks.Holds h m) (he : Entry h cutpoint) (hc : cutpoint ∉ ks.array)
    (hcell : ∀ k ∈ ks.array, SameName (cell k) (h.cell k) ∧ ident (cell k) = h.ident k) :
    ∃ returned, CutParts h ks cutpoint m cell returned := by
  obtain ⟨returned, hret, hkeeps, hnext, hrest, htaken⟩ := ksCut_spec hks he fun _ => hc
  have hleft := ksCut_leftOver (fun k hk => (hcell k hk).1) hks he hc
  refine ⟨returned, hret, (sameMeta_cut h ks cutpoint).unchanged hkeeps, hrest, htaken, hleft, ?_⟩
  have hrestmem : ∀ k ∈ ks.array, k ∈ (ksCut h ks cutpoint).2.1.array ↔ k ∉ returned.array := by
    intro k hk
    refine ((and_iff_left (hkeeps.ident (hks.entry k hk).lt)).symm.trans hrest.mem.symm).trans ?_
    simp [hks.of_mem hk]
  have harray : returned.array = ks.array.filter fun k => k ∉ (ksCut h ks cutpoint).2.1.array := by
    refine htaken.sorted.eq_of_mem ((hks.sorted.sublist List.filter_sublist).congr fun k hk =>
      hkeeps.ident (hks.entry k (List.mem_of_mem_filter hk)).lt) fun k => ?_
    rw [List.mem_filter, decide_eq_true_iff]
    constructor
    · intro hk
      have hmem := (hks.mem.mp (Option.filter_eq_some_iff.mp (htaken.of_mem hk)).1).1
      exact ⟨hmem, fun hr => (hrestmem k hmem).mp hr hk⟩
    · rintro ⟨hk, hr⟩
      by_contra hn
      exact hr ((hrestmem k hk).mpr hn)
  have hinj : ∀ k ∈ ks.array, k ∈ (ksCut h ks cutpoint).2.1.array ↔
      cell k ∈ (ksCut h ks cutpoint).2.1.array.map cell := by
    refine fun k hk => ⟨List.mem_map_of_mem, fun hmap => ?_⟩
    obtain ⟨j, hj, heq⟩ := List.mem_map.mp hmap
    have hj' := (hks.mem.mp (Option.filter_eq_some_iff.mp (hrest.of_mem hj)).1).1
    have hid : h.ident j = h.ident k := by rw [← (hcell j hj').2, ← (hcell k hk).2, heq]
    obtain rfl : j = k := Option.some.inj ((hks.of_mem hj').symm.trans (hid ▸ hks.of_mem hk))
    exact hj
  rw [← hleft, List.filter_map, harray]
  refine congrArg _ (List.filter_congr fun k hk => ?_)
  simp only [Function.comp_apply, hinj k hk]

theorem KeySet.Holds.array_eq {h' : Heap} {ks' : KeySet} (hks : ks.Holds h m) (hks' : ks'.Holds h' m)
    (hh : Keeps h h') : ks'.array = ks.array := by
  have hmem := hks.keeps hh
  refine hks'.sorted.eq_of_mem hmem.sorted fun k => ⟨fun hk => ?_, fun hk => ?_⟩
  · exact (hmem.mem.mp (hks'.of_mem hk)).1
  · exact (hks'.mem.mp (hmem.of_mem hk)).1

theorem sameName_of_dup {a b : Key} (h : keyDup b = keyDup a) : SameName a b := by
  have hdup : SameName (keyDup a) (keyDup b) := by
    rw [h]
    exact ⟨rfl, rfl, rfl, rfl⟩
  exact ⟨hdup.key, hdup.ukey, hdup.keySize, hdup.keyUSize⟩

theorem ident_of_dup {a b : Key} (h : keyDup b = keyDup a) : ident b = ident a := by
  change ident (keyDup b) = ident (keyDup a)
  rw [h]

theorem alloc_cell (h : Heap) (key : Key) : (h.alloc key).2.cell h.next = key := Function.update_self _ _ _

theorem alloc_fst (h : Heap) (key : Key) : (h.alloc key).1 = h.next := rfl

theorem ksCut_new {key : Key} (hks : ks.Holds h m) (hkey : Storable key)
    (hcell : ∀ k ∈ ks.array, keyDup (h.cell k) = keyDup (cell k)) :
    ∃ returned, CutParts (h.alloc key).2 ks h.next m cell returned := by
  have halloc := unchanged_alloc h key
  have hdup : ∀ k ∈ ks.array, keyDup ((h.alloc key).2.cell k) = keyDup (cell k) :=
    fun k hk => (halloc.dup (hks.entry k hk).lt).trans (hcell k hk)
  have hentry : Entry (h.alloc key).2 h.next :=
    ⟨Nat.lt_succ_self _, by rw [alloc_cell]; exact hkey.1, by rw [alloc_cell]; exact hkey.2⟩
  have hnot : h.next ∉ ks.array := fun hk => Nat.lt_irrefl _ (hks.entry _ hk).lt
  exact ksCut_parts (hks.keeps halloc.toKeeps) hentry hnot fun k hk =>
    ⟨sameName_of_dup (hdup k hk), (ident_of_dup (hdup k hk)).symm⟩

theorem mem_appendAll {ident : KeyRef → Ident} : ∀ {l : List KeyRef} {m : Ident → Option KeyRef}
    {id : Ident} {k : KeyRef}, appendAll ident m l id = some k → k ∈ l ∨ m id = some k
  | [], _, _, _, h => .inr h
  | j :: l, m, id, k, h => by
    obtain hk | hk := @mem_appendAll ident l _ id k h
    · exact .inl (List.mem_cons_of_mem j hk)
    · dsimp only at hk
      by_cases hid : id = ident j
      · rw [hid, Function.update_self] at hk
        exact .inl (Option.some.inj hk ▸ List.mem_cons_self)
      · rw [Function.update_of_ne hid] at hk
        exact .inr hk

theorem shows_cut (hks : ks.Holds h m) (he : Entry h cutpoint) (hc : cutpoint ∉ ks.array)
    (hcell : ∀ k ∈ ks.array, Alike (cell k) (h.cell k) ∧ payload (h.cell k) = payload (cell k)) :
    ∃ returned, (ksCut h ks cutpoint).2.2 = some returned ∧
      Unchanged h (ksCut h ks cutpoint).1 ∧
      Shows (ksCut h ks cutpoint).1 (ksCut h ks cutpoint).2.1 fun id =>
        (SortedArray.lookup ident (leftOver (h.cell cutpoint) (ks.array.map cell)) id).map payload := by
  obtain ⟨returned, hret, hkeeps, hnext, hrest, -⟩ := ksCut_spec hks he fun _ => hc
  have hh := (sameMeta_cut h ks cutpoint).unchanged hkeeps
  have hold : ∀ k ∈ (ksCut h ks cutpoint).2.1.array, k ∈ ks.array ∧ k < h.next := by
    intro k hk
    obtain ⟨hm, -⟩ := Option.filter_eq_some_iff.mp (hrest.of_mem hk)
    exact ⟨(hks.mem.mp hm).1, (hks.entry k (hks.mem.mp hm).1).lt⟩
  refine ⟨returned, hret, hh, ?_⟩
  rw [← ksCut_leftOver (fun k hk => (hcell k hk).1.sameName) hks he hc]
  refine shows_of hrest (fun k hk => ?_) fun k hk => ?_
  · obtain ⟨hk, hlt⟩ := hold k hk
    exact (hh.toKeeps.ident hlt).trans (hcell k hk).1.ident
  · obtain ⟨hk, hlt⟩ := hold k hk
    exact (hh.payload k hlt).trans (hcell k hk).2

theorem mem_leftOver {cutpoint key : Key} {keys : List Key} (hk : key ∈ keys)
    (htest : ∀ test ∈ cutTests cutpoint, test key = false) : key ∈ leftOver cutpoint keys := by
  unfold leftOver
  generalize cutTests cutpoint = tests at htest
  induction tests generalizing keys with
  | nil => exact hk
  | cons test tests ih =>
    exact ih (mem_besides hk (htest test List.mem_cons_self))
      fun t ht => htest t (List.mem_cons_of_mem test ht)

end LeftOver

end Elektra
