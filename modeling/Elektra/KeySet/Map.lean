import Elektra.KeySet.Model

/-!
# Key sets as finite maps

A key set holds a finite map from identities (unescaped name and owner) to keys: its array is
strictly sorted by identity, its members are valid keys with a locked name, and there is room for
the NULL that ends the array.

* `Alike`, `Keeps`: what keys keep while key sets work on them;
* `Entry`, `KeySet.Holds`;
* **`ksAppendKey_holds`**, `ksAppend_holds`, `ksNew_holds`, `ksDup_holds`, `ksCopy_holds`,
  **`ksPop_holds`**, `elektraKsPopAtCursor_holds`, `ksResize_holds`.
-/

namespace Elektra

/-! ## What keys keep -/

/-- The metadata that lookups write. -/
def isCallbackMeta (metaName : Str) : Bool := (str "callback/").isPrefixOf metaName

/-- `dest` is `source` but for flags, references and the metadata below `callback`; its name stays
locked. -/
structure Alike (source dest : Key) : Prop where
  data : dest.data = source.data
  key : dest.key = source.key
  ukey : dest.ukey = source.ukey
  keySize : dest.keySize = source.keySize
  keyUSize : dest.keyUSize = source.keyUSize
  roName : source.roName = true → dest.roName = true
  getMeta : ∀ m, isCallbackMeta m = false → keyGetMeta dest m = keyGetMeta source m

theorem Alike.refl (key : Key) : Alike key key := ⟨rfl, rfl, rfl, rfl, rfl, id, fun _ _ => rfl⟩

theorem Alike.trans {a b c : Key} (h : Alike a b) (h' : Alike b c) : Alike a c where
  data := h'.data.trans h.data
  key := h'.key.trans h.key
  ukey := h'.ukey.trans h.ukey
  keySize := h'.keySize.trans h.keySize
  keyUSize := h'.keyUSize.trans h.keyUSize
  roName := h'.roName ∘ h.roName
  getMeta m hm := (h'.getMeta m hm).trans (h.getMeta m hm)

theorem Alike.ident {key key' : Key} (h : Alike key key') : ident key' = ident key := by
  rw [Elektra.ident, Elektra.ident, h.ukey, h.getMeta _ rfl]

/-- All keys of `h` are kept in `h'`, which may have more. -/
structure Keeps (h h' : Heap) : Prop where
  next : h.next ≤ h'.next
  cell : ∀ k < h.next, Alike (h.cell k) (h'.cell k)

theorem Keeps.refl (h : Heap) : Keeps h h := ⟨le_rfl, fun _ _ => Alike.refl _⟩

theorem Keeps.trans {h h' h'' : Heap} (h1 : Keeps h h') (h2 : Keeps h' h'') : Keeps h h'' :=
  ⟨h1.next.trans h2.next,
    fun k hk => (h1.cell k hk).trans (h2.cell k (lt_of_lt_of_le hk h1.next))⟩

theorem set_cell_ne {h : Heap} {c k : KeyRef} {key : Key} (hk : k ≠ c) :
    (h.set c key).cell k = h.cell k := Function.update_of_ne hk _ _

theorem set_cell_self (h : Heap) (c : KeyRef) (key : Key) : (h.set c key).cell c = key :=
  Function.update_self _ _ _

theorem keeps_set {h : Heap} {k : KeyRef} {key : Key} (hk : Alike (h.cell k) key) :
    Keeps h (h.set k key) := by
  refine ⟨le_rfl, fun i _ => ?_⟩
  by_cases hi : i = k
  · subst hi
    rw [set_cell_self]
    exact hk
  · rw [set_cell_ne hi]
    exact Alike.refl _

theorem keeps_alloc (h : Heap) (key : Key) : Keeps h (h.alloc key).2 := by
  refine ⟨Nat.le_succ _, fun i hi => ?_⟩
  simpa [Heap.alloc, hi.ne] using Alike.refl _

theorem keeps_del (h : Heap) (k : KeyRef) : Keeps h (keyDel h k) := by
  rw [keyDel]
  split_ifs
  · exact Keeps.refl h
  · exact ⟨le_rfl, fun _ _ => Alike.refl _⟩

theorem keeps_incRef (h : Heap) (k : KeyRef) : Keeps h (keyIncRef h k) :=
  keeps_set ⟨rfl, rfl, rfl, rfl, rfl, id, fun _ _ => rfl⟩

theorem keeps_decRef (h : Heap) (k : KeyRef) : Keeps h (keyDecRef h k) :=
  keeps_set ⟨rfl, rfl, rfl, rfl, rfl, id, fun _ _ => rfl⟩

theorem keeps_lock (h : Heap) (k : KeyRef) : Keeps h (elektraKeyLock h k) :=
  keeps_set ⟨rfl, rfl, rfl, rfl, rfl, fun _ => rfl, fun _ _ => rfl⟩

@[simp] theorem next_del (h : Heap) (k : KeyRef) : (keyDel h k).next = h.next := by
  rw [keyDel]
  split_ifs <;> rfl

@[simp] theorem next_incRef (h : Heap) (k : KeyRef) : (keyIncRef h k).next = h.next := rfl
@[simp] theorem next_decRef (h : Heap) (k : KeyRef) : (keyDecRef h k).next = h.next := rfl
@[simp] theorem next_lock (h : Heap) (k : KeyRef) : (elektraKeyLock h k).next = h.next := rfl

/-- `dest` is `source` under another name. -/
def Renamed (source dest : Key) : Prop := Alike source (restoreName dest source)

theorem Renamed.refl (key : Key) : Renamed key key := Alike.refl key

theorem Renamed.alike {source dest dest' : Key} (h : Renamed source dest) (ha : Alike dest dest') :
    Renamed source dest' where
  data := ha.data.trans h.data
  key := rfl
  ukey := rfl
  keySize := rfl
  keyUSize := rfl
  roName := ha.roName ∘ h.roName
  getMeta m hm := (ha.getMeta m hm).trans (h.getMeta m hm)

theorem Renamed.finalize {source dest : Key} (h : Renamed source dest) (name : Str) :
    Renamed source (elektraFinalizeName dest name) :=
  ⟨h.data, rfl, rfl, rfl, rfl, h.roName, h.getMeta⟩

/-! ## Valid key sets -/

/-- What a key is found by. -/
def Heap.ident (h : Heap) (k : KeyRef) : Ident := Elektra.ident (h.cell k)

theorem Keeps.ident {h h' : Heap} (hh : Keeps h h') {k : KeyRef} (hk : k < h.next) :
    h'.ident k = h.ident k := (hh.cell k hk).ident

/-- A key with a name. -/
structure Entry (h : Heap) (k : KeyRef) : Prop where
  lt : k < h.next
  named : (h.cell k).key ≠ none
  sized : Sized (h.cell k)

theorem HasName.entry {h : Heap} {k : KeyRef} {P : Path} (hP : HasName (h.cell k) P)
    (hlt : k < h.next) : Entry h k where
  lt := hlt
  named := by simp [hP.key]
  sized := by rw [Sized, hP.keyUSize, hP.ukey]

theorem Entry.alike {h h' : Heap} {k : KeyRef} (hk : Entry h k) (hn : h.next ≤ h'.next)
    (ha : Alike (h.cell k) (h'.cell k)) : Entry h' k where
  lt := lt_of_lt_of_le hk.lt hn
  named := by rw [ha.key]; exact hk.named
  sized := by
    rw [Sized, ha.ukey, ha.keyUSize]
    exact hk.sized

theorem Entry.keeps {h h' : Heap} {k : KeyRef} (hk : Entry h k) (hh : Keeps h h') : Entry h' k :=
  hk.alike hh.next (hh.cell k hk.lt)

/-- `ks` is valid and holds the map `m`. -/
structure KeySet.Holds (h : Heap) (ks : KeySet) (m : Ident → Option KeyRef) : Prop where
  sorted : SortedArray.Sorted h.ident identCmp ks.array
  entry : ∀ k ∈ ks.array, Entry h k
  locked : ∀ k ∈ ks.array, (h.cell k).roName = true
  room : ks.size < ks.alloc
  least : KEYSET_SIZE ≤ ks.alloc
  map : m = SortedArray.lookup h.ident ks.array

namespace KeySet

variable {h h' : Heap} {ks : KeySet} {m : Ident → Option KeyRef}

theorem Holds.of_cells (hks : Holds h ks m) (hn : h.next ≤ h'.next)
    (hh : ∀ k ∈ ks.array, Alike (h.cell k) (h'.cell k)) : Holds h' ks m where
  sorted := hks.sorted.congr fun k hk => (hh k hk).ident
  entry k hk := (hks.entry k hk).alike hn (hh k hk)
  locked k hk := (hh k hk).roName (hks.locked k hk)
  room := hks.room
  least := hks.least
  map := by
    rw [hks.map]
    exact (SortedArray.lookup_key_congr fun k hk => (hh k hk).ident).symm

theorem Holds.keeps (hks : Holds h ks m) (hh : Keeps h h') : Holds h' ks m :=
  hks.of_cells hh.next fun k hk => hh.cell k (hks.entry k hk).lt

theorem Holds.of_array (hks : Holds h ks m) {ks' : KeySet} (ha : ks'.array = ks.array)
    (hroom : ks.size < ks'.alloc) (hleast : KEYSET_SIZE ≤ ks'.alloc) : Holds h ks' m where
  sorted := ha ▸ hks.sorted
  entry := ha ▸ hks.entry
  locked := ha ▸ hks.locked
  room := by rw [size, ha]; exact hroom
  least := hleast
  map := ha ▸ hks.map

theorem Holds.mem (hks : Holds h ks m) {k : KeyRef} {id : Ident} :
    m id = some k ↔ k ∈ ks.array ∧ h.ident k = id := by
  rw [hks.map]
  exact SortedArray.lookup_eq_some hks.sorted

theorem Holds.of_mem (hks : Holds h ks m) {k : KeyRef} (hk : k ∈ ks.array) :
    m (h.ident k) = some k := hks.mem.mpr ⟨hk, rfl⟩

theorem Holds.sublist (hks : Holds h ks m) {ks' : KeySet} (hl : ks'.array.Sublist ks.array)
    (hroom : ks'.size < ks'.alloc) (hleast : KEYSET_SIZE ≤ ks'.alloc) :
    Holds h ks' fun id => (m id).filter (· ∈ ks'.array) where
  sorted := hks.sorted.sublist hl
  entry k hk := hks.entry k (hl.subset hk)
  locked k hk := hks.locked k (hl.subset hk)
  room := hroom
  least := hleast
  map := by
    funext id
    rw [SortedArray.lookup_sublist hks.sorted hl, hks.map]

end KeySet

@[simp] theorem setCursor_array (ks : KeySet) (c : Option ℕ) :
    (ksSetCursor ks c).array = ks.array := by
  cases c <;> rfl

@[simp] theorem setCursor_alloc (ks : KeySet) (c : Option ℕ) :
    (ksSetCursor ks c).alloc = ks.alloc := by
  cases c <;> rfl

/-! ## Appending a key -/

theorem keeps_replace (h : Heap) (old k : KeyRef) :
    Keeps h (keyIncRef (keyDel (keyDecRef h old) old) k) :=
  (keeps_decRef _ _).trans ((keeps_del _ _).trans (keeps_incRef _ _))

theorem keeps_appendKey (h : Heap) (ks : KeySet) (k : KeyRef) :
    Keeps h (ksAppendKey h ks k).2.1 := by
  unfold ksAppendKey
  dsimp only
  split_ifs
  · exact keeps_del h k
  · exact keeps_lock h k
  · exact (keeps_lock h k).trans (keeps_replace _ _ _)
  all_goals exact (keeps_lock h k).trans (keeps_incRef _ _)

@[simp] theorem next_appendKey (h : Heap) (ks : KeySet) (k : KeyRef) :
    (ksAppendKey h ks k).2.1.next = h.next := by
  unfold ksAppendKey
  dsimp only
  split_ifs <;> simp

theorem appendKey_locks {h : Heap} {ks : KeySet} {k : KeyRef} (hk : k < h.next) (hn : (h.cell k).key ≠ none) :
    ((ksAppendKey h ks k).2.1.cell k).roName = true := by
  have hlock : ((elektraKeyLock h k).cell k).roName = true := by simp [elektraKeyLock, Heap.set]
  have hlt : k < (elektraKeyLock h k).next := hk
  unfold ksAppendKey
  rw [if_neg hn]
  dsimp only
  split_ifs
  · exact hlock
  · exact ((keeps_replace _ _ _).cell k hlt).roName hlock
  all_goals exact ((keeps_incRef _ _).cell k hlt).roName hlock

section Append

variable {h : Heap} {ks : KeySet} {m : Ident → Option KeyRef} {k : KeyRef}

theorem searchOrder_eq (hks : ks.Holds h m) (hk : Entry h k) :
    searchOrder h ks k = SortedArray.oracle h.ident identCmp ks.array (h.ident k) := by
  funext i
  rw [searchOrder, SortedArray.oracle]
  cases hi : ks.array[i]? with
  | none => rfl
  | some a => exact keyCompareByNameOwner_eq hk.sized (hks.entry a (List.mem_of_getElem? hi)).sized

/-- The search answers the position of the key with this identity, or where one is to be
inserted. -/
theorem searchInternal_code (hks : ks.Holds h m) (hk : Entry h k) :
    Bisect.Code (SortedArray.oracle h.ident identCmp ks.array (h.ident k)) ks.size
      (ksSearchInternal h ks k) := by
  rw [ksSearchInternal, searchOrder_eq hks hk]
  exact Bisect.closed_spec (hks.sorted.ascending _)

theorem holds_set (hks : ks.Holds h m) (hk : Entry h k) (hro : (h.cell k).roName = true) {pos : ℕ}
    (hf : Bisect.Found (SortedArray.oracle h.ident identCmp ks.array (h.ident k)) ks.size pos) :
    ({ ks with array := ks.array.set pos k } : KeySet).Holds h
      (Function.update m (h.ident k) (some k)) := by
  obtain ⟨hpos, he⟩ := hf
  rw [SortedArray.oracle_eq hpos, identCmp_eq_iff] at he
  refine ⟨SortedArray.sorted_set hks.sorted hpos he, fun a ha => ?_, fun a ha => ?_, ?_, hks.least, ?_⟩
  · obtain ha | rfl := List.mem_or_eq_of_mem_set ha
    · exact hks.entry a ha
    · exact hk
  · obtain ha | rfl := List.mem_or_eq_of_mem_set ha
    · exact hks.locked a ha
    · exact hro
  · simpa [KeySet.size] using hks.room
  · rw [SortedArray.lookup_set hks.sorted hpos he, hks.map]

theorem holds_gap (hks : ks.Holds h m) (hk : Entry h k) (hro : (h.cell k).roName = true)
    {pos alloc : ℕ} (hroom : ks.size + 1 < alloc) (hleast : KEYSET_SIZE ≤ alloc)
    (hm : Bisect.Missing (SortedArray.oracle h.ident identCmp ks.array (h.ident k)) ks.size pos) :
    ({ ks with array := ks.array.take pos ++ k :: ks.array.drop pos, alloc := alloc } : KeySet).Holds
      h (Function.update m (h.ident k) (some k)) := by
  refine ⟨SortedArray.sorted_gap hks.sorted hm, fun a ha => ?_, fun a ha => ?_, ?_, hleast, ?_⟩
  · obtain rfl | ha := SortedArray.mem_gap.mp ha
    · exact hk
    · exact hks.entry a ha
  · obtain rfl | ha := SortedArray.mem_gap.mp ha
    · exact hro
    · exact hks.locked a ha
  · have := hm.le
    simp only [KeySet.size, List.length_append, List.length_cons, List.length_take,
      List.length_drop] at this hroom ⊢
    omega
  · rw [SortedArray.lookup_gap hks.sorted hm, hks.map]

/-- The allocation after a resize: too small a size is ignored, and it never falls below the
least. -/
theorem resizeAlloc_eq {size oldAlloc alloc : ℕ} (h : KEYSET_SIZE ≤ oldAlloc) :
    (resizeAlloc size oldAlloc alloc).2 =
      if alloc + 1 < size then oldAlloc else max KEYSET_SIZE (alloc + 1) := by
  unfold KEYSET_SIZE at h ⊢
  unfold resizeAlloc KEYSET_SIZE
  dsimp only
  split_ifs <;> dsimp only <;> omega

theorem appendAlloc_room (hks : ks.Holds h m) :
    let alloc := if ks.alloc ≤ ks.size + 1 then (resizeAlloc (ks.size + 1) ks.alloc (ks.alloc * 2 - 1)).2
      else ks.alloc
    ks.size + 1 < alloc ∧ KEYSET_SIZE ≤ alloc := by
  have h1 := hks.room
  have h2 := hks.least
  dsimp only
  rw [resizeAlloc_eq h2]
  split_ifs <;> omega

/-- **Appending a key updates the map at its identity.** -/
theorem ksAppendKey_holds (hks : ks.Holds h m) (hk : Entry h k) :
    (ksAppendKey h ks k).2.2.Holds (ksAppendKey h ks k).2.1
      (Function.update m (h.ident k) (some k)) := by
  have hlock := hks.keeps (keeps_lock h k)
  have hk' := hk.keeps (keeps_lock h k)
  have hro : ((elektraKeyLock h k).cell k).roName = true := by simp [elektraKeyLock, Heap.set]
  have hcode := searchInternal_code hlock hk'
  rw [← (keeps_lock h k).ident hk.lt]
  unfold ksAppendKey
  rw [if_neg hk.named]
  dsimp only
  obtain ⟨hpos, hf⟩ | ⟨hneg, hm⟩ := hcode
  · rw [if_pos hpos]
    split_ifs with hsame
    · -- the key is there already
      have hmem : k ∈ ks.array := List.mem_of_getElem? hsame
      rw [← hlock.of_mem hmem, Function.update_eq_self]
      exact hlock
    · have hset := (holds_set hlock hk' hro hf).keeps
        (keeps_replace _ (ks.array.getD (ksSearchInternal (elektraKeyLock h k) ks k).toNat k) k)
      exact hset.of_array (by simp) (by simpa using hset.room) (by simpa using hset.least)
  · rw [if_neg (not_le.mpr hneg)]
    obtain ⟨hroom, hleast⟩ := appendAlloc_room hlock
    have hgap := (holds_gap hlock hk' hro hroom hleast hm).keeps (keeps_incRef _ k)
    exact hgap.of_array (by simp) (by simpa using hgap.room) (by simpa using hgap.least)

end Append

/-! ## Appending several keys -/

/-- The map after appending `keys` one by one. -/
def appendAll (ident : KeyRef → Ident) (m : Ident → Option KeyRef) (keys : List KeyRef) :
    Ident → Option KeyRef :=
  keys.foldl (fun m k => Function.update m (ident k) (some k)) m

theorem keeps_appendLoop : ∀ (l : List KeyRef) (h : Heap) (ks : KeySet),
    Keeps h (ksAppendLoop h ks l).1
  | [], h, _ => Keeps.refl h
  | k :: l, h, ks => (keeps_appendKey h ks k).trans (keeps_appendLoop l _ _)

@[simp] theorem next_appendLoop : ∀ (l : List KeyRef) (h : Heap) (ks : KeySet),
    (ksAppendLoop h ks l).1.next = h.next
  | [], _, _ => rfl
  | k :: l, h, ks => by
    rw [ksAppendLoop, next_appendLoop l, next_appendKey]

theorem appendLoop_holds : ∀ (l : List KeyRef) {h : Heap} {ks : KeySet} {m : Ident → Option KeyRef},
    ks.Holds h m → (∀ k ∈ l, Entry h k) →
    (ksAppendLoop h ks l).2.Holds (ksAppendLoop h ks l).1 (appendAll h.ident m l)
  | [], _, _, _, hks, _ => hks
  | k :: l, h, ks, m, hks, hl => by
    have hh := keeps_appendKey h ks k
    have ih := appendLoop_holds l (ksAppendKey_holds hks (hl k List.mem_cons_self))
      fun a ha => (hl a (List.mem_cons_of_mem k ha)).keeps hh
    have hident : appendAll (ksAppendKey h ks k).2.1.ident (Function.update m (h.ident k) (some k)) l =
        appendAll h.ident m (k :: l) := by
      refine List.foldl_ext _ _ _ fun m' a ha => ?_
      rw [hh.ident (hl a (List.mem_cons_of_mem k ha)).lt]
    rw [← hident]
    exact ih

theorem toAllocLoop_spec (n : ℕ) : ∀ (fuel toAlloc : ℕ), n < toAlloc * 2 ^ fuel →
    n < toAllocLoop n fuel toAlloc ∧ toAlloc ≤ toAllocLoop n fuel toAlloc
  | 0, toAlloc, h => ⟨by simpa [toAllocLoop] using h, le_rfl⟩
  | fuel + 1, toAlloc, h => by
    rw [toAllocLoop]
    split_ifs with hle
    · have ih := toAllocLoop_spec n fuel (toAlloc * 2) (by rw [Nat.pow_succ] at h; linarith)
      exact ⟨ih.1, by omega⟩
    · exact ⟨by omega, le_rfl⟩

theorem ksResize_alloc {ks : KeySet} (hleast : KEYSET_SIZE ≤ ks.alloc) {n : ℕ} :
    (ksResize ks n).2.alloc = if n + 1 < ks.size then ks.alloc else max KEYSET_SIZE (n + 1) :=
  resizeAlloc_eq hleast

theorem ksResize_holds {h : Heap} {ks : KeySet} {m : Ident → Option KeyRef} (hks : ks.Holds h m)
    {n : ℕ} (hn : n + 1 = ks.size → ks.size < KEYSET_SIZE) : (ksResize ks n).2.Holds h m := by
  have hroom := hks.room
  have hleast := hks.least
  refine hks.of_array rfl ?_ ?_
  · rw [ksResize_alloc hleast]
    split_ifs <;> omega
  · rw [ksResize_alloc hleast]
    split_ifs <;> omega

theorem appendResize_holds {h : Heap} {ks : KeySet} {m : Ident → Option KeyRef} (hks : ks.Holds h m)
    {n : ℕ} (hn : ks.size ≤ n) :
    (ksResize ks (toAllocLoop n (n + 1) ks.alloc - 1)).2.Holds h m ∧
      n < (ksResize ks (toAllocLoop n (n + 1) ks.alloc - 1)).2.alloc := by
  have hleast := hks.least
  have hpow : n < 2 ^ (n + 1) := lt_trans (Nat.lt_succ_self n) Nat.lt_two_pow_self
  have hpos : 0 < ks.alloc := lt_of_lt_of_le (by decide) hleast
  obtain ⟨hlt, -⟩ := toAllocLoop_spec n (n + 1) ks.alloc (lt_of_lt_of_le hpow (Nat.le_mul_of_pos_left _ hpos))
  refine ⟨ksResize_holds hks (by omega), ?_⟩
  rw [ksResize_alloc hleast, if_neg (by omega)]
  exact lt_of_lt_of_le (by omega) (le_max_right _ _)

theorem keeps_append (h : Heap) (ks toAppend : KeySet) : Keeps h (ksAppend h ks toAppend).2.1 := by
  unfold ksAppend
  split_ifs
  · exact Keeps.refl h
  · exact keeps_appendLoop _ _ _

@[simp] theorem next_append (h : Heap) (ks toAppend : KeySet) :
    (ksAppend h ks toAppend).2.1.next = h.next := by
  unfold ksAppend
  split_ifs
  · rfl
  · exact next_appendLoop _ _ _

/-- **Appending a key set overrides the map by that of the other.** -/
theorem ksAppend_holds {h : Heap} {ks toAppend : KeySet} {m m' : Ident → Option KeyRef}
    (hks : ks.Holds h m) (ha : toAppend.Holds h m') :
    (ksAppend h ks toAppend).2.2.Holds (ksAppend h ks toAppend).2.1 fun id => (m' id).or (m id) := by
  have hmap : appendAll h.ident m toAppend.array = fun id => (m' id).or (m id) := by
    rw [ha.map]
    exact SortedArray.foldl_update ha.sorted m
  unfold ksAppend
  split_ifs with h0
  · rw [← hmap, List.eq_nil_of_length_eq_zero h0]
    exact hks
  · rw [← hmap]
    exact appendLoop_holds _ (appendResize_holds hks (Nat.le_add_right _ _)).1 ha.entry

/-! ## New key sets -/

theorem holds_empty (h : Heap) {ks : KeySet} (ha : ks.array = []) (hleast : KEYSET_SIZE ≤ ks.alloc) :
    ks.Holds h fun _ => none where
  sorted := ha ▸ SortedArray.sorted_nil
  entry := by simp [ha]
  locked := by simp [ha]
  room := by
    rw [KeySet.size, ha]
    exact lt_of_lt_of_le (by decide) hleast
  least := hleast
  map := by rw [ha, SortedArray.lookup_nil]

theorem ksNew_fst (h : Heap) (alloc : ℕ) (keys : List KeyRef) :
    ∃ ks, (ksNew h alloc keys).1 = (ksAppendLoop h ks (if alloc = 0 then [] else keys)).1 := by
  unfold ksNew
  by_cases h0 : alloc = 0
  · exact ⟨⟨[], KEYSET_SIZE, none, 0, false⟩, by subst h0; rfl⟩
  · simp only [if_neg h0, if_pos (show alloc + 1 ≠ 1 by omega)]
    exact ⟨_, rfl⟩

theorem keeps_new (h : Heap) (alloc : ℕ) (keys : List KeyRef) : Keeps h (ksNew h alloc keys).1 := by
  obtain ⟨ks, he⟩ := ksNew_fst h alloc keys
  rw [he]
  exact keeps_appendLoop _ _ _

theorem ksNew_holds {h : Heap} (alloc : ℕ) {keys : List KeyRef} (hk : ∀ k ∈ keys, Entry h k) :
    (ksNew h alloc keys).2.Holds (ksNew h alloc keys).1
      (appendAll h.ident (fun _ => none) (if alloc = 0 then [] else keys)) := by
  have hnew : ∀ a, KEYSET_SIZE ≤ a →
      (KeySet.mk [] a none 0 false).Holds h fun _ => none := fun a ha => holds_empty h rfl ha
  unfold ksNew
  by_cases h0 : alloc = 0
  · subst h0
    exact hnew _ le_rfl
  · simp only [if_neg h0, if_pos (show alloc + 1 ≠ 1 by omega)]
    have hloop := appendLoop_holds keys (hnew (if alloc + 1 < KEYSET_SIZE then KEYSET_SIZE else alloc + 1)
      (by split_ifs <;> omega)) hk
    exact hloop.of_array rfl hloop.room hloop.least

theorem ksNew_empty (h : Heap) (alloc : ℕ) : (ksNew h alloc []).1 = h := by
  obtain ⟨ks, he⟩ := ksNew_fst h alloc []
  rw [he, ite_self]
  rfl

theorem keeps_dup (h : Heap) (source : KeySet) : Keeps h (ksDup h source).1 :=
  (keeps_new _ _ _).trans (keeps_append _ _ _)

theorem ksDup_holds {h : Heap} {source : KeySet} {m : Ident → Option KeyRef}
    (hs : source.Holds h m) : (ksDup h source).2.Holds (ksDup h source).1 m := by
  have hnew := @ksNew_holds h (if source.alloc < KEYSET_SIZE then KEYSET_SIZE else source.alloc) []
    (by simp)
  have happ := ksAppend_holds hnew (hs.keeps (keeps_new _ _ _))
  simp only [ite_self, appendAll, List.foldl_nil, Option.or_none] at happ
  exact happ

theorem keeps_close : ∀ (l : List KeyRef) (h : Heap), Keeps h (closeLoop h l)
  | [], h => Keeps.refl h
  | k :: l, h => ((keeps_decRef h k).trans (keeps_del _ k)).trans (keeps_close l _)

@[simp] theorem next_close : ∀ (l : List KeyRef) (h : Heap), (closeLoop h l).next = h.next
  | [], _ => rfl
  | k :: l, h => by
    rw [closeLoop, List.foldl_cons]
    exact (next_close l _).trans (by simp)

theorem closeLoop_cell {k : KeyRef} : ∀ (l : List KeyRef) (h : Heap), k ∉ l → (closeLoop h l).cell k = h.cell k
  | [], _, _ => rfl
  | a :: l, h, hk => by
    obtain ⟨hne, hl⟩ := not_or.mp (List.mem_cons.not.mp hk)
    have hdrop : (keyDel (keyDecRef h a) a).cell k = (keyDecRef h a).cell k := by
      unfold keyDel
      split_ifs <;> rfl
    exact (closeLoop_cell l _ hl).trans (hdrop.trans (set_cell_ne hne))

theorem ksClear_holds (h : Heap) (ks : KeySet) : (ksClear h ks).2.Holds (ksClear h ks).1 fun _ => none :=
  holds_empty _ rfl le_rfl

theorem keeps_copy (h : Heap) (dest : KeySet) (source : Option KeySet) :
    Keeps h (ksCopy h dest source).2.1 := by
  unfold ksCopy
  cases source with
  | none => exact keeps_close _ _
  | some source => exact (keeps_close _ _).trans (keeps_append _ _ _)

theorem ksCopy_holds {h : Heap} (dest : KeySet) {source : KeySet} {m : Ident → Option KeyRef}
    (hs : source.Holds h m) :
    (ksCopy h dest (some source)).2.2.Holds (ksCopy h dest (some source)).2.1 m := by
  have happ := ksAppend_holds (ksClear_holds h dest) (hs.keeps (keeps_close _ _))
  simp only [Option.or_none] at happ
  exact happ.of_array (by simp [ksCopy]) (by simpa [ksCopy] using happ.room)
    (by simpa [ksCopy] using happ.least)

/-! ## Taking keys out -/

theorem keeps_pop (h : Heap) (ks : KeySet) : Keeps h (ksPop h ks).2.1 := by
  unfold ksPop
  dsimp only
  cases ks.array.getLast? with
  | none => exact Keeps.refl h
  | some ret => exact keeps_decRef h ret

section Pop

variable {h : Heap} {ks : KeySet} {m : Ident → Option KeyRef} {k : KeyRef}

theorem holds_eraseIdx (hks : ks.Holds h m) {i : ℕ} (hi : i < ks.array.length) :
    ({ ks with array := ks.array.eraseIdx i } : KeySet).Holds h
      (Function.update m (h.ident ks.array[i]) none) where
  sorted := hks.sorted.sublist (List.eraseIdx_sublist _ _)
  entry a ha := hks.entry a (List.mem_of_mem_eraseIdx ha)
  locked a ha := hks.locked a (List.mem_of_mem_eraseIdx ha)
  room := lt_of_le_of_lt (List.eraseIdx_sublist _ _).length_le hks.room
  least := hks.least
  map := by rw [SortedArray.lookup_eraseIdx hks.sorted hi, hks.map]

theorem ksPop_concat {l : List KeyRef} (ha : ks.array = l ++ [k])
    (hl : ({ ks with array := l } : KeySet).Holds h m) :
    (ksPop h ks).1 = some k ∧ (ksPop h ks).2.2.array = l ∧
      (ksPop h ks).2.2.Holds (ksPop h ks).2.1 m := by
  have hsync : ({ ks with sync := true, array := l } : KeySet).Holds h m :=
    hl.of_array rfl hl.room hl.least
  unfold ksPop
  simp only [ha, List.getLast?_concat, List.dropLast_concat]
  refine ⟨trivial, ?_, ?_⟩
  · split_ifs <;> rfl
  · refine KeySet.Holds.keeps ?_ (keeps_decRef h k)
    split_ifs with hlt
    · exact ksResize_holds hsync fun he => by omega
    · exact hsync

/-- **`ksPop` removes exactly the last key.** -/
theorem ksPop_holds (hks : ks.Holds h m) (hk : ks.array.getLast? = some k) :
    (ksPop h ks).1 = some k ∧
      (ksPop h ks).2.2.Holds (ksPop h ks).2.1 (Function.update m (h.ident k) none) := by
  obtain ⟨l, ha⟩ := List.getLast?_eq_some_iff.mp hk
  have hlen : l.length < ks.array.length := by simp [ha]
  have herase := holds_eraseIdx hks hlen
  simp only [ha, List.eraseIdx_append_of_length_le le_rfl, List.getElem_concat_length,
    Nat.sub_self, List.eraseIdx_cons_zero, List.append_nil] at herase
  obtain ⟨h1, -, h2⟩ := ksPop_concat ha herase
  exact ⟨h1, h2⟩

theorem popAtCursor_heap {h : Heap} {ks : KeySet} {i : ℕ} {k : KeyRef} (hk : ks.array[i]? = some k) :
    (elektraKsPopAtCursor h ks i).2.1 = keyDecRef h k := by
  unfold elektraKsPopAtCursor
  rw [if_neg (by omega), Int.toNat_natCast, hk]
  unfold ksPop
  dsimp only [ksRewind]
  rw [List.getLast?_concat]

theorem keeps_popAtCursor (h : Heap) (ks : KeySet) (pos : ℤ) :
    Keeps h (elektraKsPopAtCursor h ks pos).2.1 := by
  unfold elektraKsPopAtCursor
  split_ifs
  · exact Keeps.refl h
  · cases ks.array[pos.toNat]? with
    | none => exact Keeps.refl h
    | some k => exact keeps_pop _ _

/-- **`elektraKsPopAtCursor` removes exactly the key at the position.** -/
theorem elektraKsPopAtCursor_holds (hks : ks.Holds h m) {pos : ℕ} (hk : ks.array[pos]? = some k) :
    (elektraKsPopAtCursor h ks pos).1 = some k ∧
      (elektraKsPopAtCursor h ks pos).2.2.array = ks.array.eraseIdx pos ∧
      (elektraKsPopAtCursor h ks pos).2.2.Holds (elektraKsPopAtCursor h ks pos).2.1
        (Function.update m (h.ident k) none) := by
  obtain ⟨hpos, rfl⟩ := List.getElem?_eq_some_iff.mp hk
  unfold elektraKsPopAtCursor
  rw [if_neg (by omega), Int.toNat_natCast, hk]
  have herase := holds_eraseIdx hks hpos
  refine ksPop_concat rfl ?_
  exact herase.of_array rfl herase.room herase.least

end Pop

end Elektra
