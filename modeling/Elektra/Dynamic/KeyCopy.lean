import Elektra.Dynamic.Model

/-!
# Copying a key

`keyCopy` duplicates a name, a value and metadata, one after the other, and restores all three when there
is no memory for one of them.

* `Same`, `Grows`: what a step leaves as it is;
* `Memory.Valid`: keys own what they point to;
* `SafeCopy`: no failure but those that the common exit is right for;
* **`keyCopy_iff`**.
-/

namespace Elektra.Dynamic

/-- The buffers of a key. -/
def Memory.Owns (m : Memory) (k : KeyRef) (b : Buffer) : Prop := (m.keys k).key = some b ∨ (m.keys k).data = some b

def KeyStruct.uncounted (key : KeyStruct) : KeyStruct := { key with ksReference := 0 }

/-- The key is as before, but for its counter. -/
structure Same (m m' : Memory) (k : KeyRef) : Prop where
  struct : (m'.keys k).uncounted = (m.keys k).uncounted
  buffers : ∀ b, m.Owns k b → m'.buffers b = m.buffers b
  freed : m'.freed k = m.freed k

section Same

variable {m m' m'' : Memory} {k : KeyRef}

theorem Same.refl (m : Memory) (k : KeyRef) : Same m m k := ⟨rfl, fun _ _ => rfl, rfl⟩

theorem Same.key (h : Same m m' k) : (m'.keys k).key = (m.keys k).key := (congrArg KeyStruct.key h.struct :)

theorem Same.data (h : Same m m' k) : (m'.keys k).data = (m.keys k).data := (congrArg KeyStruct.data h.struct :)

theorem Same.metaKeys (h : Same m m' k) : (m'.keys k).metaKeys = (m.keys k).metaKeys :=
  (congrArg KeyStruct.metaKeys h.struct :)

theorem Same.owns (h : Same m m' k) {b : Buffer} : m'.Owns k b ↔ m.Owns k b := by
  rw [Memory.Owns, Memory.Owns, h.key, h.data]

theorem Same.trans (h : Same m m' k) (h' : Same m' m'' k) : Same m m'' k where
  struct := h'.struct.trans h.struct
  buffers b hb := (h'.buffers b (h.owns.mpr hb)).trans (h.buffers b hb)
  freed := h'.freed.trans h.freed

theorem Same.text (h : Same m m' k) : m'.text k = m.text k := by
  have hkeySize : (m'.keys k).keySize = (m.keys k).keySize := (congrArg KeyStruct.keySize h.struct :)
  have hkeyUSize : (m'.keys k).keyUSize = (m.keys k).keyUSize := (congrArg KeyStruct.keyUSize h.struct :)
  have hdataSize : (m'.keys k).dataSize = (m.keys k).dataSize := (congrArg KeyStruct.dataSize h.struct :)
  have hname : (m.keys k).key.bind m'.buffers = (m.keys k).key.bind m.buffers :=
    Option.bind_congr fun b hb => h.buffers b (.inl hb)
  have hvalue : (m.keys k).data.bind m'.buffers = (m.keys k).data.bind m.buffers :=
    Option.bind_congr fun b hb => h.buffers b (.inr hb)
  simp only [Memory.text, Memory.name, Memory.uname, Memory.value, h.key, h.data, hkeySize, hkeyUSize, hdataSize,
    hname, hvalue]

theorem Same.sound (h : Same m m' k) (hk : m.Sound k) : m'.Sound k where
  live := h.freed.trans hk.live
  key b hb := by
    rw [h.key] at hb
    rw [h.buffers b (.inl hb)]
    exact hk.key b hb
  data b hb := by
    rw [h.data] at hb
    rw [h.buffers b (.inr hb)]
    exact hk.data b hb

/-- A key and its metadata are as before. -/
structure SameKey (m m' : Memory) (k : KeyRef) : Prop extends Same m m' k where
  keyset : ∀ ks, (m.keys k).metaKeys = some ks → m'.keysets ks = m.keysets ks
  metaKeys : ∀ r ∈ m.metadata k, Same m m' r

theorem SameKey.metadata (h : SameKey m m' k) : m'.metadata k = m.metadata k := by
  have hsets : (m.keys k).metaKeys.bind m'.keysets = (m.keys k).metaKeys.bind m.keysets :=
    Option.bind_congr fun ks hks => h.keyset ks hks
  rw [Memory.metadata, Memory.metadata, h.toSame.metaKeys, hsets]

theorem SameKey.contents (h : SameKey m m' k) : m'.contents k = m.contents k := by
  rw [Memory.contents, Memory.contents, h.toSame.text, h.toSame.metaKeys]
  refine congrArg _ (Option.map_congr fun s hs => ?_)
  rw [h.keyset s hs]
  refine Option.map_congr fun ks hks => List.map_congr_left fun r hr => ?_
  have hmem : r ∈ m.metadata k := by rw [Memory.metadata, hs, Option.bind_some, hks]; exact hr
  rw [(h.metaKeys r hmem).text]

theorem SameKey.alive (h : SameKey m m' k) (hk : m.Alive k) : m'.Alive k where
  toSound := h.toSame.sound hk.toSound
  keyset ks hks := by
    rw [h.toSame.metaKeys] at hks
    rw [h.keyset ks hks]
    exact hk.keyset ks hks
  metaKeys r hr := by
    rw [h.metadata] at hr
    exact (h.metaKeys r hr).sound (hk.metaKeys r hr)

end Same

theorem Memory.set_self (m : Memory) (k : KeyRef) (key : KeyStruct) : (m.set k key).keys k = key :=
  Function.update_self _ _ _

theorem Memory.set_ne (m : Memory) {k r : KeyRef} (key : KeyStruct) (hk : k ≠ r) : (m.set r key).keys k = m.keys k :=
  Function.update_of_ne hk _ _

/-! ## Deleting a key set -/

section Del

variable {m m' : Memory} {k r : KeyRef} {b : Buffer}

theorem elektraFree_buffers (ptr : Option Buffer) (hb : ptr ≠ some b) : (elektraFree m ptr).buffers b = m.buffers b := by
  cases ptr with
  | none => rfl
  | some a => exact Function.update_of_ne (fun h => hb (congrArg some h.symm)) _ _

theorem elektraFree_none (ptr : Option Buffer) (hb : m.buffers b = none) : (elektraFree m ptr).buffers b = none := by
  by_cases hp : ptr = some b
  · rw [hp]
    exact Function.update_self _ _ _
  · rw [elektraFree_buffers ptr hp, hb]

theorem elektraFree_keys (m : Memory) (ptr : Option Buffer) : (elektraFree m ptr).keys = m.keys := by
  cases ptr <;> rfl

theorem elektraFree_freed (m : Memory) (ptr : Option Buffer) : (elektraFree m ptr).freed = m.freed := by
  cases ptr <;> rfl

theorem elektraFree_keysets (m : Memory) (ptr : Option Buffer) : (elektraFree m ptr).keysets = m.keysets := by
  cases ptr <;> rfl

/-- What the deletion of the keys `l` does. -/
structure Drops (m m' : Memory) (l : List KeyRef) : Prop where
  keys : ∀ k ∉ l, m'.keys k = m.keys k
  freed : ∀ k ∉ l, m'.freed k = m.freed k
  dead : ∀ k, m.freed k = true → m'.freed k = true
  buffers : ∀ b, (∀ k ∈ l, ¬ m.Owns k b) → m'.buffers b = m.buffers b
  none : ∀ b, m.buffers b = none → m'.buffers b = none
  keysets : m'.keysets = m.keysets

theorem Drops.trans {l l' : List KeyRef} {m'' : Memory} (h : Drops m m' l) (h' : Drops m' m'' l')
    (hdisj : ∀ k ∈ l', k ∉ l) : Drops m m'' (l ++ l') where
  keys k hk := by
    rw [List.mem_append, not_or] at hk
    exact (h'.keys k hk.2).trans (h.keys k hk.1)
  freed k hk := by
    rw [List.mem_append, not_or] at hk
    exact (h'.freed k hk.2).trans (h.freed k hk.1)
  dead k hk := h'.dead k (h.dead k hk)
  buffers b hb := by
    refine (h'.buffers b fun k hk => ?_).trans (h.buffers b fun k hk => hb k (List.mem_append_left _ hk))
    rw [Memory.Owns, h.keys k (hdisj k hk)]
    exact hb k (List.mem_append_right _ hk)
  none b hb := h'.none b (h.none b hb)
  keysets := h'.keysets.trans h.keysets

theorem keyDecRef_self (m : Memory) (k : KeyRef) :
    (keyDecRef m k).keys k = { m.keys k with ksReference := (m.keys k).ksReference - 1 } := Function.update_self _ _ _

theorem keyDecRef_ne (hk : k ≠ r) : (keyDecRef m r).keys k = m.keys k := Function.update_of_ne hk _ _

theorem drops_metaKey (fuel : ℕ) (hr : (m.keys r).metaKeys = none) :
    Drops m (keyDel (fuel + 1) (keyDecRef m r) r) [r] ∧
      (1 < (m.keys r).ksReference → keyDel (fuel + 1) (keyDecRef m r) r = keyDecRef m r) ∧
      ((m.keys r).ksReference ≤ 1 → (keyDel (fuel + 1) (keyDecRef m r) r).freed r = true) := by
  have hdec := keyDecRef_self m r
  have hother : ∀ k ∉ [r], (keyDecRef m r).keys k = m.keys k := fun k hk => keyDecRef_ne (List.mem_singleton.not.mp hk)
  by_cases href : 1 < (m.keys r).ksReference
  · have hrun : keyDel (fuel + 1) (keyDecRef m r) r = keyDecRef m r := by
      rw [keyDel, hdec]
      exact if_pos (Nat.sub_pos_of_lt href)
    rw [hrun]
    exact ⟨⟨hother, fun _ _ => rfl, fun _ => id, fun _ _ => rfl, fun _ => id, rfl⟩, fun _ => rfl,
      fun h => absurd href (not_lt.mpr h)⟩
  · have hzero : (m.keys r).ksReference - 1 = 0 := Nat.sub_eq_zero_of_le (not_lt.mp href)
    set m1 := elektraFree (elektraFree (keyDecRef m r) (m.keys r).key) (m.keys r).data with hm1
    have hrun : keyDel (fuel + 1) (keyDecRef m r) r =
        { m1.set r keyInit with freed := Function.update (m1.set r keyInit).freed r true } := by
      rw [keyDel, hdec]
      dsimp only
      rw [hzero, if_neg (Nat.lt_irrefl 0), keyClearWith, hdec]
      dsimp only
      rw [hr, hzero]
      rfl
    have hkeys : m1.keys = (keyDecRef m r).keys := by rw [hm1, elektraFree_keys, elektraFree_keys]
    have hfreed : m1.freed = m.freed := by
      rw [hm1, elektraFree_freed, elektraFree_freed]
      rfl
    rw [hrun]
    refine ⟨⟨fun k hk => ?_, fun k hk => ?_, fun k hk => ?_, fun b hb => ?_, fun b hb => ?_, ?_⟩,
      fun h => absurd h href, fun _ => Function.update_self _ _ _⟩
    · exact (Function.update_of_ne (List.mem_singleton.not.mp hk) _ _).trans ((congrFun hkeys k).trans (hother k hk))
    · exact (Function.update_of_ne (List.mem_singleton.not.mp hk) _ _).trans (congrFun hfreed k)
    · dsimp only
      rw [Function.update_apply]
      split_ifs
      · rfl
      · exact (congrFun hfreed k).trans hk
    · have hown := hb r (List.mem_singleton_self r)
      rw [Memory.Owns, not_or] at hown
      exact (elektraFree_buffers _ hown.2).trans (elektraFree_buffers _ hown.1)
    · exact elektraFree_none _ (elektraFree_none _ hb)
    · exact (elektraFree_keysets _ _).trans (elektraFree_keysets _ _)

theorem drops_metaKeys (fuel : ℕ) : ∀ (l : List KeyRef) {m : Memory}, l.Nodup →
    (∀ r ∈ l, (m.keys r).metaKeys = none) →
    Drops m (l.foldl (fun m r => keyDel (fuel + 1) (keyDecRef m r) r) m) l ∧
      ∀ k ∈ l, ((m.keys k).ksReference ≤ 1 →
        (l.foldl (fun m r => keyDel (fuel + 1) (keyDecRef m r) r) m).freed k = true) ∧
        (1 < (m.keys k).ksReference → (∀ r ∈ l, r ≠ k → ∀ b, m.Owns k b → ¬ m.Owns r b) →
          Same m (l.foldl (fun m r => keyDel (fuel + 1) (keyDecRef m r) r) m) k)
  | [], m, _, _ => ⟨⟨fun _ _ => rfl, fun _ _ => rfl, fun _ => id, fun _ _ => rfl, fun _ => id, rfl⟩, nofun⟩
  | r :: l, m, hnodup, hmeta => by
    obtain ⟨hnot, hnodup⟩ := List.nodup_cons.mp hnodup
    obtain ⟨hdrop, hkeep, hdead⟩ := drops_metaKey fuel (hmeta r List.mem_cons_self)
    have hne : ∀ k ∈ l, k ∉ [r] := fun k hk h => hnot (List.mem_singleton.mp h ▸ hk)
    have hkeys : ∀ k ∈ l, (keyDel (fuel + 1) (keyDecRef m r) r).keys k = m.keys k := fun k hk =>
      hdrop.keys k (hne k hk)
    obtain ⟨hrest, heach⟩ := drops_metaKeys fuel l hnodup fun k hk => by
      rw [hkeys k hk]
      exact hmeta k (List.mem_cons_of_mem r hk)
    refine ⟨hdrop.trans hrest hne, fun k hk => ?_⟩
    rw [List.foldl_cons]
    obtain rfl | hk := List.mem_cons.mp hk
    · refine ⟨fun h => hrest.dead k (hdead h), fun h hown => ?_⟩
      -- the others free no buffer of `k`
      rw [hkeep h] at hrest ⊢
      have hstruct : ((keyDecRef m k).keys k).uncounted = (m.keys k).uncounted := by rw [keyDecRef_self]; rfl
      refine ⟨(congrArg _ (hrest.keys k hnot)).trans hstruct, fun b hb => hrest.buffers b fun r hr => ?_,
        hrest.freed k hnot⟩
      have hrk : r ≠ k := fun he => hnot (he ▸ hr)
      rw [Memory.Owns, keyDecRef_ne hrk]
      exact hown r (List.mem_cons_of_mem k hr) hrk b hb
    · obtain ⟨hd, hs⟩ := heach k hk
      rw [hkeys k hk] at hd hs
      refine ⟨hd, fun h hown => ?_⟩
      have howns : ∀ j ∈ l, ∀ b, (keyDel (fuel + 1) (keyDecRef m r) r).Owns j b ↔ m.Owns j b := fun j hj b => by
        rw [Memory.Owns, Memory.Owns, hkeys j hj]
      have hfirst : Same m (keyDel (fuel + 1) (keyDecRef m r) r) k := by
        refine ⟨congrArg _ (hkeys k hk), fun b hb => hdrop.buffers b fun j hj => ?_, hdrop.freed k (hne k hk)⟩
        rw [List.mem_singleton.mp hj]
        exact hown r List.mem_cons_self (fun he => hnot (he ▸ hk)) b hb
      refine hfirst.trans (hs h fun j hj hjk b hb => ?_)
      rw [howns j hj]
      exact hown j (List.mem_cons_of_mem r hj) hjk b ((howns k hk b).mp hb)

/-- A key set is deleted, and with it the metakeys that only it refers to. -/
theorem ksDel_same (fuel : ℕ) {ks : Option KeySetRef} {l : List KeyRef}
    (hl : l = (ks.bind m.keysets).elim [] KeySet.array) (hnodup : l.Nodup)
    (hmeta : ∀ r ∈ l, (m.keys r).metaKeys = none) :
    (∀ k, (k ∈ l → 1 < (m.keys k).ksReference) → (∀ r ∈ l, r ≠ k → ∀ b, m.Owns k b → ¬ m.Owns r b) →
      Same m (ksDel (fuel + 1) m ks) k) ∧
      (∀ s, ks ≠ some s → (ksDel (fuel + 1) m ks).keysets s = m.keysets s) ∧
      ∀ k ∈ l, (m.keys k).ksReference ≤ 1 → (ksDel (fuel + 1) m ks).freed k = true := by
  cases ks with
  | none =>
    rw [hl]
    exact ⟨fun k _ _ => Same.refl m k, fun _ _ => rfl, fun _ hk => absurd hk List.not_mem_nil⟩
  | some s =>
    obtain ⟨hdrop, heach⟩ := drops_metaKeys fuel l hnodup hmeta
    have hrun : ksDel (fuel + 1) m (some s) =
        { l.foldl (fun m r => keyDel (fuel + 1) (keyDecRef m r) r) m with
          keysets := Function.update (l.foldl (fun m r => keyDel (fuel + 1) (keyDecRef m r) r) m).keysets s none } := by
      rw [hl]
      rfl
    rw [hrun]
    refine ⟨fun k href hown => ?_, fun j hj => ?_, fun k hk href => (heach k hk).1 href⟩
    · have hsame : Same m (l.foldl (fun m r => keyDel (fuel + 1) (keyDecRef m r) r) m) k := by
        by_cases hk : k ∈ l
        · exact (heach k hk).2 (href hk) hown
        · exact ⟨congrArg _ (hdrop.keys k hk), fun b hb => hdrop.buffers b fun r hr =>
            hown r hr (fun he => hk (he ▸ hr)) b hb, hdrop.freed k hk⟩
      exact ⟨hsame.struct, hsame.buffers, hsame.freed⟩
    · exact (Function.update_of_ne (fun h => hj (congrArg some h.symm)) _ _).trans (congrFun hdrop.keysets j)

end Del

/-! ## Duplicating -/

/-- More is allocated; only `dest` is another one, but for counters. -/
structure Grows (m m' : Memory) (dest : KeyRef) : Prop where
  keys : ∀ k ≠ dest, (m'.keys k).uncounted = (m.keys k).uncounted
  freed : m'.freed = m.freed
  next : m'.next = m.next
  buffers : ∀ b < m.nextBuffer, m'.buffers b = m.buffers b
  nextBuffer : m.nextBuffer ≤ m'.nextBuffer
  keysets : ∀ ks < m.nextKeySet, m'.keysets ks = m.keysets ks
  nextKeySet : m.nextKeySet ≤ m'.nextKeySet
  succeeds : m'.succeeds = m.succeeds

theorem Grows.trans {m m' m'' : Memory} {dest : KeyRef} (h : Grows m m' dest) (h' : Grows m' m'' dest) :
    Grows m m'' dest where
  keys k hk := (h'.keys k hk).trans (h.keys k hk)
  freed := h'.freed.trans h.freed
  next := h'.next.trans h.next
  buffers b hb := (h'.buffers b (lt_of_lt_of_le hb h.nextBuffer)).trans (h.buffers b hb)
  nextBuffer := h.nextBuffer.trans h'.nextBuffer
  keysets ks hks := (h'.keysets ks (lt_of_lt_of_le hks h.nextKeySet)).trans (h.keysets ks hks)
  nextKeySet := h.nextKeySet.trans h'.nextKeySet
  succeeds := h'.succeeds.trans h.succeeds

/-- `ptr` is a new buffer with the first `l` characters of `s`. -/
def Duplicates (m m' : Memory) (l : ℕ) (s ptr : Option Buffer) : Prop :=
  match s with
  | none => ptr = none
  | some s => ∃ b, ptr = some b ∧ m.nextBuffer ≤ b ∧ b < m'.nextBuffer ∧ m'.buffers b = (m.buffers s).map (·.take l)

section Duplicate

variable {m m' : Memory} {dest source : KeyRef}

theorem copyBuffer_spec (m : Memory) (dest : KeyRef) (s : Option Buffer) (l : ℕ)
    (put : Option Buffer → KeyStruct → KeyStruct) : ∃ ok ptr m', copyBuffer m dest s l put = (ok, m') ∧
      m'.keys = Function.update m.keys dest (put ptr (m.keys dest)) ∧ Grows m m' dest ∧
      m'.keysets = m.keysets ∧ m'.nextKeySet = m.nextKeySet ∧
      m'.allocs = m.allocs + (if s = none then 0 else 1) ∧
      (ok = true ∧ ¬ (s ≠ none ∧ m.succeeds m.allocs = false) ∧ Duplicates m m' l s ptr ∨
        ok = false ∧ (s ≠ none ∧ m.succeeds m.allocs = false) ∧ ptr = none) := by
  have hkeys : ∀ (m : Memory) (key : KeyStruct) k, k ≠ dest → ((m.set dest key).keys k).uncounted = (m.keys k).uncounted :=
    fun m key k hk => congrArg _ (Function.update_of_ne hk _ _)
  cases s with
  | none =>
    exact ⟨true, none, _, rfl, rfl, ⟨fun k hk => hkeys _ _ k hk, rfl, rfl, fun _ _ => rfl, le_rfl, fun _ _ => rfl, le_rfl, rfl⟩,
      rfl, rfl, rfl, .inl ⟨rfl, fun h => h.1 rfl, rfl⟩⟩
  | some b =>
    unfold copyBuffer elektraStrNDup
    dsimp only
    cases hok : m.succeeds m.allocs with
    | true =>
      rw [if_pos rfl]
      refine ⟨true, some m.nextBuffer, _, rfl, rfl, ⟨fun k hk => hkeys _ _ k hk, rfl, rfl, fun c hc => ?_, Nat.le_succ _,
        fun _ _ => rfl, le_rfl, rfl⟩, rfl, rfl, rfl, .inl ⟨rfl, fun h => absurd h.2 (by simp), ?_⟩⟩
      · exact Function.update_of_ne (Nat.ne_of_lt hc) _ _
      · exact ⟨m.nextBuffer, rfl, le_rfl, Nat.lt_succ_self _, Function.update_self _ _ _⟩
    | false =>
      rw [if_neg Bool.false_ne_true]
      exact ⟨false, none, _, rfl, rfl, ⟨fun k hk => hkeys _ _ k hk, rfl, rfl, fun _ _ => rfl, le_rfl, fun _ _ => rfl, le_rfl,
        rfl⟩, rfl, rfl, rfl, .inr ⟨rfl, ⟨Option.some_ne_none b, rfl⟩, rfl⟩⟩

theorem Same.alike {r : KeyRef} (h : Same m m' r) (hr : (m.keys r).metaKeys = none) :
    Alike (m.heap.cell r) (m'.heap.cell r) := by
  have htext := h.text
  have hmeta : (m'.heap.cell r).metaKeys = (m.heap.cell r).metaKeys := by
    have hnone : ∀ m : Memory, (m.keys r).metaKeys = none → (m.heap.cell r).metaKeys = [] := fun m hm => by
      change (m.metadata r).map m.entry = []
      rw [Memory.metadata, hm]
      rfl
    rw [hnone m hr, hnone m' (h.metaKeys.trans hr)]
  refine ⟨congrArg Text.value htext, congrArg Text.name htext, congrArg Text.uname htext, congrArg Text.keySize htext,
    congrArg Text.keyUSize htext, fun hro => ?_, fun n _ => ?_⟩
  · exact (congrArg KeyStruct.roName h.struct :).trans hro
  · rw [Elektra.keyGetMeta, hmeta]
    rfl

theorem ksDup_fails {s : KeySetRef} {ks : KeySet} (hks : m.keysets s = some ks)
    (hfail : m.succeeds m.allocs = false ∨ m.succeeds (m.allocs + 1) = false) :
    ∃ n, ksDup m s = (none, { m with allocs := n }) := by
  unfold ksDup
  rw [hks]
  dsimp only
  by_cases h0 : m.succeeds m.allocs = true
  · have h1 := hfail.resolve_left (by simp [h0])
    rw [h0, h1]
    exact ⟨_, rfl⟩
  · rw [Bool.eq_false_of_not_eq_true h0]
    exact ⟨_, rfl⟩

theorem ksDup_copies {s : KeySetRef} {ks : KeySet} {map : Ident → Option KeyRef} (hks : m.keysets s = some ks)
    (hm : ks.Holds m.heap map) (h0 : m.succeeds m.allocs = true) (h1 : m.succeeds (m.allocs + 1) = true) :
    ∃ ks', ks'.array = ks.array ∧ ksDup m s = (some m.nextKeySet,
      { m with
        keys := fun k => { m.keys k with ksReference := (m.keys k).ksReference + ks.array.count k }
        keysets := Function.update m.keysets m.nextKeySet (some ks')
        nextKeySet := m.nextKeySet + 1
        allocs := m.allocs + 2 }) := by
  obtain ⟨hheap, harray, -⟩ := Elektra.ksDup_spec hm
  refine ⟨(Elektra.ksDup m.heap ks).2, harray, ?_⟩
  have hstore : m.store (Elektra.ksDup m.heap ks).1 =
      { m with keys := fun k => { m.keys k with ksReference := (m.keys k).ksReference + ks.array.count k } } := by
    have hcell : ∀ k, ((Elektra.ksDup m.heap ks).1.cell k).roName = (m.keys k).roName ∧
        ((Elektra.ksDup m.heap ks).1.cell k).ksReference = (m.keys k).ksReference + ks.array.count k := fun k => by
      rw [hheap, foldl_incRef_cell]
      exact ⟨rfl, rfl⟩
    have hfreed : (Elektra.ksDup m.heap ks).1.freed = m.freed := by
      rw [hheap, foldl_incRef_freed]
      rfl
    unfold Memory.store
    rw [hfreed]
    simp only [hcell]
  unfold ksDup
  rw [hks]
  dsimp only
  rw [h0, h1, hstore]
  rfl

/-- No memory for a duplicate of the metadata. -/
def Memory.NoKeySet (m : Memory) (s : Option KeySetRef) : Prop :=
  s ≠ none ∧ (m.succeeds m.allocs = false ∨ m.succeeds (m.allocs + 1) = false)

theorem copyMeta_spec (m : Memory) {dest source : KeyRef}
    (hset : ∀ s, (m.keys source).metaKeys = some s → ∃ ks map, m.keysets s = some ks ∧ ks.Holds m.heap map ∧
      dest ∉ ks.array) : ∃ ok ptr m', copyMeta m dest source = (ok, m') ∧
      m'.keys dest = { m.keys dest with metaKeys := ptr } ∧ Grows m m' dest ∧ m'.buffers = m.buffers ∧
      (ok = true ∧ ¬ m.NoKeySet (m.keys source).metaKeys ∧
        (∀ k ≠ dest, (m'.keys k).ksReference = (m.keys k).ksReference + (m.metadata source).count k) ∧
        (ptr = none ∧ (m.keys source).metaKeys = none ∨ ∃ s ks ks', (m.keys source).metaKeys = some s ∧
          m.keysets s = some ks ∧ ptr = some m.nextKeySet ∧ m'.keysets m.nextKeySet = some ks' ∧
          ks'.array = ks.array) ∨
        ok = false ∧ m.NoKeySet (m.keys source).metaKeys ∧ ptr = none) := by
  have hkeys : ∀ (m : Memory) (key : KeyStruct) k, k ≠ dest → (m.set dest key).keys k = m.keys k :=
    fun m key k hk => Function.update_of_ne hk _ _
  unfold copyMeta
  cases hs : (m.keys source).metaKeys with
  | none =>
    refine ⟨true, none, _, rfl, Function.update_self _ _ _,
      ⟨fun k hk => congrArg _ (hkeys _ _ k hk), rfl, rfl, fun _ _ => rfl, le_rfl, fun _ _ => rfl, le_rfl, rfl⟩, rfl,
      .inl ⟨rfl, fun h => h.1 rfl, fun k hk => ?_, .inl ⟨rfl, rfl⟩⟩⟩
    rw [hkeys _ _ k hk, Memory.metadata, hs]
    rfl
  | some s =>
    obtain ⟨ks, map, hks, hm, hdest⟩ := hset s hs
    dsimp only
    by_cases hok : m.succeeds m.allocs = true ∧ m.succeeds (m.allocs + 1) = true
    · obtain ⟨ks', harray, hrun⟩ := ksDup_copies hks hm hok.1 hok.2
      rw [hrun]
      refine ⟨true, some m.nextKeySet, _, rfl, ?_,
        ⟨fun k hk => (congrArg KeyStruct.uncounted (hkeys _ _ k hk)).trans rfl, rfl, rfl, fun _ _ => rfl, le_rfl, fun c hc => Function.update_of_ne (Nat.ne_of_lt hc) _ _, Nat.le_succ _, rfl⟩, rfl,
        .inl ⟨rfl, fun h => ?_, fun k hk => ?_, .inr ⟨s, ks, ks', rfl, hks, rfl, Function.update_self _ _ _, harray⟩⟩⟩
      · refine (Function.update_self _ _ _).trans ?_
        dsimp only
        rw [List.count_eq_zero_of_not_mem hdest, Nat.add_zero]
      · rw [Memory.NoKeySet, hok.1, hok.2] at h
        simp at h
      · rw [hkeys _ _ k hk, Memory.metadata, hs, Option.bind_some, hks]
        rfl
    · have hfail : m.succeeds m.allocs = false ∨ m.succeeds (m.allocs + 1) = false := by
        rw [not_and_or] at hok
        exact hok.imp Bool.eq_false_of_not_eq_true Bool.eq_false_of_not_eq_true
      obtain ⟨n, hrun⟩ := ksDup_fails hks hfail
      rw [hrun]
      exact ⟨false, none, _, rfl, Function.update_self _ _ _, ⟨fun k hk => congrArg _ (hkeys _ _ k hk), rfl, rfl, fun _ _ => rfl,
        le_rfl, fun _ _ => rfl, le_rfl, rfl⟩, rfl, .inr ⟨rfl, ⟨Option.some_ne_none s, hfail⟩, rfl⟩⟩

/-- No memory for the name -/
def Memory.NoKey (m : Memory) (source : KeyRef) : Prop := (m.keys source).key ≠ none ∧ m.succeeds m.allocs = false

/-- The allocations before that of the value -/
def Memory.dataAlloc (m : Memory) (source : KeyRef) : ℕ := m.allocs + if (m.keys source).key = none then 0 else 1

/-- Memory for the name, but not for the value -/
def Memory.NoData (m : Memory) (source : KeyRef) : Prop :=
  ¬ m.NoKey source ∧ (m.keys source).data ≠ none ∧ m.succeeds (m.dataAlloc source) = false

/-- `m'` is another memory in which `dest` has the texts `key` and `data`. -/
structure Texts (m m' : Memory) (dest : KeyRef) (key data : Option Buffer) : Prop where
  keys : m'.keys = Function.update m.keys dest { m.keys dest with key := key, data := data }
  grows : Grows m m' dest
  keysets : m'.keysets = m.keysets
  nextKeySet : m'.nextKeySet = m.nextKeySet

theorem Duplicates.grows {m'' : Memory} {l : ℕ} {s ptr : Option Buffer} (h : Duplicates m m' l s ptr)
    (hg : Grows m' m'' dest) : Duplicates m m'' l s ptr := by
  cases s with
  | none => exact h
  | some s =>
    obtain ⟨b, hptr, hle, hlt, hb⟩ := h
    exact ⟨b, hptr, hle, lt_of_lt_of_le hlt hg.nextBuffer, (hg.buffers b hlt).trans hb⟩

theorem Duplicates.le {l : ℕ} {s ptr : Option Buffer} (h : Duplicates m m' l s ptr) :
    ∀ b, ptr = some b → m.nextBuffer ≤ b := by
  intro b hb
  cases s with
  | none => cases h.symm.trans hb
  | some s =>
    obtain ⟨c, hptr, hle, -⟩ := h
    obtain rfl := Option.some.inj (hb.symm.trans hptr)
    exact hle

theorem copyTexts_spec (m : Memory) (dest source : KeyRef)
    (hs : ∀ b, (m.keys source).data = some b → b < m.nextBuffer) :
    (m.NoKey source ∧ ∃ m1, copyKey m dest source = (false, m1) ∧ Texts m m1 dest none (m.keys dest).data) ∨
      ¬ m.NoKey source ∧ ∃ m1 key, copyKey m dest source = (true, m1) ∧
        (∀ b, key = some b → m.nextBuffer ≤ b) ∧
        (m.NoData source ∧ (∃ m2, copyData m1 dest source = (false, m2) ∧ Texts m m2 dest key none) ∨
          ¬ m.NoData source ∧ ∃ m2 data, copyData m1 dest source = (true, m2) ∧ Texts m m2 dest key data ∧
            Duplicates m m2 ((m.keys source).keySize + (m.keys source).keyUSize) (m.keys source).key key ∧
            Duplicates m m2 (m.keys source).dataSize (m.keys source).data data) := by
  obtain ⟨ok, key, m1, hrun, hkeys, hgrows, hsets, hnext, hallocs, hok⟩ := copyBuffer_spec m dest (m.keys source).key
    ((m.keys source).keySize + (m.keys source).keyUSize) fun ptr key => { key with key := ptr }
  have hdest : m1.keys dest = { m.keys dest with key := key } := by rw [hkeys]; exact Function.update_self _ _ _
  obtain ⟨rfl, hno, hdup⟩ | ⟨rfl, hno, rfl⟩ := hok
  · refine .inr ⟨hno, m1, key, hrun, hdup.le, ?_⟩
    -- the value of `source` is as before, also where it is `dest`
    have hsource : (m1.keys source).data = (m.keys source).data ∧ (m1.keys source).dataSize = (m.keys source).dataSize := by
      by_cases he : source = dest
      · rw [he, hdest]
        exact ⟨rfl, rfl⟩
      · rw [hkeys, Function.update_of_ne he]
        exact ⟨rfl, rfl⟩
    obtain ⟨ok', data, m2, hrun', hkeys', hgrows', hsets', hnext', -, hok'⟩ := copyBuffer_spec m1 dest (m1.keys source).data
      (m1.keys source).dataSize fun ptr key => { key with data := ptr }
    rw [hsource.1, hgrows.succeeds, hallocs] at hok'
    have htexts : Texts m m2 dest key data := by
      refine ⟨?_, hgrows.trans hgrows', hsets'.trans hsets, hnext'.trans hnext⟩
      rw [hkeys', hdest, hkeys]
      exact Function.update_idem _ _ _
    obtain ⟨rfl, hno', hdup'⟩ | ⟨rfl, hno', rfl⟩ := hok'
    · refine .inr ⟨fun h => hno' h.2, m2, data, hrun', htexts, hdup.grows hgrows', ?_⟩
      rw [hsource.2] at hdup'
      cases hd : (m.keys source).data with
      | none =>
        rw [hd] at hdup'
        exact hdup'
      | some b =>
        rw [hd] at hdup'
        obtain ⟨c, hptr, hle, hlt, hc⟩ := hdup'
        exact ⟨c, hptr, hgrows.nextBuffer.trans hle, hlt, by rw [hc, hgrows.buffers b (hs b hd)]⟩
    · exact .inl ⟨⟨hno, hno'⟩, m2, hrun', htexts⟩
  · exact .inl ⟨hno, m1, hrun, hkeys, hgrows, hsets, hnext⟩

end Duplicate

/-! ## Keys that own what they point to -/

/-- No two keys point to the same. -/
structure Memory.Separate (m : Memory) : Prop where
  freshBuffer : ∀ b, m.nextBuffer ≤ b → m.buffers b = none
  freshKeySet : ∀ ks, m.nextKeySet ≤ ks → m.keysets ks = none
  buffers : ∀ k j b, m.freed k = false → m.freed j = false → m.Owns k b → m.Owns j b → k = j
  keysets : ∀ k j ks, m.freed k = false → m.freed j = false → (m.keys k).metaKeys = some ks →
    (m.keys j).metaKeys = some ks → k = j

/-- Two keys, which may be the same one, and their metadata: metakeys have none themselves, and their
counters count the key sets that refer to them. -/
structure Memory.Valid (m : Memory) (dest source : KeyRef) : Prop extends m.Separate where
  destAlive : m.Alive dest
  sourceAlive : m.Alive source
  holds : ∀ k, k = dest ∨ k = source → ∀ s ks, (m.keys k).metaKeys = some s → m.keysets s = some ks →
    ∃ map, ks.Holds m.heap map
  metaKey : ∀ k, k = dest ∨ k = source → ∀ r ∈ m.metadata k, (m.keys r).metaKeys = none
  refs : ∀ r, (m.metadata dest).count r + (if dest = source then 0 else (m.metadata source).count r) ≤
    (m.keys r).ksReference

section Valid

variable {m m' m1 : Memory} {dest source k r : KeyRef} {key data : Option Buffer}

theorem Memory.Separate.lt (hm : m.Separate) (hk : m.Sound k) {b : Buffer} (hb : m.Owns k b) : b < m.nextBuffer := by
  by_contra hlt
  have hnone := hm.freshBuffer b (not_lt.mp hlt)
  exact hb.elim (fun h => hk.key b h hnone) fun h => hk.data b h hnone

theorem Memory.Separate.ks_lt (hm : m.Separate) (hk : m.Alive k) {s : KeySetRef} (hs : (m.keys k).metaKeys = some s) :
    s < m.nextKeySet := by
  by_contra hlt
  exact hk.keyset s hs (hm.freshKeySet s (not_lt.mp hlt))

theorem Grows.same (h : Grows m m' dest) (hm : m.Separate) (hk : m.Sound k) (hne : k ≠ dest) : Same m m' k where
  struct := h.keys k hne
  buffers b hb := h.buffers b (hm.lt hk hb)
  freed := congrFun h.freed k

theorem Memory.Valid.metadata_cases (hv : m.Valid dest source) (hk : k = dest ∨ k = source) :
    m.metadata k = [] ∨ ∃ (ks : KeySet) (map : Ident → Option KeyRef), ks.Holds m.heap map ∧ m.metadata k = ks.array := by
  rw [Memory.metadata]
  cases hs : (m.keys k).metaKeys with
  | none => exact .inl rfl
  | some s =>
    rw [Option.bind_some]
    cases hks : m.keysets s with
    | none => exact .inl rfl
    | some ks =>
      obtain ⟨map, hm⟩ := hv.holds k hk s ks hs hks
      exact .inr ⟨ks, map, hm, rfl⟩

theorem Memory.Valid.nodup (hv : m.Valid dest source) (hk : k = dest ∨ k = source) : (m.metadata k).Nodup := by
  obtain h | ⟨ks, map, hm, h⟩ := hv.metadata_cases hk
  · rw [h]
    exact List.nodup_nil
  · rw [h]
    exact hm.sorted.nodup

theorem not_mem_metadata (hv : m.Valid dest source) (hlock : (m.keys dest).locked = false) (hk : k = dest ∨ k = source) :
    dest ∉ m.metadata k := by
  intro hmem
  obtain h | ⟨ks, map, hm, h⟩ := hv.metadata_cases hk
  · rw [h] at hmem
    exact List.not_mem_nil hmem
  · rw [h] at hmem
    have hro : (m.keys dest).roName = true := hm.locked dest hmem
    rw [KeyStruct.locked, hro] at hlock
    cases hlock

theorem memerror_restores (fuel : ℕ) (hm : m.Separate) (hd : m1.keys dest =
      { m.keys dest with key := key, data := data, metaKeys := none }) (hg : Grows m m1 dest)
    (hkey : ∀ b, key = some b → m.nextBuffer ≤ b) (hdata : ∀ b, data = some b → m.nextBuffer ≤ b) :
    ∃ m', memerror fuel m1 dest (m.keys dest) = (-1, m') ∧ m'.keys dest = m.keys dest ∧
      ∀ k, m.Alive k → SameKey m m' k := by
  have hfree : (elektraFree (elektraFree m1 key) data).keys = m1.keys := by rw [elektraFree_keys, elektraFree_keys]
  have hrun : memerror fuel m1 dest (m.keys dest) =
      (-1, (elektraFree (elektraFree m1 key) data).set dest (m.keys dest)) := by
    unfold memerror
    dsimp only
    rw [elektraFree_keys, hd]
    dsimp only
    rw [hfree, hd]
    dsimp only [ksDel, ksDelWith]
    rw [hfree, hd]
  have hbuffers : ∀ b < m.nextBuffer, (elektraFree (elektraFree m1 key) data).buffers b = m.buffers b := fun b hb => by
    rw [elektraFree_buffers _ (fun h => absurd hb (not_lt.mpr (hdata b h))),
      elektraFree_buffers _ (fun h => absurd hb (not_lt.mpr (hkey b h))), hg.buffers b hb]
  have hkeys := (elektraFree (elektraFree m1 key) data).set_self dest (m.keys dest)
  have hsame : ∀ k, m.Sound k → Same m ((elektraFree (elektraFree m1 key) data).set dest (m.keys dest)) k := by
    refine fun k hk => ⟨?_, fun b hb => hbuffers b (hm.lt hk hb), ?_⟩
    · by_cases he : k = dest
      · rw [he, hkeys]
      · refine Eq.trans ?_ (hg.keys k he)
        rw [← hfree]
        exact congrArg _ (Function.update_of_ne he _ _)
    · refine Eq.trans ?_ (congrFun hg.freed k)
      exact congrFun ((elektraFree_freed _ _).trans (elektraFree_freed _ _)) k
  refine ⟨_, hrun, hkeys, fun k hk => ⟨hsame k hk.toSound, fun s hs => ?_, fun r hr => hsame r (hk.metaKeys r hr)⟩⟩
  refine Eq.trans ?_ (hg.keysets s (hm.ks_lt hk hs))
  exact congrFun ((elektraFree_keysets _ _).trans (elektraFree_keysets _ _)) s

theorem memerror_loses (fuel : ℕ) (old : KeyStruct) {s : Option KeySetRef} (hd : m1.keys dest =
      { old with key := key, data := data, metaKeys := s }) :
    (∀ b, s = none → data = some b → (memerror fuel m1 dest old).2.buffers b = none) ∧
      (∀ ks, s = some ks → (memerror fuel m1 dest old).2.keysets ks = none) ∧
      ((memerror fuel m1 dest old).2.keys dest).data = old.data ∧
      ((memerror fuel m1 dest old).2.keys dest).metaKeys = old.metaKeys := by
  have hfree : (elektraFree (elektraFree m1 key) data).keys = m1.keys := by rw [elektraFree_keys, elektraFree_keys]
  have hrun : (memerror fuel m1 dest old).2 = (ksDel fuel (elektraFree (elektraFree m1 key) data) s).set dest
      { (ksDel fuel (elektraFree (elektraFree m1 key) data) s).keys dest with
        key := old.key, data := old.data, metaKeys := old.metaKeys } := by
    unfold memerror
    dsimp only
    rw [elektraFree_keys, hd]
    dsimp only
    rw [hfree, hd]
  rw [hrun]
  refine ⟨fun b hs hb => ?_, fun ks hs => ?_, ?_, ?_⟩
  · rw [hs, hb]
    exact Function.update_self _ _ _
  · rw [hs]
    exact Function.update_self _ _ _
  · rw [Memory.set_self]
  · rw [Memory.set_self]

theorem text_duplicate (hkeySize : (m'.keys dest).keySize = (m.keys source).keySize)
    (hkeyUSize : (m'.keys dest).keyUSize = (m.keys source).keyUSize)
    (hdataSize : (m'.keys dest).dataSize = (m.keys source).dataSize)
    (hkey : (m'.keys dest).key.bind m'.buffers = ((m.keys source).key.bind m.buffers).map
      (·.take ((m.keys source).keySize + (m.keys source).keyUSize)))
    (hdata : (m'.keys dest).data.bind m'.buffers = ((m.keys source).data.bind m.buffers).map
      (·.take (m.keys source).dataSize)) : m'.text dest = m.text source := by
  have hname : m'.name dest = m.name source := by
    rw [Memory.name, Memory.name, hkey, hkeySize, Option.map_map]
    refine Option.map_congr fun s _ => ?_
    rw [Function.comp_apply, List.take_take, min_eq_left ((Nat.sub_le _ _).trans (Nat.le_add_right _ _))]
  have huname : m'.uname dest = m.uname source := by
    rw [Memory.uname, Memory.uname, hkey, hkeySize, hkeyUSize]
    cases (m.keys source).key.bind m.buffers with
    | none => rfl
    | some s => rw [Option.map_some, Option.elim_some, Option.elim_some, List.drop_take, Nat.add_sub_cancel_left,
        List.take_take, min_self]
  have hvalue : m'.value dest = m.value source := by
    rw [Memory.value, Memory.value, hdata, hdataSize, Option.map_map]
    refine Option.map_congr fun s _ => ?_
    rw [Function.comp_apply, List.take_take, min_self]
  rw [Memory.text, Memory.text, hname, huname, hvalue, hkeySize, hkeyUSize, hdataSize]

theorem Duplicates.bind {l : ℕ} {s ptr : Option Buffer} (h : Duplicates m m1 l s ptr)
    (hb : ∀ b, m.nextBuffer ≤ b → m'.buffers b = m1.buffers b) :
    ptr.bind m'.buffers = (s.bind m.buffers).map (·.take l) := by
  cases s with
  | none =>
    rw [(h : ptr = none)]
    rfl
  | some s =>
    obtain ⟨b, rfl, hle, -, hbuf⟩ := h
    rw [Option.bind_some, Option.bind_some, hb b hle, hbuf]

theorem Duplicates.ne_none {l : ℕ} {s ptr : Option Buffer} (h : Duplicates m m1 l s ptr)
    (hs : ∀ b, s = some b → m.buffers b ≠ none) : ∀ b, ptr = some b → m1.buffers b ≠ none := by
  intro b hb
  cases s with
  | none => cases (h : ptr = none).symm.trans hb
  | some s =>
    obtain ⟨c, hptr, -, -, hbuf⟩ := h
    obtain rfl := Option.some.inj (hb.symm.trans hptr)
    rw [hbuf]
    exact fun h => hs s rfl (Option.map_eq_none_iff.mp h)

/-- The metadata that a key set `ptr` of `m'` has in common with `source`. -/
def SharesMeta (m m' : Memory) (source : KeyRef) (ptr : Option KeySetRef) : Prop :=
  ptr = none ∧ (m.keys source).metaKeys = none ∨ ∃ s ks ks', (m.keys source).metaKeys = some s ∧
    m.keysets s = some ks ∧ ptr = some m.nextKeySet ∧ m'.keysets m.nextKeySet = some ks' ∧ ks'.array = ks.array

/-- **There was memory for everything:** `dest` shows what `source` does, and `source` is there unless it was
a metakey of `dest` alone. -/
theorem finishCopy_spec (fuel : ℕ) (hv : m.Valid dest source) (hlock : (m.keys dest).locked = false)
    {ptr : Option KeySetRef} (hd : m1.keys dest = { m.keys dest with key := key, data := data, metaKeys := ptr })
    (hg : Grows m m1 dest)
    (hkey : Duplicates m m1 ((m.keys source).keySize + (m.keys source).keyUSize) (m.keys source).key key)
    (hdata : Duplicates m m1 (m.keys source).dataSize (m.keys source).data data)
    (hrefs : ∀ k ≠ dest, (m1.keys k).ksReference = (m.keys k).ksReference + (m.metadata source).count k)
    (hmeta : SharesMeta m m1 source ptr) :
    ∃ m', finishCopy (fuel + 1) m1 dest source (m.keys dest) = (1, m') ∧ m'.contents dest = m.contents source ∧
      m'.Alive dest ∧ (source ≠ dest → (source ∈ m.metadata dest → 1 < (m.keys source).ksReference) → SameKey m m' source) ∧
      (source ∈ m.metadata dest → (m.keys source).ksReference ≤ 1 → m'.freed source = true) := by
  have hsizes : (m1.keys source).keySize = (m.keys source).keySize ∧
      (m1.keys source).keyUSize = (m.keys source).keyUSize ∧ (m1.keys source).dataSize = (m.keys source).dataSize := by
    by_cases he : source = dest
    · rw [he, hd]
      exact ⟨rfl, rfl, rfl⟩
    · have hs := hg.keys source he
      exact ⟨(congrArg KeyStruct.keySize hs :), (congrArg KeyStruct.keyUSize hs :), (congrArg KeyStruct.dataSize hs :)⟩
  set mf := m1.set dest
    { m1.keys dest with
      sync := true, keySize := (m1.keys source).keySize, keyUSize := (m1.keys source).keyUSize,
      dataSize := (m1.keys source).dataSize } with hmf
  set m4 := elektraFree (elektraFree mf (m.keys dest).key) (m.keys dest).data with hm4
  have hrun : finishCopy (fuel + 1) m1 dest source (m.keys dest) = (1, ksDel (fuel + 1) m4 (m.keys dest).metaKeys) := rfl
  have hkeys4 : m4.keys = mf.keys := by rw [hm4, elektraFree_keys, elektraFree_keys]
  have hfreed4 : m4.freed = m.freed := by
    rw [hm4, elektraFree_freed, elektraFree_freed]
    exact hg.freed
  have hsets4 : m4.keysets = m1.keysets := by
    rw [hm4, elektraFree_keysets, elektraFree_keysets]
    rfl
  have hbuffers4 : ∀ b, ¬ m.Owns dest b → m4.buffers b = m1.buffers b := fun b hb => by
    rw [Memory.Owns, not_or] at hb
    rw [hm4, elektraFree_buffers _ hb.2, elektraFree_buffers _ hb.1]
    rfl
  have hfresh : ∀ b, m.nextBuffer ≤ b → ¬ m.Owns dest b := fun b hb hown =>
    absurd (hv.toSeparate.lt hv.destAlive.toSound hown) (not_lt.mpr hb)
  have hdest4 : m4.keys dest =
      { m.keys dest with
        key := key, data := data, metaKeys := ptr, sync := true, keySize := (m.keys source).keySize,
        keyUSize := (m.keys source).keyUSize, dataSize := (m.keys source).dataSize } := by
    rw [hkeys4, hmf, Memory.set_self, hd, hsizes.1, hsizes.2.1, hsizes.2.2]
  have hne4 : ∀ k ≠ dest, m4.keys k = m1.keys k := fun k hk => by rw [hkeys4, hmf, Memory.set_ne _ _ hk]
  -- other keys are as before until the old metadata is deleted
  have hsame4 : ∀ k ≠ dest, m.Sound k → Same m m4 k := fun k hk hsound => by
    refine ⟨(congrArg _ (hne4 k hk)).trans (hg.keys k hk), fun b hb => ?_, congrFun hfreed4 k⟩
    rw [hbuffers4 b fun h => hk (hv.buffers k dest b hsound.live hv.destAlive.live hb h),
      hg.buffers b (hv.toSeparate.lt hsound hb)]
  have hl : m.metadata dest = ((m.keys dest).metaKeys.bind m4.keysets).elim [] KeySet.array := by
    rw [Memory.metadata]
    refine congrArg (fun o : Option KeySet => o.elim [] KeySet.array) (Option.bind_congr fun s hs => ?_)
    rw [hsets4, hg.keysets s (hv.toSeparate.ks_lt hv.destAlive hs)]
  have hdestl : dest ∉ m.metadata dest := not_mem_metadata hv hlock (.inl rfl)
  have hsoundl : ∀ r ∈ m.metadata dest, m.Sound r := hv.destAlive.metaKeys
  obtain ⟨hdel, hdelsets, hdead⟩ := ksDel_same fuel hl (hv.nodup (.inl rfl)) fun r hr => by
    have hrd : r ≠ dest := fun he => hdestl (he ▸ hr)
    rw [(hsame4 r hrd (hsoundl r hr)).metaKeys]
    exact hv.metaKey dest (.inl rfl) r hr
  have hrefs4 : ∀ k ≠ dest, (m4.keys k).ksReference = (m.keys k).ksReference + (m.metadata source).count k := fun k hk => by
    rw [hne4 k hk, hrefs k hk]
  generalize ksDel (fuel + 1) m4 (m.keys dest).metaKeys = m' at hrun hdel hdelsets hdead
  have hkept : ∀ k ≠ dest, m.Sound k →
      (k ∈ m.metadata dest → 1 < (m.keys k).ksReference + (m.metadata source).count k) → Same m m' k := by
    intro k hk hsound href
    refine (hsame4 k hk hsound).trans (hdel k (fun h => by rw [hrefs4 k hk]; exact href h) fun r hr hrk b hb => ?_)
    have hrd : r ≠ dest := fun he => hdestl (he ▸ hr)
    rw [(hsame4 r hrd (hsoundl r hr)).owns]
    exact fun h => hrk (hv.buffers r k b (hsoundl r hr).live hsound.live h ((hsame4 k hk hsound).owns.mp hb))
  have hnew : Same m4 m' dest := by
    refine hdel dest (fun h => absurd h hdestl) fun r hr hrd b hb => ?_
    rw [(hsame4 r hrd (hsoundl r hr)).owns]
    refine fun h => absurd (hv.toSeparate.lt (hsoundl r hr) h) (not_lt.mpr ?_)
    rw [Memory.Owns, hdest4] at hb
    exact hb.elim (hkey.le b) (hdata.le b)
  have hmetaKeys : ∀ r ∈ m.metadata source, Same m m' r := fun r hr => by
    refine hkept r (fun he => not_mem_metadata hv hlock (.inr rfl) (he ▸ hr)) (hv.sourceAlive.metaKeys r hr) fun h => ?_
    have href := hv.refs r
    have hpos := List.count_pos_iff.mpr h
    have hpos' := List.count_pos_iff.mpr hr
    split_ifs at href <;> omega
  have hptr : (m'.keys dest).metaKeys = ptr := hnew.metaKeys.trans (by rw [hdest4])
  have hset : ∀ s, m.nextKeySet ≤ s → m'.keysets s = m1.keysets s := fun s hs => by
    rw [hdelsets s fun h => absurd (hv.toSeparate.ks_lt hv.destAlive h) (not_lt.mpr hs), hsets4]
  have htext : m'.text dest = m.text source := by
    rw [hnew.text]
    refine text_duplicate (by rw [hdest4]) (by rw [hdest4]) (by rw [hdest4]) ?_ ?_
    · rw [hdest4]
      exact hkey.bind fun b hb => hbuffers4 b (hfresh b hb)
    · rw [hdest4]
      exact hdata.bind fun b hb => hbuffers4 b (hfresh b hb)
  have hallocated : ∀ b, key = some b ∨ data = some b → m'.buffers b ≠ none := fun b hb => by
    have hown : m4.Owns dest b := by rw [Memory.Owns, hdest4]; exact hb
    rw [hnew.buffers b hown, hbuffers4 b (hfresh b (hb.elim (hkey.le b) (hdata.le b)))]
    exact hb.elim (hkey.ne_none hv.sourceAlive.key b) (hdata.ne_none hv.sourceAlive.data b)
  refine ⟨m', hrun, ?_, ⟨⟨?_, fun b hb => ?_, fun b hb => ?_⟩, fun s hs => ?_, fun r hr => ?_⟩, fun hne hC => ?_,
    fun hmem href => ?_⟩
  · rw [Memory.contents, Memory.contents, htext, hptr]
    refine congrArg _ ?_
    obtain ⟨rfl, hnone⟩ | ⟨s, ks, ks', hs, hks, rfl, hks', harray⟩ := hmeta
    · rw [hnone]
      rfl
    · rw [hs, Option.map_some, Option.map_some, hset _ le_rfl, hks', hks, Option.map_some, Option.map_some, harray]
      refine congrArg (some ∘ some) (List.map_congr_left fun r hr => ?_)
      rw [(hmetaKeys r (by rw [Memory.metadata, hs, Option.bind_some, hks]; exact hr)).text]
  · exact hnew.freed.trans ((congrFun hfreed4 dest).trans hv.destAlive.live)
  · refine hallocated b (.inl ?_)
    rw [hnew.key, hdest4] at hb
    exact hb
  · refine hallocated b (.inr ?_)
    rw [hnew.data, hdest4] at hb
    exact hb
  · rw [hptr] at hs
    obtain ⟨rfl, -⟩ | ⟨s', ks, ks', -, -, rfl, hks', -⟩ := hmeta
    · cases hs
    · obtain rfl := Option.some.inj hs
      rw [hset _ le_rfl, hks']
      exact Option.some_ne_none ks'
  · rw [Memory.metadata, hptr] at hr
    obtain ⟨rfl, -⟩ | ⟨s', ks, ks', hs, hks, rfl, hks', harray⟩ := hmeta
    · exact absurd hr List.not_mem_nil
    · rw [Option.bind_some, hset _ le_rfl, hks', Option.elim_some, harray] at hr
      have hmem : r ∈ m.metadata source := by rw [Memory.metadata, hs, Option.bind_some, hks]; exact hr
      exact (hmetaKeys r hmem).sound (hv.sourceAlive.metaKeys r hmem)
  · refine ⟨hkept source hne hv.sourceAlive.toSound fun h => Nat.lt_add_right _ (hC h), fun s hs => ?_, hmetaKeys⟩
    rw [hdelsets s fun h => hne (hv.keysets source dest s hv.sourceAlive.live hv.destAlive.live hs h), hsets4,
      hg.keysets s (hv.toSeparate.ks_lt hv.sourceAlive hs)]
  · -- a metakey has no metadata that would refer to it
    have hnone : m.metadata source = [] := by
      rw [Memory.metadata, hv.metaKey dest (.inl rfl) source hmem]
      rfl
    refine hdead source hmem ?_
    rw [hrefs4 source fun h => hdestl (h ▸ hmem), hnone, List.count_nil, Nat.add_zero]
    exact href

end Valid

/-! ## keyCopy -/

/-- `dest` is as `source` or, when there was no memory, as it was; `source` is as it was, and all of both is
allocated. -/
structure Copies (m m' : Memory) (dest source : KeyRef) (ret : ℤ) : Prop where
  result : ret = 1 ∧ m'.contents dest = m.contents source ∨
    ret = -1 ∧ m'.keys dest = m.keys dest ∧ m'.contents dest = m.contents dest
  destAlive : m'.Alive dest
  sourceAlive : m'.Alive source
  contents : m'.contents source = m.contents source
  struct : source ≠ dest → (m'.keys source).uncounted = (m.keys source).uncounted

/-- `keyCopy` does what it is for. -/
def CopiesKey (fuel : ℕ) (m : Memory) (dest source : KeyRef) : Prop :=
  ∃ ret m', keyCopy fuel m (some dest) (some source) = (ret, m') ∧ Copies m m' dest source ret

/-- There is nothing in `dest` that the exit for failures would free, and `source` is not a metakey that
only `dest` has. -/
structure SafeCopy (m : Memory) (dest source : KeyRef) : Prop where
  key : m.NoKey source → (m.keys dest).data = none ∧ (m.keys dest).metaKeys = none
  data : m.NoData source → (m.keys dest).metaKeys = none
  source : ¬ m.NoKey source → ¬ m.NoData source → source ∈ m.metadata dest → 1 < (m.keys source).ksReference

section KeyCopy

variable {m m' m1 : Memory} {dest source : KeyRef} {key data : Option Buffer}

theorem Copies.of_same {ret : ℤ} (hv : m.Valid dest source) (hret : ret = -1) (hkeys : m'.keys dest = m.keys dest)
    (hsame : ∀ k, m.Alive k → SameKey m m' k) : Copies m m' dest source ret where
  result := .inr ⟨hret, hkeys, (hsame dest hv.destAlive).contents⟩
  destAlive := (hsame dest hv.destAlive).alive hv.destAlive
  sourceAlive := (hsame source hv.sourceAlive).alive hv.sourceAlive
  contents := (hsame source hv.sourceAlive).contents
  struct _ := (hsame source hv.sourceAlive).struct

/-- The exit for failures is right where nothing of `dest` is left for it to free. -/
theorem memerror_iff (fuel : ℕ) (hv : m.Valid dest source) (hd : m1.keys dest =
      { m.keys dest with key := key, data := data }) (hg : Grows m m1 dest)
    (hkey : ∀ b, key = some b → m.nextBuffer ≤ b) (hdata : data = none ∨ data = (m.keys dest).data) :
    Copies m (memerror fuel m1 dest (m.keys dest)).2 dest source (memerror fuel m1 dest (m.keys dest)).1 ↔
      data = none ∧ (m.keys dest).metaKeys = none := by
  constructor
  · intro h
    obtain ⟨hbuf, hks, hdata', hmeta'⟩ := memerror_loses fuel (m.keys dest) hd
    have hnone : (m.keys dest).metaKeys = none := by
      by_contra hne
      obtain ⟨s, hs⟩ := Option.ne_none_iff_exists'.mp hne
      exact h.destAlive.keyset s (hmeta'.trans hs) (hks s hs)
    refine ⟨?_, hnone⟩
    by_contra hne
    obtain ⟨b, hb⟩ := Option.ne_none_iff_exists'.mp hne
    exact h.destAlive.data b (hdata'.trans ((hdata.resolve_left hne).symm.trans hb)) (hbuf b hnone hb)
  · rintro ⟨rfl, hnone⟩
    have hd' : m1.keys dest = { m.keys dest with key := key, data := none, metaKeys := none } := by rw [hd, ← hnone]
    obtain ⟨m', hrun, hkeys, hsame⟩ := memerror_restores fuel hv.toSeparate hd' hg hkey fun b hb => by cases hb
    rw [hrun]
    exact .of_same hv rfl hkeys hsame

theorem Texts.of_source (h : Texts m m1 dest key data) :
    (m1.keys source).metaKeys = (m.keys source).metaKeys ∧ m1.metadata source = m.metadata source := by
  have hmeta : (m1.keys source).metaKeys = (m.keys source).metaKeys := by
    rw [h.keys, Function.update_apply]
    split_ifs with he
    · rw [he]
    · rfl
  exact ⟨hmeta, by rw [Memory.metadata, Memory.metadata, hmeta, h.keysets]⟩

theorem Texts.of_dest (h : Texts m m1 dest key data) : m1.keys dest = { m.keys dest with key := key, data := data } := by
  rw [h.keys, Function.update_self]

theorem Texts.holds (h : Texts m m1 dest key data) (hv : m.Valid dest source) (hlock : (m.keys dest).locked = false) :
    ∀ s, (m1.keys source).metaKeys = some s → ∃ ks map, m1.keysets s = some ks ∧ ks.Holds m1.heap map ∧
      dest ∉ ks.array := by
  intro s hs
  rw [h.of_source.1] at hs
  obtain ⟨ks, hks⟩ := Option.ne_none_iff_exists'.mp (hv.sourceAlive.keyset s hs)
  obtain ⟨map, hm⟩ := hv.holds source (.inr rfl) s ks hs hks
  have hmem : m.metadata source = ks.array := by rw [Memory.metadata, hs, Option.bind_some, hks]; rfl
  have hdest : dest ∉ ks.array := hmem ▸ not_mem_metadata hv hlock (.inr rfl)
  refine ⟨ks, map, by rw [h.keysets, hks], hm.of_cells (le_of_eq h.grows.next.symm) fun r hr => ?_, hdest⟩
  rw [← hmem] at hr
  exact (h.grows.same hv.toSeparate (hv.sourceAlive.metaKeys r hr) fun he => hdest (hmem ▸ he ▸ hr)).alike
    (hv.metaKey source (.inr rfl) r hr)

theorem keyCopy_noKey (fuel : ℕ) (hlock : (m.keys dest).locked = false) (h1 : copyKey m dest source = (false, m1)) :
    keyCopy fuel m (some dest) (some source) = memerror fuel m1 dest (m.keys dest) := by
  unfold keyCopy
  dsimp only
  rw [hlock, if_neg Bool.false_ne_true, h1]
  rfl

theorem keyCopy_noData (fuel : ℕ) (hlock : (m.keys dest).locked = false) {m2 : Memory}
    (h1 : copyKey m dest source = (true, m1)) (h2 : copyData m1 dest source = (false, m2)) :
    keyCopy fuel m (some dest) (some source) = memerror fuel m2 dest (m.keys dest) := by
  unfold keyCopy
  dsimp only
  rw [hlock, if_neg Bool.false_ne_true, h1]
  dsimp only
  rw [h2]
  rfl

theorem keyCopy_texts (fuel : ℕ) (hlock : (m.keys dest).locked = false) {m2 m3 : Memory} {ok : Bool}
    (h1 : copyKey m dest source = (true, m1)) (h2 : copyData m1 dest source = (true, m2))
    (h3 : copyMeta m2 dest source = (ok, m3)) : keyCopy fuel m (some dest) (some source) =
      if !ok then memerror fuel m3 dest (m.keys dest) else finishCopy fuel m3 dest source (m.keys dest) := by
  unfold keyCopy
  dsimp only
  rw [hlock, if_neg Bool.false_ne_true, h1]
  dsimp only
  rw [h2]
  dsimp only
  rw [h3]
  rfl

/-- **`keyCopy` copies or leaves everything as it is, exactly when the allocation that fails is not one
before old contents, and when it does not delete its own source.** -/
theorem keyCopy_iff (fuel : ℕ) (hv : m.Valid dest source) :
    CopiesKey (fuel + 1) m dest source ↔ (m.keys dest).locked = true ∨ SafeCopy m dest source := by
  cases hlock : (m.keys dest).locked with
  | true =>
    have hrun : keyCopy (fuel + 1) m (some dest) (some source) = (-1, m) := by
      unfold keyCopy
      dsimp only
      rw [if_pos hlock]
    refine ⟨fun _ => .inl rfl, fun _ => ⟨-1, m, hrun, .of_same hv rfl rfl fun k hk => ?_⟩⟩
    exact ⟨Same.refl m k, fun _ _ => rfl, fun r _ => Same.refl m r⟩
  | false =>
    have hlt : ∀ b, (m.keys source).data = some b → b < m.nextBuffer := fun b hb =>
      hv.toSeparate.lt hv.sourceAlive.toSound (.inr hb)
    have hiff : ∀ {run : ℤ × Memory}, keyCopy (fuel + 1) m (some dest) (some source) = run →
        (CopiesKey (fuel + 1) m dest source ↔ Copies m run.2 dest source run.1) := fun {run} hrun =>
      ⟨fun ⟨ret, m', hr, hc⟩ => by rw [← hrun, hr]; exact hc, fun h => ⟨run.1, run.2, hrun, h⟩⟩
    rw [or_iff_right Bool.false_ne_true]
    obtain ⟨hno, m1, h1, ht⟩ | ⟨hno, m1, key, h1, hkey, ⟨hno', m2, h2, ht⟩ | ⟨hno', m2, data, h2, ht, hdup, hdup'⟩⟩ :=
      copyTexts_spec m dest source hlt
    · -- no memory for the name
      rw [hiff (keyCopy_noKey _ hlock h1), memerror_iff _ hv ht.of_dest ht.grows (fun b hb => by cases hb) (.inr rfl)]
      exact ⟨fun h => ⟨fun _ => h, fun h => absurd hno h.1, fun h => absurd hno h⟩, fun h => h.key hno⟩
    · -- none for the value
      rw [hiff (keyCopy_noData _ hlock h1 h2), memerror_iff _ hv ht.of_dest ht.grows hkey (.inl rfl)]
      exact ⟨fun h => ⟨fun h => absurd h hno, fun _ => h.2, fun _ h => absurd hno' h⟩, fun h => ⟨rfl, h.data hno'⟩⟩
    · obtain ⟨ok, ptr, m3, h3, hd, hg, hbuf, hcase⟩ := copyMeta_spec m2 (ht.holds hv hlock)
      rw [hiff (keyCopy_texts _ hlock h1 h2 h3)]
      rw [ht.of_dest] at hd
      obtain ⟨rfl, -, hrefs, hptr⟩ | ⟨rfl, hno3, rfl⟩ := hcase
      · -- everything is copied
        have hmeta : SharesMeta m m3 source ptr := by
          rw [ht.of_source.1, ht.nextKeySet, ht.keysets] at hptr
          exact hptr
        have hrefs' : ∀ k ≠ dest, (m3.keys k).ksReference = (m.keys k).ksReference + (m.metadata source).count k :=
          fun k hk => by rw [hrefs k hk, ht.of_source.2, ht.keys, Function.update_of_ne hk]
        obtain ⟨m', hrun, hcontents, halive, hsame, hdead⟩ := finishCopy_spec fuel hv hlock hd (ht.grows.trans hg)
          (hdup.grows hg) (hdup'.grows hg) hrefs' hmeta
        rw [Bool.not_true, if_neg Bool.false_ne_true, hrun]
        constructor
        · refine fun h => ⟨fun h => absurd h hno, fun h => absurd h hno', fun _ _ hmem => ?_⟩
          by_contra href
          have hfreed := hdead hmem (not_lt.mp href)
          rw [h.sourceAlive.live] at hfreed
          cases hfreed
        · intro h
          by_cases he : source = dest
          · subst he
            exact ⟨.inl ⟨rfl, hcontents⟩, halive, halive, hcontents, fun h => absurd rfl h⟩
          · have hs := hsame he (h.source hno hno')
            exact ⟨.inl ⟨rfl, hcontents⟩, halive, hs.alive hv.sourceAlive, hs.contents, fun _ => hs.struct⟩
      · -- none for the metadata
        obtain ⟨m', hrun, hkeys, hsame⟩ := memerror_restores (fuel + 1) hv.toSeparate hd (ht.grows.trans hg) hkey hdup'.le
        rw [Bool.not_false, if_pos rfl, hrun]
        refine ⟨fun _ => ⟨fun h => absurd h hno, fun h => absurd h hno', fun _ _ hmem => ?_⟩,
          fun _ => .of_same hv rfl hkeys hsame⟩
        refine absurd (ht.of_source.1.trans ?_) hno3.1
        exact hv.metaKey dest (.inl rfl) source hmem

end KeyCopy

/-- `user/a` with the value `x`, `user/b` with the value `y` and the metadata `m`. -/
def twoKeys (succeeds : ℕ → Bool) : Memory where
  keys k :=
    if k = 0 then { keyInit with key := some 0, keySize := 7, keyUSize := 7, data := some 1, dataSize := 2 }
    else if k = 1 then
      { keyInit with key := some 2, keySize := 7, keyUSize := 7, data := some 3, dataSize := 2, metaKeys := some 0 }
    else if k = 2 then
      { keyInit with
        key := some 4, keySize := 2, keyUSize := 2, data := some 5, dataSize := 2, roName := true, roValue := true,
        roMeta := true, ksReference := 1 }
    else keyInit
  freed _ := false
  next := 3
  buffers b := [str "user/a\x00user\x00a\x00", str "x\x00", str "user/b\x00user\x00b\x00", str "y\x00", str "m\x00m\x00",
    str "z\x00"][b]?
  nextBuffer := 6
  keysets s := if s = 0 then some { array := [2], alloc := KEYSET_SIZE, cursor := none, current := 0, sync := false } else none
  nextKeySet := 1
  succeeds := succeeds
  allocs := 0

theorem valid_twoKeys (succeeds : ℕ → Bool) : (twoKeys succeeds).Valid 0 1 := by
  have howns : ∀ k b, (twoKeys succeeds).Owns k b → k = b / 2 ∧ b < 6 := by
    intro k b h
    unfold Memory.Owns twoKeys at h
    dsimp only at h
    split_ifs at h with h0 h1 h2
    · obtain h | h := h <;> obtain rfl := Option.some.inj h <;> exact ⟨h0, by decide⟩
    · obtain h | h := h <;> obtain rfl := Option.some.inj h <;> exact ⟨h1, by decide⟩
    · obtain h | h := h <;> obtain rfl := Option.some.inj h <;> exact ⟨h2, by decide⟩
    · obtain h | h := h <;> cases h
  have hsound : ∀ k, (twoKeys succeeds).Sound k := fun k => by
    have hbuf : ∀ b, (twoKeys succeeds).Owns k b → (twoKeys succeeds).buffers b ≠ none := fun b hb h =>
      absurd (howns k b hb).2 (not_lt.mpr (List.getElem?_eq_none_iff.mp h))
    exact ⟨rfl, fun b hb => hbuf b (.inl hb), fun b hb => hbuf b (.inr hb)⟩
  have hmeta : ∀ k s, ((twoKeys succeeds).keys k).metaKeys = some s → k = 1 ∧ s = 0 := by
    intro k s h
    unfold twoKeys at h
    dsimp only at h
    split_ifs at h with h0 h1 h2
    · cases h
    · exact ⟨h1, (Option.some.inj h).symm⟩
    · cases h
    · cases h
  have hentry : Entry (twoKeys succeeds).heap 2 := ⟨(by decide : 2 < 3), Option.some_ne_none _, rfl⟩
  have hmem : ∀ k, k = 0 ∨ k = 1 → ∀ r ∈ (twoKeys succeeds).metadata k, r = 2 := by
    rintro k (rfl | rfl) r hr
    · exact absurd hr List.not_mem_nil
    · exact List.mem_singleton.mp hr
  refine ⟨⟨fun b hb => List.getElem?_eq_none hb, fun s hs => if_neg (Nat.ne_of_gt hs), fun k j b _ _ hk hj => ?_,
    fun k j s _ _ hk hj => ?_⟩, ⟨hsound 0, fun s hs => ?_, fun r _ => hsound r⟩, ⟨hsound 1, fun s hs => ?_, fun r _ =>
    hsound r⟩, fun k _ s ks hs hks => ?_, fun k hk r hr => ?_, fun r => ?_⟩
  · exact (howns k b hk).1.trans (howns j b hj).1.symm
  · exact (hmeta k s hk).1.trans (hmeta j s hj).1.symm
  · cases hs
  · rw [(hmeta 1 s hs).2]
    exact Option.some_ne_none _
  · rw [(hmeta k s hs).2] at hks
    obtain rfl := Option.some.inj hks
    exact ⟨_, List.pairwise_singleton _ _, fun a ha => List.mem_singleton.mp ha ▸ hentry,
      fun a ha => List.mem_singleton.mp ha ▸ rfl, (by decide : 1 < KEYSET_SIZE), le_rfl, rfl⟩
  · rw [hmem k hk r hr]
    rfl
  · change 0 + [2].count r ≤ _
    by_cases hr : r = 2
    · subst hr
      exact le_rfl
    · rw [List.count_eq_zero_of_not_mem (List.mem_singleton.not.mpr hr)]
      exact Nat.zero_le _

theorem keyCopy_twoKeys : CopiesKey 1 (twoKeys fun _ => true) 0 1 :=
  (keyCopy_iff 0 (valid_twoKeys _)).mpr (.inr ⟨fun h => absurd h.2 (by decide), fun h => absurd h.2.2 (by decide),
    fun _ _ h => absurd h List.not_mem_nil⟩)

/-- There is no memory for the new name: the value of `user/a` is freed. -/
theorem not_copiesKey : ¬ CopiesKey 1 (twoKeys fun _ => false) 0 1 := by
  rintro ⟨ret, m', hrun, hc⟩
  obtain rfl : (keyCopy 1 (twoKeys fun _ => false) (some 0) (some 1)).2 = m' := by rw [hrun]
  exact hc.destAlive.data 1 rfl rfl

end Elektra.Dynamic
