import Elektra.KeySet.Payload
import Elektra.Lookup.Pop

/-!
# Taking keys out

A lookup that pops, for a key whose name has a namespace, takes out what has its name, and writes nothing
but flags and references.

* `Idle`: heaps whose keys differ in flags and references only, but for the lock of the metadata;
* `Takeable`; **`ksLookup_removes`**, `ksLookup_takes`, **`appendKey_idle`**.
-/

namespace Elektra

open Choice

/-! ## Heaps -/

/-- The keys of `h` are as before, up to flags and references; their metadata is locked as before. -/
structure Idle (h h' : Heap) : Prop extends Unchanged h h' where
  lock : ∀ k < h.next, (h'.cell k).roMeta = (h.cell k).roMeta

section Heaps

variable {h h' h'' : Heap}

theorem Idle.refl (h : Heap) : Idle h h := ⟨Unchanged.refl h, fun _ _ => rfl⟩

theorem Idle.trans (h1 : Idle h h') (h2 : Idle h' h'') : Idle h h'' :=
  ⟨h1.toUnchanged.trans h2.toUnchanged, fun k hk =>
    (h2.lock k (lt_of_lt_of_le hk h1.next)).trans (h1.lock k hk)⟩

theorem idle_of (hk : Keeps h h') (hs : SameKeys h h') : Idle h h' := by
  refine ⟨hs.sameMeta.unchanged hk, fun k _ => ?_⟩
  obtain ⟨_, _, he⟩ := hs k
  rw [he]

theorem idle_alloc (h : Heap) (key : Key) : Idle h (h.alloc key).2 :=
  ⟨unchanged_alloc h key, fun _ hk =>
    congrArg Key.roMeta (Function.update_of_ne (Nat.ne_of_lt hk) _ _)⟩

theorem idle_del (h : Heap) (k : KeyRef) : Idle h (keyDel h k) :=
  idle_of (keeps_del h k) (sameKeys_del h k)

theorem idle_incRef (h : Heap) (k : KeyRef) : Idle h (keyIncRef h k) :=
  idle_of (keeps_incRef h k) sameKeys_set

theorem idle_decRef (h : Heap) (k : KeyRef) : Idle h (keyDecRef h k) :=
  idle_of (keeps_decRef h k) sameKeys_set

theorem idle_appendKey (h : Heap) (ks : KeySet) (k : KeyRef) : Idle h (ksAppendKey h ks k).2.1 :=
  idle_of (keeps_appendKey h ks k) (sameKeys_appendKey h ks k)

theorem idle_dup (h : Heap) (source : KeySet) : Idle h (ksDup h source).1 :=
  idle_of (keeps_dup h source) ((sameKeys_new h _ _).trans (sameKeys_append _ _ _))

theorem idle_pop (h : Heap) (ks : KeySet) : Idle h (ksPop h ks).2.1 := by
  unfold ksPop
  dsimp only
  cases ks.array.getLast? with
  | none => exact Idle.refl h
  | some k => exact idle_decRef h k

theorem idle_popAtCursor (h : Heap) (ks : KeySet) (pos : ℤ) : Idle h (elektraKsPopAtCursor h ks pos).2.1 := by
  unfold elektraKsPopAtCursor
  split_ifs
  · exact Idle.refl h
  · cases ks.array[pos.toNat]? with
    | none => exact Idle.refl h
    | some k => exact idle_pop _ _

theorem Idle.dup (hh : Idle h h') {k : KeyRef} (hk : k < h.next) : keyDup (h'.cell k) = keyDup (h.cell k) :=
  hh.toUnchanged.dup hk

end Heaps

theorem KeySet.Holds.of_names {h h' : Heap} {ks : KeySet} {m : Ident → Option KeyRef} (hks : ks.Holds h m)
    (hh : ∀ k ∈ ks.array, h'.ident k = h.ident k ∧ Entry h' k ∧ (h'.cell k).roName = true) : ks.Holds h' m where
  sorted := hks.sorted.congr fun k hk => (hh k hk).1
  entry k hk := (hh k hk).2.1
  locked k hk := (hh k hk).2.2
  room := hks.room
  least := hks.least
  map := by
    rw [hks.map]
    exact (SortedArray.lookup_key_congr fun k hk => (hh k hk).1).symm

/-! ## Taking out -/

/-- A key that a lookup finds by its name alone. -/
structure Takeable (key : Key) : Prop where
  named : ∃ name, Finalized key (some name) ∧ name.head? ≠ some pathSeparator
  owner : keyGetMeta key (str "owner") = none
  callback : callbackPointer key = none

/-- No key has an owner. -/
def Ownerless (m : Ident → Option KeyRef) : Prop := ∀ id, m id ≠ none → id.2 = none

section Take

variable {cb : Callback} {fuel : ℕ} {w : World} {m : Ident → Option KeyRef} {k : KeyRef}

theorem finalized_dup {a b : Key} (h : keyDup b = keyDup a) {name : Option Str} (ha : Finalized a name) :
    Finalized b name := by
  have hs := sameName_of_dup h
  exact ⟨hs.key.trans ha.key, fun n hn => hs.ukey.trans (ha.ukey n hn),
    by rw [hs.keyUSize, hs.ukey, ha.sized]⟩

theorem Takeable.dup {a b : Key} (h : keyDup b = keyDup a) (ha : Takeable a) : Takeable b := by
  obtain ⟨⟨name, hf, hd⟩, ho, hc⟩ := ha
  refine ⟨⟨name, finalized_dup h hf, hd⟩, ?_, ?_⟩
  · change keyGetMeta (keyDup b) (str "owner") = none
    rw [h]
    exact ho
  · change callbackPointer (keyDup b) = none
    rw [h]
    exact hc

theorem idle_binarySearch (w : World) (key : KeyRef) (o : Options) :
    Idle w.heap (elektraLookupBinarySearch w key o).2.heap := by
  unfold elektraLookupBinarySearch
  dsimp only
  split
  · split_ifs
    · exact idle_popAtCursor _ _ _
    · exact Idle.refl _
  · exact Idle.refl _

/-- **What has the name of the key is taken out**, if that is the key or none. -/
theorem ksLookup_removes {name : Str} (hm : w.ks.Holds w.heap m)
    (hown : ∀ r ∈ w.ks.array, (w.heap.ident r).1 = unameOf name → w.heap.ident r = ident (w.cell k))
    (hlt : k < w.heap.next) (hf : Finalized (w.cell k) (some name)) (hd : name.head? ≠ some pathSeparator)
    (hcallback : callbackPointer (w.cell k) = none) :
    ∃ found w', ksLookup cb (fuel + 1) w k { pop := true } = .ok (found, w') ∧
      w'.ks.Holds w'.heap (Function.update m (ident (w.cell k)) none) ∧ Idle w.heap w'.heap := by
  have hidle := idle_binarySearch w k { pop := true }
  have hsearch : ∀ cb, elektraLookupSearch cb w k { pop := true } =
      elektraLookupBinarySearch w k { pop := true } := by
    intro cb
    have hcell : callbackPointer ((elektraLookupBinarySearch w k { pop := true }).2.cell k) = none := by
      change callbackPointer (keyDup ((elektraLookupBinarySearch w k { pop := true }).2.heap.cell k)) = none
      rw [hidle.dup hlt]
      exact hcallback
    unfold elektraLookupSearch
    dsimp only
    rw [hcell]
  obtain ⟨hret, hpops⟩ := @elektraLookupSearch_pops w k name { pop := true } _ noCallback
    transparent_noCallback ⟨rfl, rfl, rfl, rfl, rfl, rfl, rfl⟩ rfl ⟨⟨m, hm⟩, rfl⟩ hf
  rw [hsearch] at hret hpops
  have hlookup := @ksLookup_search w k { pop := true } cb fuel name rfl rfl rfl rfl hf.key
    (by simpa [direct] using hd)
  rw [hsearch] at hlookup
  generalize elektraLookupBinarySearch w k { pop := true } = r at hidle hret hpops hlookup
  obtain ⟨found, w'⟩ := r
  refine ⟨found, w', hlookup, ?_, hidle⟩
  have hholds := hpops.holds m hm
  dsimp only at hret hholds
  rw [hret] at hholds
  cases hfind : findByName w.heap w.ks (unameOf name) with
  | none =>
    -- nothing has the name
    rw [hfind] at hholds
    have hnone : m (ident (w.cell k)) = none := by
      by_contra hne
      obtain ⟨r, hr⟩ := Option.ne_none_iff_exists'.mp hne
      obtain ⟨hmem, hid⟩ := hm.mem.mp hr
      exact findByName_none hm hfind r hmem ((congrArg Prod.fst hid).trans (hf.ukey name rfl))
    rw [← hnone, Function.update_eq_self]
    exact hholds
  | some r =>
    rw [hfind] at hholds
    obtain ⟨hmem, hu⟩ := findByName_some hfind
    rw [← hown r hmem hu]
    exact hholds

theorem ksLookup_takes (hm : w.ks.Holds w.heap m) (hown : Ownerless m) (hlt : k < w.heap.next)
    (hk : Takeable (w.cell k)) :
    ∃ found w', ksLookup cb (fuel + 1) w k { pop := true } = .ok (found, w') ∧
      w'.ks.Holds w'.heap (Function.update m (ident (w.cell k)) none) ∧ Idle w.heap w'.heap := by
  obtain ⟨⟨name, hf, hd⟩, howner, hcallback⟩ := hk
  refine ksLookup_removes hm (fun r hr hu => ?_) hlt hf hd hcallback
  have hident : ident (w.cell k) = (unameOf name, none) := Prod.ext (hf.ukey name rfl) howner
  rw [hident]
  refine Prod.ext hu (hown _ ?_)
  rw [hm.of_mem hr]
  exact Option.some_ne_none r

/-- **A key is appended.** -/
theorem appendKey_idle (hm : w.ks.Holds w.heap m) (hk : Entry w.heap k) :
    (w.appendKey k).ks.Holds (w.appendKey k).heap (Function.update m (w.heap.ident k) (some k)) ∧
      Idle w.heap (w.appendKey k).heap :=
  ⟨ksAppendKey_holds hm hk, idle_appendKey w.heap w.ks k⟩

end Take

end Elektra
