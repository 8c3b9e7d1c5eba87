import Elektra.Split.Model

/-!
# Dividing keys among the entries of a split

Where a key goes depends on the backend, the parent and the cascading bit of the entries only, and
these stay as they are while keys are divided. So every entry gets the keys that go to it, in their order.

* `Routed`, `splitSearchBackend_modify`: where a key goes;
* `SplitEntry.fill`, **`splitDivideLoop_spec`**: what the entries get.
-/

namespace Elektra

variable {W : Type}

/-! ## Where keys go -/

/-- What the search looks at. -/
structure SameRoute (e e' : SplitEntry) : Prop where
  handle : e'.handle = e.handle
  parent : e'.parent = e.parent
  cascading : test_bit e'.syncbits SPLIT_FLAG_CASCADING = test_bit e.syncbits SPLIT_FLAG_CASCADING

theorem SameRoute.refl (e : SplitEntry) : SameRoute e e := ⟨rfl, rfl, rfl⟩

theorem SameRoute.trans {e e' e'' : SplitEntry} (h : SameRoute e e') (h' : SameRoute e' e'') : SameRoute e e'' :=
  ⟨h'.handle.trans h.handle, h'.parent.trans h.parent, h'.cascading.trans h.cascading⟩

theorem cascading_set_sync (bits : ℕ) :
    test_bit (set_bit bits SPLIT_FLAG_SYNC) SPLIT_FLAG_CASCADING = test_bit bits SPLIT_FLAG_CASCADING := by
  have hbits : set_bit bits SPLIT_FLAG_SYNC &&& SPLIT_FLAG_CASCADING = bits &&& SPLIT_FLAG_CASCADING := by
    rw [set_bit, Nat.and_or_distrib_right]
    exact Nat.or_zero _
  rw [test_bit, hbits, test_bit]

theorem splitSearchBackend_modify {f : SplitEntry → SplitEntry} (hf : ∀ e, SameRoute e (f e))
    (backend : Option BackendRef) (key : Key) : ∀ (split : Split) (i : ℕ),
    splitSearchBackend (split.modify i f) backend key = splitSearchBackend split backend key
  | [], _ => by rw [List.modify_nil]
  | e :: split, 0 => by
    obtain ⟨hhandle, hparent, hcascading⟩ := hf e
    simp only [List.modify_zero_cons, splitSearchBackend, hhandle, hparent, hcascading]
  | e :: split, i + 1 => by
    simp only [List.modify_succ_cons, splitSearchBackend, splitSearchBackend_modify hf backend key split i]

/-- The entry that a key goes to. -/
def routed (handle : KDB W) (split : Split) (key : Key) : Option ℕ :=
  splitSearchBackend split (mountGetBackend handle (some key)) key

theorem splitSearchBackend_lt {backend : Option BackendRef} {key : Key} : ∀ {split : Split} {i : ℕ},
    splitSearchBackend split backend key = some i → i < split.length
  | [], _, h => by cases h
  | e :: split, i, h => by
    rw [splitSearchBackend] at h
    split_ifs at h
    · cases ht : parentTest (keyGetNamespace key) with
      | none =>
        rw [ht] at h
        cases h
      | some test =>
        rw [ht] at h
        dsimp only at h
        split_ifs at h
        · obtain rfl := Option.some.inj h
          exact Nat.succ_pos _
        · obtain ⟨j, hj, rfl⟩ := Option.map_eq_some_iff.mp h
          exact Nat.succ_lt_succ (splitSearchBackend_lt hj)
    · obtain rfl := Option.some.inj h
      exact Nat.succ_pos _
    · obtain ⟨j, hj, rfl⟩ := Option.map_eq_some_iff.mp h
      exact Nat.succ_lt_succ (splitSearchBackend_lt hj)

/-! ## What the entries get -/

/-- An entry that gets a key. -/
def SplitEntry.put (e : SplitEntry) (key : Key) : SplitEntry :=
  { e with
    keyset := ksAppendValue e.keyset key
    syncbits := if keyNeedSync key then set_bit e.syncbits SPLIT_FLAG_SYNC else e.syncbits }

theorem SplitEntry.put_route (key : Key) (e : SplitEntry) : SameRoute e (e.put key) := by
  refine ⟨rfl, rfl, ?_⟩
  rw [SplitEntry.put]
  dsimp only
  split_ifs
  · exact cascading_set_sync _
  · rfl

/-- An entry that gets several keys. -/
def SplitEntry.fill (e : SplitEntry) (keys : List Key) : SplitEntry := keys.foldl SplitEntry.put e

theorem SplitEntry.fill_route : ∀ (keys : List Key) (e : SplitEntry), SameRoute e (e.fill keys)
  | [], e => .refl e
  | key :: keys, e => (e.put_route key).trans (SplitEntry.fill_route keys (e.put key))

theorem SplitEntry.fill_keyset : ∀ (keys : List Key) (e : SplitEntry),
    (e.fill keys).keyset = keys.foldl ksAppendValue e.keyset
  | [], _ => rfl
  | key :: keys, e => SplitEntry.fill_keyset keys (e.put key)

theorem set_sync_set_sync (bits : ℕ) :
    set_bit (set_bit bits SPLIT_FLAG_SYNC) SPLIT_FLAG_SYNC = set_bit bits SPLIT_FLAG_SYNC := by
  rw [set_bit, set_bit, Nat.or_assoc, Nat.or_self]

theorem SplitEntry.fill_syncbits : ∀ (keys : List Key) (e : SplitEntry),
    (e.fill keys).syncbits = if keys.any keyNeedSync then set_bit e.syncbits SPLIT_FLAG_SYNC else e.syncbits
  | [], _ => rfl
  | key :: keys, e => by
    have ih := SplitEntry.fill_syncbits keys (e.put key)
    rw [SplitEntry.fill, List.foldl_cons, ← SplitEntry.fill, ih, List.any_cons, SplitEntry.put]
    dsimp only
    cases keyNeedSync key with
    | false => rfl
    | true =>
      simp only [if_true, Bool.true_or, set_sync_set_sync, ite_self]

/-- The keys that go to an entry. -/
def keysFor (handle : KDB W) (split : Split) (ks : List Key) (i : ℕ) : List Key :=
  ks.filter fun key => routed handle split key = some i

variable {handle : KDB W}

theorem routed_modify {f : SplitEntry → SplitEntry} (hf : ∀ e, SameRoute e (f e)) (split : Split) (i : ℕ) (key : Key) :
    routed handle (split.modify i f) key = routed handle split key :=
  splitSearchBackend_modify hf _ key split i

theorem keysFor_modify {f : SplitEntry → SplitEntry} (hf : ∀ e, SameRoute e (f e)) (split : Split) (j : ℕ)
    (ks : List Key) (i : ℕ) : keysFor handle (split.modify j f) ks i = keysFor handle split ks i :=
  List.filter_congr fun key _ => by rw [routed_modify hf]

theorem keysFor_cons_pos {split : Split} {key : Key} {i : ℕ} (h : routed handle split key = some i) (ks : List Key) :
    keysFor handle split (key :: ks) i = key :: keysFor handle split ks i := by
  rw [keysFor, List.filter_cons, if_pos (decide_eq_true h), keysFor]

theorem keysFor_cons_neg {split : Split} {key : Key} {i : ℕ} (h : routed handle split key ≠ some i) (ks : List Key) :
    keysFor handle split (key :: ks) i = keysFor handle split ks i := by
  rw [keysFor, List.filter_cons, if_neg (by simpa using h), keysFor]

/-- **Every entry gets the keys that go to it**, and the return value says whether one of them needs sync. -/
theorem splitDivideLoop_spec : ∀ (ks : List Key) (split : Split) (needsSync : ℤ),
    (∀ key ∈ ks, mountGetBackend handle (some key) ≠ none) →
    (splitDivideLoop handle ks split needsSync).1 =
        (if ks.any fun key => keyNeedSync key && (routed handle split key).isSome then 1 else needsSync) ∧
      ∀ i : ℕ, (splitDivideLoop handle ks split needsSync).2[i]? =
        (split[i]?).map fun e => e.fill (keysFor handle split ks i)
  | [], split, _, _ => ⟨rfl, fun i => by
      rw [splitDivideLoop]
      exact (congrFun Option.map_id _).symm⟩
  | key :: ks, split, needsSync, hback => by
    obtain ⟨b, hb⟩ := Option.ne_none_iff_exists'.mp (hback key List.mem_cons_self)
    have hrest := fun k (hk : k ∈ ks) => hback k (List.mem_cons_of_mem key hk)
    have hroute : splitSearchBackend split (some b) key = routed handle split key := by rw [routed, hb]
    rw [splitDivideLoop, hb]
    dsimp only
    rw [hroute]
    cases hr : routed handle split key with
    | none =>
      obtain ⟨hret, hget⟩ := splitDivideLoop_spec ks split needsSync hrest
      refine ⟨hret.trans ?_, fun i => (hget i).trans ?_⟩
      · rw [List.any_cons, hr, Option.isSome_none, Bool.and_false, Bool.false_or]
      · have hout : routed handle split key ≠ some i := by
          rw [hr]
          exact (Option.some_ne_none i).symm
        rw [keysFor_cons_neg hout]
    | some j =>
      have hput : (split.modify j fun e =>
          { e with
            keyset := ksAppendValue e.keyset key
            syncbits := if keyNeedSync key then set_bit e.syncbits SPLIT_FLAG_SYNC else e.syncbits }) =
          split.modify j fun e => e.put key := rfl
      dsimp only
      rw [hput]
      obtain ⟨hret, hget⟩ := splitDivideLoop_spec ks (split.modify j fun e => e.put key)
        (if keyNeedSync key then 1 else needsSync) hrest
      have hsame : (fun k => keyNeedSync k && (routed handle (split.modify j fun e => e.put key) k).isSome) =
          fun k => keyNeedSync k && (routed handle split k).isSome := by
        funext k
        rw [routed_modify (SplitEntry.put_route key)]
      refine ⟨hret.trans ?_, fun i => (hget i).trans ?_⟩
      · rw [hsame, List.any_cons, hr, Option.isSome_some, Bool.and_true]
        cases keyNeedSync key with
        | false => rfl
        | true => simp
      · rw [keysFor_modify (SplitEntry.put_route key), List.getElem?_modify, Option.map_eq_map, Option.map_map]
        congr 1
        funext e
        by_cases hij : j = i
        · subst hij
          rw [Function.comp_apply, if_pos rfl, keysFor_cons_pos hr]
          rfl
        · have hout : routed handle split key ≠ some i := by
            rw [hr]
            exact fun h => hij (Option.some.inj h)
          rw [Function.comp_apply, if_neg hij, keysFor_cons_neg hout]

end Elektra
