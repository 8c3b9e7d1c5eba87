import Elektra.KeySet.Cut

/-!
# Reference counters

The counter of a key says how often it is referred to; `f` below says how often that is. Operations
on key sets take references and drop them, and free the keys to which they drop the last one.

* `Counted`, `Counts`;
* `Counted.incRef`, `Counted.decRef`, `Counted.drop`: one reference;
* `ksAppendKey_counts`, `ksAppend_counts`, `closeLoop_counts`, `ksPop_counts`,
  `elektraKsPopAtCursor_counts`, **`ksCut_counts`**.
-/

namespace Elektra

open Run

/-- The counters are right, and no key that is referred to is freed. -/
structure Counted (h : Heap) (f : KeyRef → ℕ) : Prop where
  live : ∀ k, 0 < f k → k < h.next ∧ h.freed k = false
  count : ∀ k < h.next, (h.cell k).ksReference = f k
  fresh : ∀ k, h.next ≤ k → h.freed k = false

/-- The references become `f'`. Where `leak` is false, each key that loses its last one is freed. -/
structure Counts (leak : Bool) (h h' : Heap) (f f' : KeyRef → ℕ) : Prop where
  counted : Counted h' f'
  freed : ∀ k, h.freed k = true → h'.freed k = true
  dropped : leak = false → ∀ k, 0 < f k → f' k = 0 → h'.freed k = true

/-- The references of a key set, and those from elsewhere. -/
def KeySet.refs (ks : KeySet) (N : KeyRef → ℕ) (k : KeyRef) : ℕ := ks.array.count k + N k

section Counted

variable {h h' h'' : Heap} {f f' f'' : KeyRef → ℕ} {k : KeyRef} {leak : Bool}

theorem Counts.refl (hc : Counted h f) : Counts leak h h f f :=
  ⟨hc, fun _ => id, fun _ k hf h0 => by omega⟩

theorem Counts.trans (h1 : Counts leak h h' f f') (h2 : Counts leak h' h'' f' f'') :
    Counts leak h h'' f f'' where
  counted := h2.counted
  freed k hk := h2.freed k (h1.freed k hk)
  dropped hl k hf h0 := by
    by_cases h' : f' k = 0
    · exact h2.freed k (h1.dropped hl k hf h')
    · exact h2.dropped hl k (by omega) h0

theorem Counts.leaks (hc : Counts false h h' f f') : Counts leak h h' f f' :=
  ⟨hc.counted, hc.freed, fun _ => hc.dropped rfl⟩

theorem Counted.set (hc : Counted h f) {key : Key} (hr : key.ksReference = (h.cell k).ksReference) :
    Counts leak h (h.set k key) f f := by
  refine ⟨⟨hc.live, fun j hj => ?_, hc.fresh⟩, fun _ => id, fun _ j hf h0 => by omega⟩
  by_cases hjk : j = k
  · subst hjk
    rw [set_cell_self, hr]
    exact hc.count j hj
  · rw [set_cell_ne hjk]
    exact hc.count j hj

theorem Counted.incRef (hc : Counted h f) (hlt : k < h.next) (hl : h.freed k = false)
    (hf : ∀ j, f' j = f j + if k = j then 1 else 0) : Counts leak h (keyIncRef h k) f f' := by
  refine ⟨⟨fun j hj => ?_, fun j hj => ?_, hc.fresh⟩, fun _ => id, fun _ j h0 hj => ?_⟩
  · by_cases hjk : k = j
    · subst hjk
      exact ⟨hlt, hl⟩
    · rw [hf, if_neg hjk] at hj
      exact hc.live j hj
  · rw [hf, ← hc.count j hj, keyIncRef]
    by_cases hjk : k = j
    · subst hjk
      rw [set_cell_self, if_pos rfl]
    · rw [set_cell_ne (Ne.symm hjk), if_neg hjk, Nat.add_zero]
  · have := hf j
    omega

theorem Counted.decRef (hc : Counted h f) (hf : ∀ j, f j = f' j + if k = j then 1 else 0) :
    Counts true h (keyDecRef h k) f f' := by
  refine ⟨⟨fun j hj => hc.live j (by have := hf j; omega), fun j hj => ?_, hc.fresh⟩, fun _ => id, nofun⟩
  have hcount := hc.count j hj
  rw [hf] at hcount
  rw [keyDecRef]
  by_cases hjk : k = j
  · subst hjk
    rw [set_cell_self]
    dsimp only
    rw [hcount, if_pos rfl, Nat.add_sub_cancel]
  · rw [set_cell_ne (Ne.symm hjk), hcount, if_neg hjk, Nat.add_zero]

theorem freed_del_ne {j : KeyRef} (hj : j ≠ k) : (keyDel h k).freed j = h.freed j := by
  rw [keyDel]
  split_ifs
  · rfl
  · exact Function.update_of_ne hj _ _

theorem freed_del (hk : h.freed k = true) (j : KeyRef) : (keyDel h j).freed k = true := by
  by_cases hj : k = j
  · subst hj
    rw [keyDel]
    split_ifs
    · exact hk
    · exact Function.update_self _ _ _
  · rw [freed_del_ne hj]
    exact hk

theorem Counted.del (hc : Counted h f) (hlt : k < h.next) : Counts leak h (keyDel h k) f f := by
  refine ⟨?_, fun j hj => freed_del hj k, fun _ j hf h0 => by omega⟩
  rw [keyDel]
  split_ifs with h0
  · exact hc
  · rw [hc.count k hlt] at h0
    refine ⟨fun j hj => ⟨(hc.live j hj).1, ?_⟩, hc.count, fun j hj => ?_⟩
    · have hne : j ≠ k := by rintro rfl; exact h0 hj
      exact (Function.update_of_ne hne _ _).trans (hc.live j hj).2
    · have hne : j ≠ k := by rintro rfl; exact absurd hlt (Nat.not_lt.mpr hj)
      exact (Function.update_of_ne hne _ _).trans (hc.fresh j hj)

theorem Counted.drop (hc : Counted h f) (hlt : k < h.next)
    (hf : ∀ j, f j = f' j + if k = j then 1 else 0) :
    Counts leak h (keyDel (keyDecRef h k) k) f f' := by
  have hdec := hc.decRef hf
  have hdel : Counts true _ _ f' f' := hdec.counted.del hlt
  refine ⟨hdel.counted, fun j hj => freed_del (hdec.freed j hj) k,
    fun _ j h1 h0 => ?_⟩
  have hjk : k = j := by
    by_contra hne
    have := hf j
    rw [if_neg hne] at this
    omega
  subst hjk
  rw [keyDel, if_neg]
  · exact Function.update_self _ _ _
  · rw [hdec.counted.count k hlt, h0]
    exact Nat.lt_irrefl 0

theorem Counted.alloc (hc : Counted h f) {key : Key} (hr : key.ksReference = 0) :
    Counts leak h (h.alloc key).2 f f := by
  have h0 : f h.next = 0 := by
    by_contra hne
    exact absurd (hc.live h.next (Nat.pos_of_ne_zero hne)).1 (Nat.lt_irrefl _)
  refine ⟨⟨fun j hj => ?_, fun j hj => ?_, fun j hj => hc.fresh j (Nat.le_of_succ_le hj)⟩, fun _ => id,
    fun _ j h1 h2 => by omega⟩
  · exact ⟨Nat.lt_succ_of_lt (hc.live j hj).1, (hc.live j hj).2⟩
  · by_cases hjn : j = h.next
    · subst hjn
      rw [h0, ← hr]
      exact congrArg Key.ksReference (Function.update_self _ _ _)
    · have hj : j < h.next + 1 := hj
      refine (congrArg Key.ksReference (Function.update_of_ne hjn _ _)).trans (hc.count j ?_)
      exact lt_of_le_of_ne (Nat.le_of_lt_succ hj) hjn

end Counted

/-! ## Operations -/

section Operations

variable {h : Heap} {ks ks' : KeySet} {m : Ident → Option KeyRef} {N : KeyRef → ℕ} {k : KeyRef}
  {leak : Bool}

theorem refs_congr (ha : ks'.array = ks.array) : ks'.refs N = ks.refs N := by
  funext j
  rw [KeySet.refs, KeySet.refs, ha]

theorem refs_swap : ks.refs (ks'.refs N) = ks'.refs (ks.refs N) := by
  funext j
  simp only [KeySet.refs]
  omega

theorem refs_set {pos : ℕ} {old : KeyRef} (hold : ks.array[pos]? = some old) (j : KeyRef) :
    ks.refs N j = (({ ks with array := ks.array.eraseIdx pos } : KeySet).refs N j) +
      (if old = j then 1 else 0) ∧
    ({ ks with array := ks.array.set pos k } : KeySet).refs N j =
      (({ ks with array := ks.array.eraseIdx pos } : KeySet).refs N j) + if k = j then 1 else 0 := by
  obtain ⟨hpos, rfl⟩ := List.getElem?_eq_some_iff.mp hold
  have hperm := (List.getElem_cons_eraseIdx_perm hpos).count_eq j
  have hset := (List.set_perm_cons_eraseIdx hpos k).count_eq j
  rw [List.count_cons] at hperm hset
  simp only [KeySet.refs, beq_iff_eq] at hperm hset ⊢
  omega

theorem ksAppendKey_counts (hks : ks.Holds h m) (hk : (h.cell k).key ≠ none → Entry h k)
    (hlt : k < h.next) (hl : h.freed k = false) (hc : Counted h (ks.refs N)) :
    Counts leak h (ksAppendKey h ks k).2.1 (ks.refs N) ((ksAppendKey h ks k).2.2.refs N) := by
  by_cases hn : (h.cell k).key = none
  · rw [ksAppendKey, if_pos hn]
    exact hc.del hlt
  have hk := hk hn
  have hlock : Counts leak h (elektraKeyLock h k) (ks.refs N) (ks.refs N) := hc.set rfl
  have hcode := searchInternal_code (hks.keeps (keeps_lock h k)) (hk.keeps (keeps_lock h k))
  unfold ksAppendKey
  rw [if_neg hn]
  dsimp only
  obtain ⟨hpos, hf⟩ | ⟨hneg, hm⟩ := hcode
  · rw [if_pos hpos]
    generalize (ksSearchInternal (elektraKeyLock h k) ks k).toNat = pos at hf
    obtain ⟨old, hold⟩ : ∃ old, ks.array[pos]? = some old := ⟨_, List.getElem?_eq_getElem hf.1⟩
    split_ifs with hsame
    · exact hlock
    · -- the key that is overwritten is another one
      have hget : ks.array.getD pos k = old := by rw [List.getD_eq_getElem?_getD, hold]; rfl
      have hne : k ≠ old := fun he => hsame (hold.trans (congrArg some he.symm))
      have hmem : old ∈ ks.array := List.mem_of_getElem? hold
      rw [hget]
      have hdrop : Counts leak _ _ _ _ := hlock.counted.drop (hks.entry old hmem).lt
        fun j => (refs_set (k := k) hold j).1
      refine hlock.trans (hdrop.trans ?_)
      have harray : (ksSetCursor { ks with array := ks.array.set pos k } (some pos)).refs N =
          ({ ks with array := ks.array.set pos k } : KeySet).refs N := refs_congr rfl
      rw [harray]
      refine hdrop.counted.incRef ?_ ?_ fun j => (refs_set hold j).2
      · rw [next_del]
        exact hlt
      · rw [freed_del_ne hne]
        exact hl
  · rw [if_neg (not_le.mpr hneg)]
    refine hlock.trans (hlock.counted.incRef hlt hl fun j => ?_)
    simp only [KeySet.refs, setCursor_array, List.count_append, List.count_cons, beq_iff_eq]
    have hsplit := congrArg (List.count j)
      (List.take_append_drop (-ksSearchInternal (elektraKeyLock h k) ks k - 1).toNat ks.array)
    rw [List.count_append] at hsplit
    omega

theorem appendLoop_counts : ∀ (l : List KeyRef) {h : Heap} {ks : KeySet} {m : Ident → Option KeyRef},
    ks.Holds h m → (∀ k ∈ l, Entry h k ∧ 0 < N k) → Counted h (ks.refs N) →
    Counts leak h (ksAppendLoop h ks l).1 (ks.refs N) ((ksAppendLoop h ks l).2.refs N)
  | [], _, _, _, _, _, hc => Counts.refl hc
  | k :: l, h, ks, m, hks, hl, hc => by
    obtain ⟨hk, hN⟩ := hl k List.mem_cons_self
    have hlive := hc.live k (by rw [KeySet.refs]; omega)
    have hstep : Counts leak h _ _ _ := ksAppendKey_counts hks (fun _ => hk) hk.lt hlive.2 hc
    refine hstep.trans (appendLoop_counts l (ksAppendKey_holds hks hk) (fun j hj => ?_) hstep.counted)
    obtain ⟨hj, hN⟩ := hl j (List.mem_cons_of_mem k hj)
    exact ⟨hj.keeps (keeps_appendKey h ks k), hN⟩

theorem ksAppend_counts {toAppend : KeySet} {m' : Ident → Option KeyRef} (hks : ks.Holds h m)
    (ha : toAppend.Holds h m') (hN : ∀ k ∈ toAppend.array, 0 < N k) (hc : Counted h (ks.refs N)) :
    Counts leak h (ksAppend h ks toAppend).2.1 (ks.refs N) ((ksAppend h ks toAppend).2.2.refs N) := by
  unfold ksAppend
  split_ifs with h0
  · exact Counts.refl hc
  · exact appendLoop_counts toAppend.array (appendResize_holds hks (Nat.le_add_right _ _)).1
      (fun k hk => ⟨ha.entry k hk, hN k hk⟩) hc

theorem ksAppendKey_array (hks : ks.Holds h m) (hk : k ∈ ks.array) :
    (ksAppendKey h ks k).2.2.array = ks.array := by
  have hek := hks.entry k hk
  have hlock := hks.keeps (keeps_lock h k)
  have hcode := searchInternal_code hlock (hek.keeps (keeps_lock h k))
  have hid := (keeps_lock h k).ident hek.lt
  unfold ksAppendKey
  rw [if_neg hek.named]
  dsimp only
  obtain ⟨hpos, hf⟩ | ⟨hneg, hm⟩ := hcode
  · rw [if_pos hpos]
    generalize (ksSearchInternal (elektraKeyLock h k) ks k).toNat = pos at hf
    obtain ⟨hlt, he⟩ := hf
    rw [SortedArray.oracle_eq hlt, identCmp_eq_iff] at he
    have hsame : ks.array[pos] = k := hlock.sorted.unique (List.getElem_mem hlt) hk he.symm
    rw [if_pos (by rw [List.getElem?_eq_getElem hlt, hsame])]
  · exact absurd rfl (SortedArray.Missing.not_mem hm k hk)

theorem appendLoop_self : ∀ (l : List KeyRef) {h : Heap} {ks : KeySet} {m : Ident → Option KeyRef},
    ks.Holds h m → (∀ k ∈ l, k ∈ ks.array) → Counted h (ks.refs N) →
    Counts leak h (ksAppendLoop h ks l).1 (ks.refs N) ((ksAppendLoop h ks l).2.refs N)
  | [], _, _, _, _, _, hc => Counts.refl hc
  | k :: l, h, ks, m, hks, hl, hc => by
    have hk := hl k List.mem_cons_self
    have hentry := hks.entry k hk
    have hpos : 0 < ks.refs N k := Nat.add_pos_left (List.count_pos_iff.mpr hk) _
    have hstep : Counts leak h _ _ _ :=
      ksAppendKey_counts hks (fun _ => hentry) hentry.lt (hc.live k hpos).2 hc
    have hmem : ∀ j ∈ l, j ∈ (ksAppendKey h ks k).2.2.array := by
      intro j hj
      rw [ksAppendKey_array hks hk]
      exact hl j (List.mem_cons_of_mem k hj)
    exact hstep.trans (appendLoop_self l (ksAppendKey_holds hks hentry) hmem hstep.counted)

theorem ksAppend_self (hks : ks.Holds h m) (hc : Counted h (ks.refs N)) :
    Counts leak h (ksAppend h ks ks).2.1 (ks.refs N) ((ksAppend h ks ks).2.2.refs N) := by
  unfold ksAppend
  split_ifs with h0
  · exact Counts.refl hc
  · exact appendLoop_self ks.array (appendResize_holds hks (Nat.le_add_right _ _)).1
      (fun _ => id) hc

theorem refs_new (h : Heap) (n : ℕ) (N : KeyRef → ℕ) : (ksNew h n []).2.refs N = N := by
  have harray : (ksNew h n []).2.array = [] := by
    unfold ksNew
    dsimp only
    split_ifs <;> rfl
  funext k
  rw [KeySet.refs, harray, List.count_nil, Nat.zero_add]

theorem ksDup_counts {source : KeySet} (hs : source.Holds h m) (hN : ∀ k ∈ source.array, 0 < N k)
    (hc : Counted h N) : Counts leak h (ksDup h source).1 N ((ksDup h source).2.refs N) := by
  obtain ⟨n, hn⟩ : ∃ n, ksDup h source =
      ((ksAppend h (ksNew h n []).2 source).2.1, (ksAppend h (ksNew h n []).2 source).2.2) := by
    refine ⟨if source.alloc < KEYSET_SIZE then KEYSET_SIZE else source.alloc, ?_⟩
    unfold ksDup
    dsimp only
    rw [ksNew_empty]
  have hnew := @ksNew_holds h n [] nofun
  have hrefs := refs_new h n N
  rw [ksNew_empty] at hnew
  have happ : Counts leak _ _ _ _ := ksAppend_counts hnew hs hN (by rw [hrefs]; exact hc)
  rw [hrefs] at happ
  rw [hn]
  exact happ

theorem closeLoop_counts : ∀ (l : List KeyRef) {h : Heap},
    Counted h (fun k => l.count k + N k) →
      Counts leak h (closeLoop h l) (fun k => l.count k + N k) N
  | [], _, hc => by
    have he : (fun k => ([] : List KeyRef).count k + N k) = N := by
      funext k
      rw [List.count_nil, Nat.zero_add]
    rw [he] at hc ⊢
    exact Counts.refl hc
  | k :: l, h, hc => by
    have hlt : k < h.next := (hc.live k (by rw [List.count_cons_self]; omega)).1
    have hdrop : Counts leak h _ _ fun j => l.count j + N j := hc.drop hlt fun j => by
      rw [List.count_cons]
      simp only [beq_iff_eq]
      omega
    exact hdrop.trans (closeLoop_counts l hdrop.counted)

theorem ksPop_counts (hc : Counted h (ks.refs N)) :
    Counts true h (ksPop h ks).2.1 (ks.refs N) ((ksPop h ks).2.2.refs N) := by
  unfold ksPop
  dsimp only
  cases hlast : ks.array.getLast? with
  | none => exact Counts.refl hc
  | some k =>
    obtain ⟨l, ha⟩ := List.getLast?_eq_some_iff.mp hlast
    refine hc.decRef fun j => ?_
    have hrest : (if ({ ks with array := ks.array.dropLast, sync := true } : KeySet).size + 1 <
        ks.alloc / 2 then (ksResize { ks with array := ks.array.dropLast, sync := true }
          (ks.alloc / 2 - 1)).2
        else { ks with array := ks.array.dropLast, sync := true }).array = l := by
      rw [ha, List.dropLast_concat]
      split_ifs <;> rfl
    rw [KeySet.refs, KeySet.refs, hrest, ha, List.count_append, List.count_singleton]
    simp only [beq_iff_eq]
    omega

theorem elektraKsPopAtCursor_counts {pos : ℤ} (hc : Counted h (ks.refs N)) :
    Counts true h (elektraKsPopAtCursor h ks pos).2.1 (ks.refs N)
      ((elektraKsPopAtCursor h ks pos).2.2.refs N) := by
  unfold elektraKsPopAtCursor
  split_ifs
  · exact Counts.refl hc
  cases hk : ks.array[pos.toNat]? with
  | none => exact Counts.refl hc
  | some k =>
    obtain ⟨hpos, rfl⟩ := List.getElem?_eq_some_iff.mp hk
    -- the key is moved to the end
    have hmove : ks.refs N = (ksRewind { ks with
        array := ks.array.eraseIdx pos.toNat ++ [ks.array[pos.toNat]] }).refs N := by
      funext j
      have hperm := (List.getElem_cons_eraseIdx_perm hpos).count_eq j
      rw [List.count_cons] at hperm
      simp only [KeySet.refs, ksRewind, List.count_append, List.count_singleton] at hperm ⊢
      omega
    rw [hmove] at hc ⊢
    exact ksPop_counts hc

end Operations

/-! ## Cutting -/

section Cut

variable {h : Heap} {ks : KeySet} {m : Ident → Option KeyRef} {N : KeyRef → ℕ} {cutpoint : KeyRef}
  {leak : Bool}

theorem count_run {p : KeyRef → Bool} (l : List KeyRef) (k : KeyRef) :
    l.count k = (besides p l).count k + (firstRun p l).count k := by
  have h := congrArg (List.count k) (run_append (p := p) l)
  rw [List.count_append, List.count_append] at h
  rw [besides, List.count_append]
  omega

theorem ksCutBelow_refs : ks.refs N =
    (ksCutBelow h ks cutpoint).2.1.refs ((ksCutBelow h ks cutpoint).2.2.refs N) := by
  obtain ⟨-, hbeside, -, hrun, -, -⟩ := ksCutBelow_spec h ks cutpoint
  funext k
  rw [KeySet.refs, KeySet.refs, KeySet.refs, hbeside, hrun,
    count_run (p := cutTest h cutpoint) ks.array k]
  omega

/-- One round: the keys that are cut out are appended, and then dropped by the key set that held
them. -/
theorem cutRound_counts {h₀ : Heap} {ks₀ : KeySet} {st : Heap × KeySet × KeySet}
    (hks : ks₀.Holds h₀ m) (hcut : cutpoint ∉ ks₀.array) (hst : CutState h₀ ks₀ cutpoint st)
    (name : Str) (ns : Namespace) (hc : Counted st.1 (st.2.2.refs (st.2.1.refs N))) :
    Counts leak st.1 (cutRound cutpoint name st ns).1 (st.2.2.refs (st.2.1.refs N))
      ((cutRound cutpoint name st ns).2.2.refs ((cutRound cutpoint name st ns).2.1.refs N)) := by
  obtain ⟨hrest, mr, hret⟩ := hst.holds hks hcut
    (elektraFinalizeName (st.1.cell cutpoint) (cutName ns name))
  obtain ⟨h, ks, ret⟩ := st
  simp only at hrest hret hc ⊢
  unfold cutRound
  simp only
  have hset : Counts leak h (h.set cutpoint (elektraFinalizeName (h.cell cutpoint) (cutName ns name)))
      (ret.refs (ks.refs N)) (ret.refs (ks.refs N)) := hc.set rfl
  generalize h.set cutpoint (elektraFinalizeName (h.cell cutpoint) (cutName ns name)) = h1 at *
  obtain ⟨he, -, -, hrun, hroom, hleast⟩ := ksCutBelow_spec h1 ks cutpoint
  have hrefs := @ksCutBelow_refs h1 ks N cutpoint
  generalize ksCutBelow h1 ks cutpoint = cut at *
  obtain ⟨h1', ks', n⟩ := cut
  simp only at he hrun hroom hleast hrefs ⊢
  subst he
  have hn := hrest.sublist (hrun ▸ firstRun_sublist _) hroom hleast
  -- the references of the keys that are cut out
  have hsplit : ret.refs (ks.refs N) = ret.refs (n.refs (ks'.refs N)) := by
    funext k
    rw [hrefs]
    simp only [KeySet.refs]
    omega
  rw [hsplit] at hset ⊢
  have happ : Counts leak _ _ _ _ := ksAppend_counts hret hn (fun k hk => ?_) hset.counted
  · refine hset.trans (happ.trans ?_)
    have hmove : ∀ r : KeySet, r.refs (n.refs (ks'.refs N)) =
        fun k => n.array.count k + r.refs (ks'.refs N) k := by
      intro r
      funext k
      simp only [KeySet.refs]
      omega
    have hcounted := happ.counted
    rw [hmove] at hcounted ⊢
    exact closeLoop_counts n.array hcounted
  · have := List.count_pos_iff.mpr hk
    rw [KeySet.refs]
    omega

theorem cutRounds_counts (hks : ks.Holds h m) (hcut : cutpoint ∉ ks.array) (hlt : cutpoint < h.next)
    (name : Str) : ∀ (l : List Namespace) {st : Heap × KeySet × KeySet}, CutState h ks cutpoint st →
      Counted st.1 (st.2.2.refs (st.2.1.refs N)) →
      Counts leak st.1 (l.foldl (cutRound cutpoint name) st).1 (st.2.2.refs (st.2.1.refs N))
        ((l.foldl (cutRound cutpoint name) st).2.2.refs
          ((l.foldl (cutRound cutpoint name) st).2.1.refs N))
  | [], _, _, hc => Counts.refl hc
  | ns :: l, _, hst, hc => by
    have hround : Counts leak _ _ _ _ := cutRound_counts hks hcut hst name ns hc
    exact hround.trans (cutRounds_counts hks hcut hlt name l
      (cutRound_state hks hcut hlt hst name ns).1 hround.counted)

/-- **`ksCut` moves references from one key set to the other.** -/
theorem ksCut_counts (hks : ks.Holds h m) (he : Entry h cutpoint)
    (hcut : Cascading (h.cell cutpoint) → cutpoint ∉ ks.array) (hc : Counted h (ks.refs N)) :
    ∃ ret, (ksCut h ks cutpoint).2.2 = some ret ∧ Counts leak h (ksCut h ks cutpoint).1 (ks.refs N)
      ((ksCut h ks cutpoint).2.1.refs (ret.refs N)) := by
  obtain ⟨name, hn⟩ := Option.ne_none_iff_exists'.mp he.named
  rw [Cascading, keyName, hn, Option.getD_some] at hcut
  by_cases hcas : name.head? = some pathSeparator
  · have hstart : (cutStart h ks).2.2.refs ((cutStart h ks).2.1.refs N) = ks.refs N := by
      funext k
      exact Nat.zero_add _
    have hrounds : Counts leak _ _ _ _ := cutRounds_counts (N := N) hks (hcut hcas) he.lt name
      namespaces cutStart_state (by rw [hstart]; exact hc)
    rw [hstart] at hrounds
    rw [ksCut_cascading hn hcas]
    refine ⟨_, rfl, hrounds.trans ?_⟩
    generalize namespaces.foldl (cutRound cutpoint name) (cutStart h ks) = st at hrounds ⊢
    have hswap : st.2.1.refs (st.2.2.refs N) = st.2.2.refs (st.2.1.refs N) := refs_swap
    rw [hswap]
    exact hrounds.counted.set rfl
  · rw [ksCut_below hn hcas]
    refine ⟨_, rfl, ?_⟩
    rw [← @ksCutBelow_refs h ks N cutpoint, (ksCutBelow_spec h ks cutpoint).1]
    exact Counts.refl hc

end Cut

end Elektra
