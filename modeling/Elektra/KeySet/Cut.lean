import Elektra.KeySet.Map
import Elektra.Sorted.Run

/-!
# ksCut

`ksCut` takes the first run of keys at or below the cutpoint; for a cascading cutpoint it does so in
one namespace after the other, under a name of the cutpoint in that namespace.

* **`ksCutBelow_spec`**, `CutState`, `cutRound_spec`: one run, one round;
* **`ksCut_spec`**: keys are neither lost nor duplicated.
-/

namespace Elektra

open Run

/-! ## One run -/

theorem drop_takeWhile {α : Type} (p : α → Bool) (l : List α) :
    l.drop (l.takeWhile p).length = l.dropWhile p := by
  have h := @List.drop_left _ (l.takeWhile p) (l.dropWhile p)
  rwa [List.takeWhile_append_dropWhile] at h

theorem take_takeWhile {α : Type} (p : α → Bool) (l : List α) :
    l.take (l.takeWhile p).length = l.takeWhile p := by
  have h := @List.take_left _ (l.takeWhile p) (l.dropWhile p)
  rwa [List.takeWhile_append_dropWhile] at h

theorem cutCursor_array (ks : KeySet) (found it : ℕ) :
    (cutCursor ks found it).array = ks.array.take found ++ ks.array.drop it ∧
      (cutCursor ks found it).alloc = ks.alloc := by
  unfold cutCursor ksRewind
  dsimp only
  split_ifs <;> exact ⟨rfl, rfl⟩

theorem ksNew_alloc (h : Heap) (n : ℕ) :
    n < (ksNew h n []).2.alloc ∧ KEYSET_SIZE ≤ (ksNew h n []).2.alloc := by
  have halloc : (ksNew h n []).2.alloc = if n + 1 < KEYSET_SIZE then KEYSET_SIZE else n + 1 := by
    unfold ksNew
    dsimp only
    split_ifs <;> rfl
  rw [halloc]
  split_ifs <;> omega

/-- **`ksCut` in one namespace cuts the first run out of the array.** -/
theorem ksCutBelow_spec (h : Heap) (ks : KeySet) (cutpoint : KeyRef) :
    (ksCutBelow h ks cutpoint).1 = h ∧
      (ksCutBelow h ks cutpoint).2.1.array = besides (cutTest h cutpoint) ks.array ∧
      (ksCutBelow h ks cutpoint).2.1.alloc = ks.alloc ∧
      (ksCutBelow h ks cutpoint).2.2.array = firstRun (cutTest h cutpoint) ks.array ∧
      (ksCutBelow h ks cutpoint).2.2.size < (ksCutBelow h ks cutpoint).2.2.alloc ∧
      KEYSET_SIZE ≤ (ksCutBelow h ks cutpoint).2.2.alloc := by
  have hdrop := drop_takeWhile (fun k => !cutTest h cutpoint k) ks.array
  have htake := take_takeWhile (fun k => !cutTest h cutpoint k) ks.array
  unfold ksCutBelow
  dsimp only
  split_ifs with hall
  · -- no key is below
    have hnil : ks.array.dropWhile (fun k => !cutTest h cutpoint k) = [] := by
      rw [← hdrop, hall]
      exact List.drop_length
    have hself : ks.array.takeWhile (fun k => !cutTest h cutpoint k) = ks.array := by
      rw [← htake, hall]
      exact List.take_length
    have hnew := ksNew_alloc h 0
    refine ⟨ksNew_empty h 0, ?_, rfl, ?_, hnew.1, hnew.2⟩
    · rw [besides, hnil, hself, List.dropWhile_nil, List.append_nil]
    · rw [firstRun, hnil]
      rfl
  · obtain ⟨harray, halloc⟩ := cutCursor_array ks
      (ks.array.takeWhile fun k => !cutTest h cutpoint k).length
      ((ks.array.takeWhile fun k => !cutTest h cutpoint k).length +
        (((ks.array.drop (ks.array.takeWhile fun k => !cutTest h cutpoint k).length).takeWhile
          (cutTest h cutpoint)).length))
    have hrun : ((ks.array.dropWhile fun k => !cutTest h cutpoint k).take
        (firstRun (cutTest h cutpoint) ks.array).length) = firstRun (cutTest h cutpoint) ks.array :=
      take_takeWhile _ _
    refine ⟨ksNew_empty h _, ?_, halloc, ?_, ?_, (ksNew_alloc h _).2⟩
    · rw [harray, htake, ← List.drop_drop, hdrop, drop_takeWhile, besides]
    · rw [hdrop, Nat.add_sub_cancel_left]
      exact hrun
    · rw [hdrop, Nat.add_sub_cancel_left, KeySet.size]
      dsimp only
      rw [← firstRun, hrun]
      exact (ksNew_alloc h _).1

theorem mem_append {h : Heap} {ks toAppend : KeySet} {m m' : Ident → Option KeyRef}
    (hks : ks.Holds h m) (ha : toAppend.Holds h m') (hd : ∀ a ∈ ks.array, ∀ b ∈ toAppend.array,
      h.ident a = h.ident b → a = b) (k : KeyRef) :
    k ∈ (ksAppend h ks toAppend).2.2.array ↔ k ∈ ks.array ∨ k ∈ toAppend.array := by
  have happ := ksAppend_holds hks ha
  have hident : ∀ k, Entry h k → (ksAppend h ks toAppend).2.1.ident k = h.ident k := fun k hk =>
    (keeps_append h ks toAppend).ident hk.lt
  constructor
  · intro hk
    obtain hm := happ.of_mem hk
    rw [Option.or_eq_some_iff] at hm
    obtain hm | ⟨-, hm⟩ := hm
    · exact Or.inr (ha.mem.mp hm).1
    · exact Or.inl (hks.mem.mp hm).1
  · intro hk
    have hm : (m' (h.ident k)).or (m (h.ident k)) = some k := by
      obtain hk | hk := hk
      · cases hb : m' (h.ident k) with
        | none => exact hks.of_mem hk
        | some b =>
          obtain ⟨hb, he⟩ := ha.mem.mp hb
          rw [hd k hk b hb he.symm]
          rfl
      · rw [ha.of_mem hk]
        rfl
    have he : Entry h k := hk.elim (hks.entry k) (ha.entry k)
    exact (happ.mem.mp hm).1

/-! ## One round -/

/-- What the rounds of a cascading `ksCut` keep: the keys of `ks₀` are in the rest or in what is
returned, and the cutpoint has lost nothing but its name. -/
structure CutState (h₀ : Heap) (ks₀ : KeySet) (cutpoint : KeyRef) (st : Heap × KeySet × KeySet) :
    Prop where
  next : st.1.next = h₀.next
  cell : ∀ k < h₀.next, k ≠ cutpoint → Alike (h₀.cell k) (st.1.cell k)
  renamed : Renamed (h₀.cell cutpoint) (st.1.cell cutpoint)
  rest : st.2.1.array.Sublist ks₀.array
  alloc : st.2.1.alloc = ks₀.alloc
  returned : ∃ m, st.2.2.Holds st.1 m
  parts : ∀ k, k ∈ ks₀.array ↔ k ∈ st.2.1.array ∨ k ∈ st.2.2.array
  disjoint : ∀ k ∈ st.2.1.array, k ∉ st.2.2.array

section Round

variable {h₀ : Heap} {ks₀ : KeySet} {m₀ : Ident → Option KeyRef} {cutpoint : KeyRef}
  {st : Heap × KeySet × KeySet}

/-- The test of a round. -/
def roundTest (cutpoint : KeyRef) (name : Str) (h : Heap) (ns : Namespace) : KeyRef → Bool :=
  cutTest (h.set cutpoint (elektraFinalizeName (h.cell cutpoint) (cutName ns name))) cutpoint

theorem cutRound_rest (name : Str) (ns : Namespace) :
    (cutRound cutpoint name st ns).2.1.array =
      besides (roundTest cutpoint name st.1 ns) st.2.1.array := by
  obtain ⟨h, ks, ret⟩ := st
  exact (ksCutBelow_spec _ ks cutpoint).2.1

theorem CutState.ne (hst : CutState h₀ ks₀ cutpoint st) (hc : cutpoint ∉ ks₀.array) {k : KeyRef}
    (hk : k ∈ st.2.1.array ∨ k ∈ st.2.2.array) : k ≠ cutpoint :=
  fun he => hc (he ▸ (hst.parts k).mpr hk)

theorem CutState.holds (hks : ks₀.Holds h₀ m₀) (hc : cutpoint ∉ ks₀.array)
    (hst : CutState h₀ ks₀ cutpoint st) (key : Key) :
    st.2.1.Holds (st.1.set cutpoint key) (fun id => (m₀ id).filter (· ∈ st.2.1.array)) ∧
      ∃ m, st.2.2.Holds (st.1.set cutpoint key) m := by
  obtain ⟨m, hret⟩ := hst.returned
  constructor
  · have hsub := hks.sublist hst.rest
      (lt_of_le_of_lt hst.rest.length_le (by rw [hst.alloc]; exact hks.room))
      (by rw [hst.alloc]; exact hks.least)
    refine hsub.of_cells hst.next.ge fun k hk => ?_
    have hne := hst.ne hc (Or.inl hk)
    rw [set_cell_ne hne]
    exact hst.cell k (hsub.entry k hk).lt hne
  · refine ⟨m, hret.of_cells le_rfl fun k hk => ?_⟩
    rw [set_cell_ne (hst.ne hc (Or.inr hk))]
    exact Alike.refl _

theorem CutState.ident (hks : ks₀.Holds h₀ m₀) (hc : cutpoint ∉ ks₀.array)
    (hst : CutState h₀ ks₀ cutpoint st) (key : Key) {k : KeyRef} (hk : k ∈ ks₀.array) :
    (st.1.set cutpoint key).ident k = h₀.ident k := by
  have hne := hst.ne hc ((hst.parts k).mp hk)
  rw [Heap.ident, set_cell_ne hne]
  exact (hst.cell k (hks.entry k hk).lt hne).ident

theorem CutState.heap (hst : CutState h₀ ks₀ cutpoint st) {name : Str} {h h' : Heap}
    (hset : st.1.set cutpoint (elektraFinalizeName (st.1.cell cutpoint) name) = h)
    (hh : Keeps h h') (hc : cutpoint < h₀.next) :
    (∀ k < h₀.next, k ≠ cutpoint → Alike (h₀.cell k) (h'.cell k)) ∧
      Renamed (h₀.cell cutpoint) (h'.cell cutpoint) := by
  subst hset
  have hlt := fun k (hk : k < h₀.next) => hh.cell k (hk.trans_eq hst.next.symm)
  constructor
  · intro k hk hne
    have := hlt k hk
    rw [set_cell_ne hne] at this
    exact (hst.cell k hk hne).trans this
  · have := hlt cutpoint hc
    rw [set_cell_self] at this
    exact (hst.renamed.finalize name).alike this

theorem cutRound_state (hks : ks₀.Holds h₀ m₀) (hc : cutpoint ∉ ks₀.array)
    (hlt : cutpoint < h₀.next) (hst : CutState h₀ ks₀ cutpoint st) (name : Str) (ns : Namespace) :
    CutState h₀ ks₀ cutpoint (cutRound cutpoint name st ns) ∧
      ∀ k, k ∈ (cutRound cutpoint name st ns).2.2.array ↔
        k ∈ st.2.2.array ∨ k ∈ firstRun (roundTest cutpoint name st.1 ns) st.2.1.array := by
  obtain ⟨hrest, m, hret⟩ := hst.holds hks hc
    (elektraFinalizeName (st.1.cell cutpoint) (cutName ns name))
  obtain ⟨h, ks, ret⟩ := st
  simp only at hrest hret hst ⊢
  unfold cutRound roundTest
  simp only
  have hident := fun k => hst.ident hks hc (k := k)
    (elektraFinalizeName (h.cell cutpoint) (cutName ns name))
  generalize hh1 : h.set cutpoint (elektraFinalizeName (h.cell cutpoint) (cutName ns name)) = h1 at *
  obtain ⟨he, hbeside, halloc, hrun, hroom, hleast⟩ := ksCutBelow_spec h1 ks cutpoint
  generalize ksCutBelow h1 ks cutpoint = cut at *
  obtain ⟨h1', ks', n⟩ := cut
  simp only at he hbeside halloc hrun hroom hleast ⊢
  subst he
  have hn := hrest.sublist (hrun ▸ firstRun_sublist _) hroom hleast
  have happ := ksAppend_holds hret hn
  have hkeeps := (keeps_append h1' ret n).trans (keeps_close n.array _)
  have hunique : ∀ a ∈ ret.array, ∀ b ∈ n.array, h1'.ident a = h1'.ident b → a = b := by
    intro a ha b hb hab
    have ha' := (hst.parts a).mpr (Or.inr ha)
    have hb' := (hst.parts b).mpr (Or.inl ((firstRun_sublist _).subset (hrun ▸ hb)))
    rw [hident a ha', hident b hb'] at hab
    exact hks.sorted.unique ha' hb' hab
  have hmem := mem_append hret hn hunique
  obtain ⟨hcell, hrenamed⟩ := hst.heap hh1 hkeeps hlt
  refine ⟨⟨?_, hcell, hrenamed, ?_, ?_, ⟨_, happ.keeps (keeps_close _ _)⟩, ?_, ?_⟩, ?_⟩
  · have hnext : h1'.next = h.next := by rw [← hh1]; rfl
    exact (next_close _ _).trans ((next_append _ _ _).trans (hnext.trans hst.next))
  · rw [hbeside]
    exact (besides_sublist _).trans hst.rest
  · exact halloc.trans hst.alloc
  · intro k
    rw [hst.parts, hmem, hrun, hbeside]
    constructor
    · rintro (hk | hk)
      · exact (mem_firstRun_or hk).elim (fun hk => Or.inr (Or.inr hk)) Or.inl
      · exact Or.inr (Or.inl hk)
    · rintro (hk | hk | hk)
      · exact Or.inl ((besides_sublist _).subset hk)
      · exact Or.inr hk
      · exact Or.inl ((firstRun_sublist _).subset hk)
  · intro k hk
    rw [hbeside] at hk
    rw [hmem, hrun, not_or]
    exact ⟨hst.disjoint k ((besides_sublist _).subset hk), not_mem_firstRun hrest.sorted.nodup hk⟩
  · intro k
    rw [hmem, hrun]

theorem cutRounds_state (hks : ks₀.Holds h₀ m₀) (hc : cutpoint ∉ ks₀.array)
    (hlt : cutpoint < h₀.next) (name : Str) : ∀ (l : List Namespace) {st : Heap × KeySet × KeySet},
    CutState h₀ ks₀ cutpoint st → CutState h₀ ks₀ cutpoint (l.foldl (cutRound cutpoint name) st)
  | [], _, hst => hst
  | ns :: l, _, hst => cutRounds_state hks hc hlt name l (cutRound_state hks hc hlt hst name ns).1

end Round

/-! ## All keys are kept -/

/-- The key is a cascading one. -/
def Cascading (key : Key) : Prop := (keyName key).head? = some pathSeparator

instance (key : Key) : Decidable (Cascading key) := inferInstanceAs (Decidable (_ = _))

/-- Where the rounds start. -/
def cutStart (h : Heap) (ks : KeySet) : Heap × KeySet × KeySet := (h, ks, (ksNew h 0 []).2)

section Cut

variable {h : Heap} {ks : KeySet} {m : Ident → Option KeyRef} {cutpoint : KeyRef}

theorem ksCut_cascading {name : Str} (hn : (h.cell cutpoint).key = some name)
    (hc : name.head? = some pathSeparator) :
    ksCut h ks cutpoint =
      let st := namespaces.foldl (cutRound cutpoint name) (cutStart h ks)
      (st.1.set cutpoint (restoreName (st.1.cell cutpoint) (h.cell cutpoint)), st.2.1,
        some st.2.2) := by
  have hnew : ksNew h 0 [] = (h, (ksNew h 0 []).2) := Prod.ext (ksNew_empty h 0) rfl
  unfold ksCut cutStart
  rw [hnew]
  generalize hst : namespaces.foldl (cutRound cutpoint name) (h, ks, (ksNew h 0 []).2) = st
  obtain ⟨h', ks', ret⟩ := st
  simp only [hn, if_pos hc, hst]

theorem ksCut_below {name : Str} (hn : (h.cell cutpoint).key = some name)
    (hc : name.head? ≠ some pathSeparator) :
    ksCut h ks cutpoint =
      ((ksCutBelow h ks cutpoint).1, (ksCutBelow h ks cutpoint).2.1,
        some (ksCutBelow h ks cutpoint).2.2) := by
  unfold ksCut
  generalize ksCutBelow h ks cutpoint = cut
  obtain ⟨h', ks', returned⟩ := cut
  split
  · rename_i hnone
    rw [hn] at hnone
    cases hnone
  · rename_i name' hsome
    obtain rfl : name = name' := Option.some.inj (hn.symm.trans hsome)
    rw [if_neg hc]

theorem cutStart_state : CutState h ks cutpoint (cutStart h ks) where
  next := rfl
  cell _ _ _ := Alike.refl _
  renamed := Renamed.refl _
  rest := List.Sublist.refl _
  alloc := rfl
  returned := ⟨_, holds_empty h rfl (ksNew_alloc h 0).2⟩
  parts _ := (or_iff_left List.not_mem_nil).symm
  disjoint _ _ := List.not_mem_nil

theorem holds_part {h' : Heap} {ks' : KeySet} (hks : ks.Holds h m) (hl : ks'.array.Sublist ks.array)
    (hroom : ks'.size < ks'.alloc) (hleast : KEYSET_SIZE ≤ ks'.alloc) (hh : Keeps h h')
    {p : KeyRef → Prop} [DecidablePred p] (hp : ∀ k ∈ ks.array, k ∈ ks'.array ↔ p k) :
    ks'.Holds h' fun id => (m id).filter p := by
  have hmap : (fun id => (m id).filter p) = fun id => (m id).filter (· ∈ ks'.array) := by
    funext id
    refine Option.ext fun k => ?_
    simp only [Option.filter_eq_some_iff, decide_eq_true_iff]
    exact and_congr_right fun hk => (hp k (hks.mem.mp hk).1).symm
  rw [hmap]
  exact (hks.sublist hl hroom hleast).keeps hh

theorem holds_subset {ret : KeySet} {mr : Ident → Option KeyRef} (hks : ks.Holds h m)
    (hret : ret.Holds h mr) (hsub : ∀ k ∈ ret.array, k ∈ ks.array) :
    ret.Holds h fun id => (m id).filter (· ∈ ret.array) := by
  have hmap : mr = fun id => (m id).filter (· ∈ ret.array) := by
    funext id
    refine Option.ext fun k => ?_
    simp only [Option.filter_eq_some_iff, decide_eq_true_iff]
    rw [hret.mem, hks.mem]
    exact ⟨fun h => ⟨⟨hsub k h.1, h.2⟩, h.1⟩, fun h => ⟨h.2, h.1.2⟩⟩
  rw [← hmap]
  exact hret

theorem CutState.restore {st : Heap × KeySet × KeySet} (hst : CutState h ks cutpoint st) :
    Keeps h (st.1.set cutpoint (restoreName (st.1.cell cutpoint) (h.cell cutpoint))) := by
  refine ⟨hst.next.ge, fun k hk => ?_⟩
  by_cases hkc : k = cutpoint
  · subst hkc
    rw [set_cell_self]
    exact hst.renamed
  · rw [set_cell_ne hkc]
    exact hst.cell k hk hkc

/-- **Every key is in the rest or in the key set returned, and in one of them only**, unless a
cascading cutpoint is itself in the key set. -/
theorem ksCut_spec (hks : ks.Holds h m) (he : Entry h cutpoint)
    (hc : Cascading (h.cell cutpoint) → cutpoint ∉ ks.array) :
    ∃ returned, (ksCut h ks cutpoint).2.2 = some returned ∧ Keeps h (ksCut h ks cutpoint).1 ∧
      (ksCut h ks cutpoint).1.next = h.next ∧
      (ksCut h ks cutpoint).2.1.Holds (ksCut h ks cutpoint).1
        (fun id => (m id).filter (· ∉ returned.array)) ∧
      returned.Holds (ksCut h ks cutpoint).1 fun id => (m id).filter (· ∈ returned.array) := by
  obtain ⟨name, hn⟩ := Option.ne_none_iff_exists'.mp he.named
  rw [Cascading, keyName, hn, Option.getD_some] at hc
  by_cases hcas : name.head? = some pathSeparator
  · rw [ksCut_cascading hn hcas]
    have hst := cutRounds_state hks (hc hcas) he.lt name namespaces
      (@cutStart_state h ks cutpoint)
    generalize namespaces.foldl (cutRound cutpoint name) (cutStart h ks) = st at hst ⊢
    obtain ⟨-, mr, hret⟩ := hst.holds hks (hc hcas) (restoreName (st.1.cell cutpoint) (h.cell cutpoint))
    refine ⟨_, rfl, hst.restore, hst.next, ?_, ?_⟩
    · refine holds_part hks hst.rest ?_ (hst.alloc ▸ hks.least) hst.restore fun k hk => ?_
      · rw [hst.alloc]
        exact lt_of_le_of_lt hst.rest.length_le hks.room
      · exact ⟨hst.disjoint k, ((hst.parts k).mp hk).resolve_right⟩
    · exact holds_subset (hks.keeps hst.restore) hret fun k hk => (hst.parts k).mpr (Or.inr hk)
  · rw [ksCut_below hn hcas]
    obtain ⟨hheap, hbeside, halloc, hrun, hroom, hleast⟩ := ksCutBelow_spec h ks cutpoint
    refine ⟨_, rfl, by rw [hheap]; exact Keeps.refl h, by rw [hheap], ?_, ?_⟩
    · rw [hheap]
      refine holds_part hks (hbeside ▸ besides_sublist _) ?_ (halloc ▸ hks.least) (Keeps.refl h) ?_
      · rw [halloc]
        refine lt_of_le_of_lt ?_ hks.room
        rw [KeySet.size, hbeside]
        exact (besides_sublist _).length_le
      · intro k hk
        rw [hbeside, hrun]
        exact ⟨not_mem_firstRun hks.sorted.nodup, (mem_firstRun_or hk).resolve_left⟩
    · rw [hheap]
      exact holds_part hks (hrun ▸ firstRun_sublist _) hroom hleast (Keeps.refl h) fun _ _ => Iff.rfl

end Cut

end Elektra
