import Elektra.Lookup.Pop
import Elektra.KeySet.Cursor

/-!
# What a lookup does to the cursor

A search that finds a key moves the cursor to it, or takes the key out and rewinds. One that finds none puts the
cursor back where it was, unless that was behind the last key. A lookup is made of searches one after the other,
and the first that finds a key ends it, but for the search of a key of the specification.

* `Stands`, `Settled`, `Proper`: where a cursor is, and the keys of a key set;
* `Outcome`, `Result`: what a search leaves; `binarySearch_result`, `linearSearch_result`;
* **`Result.trans`**: one search after another.
-/

namespace Elektra

/-! ## Cursors -/

/-- The cursor is at the key. -/
def KeySet.Stands (ks : KeySet) (k : KeyRef) : Prop := ∃ i, ks.AtKey i ∧ ks.array[i]? = some k

/-- The cursor is at a key or before the first one. -/
def KeySet.Settled (ks : KeySet) : Prop := ks.Rewound ∨ ∃ k, ks.Stands k

section Cursors

variable {ks ks' : KeySet} {k : KeyRef} {h : Heap}

theorem KeySet.Stands.cursor (hk : ks.Stands k) : ks.cursor = some k := by
  obtain ⟨i, hi, hget⟩ := hk
  rw [hi.cursor, hget]

theorem KeySet.Stands.mem (hk : ks.Stands k) : k ∈ ks.array := by
  obtain ⟨i, -, hget⟩ := hk
  exact List.mem_of_getElem? hget

theorem KeySet.Stands.settled (hk : ks.Stands k) : ks.Settled := .inr ⟨k, hk⟩

theorem setCursor_getCursor (hs : ks.Settled) (cursor : Option KeyRef) (current : ℕ) :
    ksSetCursor { ks with cursor := cursor, current := current } (ksGetCursor ks) = ks := by
  obtain hr | ⟨k, i, hi, hget⟩ := hs
  · rw [ksGetCursor, if_pos hr.cursor, ksSetCursor, ksRewind, ← hr.cursor, ← hr.current]
  · rw [ksGetCursor, if_neg hi.cursor_ne, ksSetCursor, hi.current, ← hi.cursor, ← hi.current]

theorem stands_setCursor {i : ℕ} (hk : ks.array[i]? = some k) : (ksSetCursor ks (some i)).Stands k :=
  ⟨i, ⟨rfl, rfl, (List.getElem?_eq_some_iff.mp hk).1⟩, hk⟩

theorem popAtCursor_ks {i : ℕ} (hk : ks.array[i]? = some k) :
    (elektraKsPopAtCursor h ks i).1 = some k ∧ (elektraKsPopAtCursor h ks i).2.2.Rewound ∧
      (elektraKsPopAtCursor h ks i).2.2.array = ks.array.eraseIdx i := by
  unfold elektraKsPopAtCursor
  rw [if_neg (by omega), Int.toNat_natCast, hk]
  unfold ksPop
  dsimp only [ksRewind]
  rw [List.getLast?_concat]
  dsimp only
  rw [List.dropLast_concat]
  split_ifs
  · exact ⟨rfl, ⟨rfl, rfl⟩, rfl⟩
  · exact ⟨rfl, ⟨rfl, rfl⟩, rfl⟩

/-- **The cursor goes to an appended key.** -/
theorem appendKey_stands (hn : (h.cell k).key ≠ none) (hk : k ∉ ks.array) :
    (ksAppendKey h ks k).2.2.Stands k ∧ (∀ a ∈ (ksAppendKey h ks k).2.2.array, a = k ∨ a ∈ ks.array) := by
  have hrange := Bisect.closed_range (searchOrder (elektraKeyLock h k) ks k) ks.size
  unfold ksAppendKey
  rw [if_neg hn]
  dsimp only
  rw [ksSearchInternal]
  generalize Bisect.closed (searchOrder (elektraKeyLock h k) ks k) ks.size = result at hrange ⊢
  obtain ⟨h0, hlt⟩ | ⟨h0, hle⟩ := hrange
  · have hne : ¬ ks.array[result.toNat]? = some k := fun hget => hk (List.mem_of_getElem? hget)
    rw [if_pos h0, if_neg hne]
    have hget : (ks.array.set result.toNat k)[result.toNat]? = some k := by
      rw [List.getElem?_set_self hlt]
    refine ⟨@stands_setCursor { ks with array := ks.array.set result.toNat k } k _ hget, fun a ha => ?_⟩
    rw [setCursor_array] at ha
    exact (List.mem_or_eq_of_mem_set ha).symm
  · rw [if_neg (not_le.mpr h0)]
    have hlen : (ks.array.take (-result - 1).toNat).length = (-result - 1).toNat := List.length_take_of_le hle
    have hget : (ks.array.take (-result - 1).toNat ++ k :: ks.array.drop (-result - 1).toNat)[(-result - 1).toNat]? =
        some k := by
      rw [List.getElem?_append_right hlen.le, hlen, Nat.sub_self]
      rfl
    refine ⟨stands_setCursor hget, fun a ha => ?_⟩
    rw [setCursor_array] at ha
    exact SortedArray.mem_gap.mp ha

end Cursors

/-! ## Searching -/

/-- The keys of the key set are allocated, and their names locked. -/
def Proper (w : World) : Prop := ∀ k ∈ w.ks.array, k < w.heap.next ∧ (w.cell k).roName = true

/-- The key is one of the specification. -/
def IsSpec (key : Key) : Prop := (str "spec/").isPrefixOf (keyName key) = true

/-- No key was found but one of the specification: the cursor is where it was or at that key, or the key was popped. -/
def Missed (pop deep : Bool) (w w' : World) : Prop :=
  w'.ks = w.ks ∨ deep = true ∧ ((∃ k, w'.ks.Stands k ∧ IsSpec (w'.cell k) ∧ w'.ks.array = w.ks.array) ∨
    pop = true ∧ w'.ks.array.length < w.ks.array.length)

/-- A key was found or added: the cursor is at it, or it was popped, or it is a default that has no name. -/
def Hit (pop deep : Bool) (w w' : World) (k : KeyRef) : Prop :=
  (w'.ks.Stands k ∧ (w'.ks.array = w.ks.array ∨ deep = true ∧ (pop = true ∨ w.heap.next ≤ k))) ∨
    (pop = true ∧ w'.ks.Rewound ∧ w'.ks.array.length < w.ks.array.length) ∨
    deep = true ∧ w.heap.next ≤ k ∧ k ∉ w'.ks.array

/-- What a lookup leaves: `pop` is whether it pops, `deep` whether it asks for keys of the specification or adds
keys. -/
def Outcome (pop deep : Bool) (w w' : World) : Option KeyRef → Prop
  | none => Missed pop deep w w'
  | some k => Hit pop deep w w' k

structure Result (pop deep : Bool) (w : World) (ret : Option KeyRef) (w' : World) : Prop where
  proper : Proper w'
  settled : w'.ks.Settled
  outcome : Outcome pop deep w w' ret

section Searches

variable {w w' : World} {key c : KeyRef} {o : Options}

theorem Proper.frame (hp : Proper w) (hf : FrameBut c w.heap w'.heap) (hks : w'.ks.array = w.ks.array) :
    Proper w' := by
  intro k hk
  rw [hks] at hk
  obtain ⟨hlt, hro⟩ := hp k hk
  refine ⟨lt_of_lt_of_le hlt hf.next, ?_⟩
  by_cases hkc : k = c
  · subst hkc
    exact (hf.name hlt).lock.trans hro
  · exact (hf.cell k hlt hkc).lock.trans hro

theorem Proper.not_mem (hp : Proper w) (hro : (w.cell key).roName = false) : key ∉ w.ks.array := by
  intro hk
  rw [(hp key hk).2] at hro
  cases hro

theorem Proper.new_not_mem (hp : Proper w) : w.heap.next ∉ w.ks.array := fun hk => (hp _ hk).1.false

theorem binarySearch_result (hp : Proper w) (hs : w.ks.Settled) (key : KeyRef) (o : Options) :
    Frame w.heap (elektraLookupBinarySearch w key o).2.heap ∧
      Result o.pop false w (elektraLookupBinarySearch w key o).1 (elektraLookupBinarySearch w key o).2 := by
  unfold elektraLookupBinarySearch
  dsimp only
  cases hb : bsearch w key (lookupCompare o) with
  | none =>
    have hback : ksSetCursor w.ks (ksGetCursor w.ks) = w.ks := setCursor_getCursor hs w.ks.cursor w.ks.current
    dsimp only
    rw [hback]
    exact ⟨.refl _, hp, hs, .inl rfl⟩
  | some found =>
    have hlt : found < w.ks.array.length := (Bisect.halfOpen_found hb).1
    have hget : w.ks.array[found]? = some w.ks.array[found] := List.getElem?_eq_getElem hlt
    dsimp only
    split_ifs with hpop
    · obtain ⟨hret, hrewound, harray⟩ := @popAtCursor_ks w.ks _ w.heap found hget
      have hframe := frame_popAtCursor w.heap w.ks found
      generalize elektraKsPopAtCursor w.heap w.ks found = x at hret hrewound harray hframe ⊢
      obtain ⟨k, h, ks⟩ := x
      dsimp only at hret hrewound harray hframe ⊢
      subst hret
      have hproper : Proper { heap := h, ks := ks } := by
        intro k hk
        have hk' : k ∈ ks.array := hk
        rw [harray] at hk'
        obtain ⟨hlt, hro⟩ := hp k (List.mem_of_mem_eraseIdx hk')
        exact ⟨lt_of_lt_of_le hlt hframe.next, (hframe.cell k hlt).lock.trans hro⟩
      refine ⟨hframe, hproper, .inl hrewound, .inr (.inl ⟨hpop, hrewound, ?_⟩)⟩
      change ks.array.length < _
      rw [harray, List.length_eraseIdx_of_lt hlt]
      omega
    · rw [hget]
      have hstands := stands_setCursor hget
      refine ⟨.refl _, hp.frame ((Frame.refl _).but key) (setCursor_array _ _), hstands.settled,
        .inl ⟨hstands, .inl (setCursor_array _ _)⟩⟩

theorem linearLoop_ks (key : KeyRef) (cmp : Key → Key → Ordering) : ∀ (fuel : ℕ) (ks : KeySet),
    (∃ cursor current, (linearLoop w key cmp fuel ks).2 = { ks with cursor := cursor, current := current }) ∧
      ∀ k, (linearLoop w key cmp fuel ks).1 = some k → (linearLoop w key cmp fuel ks).2.Stands k
  | 0, ks => ⟨⟨ks.cursor, ks.current, rfl⟩, fun _ h => by cases h⟩
  | fuel + 1, ks => by
    rw [linearLoop]
    obtain ⟨-, hnone, -⟩ | ⟨k, rest, -, hnext, hat, -⟩ := ksNext_cases ks
    · have hks : ∃ cursor current, (ksNext ks).2 = { ks with cursor := cursor, current := current } := by
        rw [ksNext_eq]
        split_ifs
        · exact ⟨ks.cursor, ks.current, rfl⟩
        · exact ⟨ks.cursor, ks.current, rfl⟩
        · exact ⟨_, _, rfl⟩
      generalize ksNext ks = x at hnone hks ⊢
      obtain ⟨r, ks'⟩ := x
      dsimp only at hnone hks
      subst hnone
      exact ⟨hks, fun _ h => by cases h⟩
    · have hstands : (ksNext ks).2.Stands k := by
        refine ⟨_, hat, ?_⟩
        rw [← hat.cursor, hnext]
      rw [hnext] at hstands ⊢
      dsimp only at hstands ⊢
      split_ifs
      · refine ⟨⟨_, _, rfl⟩, fun k' hk' => ?_⟩
        obtain rfl := Option.some.inj hk'
        exact hstands
      · obtain ⟨⟨cursor, current, hks⟩, hfound⟩ := linearLoop_ks key cmp fuel
          { ks with cursor := some k, current := ks.nextIndex }
        exact ⟨⟨cursor, current, hks⟩, hfound⟩

theorem linearSearch_result (hp : Proper w) (hs : w.ks.Settled) (key : KeyRef) (o : Options) (pop : Bool) :
    Frame w.heap (elektraLookupLinearSearch w key o).2.heap ∧
      Result pop false w (elektraLookupLinearSearch w key o).1 (elektraLookupLinearSearch w key o).2 := by
  have hstart : ∃ cursor current, (if o.noall then w.ks else ksRewind w.ks) =
      { w.ks with cursor := cursor, current := current } := by
    split_ifs
    · exact ⟨w.ks.cursor, w.ks.current, rfl⟩
    · exact ⟨none, 0, rfl⟩
  unfold elektraLookupLinearSearch
  dsimp only
  obtain ⟨cursor₀, current₀, hks₀⟩ := hstart
  rw [hks₀]
  obtain ⟨⟨cursor, current, hks⟩, hfound⟩ := @linearLoop_ks w key (lookupCompare o)
    ({ w.ks with cursor := cursor₀, current := current₀ } : KeySet).size.succ { w.ks with cursor := cursor₀, current := current₀ }
  generalize linearLoop w key (lookupCompare o) _ _ = x at hks hfound ⊢
  obtain ⟨r, ks⟩ := x
  dsimp only at hks hfound
  subst hks
  cases r with
  | none =>
    dsimp only
    rw [setCursor_getCursor hs cursor current]
    exact ⟨.refl _, hp, hs, .inl rfl⟩
  | some k =>
    have hstands := hfound k rfl
    exact ⟨.refl _, hp.frame ((Frame.refl _).but key) rfl, hstands.settled, .inl ⟨hstands, .inl rfl⟩⟩

end Searches

/-! ## One search after another -/

/-- The keys of the key set keep their names. -/
structure Keeping (w w' : World) : Prop where
  next : w.heap.next ≤ w'.heap.next
  key : ∀ k ∈ w.ks.array, (w'.cell k).key = (w.cell k).key
  lock : ∀ k ∈ w.ks.array, (w'.cell k).roName = (w.cell k).roName

section Composition

variable {w w₁ w' : World} {key c : KeyRef} {pop pop' deep deep' : Bool} {ret : Option KeyRef}
  {R S : Heap → Heap → Prop} {x : Except Stop (Option KeyRef × World)}

theorem Proper.keeping (hp : Proper w) (hf : FrameBut c w.heap w'.heap) (hc : c ∉ w.ks.array) : Keeping w w' where
  next := hf.next
  key k hk := (hf.cell k (hp k hk).1 fun h => hc (h ▸ hk)).key
  lock k hk := (hf.cell k (hp k hk).1 fun h => hc (h ▸ hk)).lock

theorem Keeping.isSpec (h : Keeping w w') {k : KeyRef} (hk : k ∈ w.ks.array) (hs : IsSpec (w.cell k)) :
    IsSpec (w'.cell k) := by
  rw [IsSpec, keyName, h.key k hk]
  exact hs

theorem Result.after (h : Result pop deep w ret w₁) (hk : Keeping w₁ w') (hks : w'.ks = w₁.ks) :
    Result pop deep w ret w' where
  proper k hmem := by
    rw [hks] at hmem
    exact ⟨lt_of_lt_of_le (h.proper k hmem).1 hk.next, (hk.lock k hmem).trans (h.proper k hmem).2⟩
  settled := hks ▸ h.settled
  outcome := by
    have hout := h.outcome
    cases ret with
    | none =>
      obtain hsame | ⟨hdeep, ⟨k, hstands, hspec, harray⟩ | hpop⟩ := hout
      · exact .inl (hks.trans hsame)
      · exact .inr ⟨hdeep, .inl ⟨k, hks ▸ hstands, hk.isSpec hstands.mem hspec, hks ▸ harray⟩⟩
      · exact .inr ⟨hdeep, .inr (hks ▸ hpop)⟩
    | some k =>
      change Hit pop deep w w' k
      rw [Hit, hks]
      exact hout

theorem Result.before (h : Result pop deep w₁ ret w') (hks : w₁.ks = w.ks) (hn : w.heap.next ≤ w₁.heap.next) :
    Result pop deep w ret w' where
  proper := h.proper
  settled := h.settled
  outcome := by
    have hout := h.outcome
    cases ret with
    | none =>
      change Missed pop deep w w'
      rw [Missed, ← hks]
      exact hout
    | some k =>
      change Hit pop deep w w' k
      rw [Hit, ← hks]
      refine hout.imp (fun hst => ⟨hst.1, hst.2.imp_right fun hadd => ⟨hadd.1, hadd.2.imp_right hn.trans⟩⟩) ?_
      exact Or.imp_right fun hnew => ⟨hnew.1, hn.trans hnew.2.1, hnew.2.2⟩

theorem Result.mono (h : Result pop deep w ret w') (hpop : pop = true → pop' = true)
    (hdeep : deep = true → deep' = true) : Result pop' deep' w ret w' where
  proper := h.proper
  settled := h.settled
  outcome := by
    have hout := h.outcome
    cases ret with
    | none => exact hout.imp_right fun hd => ⟨hdeep hd.1, hd.2.imp_right fun hp => ⟨hpop hp.1, hp.2⟩⟩
    | some k =>
      refine hout.imp (fun hst => ⟨hst.1, hst.2.imp_right fun hadd => ⟨hdeep hadd.1, hadd.2.imp_left hpop⟩⟩) ?_
      exact Or.imp (fun hp => ⟨hpop hp.1, hp.2⟩) fun hnew => ⟨hdeep hnew.1, hnew.2⟩

/-- **A search after one that found nothing.** -/
theorem Result.trans (h : Result pop deep w none w₁) (h' : Result pop deep w₁ ret w') (hk : Keeping w₁ w')
    (hn : w.heap.next ≤ w₁.heap.next) : Result pop deep w ret w' where
  proper := h'.proper
  settled := h'.settled
  outcome := by
    have hfirst : w₁.ks = w.ks ∨ deep = true ∧ ((∃ k, w₁.ks.Stands k ∧ IsSpec (w₁.cell k) ∧
      w₁.ks.array = w.ks.array) ∨ pop = true ∧ w₁.ks.array.length < w.ks.array.length) := h.outcome
    obtain hsame | ⟨hdeep, hfirst⟩ := hfirst
    · exact (h'.before hsame hn).outcome
    have hout := h'.outcome
    cases ret with
    | none =>
      refine .inr ⟨hdeep, ?_⟩
      obtain hsame | ⟨-, ⟨k, hstands, hspec, harray⟩ | ⟨hpop, hlt⟩⟩ := hout
      · rw [hsame]
        obtain ⟨k, hstands, hspec, harray⟩ | hpop := hfirst
        · exact .inl ⟨k, hstands, hk.isSpec hstands.mem hspec, harray⟩
        · exact .inr hpop
      · obtain ⟨_, _, _, harray'⟩ | hpop := hfirst
        · exact .inl ⟨k, hstands, hspec, harray.trans harray'⟩
        · exact .inr (harray ▸ hpop)
      · refine .inr ⟨hpop, ?_⟩
        obtain ⟨_, _, _, harray'⟩ | ⟨_, hlt'⟩ := hfirst
        · exact harray' ▸ hlt
        · exact hlt.trans hlt'
    | some k =>
      obtain ⟨hstands, harray⟩ | ⟨hpop, hrewound, hlt⟩ | ⟨-, hnew, hmem⟩ := hout
      · refine .inl ⟨hstands, ?_⟩
        obtain ⟨_, _, _, harray'⟩ | ⟨hpop, _⟩ := hfirst
        · exact harray.imp (·.trans harray') fun hadd => ⟨hadd.1, hadd.2.imp_right hn.trans⟩
        · exact .inr ⟨hdeep, .inl hpop⟩
      · refine .inr (.inl ⟨hpop, hrewound, ?_⟩)
        obtain ⟨_, _, _, harray'⟩ | ⟨_, hlt'⟩ := hfirst
        · exact harray' ▸ hlt
        · exact hlt.trans hlt'
      · exact .inr (.inr ⟨hdeep, hn.trans hnew, hmem⟩)

theorem Result.start (hp : Proper w) (hs : w.ks.Settled) : Result pop deep w none w := ⟨hp, hs, .inl rfl⟩

end Composition

end Elektra
