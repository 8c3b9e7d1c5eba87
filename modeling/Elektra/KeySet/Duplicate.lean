import Elektra.KeySet.Payload

/-!
# Duplicates of key sets

* `missing_appendKey`: a key whose name is not there yet gets one reference more;
* **`ksDup_spec`**: a duplicate has the same keys, each with one reference more, and its array is large
  enough from the start.
-/

namespace Elektra

variable {h : Heap} {ks : KeySet} {m : Ident → Option KeyRef} {k : KeyRef}

theorem keyIncRef_cell_ne {a : KeyRef} (ha : a ≠ k) : (keyIncRef h k).cell a = h.cell a := set_cell_ne ha

theorem keyIncRef_cell_self : (keyIncRef h k).cell k = { h.cell k with ksReference := (h.cell k).ksReference + 1 } :=
  Function.update_self _ _ _

theorem missing_appendKey (hks : ks.Holds h m) (hk : Entry h k) (hm : m (h.ident k) = none) :
    (ksAppendKey h ks k).2.1 = keyIncRef (elektraKeyLock h k) k ∧ (ksAppendKey h ks k).2.2.size = ks.size + 1 ∧
      (ks.size + 1 < ks.alloc → (ksAppendKey h ks k).2.2.alloc = ks.alloc) := by
  have hcode := searchInternal_code (hks.keeps (keeps_lock h k)) (hk.keeps (keeps_lock h k))
  have hident := (keeps_lock h k).ident hk.lt
  have hneg : ¬ 0 ≤ ksSearchInternal (elektraKeyLock h k) ks k := fun hpos => by
    obtain ⟨-, hlt, he⟩ | ⟨hneg, -⟩ := hcode
    · rw [SortedArray.oracle_eq hlt, identCmp_eq_iff, hident] at he
      have hmem := (hks.keeps (keeps_lock h k)).of_mem (List.getElem_mem hlt)
      rw [← he, hm] at hmem
      cases hmem
    · exact absurd hpos (not_le.mpr hneg)
  unfold ksAppendKey
  rw [if_neg hk.named]
  dsimp only
  rw [if_neg hneg]
  refine ⟨rfl, ?_, fun hroom => ?_⟩
  · have hsplit := congrArg List.length
      (List.take_append_drop (-ksSearchInternal (elektraKeyLock h k) ks k - 1).toNat ks.array)
    rw [List.length_append] at hsplit
    rw [KeySet.size, setCursor_array, List.length_append, List.length_cons, ← Nat.add_assoc, hsplit, KeySet.size]
  · rw [setCursor_alloc]
    exact if_neg (not_le.mpr hroom)

theorem lock_of_locked (hro : (h.cell k).roName = true) : elektraKeyLock h k = h := by
  have hcell : { h.cell k with roName := true } = h.cell k := by rw [← hro]
  rw [elektraKeyLock, Heap.set, hcell, Function.update_eq_self]

theorem missing_appendLoop : ∀ (l : List KeyRef) {h : Heap} {ks : KeySet} {m : Ident → Option KeyRef},
    ks.Holds h m → (∀ k ∈ l, Entry h k ∧ (h.cell k).roName = true ∧ m (h.ident k) = none) →
    (l.map h.ident).Nodup → (ksAppendLoop h ks l).1 = l.foldl keyIncRef h ∧
      (ks.size + l.length < ks.alloc → (ksAppendLoop h ks l).2.alloc = ks.alloc)
  | [], _, _, _, _, _, _ => ⟨rfl, fun _ => rfl⟩
  | k :: l, h, ks, m, hks, hl, hnodup => by
    obtain ⟨hk, hro, hm⟩ := hl k List.mem_cons_self
    obtain ⟨hne, hnodup⟩ := List.nodup_cons.mp hnodup
    obtain ⟨hheap, hsize, halloc⟩ := missing_appendKey hks hk hm
    rw [lock_of_locked hro] at hheap
    have hkeeps : Keeps h (ksAppendKey h ks k).2.1 := keeps_appendKey h ks k
    have hident : ∀ a ∈ l, (ksAppendKey h ks k).2.1.ident a = h.ident a := fun a ha =>
      hkeeps.ident (hl a (List.mem_cons_of_mem k ha)).1.lt
    have ih := missing_appendLoop l (ksAppendKey_holds hks hk) (fun a ha => ?_) ?_
    · rw [ksAppendLoop, List.foldl_cons, ← hheap]
      refine ⟨ih.1, fun hroom => ?_⟩
      rw [List.length_cons] at hroom
      have ha := halloc (by omega)
      exact (ih.2 (by omega)).trans ha
    · obtain ⟨hea, hra, hma⟩ := hl a (List.mem_cons_of_mem k ha)
      refine ⟨hea.keeps hkeeps, (hkeeps.cell a hea.lt).roName hra, ?_⟩
      rw [hident a ha, Function.update_of_ne, hma]
      intro he
      exact hne (he ▸ List.mem_map_of_mem ha)
    · rw [List.map_congr_left hident]
      exact hnodup

theorem foldl_incRef_cell : ∀ (l : List KeyRef) (h : Heap) (k : KeyRef), (l.foldl keyIncRef h).cell k =
    { h.cell k with ksReference := (h.cell k).ksReference + l.count k }
  | [], _, _ => rfl
  | a :: l, h, k => by
    rw [List.foldl_cons, foldl_incRef_cell l]
    by_cases hk : k = a
    · subst hk
      rw [keyIncRef_cell_self, List.count_cons_self, Nat.add_right_comm, Nat.add_assoc]
    · rw [keyIncRef_cell_ne hk, List.count_cons_of_ne (Ne.symm hk)]

theorem foldl_incRef_freed : ∀ (l : List KeyRef) (h : Heap), (l.foldl keyIncRef h).freed = h.freed
  | [], _ => rfl
  | _ :: l, _ => foldl_incRef_freed l _

/-- **A duplicate has the same keys.** -/
theorem ksDup_spec (hks : ks.Holds h m) : (ksDup h ks).1 = ks.array.foldl keyIncRef h ∧
    (ksDup h ks).2.array = ks.array ∧
      (ksDup h ks).2.alloc = (if ks.alloc < KEYSET_SIZE then KEYSET_SIZE else ks.alloc) + 1 := by
  set size := if ks.alloc < KEYSET_SIZE then KEYSET_SIZE else ks.alloc with hsize
  have hleast : KEYSET_SIZE ≤ size := by
    rw [hsize]
    split_ifs <;> omega
  have hpos : 0 < KEYSET_SIZE := by decide
  have hroom : ks.size < size + 1 := by
    have := hks.room
    rw [hsize]
    split_ifs <;> omega
  set empty : KeySet := { array := [], alloc := size + 1, cursor := none, current := 0, sync := false } with hempty
  have hnew : ksNew h size [] = (h, empty) := by
    unfold ksNew
    dsimp only
    rw [if_pos (by omega), if_neg (by omega)]
    rfl
  have hdup : ksDup h ks = ((ksAppend h empty ks).2.1, (ksAppend h empty ks).2.2) := by
    unfold ksDup
    dsimp only
    rw [hnew]
  have hresize : (ksResize empty (toAllocLoop (empty.size + ks.size) (empty.size + ks.size + 1) empty.alloc - 1)).2 =
      empty := by
    have hloop : toAllocLoop (empty.size + ks.size) (empty.size + ks.size + 1) empty.alloc = size + 1 := by
      rw [toAllocLoop, if_neg (not_le.mpr (by rwa [hempty, KeySet.size, List.length_nil, Nat.zero_add]))]
    rw [hloop, ksResize, resizeAlloc]
    dsimp only
    rw [if_pos (Nat.add_sub_cancel _ _ ▸ rfl)]
  have hnodup : (ks.array.map h.ident).Nodup :=
    List.pairwise_map.mpr (hks.sorted.imp fun hlt => SortedArray.key_ne_of_lt hlt)
  have hloop := missing_appendLoop ks.array (@holds_empty h empty rfl (by omega : KEYSET_SIZE ≤ size + 1))
    (fun k hk => ⟨hks.entry k hk, hks.locked k hk, rfl⟩) hnodup
  have hbody : (ksAppend h empty ks).2.1 = ks.array.foldl keyIncRef h ∧ (ksAppend h empty ks).2.2.alloc = size + 1 := by
    unfold ksAppend
    split_ifs with h0
    · rw [List.eq_nil_of_length_eq_zero h0]
      exact ⟨rfl, rfl⟩
    · dsimp only
      rw [hresize]
      exact ⟨hloop.1, hloop.2 (by rwa [hempty, KeySet.size, List.length_nil, Nat.zero_add])⟩
  have harray := hks.array_eq (ksDup_holds hks) (keeps_dup h ks)
  rw [hdup] at harray ⊢
  exact ⟨hbody.1, harray, hbody.2⟩

end Elektra
