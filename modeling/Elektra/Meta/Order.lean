import Elektra.Meta.Array

/-!
# What sorting leaves

* `OrderOnly`: heaps that differ in the `order` of keys only;
* **`orderOnly_sortTopology`**: `elektraSortTopology` sets nothing else.
-/

namespace Elektra

/-- The heaps differ in the `order` of keys only. -/
def OrderOnly (h h' : Heap) : Prop := ∀ k, MetaOnly (h.cell k) (h'.cell k) ∧
  ∀ m, m ≠ str "order" → keyGetMeta (h'.cell k) m = keyGetMeta (h.cell k) m

theorem OrderOnly.refl (h : Heap) : OrderOnly h h := fun _ => ⟨MetaOnly.refl _, fun _ _ => rfl⟩

theorem OrderOnly.trans {a b c : Heap} (h : OrderOnly a b) (h' : OrderOnly b c) : OrderOnly a c := fun k =>
  ⟨(h k).1.trans (h' k).1, fun m hm => ((h' k).2 m hm).trans ((h k).2 m hm)⟩

section OrderOnly

variable {keys : List KeyRef}

theorem orderOnly_append (m : AdjMatrix) (j : KeyRef) : OrderOnly m.heap (m.append j).heap := fun k => by
  rw [AdjMatrix.append]
  by_cases he : k = j
  · subst he
    dsimp only
    rw [set_cell_self]
    exact ⟨metaOnly_set _ _ _, fun m hm => keySetMeta_getMeta hm⟩
  · dsimp only
    rw [set_cell_ne he]
    exact ⟨MetaOnly.refl _, fun _ _ => rfl⟩

theorem orderOnly_resolve (m : AdjMatrix) (j : KeyRef) : OrderOnly m.heap (m.resolve keys j).heap :=
  orderOnly_append _ j

theorem depLoop_heap (j : KeyRef) : ∀ (deps : List Str) (m : AdjMatrix) (got : ℕ),
    (depLoop keys j deps m got).2.2.heap = m.heap
  | [], _, _ => rfl
  | name :: deps, m, got => by
    unfold depLoop
    split_ifs
    · rfl
    · cases getArrayIndex m.heap keys name with
      | none => exact depLoop_heap j deps m got
      | some i =>
        dsimp only
        split_ifs
        · exact depLoop_heap j deps m got
        · rfl
        · exact depLoop_heap j deps _ _

theorem orderOnly_collectLoop : ∀ (js : List KeyRef) (c : Collected),
    OrderOnly c.matrix.heap (collectLoop keys js c).2.matrix.heap
  | [], c => OrderOnly.refl _
  | j :: js, c => by
    unfold collectLoop
    split_ifs with hat
    · exact (orderOnly_append c.matrix j).trans (orderOnly_collectLoop js { c with matrix := c.matrix.append j })
    · have hheap := @depLoop_heap keys j (depNames (c.matrix.heap.cell j)) c.matrix 0
      generalize depLoop keys j (depNames (c.matrix.heap.cell j)) c.matrix 0 = r at hheap ⊢
      obtain ⟨ret, got, m⟩ := r
      dsimp only at hheap ⊢
      generalize hc' : (if got = 0 then { c with matrix := m } else
        { matrix := { m with isResolved := Function.update m.isResolved j false }
          unresolved := c.unresolved + 1
          depCount := c.depCount + got } : Collected) = c'
      have hc : c'.matrix.heap = c.matrix.heap := by
        rw [← hc', ← hheap]
        split_ifs <;> rfl
      rw [← hc]
      split_ifs
      · exact OrderOnly.refl _
      · exact orderOnly_collectLoop js c'

theorem resolveImmediately_heap (d : ℤ) (m : AdjMatrix) : (resolveImmediately keys d m).2.heap = m.heap := by
  have hfold : ∀ (l : List KeyRef) (r : ℤ × AdjMatrix), (l.foldl (fun r j =>
      if r.2.isResolved j then (r.1 - (r.2.resolveDep keys j).1, (r.2.resolveDep keys j).2) else r) r).2.heap =
        r.2.heap := by
    intro l
    induction l with
    | nil => exact fun _ => rfl
    | cons j l ih =>
      intro r
      rw [List.foldl_cons, ih]
      split_ifs <;> rfl
  exact hfold keys (d, m)

theorem orderOnly_frontierPass : ∀ (is : List KeyRef) (f : Frontier) (m : AdjMatrix),
    OrderOnly m.heap (frontierPass keys is f m).2.heap
  | [], _, m => OrderOnly.refl _
  | i :: is, f, m => by
    unfold frontierPass
    split_ifs
    · exact OrderOnly.refl _
    · exact (orderOnly_resolve m i).trans (orderOnly_frontierPass is _ _)
    · exact orderOnly_frontierPass is f m

theorem orderOnly_frontierPasses : ∀ (n : ℕ) (f : Frontier) (m : AdjMatrix),
    OrderOnly m.heap (frontierPasses keys n f m).2.heap
  | 0, _, m => OrderOnly.refl _
  | n + 1, f, m => by
    unfold frontierPasses
    split_ifs
    · exact OrderOnly.refl _
    · exact (orderOnly_frontierPass keys f m).trans (orderOnly_frontierPasses n _ _)

theorem orderOnly_resolveDeps (j : KeyRef) (m : AdjMatrix) :
    OrderOnly m.heap (resolveDeps keys j m).2.heap := by
  unfold resolveDeps
  dsimp only
  split_ifs
  · exact orderOnly_resolve m j
  · exact orderOnly_frontierPasses _ _ m

theorem orderOnly_sortLoop (hasOrder : Bool) : ∀ (fuel : ℕ) (js : List KeyRef) (found : Bool) (unresolved : ℕ)
    (m : AdjMatrix), ∀ r ∈ sortLoop keys hasOrder fuel js found unresolved m, OrderOnly m.heap r.2.heap
  | 0, _, _, _, _ => nofun
  | fuel + 1, [], found, unresolved, m => by
    unfold sortLoop
    split_ifs
    · exact orderOnly_sortLoop hasOrder fuel keys false 0 m
    · rintro r hr
      obtain rfl := Option.some.inj hr
      exact OrderOnly.refl _
  | fuel + 1, j :: js, found, unresolved, m => by
    unfold sortLoop
    split_ifs with h1 h2 h3
    · exact orderOnly_sortLoop hasOrder fuel js found unresolved m
    · have hdeps := @orderOnly_resolveDeps keys j m
      generalize resolveDeps keys j m = r at hdeps ⊢
      obtain ⟨ret, m'⟩ := r
      dsimp only at hdeps ⊢
      split_ifs
      · rintro r hr
        obtain rfl := Option.some.inj hr
        exact hdeps
      · exact fun r hr => hdeps.trans (orderOnly_sortLoop hasOrder fuel keys true _ m' r hr)
    · exact orderOnly_sortLoop hasOrder fuel js found _ m
    · exact fun r hr => (orderOnly_resolve m j).trans (orderOnly_sortLoop hasOrder fuel js true _ _ r hr)

/-- **Sorting leaves names, values and all metadata but `order`.** -/
theorem orderOnly_sortTopology (sort sort' : Qsort) (h : Heap) (ks : List KeyRef) :
    ∀ r ∈ elektraSortTopology sort sort' h ks, OrderOnly h r.1 := by
  unfold elektraSortTopology
  cases sort (topCmpOrder h) ks with
  | nil => exact nofun
  | cons first rest =>
    dsimp only
    have hcollect := @orderOnly_collectLoop (first :: rest) (first :: rest)
      { matrix := { heap := h, isResolved := fun _ => false, deps := fun _ _ => false, done := 0 }
        unresolved := 0
        depCount := 0 }
    generalize collectLoop (first :: rest) (first :: rest) _ = c at hcollect ⊢
    obtain ⟨ret, c⟩ := c
    dsimp only at hcollect ⊢
    have himm := @resolveImmediately_heap (first :: rest) c.depCount c.matrix
    generalize resolveImmediately (first :: rest) c.depCount c.matrix = i at himm ⊢
    obtain ⟨d, m⟩ := i
    dsimp only at himm ⊢
    rw [← himm] at hcollect
    split_ifs
    · rintro r hr
      obtain rfl := Option.some.inj hr
      rw [himm] at hcollect
      exact hcollect
    · rintro r hr
      obtain rfl := Option.some.inj hr
      exact hcollect
    · rintro r hr
      obtain ⟨p, hp, rfl⟩ := Option.map_eq_some_iff.mp hr
      have hloop := hcollect.trans (orderOnly_sortLoop _ _ _ _ _ m p hp)
      split_ifs
      · exact hloop
      · exact hloop
    · rintro r hr
      obtain ⟨p, hp, rfl⟩ := Option.map_eq_some_iff.mp hr
      obtain rfl := Option.some.inj hp
      exact hcollect

end OrderOnly

end Elektra
