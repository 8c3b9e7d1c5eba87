import Elektra.Meta.Resolve

/-!
# elektraSortTopology

* `targets`, `pending`: what a key depends on, and what of it is not resolved at first;
* `Collects`, **`collectLoop_spec`**, **`resolveImmediately_spec`**;
* `Crowded`, `InPlace`: what may go wrong without a cycle; **`elektraSortTopology_iff`**.
-/

namespace Elektra

open Dependency

/-! ## What is resolved at first -/

/-- The keys that `k` depends on, as often as it names them. -/
def targets (h : Heap) (keys : List KeyRef) (k : KeyRef) : List KeyRef :=
  ((depNames (h.cell k)).filterMap (getArrayIndex h keys)).filter (· ≠ k)

/-- The keys before `k`. -/
def earlier (keys : List KeyRef) (k : KeyRef) : List KeyRef := keys.takeWhile (· ≠ k)

/-- `resolvedAtOnce`, of the key in its cell -/
def atOnce (h : Heap) (k : KeyRef) : Bool := resolvedAtOnce (h.cell k)

/-- Those of them that are not resolved before `k`. -/
def pending (h : Heap) (keys : List KeyRef) (k : KeyRef) : List KeyRef :=
  (targets h keys k).filter fun i => !(atOnce h i && (earlier keys k).contains i)

/-- The number that a key gets which is resolved at once. -/
def firstNumber (h : Heap) (keys : List KeyRef) (k : KeyRef) : ℕ := (earlier keys k).countP (atOnce h)

/-- All names of dependencies that are looked at are names. -/
def ValidNames (h : Heap) (keys : List KeyRef) : Prop :=
  ∀ k ∈ keys, atOnce h k = false → ∀ name ∈ depNames (h.cell k), isValidKeyName name = true

section Pending

variable {h : Heap} {keys : List KeyRef} {j k i : KeyRef}

theorem getArrayIndex_eq (hs : Sortable h keys) (hi : i ∈ keys) :
    getArrayIndex h keys (keyName (h.cell i)) = some i := by
  have hinj : ∀ a ∈ keys, keyName (h.cell a) = keyName (h.cell i) → a = i :=
    fun a ha he => List.inj_on_of_nodup_map hs.names ha hi he
  cases hfind : getArrayIndex h keys (keyName (h.cell i)) with
  | none =>
    have := List.find?_eq_none.mp hfind i hi
    simp at this
  | some a =>
    rw [hinj a (List.mem_of_find?_eq_some hfind) (by simpa using List.find?_some hfind)]

theorem mem_targets (hs : Sortable h keys) (hk : k ∈ keys) :
    i ∈ targets h keys k ↔ DependsOn h keys k i := by
  rw [targets, List.mem_filter, List.mem_filterMap]
  constructor
  · rintro ⟨⟨name, hname, hfind⟩, hne⟩
    have hfound := List.find?_some hfind
    exact ⟨hk, List.mem_of_find?_eq_some hfind, by simpa using hne, by
      rw [show keyName (h.cell i) = name by simpa using hfound]
      exact hname⟩
  · rintro ⟨-, hi, hne, hname⟩
    exact ⟨⟨_, hname, getArrayIndex_eq hs hi⟩, by simpa using hne⟩

theorem targets_atOnce (hs : Sortable h keys) (hk : k ∈ keys) (hat : atOnce h k = true) :
    targets h keys k = [] := by
  unfold atOnce resolvedAtOnce at hat
  unfold targets depNames
  cases hdeps : elektraMetaArrayToKS (h.cell k) (str "dep") with
  | none => rfl
  | some deps =>
    rw [hdeps] at hat
    have hown : deps.2 = [keyName (h.cell k)] := by simpa using hat
    simp [hown, getArrayIndex_eq hs hk]

theorem earlier_eq {before after : List KeyRef} (hj : j ∉ before) :
    earlier (before ++ j :: after) j = before := by
  rw [earlier, List.takeWhile_append_of_pos]
  · simp
  · intro a ha
    simp only [decide_eq_true_eq]
    rintro rfl
    exact hj ha

/-- The loop over the names: one is no name, there is a cycle, or the row of `j` is filled. -/
theorem depLoop_spec (names : List Str) {m : AdjMatrix} (hr : Reordered h m.heap) (got : ℕ) :
    let wait := (names.filterMap (getArrayIndex h keys)).filter fun i => i ≠ j ∧ m.isResolved i = false
    (∃ name ∈ names, isValidKeyName name = false ∧ (depLoop keys j names m got).1 = -1) ∨
    (∃ i ∈ wait, m.deps i j = true ∧ (depLoop keys j names m got).1 = 0) ∨
    ((∀ name ∈ names, isValidKeyName name = true) ∧
      depLoop keys j names m got = (1, got + wait.length,
        { m with deps := fun a i => if a = j ∧ i ∈ wait then true else m.deps a i })) := by
  induction names generalizing m got with
  | nil => exact Or.inr (Or.inr ⟨fun _ hn => absurd hn List.not_mem_nil, by simp [depLoop]⟩)
  | cons name names ih =>
    rw [depLoop, hr.getArrayIndex]
    by_cases hvalid : isValidKeyName name = true
    · rw [if_neg (by simp [hvalid])]
      -- the name and those behind it
      have hnames : (∀ name' ∈ names, isValidKeyName name' = true) →
          ∀ name' ∈ name :: names, isValidKeyName name' = true := by
        intro hall name' hname'
        obtain rfl | hname' := List.mem_cons.mp hname'
        · exact hvalid
        · exact hall name' hname'
      have hskip : ∀ wait, wait = (names.filterMap (getArrayIndex h keys)).filter
            (fun i => i ≠ j ∧ m.isResolved i = false) →
          (∃ name' ∈ name :: names, isValidKeyName name' = false ∧ (depLoop keys j names m got).1 = -1) ∨
          (∃ i ∈ wait, m.deps i j = true ∧ (depLoop keys j names m got).1 = 0) ∨
          ((∀ name' ∈ name :: names, isValidKeyName name' = true) ∧
            depLoop keys j names m got = (1, got + wait.length,
              { m with deps := fun a i => if a = j ∧ i ∈ wait then true else m.deps a i })) := by
        rintro _ rfl
        obtain ⟨name', hname', hbad⟩ | hcycle | ⟨hall, heq⟩ := ih hr got
        · exact Or.inl ⟨name', List.mem_cons_of_mem _ hname', hbad⟩
        · exact Or.inr (Or.inl hcycle)
        · exact Or.inr (Or.inr ⟨hnames hall, heq⟩)
      cases hfind : getArrayIndex h keys name with
      | none => exact hskip _ (by rw [List.filterMap_cons_none hfind])
      | some i =>
        by_cases hdone : i = j ∨ m.isResolved i = true
        · dsimp only
          rw [if_pos hdone]
          refine hskip _ ?_
          rw [List.filterMap_cons_some hfind, List.filter_cons_of_neg]
          simpa using fun hne => hdone.resolve_left hne
        · dsimp only
          rw [if_neg hdone]
          obtain ⟨hij, hres⟩ := not_or.mp hdone
          rw [List.filterMap_cons_some hfind, List.filter_cons_of_pos (by simp [hij, hres])]
          have hrow : ∀ a, a ≠ j →
              Function.update m.deps j (Function.update (m.deps j) i true) a = m.deps a :=
            fun a ha => Function.update_of_ne ha _ _
          split_ifs with hcycle
          · rw [hrow i hij] at hcycle
            exact Or.inr (Or.inl ⟨i, List.mem_cons_self, hcycle, rfl⟩)
          · obtain ⟨name', hname', hbad⟩ | ⟨b, hb, hdep, hret⟩ | ⟨hall, heq⟩ :=
              @ih { m with deps := Function.update m.deps j (Function.update (m.deps j) i true) } hr
                (got + 1)
            · exact Or.inl ⟨name', List.mem_cons_of_mem _ hname', hbad⟩
            · refine Or.inr (Or.inl ⟨b, List.mem_cons_of_mem _ hb, ?_, hret⟩)
              have hbj := (List.mem_filter.mp hb).2
              rw [decide_eq_true_eq] at hbj
              rw [← hrow b hbj.1]
              exact hdep
            · refine Or.inr (Or.inr ⟨hnames hall, ?_⟩)
              rw [heq, List.length_cons, Nat.add_right_comm, Nat.add_assoc]
              congr 3
              funext a b
              by_cases ha : a = j
              · subst ha
                by_cases hb : b = i
                · simp [hb]
                · simp [hb]
              · simp [ha]
    · rw [if_pos (by simpa using hvalid)]
      exact Or.inl ⟨name, List.mem_cons_self, by simpa using hvalid, rfl⟩

end Pending

/-! ## The loop over the keys -/

/-- What has been collected of the keys `before`. -/
structure Collects (h : Heap) (keys before : List KeyRef) (c : Collected) : Prop where
  kept : Reordered h c.matrix.heap
  resolved : ∀ k, c.matrix.isResolved k = (before.contains k && atOnce h k)
  done : c.matrix.done = before.countP (atOnce h)
  order : ∀ k ∈ before, atOnce h k = true →
    keyGetMeta (c.matrix.heap.cell k) (str "order") = some (elektraWriteArrayNumber (firstNumber h keys k))
  stale : ∀ k, ¬ (k ∈ before ∧ atOnce h k = true) → c.matrix.heap.cell k = h.cell k
  deps : ∀ k i, c.matrix.deps k i = true ↔ k ∈ before ∧ i ∈ pending h keys k
  depCount : c.depCount = ((before.map fun k => (pending h keys k).length).sum : ℕ)
  unresolved : c.unresolved = 0 ↔ ∀ k ∈ before, pending h keys k = []
  valid : ValidNames h before

section Collect

variable {h : Heap} {keys : List KeyRef} {c : Collected}

theorem pending_atOnce (hs : Sortable h keys) {k : KeyRef} (hk : k ∈ keys) (hat : atOnce h k = true) :
    pending h keys k = [] := by
  rw [pending, targets_atOnce hs hk hat]
  rfl

theorem Collects.append (hs : Sortable h keys) {before after : List KeyRef} {j : KeyRef}
    (hkeys : keys = before ++ j :: after) (hj : j ∉ before) (hc : Collects h keys before c)
    (hat : atOnce h j = true) :
    Collects h keys (before ++ [j]) { c with matrix := c.matrix.append j } := by
  have hjk : j ∈ keys := by
    rw [hkeys]
    simp
  have hnumber : firstNumber h keys j = c.matrix.done := by
    rw [firstNumber, hkeys, earlier_eq hj, hc.done]
  have hheap : (c.matrix.append j).heap = c.matrix.heap.set j
    (keySetMeta (c.matrix.heap.cell j) (str "order") (some (elektraWriteArrayNumber c.matrix.done))).2 := rfl
  refine ⟨hc.kept.set j _, fun k => ?_, ?_, fun k hk hkat => ?_, fun k hk => ?_, fun k i => ?_, ?_, ?_, ?_⟩
  · by_cases hkj : k = j
    · simp [AdjMatrix.append, hkj, hat]
    · simp [AdjMatrix.append, hkj, hc.resolved]
  · simp [AdjMatrix.append, hc.done, hat]
  · dsimp only
    rw [hheap]
    by_cases hkj : k = j
    · subst hkj
      rw [set_cell_self, set_order, hnumber]
      rw [hc.kept.roMeta]
      exact hs.unlocked k hjk
    · rw [set_cell_ne hkj]
      exact hc.order k (by simpa [hkj] using hk) hkat
  · dsimp only
    have hkj : k ≠ j := by
      rintro rfl
      exact hk ⟨by simp, hat⟩
    rw [hheap, set_cell_ne hkj]
    exact hc.stale k fun hmem => hk ⟨List.mem_append_left _ hmem.1, hmem.2⟩
  · have : (c.matrix.append j).deps k i = c.matrix.deps k i := rfl
    dsimp only
    rw [this, hc.deps, List.mem_append, List.mem_singleton]
    constructor
    · exact fun hk => ⟨Or.inl hk.1, hk.2⟩
    · rintro ⟨hk | rfl, hi⟩
      · exact ⟨hk, hi⟩
      · rw [pending_atOnce hs hjk hat] at hi
        cases hi
  · simp [hc.depCount, pending_atOnce hs hjk hat]
  · dsimp only
    rw [hc.unresolved]
    constructor
    · intro hall k hk
      obtain hk | hk := List.mem_append.mp hk
      · exact hall k hk
      · rw [List.mem_singleton.mp hk]
        exact pending_atOnce hs hjk hat
    · exact fun hall k hk => hall k (List.mem_append_left _ hk)
  · intro k hk hkat
    obtain hk | hk := List.mem_append.mp hk
    · exact hc.valid k hk hkat
    · rw [List.mem_singleton.mp hk, hat] at hkat
      cases hkat

theorem pending_eq {before after : List KeyRef} {j : KeyRef}
    (hkeys : keys = before ++ j :: after) (hj : j ∉ before) (hc : Collects h keys before c) :
    ((depNames (h.cell j)).filterMap (getArrayIndex h keys)).filter
      (fun i => i ≠ j ∧ c.matrix.isResolved i = false) = pending h keys j := by
  rw [pending, targets, List.filter_filter, hkeys, earlier_eq hj]
  refine List.filter_congr fun i _ => ?_
  rw [hc.resolved]
  by_cases hij : i = j
  · simp [hij]
  · simp [hij, Bool.and_comm]

theorem Collects.wait {before : List KeyRef} {j : KeyRef} (hc : Collects h keys before c)
    (hat : atOnce h j = false) (hvalid : ∀ name ∈ depNames (h.cell j), isValidKeyName name = true)
    {c' : Collected} (hheap : c'.matrix.heap = c.matrix.heap) (hdone : c'.matrix.done = c.matrix.done)
    (hres : ∀ k, c'.matrix.isResolved k = if k = j then false else c.matrix.isResolved k)
    (hdeps : ∀ k i, c'.matrix.deps k i =
      if k = j ∧ i ∈ pending h keys j then true else c.matrix.deps k i)
    (hcount : c'.depCount = c.depCount + (pending h keys j).length)
    (hunres : c'.unresolved = 0 ↔ c.unresolved = 0 ∧ pending h keys j = []) :
    Collects h keys (before ++ [j]) c' := by
  refine ⟨hheap ▸ hc.kept, fun k => ?_, ?_, fun k hk hkat => ?_, fun k hk => ?_, fun k i => ?_, ?_, ?_, ?_⟩
  · rw [hres]
    by_cases hkj : k = j
    · simp [hkj, hat]
    · simp [hkj, hc.resolved]
  · simp [hdone, hc.done, hat]
  · rw [hheap]
    refine hc.order k ?_ hkat
    obtain hk | hk := List.mem_append.mp hk
    · exact hk
    · rw [List.mem_singleton.mp hk, hat] at hkat
      cases hkat
  · rw [hheap]
    exact hc.stale k fun hmem => hk ⟨List.mem_append_left _ hmem.1, hmem.2⟩
  · rw [hdeps, List.mem_append, List.mem_singleton]
    split_ifs with hj
    · rw [hj.1]
      simp [hj.2]
    · rw [hc.deps]
      constructor
      · exact fun hk => ⟨Or.inl hk.1, hk.2⟩
      · rintro ⟨hk | rfl, hi⟩
        · exact ⟨hk, hi⟩
        · exact absurd ⟨rfl, hi⟩ hj
  · simp [hcount, hc.depCount]
  · rw [hunres, hc.unresolved]
    constructor
    · rintro ⟨hall, hnil⟩ k hk
      obtain hk | hk := List.mem_append.mp hk
      · exact hall k hk
      · rw [List.mem_singleton.mp hk]
        exact hnil
    · exact fun hall => ⟨fun k hk => hall k (List.mem_append_left _ hk), hall j (by simp)⟩
  · intro k hk hkat
    obtain hk | hk := List.mem_append.mp hk
    · exact hc.valid k hk hkat
    · rw [List.mem_singleton.mp hk]
      exact hvalid

/-- **The loop over the keys** collects what is pending, unless a name is no name, or two keys depend
on each other. -/
theorem collectLoop_spec (hs : Sortable h keys) {before : List KeyRef} (js : List KeyRef)
    (hkeys : keys = before ++ js) (hc : Collects h keys before c) :
    ((collectLoop keys js c).1 = 1 ∧ Collects h keys keys (collectLoop keys js c).2) ∨
    ((collectLoop keys js c).1 = 0 ∧ ¬ Acyclic (DependsOn h keys)) ∨
    ((collectLoop keys js c).1 = -1 ∧ ¬ ValidNames h keys) := by
  induction js generalizing before c with
  | nil =>
    rw [List.append_nil] at hkeys
    exact Or.inl ⟨rfl, by rwa [← hkeys] at hc⟩
  | cons j js ih =>
    have hkeys' : keys = (before ++ [j]) ++ js := by rw [hkeys, List.append_assoc]; rfl
    have hjk : j ∈ keys := by
      rw [hkeys]
      simp
    have hj : j ∉ before := by
      have hnodup := hs.nodup
      rw [hkeys] at hnodup
      exact fun hmem => (List.nodup_append.mp hnodup).2.2 j hmem j List.mem_cons_self rfl
    rw [collectLoop, hc.kept.resolvedAtOnce, hc.kept.depNames,
      show resolvedAtOnce (h.cell j) = atOnce h j from rfl]
    by_cases hat : atOnce h j = true
    · rw [if_pos hat]
      exact ih hkeys' (hc.append hs hkeys hj hat)
    · rw [if_neg hat]
      have hat : atOnce h j = false := by simpa using hat
      have hpending := pending_eq hkeys hj hc
      obtain ⟨name, hname, hbad, hret⟩ | ⟨i, hi, hdep, hret⟩ | ⟨hall, heq⟩ :=
        @depLoop_spec h keys j (depNames (h.cell j)) c.matrix hc.kept 0
      · dsimp only
        rw [hret, if_pos (by decide)]
        refine Or.inr (Or.inr ⟨rfl, fun hvalid => ?_⟩)
        rw [hvalid j hjk hat name hname] at hbad
        cases hbad
      · dsimp only
        rw [hret, if_pos (by decide)]
        refine Or.inr (Or.inl ⟨rfl, fun hacyclic => ?_⟩)
        rw [hpending] at hi
        obtain ⟨hibefore, hji⟩ := (hc.deps i j).mp hdep
        have hik : i ∈ keys := by
          rw [hkeys]
          exact List.mem_append_left _ hibefore
        have hto : DependsOn h keys j i := (mem_targets hs hjk).mp (List.mem_filter.mp hi).1
        have hback : DependsOn h keys i j := (mem_targets hs hik).mp (List.mem_filter.mp hji).1
        exact hacyclic j (.tail (.single hto) hback)
      · rw [heq, hpending]
        dsimp only
        rw [if_neg (by decide), Nat.zero_add]
        by_cases hnil : (pending h keys j).length = 0
        · rw [if_pos hnil]
          have hempty := List.length_eq_zero_iff.mp hnil
          refine ih hkeys' (hc.wait hat hall rfl rfl (fun k => ?_) (fun _ _ => rfl) ?_ ?_)
          · split_ifs with hkj
            · rw [hkj, hc.resolved, hat, Bool.and_false]
            · rfl
          · simp [hempty]
          · simp [hempty]
        · rw [if_neg hnil]
          have hempty : pending h keys j ≠ [] := fun he => hnil (List.length_eq_zero_iff.mpr he)
          refine ih hkeys' (hc.wait hat hall rfl rfl (fun k => ?_) (fun _ _ => rfl) rfl ?_)
          · exact Function.update_apply _ _ _ _
          · simp [hempty]

end Collect

/-! ## What is resolved immediately -/

/-- How many pairs of keys are pending with the second one resolved at once. -/
def settledCount (h : Heap) (keys : List KeyRef) : ℕ :=
  ((keys.filter (atOnce h)).map fun i => keys.countP fun k => (pending h keys k).contains i).sum

/-- How many names of dependencies are pending. -/
def pendingCount (h : Heap) (keys : List KeyRef) : ℕ :=
  (keys.map fun k => (pending h keys k).length).sum

section Immediately

variable {h : Heap} {keys : List KeyRef}

theorem resolveImmediately_foldl {l : List KeyRef} (hl : l.Nodup) (d : ℤ) (m : AdjMatrix) :
    l.foldl (fun r j =>
      if r.2.isResolved j then (r.1 - (r.2.resolveDep keys j).1, (r.2.resolveDep keys j).2) else r)
      (d, m) =
    (d - ((l.filter m.isResolved).map fun i => keys.countP fun k => m.deps k i).sum,
      { m with deps := fun k i => if k ∈ keys ∧ i ∈ l ∧ m.isResolved i then false else m.deps k i }) := by
  induction l generalizing d m with
  | nil => simp
  | cons j l ih =>
    obtain ⟨hj, hl⟩ := List.nodup_cons.mp hl
    rw [List.foldl_cons]
    split_ifs with hres
    · have hres : m.isResolved j = true := hres
      rw [ih hl]
      have hcounts : ((l.filter m.isResolved).map fun i =>
          keys.countP fun k => (m.resolveDep keys j).2.deps k i) =
          (l.filter m.isResolved).map fun i => keys.countP fun k => m.deps k i := by
        refine List.map_congr_left fun i hi => List.countP_congr fun k _ => ?_
        have hij : i ≠ j := by
          rintro rfl
          exact hj (List.mem_filter.mp hi).1
        simp [AdjMatrix.resolveDep, hij]
      refine Prod.ext ?_ ?_
      · have hfilter : (l.filter (m.resolveDep keys j).2.isResolved) = l.filter m.isResolved := rfl
        dsimp only
        rw [hfilter, hcounts, List.filter_cons_of_pos hres, List.map_cons, List.sum_cons]
        simp only [AdjMatrix.resolveDep, Nat.cast_add]
        ring
      · dsimp only
        congr 1
        funext k i
        by_cases hij : i = j
        · subst hij
          by_cases hk : k ∈ keys <;> simp [AdjMatrix.resolveDep, hk, hres]
        · simp [AdjMatrix.resolveDep, hij]
    · have hres : ¬ m.isResolved j = true := hres
      rw [ih hl, List.filter_cons_of_neg hres]
      refine Prod.ext rfl ?_
      dsimp only
      congr 1
      funext k i
      by_cases hij : i = j
      · simp [hij, hres]
      · simp [hij]

/-- The numbers of two keys that are resolved at once, the first one before the other. -/
theorem firstNumber_lt {before between after : List KeyRef} {k k' : KeyRef}
    (hkeys : keys = before ++ k :: (between ++ k' :: after)) (hnodup : keys.Nodup)
    (hat : atOnce h k = true) : firstNumber h keys k < firstNumber h keys k' := by
  have hkeys' : keys = (before ++ k :: between) ++ k' :: after := by
    rw [hkeys, List.append_assoc, List.cons_append]
  have hk : k ∉ before := by
    rw [hkeys] at hnodup
    exact fun hmem => (List.nodup_append.mp hnodup).2.2 k hmem k List.mem_cons_self rfl
  have hk' : k' ∉ before ++ k :: between := by
    rw [hkeys'] at hnodup
    exact fun hmem => (List.nodup_append.mp hnodup).2.2 k' hmem k' List.mem_cons_self rfl
  have hfirst : earlier keys k = before := by
    rw [hkeys]
    exact earlier_eq hk
  have hsecond : earlier keys k' = before ++ k :: between := by
    rw [hkeys']
    exact earlier_eq hk'
  rw [firstNumber, firstNumber, hfirst, hsecond, List.countP_append, List.countP_cons, hat]
  simp only [if_true]
  omega

theorem firstNumber_ranked (hs : Sortable h keys) :
    Ranked (DependsOn h keys)
      (fun k => if k ∈ keys ∧ atOnce h k = true then some (firstNumber h keys k) else none)
      (keys.countP (atOnce h)) := by
  have hsome : ∀ {k r}, (if k ∈ keys ∧ atOnce h k = true then some (firstNumber h keys k) else none) =
      some r → k ∈ keys ∧ atOnce h k = true ∧ firstNumber h keys k = r := by
    intro k r hk
    split_ifs at hk with hmem
    exact ⟨hmem.1, hmem.2, Option.some.inj hk⟩
  refine ⟨fun k r hk => ?_, fun k k' r hk hk' => ?_, fun k i r hk hdep => ?_⟩
  · obtain ⟨hmem, hat, rfl⟩ := hsome hk
    obtain ⟨before, after, hkeys⟩ := List.append_of_mem hmem
    have hnot : k ∉ before := by
      have hnodup := hs.nodup
      rw [hkeys] at hnodup
      exact fun hmem => (List.nodup_append.mp hnodup).2.2 k hmem k List.mem_cons_self rfl
    rw [firstNumber, hkeys, earlier_eq hnot, List.countP_append, List.countP_cons, hat]
    simp only [if_true]
    omega
  · obtain ⟨hmem, hat, rfl⟩ := hsome hk
    obtain ⟨hmem', hat', heq⟩ := hsome hk'
    by_contra hne
    obtain ⟨before, after, hkeys⟩ := List.append_of_mem hmem
    have hside : k' ∈ before ∨ k' ∈ after := by
      rw [hkeys, List.mem_append, List.mem_cons] at hmem'
      exact hmem'.imp_right fun h => h.resolve_left fun he => hne he.symm
    obtain hside | hside := hside <;> obtain ⟨l, l', rfl⟩ := List.append_of_mem hside
    · rw [List.append_assoc, List.cons_append] at hkeys
      have := firstNumber_lt hkeys hs.nodup hat'
      omega
    · have := firstNumber_lt hkeys hs.nodup hat
      omega
  · obtain ⟨hmem, hat, rfl⟩ := hsome hk
    have htargets := targets_atOnce hs hmem hat
    rw [← mem_targets hs hmem, htargets] at hdep
    cases hdep

/-- **The dependencies that are left.** The numbers are the ranks of the keys. -/
theorem resolveImmediately_spec (hs : Sortable h keys) {c : Collected} (hc : Collects h keys keys c) :
    (resolveImmediately keys c.depCount c.matrix).1 = pendingCount h keys - settledCount h keys ∧
    (resolveImmediately keys c.depCount c.matrix).2.done = keys.countP (atOnce h) ∧
    (resolveImmediately keys c.depCount c.matrix).2.heap = c.matrix.heap ∧
    Resolving h keys (fun k => if k ∈ keys ∧ atOnce h k = true then some (firstNumber h keys k) else none)
      (resolveImmediately keys c.depCount c.matrix).2 := by
  have hres : ∀ k ∈ keys, c.matrix.isResolved k = atOnce h k := by
    intro k hk
    rw [hc.resolved, List.contains_iff_mem.mpr hk, Bool.true_and]
  rw [resolveImmediately, resolveImmediately_foldl hs.nodup]
  refine ⟨?_, hc.done, rfl, ⟨?_, fun k hk => ?_, fun k => ?_, fun k i => ?_, fun k r hk => ?_, hc.kept⟩⟩
  · dsimp only
    rw [hc.depCount, pendingCount, settledCount, List.filter_congr hres]
    congr 4
    funext i
    refine List.countP_congr fun k hk => ?_
    rw [hc.deps, List.contains_iff_mem]
    exact and_iff_right hk
  · dsimp only
    rw [hc.done]
    exact firstNumber_ranked hs
  · by_contra hnot
    rw [if_neg fun hmem => hnot hmem.1] at hk
    cases hk
  · dsimp only
    rw [hc.resolved]
    by_cases hmem : k ∈ keys ∧ atOnce h k = true
    · rw [if_pos hmem]
      simp [hmem]
    · rw [if_neg hmem]
      simpa using hmem
  · dsimp only
    have hrank : (if i ∈ keys ∧ atOnce h i = true then some (firstNumber h keys i) else none) = none ↔
        ¬ (i ∈ keys ∧ atOnce h i = true) := by
      split_ifs with hmem
      · simp [hmem]
      · simp [hmem]
    rw [hrank]
    constructor
    · intro hdep
      split_ifs at hdep with hgone
      obtain ⟨hk, hi⟩ := (hc.deps k i).mp hdep
      have hdepends := (mem_targets hs hk).mp (List.mem_filter.mp hi).1
      exact ⟨hdepends, fun hat => hgone ⟨hk, hat.1, by rw [hres i hat.1, hat.2]⟩⟩
    · rintro ⟨hdepends, hat⟩
      have hfalse : atOnce h i = false := by simpa using fun ht => hat ⟨hdepends.right, ht⟩
      have hleft : ¬ (k ∈ keys ∧ i ∈ keys ∧ c.matrix.isResolved i = true) := by
        rw [hres i hdepends.right, hfalse]
        simp
      rw [if_neg hleft, hc.deps]
      exact ⟨hdepends.left, List.mem_filter.mpr
        ⟨(mem_targets hs hdepends.left).mpr hdepends, by rw [hfalse]; rfl⟩⟩
  · dsimp only at hk ⊢
    split_ifs at hk with hmem
    obtain rfl := Option.some.inj hk
    exact hc.order k hmem.1 hmem.2

end Immediately

/-! ## The sorted array -/

/-- `l` are the keys, arranged by their `order`. -/
def Arranged (h : Heap) (keys l : List KeyRef) : Prop :=
  l.Perm keys ∧ l.Pairwise fun a b => topCmpOrder h a b ≠ .gt

/-- What the function is documented to return: the keys in topological order, `0` for a cycle, or
`-1` where a name is none. -/
def SortsTopologically (h : Heap) (keys : List KeyRef)
    (r : Option (Heap × ℤ × Option (List KeyRef))) : Prop :=
  (∃ h' array, r = some (h', 1, some array) ∧ Acyclic (DependsOn h keys) ∧ array.Perm keys ∧
    array.Pairwise fun k i => ¬ DependsOn h keys k i) ∨
  (∃ h', r = some (h', 0, none) ∧ ¬ Acyclic (DependsOn h keys)) ∨
  ∃ h', r = some (h', -1, none) ∧ ¬ ValidNames h keys

/-- So many dependencies are left that they are taken for a cycle. -/
def Crowded (h : Heap) (keys : List KeyRef) : Prop :=
  (keys.length : ℤ) ≤ pendingCount h keys - settledCount h keys + keys.countP (atOnce h) ∧
    ∃ k ∈ keys, pending h keys k ≠ []

/-- Where no key has to wait, the old `order` of those that depend on others is behind the numbers
of these. -/
def InPlace (h : Heap) (keys : List KeyRef) : Prop :=
  (∀ k ∈ keys, pending h keys k = []) → ∀ k i, DependsOn h keys k i →
    compare (elektraWriteArrayNumber (firstNumber h keys i)) (orderString (h.cell k)) = .lt

/-- The condition on the keys, however equal ones are arranged. -/
def Resolvable (h : Heap) (keys : List KeyRef) : Prop :=
  keys ≠ [] ∧ (ValidNames h keys → Acyclic (DependsOn h keys) →
    ∀ l, Arranged h keys l → ¬ Crowded h l ∧ InPlace h l)

section Final

variable {h : Heap} {keys l : List KeyRef}

theorem Sortable.perm (hs : Sortable h keys) (hl : l.Perm keys) : Sortable h l :=
  ⟨(hl.map _).nodup_iff.mpr hs.names, fun k hk => hs.unlocked k (hl.mem_iff.mp hk)⟩

theorem dependsOn_perm (hl : l.Perm keys) : DependsOn h l = DependsOn h keys := by
  funext k i
  exact propext ⟨fun hd => ⟨hl.mem_iff.mp hd.left, hl.mem_iff.mp hd.right, hd.ne, hd.name⟩,
    fun hd => ⟨hl.mem_iff.mpr hd.left, hl.mem_iff.mpr hd.right, hd.ne, hd.name⟩⟩

theorem validNames_perm (hl : l.Perm keys) : ValidNames h l ↔ ValidNames h keys :=
  forall_congr' fun k => by rw [hl.mem_iff]

theorem pairwise_of_order {h' : Heap} {array : List KeyRef}
    (harray : array.Pairwise fun a b => topCmpOrder h' a b ≠ .gt)
    (hbefore : ∀ k i, DependsOn h keys k i → topCmpOrder h' i k = .lt) :
    array.Pairwise fun k i => ¬ DependsOn h keys k i := by
  refine harray.imp fun {k i} hle hdep => hle ?_
  have hlt := hbefore k i hdep
  rw [topCmpOrder, Std.OrientedOrd.eq_swap, ← topCmpOrder, hlt]
  rfl

instance (h : Heap) : Std.TransCmp (topCmpOrder h) :=
  inferInstanceAs (Std.TransCmp (compareOn fun k => orderString (h.cell k)))

/-- Where nothing is pending, those that others depend on depend on none. -/
theorem acyclic_of_idle (hs : Sortable h l) (hidle : ∀ k ∈ l, pending h l k = []) :
    Acyclic (DependsOn h l) ∧ ∀ k i, DependsOn h l k i → atOnce h i = true ∧ atOnce h k = false := by
  have hside : ∀ k i, DependsOn h l k i → atOnce h i = true ∧ atOnce h k = false := by
    intro k i hdep
    have hi := (mem_targets hs hdep.left).mpr hdep
    constructor
    · by_contra hat
      have hmem : i ∈ pending h l k := List.mem_filter.mpr ⟨hi, by simp [hat]⟩
      rw [hidle k hdep.left] at hmem
      cases hmem
    · by_contra hat
      rw [targets_atOnce hs hdep.left (by simpa using hat)] at hi
      cases hi
  refine ⟨fun k hk => ?_, hside⟩
  obtain ⟨a, hfirst, -⟩ := Relation.TransGen.head'_iff.mp hk
  obtain ⟨b, -, hlast⟩ := Relation.TransGen.tail'_iff.mp hk
  have := (hside k a hfirst).2
  rw [(hside b k hlast).1] at this
  cases this

theorem collects_nil (h : Heap) (l : List KeyRef) : Collects h l []
    ⟨⟨h, fun _ => false, fun _ _ => false, 0⟩, 0, 0⟩ := by
  refine ⟨.refl h, fun _ => rfl, rfl, ?_, fun _ _ => rfl, ?_, rfl, ?_, ?_⟩
  · exact fun k hk => absurd hk List.not_mem_nil
  · simp
  · simp
  · exact fun k hk => absurd hk List.not_mem_nil

theorem elektraSortTopology_cases (sort sort' : Qsort) (hl : sort (topCmpOrder h) keys = l) (hne : l ≠ [])
    (hs : Sortable h l) :
    (∃ h', elektraSortTopology sort sort' h keys = some (h', -1, none) ∧ ¬ ValidNames h l) ∨
    (∃ h', elektraSortTopology sort sort' h keys = some (h', 0, none) ∧ ¬ Acyclic (DependsOn h l)) ∨
    (∃ h', elektraSortTopology sort sort' h keys = some (h', 0, none) ∧ ValidNames h l ∧ Crowded h l) ∨
    ∃ h', elektraSortTopology sort sort' h keys = some (h', 1, some (sort' (topCmpOrder h') keys)) ∧
      ValidNames h l ∧ ¬ Crowded h l ∧ Acyclic (DependsOn h l) ∧
      ((∃ k ∈ l, pending h l k ≠ []) ∧ (∀ k i, DependsOn h l k i → topCmpOrder h' i k = .lt) ∨
        (∀ k ∈ l, pending h l k = []) ∧ ∀ k i, DependsOn h l k i → topCmpOrder h' i k =
          compare (elektraWriteArrayNumber (firstNumber h l i)) (orderString (h.cell k))) := by
  obtain ⟨first, rest, rfl⟩ := List.exists_cons_of_ne_nil hne
  generalize hkeys : first :: rest = l at *
  unfold elektraSortTopology
  rw [hl, ← hkeys]
  dsimp only
  rw [hkeys]
  obtain ⟨hret, hc⟩ | ⟨hret, hcycle⟩ | ⟨hret, hbad⟩ :=
    collectLoop_spec hs l (List.nil_append l).symm (collects_nil h l)
  · rw [hret, if_neg (by decide)]
    generalize (collectLoop l l ⟨⟨h, fun _ => false, fun _ _ => false, 0⟩, 0, 0⟩).2 = c at hc
    obtain ⟨hcount, hdone, hheap, hres⟩ := resolveImmediately_spec hs hc
    generalize resolveImmediately l c.depCount c.matrix = r at hcount hdone hheap hres
    have hpending : c.unresolved ≠ 0 ↔ ∃ k ∈ l, pending h l k ≠ [] := by
      rw [Ne, hc.unresolved]
      push Not
      rfl
    have hcrowded : r.1 + r.2.done ≥ (l.length : ℤ) ∧ c.unresolved ≠ 0 ↔ Crowded h l := by
      rw [hpending, hcount, hdone]
      rfl
    by_cases hcr : Crowded h l
    · rw [if_pos (hcrowded.mpr hcr)]
      exact Or.inr (Or.inr (Or.inl ⟨_, rfl, hc.valid, hcr⟩))
    · rw [if_neg fun hc => hcr (hcrowded.mp hc)]
      by_cases hunres : c.unresolved ≠ 0
      · rw [if_pos hunres]
        have hfuel : (2 * r.2.left l + 1) * (l.length + 1) + l.length + 1 ≤ sortFuel l.length := by
          rw [sortFuel, Nat.add_assoc, ← Nat.succ_mul]
          have hleft : r.2.left l ≤ l.length := List.countP_le_length
          exact Nat.mul_le_mul_right _ (by omega)
        have hends : Ends h l (sortLoop l (keyGetMeta (h.cell first) (str "order")).isSome
            (sortFuel l.length) l true c.unresolved r.2) :=
          sortLoop_spec hs _ _ (List.nil_append l).symm hres (fun hf => absurd hf (by simp)) hfuel
        obtain ⟨unresolved, m, rank, hloop, hm, hzero, hstuck⟩ := hends
        rw [hloop, Option.map_some]
        dsimp only
        by_cases hall : unresolved = 0
        · rw [if_pos hall]
          have hranked := hzero hall
          refine Or.inr (Or.inr (Or.inr ⟨_, rfl, hc.valid, hcr,
            hm.ranked.acyclic fun k i hdep => hranked k hdep.left,
            Or.inl ⟨hpending.mp hunres, fun k i hdep => ?_⟩⟩))
          obtain ⟨n, hn⟩ := Option.isSome_iff_exists.mp (hranked k hdep.left)
          obtain ⟨n', hlt, hn'⟩ := hm.ranked.dep k i n hn hdep
          rw [topCmpOrder, orderString, orderString, hm.order k n hn, hm.order i n' hn']
          exact elektraWriteArrayNumber_lt hlt
        · rw [if_neg hall]
          exact Or.inr (Or.inl ⟨_, rfl, hstuck hall⟩)
      · rw [if_neg hunres]
        have hidle := hc.unresolved.mp (not_not.mp hunres)
        obtain ⟨hacyclic, hside⟩ := acyclic_of_idle hs hidle
        refine Or.inr (Or.inr (Or.inr ⟨_, rfl, hc.valid, hcr, hacyclic, Or.inr ⟨hidle, ?_⟩⟩))
        intro k i hdep
        obtain ⟨hi, hk⟩ := hside k i hdep
        rw [hheap, topCmpOrder, orderString, hc.order i hdep.right hi, hc.stale k fun hat => ?_]
        · rfl
        · rw [hk] at hat
          exact absurd hat.2 (by simp)
  · rw [hret, if_pos (by decide)]
    exact Or.inr (Or.inl ⟨_, rfl, hcycle⟩)
  · rw [hret, if_pos (by decide)]
    exact Or.inl ⟨_, rfl, hbad⟩

/-- A sort, of the list that `g` arranges anew. -/
def sortOf (g : List KeyRef → List KeyRef) : Qsort :=
  fun cmp l => (g l).insertionSort fun a b => cmp a b ≠ .gt

theorem ne_gt_trans {cmp : KeyRef → KeyRef → Ordering} (hcmp : Std.TransCmp cmp) :
    Std.Total (fun a b => cmp a b ≠ .gt) ∧ IsTrans KeyRef fun a b => cmp a b ≠ .gt := by
  refine ⟨⟨fun a b => ?_⟩, ⟨fun a b c hab hbc => ?_⟩⟩
  · have hswap : cmp b a = (cmp a b).swap := Std.OrientedCmp.eq_swap
    rw [hswap]
    cases cmp a b <;> simp
  · exact Ordering.isLE_iff_ne_gt.mp (Std.TransCmp.isLE_trans (Ordering.isLE_iff_ne_gt.mpr hab)
      (Ordering.isLE_iff_ne_gt.mpr hbc))

theorem sortOf_sorts {g : List KeyRef → List KeyRef} (hg : ∀ l, (g l).Perm l) : (sortOf g).Sorts where
  perm cmp l := (List.perm_insertionSort _ _).trans (hg l)
  pairwise cmp l hcmp := by
    obtain ⟨htotal, htrans⟩ := ne_gt_trans hcmp
    exact List.pairwise_insertionSort _ _

theorem sorts_arranged (hl : Arranged h keys l) :
    ∃ sort : Qsort, sort.Sorts ∧ sort (topCmpOrder h) keys = l := by
  classical
  refine ⟨fun cmp l' => if cmp = topCmpOrder h ∧ l' = keys then l else sortOf id cmp l',
    ⟨fun cmp l' => ?_, fun cmp l' hcmp => ?_⟩, if_pos ⟨rfl, rfl⟩⟩
  · split_ifs with hc
    · rw [hc.2]
      exact hl.1
    · exact (sortOf_sorts fun l => .refl l).perm cmp l'
  · split_ifs with hc
    · rw [hc.1]
      exact hl.2
    · exact (sortOf_sorts fun l => .refl l).pairwise cmp l' hcmp

/-- A key that need not stand behind another one may stand before it. -/
theorem exists_before {k i : KeyRef} (hk : k ∈ keys) (hi : i ∈ keys) (hne : i ≠ k) : ∃ sort : Qsort,
    sort.Sorts ∧ ∀ cmp, Std.TransCmp cmp → cmp k i ≠ .gt → [k, i].Sublist (sort cmp keys) := by
  let g (l : List KeyRef) : List KeyRef := if k ∈ l then k :: l.erase k else l
  have hg : ∀ l, (g l).Perm l := by
    intro l
    by_cases hk : k ∈ l
    · simpa [g, hk] using (List.perm_cons_erase hk).symm
    · simp [g, hk]
  refine ⟨sortOf g, sortOf_sorts hg, fun cmp hcmp hle => ?_⟩
  obtain ⟨htotal, htrans⟩ := ne_gt_trans hcmp
  refine List.pair_sublist_insertionSort hle ?_
  have hgk : g keys = k :: keys.erase k := if_pos hk
  rw [hgk]
  exact (List.singleton_sublist.mpr ((List.mem_erase_of_ne hne).mpr hi)).cons_cons k

/-- **elektraSortTopology**, of keys whose `order` can be set, does what it is documented to do
exactly when they are resolvable. -/
theorem elektraSortTopology_iff (hs : Sortable h keys) :
    (∀ sort sort' : Qsort, sort.Sorts → sort'.Sorts →
      SortsTopologically h keys (elektraSortTopology sort sort' h keys)) ↔ Resolvable h keys := by
  constructor
  · intro hall
    have hne : keys ≠ [] := by
      rintro rfl
      have hnone : elektraSortTopology (sortOf id) (sortOf id) h [] = none := rfl
      have hsorts : (sortOf id).Sorts := sortOf_sorts fun l => .refl l
      have := hall (sortOf id) (sortOf id) hsorts hsorts
      rw [hnone] at this
      obtain ⟨_, _, hr, -⟩ | ⟨_, hr, -⟩ | ⟨_, hr, -⟩ := this <;> cases hr
    refine ⟨hne, fun hvalid hacyclic l hl => ?_⟩
    obtain ⟨sort, hsort, hsorted⟩ := sorts_arranged hl
    have hdep := dependsOn_perm (h := h) hl.1
    have hlne : l ≠ [] := by
      rintro rfl
      exact hne (List.nil_perm.mp hl.1)
    -- all that is left of the cases is that the keys are sorted
    have hend : ∀ sort' : Qsort, sort'.Sorts → ∃ h', ¬ Crowded h l ∧
        ((sort' (topCmpOrder h') keys).Pairwise fun k i => ¬ DependsOn h keys k i) ∧
        ((∀ k ∈ l, pending h l k = []) → ∀ k i, DependsOn h keys k i → topCmpOrder h' i k =
          compare (elektraWriteArrayNumber (firstNumber h l i)) (orderString (h.cell k))) := by
      intro sort' hsort'
      have hdoes := hall sort sort' hsort hsort'
      obtain ⟨h', hr, hbad⟩ | ⟨h', hr, hcycle⟩ | ⟨h', hr, hvalid, hcrowded⟩ |
          ⟨h', hr, -, hcrowded, -, horder⟩ :=
        elektraSortTopology_cases sort sort' hsorted hlne (hs.perm hl.1)
      · exact absurd ((validNames_perm hl.1).mpr hvalid) hbad
      · exact absurd hacyclic (hdep ▸ hcycle)
      · rw [hr] at hdoes
        obtain ⟨_, _, heq, -⟩ | ⟨_, -, hcycle⟩ | ⟨_, heq, -⟩ := hdoes
        · cases heq
        · exact absurd hacyclic hcycle
        · cases heq
      · rw [hr] at hdoes
        obtain ⟨_, _, heq, -, -, harray⟩ | ⟨_, heq, -⟩ | ⟨_, heq, -⟩ := hdoes
        · cases heq
          refine ⟨h', hcrowded, harray, fun hidle => ?_⟩
          obtain ⟨⟨k, hk, hne⟩, -⟩ | ⟨-, horder⟩ := horder
          · exact absurd (hidle k hk) hne
          · rwa [hdep] at horder
        · cases heq
        · cases heq
    refine ⟨?_, fun hidle k i hki => ?_⟩
    · obtain ⟨_, hcrowded, -⟩ := hend (sortOf id) (sortOf_sorts fun l => .refl l)
      exact hcrowded
    · rw [hdep] at hki
      obtain ⟨sort', hsort', hbefore⟩ := exists_before hki.left hki.right hki.ne
      obtain ⟨h', -, harray, horder⟩ := hend sort' hsort'
      rw [← horder hidle k i hki]
      by_contra hlt
      have hle : topCmpOrder h' k i ≠ .gt := by
        rw [topCmpOrder, Std.OrientedOrd.eq_swap, ← topCmpOrder]
        exact fun hgt => hlt (Ordering.swap_eq_gt.mp hgt)
      have hpair := harray.sublist (hbefore (topCmpOrder h') inferInstance hle)
      exact List.pairwise_pair.mp hpair hki
  · rintro ⟨hne, hok⟩ sort sort' hsort hsort'
    have hl : Arranged h keys (sort (topCmpOrder h) keys) :=
      ⟨hsort.perm _ _, hsort.pairwise _ _ inferInstance⟩
    generalize hsorted : sort (topCmpOrder h) keys = l at hl
    have hlne : l ≠ [] := by
      rintro rfl
      exact hne (List.nil_perm.mp hl.1)
    have hdep := dependsOn_perm (h := h) hl.1
    obtain ⟨h', hr, hbad⟩ | ⟨h', hr, hcycle⟩ | ⟨h', hr, hvalid, hcrowded⟩ |
        ⟨h', hr, hvalid, -, hacyclic, horder⟩ :=
      elektraSortTopology_cases sort sort' hsorted hlne (hs.perm hl.1)
    · exact Or.inr (Or.inr ⟨h', hr, by rwa [← validNames_perm hl.1]⟩)
    · exact Or.inr (Or.inl ⟨h', hr, hdep ▸ hcycle⟩)
    · refine Or.inr (Or.inl ⟨h', hr, fun hacyclic => ?_⟩)
      exact (hok ((validNames_perm hl.1).mp hvalid) hacyclic l hl).1 hcrowded
    · rw [hdep] at hacyclic horder
      refine Or.inl ⟨h', _, hr, hacyclic, hsort'.perm _ _, ?_⟩
      refine pairwise_of_order (hsort'.pairwise _ _ inferInstance) ?_
      obtain ⟨-, horder⟩ | ⟨hidle, horder⟩ := horder
      · exact horder
      · intro k i hki
        rw [horder k i hki]
        exact (hok ((validNames_perm hl.1).mp hvalid) hacyclic l hl).2 hidle k i (hdep ▸ hki)

end Final

/-! ## A repeated dependency -/

/-- A key with dependencies and an `order`. -/
def keyWithDeps (name : Str) (deps : List Str) (order : Str) : Key :=
  let key := (keySetMeta (keyNewName name) (str "order") (some order)).2
  let key := if deps = [] then key else (keySetMeta key (str "dep") (some (str "#"))).2
  (List.range deps.length).foldl (fun key i =>
    (keySetMeta key (str "dep/" ++ elektraWriteArrayNumber i) deps[i]?).2) key

/-- `/a` names `/b` so often. -/
def repeated (n : ℕ) : Heap :=
  .ofList [keyWithDeps (str "/a") (List.replicate n (str "/b")) (str "#0"),
    keyWithDeps (str "/b") [] (str "#1")]

theorem sortable_repeated (n : ℕ) (hn : n ≤ 2) : Sortable (repeated n) [0, 1] := by
  interval_cases n <;> constructor <;> decide +kernel

theorem elektraSortTopology_iff_once :
    (∀ sort sort' : Qsort, sort.Sorts → sort'.Sorts → SortsTopologically (repeated 1) [0, 1]
      (elektraSortTopology sort sort' (repeated 1) [0, 1])) ↔ Resolvable (repeated 1) [0, 1] :=
  elektraSortTopology_iff (sortable_repeated 1 (by decide))

/-- A dependency that is repeated is taken for a cycle. -/
theorem not_sortsTopologically_twice : ¬ ∀ (h : Heap) (keys : List KeyRef), Sortable h keys →
    ∀ sort sort' : Qsort, sort.Sorts → sort'.Sorts →
      SortsTopologically h keys (elektraSortTopology sort sort' h keys) := by
  intro hall
  have hsorts : (sortOf id).Sorts := sortOf_sorts fun l => .refl l
  have hzero : (elektraSortTopology (sortOf id) (sortOf id) (repeated 2) [0, 1]).map (·.2.1) =
      some 0 := by decide +kernel
  have hdep : ∀ k i, DependsOn (repeated 2) [0, 1] k i → k = 0 ∧ i = 1 := by
    intro k i hki
    have hk : k = 0 ∨ k = 1 := by simpa using hki.left
    have hi : i = 0 ∨ i = 1 := by simpa using hki.right
    have hname : keyName ((repeated 2).cell 0) ∉ depNames ((repeated 2).cell 1) := by decide +kernel
    obtain rfl | rfl := hk <;> obtain rfl | rfl := hi
    · exact absurd rfl hki.ne
    · exact ⟨rfl, rfl⟩
    · exact absurd hki.name hname
    · exact absurd rfl hki.ne
  obtain ⟨_, _, hr, -⟩ | ⟨_, -, hcycle⟩ | ⟨_, hr, -⟩ :=
    hall _ _ (sortable_repeated 2 (by decide)) _ _ hsorts hsorts
  · rw [hr] at hzero
    simp at hzero
  · refine hcycle fun k hk => ?_
    obtain ⟨_, hfirst, -⟩ := Relation.TransGen.head'_iff.mp hk
    obtain ⟨_, -, hlast⟩ := Relation.TransGen.tail'_iff.mp hk
    have := (hdep _ _ hfirst).1.symm.trans (hdep _ _ hlast).2
    cases this
  · rw [hr] at hzero
    simp at hzero

end Elektra
