import Elektra.Search.Dependency
import Elektra.Lookup.Refine
import Elektra.Meta.Topology

/-!
# Resolving dependencies

The keys that are resolved have ranks, the numbers that they got as their `order`; the matrix holds
the dependencies on the others. A frontier is closed under these dependencies: a pass over it
resolves a key, unless there is a cycle.

* **`elektraWriteArrayNumber_lt`**: the numbers are sorted as strings;
* `DependsOn`, `Resolving`, **`Resolving.resolve`**;
* `Closed`, **`resolveDeps_spec`**, **`sortLoop_spec`**.
-/

namespace Elektra

open Dependency

/-! ## Numbers -/

theorem compare_append {l l' : Str} (h : l.length = l'.length) (t t' : Str) :
    compare (l ++ t) (l' ++ t') = (compare l l').then (compare t t') := by
  induction l generalizing l' with
  | nil =>
    obtain rfl := List.length_eq_zero_iff.mp h.symm
    rfl
  | cons a l ih =>
    cases l' with
    | nil => cases h
    | cons b l' =>
      rw [List.cons_append, List.cons_append, List.compare_cons_cons, List.compare_cons_cons,
        ih (Nat.succ.inj h), Ordering.then_assoc]

/-- The digits of a number, as bytes. -/
def digits (n : ℕ) : Str := (Nat.toDigits 10 n).map fun c => UInt8.ofNat c.toNat

theorem digits_of_lt {n : ℕ} (h : n < 10) : digits n = [UInt8.ofNat (48 + n)] := by
  rw [digits, Nat.toDigits_of_lt_base h]
  interval_cases n <;> rfl

theorem digits_of_le {n : ℕ} (h : 10 ≤ n) :
    digits n = digits (n / 10) ++ [UInt8.ofNat (48 + n % 10)] := by
  rw [digits, Nat.toDigits_of_base_le (by decide) h, List.map_append]
  have hlt : n % 10 < 10 := Nat.mod_lt _ (by decide)
  rw [← digits_of_lt hlt, digits, digits, Nat.toDigits_of_lt_base hlt]

theorem digits_length_pos (n : ℕ) : 0 < (digits n).length := by
  rw [digits, List.length_map]
  exact Nat.length_toDigits_pos

theorem digits_mem (n : ℕ) : ∀ d ∈ digits n, d < 95 := by
  intro d hd
  obtain ⟨c, hc, rfl⟩ := List.mem_map.mp hd
  have hdigit := Char.isDigit_iff_toNat.mp (Nat.isDigit_of_mem_toDigits (by decide) (by decide) hc)
  have hle : c.toNat ≤ 57 := hdigit.2
  rw [UInt8.lt_iff_toNat_lt, UInt8.toNat_ofNat', Nat.mod_eq_of_lt (by omega)]
  exact lt_of_le_of_lt hle (by decide)

/-- Longer numbers are greater; of numbers with as many digits, the greater one is behind. -/
theorem digits_lt (n : ℕ) : ∀ m < n, (digits m).length < (digits n).length ∨
    (digits m).length = (digits n).length ∧ compare (digits m) (digits n) = .lt := by
  induction n using Nat.strong_induction_on with
  | _ n ih =>
    intro m hm
    have hdigit : ∀ a b : ℕ, a < b → b < 10 →
        compare [UInt8.ofNat (48 + a)] [UInt8.ofNat (48 + b)] = .lt := by
      intro a b hab hb
      interval_cases b <;> interval_cases a <;> rfl
    by_cases hn : n < 10
    · right
      rw [digits_of_lt hn, digits_of_lt (hm.trans hn)]
      exact ⟨rfl, hdigit m n hm hn⟩
    · by_cases hm' : m < 10
      · left
        rw [digits_of_lt hm', digits_of_le (by omega), List.length_append]
        have := digits_length_pos (n / 10)
        simp only [List.length_singleton]
        omega
      · rw [digits_of_le (n := n) (by omega), digits_of_le (n := m) (by omega), List.length_append,
          List.length_append]
        by_cases heq : m / 10 = n / 10
        · right
          rw [heq, compare_append rfl, Std.ReflOrd.compare_self]
          exact ⟨rfl, hdigit _ _ (by omega) (Nat.mod_lt _ (by decide))⟩
        · obtain hlt | ⟨hlen, hlt⟩ := ih (n / 10) (by omega) (m / 10) (by omega)
          · left
            simpa using hlt
          · right
            rw [compare_append hlen, hlt]
            exact ⟨by simp [hlen], rfl⟩

/-- **The numbers of an array are sorted as strings.** -/
theorem elektraWriteArrayNumber_lt {m n : ℕ} (h : m < n) :
    compare (elektraWriteArrayNumber m) (elektraWriteArrayNumber n) = .lt := by
  have hnumber : ∀ n, elektraWriteArrayNumber n =
      str "#" ++ (List.replicate ((digits n).length - 1) 95 ++ digits n) :=
    fun n => List.append_assoc _ _ _
  rw [hnumber, hnumber, compare_append rfl, Std.ReflOrd.compare_self, Ordering.then]
  obtain hlen | ⟨hlen, hlt⟩ := digits_lt n m h
  · -- the shorter number has a digit where the longer one still has an underscore
    have hpos := digits_length_pos m
    obtain ⟨k, hk⟩ : ∃ k, (digits n).length - 1 = ((digits m).length - 1) + (k + 1) :=
      ⟨(digits n).length - (digits m).length - 1, by omega⟩
    rw [hk, List.replicate_add, List.append_assoc, compare_append rfl, Std.ReflOrd.compare_self,
      List.replicate_succ]
    obtain ⟨d, ds, hd⟩ := List.exists_cons_of_length_pos hpos
    have hdigit : compare d 95 = .lt := by
      rw [Std.compare_eq_lt]
      exact digits_mem m d (hd ▸ List.mem_cons_self)
    rw [hd, List.cons_append, List.compare_cons_cons, hdigit]
    rfl
  · rw [hlen, compare_append rfl, Std.ReflOrd.compare_self]
    exact hlt
/-! ## The graph -/

/-- `k` names the other key `i`. -/
structure DependsOn (h : Heap) (keys : List KeyRef) (k i : KeyRef) : Prop where
  left : k ∈ keys
  right : i ∈ keys
  ne : i ≠ k
  name : keyName (h.cell i) ∈ depNames (h.cell k)

/-- The keys have different names, and `order` can be set. -/
structure Sortable (h : Heap) (keys : List KeyRef) : Prop where
  names : (keys.map fun k => keyName (h.cell k)).Nodup
  unlocked : ∀ k ∈ keys, (h.cell k).roMeta = false

theorem Sortable.nodup {h : Heap} {keys : List KeyRef} (hs : Sortable h keys) : keys.Nodup :=
  hs.names.of_map _

/-- `h'` is `h` up to the `order` of keys. -/
structure Reordered (h h' : Heap) : Prop where
  name : ∀ k, keyName (h'.cell k) = keyName (h.cell k)
  getMeta : ∀ k m, m ≠ str "order" → keyGetMeta (h'.cell k) m = keyGetMeta (h.cell k) m
  roMeta : ∀ k, (h'.cell k).roMeta = (h.cell k).roMeta

section Reordered

variable {h h' : Heap}

theorem Reordered.refl (h : Heap) : Reordered h h := ⟨fun _ => rfl, fun _ _ _ => rfl, fun _ => rfl⟩

theorem Reordered.metaArray (hr : Reordered h h') (k : KeyRef) :
    elektraMetaArrayToKS (h'.cell k) (str "dep") = elektraMetaArrayToKS (h.cell k) (str "dep") := by
  have hlinks : linkValues (h'.cell k) (str "dep" ++ [pathSeparator]) =
      linkValues (h.cell k) (str "dep" ++ [pathSeparator]) := by
    refine linkValues_eq fun i => hr.getMeta k _ fun he => ?_
    have := congrArg List.head? he
    simp [str] at this
  rw [elektraMetaArrayToKS, elektraMetaArrayToKS, hlinks, hr.getMeta k _ (by decide)]

theorem Reordered.depNames (hr : Reordered h h') (k : KeyRef) :
    depNames (h'.cell k) = depNames (h.cell k) := by
  rw [Elektra.depNames, Elektra.depNames, hr.metaArray]

theorem Reordered.resolvedAtOnce (hr : Reordered h h') (k : KeyRef) :
    resolvedAtOnce (h'.cell k) = resolvedAtOnce (h.cell k) := by
  rw [Elektra.resolvedAtOnce, Elektra.resolvedAtOnce, hr.metaArray, hr.name]

theorem Reordered.getArrayIndex (hr : Reordered h h') (keys : List KeyRef) (name : Str) :
    getArrayIndex h' keys name = getArrayIndex h keys name := by
  simp only [Elektra.getArrayIndex, hr.name]

theorem Reordered.set (hr : Reordered h h') (j : KeyRef) (value : Option Str) :
    Reordered h (h'.set j (keySetMeta (h'.cell j) (str "order") value).2) := by
  have hfields : ∀ key : Key, keyName (keySetMeta key (str "order") value).2 = keyName key ∧
      (keySetMeta key (str "order") value).2.roMeta = key.roMeta := by
    intro key
    unfold keySetMeta
    split_ifs
    · exact ⟨rfl, rfl⟩
    · cases value with
      | none => exact ⟨rfl, rfl⟩
      | some value => exact ⟨rfl, rfl⟩
  refine ⟨fun k => ?_, fun k m hm => ?_, fun k => ?_⟩ <;> by_cases hk : k = j
  · rw [hk, set_cell_self, (hfields _).1, hr.name]
  · rw [set_cell_ne hk, hr.name]
  · rw [hk, set_cell_self, keySetMeta_getMeta hm, hr.getMeta _ _ hm]
  · rw [set_cell_ne hk, hr.getMeta _ _ hm]
  · rw [hk, set_cell_self, (hfields _).2, hr.roMeta]
  · rw [set_cell_ne hk, hr.roMeta]

theorem set_order {key : Key} (hro : key.roMeta = false) (value : Str) :
    keyGetMeta (keySetMeta key (str "order") (some value)).2 (str "order") = some value := by
  rw [keySetMeta, hro]
  simp [keyGetMeta]

end Reordered

/-! ## The matrix -/

/-- Of the predicates that differ at a key, one holds of one key more. -/
theorem countP_update {l : List KeyRef} (hl : l.Nodup) {p : KeyRef → Bool} {k : KeyRef} (hk : k ∈ l)
    (hp : p k = true) : l.countP (Function.update p k false) + 1 = l.countP p := by
  induction l with
  | nil => cases hk
  | cons a l ih =>
    obtain ⟨ha, hl⟩ := List.nodup_cons.mp hl
    rw [List.countP_cons, List.countP_cons]
    by_cases hak : a = k
    · subst hak
      have hrest : l.countP (Function.update p a false) = l.countP p := by
        refine List.countP_congr fun x hx => ?_
        rw [Function.update_of_ne]
        rintro rfl
        exact ha hx
      rw [hrest, Function.update_self, hp]
      simp
    · have hkl : k ∈ l := (List.mem_cons.mp hk).resolve_left fun h => hak h.symm
      rw [Function.update_of_ne hak, ← ih hl hkl]
      omega

/-- The keys of `rank` are resolved, those of the others that have to wait are in the matrix. -/
structure Resolving (h : Heap) (keys : List KeyRef) (rank : KeyRef → Option ℕ) (m : AdjMatrix) :
    Prop where
  ranked : Ranked (DependsOn h keys) rank m.done
  mem : ∀ k, (rank k).isSome → k ∈ keys
  resolved : ∀ k, m.isResolved k = (rank k).isSome
  deps : ∀ k i, m.deps k i = true ↔ DependsOn h keys k i ∧ rank i = none
  order : ∀ k r, rank k = some r →
    keyGetMeta (m.heap.cell k) (str "order") = some (elektraWriteArrayNumber r)
  kept : Reordered h m.heap

/-- How many keys are not resolved. -/
def AdjMatrix.left (m : AdjMatrix) (keys : List KeyRef) : ℕ := keys.countP fun k => !m.isResolved k

section Resolving

variable {h : Heap} {keys : List KeyRef} {rank : KeyRef → Option ℕ} {m : AdjMatrix} {j : KeyRef}

theorem hasUnresolvedDependencies_iff (hm : Resolving h keys rank m) (k : KeyRef) :
    m.hasUnresolvedDependencies keys k = true ↔ ∃ i, DependsOn h keys k i ∧ rank i = none := by
  rw [AdjMatrix.hasUnresolvedDependencies, List.any_eq_true]
  constructor
  · rintro ⟨i, -, hi⟩
    exact ⟨i, (hm.deps k i).mp hi⟩
  · rintro ⟨i, hi⟩
    exact ⟨i, hi.1.right, (hm.deps k i).mpr hi⟩

theorem left_resolve (hs : Sortable h keys) (hj : j ∈ keys) (hres : m.isResolved j = false) :
    (m.resolve keys j).left keys + 1 = m.left keys := by
  rw [AdjMatrix.left, AdjMatrix.left,
    ← countP_update hs.nodup (p := fun k => !m.isResolved k) hj (by rw [hres]; rfl)]
  congr 2
  funext k
  by_cases hk : k = j
  · rw [hk, Function.update_self]
    simp [AdjMatrix.resolve, AdjMatrix.append]
  · rw [Function.update_of_ne hk]
    simp [AdjMatrix.resolve, AdjMatrix.append, AdjMatrix.resolveDep, hk]

/-- **A key whose dependencies are resolved is resolved.** -/
theorem Resolving.resolve (hs : Sortable h keys) (hm : Resolving h keys rank m) (hj : j ∈ keys)
    (hres : m.isResolved j = false) (hready : m.hasUnresolvedDependencies keys j = false) :
    Resolving h keys (Function.update rank j (some m.done)) (m.resolve keys j) := by
  have hnone : rank j = none := by
    rw [hm.resolved] at hres
    simpa using hres
  have hranked : ∀ i, DependsOn h keys j i → (rank i).isSome := by
    intro i hi
    by_contra hnot
    have := (hasUnresolvedDependencies_iff hm j).mpr ⟨i, hi, by simpa using hnot⟩
    rw [hready] at this
    cases this
  refine ⟨hm.ranked.assign hnone hranked, fun k hk => ?_, fun k => ?_, fun k i => ?_, fun k r hk => ?_,
    hm.kept.set j _⟩
  · by_cases hkj : k = j
    · rw [hkj]
      exact hj
    · rw [Function.update_of_ne hkj] at hk
      exact hm.mem k hk
  · by_cases hkj : k = j
    · simp [AdjMatrix.resolve, AdjMatrix.append, hkj]
    · simp [AdjMatrix.resolve, AdjMatrix.append, AdjMatrix.resolveDep, hkj, hm.resolved]
  · have hdeps : (m.resolve keys j).deps k i = if k ∈ keys ∧ i = j then false else m.deps k i := rfl
    rw [hdeps]
    by_cases hij : i = j
    · subst hij
      rw [Function.update_self]
      have : m.deps k i = true → k ∈ keys := fun hk => ((hm.deps k i).mp hk).1.left
      by_cases hk : k ∈ keys
      · simp [hk]
      · simp only [hk, false_and, if_false, reduceCtorEq, and_false, iff_false]
        exact fun hdep => hk (this hdep)
    · rw [Function.update_of_ne hij, if_neg (fun hc => hij hc.2), hm.deps]
  · have hcell : (m.resolve keys j).heap = m.heap.set j
        (keySetMeta (m.heap.cell j) (str "order") (some (elektraWriteArrayNumber m.done))).2 := rfl
    rw [hcell]
    by_cases hkj : k = j
    · subst hkj
      rw [Function.update_self] at hk
      cases hk
      rw [set_cell_self, set_order]
      rw [hm.kept.roMeta]
      exact hs.unlocked k hj
    · rw [Function.update_of_ne hkj] at hk
      rw [set_cell_ne hkj]
      exact hm.order k r hk

end Resolving

/-! ## The frontier -/

/-- The members are counted, and they are not resolved. -/
structure Frontier.Holds (keys : List KeyRef) (m : AdjMatrix) (f : Frontier) : Prop where
  todo : f.todo = keys.countP f.member
  mem : ∀ k, f.member k = true → k ∈ keys ∧ m.isResolved k = false

/-- All dependencies of members are members. -/
def Frontier.Closed (m : AdjMatrix) (f : Frontier) : Prop :=
  ∀ i k, f.member i = true → m.deps i k = true → f.member k = true

/-- `f'` is `f` with more members, which are found. -/
structure Grown (keys : List KeyRef) (m : AdjMatrix) (f f' : Frontier) : Prop where
  holds : f.Holds keys m → f'.Holds keys m
  idle : f'.found = false → f' = f
  todo : f'.found = true → f.found = true ∨ f.todo < f'.todo
  le : f.todo ≤ f'.todo

section Frontier

variable {h : Heap} {keys : List KeyRef} {rank : KeyRef → Option ℕ} {m : AdjMatrix} {f f' : Frontier}

theorem Grown.refl (f : Frontier) : Grown keys m f f := ⟨id, fun _ => rfl, Or.inl, le_rfl⟩

theorem Grown.trans {f₁ f₂ f₃ : Frontier} (h : Grown keys m f₁ f₂) (h' : Grown keys m f₂ f₃) :
    Grown keys m f₁ f₃ := by
  refine ⟨h'.holds ∘ h.holds, fun hf => ?_, fun hf => ?_, h.le.trans h'.le⟩
  · obtain rfl := h'.idle hf
    exact h.idle hf
  · obtain hf₂ | hlt := h'.todo hf
    · exact (h.todo hf₂).imp_right fun hlt => lt_of_lt_of_le hlt h'.le
    · exact Or.inr (lt_of_le_of_lt h.le hlt)

theorem Grown.foldl {g : Frontier → KeyRef → Frontier} (hg : ∀ f k, Grown keys m f (g f k))
    (l : List KeyRef) (f : Frontier) : Grown keys m f (l.foldl g f) :=
  List.foldlRecOn l g (.refl f) fun _ hf k _ => hf.trans (hg _ k)

theorem Grown.foldl_idle {g : Frontier → KeyRef → Frontier} (hg : ∀ f k, Grown keys m f (g f k))
    {l : List KeyRef} {f : Frontier} (hf : (l.foldl g f).found = false) : ∀ k ∈ l, g f k = f := by
  induction l generalizing f with
  | nil => exact fun k hk => absurd hk List.not_mem_nil
  | cons a l ih =>
    rw [List.foldl_cons] at hf
    have hrest := (Grown.foldl hg l (g f a)).idle hf
    rw [hrest] at hf
    have ha : g f a = f := (hg f a).idle hf
    intro k hk
    obtain rfl | hk := List.mem_cons.mp hk
    · exact ha
    · refine ih ?_ k hk
      rw [ha] at hrest hf
      rw [hrest]
      exact hf

theorem grown_put (hs : Sortable h keys) (hm : Resolving h keys rank m) (f : Frontier) (i k : KeyRef) :
    Grown keys m f
      (if m.deps i k && !f.member k then
        { member := Function.update f.member k true, todo := f.todo + 1, found := true }
      else f) := by
  split_ifs with hk
  · obtain ⟨hdep, hmember⟩ := (Bool.and_eq_true _ _).mp hk
    have hmember : f.member k = false := by simpa using hmember
    obtain ⟨hdep, hnone⟩ := (hm.deps i k).mp hdep
    refine ⟨fun hf => ⟨?_, fun x hx => ?_⟩, fun hf => absurd hf.symm (by simp), fun _ => Or.inr (by simp),
      Nat.le_succ _⟩
    · have hcount := countP_update hs.nodup (p := Function.update f.member k true) hdep.right (by simp)
      rw [← hcount, hf.todo, Function.update_idem, ← hmember, Function.update_eq_self]
    · by_cases hxk : x = k
      · rw [hxk, hm.resolved, hnone]
        exact ⟨hdep.right, rfl⟩
      · exact hf.mem x (by simpa [Function.update_of_ne hxk] using hx)
  · exact .refl f

theorem grown_add (hs : Sortable h keys) (hm : Resolving h keys rank m) (f : Frontier) (i : KeyRef) :
    Grown keys m f (frontierAdd m keys f i) := by
  unfold frontierAdd
  split_ifs
  · exact Grown.foldl (fun f k => grown_put hs hm f i k) keys f
  · exact .refl f

theorem closed_of_idle (hs : Sortable h keys) (hm : Resolving h keys rank m)
    (hidle : (keys.foldl (frontierAdd m keys) { f with found := false }).found = false) :
    ({ f with found := false } : Frontier).Closed m := by
  intro i k hi hdep
  have hdep' := ((hm.deps i k).mp hdep)
  have hadd := Grown.foldl_idle (fun f i => grown_add hs hm f i) hidle i hdep'.1.left
  have hhas := (hasUnresolvedDependencies_iff hm i).mpr ⟨k, hdep'⟩
  unfold frontierAdd at hadd
  rw [if_pos ((Bool.and_eq_true _ _).mpr ⟨hi, hhas⟩)] at hadd
  have hput := Grown.foldl_idle (fun f k => grown_put hs hm f i k) (by rw [hadd]) k hdep'.1.right
  by_contra hk
  rw [if_pos ((Bool.and_eq_true _ _).mpr ⟨hdep, by simpa using hk⟩)] at hput
  exact absurd (congrArg Frontier.found hput) (by simp)

/-- **The loop ends with a closed frontier.** -/
theorem frontierLoop_spec (hs : Sortable h keys) (hm : Resolving h keys rank m) (n : ℕ)
    (hf : f.Holds keys m) (hn : keys.length < f.todo + n) :
    (frontierLoop m keys n f).Holds keys m ∧ (frontierLoop m keys n f).Closed m ∧
      f.todo ≤ (frontierLoop m keys n f).todo := by
  induction n generalizing f with
  | zero =>
    have := List.countP_le_length (p := f.member) (l := keys)
    rw [hf.todo] at hn
    omega
  | succ n ih =>
    have hgrown := Grown.foldl (fun f i => grown_add hs hm f i) keys { f with found := false }
    have hstart : ({ f with found := false } : Frontier).Holds keys m := ⟨hf.todo, hf.mem⟩
    rw [frontierLoop]
    split_ifs with hfound
    · have hlt := (hgrown.todo hfound).resolve_left (by simp)
      dsimp only at hlt
      obtain ⟨hholds, hclosed, hle⟩ := ih (hgrown.holds hstart) (by omega)
      exact ⟨hholds, hclosed, by omega⟩
    · have hidle : (keys.foldl (frontierAdd m keys) { f with found := false }).found = false := by
        simpa using hfound
      rw [hgrown.idle hidle]
      exact ⟨hstart, closed_of_idle hs hm hidle, le_rfl⟩

/-- A member whose dependencies are resolved is resolved, and leaves the frontier. -/
theorem frontier_resolve (hs : Sortable h keys) (hm : Resolving h keys rank m) (hf : f.Holds keys m)
    (hclosed : f.Closed m) {i : KeyRef} (hi : f.member i = true) (hb : Bool) :
    (Frontier.mk (Function.update f.member i false) (f.todo - 1) hb).Holds keys (m.resolve keys i) ∧
    (Frontier.mk (Function.update f.member i false) (f.todo - 1) hb).Closed (m.resolve keys i) ∧
      (m.resolve keys i).left keys + f.todo = m.left keys + (f.todo - 1) ∧ 0 < f.todo := by
  obtain ⟨hmem, hres⟩ := hf.mem i hi
  have hcount := countP_update hs.nodup hmem hi
  have htodo := hf.todo
  have hleft := left_resolve hs hmem hres
  refine ⟨⟨?_, fun k hk => ?_⟩, fun a k ha hk => ?_, by omega, by omega⟩
  · dsimp only
    omega
  · dsimp only at hk
    have hki : k ≠ i := by
      rintro rfl
      rw [Function.update_self] at hk
      cases hk
    rw [Function.update_of_ne hki] at hk
    obtain ⟨hkeys, hkres⟩ := hf.mem k hk
    refine ⟨hkeys, ?_⟩
    simpa [AdjMatrix.resolve, AdjMatrix.append, AdjMatrix.resolveDep, hki] using hkres
  · dsimp only at ha ⊢
    have hdeps : (m.resolve keys i).deps a k = if a ∈ keys ∧ k = i then false else m.deps a k := rfl
    have hai : a ≠ i := by
      rintro rfl
      rw [Function.update_self] at ha
      cases ha
    rw [Function.update_of_ne hai] at ha
    rw [hdeps] at hk
    split_ifs at hk with hc
    have hki : k ≠ i := fun he => hc ⟨((hm.deps a k).mp hk).1.left, he⟩
    rw [Function.update_of_ne hki]
    exact hclosed a k ha hk

/-- What a pass leaves: some members are resolved, and one of those that could be. -/
structure Passed (h : Heap) (keys : List KeyRef) (m : AdjMatrix) (f : Frontier)
    (r : Frontier × AdjMatrix) : Prop where
  resolving : ∃ rank, Resolving h keys rank r.2
  holds : r.1.Holds keys r.2
  closed : r.1.Closed r.2
  left : r.2.left keys + f.todo = m.left keys + r.1.todo
  le : r.1.todo ≤ f.todo

theorem frontierPass_spec (hs : Sortable h keys) (rest : List KeyRef)
    (hm : Resolving h keys rank m) (hf : f.Holds keys m) (hclosed : f.Closed m) :
    Passed h keys m f (frontierPass keys rest f m) ∧
      ((∃ i ∈ rest, f.member i = true ∧ m.hasUnresolvedDependencies keys i = false) →
        (frontierPass keys rest f m).1.todo < f.todo) := by
  induction rest generalizing rank m f with
  | nil =>
    refine ⟨⟨⟨rank, hm⟩, hf, hclosed, rfl, le_rfl⟩, ?_⟩
    rintro ⟨i, hi, -⟩
    exact absurd hi List.not_mem_nil
  | cons i rest ih =>
    rw [frontierPass]
    split_ifs with htodo hready
    · refine ⟨⟨⟨rank, hm⟩, hf, hclosed, rfl, le_rfl⟩, ?_⟩
      rintro ⟨k, -, hk, -⟩
      have hpos := List.countP_pos_iff.mpr ⟨k, (hf.mem k hk).1, hk⟩
      rw [← hf.todo, htodo] at hpos
      exact absurd hpos (lt_irrefl 0)
    · obtain ⟨hmember, hready⟩ := (Bool.and_eq_true _ _).mp hready
      have hready : m.hasUnresolvedDependencies keys i = false := by simpa using hready
      obtain ⟨hf', hclosed', hleft, hpos⟩ := frontier_resolve hs hm hf hclosed hmember f.found
      obtain ⟨hmem, hres⟩ := hf.mem i hmember
      obtain ⟨hpassed, -⟩ := ih (hm.resolve hs hmem hres hready) hf' hclosed'
      have hle := hpassed.le
      have hleft' := hpassed.left
      dsimp only at hle hleft'
      exact ⟨⟨hpassed.resolving, hpassed.holds, hpassed.closed, by omega, by omega⟩, fun _ => by omega⟩
    · obtain ⟨hpassed, hprogress⟩ := ih hm hf hclosed
      refine ⟨hpassed, ?_⟩
      rintro ⟨k, hk, hmember, hunresolved⟩
      refine hprogress ⟨k, (List.mem_cons.mp hk).resolve_left ?_, hmember, hunresolved⟩
      rintro rfl
      exact hready ((Bool.and_eq_true _ _).mpr ⟨hmember, by rw [hunresolved]; rfl⟩)

theorem exists_ready_member (hm : Resolving h keys rank m) (hf : f.Holds keys m)
    (hclosed : f.Closed m) (htodo : f.todo ≠ 0) (hacyclic : Acyclic (DependsOn h keys)) :
    ∃ i ∈ keys, f.member i = true ∧ m.hasUnresolvedDependencies keys i = false := by
  have hne : keys.filter f.member ≠ [] := by
    intro hnil
    rw [hf.todo, List.countP_eq_length_filter, hnil] at htodo
    exact htodo rfl
  obtain ⟨i, hi, hready⟩ := hacyclic.exists_ready hne
  obtain ⟨hkeys, hmember⟩ := List.mem_filter.mp hi
  refine ⟨i, hkeys, hmember, ?_⟩
  by_contra hhas
  obtain ⟨k, hdep⟩ := (hasUnresolvedDependencies_iff hm i).mp (by simpa using hhas)
  exact hready k (List.mem_filter.mpr
    ⟨hdep.1.right, hclosed i k hmember ((hm.deps i k).mpr hdep)⟩) hdep.1

theorem frontierPasses_spec (hs : Sortable h keys) (n : ℕ) (hm : Resolving h keys rank m)
    (hf : f.Holds keys m) (hclosed : f.Closed m) :
    (∃ rank, Resolving h keys rank (frontierPasses keys n f m).2) ∧
    ((frontierPasses keys n f m).1 = 1 ∧
        (frontierPasses keys n f m).2.left keys + f.todo = m.left keys ∨
      (frontierPasses keys n f m).1 = -1) ∧
    (Acyclic (DependsOn h keys) → f.todo ≤ n → (frontierPasses keys n f m).1 = 1) := by
  induction n generalizing rank f m with
  | zero =>
    rw [frontierPasses]
    dsimp only
    split_ifs with htodo
    · exact ⟨⟨rank, hm⟩, Or.inl ⟨rfl, by rw [htodo]; rfl⟩, fun _ _ => rfl⟩
    · exact ⟨⟨rank, hm⟩, Or.inr rfl, fun _ hle => absurd hle (by omega)⟩
  | succ n ih =>
    rw [frontierPasses]
    split_ifs with htodo
    · exact ⟨⟨rank, hm⟩, Or.inl ⟨rfl, by rw [htodo]; rfl⟩, fun _ _ => rfl⟩
    · obtain ⟨hpassed, hprogress⟩ := frontierPass_spec hs keys hm hf hclosed
      obtain ⟨rank', hm'⟩ := hpassed.resolving
      obtain ⟨hres, hret, hok⟩ := ih hm' hpassed.holds hpassed.closed
      have hleft := hpassed.left
      dsimp only
      refine ⟨hres, hret.imp_left fun hone => ⟨hone.1, by omega⟩, fun hacyclic hle => hok hacyclic ?_⟩
      have := hprogress (exists_ready_member hm hf hclosed htodo hacyclic)
      omega

/-- **The dependencies of a key are resolved, or it has none and is resolved itself; unless there is
a cycle.** -/
theorem resolveDeps_spec (hs : Sortable h keys) (hm : Resolving h keys rank m) {j : KeyRef}
    (hj : j ∈ keys) (hres : m.isResolved j = false) :
    (∃ rank, Resolving h keys rank (resolveDeps keys j m).2) ∧
    ((resolveDeps keys j m).1 = 1 ∧ (resolveDeps keys j m).2.left keys < m.left keys ∨
      (resolveDeps keys j m).1 = -1 ∧ ¬ Acyclic (DependsOn h keys)) := by
  have hdeps : ∀ i, m.deps j i = true → i ∈ keys ∧ m.isResolved i = false := by
    intro i hi
    obtain ⟨hdep, hnone⟩ := (hm.deps j i).mp hi
    rw [hm.resolved, hnone]
    exact ⟨hdep.right, rfl⟩
  generalize hstart : (Frontier.mk (fun i => keys.contains i && m.deps j i) (keys.countP (m.deps j)) true)
    = start
  have hholds : start.Holds keys m := by
    rw [← hstart]
    refine ⟨List.countP_congr fun i hi => ?_, fun i hi => hdeps i ?_⟩
    · simp [hi]
    · exact ((Bool.and_eq_true _ _).mp hi).2
  obtain ⟨hf, hclosed, hle⟩ := frontierLoop_spec hs hm (keys.length + 1) hholds (by omega)
  unfold resolveDeps
  rw [hstart]
  dsimp only
  split_ifs with htodo
  · -- no key is added to the dependencies of `j`, so it has none
    have hready : m.hasUnresolvedDependencies keys j = false := by
      have hzero : keys.countP (m.deps j) = 0 := by
        rw [htodo, ← hstart] at hle
        exact Nat.le_zero.mp hle
      simpa [AdjMatrix.hasUnresolvedDependencies] using hzero
    refine ⟨⟨_, hm.resolve hs hj hres hready⟩, Or.inl ⟨rfl, ?_⟩⟩
    have := left_resolve hs hj hres
    dsimp only
    omega
  · obtain ⟨hresolving, hret, hok⟩ := frontierPasses_spec hs
      ((frontierLoop m keys (keys.length + 1) start).todo + 1) hm hf hclosed
    refine ⟨hresolving, ?_⟩
    obtain ⟨hone, hleft⟩ | hneg := hret
    · exact Or.inl ⟨hone, by omega⟩
    · refine Or.inr ⟨hneg, fun hacyclic => ?_⟩
      have := hok hacyclic (Nat.le_succ _)
      rw [hneg] at this
      cases this

/-! ## The loop -/

/-- The keys before the index, as long as nothing is found. -/
structure Scanned (m : AdjMatrix) (keys before : List KeyRef) (unresolved : ℕ) : Prop where
  blocked : ∀ k ∈ before, m.isResolved k = false → m.hasUnresolvedDependencies keys k = true
  zero : unresolved = 0 ↔ ∀ k ∈ before, m.isResolved k = true

/-- What the loop ends with. -/
def Ends (h : Heap) (keys : List KeyRef) (r : Option (ℕ × AdjMatrix)) : Prop :=
  ∃ unresolved m rank, r = some (unresolved, m) ∧ Resolving h keys rank m ∧
    (unresolved = 0 → ∀ k ∈ keys, (rank k).isSome) ∧
    (unresolved ≠ 0 → ¬ Acyclic (DependsOn h keys))

/-- **The loop resolves all keys, unless there is a cycle.** -/
theorem sortLoop_spec (hs : Sortable h keys) (hasOrder : Bool) (fuel : ℕ) {before js : List KeyRef}
    (hkeys : keys = before ++ js) {found : Bool} {unresolved : ℕ} (hm : Resolving h keys rank m)
    (hscan : found = false → Scanned m keys before unresolved)
    (hfuel : (2 * m.left keys + found.toNat) * (keys.length + 1) + js.length + 1 ≤ fuel) :
    Ends h keys (sortLoop keys hasOrder fuel js found unresolved m) := by
  induction fuel generalizing rank m before js found unresolved with
  | zero => omega
  | succ fuel ih =>
    cases js with
    | nil =>
      rw [List.append_nil] at hkeys
      subst hkeys
      rw [sortLoop]
      split_ifs with hfound
      · rw [hfound] at hfuel
        refine ih (List.nil_append _).symm hm (fun _ => ⟨?_, ?_⟩) ?_
        · exact fun k hk => absurd hk List.not_mem_nil
        · exact ⟨fun _ k hk => absurd hk List.not_mem_nil, fun _ => rfl⟩
        · simp only [Bool.toNat_true, Bool.toNat_false, List.length_nil] at hfuel ⊢
          have hmul : (2 * m.left keys + 1) * (keys.length + 1) =
            (2 * m.left keys + 0) * (keys.length + 1) + (keys.length + 1) := by ring
          omega
      · have hscan := hscan (by simpa using hfound)
        refine ⟨unresolved, m, rank, rfl, hm, fun hzero k hk => ?_, fun hzero => ?_⟩
        · rw [← hm.resolved]
          exact hscan.zero.mp hzero k hk
        · rw [Ne, hscan.zero] at hzero
          push Not at hzero
          obtain ⟨k, hk, hres⟩ := hzero
          -- the keys that are not resolved wait for one another
          refine not_acyclic_of_stuck (l := keys.filter fun k => !m.isResolved k) ?_ ?_
          · exact List.ne_nil_of_mem (List.mem_filter.mpr ⟨hk, by simpa using hres⟩)
          · intro a ha
            obtain ⟨ha, hares⟩ := List.mem_filter.mp ha
            obtain ⟨i, hdep, hnone⟩ := (hasUnresolvedDependencies_iff hm a).mp
              (hscan.blocked a ha (by simpa using hares))
            refine ⟨i, List.mem_filter.mpr ⟨hdep.right, ?_⟩, hdep⟩
            rw [hm.resolved, hnone]
            rfl
    | cons j js =>
      have hj : j ∈ keys := by
        rw [hkeys]
        simp
      have hkeys' : keys = (before ++ [j]) ++ js := by rw [hkeys, List.append_assoc]; rfl
      rw [List.length_cons] at hfuel
      rw [sortLoop]
      split_ifs with hres horder hhas
      · refine ih hkeys' hm (fun hfound => ?_) (by omega)
        obtain ⟨hblocked, hzero⟩ := hscan hfound
        refine ⟨fun k hk hkres => ?_, hzero.trans ⟨fun hall k hk => ?_, fun hall k hk => ?_⟩⟩
        · obtain hk | hk := List.mem_append.mp hk
          · exact hblocked k hk hkres
          · rw [List.mem_singleton.mp hk, hres] at hkres
            cases hkres
        · obtain hk | hk := List.mem_append.mp hk
          · exact hall k hk
          · rw [List.mem_singleton.mp hk]
            exact hres
        · exact hall k (List.mem_append_left _ hk)
      · obtain ⟨⟨rank', hm'⟩, hret⟩ := resolveDeps_spec hs hm hj (by simpa using hres)
        dsimp only
        obtain ⟨hone, hlt⟩ | ⟨hneg, hcycle⟩ := hret
        · rw [if_neg (by rw [hone]; decide)]
          refine ih (List.nil_append _).symm hm' (fun hfound => absurd hfound (by simp)) ?_
          have hmul : (2 * (resolveDeps keys j m).2.left keys + 1) * (keys.length + 1) +
              (keys.length + 1) ≤ (2 * m.left keys + found.toNat) * (keys.length + 1) := by
            rw [← Nat.succ_mul]
            exact Nat.mul_le_mul_right _ (by omega)
          rw [Bool.toNat_true]
          omega
        · rw [if_pos hneg]
          exact ⟨_, _, rank', rfl, hm', fun hzero => absurd hzero (by omega), fun _ => hcycle⟩
      · refine ih hkeys' hm (fun hfound => ?_) (by omega)
        obtain ⟨hblocked, -⟩ := hscan hfound
        refine ⟨fun k hk hkres => ?_, ⟨fun hzero => absurd hzero (by omega), fun hall => ?_⟩⟩
        · obtain hk | hk := List.mem_append.mp hk
          · exact hblocked k hk hkres
          · rw [List.mem_singleton.mp hk]
            exact hhas
        · exact absurd (hall j (by simp)) hres
      · have hleft := left_resolve hs hj (by simpa using hres)
        have hready : m.hasUnresolvedDependencies keys j = false := by simpa using hhas
        refine ih hkeys' (hm.resolve hs hj (by simpa using hres) hready)
          (fun hfound => absurd hfound (by simp)) ?_
        have hmul : (2 * (m.resolve keys j).left keys + 1) * (keys.length + 1) ≤
            (2 * m.left keys + found.toNat) * (keys.length + 1) :=
          Nat.mul_le_mul_right _ (by omega)
        simp only [Bool.toNat_true]
        omega

end Frontier

end Elektra
