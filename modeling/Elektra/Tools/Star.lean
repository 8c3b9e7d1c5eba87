import Elektra.Tools.Deps
import Elektra.Meta.Order

/-!
# Keys that depend on all others

* `Star`: each key depends on all others, some more than once, some not at all;
* `OneStar`: only one key does, and not more than once where another key follows it;
* **`sortTopology_star`**: such keys are sorted exactly then.
-/

namespace Elektra.Tools

open Dependency

/-- Each key depends `r` times on all others; the indices are the old `order`. -/
structure Star (h : Heap) (keys : List KeyRef) (P : KeyRef → Path) (r : KeyRef → ℕ) : Prop where
  named : Named h keys P
  cascading : ∀ k ∈ keys, (P k).root = .cascading ∧ ¬ BackslashPart (P k).escaped
  deps : ∀ k ∈ keys, MetaArray (h.cell k) (str "dep") (List.replicate (r k) (others P keys k)).flatten
  order : ∀ k ∈ keys, keyGetMeta (h.cell k) (str "order") = some (digits k)

/-- The other keys are before `s`. -/
def Behind (keys : List KeyRef) (s : KeyRef) : Prop :=
  ∀ i ∈ keys, i ≠ s → compare (digits i) (digits s) = .lt

/-- One key at most depends on others, and if it does so twice, it is the last one. -/
structure OneStar (keys : List KeyRef) (r : KeyRef → ℕ) : Prop where
  one : ∀ k ∈ keys, ∀ k' ∈ keys, 0 < r k → 0 < r k' → k = k'
  behind : ∀ k ∈ keys, 2 ≤ r k → Behind keys k

section Star

variable {h : Heap} {keys l : List KeyRef} {P : KeyRef → Path} {r : KeyRef → ℕ} {i k s : KeyRef}

theorem mem_others : (P i).name ∈ others P keys k ↔ ∃ j ∈ keys, j ≠ k ∧ (P j).name = (P i).name := by
  rw [others, List.mem_map]
  refine exists_congr fun j => ?_
  rw [List.mem_filter, and_assoc]
  exact and_congr_right fun _ => and_congr_left fun _ => by simp

theorem flatten_replicate_eq_nil {n : ℕ} {l : List Str} : (List.replicate n l).flatten = [] ↔ n = 0 ∨ l = [] := by
  cases n with
  | zero => simp
  | succ n => simp [List.flatten_eq_nil_iff]

theorem Star.keyName (hs : Star h keys P r) (hk : k ∈ keys) : Elektra.keyName (h.cell k) = (P k).name := by
  rw [Elektra.keyName, (hs.named.name k hk).key, Option.getD_some]

theorem Star.sortable (hs : Star h keys P r) : Sortable h keys where
  names := by
    refine List.Nodup.map_on (fun a ha b hb he => ?_) hs.named.nodup
    rw [hs.keyName ha, hs.keyName hb] at he
    exact hs.named.inj a ha b hb (Path.name_injective he)
  unlocked := hs.named.unlocked

theorem Star.depNames (hs : Star h keys P r) (hk : k ∈ keys) :
    Elektra.depNames (h.cell k) = (List.replicate (r k) (others P keys k)).flatten := by
  rw [Elektra.depNames, (hs.deps k hk).toKS]
  split_ifs with he
  · exact he.symm
  · rfl

theorem mem_depNames (hs : Star h keys P r) (hk : k ∈ keys) {name : Str} :
    name ∈ Elektra.depNames (h.cell k) ↔ 0 < r k ∧ name ∈ others P keys k := by
  rw [hs.depNames hk, List.mem_flatten]
  constructor
  · rintro ⟨l, hl, hname⟩
    obtain ⟨hr, rfl⟩ := List.mem_replicate.mp hl
    exact ⟨Nat.pos_of_ne_zero hr, hname⟩
  · rintro ⟨hr, hname⟩
    exact ⟨_, List.mem_replicate.mpr ⟨hr.ne', rfl⟩, hname⟩

theorem Star.dependsOn_iff (hs : Star h keys P r) :
    DependsOn h keys k i ↔ k ∈ keys ∧ i ∈ keys ∧ i ≠ k ∧ 0 < r k := by
  constructor
  · rintro ⟨hk, hi, hne, hname⟩
    exact ⟨hk, hi, hne, ((mem_depNames hs hk).mp hname).1⟩
  · rintro ⟨hk, hi, hne, hr⟩
    refine ⟨hk, hi, hne, (mem_depNames hs hk).mpr ⟨hr, ?_⟩⟩
    rw [hs.keyName hi]
    exact mem_others.mpr ⟨i, hi, hne, rfl⟩

theorem Star.validNames (hs : Star h keys P r) : ValidNames h keys := by
  intro k hk _ name hname
  obtain ⟨j, hj, rfl⟩ := List.mem_map.mp ((mem_depNames hs hk).mp hname).2
  have hj := (List.mem_filter.mp hj).1
  have hnew := newAt_keyNewName (hs.cascading j hj).1 (hs.cascading j hj).2
  rw [isValidKeyName, Elektra.keyName, hnew.name.key, Option.getD_some]
  exact decide_eq_true rfl

theorem Star.atOnce_iff (hs : Star h keys P r) (hk : k ∈ keys) :
    atOnce h k = true ↔ r k = 0 ∨ others P keys k = [] := by
  rw [atOnce, resolvedAtOnce, (hs.deps k hk).toKS, ← flatten_replicate_eq_nil]
  split_ifs with he
  · exact ⟨fun _ => he, fun _ => rfl⟩
  · refine ⟨fun hown => ?_, fun h => absurd h he⟩
    -- a key is not among the others
    have hown' : (List.replicate (r k) (others P keys k)).flatten = [Elektra.keyName (h.cell k)] :=
      of_decide_eq_true hown
    have hmem : Elektra.keyName (h.cell k) ∈ Elektra.depNames (h.cell k) := by
      rw [hs.depNames hk, hown']
      exact List.mem_singleton_self _
    rw [hs.keyName hk] at hmem
    obtain ⟨j, hj, hne, hname⟩ := mem_others.mp ((mem_depNames hs hk).mp hmem).2
    exact absurd (hs.named.inj j hj k hk (Path.name_injective hname)) hne

theorem Star.acyclic_iff (hs : Star h keys P r) : Acyclic (DependsOn h keys) ↔
    ∀ k ∈ keys, ∀ k' ∈ keys, 0 < r k → 0 < r k' → k = k' := by
  constructor
  · intro hacyclic k hk k' hk' hr hr'
    by_contra hne
    have h1 : DependsOn h keys k k' := hs.dependsOn_iff.mpr ⟨hk, hk', fun he => hne he.symm, hr⟩
    have h2 : DependsOn h keys k' k := hs.dependsOn_iff.mpr ⟨hk', hk, hne, hr'⟩
    exact hacyclic k (Relation.TransGen.tail (.single h1) h2)
  · intro hone k hcycle
    obtain ⟨a, hfirst, hrest⟩ := Relation.TransGen.head'_iff.mp hcycle
    obtain ⟨hk, ha, hne, hr⟩ := hs.dependsOn_iff.mp hfirst
    obtain ⟨b, hlast, -⟩ | rfl := hrest.cases_head.symm
    · obtain ⟨-, -, -, hr'⟩ := hs.dependsOn_iff.mp hlast
      exact hne (hone a ha k hk hr' hr)
    · exact hne rfl

/-! ## What is pending -/

/-- The others that do not stand before `k`. -/
def late (h : Heap) (keys l : List KeyRef) (k : KeyRef) : List KeyRef :=
  (keys.filter (· ≠ k)).filter fun i => !(atOnce h i && (earlier l k).contains i)

theorem Star.pending_eq (hs : Star h keys P r) (hl : l.Perm keys) (hk : k ∈ keys) :
    pending h l k = (List.replicate (r k) (late h keys l k)).flatten := by
  have hfind : ∀ n, ((List.replicate n (others P keys k)).flatten).filterMap (getArrayIndex h l) =
      (List.replicate n (keys.filter (· ≠ k))).flatten := by
    have hone : (others P keys k).filterMap (getArrayIndex h l) = keys.filter (· ≠ k) := by
      rw [others, List.filterMap_map]
      refine (List.filterMap_congr fun i hi => ?_).trans List.filterMap_some
      have hi := (List.mem_filter.mp hi).1
      rw [Function.comp_apply, ← hs.keyName hi]
      exact getArrayIndex_eq (hs.sortable.perm hl) (hl.mem_iff.mpr hi)
    intro n
    induction n with
    | zero => rfl
    | succ n ih => rw [List.replicate_succ, List.flatten_cons, List.filterMap_append, hone, ih,
        List.replicate_succ, List.flatten_cons]
  have hfilter : ∀ (p : KeyRef → Bool) (a : List KeyRef) n,
      (List.replicate n a).flatten.filter p = (List.replicate n (a.filter p)).flatten := by
    intro p a n
    rw [List.filter_flatten, List.map_replicate]
  have hself : (keys.filter (· ≠ k)).filter (· ≠ k) = keys.filter (· ≠ k) :=
    List.filter_eq_self.mpr fun i hi => (List.mem_filter.mp hi).2
  rw [pending, targets, hs.depNames hk, hfind, hfilter, hfilter, hself]
  rfl

theorem mem_late : i ∈ late h keys l k ↔ i ∈ keys ∧ i ≠ k ∧ ¬ (atOnce h i = true ∧ i ∈ earlier l k) := by
  rw [late, List.mem_filter, List.mem_filter, and_assoc]
  simp only [decide_eq_true_eq, Bool.not_eq_true', ← Bool.not_eq_true, Bool.and_eq_true, List.contains_eq_mem]

theorem Star.mem_pending (hs : Star h keys P r) (hl : l.Perm keys) (hk : k ∈ keys) :
    i ∈ pending h l k ↔ 0 < r k ∧ i ∈ late h keys l k := by
  rw [hs.pending_eq hl hk, List.mem_flatten]
  constructor
  · rintro ⟨a, ha, hi⟩
    obtain ⟨hr, rfl⟩ := List.mem_replicate.mp ha
    exact ⟨Nat.pos_of_ne_zero hr, hi⟩
  · rintro ⟨hr, hi⟩
    exact ⟨_, List.mem_replicate.mpr ⟨hr.ne', rfl⟩, hi⟩

theorem nodup_late (hs : Star h keys P r) : (late h keys l k).Nodup :=
  (hs.named.nodup.filter _).filter _

theorem sum_single {f : KeyRef → ℕ} : ∀ {l : List KeyRef}, l.Nodup → s ∈ l →
    (∀ k, k ≠ s → k ∈ l → f k = 0) → (l.map f).sum = f s
  | a :: l, hl, hs, h0 => by
    obtain ⟨ha, hl⟩ := List.nodup_cons.mp hl
    rw [List.map_cons, List.sum_cons]
    by_cases he : s = a
    · subst he
      have hzero : (l.map f).sum = 0 := List.sum_eq_zero fun x hx => by
        obtain ⟨k, hk, rfl⟩ := List.mem_map.mp hx
        exact h0 k (fun he => ha (he ▸ hk)) (List.mem_cons_of_mem _ hk)
      rw [hzero, Nat.add_zero]
    · have hmem : s ∈ l := (List.mem_cons.mp hs).resolve_left he
      rw [h0 a (Ne.symm he) List.mem_cons_self, Nat.zero_add,
        sum_single hl hmem fun k hne hk => h0 k hne (List.mem_cons_of_mem _ hk)]

theorem sum_ite (p : KeyRef → Bool) : ∀ l : List KeyRef,
    (l.map fun k => if p k then 1 else 0).sum = l.countP p
  | [] => rfl
  | a :: l => by
    rw [List.map_cons, List.sum_cons, sum_ite p l, List.countP_cons, Nat.add_comm]

section OneKey

variable (hs : Star h keys P r) (hl : l.Perm keys) (hone : ∀ k ∈ keys, k ≠ s → r k = 0)
include hs hone

theorem atOnce_other (hi : i ∈ keys) (hne : i ≠ s) : atOnce h i = true :=
  (hs.atOnce_iff hi).mpr (Or.inl (hone i hi hne))

include hl

theorem pending_other (hi : i ∈ keys) (hne : i ≠ s) : pending h l i = [] := by
  rw [hs.pending_eq hl hi, hone i hi hne]
  rfl

variable (hk : s ∈ keys)
include hk

theorem pendingCount_star : pendingCount h l = r s * (late h keys l s).length := by
  rw [pendingCount, sum_single (hl.nodup_iff.mpr hs.named.nodup) (hl.mem_iff.mpr hk) fun i hne hi => ?_]
  · rw [hs.pending_eq hl hk, List.length_flatten, List.map_replicate, List.sum_replicate, smul_eq_mul]
  · rw [pending_other hs hl hone (hl.mem_iff.mp hi) hne]
    rfl

theorem settledCount_star (hr : 0 < r s) : settledCount h l = (late h keys l s).length := by
  have hnodup := hl.nodup_iff.mpr hs.named.nodup
  have hcount : ∀ i, (l.countP fun k => (pending h l k).contains i) =
      if decide (i ∈ late h keys l s) then 1 else 0 := by
    intro i
    rw [← sum_ite, sum_single hnodup (hl.mem_iff.mpr hk) fun k hne hk' => ?_]
    · have hmem := @Star.mem_pending h keys l P r i s hs hl hk
      rw [and_iff_right hr] at hmem
      rw [List.contains_eq_mem, decide_eq_decide.mpr hmem]
    · rw [pending_other hs hl hone (hl.mem_iff.mp hk') hne]
      rfl
  rw [settledCount, List.map_congr_left fun i _ => hcount i, sum_ite, List.countP_eq_length_filter]
  refine List.Perm.length_eq ((List.perm_ext_iff_of_nodup ((hnodup.filter _).filter _) (nodup_late hs)).mpr
    fun i => ?_)
  rw [List.mem_filter, List.mem_filter, decide_eq_true_iff]
  constructor
  · exact fun h => h.2
  · intro hi
    obtain ⟨hmem, hne, -⟩ := mem_late.mp hi
    exact ⟨⟨hl.mem_iff.mpr hmem, atOnce_other hs hone hmem hne⟩, hi⟩

theorem atOnceCount_star (hr : 0 < r s) (hlate : late h keys l s ≠ []) :
    l.countP (atOnce h) + 1 = l.length := by
  have hnodup := hl.nodup_iff.mpr hs.named.nodup
  obtain ⟨i, hi⟩ := List.exists_mem_of_ne_nil _ hlate
  obtain ⟨hi, hne, -⟩ := mem_late.mp hi
  have hwait : atOnce h s = false := by
    rw [← Bool.not_eq_true, hs.atOnce_iff hk]
    rintro (h0 | h0)
    · exact hr.ne' h0
    · have hmem : (P i).name ∈ others P keys s := mem_others.mpr ⟨i, hi, hne, rfl⟩
      rw [h0] at hmem
      cases hmem
  rw [List.length_eq_countP_add_countP (atOnce h) (l := l), Nat.add_right_inj, ← sum_ite,
    sum_single hnodup (hl.mem_iff.mpr hk) fun k hne hk' => ?_]
  · rw [hwait]
    rfl
  · rw [atOnce_other hs hone (hl.mem_iff.mp hk') hne]
    rfl

end OneKey

theorem Star.crowded_iff (hs : Star h keys P r) (hl : l.Perm keys)
    (hone : ∀ k ∈ keys, ∀ k' ∈ keys, 0 < r k → 0 < r k' → k = k') :
    Crowded h l ↔ ∃ s ∈ keys, 2 ≤ r s ∧ late h keys l s ≠ [] := by
  have hzero : ∀ s ∈ keys, 0 < r s → ∀ k ∈ keys, k ≠ s → r k = 0 := fun s hk hr k hk' hne =>
    Nat.eq_zero_of_not_pos fun hr' => hne (hone k hk' s hk hr' hr)
  constructor
  · rintro ⟨hcount, k, hk, hpending⟩
    obtain ⟨i, hi⟩ := List.exists_mem_of_ne_nil _ hpending
    have hk := hl.mem_iff.mp hk
    obtain ⟨hr, hi⟩ := (hs.mem_pending hl hk).mp hi
    have hlate : late h keys l k ≠ [] := List.ne_nil_of_mem hi
    have hother := hzero k hk hr
    refine ⟨k, hk, ?_, hlate⟩
    have hone := atOnceCount_star hs hl hother hk hr hlate
    rw [pendingCount_star hs hl hother hk, settledCount_star hs hl hother hk hr] at hcount
    by_contra hlt
    obtain hr1 : r k = 1 := by omega
    rw [hr1, Nat.one_mul] at hcount
    omega
  · rintro ⟨s, hk, hr, hlate⟩
    have hpos : 0 < r s := lt_of_lt_of_le Nat.zero_lt_two hr
    have hother := hzero s hk hpos
    obtain ⟨i, hi⟩ := List.exists_mem_of_ne_nil _ hlate
    refine ⟨?_, s, hl.mem_iff.mpr hk, List.ne_nil_of_mem ((hs.mem_pending hl hk).mpr ⟨hpos, hi⟩)⟩
    have hone := atOnceCount_star hs hl hother hk hpos hlate
    have hlen := List.length_pos_of_ne_nil hlate
    have hmul := Nat.mul_le_mul_right (late h keys l s).length hr
    rw [pendingCount_star hs hl hother hk, settledCount_star hs hl hother hk hpos]
    omega

/-! ## The order of the keys -/

theorem compare_digits {m n : ℕ} (h : m ≠ n) : compare (digits m) (digits n) ≠ .eq := by
  intro he
  have hd := Std.LawfulEqOrd.eq_of_compare he
  exact h (by rw [← atoi_digits m, ← atoi_digits n, hd])

theorem Star.late_eq_nil (hs : Star h keys P r) (hl : Arranged h keys l) (hk : s ∈ keys)
    (hone : ∀ k ∈ keys, k ≠ s → r k = 0) : late h keys l s = [] ↔ Behind keys s := by
  obtain ⟨hperm, hsorted⟩ := hl
  obtain ⟨before, after, hsplit⟩ := List.append_of_mem (hperm.mem_iff.mpr hk)
  have hnodup := hperm.nodup_iff.mpr hs.named.nodup
  have horder : ∀ k ∈ keys, orderString (h.cell k) = digits k := fun k hk => by
    rw [orderString, hs.order k hk, Option.getD_some]
  rw [hsplit] at hsorted hnodup
  obtain ⟨-, hafter, hcross⟩ := List.pairwise_append.mp hsorted
  have hnot : s ∉ before := fun hb => (List.nodup_append.mp hnodup).2.2 s hb s List.mem_cons_self rfl
  have hearlier : earlier l s = before := by
    rw [hsplit]
    exact earlier_eq hnot
  constructor
  · intro hnil i hi hne
    have hmem : i ∈ before := by
      by_contra hb
      have hlate : i ∈ late h keys l s := mem_late.mpr ⟨hi, hne, fun h => hb (hearlier ▸ h.2)⟩
      rw [hnil] at hlate
      cases hlate
    have hle := hcross i hmem s List.mem_cons_self
    rw [topCmpOrder, horder i hi, horder s hk] at hle
    cases hcmp : compare (digits i) (digits s) with
    | lt => rfl
    | eq => exact absurd hcmp (compare_digits hne)
    | gt => exact absurd hcmp hle
  · intro hbehind
    refine List.eq_nil_iff_forall_not_mem.mpr fun i hi => ?_
    obtain ⟨hi, hne, hlate⟩ := mem_late.mp hi
    refine hlate ⟨atOnce_other hs hone hi hne, ?_⟩
    have hmem : i ∈ l := hperm.mem_iff.mpr hi
    rw [hsplit, List.mem_append, List.mem_cons] at hmem
    rw [hearlier]
    obtain hb | rfl | ha := hmem
    · exact hb
    · exact absurd rfl hne
    · have hle := (List.pairwise_cons.mp hafter).1 i ha
      rw [topCmpOrder, horder i hi, horder s hk, Std.OrientedOrd.eq_swap, hbehind i hi hne] at hle
      exact absurd rfl hle

/-- **Keys that depend on all others are sorted if one at most does.** -/
theorem sortTopology_star (sort sort' : Qsort) (hsort : sort.Sorts) (hsort' : sort'.Sorts)
    (hs : Star h keys P r) (hne : keys ≠ []) :
    (OneStar keys r → ∃ h' array, elektraSortTopology sort sort' h keys = some (h', 1, some array) ∧
      array.Perm keys ∧ array.Pairwise fun k i => ¬ DependsOn h keys k i) ∧
    (¬ OneStar keys r → ∃ h', elektraSortTopology sort sort' h keys = some (h', 0, none)) := by
  have hl : Arranged h keys (sort (topCmpOrder h) keys) :=
    ⟨hsort.perm _ _, hsort.pairwise _ _ inferInstance⟩
  generalize hrun : sort (topCmpOrder h) keys = l at hl
  have hlne : l ≠ [] := fun he => hne (List.Perm.nil_eq (he ▸ hl.1)).symm
  have hdep := dependsOn_perm (h := h) hl.1
  have hcases := elektraSortTopology_cases sort sort' hrun hlne (hs.sortable.perm hl.1)
  rw [hdep] at hcases
  have hvalid : ValidNames h l := (validNames_perm hl.1).mpr hs.validNames
  -- the keys are not taken for a cycle exactly where the one key is the last one
  have hcrowded : (∀ k ∈ keys, ∀ k' ∈ keys, 0 < r k → 0 < r k' → k = k') →
      (Crowded h l ↔ ¬ ∀ k ∈ keys, 2 ≤ r k → Behind keys k) := by
    intro hone
    rw [hs.crowded_iff hl.1 hone]
    push Not
    refine exists_congr fun k => and_congr_right fun hk => and_congr_right fun hr => not_congr ?_
    refine hs.late_eq_nil hl hk fun i hi hne => Nat.eq_zero_of_not_pos fun hr' => hne ?_
    exact hone i hi k hk hr' (lt_of_lt_of_le Nat.zero_lt_two hr)
  constructor
  · rintro ⟨hone, hbehind⟩
    obtain ⟨_, -, hbad⟩ | ⟨_, -, hcycle⟩ | ⟨_, -, -, hcrowd⟩ | ⟨h', hret, -, -, -, horder⟩ := hcases
    · exact absurd hvalid hbad
    · exact absurd (hs.acyclic_iff.mpr hone) hcycle
    · exact absurd hbehind ((hcrowded hone).mp hcrowd)
    · refine ⟨h', _, hret, hsort'.perm _ _, pairwise_of_order (hsort'.pairwise _ _ inferInstance) ?_⟩
      obtain ⟨-, horder⟩ | ⟨-, horder⟩ := horder
      · exact horder
      · intro k i hki
        have hk := hki.left
        rw [horder k i hki, orderString, hs.order k hk, Option.getD_some]
        -- the new numbers begin with `#`, which is before every digit
        obtain ⟨d, ds, hd⟩ := List.exists_cons_of_length_pos (digits_length_pos k)
        have hdigit : isdigit d = true := isdigit_digits k d (hd ▸ List.mem_cons_self)
        have hlt : compare (35 : UInt8) d = .lt := by
          rw [Std.compare_eq_lt]
          rw [isdigit, Bool.and_eq_true, decide_eq_true_iff] at hdigit
          have hle := UInt8.le_iff_toNat_le.mp hdigit.1
          exact UInt8.lt_iff_toNat_lt.mpr (lt_of_lt_of_le (show 35 < 48 by decide) hle)
        rw [hd, elektraWriteArrayNumber, List.append_assoc, show str "#" = [35] from rfl, List.cons_append,
          List.compare_cons_cons, hlt]
        rfl
  · intro hnot
    obtain ⟨_, -, hbad⟩ | ⟨h', hret, -⟩ | ⟨h', hret, -, -⟩ | ⟨_, -, -, hcrowd, hacyclic, -⟩ := hcases
    · exact absurd hvalid hbad
    · exact ⟨h', hret⟩
    · exact ⟨h', hret⟩
    · have hone := hs.acyclic_iff.mp hacyclic
      exact absurd ⟨hone, not_not.mp (mt (hcrowded hone).mpr hcrowd)⟩ hnot

end Star

end Elektra.Tools
