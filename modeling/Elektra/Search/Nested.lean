import Mathlib.Algebra.GroupWithZero.Nat
import Mathlib.Data.List.Pairwise
import Mathlib.Data.List.TakeWhile
import Mathlib.Tactic.Common

/-!
# Marked entries of a hierarchy

A list names each entry before those below it, and what is below an entry in a row. An entry belongs to the
nearest marked one of those at or above it.

* `Hierarchy`: what is at or above what in a list;
* `Nearest`, `own`, `top`: what an entry belongs to, what belongs to it, and what belongs to none;
* `own_append`, `top_append`: parts of a list that have nothing to do with each other;
* **`existsUnique_nearest`**, **`sum_own`**: what is at or below a marked entry belongs to just one.
-/

namespace Nested

variable {α : Type} (above : α → α → Prop) (mark : α → Prop)

/-- `above a b`: `a` is at or above `b`. What is above the same entry is a chain. -/
structure Hierarchy (l : List α) : Prop where
  refl : ∀ a ∈ l, above a a
  trans : ∀ a ∈ l, ∀ b ∈ l, ∀ c ∈ l, above a b → above b c → above a c
  chain : ∀ a ∈ l, ∀ b ∈ l, ∀ c ∈ l, above a c → above b c → above a b ∨ above b a
  ordered : l.Pairwise fun a b => ¬ above b a
  row : ∀ a b c, [a, b, c].Sublist l → above a c → above a b

/-- A marked entry is at or above `k`. -/
def Covered (l : List α) (k : α) : Prop := ∃ m ∈ l, mark m ∧ above m k

/-- `m` is the nearest marked entry at or above `k`. -/
def Nearest (l : List α) (m k : α) : Prop :=
  m ∈ l ∧ mark m ∧ above m k ∧ ∀ m' ∈ l, mark m' → above m' k → above m' m

/-- The parts have nothing to do with each other, but that what is unmarked may stand above. -/
def Apart (l l' : List α) : Prop := ∀ a ∈ l, ∀ b ∈ l', (mark a → ¬ above a b) ∧ ¬ above b a

section Decidable

variable [DecidableEq α] [DecidableRel above] [DecidablePred mark]

instance (l : List α) : DecidablePred (Covered above mark l) := fun k =>
  inferInstanceAs (Decidable (∃ m ∈ l, mark m ∧ above m k))

instance (l : List α) (m : α) : DecidablePred (Nearest above mark l m) := fun k =>
  inferInstanceAs
    (Decidable (m ∈ l ∧ mark m ∧ above m k ∧ ∀ m' ∈ l, mark m' → above m' k → above m' m))

def own (l : List α) (m : α) : List α := l.filter fun k => Nearest above mark l m k

def top (l : List α) : List α := l.filter fun k => ¬ Covered above mark l k

end Decidable

variable {above mark} {l l' : List α} {a k m : α}

/-! ## Parts of a list -/

theorem Hierarchy.sublist (h : Hierarchy above l) (hl : l'.Sublist l) : Hierarchy above l' where
  refl a ha := h.refl a (hl.subset ha)
  trans a ha b hb c hc := h.trans a (hl.subset ha) b (hl.subset hb) c (hl.subset hc)
  chain a ha b hb c hc := h.chain a (hl.subset ha) b (hl.subset hb) c (hl.subset hc)
  ordered := h.ordered.sublist hl
  row a b c hs := h.row a b c (hs.trans hl)

theorem Hierarchy.run [DecidableRel above] (h : Hierarchy above (k :: l)) :
    (∀ a ∈ l.takeWhile (above k ·), above k a) ∧ ∀ a ∈ l.dropWhile (above k ·), ¬ above k a := by
  refine ⟨fun a ha => by simpa using List.mem_takeWhile_imp ha, fun a ha hk => ?_⟩
  cases hdrop : l.dropWhile (above k ·) with
  | nil =>
    rw [hdrop] at ha
    cases ha
  | cons b post =>
    have hb : ¬ above k b := by
      have hhead := @List.head?_dropWhile_not _ (above k ·) l
      rw [hdrop, List.head?_cons] at hhead
      simpa using hhead
    have hsub : (b :: post).Sublist l := hdrop ▸ List.dropWhile_sublist _
    rw [hdrop] at ha
    obtain rfl | ha := List.mem_cons.mp ha
    · exact hb hk
    · exact hb (h.row k b a (((List.singleton_sublist.mpr ha).cons_cons b).trans hsub |>.cons_cons k) hk)

theorem Hierarchy.apart [DecidableRel above] (mark : α → Prop) (h : Hierarchy above (k :: l)) :
    Apart above mark (k :: l.takeWhile (above k ·)) (l.dropWhile (above k ·)) := by
  obtain ⟨hin, hout⟩ := h.run
  have hsplit : k :: l = (k :: l.takeWhile (above k ·)) ++ l.dropWhile (above k ·) := by
    rw [List.cons_append, List.takeWhile_append_dropWhile]
  intro a ha b hb
  have hal : a ∈ k :: l := hsplit ▸ List.mem_append_left _ ha
  have hbl : b ∈ k :: l := hsplit ▸ List.mem_append_right _ hb
  have hka : above k a := by
    obtain rfl | ha := List.mem_cons.mp ha
    · exact h.refl a hal
    · exact hin a ha
  refine ⟨fun _ hab => hout b hb (h.trans k List.mem_cons_self a hal b hbl hka hab), ?_⟩
  have hordered := h.ordered
  rw [hsplit, List.pairwise_append] at hordered
  exact hordered.2.2 a ha b hb

theorem Hierarchy.apart_cons (h : Hierarchy above (k :: l)) (hk : ¬ mark k) : Apart above mark [k] l := by
  intro a ha b hb
  obtain rfl := List.mem_singleton.mp ha
  exact ⟨fun hm => absurd hm hk, List.rel_of_pairwise_cons h.ordered hb⟩

section Append

variable (h : Apart above mark l l')

include h

theorem covered_append_left (hk : k ∈ l) : Covered above mark (l ++ l') k ↔ Covered above mark l k := by
  constructor
  · rintro ⟨m, hm, hmark, ha⟩
    obtain hm | hm := List.mem_append.mp hm
    · exact ⟨m, hm, hmark, ha⟩
    · exact absurd ha (h k hk m hm).2
  · rintro ⟨m, hm, hrest⟩
    exact ⟨m, List.mem_append_left _ hm, hrest⟩

theorem covered_append_right (hk : k ∈ l') : Covered above mark (l ++ l') k ↔ Covered above mark l' k := by
  constructor
  · rintro ⟨m, hm, hmark, ha⟩
    obtain hm | hm := List.mem_append.mp hm
    · exact absurd ha ((h m hm k hk).1 hmark)
    · exact ⟨m, hm, hmark, ha⟩
  · rintro ⟨m, hm, hrest⟩
    exact ⟨m, List.mem_append_right _ hm, hrest⟩

theorem nearest_append_left (hm : m ∈ l) :
    Nearest above mark (l ++ l') m k ∧ k ∈ l ++ l' ↔ Nearest above mark l m k ∧ k ∈ l := by
  constructor
  · rintro ⟨⟨-, hmark, ha, hall⟩, hk⟩
    obtain hk | hk := List.mem_append.mp hk
    · exact ⟨⟨hm, hmark, ha, fun m' hm' => hall m' (List.mem_append_left _ hm')⟩, hk⟩
    · exact absurd ha ((h m hm k hk).1 hmark)
  · rintro ⟨⟨-, hmark, ha, hall⟩, hk⟩
    refine ⟨⟨List.mem_append_left _ hm, hmark, ha, fun m' hm' hmark' ha' => ?_⟩, List.mem_append_left _ hk⟩
    obtain hm' | hm' := List.mem_append.mp hm'
    · exact hall m' hm' hmark' ha'
    · exact absurd ha' (h k hk m' hm').2

theorem nearest_append_right (hm : m ∈ l') :
    Nearest above mark (l ++ l') m k ∧ k ∈ l ++ l' ↔ Nearest above mark l' m k ∧ k ∈ l' := by
  constructor
  · rintro ⟨⟨-, hmark, ha, hall⟩, hk⟩
    obtain hk | hk := List.mem_append.mp hk
    · exact absurd ha (h k hk m hm).2
    · exact ⟨⟨hm, hmark, ha, fun m' hm' => hall m' (List.mem_append_right _ hm')⟩, hk⟩
  · rintro ⟨⟨-, hmark, ha, hall⟩, hk⟩
    refine ⟨⟨List.mem_append_right _ hm, hmark, ha, fun m' hm' hmark' ha' => ?_⟩, List.mem_append_right _ hk⟩
    obtain hm' | hm' := List.mem_append.mp hm'
    · exact absurd ha' ((h m' hm' k hk).1 hmark')
    · exact hall m' hm' hmark' ha'

variable [DecidableEq α] [DecidableRel above] [DecidablePred mark]

theorem own_append_left (hm : m ∈ l) : own above mark (l ++ l') m = own above mark l m := by
  rw [own, List.filter_append, own]
  have hleft : ∀ k ∈ l, Nearest above mark (l ++ l') m k ↔ Nearest above mark l m k := fun k hk => by
    have hiff := nearest_append_left (k := k) h hm
    rwa [and_iff_left (List.mem_append_left _ hk), and_iff_left hk] at hiff
  have hright : ∀ k ∈ l', ¬ Nearest above mark (l ++ l') m k := fun k hk hn => (h m hm k hk).1 hn.2.1 hn.2.2.1
  have hnil : l'.filter (fun k => Nearest above mark (l ++ l') m k) = [] :=
    List.filter_eq_nil_iff.mpr fun k hk => by simpa using hright k hk
  rw [hnil, List.append_nil]
  exact List.filter_congr fun k hk => by simp only [hleft k hk]

theorem own_append_right (hm : m ∈ l') : own above mark (l ++ l') m = own above mark l' m := by
  rw [own, List.filter_append, own]
  have hright : ∀ k ∈ l', Nearest above mark (l ++ l') m k ↔ Nearest above mark l' m k := fun k hk => by
    have hiff := nearest_append_right (k := k) h hm
    rwa [and_iff_left (List.mem_append_right _ hk), and_iff_left hk] at hiff
  have hleft : ∀ k ∈ l, ¬ Nearest above mark (l ++ l') m k := fun k hk hn => (h k hk m hm).2 hn.2.2.1
  have hnil : l.filter (fun k => Nearest above mark (l ++ l') m k) = [] :=
    List.filter_eq_nil_iff.mpr fun k hk => by simpa using hleft k hk
  rw [hnil, List.nil_append]
  exact List.filter_congr fun k hk => by simp only [hright k hk]

omit [DecidableEq α] in
theorem top_append : top above mark (l ++ l') = top above mark l ++ top above mark l' := by
  rw [top, List.filter_append, top, top]
  congr 1
  · exact List.filter_congr fun k hk => by simp only [covered_append_left h hk]
  · exact List.filter_congr fun k hk => by simp only [covered_append_right h hk]

end Append

/-! ## A marked entry and those below it -/

section Head

variable [DecidableEq α] [DecidableRel above] [DecidablePred mark] (h : Hierarchy above (k :: l)) (hk : mark k)
  (hbelow : ∀ a ∈ l, above k a)

include h hk hbelow

omit [DecidableEq α] in
theorem top_head : top above mark (k :: l) = [] := by
  refine List.filter_eq_nil_iff.mpr fun a ha => ?_
  have hcovered : Covered above mark (k :: l) a := by
    refine ⟨k, List.mem_cons_self, hk, ?_⟩
    obtain rfl | hal := List.mem_cons.mp ha
    · exact h.refl a ha
    · exact hbelow a hal
  simpa using hcovered

theorem own_head : own above mark (k :: l) k = k :: top above mark l := by
  have hself : Nearest above mark (k :: l) k k :=
    ⟨List.mem_cons_self, hk, h.refl k List.mem_cons_self, fun m hm _ ha => ha⟩
  rw [own, List.filter_cons_of_pos (by simpa using hself), top]
  congr 1
  refine List.filter_congr fun a ha => ?_
  rw [Bool.eq_iff_iff, decide_eq_true_iff, decide_eq_true_iff]
  constructor
  · rintro ⟨-, -, -, hall⟩ ⟨m, hm, hmark, hma⟩
    exact List.rel_of_pairwise_cons h.ordered hm (hall m (List.mem_cons_of_mem k hm) hmark hma)
  · intro hno
    refine ⟨List.mem_cons_self, hk, hbelow a ha, fun m hm hmark hma => ?_⟩
    obtain rfl | hm := List.mem_cons.mp hm
    · exact h.refl m List.mem_cons_self
    · exact absurd ⟨m, hm, hmark, hma⟩ hno

theorem own_below (hm : m ∈ l) : own above mark (k :: l) m = own above mark l m := by
  have hnot : ¬ above m k := List.rel_of_pairwise_cons h.ordered hm
  rw [own, List.filter_cons_of_neg (by simpa using fun hn : Nearest above mark (k :: l) m k => hnot hn.2.2.1), own]
  refine List.filter_congr fun a ha => ?_
  rw [Bool.eq_iff_iff, decide_eq_true_iff, decide_eq_true_iff]
  constructor
  · rintro ⟨-, hmark, hma, hall⟩
    exact ⟨hm, hmark, hma, fun m' hm' => hall m' (List.mem_cons_of_mem k hm')⟩
  · rintro ⟨-, hmark, hma, hall⟩
    refine ⟨List.mem_cons_of_mem k hm, hmark, hma, fun m' hm' hmark' hma' => ?_⟩
    obtain rfl | hm' := List.mem_cons.mp hm'
    · exact hbelow m hm
    · exact hall m' hm' hmark' hma'

end Head

/-! ## The first entry -/

section First

variable [DecidableEq α] [DecidableRel above] [DecidablePred mark] (h : Hierarchy above (k :: l))

include h

omit [DecidableEq α] in
theorem top_cons (hk : ¬ mark k) : top above mark (k :: l) = k :: top above mark l := by
  have happend := top_append (h.apart_cons hk)
  have hself : top above mark [k] = [k] := List.filter_eq_self.mpr fun a ha => by
    obtain rfl := List.mem_singleton.mp ha
    have hno : ¬ Covered above mark [a] a := by
      rintro ⟨m, hm, hmark, -⟩
      exact hk (List.mem_singleton.mp hm ▸ hmark)
    simpa using hno
  rwa [hself] at happend

theorem own_cons (hk : ¬ mark k) (hm : m ∈ l) : own above mark (k :: l) m = own above mark l m :=
  own_append_right (h.apart_cons hk) hm

omit [DecidableEq α] [DecidablePred mark] h in
theorem split_first : k :: l = (k :: l.takeWhile (above k ·)) ++ l.dropWhile (above k ·) := by
  rw [List.cons_append, List.takeWhile_append_dropWhile]

omit [DecidableEq α] in
theorem top_first (hk : mark k) : top above mark (k :: l) = top above mark (l.dropWhile (above k ·)) := by
  have happend := top_append (h.apart mark)
  have hhead := top_head (h.sublist ((List.takeWhile_sublist _).cons_cons k)) hk h.run.1
  rwa [hhead, ← split_first, List.nil_append] at happend

theorem own_first (hm : m ∈ k :: l.takeWhile (above k ·)) :
    own above mark (k :: l) m = own above mark (k :: l.takeWhile (above k ·)) m := by
  have happend := own_append_left (h.apart mark) hm
  rwa [← split_first] at happend

theorem own_rest (hm : m ∈ l.dropWhile (above k ·)) :
    own above mark (k :: l) m = own above mark (l.dropWhile (above k ·)) m := by
  have happend := own_append_right (h.apart mark) hm
  rwa [← split_first] at happend

end First

/-! ## Belonging -/

theorem Hierarchy.exists_nearest (h : Hierarchy above l) (hkl : k ∈ l) : ∀ {l' : List α}, l'.Sublist l →
    Covered above mark l' k → ∃ m, Nearest above mark l' m k
  | [], _, hk => by
    obtain ⟨m, hm, -⟩ := hk
    cases hm
  | a :: l', hl, hk => by
    have ha := hl.subset List.mem_cons_self
    have hl' := (List.sublist_cons_self a l').trans hl
    by_cases hcovered : Covered above mark l' k
    · obtain ⟨m, hm, hmark, hma, hall⟩ := h.exists_nearest hkl hl' hcovered
      refine ⟨m, List.mem_cons_of_mem a hm, hmark, hma, fun m' hm' hmark' hma' => ?_⟩
      obtain rfl | hm' := List.mem_cons.mp hm'
      · exact (h.chain m' ha m (hl'.subset hm) k hkl hma' hma).resolve_right
          (List.rel_of_pairwise_cons (h.ordered.sublist hl) hm)
      · exact hall m' hm' hmark' hma'
    · obtain ⟨m, hm, hmark, hma⟩ := hk
      obtain rfl | hm := List.mem_cons.mp hm
      · refine ⟨m, List.mem_cons_self, hmark, hma, fun m' hm' hmark' hma' => ?_⟩
        obtain rfl | hm' := List.mem_cons.mp hm'
        · exact h.refl m' ha
        · exact absurd ⟨m', hm', hmark', hma'⟩ hcovered
      · exact absurd ⟨m, hm, hmark, hma⟩ hcovered

theorem Hierarchy.antisymm (h : Hierarchy above l) (ha : a ∈ l) (hm : m ∈ l) (h1 : above a m) (h2 : above m a) :
    a = m := by
  by_contra hne
  have hsymm : Std.Symm fun a b => ¬ (above a b ∧ above b a) := ⟨fun _ _ h h' => h h'.symm⟩
  have hpair : l.Pairwise fun a b => ¬ (above a b ∧ above b a) := h.ordered.imp fun hab h' => hab h'.2
  exact hpair.forall ha hm hne ⟨h1, h2⟩

/-- **What is at or below a marked entry belongs to just one.** -/
theorem existsUnique_nearest (h : Hierarchy above l) (hkl : k ∈ l) (hk : Covered above mark l k) :
    ∃! m, Nearest above mark l m k := by
  obtain ⟨m, hm⟩ := h.exists_nearest hkl (List.Sublist.refl l) hk
  refine ⟨m, hm, fun m' hm' => ?_⟩
  exact h.antisymm hm'.1 hm.1 (hm.2.2.2 m' hm'.1 hm'.2.1 hm'.2.2.1) (hm'.2.2.2 m hm.1 hm.2.1 hm.2.2.1)

theorem length_filter_or {p q : α → Bool} : ∀ {l : List α}, (∀ k ∈ l, p k = true → q k = false) →
    (l.filter fun k => p k || q k).length = (l.filter p).length + (l.filter q).length
  | [], _ => rfl
  | k :: l, h => by
    have ih := length_filter_or fun a ha => h a (List.mem_cons_of_mem k ha)
    cases hp : p k with
    | true =>
      have hq := h k List.mem_cons_self hp
      simp only [List.filter_cons, hp, hq, Bool.true_or, if_true, Bool.false_eq_true, if_false, List.length_cons, ih]
      omega
    | false =>
      cases hq : q k with
      | true =>
        simp only [List.filter_cons, hp, hq, Bool.false_or, if_true, Bool.false_eq_true, if_false,
          List.length_cons, ih]
        omega
      | false => simp only [List.filter_cons, hp, hq, Bool.false_or, Bool.false_eq_true, if_false, ih]

theorem sum_classes {r : α → α → Bool} {l : List α} : ∀ {ms : List α}, ms.Nodup →
    (∀ m ∈ ms, ∀ m' ∈ ms, ∀ k ∈ l, r m k = true → r m' k = true → m = m') →
    (ms.map fun m => (l.filter (r m)).length).sum = (l.filter fun k => ms.any fun m => r m k).length
  | [], _, _ => by
    rw [List.filter_eq_nil_iff.mpr fun k _ => by simp]
    rfl
  | m :: ms, hnodup, h => by
    obtain ⟨hne, hnodup⟩ := List.nodup_cons.mp hnodup
    have ih := sum_classes hnodup fun a ha b hb =>
      h a (List.mem_cons_of_mem m ha) b (List.mem_cons_of_mem m hb)
    rw [List.map_cons, List.sum_cons, ih, ← length_filter_or]
    · rfl
    · intro k hk hm
      refine Bool.eq_false_iff.mpr fun hany => ?_
      obtain ⟨m', hm', hr⟩ := List.any_eq_true.mp hany
      exact hne (h m List.mem_cons_self m' (List.mem_cons_of_mem m hm') k hk hm hr ▸ hm')

/-- **Each entry at or below a marked one is counted once.** -/
theorem sum_own [DecidableEq α] [DecidableRel above] [DecidablePred mark] 
    (h : Hierarchy above l) (hnodup : l.Nodup) :
    ((l.filter fun m => mark m).map fun m => (own above mark l m).length).sum =
      (l.filter fun k => Covered above mark l k).length := by
  have hsum := @sum_classes α (fun m k => decide (Nearest above mark l m k)) l (l.filter fun m => mark m)
    (hnodup.filter _) fun m _ m' _ k hk hm hm' => by
      rw [decide_eq_true_iff] at hm hm'
      exact (existsUnique_nearest h hk ⟨m, hm.1, hm.2.1, hm.2.2.1⟩).unique hm hm'
  refine hsum.trans (congrArg List.length (List.filter_congr fun k hk => ?_))
  rw [Bool.eq_iff_iff, List.any_eq_true, decide_eq_true_iff]
  constructor
  · rintro ⟨m, -, hm⟩
    rw [decide_eq_true_iff] at hm
    exact ⟨m, hm.1, hm.2.1, hm.2.2.1⟩
  · intro hcovered
    obtain ⟨m, hm⟩ := h.exists_nearest hk (List.Sublist.refl l) hcovered
    exact ⟨m, List.mem_filter.mpr ⟨hm.1, decide_eq_true hm.2.1⟩, decide_eq_true hm⟩

end Nested
