import Mathlib.Data.List.TakeWhile
import Mathlib.Tactic

/-!
# The first run of a list

Cutting the first run of entries that satisfy `p` out of a list takes all of them exactly when they
are contiguous.

* `firstRun`, `besides`, `Contiguous`;
* **`besides_eq_filter_iff`**, `firstRun_eq_filter`;
* `prefix_of_between`: in the lexicographic order, the lists with a common prefix are contiguous.
-/

namespace Run

section List

variable {α : Type} (p : α → Bool)

/-- The first entries in a row that satisfy `p`. -/
def firstRun (l : List α) : List α := (l.dropWhile fun a => !p a).takeWhile p

/-- What is left without them. -/
def besides (l : List α) : List α :=
  (l.takeWhile fun a => !p a) ++ (l.dropWhile fun a => !p a).dropWhile p

/-- What stands between two entries that satisfy `p` satisfies `p`. -/
def Contiguous (l : List α) : Prop := ∀ a b c, [a, b, c].Sublist l → p a → p c → p b

variable {p}

theorem run_append (l : List α) :
    l = (l.takeWhile fun a => !p a) ++ (firstRun p l ++ (l.dropWhile fun a => !p a).dropWhile p) := by
  rw [firstRun, List.takeWhile_append_dropWhile, List.takeWhile_append_dropWhile]

theorem firstRun_sublist (l : List α) : (firstRun p l).Sublist l :=
  (List.takeWhile_sublist p).trans (List.dropWhile_sublist _)

theorem besides_sublist (l : List α) : (besides p l).Sublist l := by
  conv_rhs => rw [run_append (p := p) l]
  exact (List.Sublist.refl _).append (List.sublist_append_right _ _)

theorem of_mem_firstRun {l : List α} {a : α} (h : a ∈ firstRun p l) : p a = true :=
  List.mem_takeWhile_imp h

theorem mem_before {l : List α} {a : α} (h : a ∈ l.takeWhile fun a => !p a) : p a = false := by
  simpa using List.mem_takeWhile_imp h

theorem mem_besides {l : List α} {a : α} (h : a ∈ l) (ha : p a = false) : a ∈ besides p l := by
  rw [run_append l, List.mem_append, List.mem_append] at h
  obtain h | h | h := h
  · exact List.mem_append_left _ h
  · exact absurd (of_mem_firstRun h) (by simp [ha])
  · exact List.mem_append_right _ h

theorem mem_firstRun_or {l : List α} {a : α} (h : a ∈ l) : a ∈ firstRun p l ∨ a ∈ besides p l := by
  rw [run_append l, List.mem_append, List.mem_append] at h
  obtain h | h | h := h
  · exact Or.inr (List.mem_append_left _ h)
  · exact Or.inl h
  · exact Or.inr (List.mem_append_right _ h)

theorem not_mem_firstRun {l : List α} (h : l.Nodup) {a : α} (ha : a ∈ besides p l) :
    a ∉ firstRun p l := by
  rw [run_append (p := p) l, List.nodup_append', List.nodup_append'] at h
  obtain ⟨-, ⟨-, -, hafter⟩, hbefore⟩ := h
  intro hrun
  obtain ha | ha := List.mem_append.mp ha
  · exact hbefore ha (List.mem_append_left _ hrun)
  · exact hafter hrun ha

theorem mem_firstRun_of_first : ∀ {l : List α} {a : α}, a ∈ l → p a = true →
    (∀ b, [b, a].Sublist l → p b = false) → a ∈ firstRun p l
  | b :: l, a, ha, hp, hfirst => by
    by_cases hb : p b = true
    · obtain rfl | ha := List.mem_cons.mp ha
      · simp [firstRun, hp]
      · have := hfirst b ((List.singleton_sublist.mpr ha).cons_cons b)
        simp [this] at hb
    · have hne : a ≠ b := by
        rintro rfl
        exact hb hp
      have ih := mem_firstRun_of_first ((List.mem_cons.mp ha).resolve_left hne) hp
        fun c hc => hfirst c (hc.cons b)
      rwa [firstRun, List.dropWhile_cons_of_pos (by simpa using hb)]

theorem mem_takeWhile_of : ∀ {l : List α} {a : α}, a ∈ l → p a = true → (∀ b, [b, a].Sublist l → p b = true) →
    a ∈ l.takeWhile p
  | b :: l, a, ha, hp, hbefore => by
    obtain rfl | ha := List.mem_cons.mp ha
    · rw [List.takeWhile_cons_of_pos hp]
      exact List.mem_cons_self
    · rw [List.takeWhile_cons_of_pos (hbefore b ((List.singleton_sublist.mpr ha).cons_cons b))]
      exact List.mem_cons_of_mem b (mem_takeWhile_of ha hp fun c hc => hbefore c (hc.cons b))

/-- An entry that satisfies `p`, with no gap between it and another one, is in the first run. -/
theorem mem_firstRun_of_between : ∀ {l : List α} {c : α}, c ∈ l → p c = true →
    (∀ a b, [a, b, c].Sublist l → p a = true → p b = true) → c ∈ firstRun p l
  | x :: l, c, hc, hp, hgap => by
    by_cases hx : p x = true
    · rw [firstRun, List.dropWhile_cons_of_neg (by simp [hx]), List.takeWhile_cons_of_pos hx]
      obtain rfl | hc := List.mem_cons.mp hc
      · exact List.mem_cons_self
      · exact List.mem_cons_of_mem x (mem_takeWhile_of hc hp fun b hb => hgap x b (hb.cons_cons x) hx)
    · have hne : c ≠ x := by
        rintro rfl
        exact hx hp
      have ih := mem_firstRun_of_between ((List.mem_cons.mp hc).resolve_left hne) hp
        fun a b hab => hgap a b (hab.cons x)
      rwa [firstRun, List.dropWhile_cons_of_pos (by simpa using hx)]

theorem takeWhile_congr {q : α → Bool} : ∀ {l : List α}, (∀ a ∈ l, p a = q a) → l.takeWhile p = l.takeWhile q
  | [], _ => rfl
  | a :: l, h => by
    rw [List.takeWhile_cons, List.takeWhile_cons, h a List.mem_cons_self,
      takeWhile_congr fun b hb => h b (List.mem_cons_of_mem a hb)]

theorem firstRun_congr {q : α → Bool} : ∀ {l : List α}, (∀ a ∈ l, p a = q a) → firstRun p l = firstRun q l
  | [], _ => rfl
  | x :: l, h => by
    have hx := h x List.mem_cons_self
    have hl := fun a ha => h a (List.mem_cons_of_mem x ha)
    by_cases hp : p x = true
    · rw [firstRun, firstRun, List.dropWhile_cons_of_neg (by simp [hp]),
        List.dropWhile_cons_of_neg (by simp [← hx, hp]), takeWhile_congr h]
    · have hrest := firstRun_congr hl
      rw [firstRun, firstRun] at hrest ⊢
      rwa [List.dropWhile_cons_of_pos (by simpa using hp), List.dropWhile_cons_of_pos (by simpa [← hx] using hp)]

theorem of_mem_takeWhile : ∀ {l : List α} {b c : α}, l.Nodup → [b, c].Sublist l →
    c ∈ l.takeWhile p → p b = true
  | a :: l, b, c, hn, hs, hc => by
    obtain ⟨ha, hn⟩ := List.nodup_cons.mp hn
    by_cases hp : p a = true
    · rw [List.takeWhile_cons_of_pos hp] at hc
      obtain hs' | ⟨r, hr, -⟩ := List.sublist_cons_iff.mp hs
      · refine of_mem_takeWhile hn hs' ((List.mem_cons.mp hc).resolve_left ?_)
        rintro rfl
        exact ha (hs'.subset (List.mem_cons_of_mem b List.mem_cons_self))
      · obtain ⟨rfl, -⟩ := List.cons.inj hr
        exact hp
    · rw [List.takeWhile_cons_of_neg hp] at hc
      exact absurd hc List.not_mem_nil

theorem not_mem_firstRun_of_gap : ∀ {l : List α} {a b c : α}, l.Nodup → [a, b, c].Sublist l →
    p a = true → p b = false → c ∉ firstRun p l
  | x :: l, a, b, c, hn, hs, ha, hb => by
    intro hc
    by_cases hx : p x = true
    · rw [firstRun, List.dropWhile_cons_of_neg (by simp [hx])] at hc
      have := of_mem_takeWhile hn ((List.sublist_cons_self a [b, c]).trans hs) hc
      simp [hb] at this
    · rw [firstRun, List.dropWhile_cons_of_pos (by simpa using hx)] at hc
      obtain hs | ⟨r, hr, -⟩ := List.sublist_cons_iff.mp hs
      · exact not_mem_firstRun_of_gap (List.nodup_cons.mp hn).2 hs ha hb hc
      · obtain ⟨rfl, -⟩ := List.cons.inj hr
        exact hx ha

/-- A list of entries without `p`, entries with `p` and entries without `p` is contiguous. -/
theorem contiguous_append {a b c : List α} (ha : ∀ x ∈ a, p x = false) (hb : ∀ x ∈ b, p x = true)
    (hc : ∀ x ∈ c, p x = false) : Contiguous p (a ++ (b ++ c)) := by
  intro x y z hl hx hz
  obtain ⟨s, t, hst, hs, ht⟩ := List.sublist_append_iff.mp hl
  cases s with
  | cons x' s =>
    obtain ⟨rfl, -⟩ := List.cons.inj hst
    have := ha x (hs.subset List.mem_cons_self)
    simp [this] at hx
  | nil =>
    obtain rfl : [x, y, z] = t := hst
    obtain ⟨s, t, hst, hs, ht⟩ := List.sublist_append_iff.mp ht
    rcases List.eq_nil_or_concat t with rfl | ⟨t, z', rfl⟩
    · rw [List.append_nil] at hst
      exact hb y (hs.subset (by simp [← hst]))
    · have hlast := congrArg List.getLast? hst
      simp only [List.concat_eq_append, ← List.append_assoc, List.getLast?_concat] at hlast
      obtain rfl : z = z' := by simpa using hlast
      have := hc z (ht.subset (by simp))
      simp [this] at hz

/-- In a contiguous list, nothing behind the first run satisfies `p`. -/
theorem Contiguous.behind {l : List α} (h : Contiguous p l) :
    ∀ a ∈ (l.dropWhile fun a => !p a).dropWhile p, p a = false := by
  have hrun := run_append (p := p) l
  rw [firstRun] at hrun
  cases hd : l.dropWhile fun a => !p a with
  | nil => simp
  | cons e t =>
    have he : p e = true := by
      have := List.head?_dropWhile_not (fun a => !p a) l
      rw [hd] at this
      simpa using this
    rw [hd, List.takeWhile_cons_of_pos he] at hrun
    rw [List.dropWhile_cons_of_pos he]
    rw [List.dropWhile_cons_of_pos he] at hrun
    cases hc : t.dropWhile p with
    | nil => simp
    | cons x t' =>
      have hx : p x = false := by
        have := List.head?_dropWhile_not p t
        rw [hc] at this
        simpa using this
      intro y hy
      by_contra hpy
      obtain rfl | hy := List.mem_cons.mp hy
      · exact hpy hx
      · have hsub : [e, x, y].Sublist l := by
          rw [hrun, hc]
          refine List.Sublist.trans ?_ (List.sublist_append_right _ _)
          rw [List.cons_append]
          refine List.Sublist.cons_cons e (List.Sublist.trans ?_ (List.sublist_append_right _ _))
          exact List.Sublist.cons_cons x (List.singleton_sublist.mpr hy)
        have := h e x y hsub he (by simpa using hpy)
        simp [hx] at this

/-- **The rest is what does not satisfy `p` exactly when the entries that do are contiguous.** -/
theorem besides_eq_filter_iff {l : List α} :
    besides p l = l.filter (fun a => !p a) ↔ Contiguous p l := by
  constructor
  · intro h
    rw [run_append l]
    refine contiguous_append (fun x hx => mem_before hx) (fun x hx => of_mem_firstRun hx) ?_
    intro x hx
    have hmem : x ∈ besides p l := List.mem_append_right _ hx
    rw [h] at hmem
    simpa using (List.mem_filter.mp hmem).2
  · intro h
    have hbehind := h.behind
    conv_rhs => rw [run_append (p := p) l]
    rw [List.filter_append, List.filter_append, besides,
      List.filter_eq_self.mpr fun a ha => by simp [mem_before ha],
      List.filter_eq_nil_iff.mpr fun a ha => by simp [of_mem_firstRun ha],
      List.filter_eq_self.mpr fun a ha => by simp [hbehind a ha], List.nil_append]

theorem firstRun_eq_filter {l : List α} (h : Contiguous p l) : firstRun p l = l.filter p := by
  have hbehind := h.behind
  conv_rhs => rw [run_append (p := p) l]
  rw [List.filter_append, List.filter_append,
    List.filter_eq_nil_iff.mpr fun a ha => by simp [mem_before ha],
    List.filter_eq_self.mpr fun a ha => of_mem_firstRun ha,
    List.filter_eq_nil_iff.mpr fun a ha => by simp [hbehind a ha], List.nil_append, List.append_nil]

end List

/-! ## Lexicographic order -/

theorem prefix_of_between {α : Type} [Ord α] [Std.LawfulEqOrd α] [Std.TransOrd α] :
    ∀ {u a b c : List α}, u <+: a → u <+: c → (compare a b).isLE → (compare b c).isLE → u <+: b
  | [], _, _, _, _, _, _, _ => List.nil_prefix
  | x :: u, a, b, c, ha, hc, hab, hbc => by
    obtain ⟨a, rfl⟩ := ha
    obtain ⟨c, rfl⟩ := hc
    cases b with
    | nil => simp at hab
    | cons y b =>
      rw [List.cons_append, List.compare_cons_cons] at hab hbc
      have hxy := Std.OrientedCmp.isLE_antisymm (Ordering.isLE_left_of_isLE_then hab)
        (Ordering.isLE_left_of_isLE_then hbc)
      obtain rfl : x = y := Std.LawfulEqOrd.eq_of_compare hxy
      rw [hxy, Ordering.eq_then] at hab hbc
      exact List.cons_prefix_cons.mpr
        ⟨rfl, prefix_of_between (List.prefix_append u a) (List.prefix_append u c) hab hbc⟩

theorem eq_of_prefix_of_isLE {α : Type} [Ord α] [Std.LawfulEqOrd α] [Std.TransOrd α] :
    ∀ {a b : List α}, b <+: a → (compare a b).isLE → a = b
  | [], b, hb, _ => (List.prefix_nil.mp hb).symm
  | x :: a, [], _, hab => by simp at hab
  | x :: a, y :: b, hb, hab => by
    obtain ⟨rfl, hpre⟩ := List.cons_prefix_cons.mp hb
    have hself : compare y y = .eq := Std.ReflCmp.compare_self
    rw [List.compare_cons_cons, hself, Ordering.eq_then] at hab
    rw [eq_of_prefix_of_isLE hpre hab]

end Run
