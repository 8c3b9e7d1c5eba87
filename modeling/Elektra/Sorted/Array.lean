import Mathlib.Tactic
import Elektra.Sorted.Bisect

/-!
# Strictly sorted arrays as finite maps

An array of entries `α`, strictly sorted by `key : α → κ` under a comparison `cmp` of keys, is the
finite map sending a key to the entry that carries it.

* `Sorted`, `oracle`, **`ascending_oracle`**: the binary searches apply;
* `lookup`, **`lookup_eq_some`**: membership of the map is membership of the array;
* what opening a gap, overwriting an entry, and dropping entries do to order and map:
  `sorted_gap`, `lookup_gap`, `sorted_set`, `lookup_set`, `lookup_sublist`.
-/

namespace SortedArray

variable {α κ : Type} (key : α → κ) (cmp : κ → κ → Ordering)

/-- Strictly sorted by key. -/
def Sorted (l : List α) : Prop := l.Pairwise fun a b => cmp (key a) (key b) = .lt

/-- The oracle of a search for `k` in `l`. -/
def oracle (l : List α) (k : κ) (i : ℕ) : Ordering := (l[i]?).elim .lt fun a => cmp k (key a)

variable {key cmp}

theorem oracle_eq {l : List α} {k : κ} {i : ℕ} (h : i < l.length) :
    oracle key cmp l k i = cmp k (key l[i]) := by
  simp [oracle, h]

theorem Sorted.sublist {l l' : List α} (h : Sorted key cmp l) (hl : l'.Sublist l) :
    Sorted key cmp l' := List.Pairwise.sublist hl h

theorem sorted_nil : Sorted key cmp [] := List.Pairwise.nil

theorem Sorted.congr {key' : α → κ} {l : List α} (h : Sorted key cmp l)
    (hk : ∀ a ∈ l, key' a = key a) : Sorted key' cmp l :=
  List.Pairwise.imp_of_mem (fun ha hb hlt => by rw [hk _ ha, hk _ hb]; exact hlt) h

theorem ne_of_cmp [Std.ReflCmp cmp] {a b : κ} {o : Ordering} (h : cmp a b = o) (ho : o ≠ .eq) :
    a ≠ b := by
  rintro rfl
  exact ho (h.symm.trans Std.ReflCmp.compare_self)

theorem key_ne_of_lt [Std.ReflCmp cmp] {a b : α} (h : cmp (key a) (key b) = .lt) :
    key a ≠ key b := ne_of_cmp h (by decide)

/-- A search oracle of a weakly sorted array is ascending; strictness is not needed. -/
theorem ascending_oracle [Std.TransCmp cmp] {l : List α}
    (h : l.Pairwise fun a b => (cmp (key a) (key b)).isLE) (k : κ) :
    Bisect.Ascending (oracle key cmp l k) l.length := by
  have hle : ∀ i j (hi : i < l.length) (hj : j < l.length), i ≤ j →
      (cmp (key l[i]) (key l[j])).isLE := by
    intro i j hi hj hij
    rcases Nat.lt_or_eq_of_le hij with hlt | rfl
    · exact List.pairwise_iff_getElem.mp h i j hi hj hlt
    · exact Std.ReflCmp.isLE_rfl
  constructor
  · intro i j hij hj hgt
    rw [oracle_eq hj] at hgt
    rw [oracle_eq (by omega)]
    have hlt := Std.OrientedCmp.gt_iff_lt.mp hgt
    exact Std.OrientedCmp.gt_iff_lt.mpr
      (Std.TransCmp.lt_of_isLE_of_lt (hle i j (by omega) hj hij) hlt)
  · intro i j hij hj hlt
    rw [oracle_eq (by omega)] at hlt
    rw [oracle_eq hj]
    exact Std.TransCmp.lt_of_lt_of_isLE hlt (hle i j (by omega) hj hij)

theorem Sorted.ascending [Std.TransCmp cmp] {l : List α} (h : Sorted key cmp l) (k : κ) :
    Bisect.Ascending (oracle key cmp l k) l.length :=
  ascending_oracle (h.imp fun hlt => by simp [hlt]) k

theorem Sorted.nodup [Std.ReflCmp cmp] {l : List α} (h : Sorted key cmp l) : l.Nodup :=
  h.imp fun hlt he => key_ne_of_lt hlt (congrArg key he)

theorem Sorted.eq_of_mem [Std.TransCmp cmp] {l l' : List α} (h : Sorted key cmp l)
    (h' : Sorted key cmp l') (hm : ∀ a, a ∈ l ↔ a ∈ l') : l = l' := by
  refine ((List.perm_ext_iff_of_nodup h.nodup h'.nodup).mpr hm).eq_of_pairwise ?_ h h'
  intro a b _ _ hab hba
  have hgt := Std.OrientedCmp.gt_iff_lt.mpr hba
  exact absurd (hab.symm.trans hgt) (by decide)

/-! ## The finite map -/

section Lookup

variable [DecidableEq κ]

/-- The entry with key `k`. -/
def lookup (key : α → κ) (l : List α) (k : κ) : Option α := l.find? fun a => key a = k

theorem lookup_nil : lookup key [] = fun _ => none := rfl

theorem lookup_key_congr {key' : α → κ} {l : List α} (hk : ∀ a ∈ l, key' a = key a) :
    lookup key' l = lookup key l := by
  funext k
  exact List.find?_congr fun a ha => by rw [hk a ha]

theorem lookup_eq_none {l : List α} {k : κ} : lookup key l k = none ↔ ∀ a ∈ l, key a ≠ k := by
  simp [lookup, List.find?_eq_none]

/-- **Membership of the map is membership of the array.** -/
theorem lookup_eq_some [Std.TransCmp cmp] {l : List α} (h : Sorted key cmp l) {k : κ} {a : α} :
    lookup key l k = some a ↔ a ∈ l ∧ key a = k := by
  induction l with
  | nil => simp [lookup]
  | cons b l ih =>
    obtain ⟨hb, hl⟩ := List.pairwise_cons.mp h
    by_cases hk : key b = k
    · have hnot : ∀ a ∈ l, key a ≠ k := fun a ha he => key_ne_of_lt (hb a ha) (hk.trans he.symm)
      simp only [lookup, List.find?_cons, hk, decide_true, Option.some.injEq, List.mem_cons]
      constructor
      · rintro rfl; exact ⟨Or.inl rfl, hk⟩
      · rintro ⟨rfl | ha, he⟩
        · rfl
        · exact absurd he (hnot a ha)
    · have ih' := ih hl
      simp only [lookup] at ih'
      simp only [lookup, List.find?_cons, hk, decide_false, ih', List.mem_cons]
      constructor
      · rintro ⟨ha, he⟩; exact ⟨Or.inr ha, he⟩
      · rintro ⟨rfl | ha, he⟩
        · exact absurd he hk
        · exact ⟨ha, he⟩

theorem Sorted.unique [Std.TransCmp cmp] {l : List α} (h : Sorted key cmp l) {a b : α} (ha : a ∈ l)
    (hb : b ∈ l) (he : key a = key b) : a = b := by
  have h1 := (lookup_eq_some h).mpr ⟨ha, he⟩
  have h2 := (lookup_eq_some h).mpr ⟨hb, rfl⟩
  exact Option.some.inj (h1.symm.trans h2)

theorem lookup_sublist [DecidableEq α] [Std.TransCmp cmp] {l l' : List α} (h : Sorted key cmp l)
    (hl : l'.Sublist l) (k : κ) : lookup key l' k = (lookup key l k).filter (· ∈ l') := by
  refine Option.ext fun a => ?_
  rw [lookup_eq_some (h.sublist hl), Option.filter_eq_some_iff, lookup_eq_some h,
    decide_eq_true_iff]
  constructor
  · rintro ⟨ha, he⟩
    exact ⟨⟨hl.subset ha, he⟩, ha⟩
  · rintro ⟨⟨-, he⟩, ha⟩
    exact ⟨ha, he⟩

theorem foldl_update [Std.TransCmp cmp] : ∀ {l : List α}, Sorted key cmp l →
    ∀ m : κ → Option α, (l.foldl (fun m a => Function.update m (key a) (some a)) m) =
      fun k => (lookup key l k).or (m k)
  | [], _, m => by simp [lookup_nil]
  | b :: l, h, m => by
    obtain ⟨hb, hl⟩ := List.pairwise_cons.mp h
    rw [List.foldl_cons, foldl_update hl]
    funext k
    by_cases hk : k = key b
    · subst hk
      have hnone : lookup key l (key b) = none :=
        lookup_eq_none.mpr fun a ha => (key_ne_of_lt (hb a ha)).symm
      rw [hnone, Function.update_self]
      simp [lookup]
    · rw [Function.update_of_ne hk]
      simp [lookup, Ne.symm hk]

theorem lookup_eraseIdx [DecidableEq α] [Std.TransCmp cmp] {l : List α} (h : Sorted key cmp l)
    {i : ℕ} (hi : i < l.length) :
    lookup key (l.eraseIdx i) = Function.update (lookup key l) (key l[i]) none := by
  have hmem : ∀ a, a ∈ l.eraseIdx i ↔ a ∈ l ∧ a ≠ l[i] := by
    intro a
    rw [← h.nodup.erase_getElem i hi, h.nodup.mem_erase_iff, and_comm]
  funext k
  refine Option.ext fun a => ?_
  rw [lookup_eq_some (h.sublist (List.eraseIdx_sublist l i)), hmem]
  by_cases hk : k = key l[i]
  · subst hk
    rw [Function.update_self]
    refine ⟨fun ⟨⟨ha, hne⟩, he⟩ => absurd (h.unique ha (List.getElem_mem hi) he) hne, ?_⟩
    rintro ⟨⟩
  · rw [Function.update_of_ne hk, lookup_eq_some h]
    constructor
    · rintro ⟨⟨ha, -⟩, he⟩
      exact ⟨ha, he⟩
    · rintro ⟨ha, rfl⟩
      exact ⟨⟨ha, fun he => hk (congrArg key he)⟩, rfl⟩

end Lookup

/-! ## Opening a gap, overwriting an entry -/

theorem sorted_gap [Std.TransCmp cmp] {l : List α} (h : Sorted key cmp l) {pos : ℕ} {x : α}
    (hm : Bisect.Missing (oracle key cmp l (key x)) l.length pos) :
    Sorted key cmp (l.take pos ++ x :: l.drop pos) := by
  have hbefore : ∀ a ∈ l.take pos, cmp (key a) (key x) = .lt := by
    intro a ha
    obtain ⟨i, hi, rfl⟩ := List.mem_iff_getElem.mp ha
    rw [List.length_take] at hi
    have := hm.before i (by omega)
    rw [oracle_eq (by omega)] at this
    rw [List.getElem_take]
    exact Std.OrientedCmp.gt_iff_lt.mp this
  have hafter : ∀ a ∈ l.drop pos, cmp (key x) (key a) = .lt := by
    intro a ha
    obtain ⟨i, hi, rfl⟩ := List.mem_iff_getElem.mp ha
    rw [List.length_drop] at hi
    have := hm.after (pos + i) (by omega) (by omega)
    rw [oracle_eq (by omega)] at this
    rw [List.getElem_drop]
    exact this
  have hall := h
  rw [← List.take_append_drop pos l] at hall
  obtain ⟨h1, h2, h3⟩ := List.pairwise_append.mp hall
  refine List.pairwise_append.mpr ⟨h1, List.pairwise_cons.mpr ⟨hafter, h2⟩, fun a ha b hb => ?_⟩
  rcases List.mem_cons.mp hb with rfl | hb
  · exact hbefore a ha
  · exact h3 a ha b hb

theorem mem_gap {l : List α} {pos : ℕ} {x a : α} :
    a ∈ l.take pos ++ x :: l.drop pos ↔ a = x ∨ a ∈ l := by
  conv_rhs => rw [← List.take_append_drop pos l]
  simp only [List.mem_append, List.mem_cons]
  tauto

theorem Missing.not_mem [Std.TransCmp cmp] {l : List α} {pos : ℕ} {k : κ}
    (hm : Bisect.Missing (oracle key cmp l k) l.length pos) : ∀ a ∈ l, key a ≠ k := by
  intro a ha he
  obtain ⟨i, hi, rfl⟩ := List.mem_iff_getElem.mp ha
  rcases Nat.lt_or_ge i pos with hlt | hge
  · have hgt := hm.before i hlt
    rw [oracle_eq hi] at hgt
    exact ne_of_cmp hgt (by decide) he.symm
  · have hlt := hm.after i hge hi
    rw [oracle_eq hi] at hlt
    exact ne_of_cmp hlt (by decide) he.symm

theorem lookup_gap [DecidableEq κ] [Std.TransCmp cmp] {l : List α} (h : Sorted key cmp l) {pos : ℕ}
    {x : α} (hm : Bisect.Missing (oracle key cmp l (key x)) l.length pos) :
    lookup key (l.take pos ++ x :: l.drop pos) = Function.update (lookup key l) (key x) (some x) := by
  funext k
  refine Option.ext fun a => ?_
  rw [lookup_eq_some (sorted_gap h hm), mem_gap]
  by_cases hk : k = key x
  · subst hk
    rw [Function.update_self]
    constructor
    · rintro ⟨rfl | ha, he⟩
      · rfl
      · exact absurd he (Missing.not_mem hm a ha)
    · rintro ⟨⟩; exact ⟨Or.inl rfl, rfl⟩
  · rw [Function.update_of_ne hk, lookup_eq_some h]
    constructor
    · rintro ⟨rfl | ha, he⟩
      · exact absurd he.symm hk
      · exact ⟨ha, he⟩
    · rintro ⟨ha, he⟩; exact ⟨Or.inr ha, he⟩

theorem sorted_set [Std.TransCmp cmp] {l : List α} (h : Sorted key cmp l) {i : ℕ} (hi : i < l.length)
    {x : α} (he : key x = key l[i]) : Sorted key cmp (l.set i x) := by
  refine List.pairwise_iff_getElem.mpr fun a b ha hb hab => ?_
  rw [List.length_set] at ha hb
  have hkey : ∀ j (hj : j < l.length) (hj' : j < (l.set i x).length),
      key (l.set i x)[j] = key l[j] := by
    intro j hj hj'
    rw [List.getElem_set]
    split_ifs with hij
    · subst hij; exact he
    · rfl
  rw [hkey a ha, hkey b hb]
  exact List.pairwise_iff_getElem.mp h a b ha hb hab

theorem lookup_set [DecidableEq κ] [Std.TransCmp cmp] {l : List α} (h : Sorted key cmp l) {i : ℕ}
    (hi : i < l.length) {x : α} (he : key x = key l[i]) :
    lookup key (l.set i x) = Function.update (lookup key l) (key x) (some x) := by
  funext k
  refine Option.ext fun a => ?_
  rw [lookup_eq_some (sorted_set h hi he)]
  have hx : x ∈ l.set i x := List.mem_set hi x
  by_cases hk : k = key x
  · subst hk
    rw [Function.update_self]
    constructor
    · rintro ⟨ha, hak⟩
      rw [(sorted_set h hi he).unique ha hx hak]
    · rintro ⟨⟩; exact ⟨hx, rfl⟩
  · rw [Function.update_of_ne hk, lookup_eq_some h]
    constructor
    · rintro ⟨ha, rfl⟩
      rcases List.mem_or_eq_of_mem_set ha with ha | rfl
      · exact ⟨ha, rfl⟩
      · exact absurd rfl hk
    · rintro ⟨ha, rfl⟩
      obtain ⟨j, hj, rfl⟩ := List.mem_iff_getElem.mp ha
      have hij : i ≠ j := by
        rintro rfl
        exact hk he.symm
      refine ⟨?_, rfl⟩
      rw [← List.getElem_set_ne hij (by simpa using hj)]
      exact List.getElem_mem _

end SortedArray
