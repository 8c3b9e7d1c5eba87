import Mathlib.Tactic

/-!
# The levels of a key name

A key name is a `/`-separated list of levels; a backslash run of odd length keeps the separator
behind it inside the level, and repeated separators count once.

* `keyNameGetOneLevel`, `levels`: the scanner, and the loop that all name functions run over it;
* `IsLevel`, `Closed`: a level, and one that a separator may follow;
* **`levels_cons`**, `levels_join`: the levels of a concatenation;
* `isLevel_of_mem`, **`closed_of_mem`**: what the scanner answers.
-/

namespace Elektra

/-- A string as the bytes before its final NUL. -/
abbrev Str := List UInt8

/-- The bytes of a literal. -/
def str (s : String) : Str := s.toList.map fun c => UInt8.ofNat c.toNat

/-- A C string: it holds no NUL. -/
abbrev CString := {s : Str // 0 ∉ s}

/-- `isspace` of the C locale -/
def isspace (c : UInt8) : Bool := c = 32 || (9 ≤ c && c ≤ 13)

/-- `KDB_PATH_SEPARATOR` -/
def pathSeparator : UInt8 := 47

/-- `KDB_PATH_ESCAPE` -/
def pathEscape : UInt8 := 92

/-- The cursor of `keyNameGetOneLevel`, with the count of backslashes just read: the bytes up to a
separator that an even number of them precedes. -/
def levelSize : ℕ → Str → ℕ
  | _, [] => 0
  | escapeCount, c :: s =>
    if c = pathEscape then levelSize (escapeCount + 1) s + 1
    else if c = pathSeparator ∧ escapeCount % 2 = 0 then 0
    else levelSize 0 s + 1

/-- The string from the next level on, and the size of that level. -/
def keyNameGetOneLevel (name : Str) : Str × ℕ :=
  let real := name.dropWhile (· = pathSeparator)
  (real, levelSize 0 real)

/-- The loop `while (*(p = keyNameGetOneLevel (p + size, &size)))`. -/
def levelsLoop : ℕ → Str → List Str
  | 0, _ => []
  | fuel + 1, p =>
    match keyNameGetOneLevel p with
    | ([], _) => []
    | (real, size) => real.take size :: levelsLoop fuel (real.drop size)

/-- The levels of a name; every round reads a byte, so its length bounds the rounds. -/
def levels (name : Str) : List Str := levelsLoop name.length name

example : levels [pathSeparator] = [] := by
  rw [levels, List.length_singleton, levelsLoop, keyNameGetOneLevel]
  rfl

/-! ## Levels -/

/-- The number of backslashes at the end, after `n` of them. -/
def escAfter : ℕ → Str → ℕ
  | n, [] => n
  | n, c :: s => if c = pathEscape then escAfter (n + 1) s else escAfter 0 s

/-- No separator of `s`, read after `n` backslashes, ends a level. -/
def Unbroken : ℕ → Str → Prop
  | _, [] => True
  | n, c :: s =>
    if c = pathEscape then Unbroken (n + 1) s else (c = pathSeparator → n % 2 = 1) ∧ Unbroken 0 s

example (n : ℕ) : Unbroken n [pathEscape] := by
  rw [Unbroken, if_pos rfl, Unbroken]
  trivial

/-- `p` is a level: not empty, and the scanner reads all of it. -/
structure IsLevel (p : Str) : Prop where
  ne_nil : p ≠ []
  unbroken : Unbroken 0 p

/-- A separator behind `p` is a separator. -/
def Closed (p : Str) : Prop := escAfter 0 p % 2 = 0

theorem separator_ne_escape : pathSeparator ≠ pathEscape := by decide

@[simp] theorem escAfter_nil (n : ℕ) : escAfter n [] = n := rfl

theorem escAfter_append (s t : Str) : ∀ n, escAfter n (s ++ t) = escAfter (escAfter n s) t := by
  induction s with
  | nil => simp
  | cons c s ih =>
    intro n
    simp only [List.cons_append, escAfter]
    split_ifs <;> exact ih _

theorem unbroken_append (s t : Str) :
    ∀ n, Unbroken n (s ++ t) ↔ Unbroken n s ∧ Unbroken (escAfter n s) t := by
  induction s with
  | nil => simp [Unbroken]
  | cons c s ih =>
    intro n
    simp only [List.cons_append, Unbroken, escAfter]
    split_ifs with hc
    · exact ih _
    · rw [ih, and_assoc]

theorem IsLevel.cons {p : Str} (h : IsLevel p) : ∃ c s, p = c :: s ∧ c ≠ pathSeparator := by
  obtain ⟨hne, hu⟩ := h
  cases p with
  | nil => exact absurd rfl hne
  | cons c s =>
    refine ⟨c, s, rfl, fun hc => ?_⟩
    subst hc
    simp [Unbroken, separator_ne_escape] at hu

theorem levelSize_append {s t : Str} : ∀ {n}, Unbroken n s →
    levelSize n (s ++ t) = s.length + levelSize (escAfter n s) t := by
  induction s with
  | nil => simp
  | cons c s ih =>
    intro n hu
    simp only [Unbroken] at hu
    simp only [List.cons_append, levelSize, escAfter, List.length_cons]
    split_ifs at hu ⊢ with hc hs
    · rw [ih hu]; omega
    · have := hu.1 hs.1
      omega
    · rw [ih hu.2]; omega

theorem unbroken_take : ∀ (s : Str) (n : ℕ), Unbroken n (s.take (levelSize n s))
  | [], _ => trivial
  | c :: s, n => by
    simp only [levelSize]
    split_ifs with hc hs
    · simpa [Unbroken, hc] using unbroken_take s (n + 1)
    · trivial
    · simp only [List.take_succ_cons, Unbroken, if_neg hc]
      refine ⟨fun he => ?_, unbroken_take s 0⟩
      by_contra hodd
      exact hs ⟨he, by omega⟩

/-- Behind a level there is nothing, or a separator after an even number of backslashes. -/
theorem drop_levelSize : ∀ (s : Str) (n : ℕ), s.drop (levelSize n s) = [] ∨
    ∃ t, s.drop (levelSize n s) = pathSeparator :: t ∧ escAfter n (s.take (levelSize n s)) % 2 = 0
  | [], _ => Or.inl rfl
  | c :: s, n => by
    simp only [levelSize]
    split_ifs with hc hs
    · simpa [escAfter, hc] using drop_levelSize s (n + 1)
    · exact Or.inr ⟨s, by simp [hs.1], by simpa using hs.2⟩
    · simpa [escAfter, hc] using drop_levelSize s 0

/-! ## The loop -/

theorem levelSize_pos {c : UInt8} {s : Str} (hc : c ≠ pathSeparator) : 0 < levelSize 0 (c :: s) := by
  simp only [levelSize]
  split_ifs with h1 h2
  · omega
  · exact absurd h2.1 hc
  · omega

theorem dropWhile_cons (name : Str) : name.dropWhile (· = pathSeparator) = [] ∨
    ∃ c s, name.dropWhile (· = pathSeparator) = c :: s ∧ c ≠ pathSeparator := by
  cases h : name.dropWhile (· = pathSeparator) with
  | nil => exact Or.inl rfl
  | cons c s =>
    have := List.head_dropWhile_not (fun x => decide (x = pathSeparator)) (l := name) (by simp [h])
    simp only [h, List.head_cons, decide_eq_false_iff_not] at this
    exact Or.inr ⟨c, s, rfl, this⟩

theorem levelsLoop_eq : ∀ {fuel fuel' : ℕ} {p : Str}, p.length ≤ fuel → p.length ≤ fuel' →
    levelsLoop fuel p = levelsLoop fuel' p
  | 0, 0, _, _, _ => rfl
  | 0, fuel' + 1, p, h, _ => by
    obtain rfl : p = [] := List.eq_nil_of_length_eq_zero (by omega)
    rfl
  | fuel + 1, 0, p, _, h => by
    obtain rfl : p = [] := List.eq_nil_of_length_eq_zero (by omega)
    rfl
  | fuel + 1, fuel' + 1, p, h, h' => by
    simp only [levelsLoop, keyNameGetOneLevel]
    have hle := (List.dropWhile_sublist (fun x => decide (x = pathSeparator)) (l := p)).length_le
    rcases dropWhile_cons p with he | ⟨c, s, he, hc⟩
    · rw [he]
    · rw [he] at hle ⊢
      have hpos := levelSize_pos (s := s) hc
      dsimp only
      rw [@levelsLoop_eq fuel fuel']
      all_goals
        rw [List.length_drop]
        omega

@[simp] theorem levels_nil : levels [] = [] := rfl

theorem levels_separators {p : Str} (h : p.dropWhile (· = pathSeparator) = []) : levels p = [] := by
  rw [levels, levelsLoop_eq (Nat.le_refl _) (Nat.le_succ _), levelsLoop, keyNameGetOneLevel, h]

theorem levels_round {p s : Str} {c : UInt8} (h : p.dropWhile (· = pathSeparator) = c :: s) :
    levels p = (c :: s).take (levelSize 0 (c :: s)) ::
      levels ((c :: s).drop (levelSize 0 (c :: s))) := by
  have hle := (List.dropWhile_sublist (fun x => decide (x = pathSeparator)) (l := p)).length_le
  rw [levels, levelsLoop_eq (Nat.le_refl _) (Nat.le_succ _), levelsLoop, keyNameGetOneLevel, h]
  rw [h] at hle
  dsimp only
  rw [levels, levelsLoop_eq _ le_rfl]
  rw [List.length_drop]
  omega

@[simp] theorem levels_separator (p : Str) : levels (pathSeparator :: p) = levels p := by
  have hd : (pathSeparator :: p).dropWhile (· = pathSeparator) = p.dropWhile (· = pathSeparator) := by
    simp
  rcases dropWhile_cons p with h | ⟨c, s, h, -⟩
  · rw [levels_separators h, levels_separators (hd.trans h)]
  · rw [levels_round h, levels_round (hd.trans h)]

/-- **The first level of a level followed by nothing, or by a separator.** -/
theorem levels_cons {p s : Str} (hp : IsLevel p)
    (hs : s = [] ∨ Closed p ∧ ∃ t, s = pathSeparator :: t) : levels (p ++ s) = p :: levels s := by
  obtain ⟨c, q, rfl, hc⟩ := hp.cons
  have hsize : levelSize 0 (c :: q ++ s) = (c :: q).length := by
    rw [levelSize_append hp.unbroken]
    obtain rfl | ⟨hcl, t, rfl⟩ := hs
    · simp [levelSize]
    · have : escAfter 0 (c :: q) % 2 = 0 := hcl
      simp [levelSize, separator_ne_escape, this]
  have hd : (c :: q ++ s).dropWhile (· = pathSeparator) = c :: (q ++ s) := by
    simp [hc]
  rw [levels_round hd, ← List.cons_append, hsize]
  simp

/-- Levels, each after a separator. -/
def join (ps : List Str) : Str := ps.flatMap (pathSeparator :: ·)

@[simp] theorem join_nil : join [] = [] := rfl

@[simp] theorem join_cons (p : Str) (ps : List Str) : join (p :: ps) = pathSeparator :: p ++ join ps :=
  rfl

theorem join_append (ps qs : List Str) : join (ps ++ qs) = join ps ++ join qs := by
  simp [join]

theorem join_cases (ps : List Str) : join ps = [] ∨ ∃ t, join ps = pathSeparator :: t := by
  cases ps with
  | nil => exact Or.inl rfl
  | cons p ps => exact Or.inr ⟨_, rfl⟩

theorem levels_level_join {p : Str} {ps : List Str} (hp : IsLevel p) (hc : Closed p) :
    levels (p ++ join ps) = p :: levels (join ps) :=
  levels_cons hp ((join_cases ps).imp id fun h => ⟨hc, h⟩)

theorem levels_join {ps : List Str} (h : ∀ p ∈ ps, IsLevel p ∧ Closed p) :
    levels (join ps) = ps := by
  induction ps with
  | nil => rfl
  | cons p ps ih =>
    rw [join_cons, List.cons_append, levels_separator,
      levels_level_join (h p (by simp)).1 (h p (by simp)).2, ih fun q hq => h q (by simp [hq])]

/-! ## What the scanner answers -/

theorem levels_induction {motive : Str → Prop} (nil : motive [])
    (sep : ∀ s, motive s → motive (pathSeparator :: s))
    (level : ∀ p s, IsLevel p → (s = [] ∨ Closed p ∧ ∃ t, s = pathSeparator :: t) → motive s →
      motive (p ++ s)) (s : Str) : motive s := by
  induction hn : s.length using Nat.strong_induction_on generalizing s with
  | _ n ih =>
    match s, hn with
    | [], _ => exact nil
    | c :: q, hn =>
      simp only [List.length_cons] at hn
      by_cases hc : c = pathSeparator
      · subst hc
        exact sep q (ih q.length (by omega) q rfl)
      · have hpos := levelSize_pos (s := q) hc
        rw [← List.take_append_drop (levelSize 0 (c :: q)) (c :: q)]
        refine level _ _ ⟨?_, unbroken_take _ 0⟩ ?_ (ih _ ?_ _ rfl)
        · obtain ⟨m, hm⟩ := Nat.exists_eq_succ_of_ne_zero hpos.ne'
          simp [hm]
        · exact (drop_levelSize (c :: q) 0).imp id fun ⟨t, ht, he⟩ => ⟨he, t, ht⟩
        · rw [List.length_drop, List.length_cons]
          omega

theorem isLevel_of_mem {s p : Str} : p ∈ levels s → IsLevel p := by
  induction s using levels_induction with
  | nil => simp
  | sep s ih => simpa using ih
  | level q s hq hs ih =>
    rw [levels_cons hq hs, List.mem_cons]
    rintro (rfl | hp)
    · exact hq
    · exact ih hp

/-- **Every level of a string that does not end in an odd run of backslashes may be followed by a
separator.** -/
theorem closed_of_mem {s p : Str} : Closed s → p ∈ levels s → Closed p := by
  induction s using levels_induction with
  | nil => simp
  | sep s ih =>
    intro hs hp
    refine ih ?_ (by simpa using hp)
    simpa [Closed, escAfter, separator_ne_escape] using hs
  | level q s hq hs ih =>
    intro hcl
    rw [levels_cons hq hs, List.mem_cons]
    rintro (rfl | hp)
    · obtain rfl | h := hs
      · simpa using hcl
      · exact h.1
    · refine ih ?_ hp
      obtain rfl | ⟨hc, t, rfl⟩ := hs
      · simp [Closed]
      · simpa [Closed, escAfter_append, escAfter, separator_ne_escape] using hcl

theorem subset_of_mem {s p : Str} : p ∈ levels s → p ⊆ s := by
  induction s using levels_induction with
  | nil => simp
  | sep s ih =>
    intro hp
    exact fun c hc => List.mem_cons_of_mem _ (ih (by simpa using hp) hc)
  | level q s hq hs ih =>
    rw [levels_cons hq hs, List.mem_cons]
    rintro (rfl | hp)
    · exact List.subset_append_left _ _
    · exact List.Subset.trans (ih hp) (List.subset_append_right _ _)

end Elektra
