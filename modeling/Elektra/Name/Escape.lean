import Elektra.Name.Level

/-!
# Escaping of key name parts

The escaped part stands in the name, the unescaped part in the unescaped name that orders keys.
Both scanners carry the number of backslashes just read; what begins a part (`%`, `.`, `..`, the
empty part) is handled before they start.

* `elektraEscapeKeyNamePart`, `elektraUnescapeKeyName` and their helpers;
* `unescapeLoop_escapeLoop`, `escapeLoop_unescapeLoop`: the scanners from any count on;
* `IsPart`: the parts of canonical names; `isPart_escape`;
* **`unescape_escape`**, **`escape_unescape`**: escaping is a bijection from C strings to parts.
-/

namespace Elektra

/-- What `elektraWriteBackslashes` writes. -/
def elektraWriteBackslashes (number : ℕ) : Str := List.replicate number pathEscape

/-- Escape what begins a part; `none` when that is not all of it. -/
def elektraEscapeKeyNamePartBegin (source : Str) : Option Str :=
  if source = [] then some (str "%")
  else
    let sp := source.dropWhile (· = pathEscape)
    let skippedBackslashes := (source.takeWhile (· = pathEscape)).length
    if sp = str "%" then some (elektraWriteBackslashes skippedBackslashes ++ str "\\%")
    else if sp = str "." then some (elektraWriteBackslashes skippedBackslashes ++ str "\\.")
    else if sp = str ".." then some (elektraWriteBackslashes skippedBackslashes ++ str "\\..")
    else none

/-- The loop of `elektraEscapeKeyNamePart`. -/
def escapeLoop : ℕ → Str → Str
  | count, [] => elektraWriteBackslashes count
  | count, c :: s =>
    if c = pathEscape then c :: escapeLoop (count + 1) s
    else if c = pathSeparator then
      pathEscape :: (elektraWriteBackslashes count ++ c :: escapeLoop 0 s)
    else c :: escapeLoop 0 s

def elektraEscapeKeyNamePart (source : Str) : Str :=
  (elektraEscapeKeyNamePartBegin source).getD (escapeLoop 0 source)

/-- `strncmp (literal, sp, size) == 0`, for the `size` bytes `sp` of a level. -/
def strncmpEq (literal sp : Str) : Bool := sp.isPrefixOf literal

/-- Unescape what begins a part; `none` when that is not all of it. -/
def elektraUnescapeKeyNamePartBegin (source : Str) : Option Str :=
  if strncmpEq (str "%") source then some []
  else
    -- all backslashes but one are skipped
    let skippedBackslashes := (source.takeWhile (· = pathEscape)).length - 1
    let sp := source.drop skippedBackslashes
    if sp.length ≤ 1 then none
    else if strncmpEq (str "\\%") sp then some (elektraWriteBackslashes skippedBackslashes ++ str "%")
    else if strncmpEq (str "\\.") sp then some (elektraWriteBackslashes skippedBackslashes ++ str ".")
    else if sp.length ≤ 2 then none
    else if strncmpEq (str "\\..") sp then
      some (elektraWriteBackslashes skippedBackslashes ++ str "..")
    else none

/-- The loop of `elektraUnescapeKeyNamePart`. -/
def unescapeLoop : ℕ → Str → Str
  | count, [] => elektraWriteBackslashes (count / 2)
  | count, c :: s =>
    if c = pathEscape then unescapeLoop (count + 1) s
    else if c = pathSeparator then elektraWriteBackslashes (count / 2) ++ c :: unescapeLoop 0 s
    else elektraWriteBackslashes count ++ c :: unescapeLoop 0 s

def elektraUnescapeKeyNamePart (source : Str) : Str := unescapeLoop 0 source

/-- What `elektraUnescapeKeyName` does to one level. -/
def unescapeLevel (level : Str) : Str :=
  (elektraUnescapeKeyNamePartBegin level).getD (elektraUnescapeKeyNamePart level)

/-- The unescaped name: every level unescaped and NUL-terminated, and a NUL before those of a
cascading name. -/
def elektraUnescapeKeyName (source : Str) : Str :=
  (if source.head? = some pathSeparator then [0] else []) ++
    (levels source).flatMap fun level => unescapeLevel level ++ [0]

/-! ## Runs of backslashes -/

section Backslashes

variable (k n : ℕ) (s : Str)

@[simp] theorem backslashes_zero : elektraWriteBackslashes 0 = [] := rfl

theorem backslashes_succ :
    elektraWriteBackslashes (k + 1) = pathEscape :: elektraWriteBackslashes k := rfl

theorem backslashes_add : elektraWriteBackslashes (k + n) =
    elektraWriteBackslashes k ++ elektraWriteBackslashes n :=
  (List.replicate_append_replicate ..).symm

theorem backslashes_cons : elektraWriteBackslashes k ++ pathEscape :: s =
    elektraWriteBackslashes (k + 1) ++ s := by
  rw [backslashes_add, List.append_assoc]; rfl

theorem escapeLoop_backslashes : escapeLoop n (elektraWriteBackslashes k ++ s) =
    elektraWriteBackslashes k ++ escapeLoop (n + k) s := by
  induction k generalizing n with
  | zero => simp
  | succ k ih =>
    rw [backslashes_succ, List.cons_append, escapeLoop, if_pos rfl, ih, List.cons_append]
    congr 3
    omega

theorem unescapeLoop_backslashes : unescapeLoop n (elektraWriteBackslashes k ++ s) =
    unescapeLoop (n + k) s := by
  induction k generalizing n with
  | zero => simp
  | succ k ih =>
    rw [backslashes_succ, List.cons_append, unescapeLoop, if_pos rfl, ih]
    congr 1
    omega

theorem escAfter_backslashes : escAfter n (elektraWriteBackslashes k) = n + k := by
  induction k generalizing n with
  | zero => rfl
  | succ k ih => rw [backslashes_succ, escAfter, if_pos rfl, ih]; omega

theorem unbroken_backslashes : Unbroken n (elektraWriteBackslashes k) := by
  induction k generalizing n with
  | zero => trivial
  | succ k ih => rw [backslashes_succ, Unbroken, if_pos rfl]; exact ih _

end Backslashes

/-- `t` does not start with a backslash. -/
def NoRun (t : Str) : Prop := t.head? ≠ some pathEscape

/-- A string is a run of backslashes and a rest that starts with none. -/
theorem exists_run : ∀ s : Str, ∃ k t, NoRun t ∧ s = elektraWriteBackslashes k ++ t
  | [] => ⟨0, [], by simp [NoRun], rfl⟩
  | c :: s => by
    by_cases hc : c = pathEscape
    · obtain ⟨k, t, ht, rfl⟩ := exists_run s
      exact ⟨k + 1, t, ht, by rw [hc, backslashes_succ, List.cons_append]⟩
    · exact ⟨0, c :: s, by simpa [NoRun] using hc, rfl⟩

theorem takeWhile_run {k : ℕ} {t : Str} (ht : NoRun t) :
    (elektraWriteBackslashes k ++ t).takeWhile (· = pathEscape) = elektraWriteBackslashes k := by
  induction k with
  | zero =>
    cases t with
    | nil => rfl
    | cons c t => simp [show c ≠ pathEscape by simpa [NoRun] using ht]
  | succ k ih => simpa [backslashes_succ] using ih

theorem dropWhile_run {k : ℕ} {t : Str} (ht : NoRun t) :
    (elektraWriteBackslashes k ++ t).dropWhile (· = pathEscape) = t := by
  have h := List.takeWhile_append_dropWhile (p := (· = pathEscape))
    (l := elektraWriteBackslashes k ++ t)
  rw [takeWhile_run ht] at h
  exact List.append_cancel_left h

/-! ## The scanners are inverse to each other -/

theorem unescapeLoop_escapeLoop : ∀ (s : Str) (n : ℕ),
    unescapeLoop n (escapeLoop n s) = elektraWriteBackslashes n ++ s
  | [], n => by
    have h := unescapeLoop_backslashes n n []
    rw [List.append_nil] at h
    rw [escapeLoop, h, unescapeLoop, List.append_nil, ← two_mul, Nat.mul_div_cancel_left n two_pos]
  | c :: s, n => by
    simp only [escapeLoop]
    split_ifs with hc hs
    · rw [unescapeLoop, if_pos hc, unescapeLoop_escapeLoop s (n + 1), hc, backslashes_cons]
    · rw [unescapeLoop, if_pos rfl, unescapeLoop_backslashes, unescapeLoop, if_neg hc, if_pos hs,
        unescapeLoop_escapeLoop s 0]
      have : (n + 1 + n) / 2 = n := by omega
      rw [this]
      rfl
    · rw [unescapeLoop, if_neg hc, if_neg hs, unescapeLoop_escapeLoop s 0]
      rfl

/-- Escaping undoes unescaping of a level, also from `n` backslashes on. -/
theorem escapeLoop_unescapeLoop : ∀ (p : Str) (n : ℕ), Unbroken n p → escAfter n p % 2 = 0 →
    escapeLoop 0 (unescapeLoop n p) = elektraWriteBackslashes n ++ p
  | [], n, _, he => by
    have h := escapeLoop_backslashes (n / 2) 0 []
    rw [List.append_nil] at h
    rw [unescapeLoop, h, escapeLoop, ← backslashes_add, List.append_nil]
    rw [escAfter_nil] at he
    congr 1
    omega
  | c :: p, n, hu, he => by
    simp only [Unbroken, escAfter] at hu he
    simp only [unescapeLoop]
    split_ifs at hu he ⊢ with hc hs
    · rw [escapeLoop_unescapeLoop p (n + 1) hu he, hc, backslashes_cons]
    · have hodd := hu.1 hs
      rw [escapeLoop_backslashes, escapeLoop, if_neg hc, if_pos hs,
        escapeLoop_unescapeLoop p 0 hu.2 he, backslashes_cons, ← List.append_assoc,
        ← backslashes_add]
      congr 2
      omega
    · rw [escapeLoop_backslashes, escapeLoop, if_neg hc, if_neg hs,
        escapeLoop_unescapeLoop p 0 hu.2 he]
      rfl

theorem unbroken_escapeLoop : ∀ (s : Str) (n : ℕ), Unbroken n (escapeLoop n s)
  | [], n => unbroken_backslashes n n
  | c :: s, n => by
    simp only [escapeLoop]
    split_ifs with hc hs
    · simpa [Unbroken, hc] using unbroken_escapeLoop s (n + 1)
    · rw [Unbroken, if_pos rfl, unbroken_append, escAfter_backslashes, Unbroken, if_neg hc]
      exact ⟨unbroken_backslashes _ _, fun _ => by omega, unbroken_escapeLoop s 0⟩
    · rw [Unbroken, if_neg hc]
      exact ⟨fun h => absurd h hs, unbroken_escapeLoop s 0⟩

theorem escAfter_escapeLoop : ∀ (s : Str) (n : ℕ), escAfter n (escapeLoop n s) % 2 = 0
  | [], n => by rw [escapeLoop, escAfter_backslashes]; omega
  | c :: s, n => by
    simp only [escapeLoop]
    split_ifs with hc hs
    · simpa [escAfter, hc] using escAfter_escapeLoop s (n + 1)
    · rw [escAfter, if_pos rfl, escAfter_append, escAfter, if_neg hc]
      exact escAfter_escapeLoop s 0
    · rw [escAfter, if_neg hc]
      exact escAfter_escapeLoop s 0

/-! ## The beginning of a part -/

/-- What is escaped by a single backslash where it is all of a part, or all behind the backslashes
that begin it. -/
def specials : List Str := [str "%", str ".", str ".."]

theorem escapeBegin_run {k : ℕ} {t : Str} (ht : NoRun t) :
    elektraEscapeKeyNamePartBegin (elektraWriteBackslashes k ++ t) =
      if k = 0 ∧ t = [] then some (str "%")
      else if t ∈ specials then some (elektraWriteBackslashes (k + 1) ++ t) else none := by
  have hnil : elektraWriteBackslashes k ++ t = [] ↔ k = 0 ∧ t = [] := by
    simp [elektraWriteBackslashes]
  have hlen : (elektraWriteBackslashes k).length = k := List.length_replicate
  have hesc : ∀ s : Str, some (elektraWriteBackslashes k ++ (pathEscape :: s)) =
      some (elektraWriteBackslashes (k + 1) ++ s) := fun s => congrArg some (backslashes_cons k s)
  simp only [elektraEscapeKeyNamePartBegin, hnil, takeWhile_run ht, dropWhile_run ht, hlen]
  by_cases h0 : k = 0 ∧ t = []
  · rw [if_pos h0, if_pos h0]
  rw [if_neg h0, if_neg h0]
  by_cases h1 : t = str "%"
  · subst h1; exact hesc _
  by_cases h2 : t = str "."
  · subst h2; exact hesc _
  by_cases h3 : t = str ".."
  · subst h3; exact hesc _
  rw [if_neg h1, if_neg h2, if_neg h3, if_neg (by simp [specials, h1, h2, h3])]

theorem escapeLoop_self : ∀ {s : Str}, (∀ c ∈ s, c ≠ pathEscape ∧ c ≠ pathSeparator) → escapeLoop 0 s = s
  | [], _ => rfl
  | c :: s, h => by
    obtain ⟨hc, hc'⟩ := h c List.mem_cons_self
    rw [escapeLoop, if_neg hc, if_neg hc', escapeLoop_self fun d hd => h d (List.mem_cons_of_mem c hd)]

theorem escape_self {s : Str} (hs : s ≠ []) (hfirst : s.head? ≠ some 37 ∧ s.head? ≠ some 46)
    (h : ∀ c ∈ s, c ≠ pathEscape ∧ c ≠ pathSeparator) : elektraEscapeKeyNamePart s = s := by
  have hrun : NoRun s := fun hhead => (h pathEscape (List.mem_of_head? hhead)).1 rfl
  have hspecial : s ∉ specials := by
    intro hmem
    simp only [specials, List.mem_cons, List.not_mem_nil, or_false] at hmem
    obtain rfl | rfl | rfl := hmem
    · exact hfirst.1 rfl
    · exact hfirst.2 rfl
    · exact hfirst.2 rfl
  have hbegin := escapeBegin_run (k := 0) hrun
  rw [backslashes_zero, List.nil_append, if_neg fun hk => hs hk.2, if_neg hspecial] at hbegin
  rw [elektraEscapeKeyNamePart, hbegin, Option.getD_none, escapeLoop_self h]

theorem strncmpEq_iff {literal sp : Str} : strncmpEq literal sp = true ↔ sp <+: literal :=
  List.isPrefixOf_iff_prefix

theorem prefix_one {s : Str} {a : UInt8} : s <+: [a] ↔ s = [] ∨ s = [a] := by
  simp [List.prefix_cons_iff]

theorem prefix_two {s : Str} {a b : UInt8} : s <+: [a, b] ↔ s = [] ∨ s = [a] ∨ s = [a, b] := by
  simp only [List.prefix_cons_iff, List.prefix_nil]
  aesop

theorem unescapeBegin_run {k : ℕ} {t : Str} (ht : NoRun t) :
    elektraUnescapeKeyNamePartBegin (elektraWriteBackslashes k ++ t) =
      if k = 0 then if t = [] ∨ t = str "%" then some [] else none
      else if t ∈ specials then some (elektraWriteBackslashes (k - 1) ++ t) else none := by
  have hlen : (elektraWriteBackslashes k).length = k := List.length_replicate
  simp only [elektraUnescapeKeyNamePartBegin, takeWhile_run ht, hlen]
  cases k with
  | zero =>
    have hpct : strncmpEq (str "%") t = true ↔ t = [] ∨ t = str "%" :=
      strncmpEq_iff.trans prefix_one
    -- a literal that begins with a backslash is no match
    have hesc : ∀ l : Str, 1 < t.length → strncmpEq (pathEscape :: l) t = false := by
      intro l hl
      rw [← Bool.not_eq_true, strncmpEq_iff, List.prefix_cons_iff]
      rintro (rfl | ⟨u, rfl, -⟩)
      · simp at hl
      · exact ht rfl
    simp only [backslashes_zero, List.nil_append, Nat.zero_sub, List.drop_zero, if_true, hpct]
    split_ifs with h1 h2 h3 h4 h5 h6
    · rfl
    · rfl
    · rw [show str "\\%" = pathEscape :: str "%" from rfl, hesc _ (by omega)] at h3; cases h3
    · rw [show str "\\." = pathEscape :: str "." from rfl, hesc _ (by omega)] at h4; cases h4
    · rfl
    · rw [show str "\\.." = pathEscape :: str ".." from rfl, hesc _ (by omega)] at h6; cases h6
    · rfl
  | succ k =>
    have hpct : strncmpEq (str "%") (elektraWriteBackslashes (k + 1) ++ t) = false := by
      rw [← Bool.not_eq_true, strncmpEq_iff, show str "%" = [37] from rfl, prefix_one,
        backslashes_succ]
      simp [pathEscape]
    have hdrop : (elektraWriteBackslashes (k + 1) ++ t).drop k = pathEscape :: t := by
      rw [← backslashes_cons]
      exact List.drop_left' List.length_replicate
    have hone : strncmpEq (str "\\%") (pathEscape :: t) = true ↔ t = [] ∨ t = str "%" := by
      rw [strncmpEq_iff, show str "\\%" = [pathEscape, 37] from rfl, List.cons_prefix_cons, prefix_one]
      simp [show str "%" = [37] from rfl]
    have hdot : strncmpEq (str "\\.") (pathEscape :: t) = true ↔ t = [] ∨ t = str "." := by
      rw [strncmpEq_iff, show str "\\." = [pathEscape, 46] from rfl, List.cons_prefix_cons, prefix_one]
      simp [show str "." = [46] from rfl]
    have hdots : strncmpEq (str "\\..") (pathEscape :: t) = true ↔
        t = [] ∨ t = str "." ∨ t = str ".." := by
      rw [strncmpEq_iff, show str "\\.." = [pathEscape, 46, 46] from rfl, List.cons_prefix_cons,
        prefix_two]
      simp [show str "." = [46] from rfl, show str ".." = [46, 46] from rfl]
    simp only [hpct, Nat.add_sub_cancel, hdrop, hone, hdot, hdots, List.length_cons,
      Nat.succ_ne_zero, if_false, Bool.false_eq_true]
    by_cases h0 : t = []
    · subst h0; rfl
    by_cases h1 : t = str "%"
    · subst h1; rfl
    by_cases h2 : t = str "."
    · subst h2; rfl
    by_cases h3 : t = str ".."
    · subst h3; rfl
    simp [h0, h1, h2, h3, specials]

/-! ## Parts of canonical names -/

/-- A part of a canonical name: a level that may be followed by a separator and is neither `.` nor
`..`. -/
structure IsPart (p : Str) : Prop extends IsLevel p where
  closed : Closed p
  ne_dot : p ≠ str "."
  ne_dots : p ≠ str ".."

theorem escapeLoop_eq_nil {s : Str} : escapeLoop 0 s = [] ↔ s = [] := by
  constructor
  · intro h
    have := unescapeLoop_escapeLoop s 0
    rw [h] at this
    exact this.symm
  · rintro rfl; rfl

theorem escapeLoop_eq {s u : Str} (hu : unescapeLoop 0 u = u) (h : escapeLoop 0 s = u) : s = u := by
  have := unescapeLoop_escapeLoop s 0
  rw [h, hu] at this
  exact this.symm

theorem unescapeLoop_special {t : Str} (ht : t ∈ specials) : unescapeLoop 0 t = t := by
  simp only [specials, List.mem_cons, List.not_mem_nil, or_false] at ht
  obtain rfl | rfl | rfl := ht <;> rfl

theorem isPart_loop {s : Str} (h0 : s ≠ []) (h : s ∉ specials) : IsPart (escapeLoop 0 s) where
  ne_nil := fun he => h0 (escapeLoop_eq_nil.mp he)
  unbroken := unbroken_escapeLoop s 0
  closed := escAfter_escapeLoop s 0
  ne_dot := fun he => h (by rw [escapeLoop_eq rfl he]; simp [specials])
  ne_dots := fun he => h (by rw [escapeLoop_eq rfl he]; simp [specials])

theorem isPart_special {k : ℕ} {t : Str} (ht : t ∈ specials) :
    IsPart (elektraWriteBackslashes (k + 1) ++ t) := by
  have hlevel : ∀ n, Unbroken n t ∧ escAfter n t = 0 := by
    intro n
    simp only [specials, List.mem_cons, List.not_mem_nil, or_false] at ht
    obtain rfl | rfl | rfl := ht <;> exact ⟨by simp [str, Unbroken, pathEscape, pathSeparator], rfl⟩
  refine ⟨⟨by simp [backslashes_succ], ?_⟩, ?_, ?_, ?_⟩
  · exact (unbroken_append _ _ _).mpr ⟨unbroken_backslashes _ _, (hlevel _).1⟩
  · rw [Closed, escAfter_append, (hlevel _).2]
  all_goals
    rw [backslashes_succ, List.cons_append]
    intro h
    exact absurd (List.cons.inj h).1 (by decide)

theorem isPart_percent : IsPart (str "%") :=
  ⟨⟨by decide, by simp [str, Unbroken, pathEscape, pathSeparator]⟩, rfl, by decide, by decide⟩

theorem isPart_escape (s : Str) : IsPart (elektraEscapeKeyNamePart s) := by
  obtain ⟨k, t, ht, rfl⟩ := exists_run s
  rw [elektraEscapeKeyNamePart, escapeBegin_run ht]
  split_ifs with h0 h1
  · exact isPart_percent
  · exact isPart_special h1
  · refine isPart_loop (by simpa [elektraWriteBackslashes] using h0) fun hs => ?_
    cases k with
    | zero => exact h1 hs
    | succ k =>
      simp only [specials, List.mem_cons, List.not_mem_nil, or_false, backslashes_succ,
        List.cons_append] at hs
      obtain h | h | h := hs <;> exact absurd (List.cons.inj h).1 (by decide)

theorem unescapeBegin_loop {k : ℕ} {t : Str} (ht : NoRun t) (h0 : ¬ (k = 0 ∧ t = []))
    (hs : t ∉ specials) :
    elektraUnescapeKeyNamePartBegin (escapeLoop 0 (elektraWriteBackslashes k ++ t)) = none := by
  rw [escapeLoop_backslashes, Nat.zero_add]
  cases t with
  | nil =>
    have hk : k ≠ 0 := fun hk => h0 ⟨hk, rfl⟩
    rw [escapeLoop, ← backslashes_add, ← List.append_nil (elektraWriteBackslashes _),
      unescapeBegin_run ht, if_neg (by omega), if_neg hs]
  | cons c u =>
    have hc : c ≠ pathEscape := by simpa [NoRun] using ht
    rw [escapeLoop, if_neg hc]
    by_cases hsep : c = pathSeparator
    · rw [if_pos hsep, backslashes_cons, ← List.append_assoc, ← backslashes_add,
        unescapeBegin_run (by simpa [NoRun] using hc), if_neg (by omega), if_neg]
      subst hsep
      simp [specials, str, pathSeparator]
    · have hloop : escapeLoop 0 (c :: u) = c :: escapeLoop 0 u := by
        rw [escapeLoop, if_neg hc, if_neg hsep]
      have hnot : c :: escapeLoop 0 u ∉ specials := fun h => hs <| by
        rwa [escapeLoop_eq (unescapeLoop_special h) hloop]
      have hpct : c :: escapeLoop 0 u ≠ str "%" := fun h => hnot (by simp [h, specials])
      rw [if_neg hsep, unescapeBegin_run (by simpa [NoRun] using hc), if_neg hnot]
      simp [hpct]

/-- **Unescaping undoes escaping.** -/
theorem unescape_escape (s : Str) : unescapeLevel (elektraEscapeKeyNamePart s) = s := by
  obtain ⟨k, t, ht, rfl⟩ := exists_run s
  rw [elektraEscapeKeyNamePart, escapeBegin_run ht]
  split_ifs with h0 h1
  · rw [h0.1, h0.2]; rfl
  · rw [Option.getD_some, unescapeLevel, unescapeBegin_run ht, if_neg (by omega), if_pos h1]
    rfl
  · rw [Option.getD_none, unescapeLevel, unescapeBegin_loop ht h0 h1]
    exact unescapeLoop_escapeLoop _ 0

theorem escapeBegin_loop {p : Str} (hp : IsPart p)
    (h : elektraUnescapeKeyNamePartBegin p = none) :
    elektraEscapeKeyNamePartBegin (elektraUnescapeKeyNamePart p) = none := by
  have hloop := escapeLoop_unescapeLoop p 0 hp.unbroken hp.closed
  obtain ⟨k, t, ht, hu⟩ := exists_run (elektraUnescapeKeyNamePart p)
  rw [elektraUnescapeKeyNamePart] at hu ⊢
  rw [hu, backslashes_zero, List.nil_append] at hloop
  rw [hu, escapeBegin_run ht]
  have hspecial : t ∈ specials → p = elektraWriteBackslashes k ++ t := by
    intro hs
    rw [← hloop, escapeLoop_backslashes, Nat.zero_add]
    simp only [specials, List.mem_cons, List.not_mem_nil, or_false] at hs
    obtain rfl | rfl | rfl := hs <;> rfl
  split_ifs with h0 h1
  · obtain ⟨rfl, rfl⟩ := h0
    exact absurd hloop.symm hp.ne_nil
  · have he := hspecial h1
    rw [he, unescapeBegin_run ht] at h
    cases k with
    | zero =>
      rw [he, backslashes_zero, List.nil_append] at hp
      simp only [specials, List.mem_cons, List.not_mem_nil, or_false] at h1
      obtain rfl | rfl | rfl := h1
      · simp at h
      · exact absurd rfl hp.ne_dot
      · exact absurd rfl hp.ne_dots
    | succ k => simp [h1] at h
  · rfl

theorem escape_special {k : ℕ} {t : Str} (ht : NoRun t) (hs : t ∈ specials) :
    elektraEscapeKeyNamePart (elektraWriteBackslashes k ++ t) =
      elektraWriteBackslashes (k + 1) ++ t := by
  have h0 : ¬ (k = 0 ∧ t = []) := by
    rintro ⟨-, rfl⟩
    exact absurd hs (by decide)
  rw [elektraEscapeKeyNamePart, escapeBegin_run ht, if_neg h0, if_pos hs, Option.getD_some]

/-- **Escaping undoes unescaping, on every part of a canonical name.** -/
theorem escape_unescape {p : Str} (hp : IsPart p) :
    elektraEscapeKeyNamePart (unescapeLevel p) = p := by
  cases h : elektraUnescapeKeyNamePartBegin p with
  | none =>
    rw [unescapeLevel, h, Option.getD_none, elektraEscapeKeyNamePart, escapeBegin_loop hp h]
    exact escapeLoop_unescapeLoop p 0 hp.unbroken hp.closed
  | some u =>
    rw [unescapeLevel, h, Option.getD_some]
    obtain ⟨k, t, ht, rfl⟩ := exists_run p
    rw [unescapeBegin_run ht] at h
    cases k with
    | zero =>
      have hpne := hp.ne_nil
      rw [backslashes_zero, List.nil_append] at hpne ⊢
      rw [if_pos rfl] at h
      split_ifs at h with h1
      obtain rfl := Option.some.inj h
      rw [h1.resolve_left hpne]
      rfl
    | succ k =>
      rw [if_neg (Nat.succ_ne_zero k)] at h
      split_ifs at h with h1
      obtain rfl := Option.some.inj h
      rw [Nat.add_sub_cancel, escape_special ht h1]

/-! ## No NUL appears -/

theorem mem_escapeLoop {a : UInt8} (ha : a ≠ pathEscape) : ∀ (s : Str) (n : ℕ),
    a ∈ escapeLoop n s → a ∈ s
  | [], n, h => absurd (List.eq_of_mem_replicate h) ha
  | c :: s, n, h => by
    simp only [escapeLoop] at h
    split_ifs at h
    all_goals simp only [List.mem_cons, List.mem_append] at h ⊢
    · exact h.imp id (mem_escapeLoop ha s _)
    · obtain h | h | h | h := h
      · exact absurd h ha
      · exact absurd (List.eq_of_mem_replicate h) ha
      · exact Or.inl h
      · exact Or.inr (mem_escapeLoop ha s 0 h)
    · exact h.imp id (mem_escapeLoop ha s 0)

theorem mem_unescapeLoop {a : UInt8} (ha : a ≠ pathEscape) : ∀ (s : Str) (n : ℕ),
    a ∈ unescapeLoop n s → a ∈ s
  | [], n, h => absurd (List.eq_of_mem_replicate h) ha
  | c :: s, n, h => by
    simp only [unescapeLoop] at h
    split_ifs at h
    · exact List.mem_cons_of_mem _ (mem_unescapeLoop ha s _ h)
    all_goals
      obtain h | h | h := by simpa only [List.mem_cons, List.mem_append] using h
      · exact absurd (List.eq_of_mem_replicate h) ha
      · exact h ▸ List.mem_cons_self
      · exact List.mem_cons_of_mem _ (mem_unescapeLoop ha s 0 h)

theorem nul_escape {s : Str} (hs : 0 ∉ s) : 0 ∉ elektraEscapeKeyNamePart s := by
  obtain ⟨k, t, ht, rfl⟩ := exists_run s
  have ht0 : 0 ∉ t := fun h => hs (List.mem_append_right _ h)
  rw [elektraEscapeKeyNamePart, escapeBegin_run ht]
  split_ifs
  · rw [Option.getD_some]; decide
  · rw [Option.getD_some, List.mem_append, not_or]
    exact ⟨fun h => absurd (List.eq_of_mem_replicate h) (by decide), ht0⟩
  · exact fun h => hs (mem_escapeLoop (by decide) _ 0 h)

theorem nul_unescapeLevel {p : Str} (hp : 0 ∉ p) : 0 ∉ unescapeLevel p := by
  obtain ⟨k, t, ht, rfl⟩ := exists_run p
  rw [unescapeLevel, unescapeBegin_run ht]
  have hrun : ∀ n, (0 : UInt8) ∉ elektraWriteBackslashes n := fun n h =>
    absurd (List.eq_of_mem_replicate h) (by decide)
  have ht0 : 0 ∉ t := fun h => hp (List.mem_append_right _ h)
  have hloop : 0 ∉ elektraUnescapeKeyNamePart (elektraWriteBackslashes k ++ t) :=
    fun h => hp (mem_unescapeLoop (by decide) _ 0 h)
  split_ifs
  · simp
  · exact hloop
  · simpa using ⟨hrun _, ht0⟩
  · exact hloop

end Elektra
