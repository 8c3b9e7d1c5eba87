import Elektra.Name.Below
import Elektra.Name.Dangling

/-!
# Unescaping with its assertions

The functions that unescape a name read it through pointers. Here a pointer is what is left of the name,
and there is no result where an assertion fails or a pointer leaves the name.

* `unescapePartChecked`, `unescapeBeginChecked`, `unescapeNameChecked`;
* `unescapeNameChecked_iff`: there is a result where every level is closed;
* `trailingEscapes`, `Unescapes`: what is asked of an accepted name;
* **`accepted_iff`**: when the validation and what it lets pass are right.
-/

namespace Elektra

/-! ## The functions -/

/-- The loop of `elektraUnescapeKeyNamePart`, with its assertions. -/
def unescapePartChecked : ℕ → ℕ → Str → Option Str
  | 0, count, _ => if count % 2 = 0 then some (elektraWriteBackslashes (count / 2)) else none
  | _ + 1, _, [] => none
  | size + 1, count, c :: sp =>
    if c = pathEscape then unescapePartChecked size (count + 1) sp
    else if c = pathSeparator then
      if 0 < count ∧ count % 2 = 1 then
        (unescapePartChecked size 0 sp).map fun dp => elektraWriteBackslashes (count / 2) ++ c :: dp
      else none
    else (unescapePartChecked size 0 sp).map fun dp => elektraWriteBackslashes count ++ c :: dp

/-- `elektraUnescapeKeyNamePartBegin`, whose first loop is not bounded by the size. -/
def unescapeBeginChecked (sp : Str) (size : ℕ) : Option (Option Str) :=
  if strncmp0 (str "%") sp size then some (some [])
  else
    let skipped := (sp.takeWhile (· = pathEscape)).length
    if size < skipped then none
    else
      -- one backslash is not skipped
      let skippedBackslashes := skipped - 1
      let sp := sp.drop skippedBackslashes
      let size := size - skippedBackslashes
      if size ≤ 1 then some none
      else if strncmp0 (str "\\%") sp size then
        some (some (elektraWriteBackslashes skippedBackslashes ++ str "%"))
      else if strncmp0 (str "\\.") sp size then
        some (some (elektraWriteBackslashes skippedBackslashes ++ str "."))
      else if size ≤ 2 then some none
      else if strncmp0 (str "\\..") sp size then
        some (some (elektraWriteBackslashes skippedBackslashes ++ str ".."))
      else some none

/-- What the loop of `elektraUnescapeKeyName` does to one level. -/
def unescapeLevelChecked (sp : Str) (size : ℕ) : Option Str :=
  (unescapeBeginChecked sp size).bind fun part => (part.map some).getD (unescapePartChecked size 0 sp)

/-- The loop of `elektraUnescapeKeyName`. -/
def unescapeLoopChecked : ℕ → Str → Option Str
  | 0, _ => some []
  | fuel + 1, p =>
    match keyNameGetOneLevel p with
    | ([], _) => some []
    | (sp, size) =>
      (unescapeLevelChecked sp size).bind fun part =>
        (unescapeLoopChecked fuel (sp.drop size)).map fun rest => part ++ 0 :: rest

def unescapeNameChecked (source : Str) : Option Str :=
  (unescapeLoopChecked source.length source).map fun dp =>
    (if source.head? = some pathSeparator then [0] else []) ++ dp

/-! ## Where there is a result -/

section Checked

variable {l r : Str}

theorem unescapePartChecked_eq : ∀ (l r : Str) (n : ℕ), Unbroken n l →
    unescapePartChecked l.length n (l ++ r) =
      if escAfter n l % 2 = 0 then some (unescapeLoop n l) else none
  | [], r, n, _ => by rw [List.length_nil, unescapePartChecked]; rfl
  | c :: l, r, n, h => by
    rw [Unbroken] at h
    rw [List.length_cons, List.cons_append, unescapePartChecked, escAfter, unescapeLoop]
    by_cases hc : c = pathEscape
    · simp only [if_pos hc] at h ⊢
      exact unescapePartChecked_eq l r (n + 1) h
    · simp only [if_neg hc] at h ⊢
      have ih := unescapePartChecked_eq l r 0 h.2
      by_cases hs : c = pathSeparator
      · have hodd := h.1 hs
        rw [if_pos hs, if_pos hs, if_pos ⟨by omega, hodd⟩, ih]
        split_ifs <;> rfl
      · rw [if_neg hs, if_neg hs, ih]
        split_ifs <;> rfl

theorem strncmp0_take {literal : Str} : strncmp0 literal (l ++ r) l.length = strncmpEq literal l := by
  rw [Bool.eq_iff_iff, strncmpEq_iff, strncmp0, decide_eq_true_iff, List.take_left', List.prefix_iff_eq_take]
  · exact eq_comm
  · rfl

theorem takeWhile_level (hr : r = [] ∨ ∃ t, r = pathSeparator :: t) :
    (l ++ r).takeWhile (· = pathEscape) = l.takeWhile (· = pathEscape) := by
  have hnone : r.takeWhile (· = pathEscape) = [] := by
    obtain rfl | ⟨t, rfl⟩ := hr
    · rfl
    · rw [List.takeWhile_cons_of_neg (by decide)]
  rw [List.takeWhile_append]
  split_ifs with h
  · have hself := (List.takeWhile_prefix (l := l) fun x => decide (x = pathEscape)).eq_of_length h
    rw [hnone, List.append_nil, hself]
  · rfl

theorem unescapeBeginChecked_eq (hr : r = [] ∨ ∃ t, r = pathSeparator :: t) :
    unescapeBeginChecked (l ++ r) l.length = some (elektraUnescapeKeyNamePartBegin l) := by
  have hle : (l.takeWhile (· = pathEscape)).length ≤ l.length := (List.takeWhile_prefix _).length_le
  have hdrop : (l ++ r).drop ((l.takeWhile (· = pathEscape)).length - 1) =
      l.drop ((l.takeWhile (· = pathEscape)).length - 1) ++ r := List.drop_append_of_le_length (by omega)
  have hlen : l.length - ((l.takeWhile (· = pathEscape)).length - 1) =
      (l.drop ((l.takeWhile (· = pathEscape)).length - 1)).length := (List.length_drop ..).symm
  unfold unescapeBeginChecked elektraUnescapeKeyNamePartBegin
  simp only [takeWhile_level hr, hdrop, hlen, strncmp0_take, if_neg (Nat.not_lt.mpr hle)]
  split_ifs <;> rfl

theorem closed_of_begin {part : Str} (h : elektraUnescapeKeyNamePartBegin l = some part) : Closed l := by
  obtain ⟨k, t, ht, rfl⟩ := exists_run l
  rw [unescapeBegin_run ht] at h
  split_ifs at h with hk ht' hs
  · obtain rfl | rfl := ht'
    · rw [hk]
      rfl
    · rw [hk]
      rfl
  · obtain ⟨k, rfl⟩ := Nat.exists_eq_succ_of_ne_zero hk
    exact (isPart_special hs).closed

theorem unescapeLevelChecked_eq (hl : Unbroken 0 l) (hr : r = [] ∨ ∃ t, r = pathSeparator :: t) :
    unescapeLevelChecked (l ++ r) l.length =
      if escAfter 0 l % 2 = 0 then some (unescapeLevel l) else none := by
  rw [unescapeLevelChecked, unescapeBeginChecked_eq hr, unescapeLevel, Option.bind_some]
  cases hbegin : elektraUnescapeKeyNamePartBegin l with
  | some part =>
    have hclosed : escAfter 0 l % 2 = 0 := closed_of_begin hbegin
    rw [if_pos hclosed]
    rfl
  | none => exact unescapePartChecked_eq l r 0 hl

theorem levelSize_le : ∀ (s : Str) (n : ℕ), levelSize n s ≤ s.length
  | [], _ => Nat.le_refl 0
  | c :: s, n => by
    rw [levelSize, List.length_cons]
    split_ifs
    · exact Nat.succ_le_succ (levelSize_le s (n + 1))
    · exact Nat.zero_le _
    · exact Nat.succ_le_succ (levelSize_le s 0)

theorem unescapeLoopChecked_eq : ∀ (fuel : ℕ) (p : Str), unescapeLoopChecked fuel p =
    if ∀ l ∈ levelsLoop fuel p, escAfter 0 l % 2 = 0 then
      some ((levelsLoop fuel p).flatMap fun l => unescapeLevel l ++ [0])
    else none
  | 0, p => by simp [unescapeLoopChecked, levelsLoop]
  | fuel + 1, p => by
    rw [unescapeLoopChecked, levelsLoop, keyNameGetOneLevel]
    cases hd : p.dropWhile (· = pathSeparator) with
    | nil => simp
    | cons c s =>
      have hsplit := List.take_append_drop (levelSize 0 (c :: s)) (c :: s)
      have hlen : ((c :: s).take (levelSize 0 (c :: s))).length = levelSize 0 (c :: s) :=
        List.length_take_of_le (levelSize_le _ 0)
      have hlevel := unescapeLevelChecked_eq (unbroken_take (c :: s) 0)
        ((drop_levelSize (c :: s) 0).imp id fun h => h.imp fun _ => And.left)
      rw [hsplit, hlen] at hlevel
      dsimp only
      rw [hlevel, unescapeLoopChecked_eq fuel]
      simp only [List.forall_mem_cons, List.flatMap_cons]
      by_cases h1 : escAfter 0 ((c :: s).take (levelSize 0 (c :: s))) % 2 = 0
      · by_cases h2 : ∀ l ∈ levelsLoop fuel ((c :: s).drop (levelSize 0 (c :: s))), escAfter 0 l % 2 = 0
        · rw [if_pos h1, if_pos h2, if_pos ⟨h1, h2⟩]
          simp
        · rw [if_pos h1, if_neg h2]
          exact (if_neg fun h => h2 h.2).symm
      · rw [if_neg h1]
        exact (if_neg fun h => h1 h.1).symm

/-- **No assertion fails, and no pointer leaves the name, where every level is closed.** -/
theorem unescapeNameChecked_iff (source : Str) :
    unescapeNameChecked source = some (elektraUnescapeKeyName source) ↔ ∀ l ∈ levels source, Closed l := by
  have hloop : unescapeLoopChecked source.length source =
      if ∀ l ∈ levels source, escAfter 0 l % 2 = 0 then
        some ((levels source).flatMap fun l => unescapeLevel l ++ [0])
      else none := unescapeLoopChecked_eq _ _
  rw [unescapeNameChecked, hloop]
  by_cases h : ∀ l ∈ levels source, escAfter 0 l % 2 = 0
  · rw [if_pos h]
    exact ⟨fun _ => h, fun _ => rfl⟩
  · rw [if_neg h]
    exact ⟨fun hn => (by cases hn), fun hc => absurd hc h⟩

end Checked

/-! ## What is accepted -/

/-- The number of backslashes at the end. -/
def trailingEscapes (s : Str) : ℕ := (s.reverse.takeWhile (· = pathEscape)).length

theorem escAfter_eq_trailing (s : Str) : escAfter 0 s = trailingEscapes s := by
  induction s using List.reverseRecOn with
  | nil => rfl
  | append_singleton s c ih =>
    rw [escAfter_append, ih, trailingEscapes, trailingEscapes, List.reverse_append, List.reverse_singleton,
      List.singleton_append, List.takeWhile_cons, escAfter]
    by_cases hc : c = pathEscape
    · simp [hc]
    · simp [hc]

/-- The parts of the name are completely escaped, and it can be unescaped: no assertion fails, and nothing
but the name is read; the unescaped name fits behind it. -/
structure Unescapes (key : Key) : Prop where
  escaped : ∀ l ∈ levels (keyName key), trailingEscapes l % 2 = 0
  unescaped : keyName key ≠ [] → unescapeNameChecked (keyName key) = some key.ukey
  room : key.ukey.length ≤ key.keySize

section Accepted

variable {key : Key} {P : Path} {d : Str}

theorem length_uname_le (P : Path) : P.uname.length ≤ P.name.length + 1 := by
  have hparts : ∀ ps : List CString, (ps.flatMap fun s => s.1 ++ [0]).length ≤
      (join (ps.map fun s => elektraEscapeKeyNamePart s.1)).length := by
    intro ps
    induction ps with
    | nil => exact Nat.le_refl 0
    | cons s ps ih =>
      have hs := length_escape s.1
      simp only [List.flatMap_cons, List.length_append, List.map_cons, join_cons, List.length_cons, List.length_nil]
      omega
  have hle := hparts P.parts
  have hstem : P.stem.length ≤ P.name.length := by
    by_cases hs : P.stem = []
    · rw [hs]
      exact Nat.zero_le _
    · rw [Path.name_of_stem hs]
  rw [Path.stem, Path.escaped, List.length_append] at hstem
  rw [Path.uname, List.length_append, List.length_append, List.length_singleton]
  omega

theorem HasName.keyName_eq (h : HasName key P) : keyName key = P.name := by simp [Elektra.keyName, h.key]

theorem Dangling.keyName_eq (h : Dangling key P d) : keyName key = danglingName P d := by
  simp [Elektra.keyName, h.key]

theorem unescapes_of_path (h : HasName key P) : Unescapes key := by
  have hclosed : ∀ l ∈ levels P.name, Closed l := by
    intro l hl
    rw [P.levels_name] at hl
    obtain hl | hl := List.mem_append.mp hl
    · cases hr : P.root with
      | cascading => simp [hr] at hl
      | ns m =>
        obtain rfl : l = m.name := by simpa [hr, Root.level] using hl
        exact m.closed
    · exact (Path.isPart_of_mem hl).closed
  refine ⟨fun l hl => ?_, fun _ => ?_, ?_⟩
  · rw [h.keyName_eq] at hl
    rw [← escAfter_eq_trailing]
    exact hclosed l hl
  · rw [h.keyName_eq, (unescapeNameChecked_iff _).mpr hclosed, P.unescapeKeyName_name, h.ukey]
  · rw [h.ukey, h.keySize]
    exact length_uname_le P

theorem not_unescapes_of_dangling (h : Dangling key P d) : ¬ Unescapes key := by
  intro hu
  refine h.level.isOpen ?_
  rw [Closed, escAfter_eq_trailing]
  refine hu.escaped d ?_
  rw [h.keyName_eq, levels_danglingName h.level.toIsLevel]
  exact List.mem_append_right _ (List.mem_singleton_self d)

theorem closed_name (P : Path) : Closed P.name := by
  by_cases hs : P.stem = []
  · rw [Path.name_of_root hs]
    rfl
  · rw [Path.name_of_stem hs]
    exact closed_stem P

theorem closed_of_dots {s : Str} : (∀ l ∈ levels s, l = str ".") → Closed s := by
  induction s using levels_induction with
  | nil => exact fun _ => rfl
  | sep s ih =>
    intro h
    rw [levels_separator] at h
    simpa [Closed, escAfter, separator_ne_escape] using ih h
  | level p s hp hs ih =>
    intro h
    rw [levels_cons hp hs] at h
    have hdot := h p List.mem_cons_self
    have hrest := ih fun l hl => h l (List.mem_cons_of_mem p hl)
    rw [Closed, hdot, escAfter_append]
    exact hrest

theorem validate_of_dots {s : Str} (h0 : s ≠ []) (h : ∀ l ∈ levels s, l = str ".") :
    elektraValidateKeyName s (s.length + 1) = true := by
  refine (validate_iff h0 fun hall => ?_).mpr (closed_of_dots h)
  have hlevel : levels s = [s] := by
    have hunbroken := unbroken_backslashes s.length 0
    rw [← hall] at hunbroken
    simpa using levels_cons ⟨h0, hunbroken⟩ (.inl rfl)
  have hdot := h s (hlevel ▸ List.mem_singleton_self s)
  rw [hdot] at hall
  exact absurd hall (by decide)

theorem validate_trailing {s : Str} (h0 : s ≠ []) :
    (elektraValidateKeyName s (s.length + 1) = true ↔ trailingEscapes s % 2 = 0) ↔ ¬ AllBackslashes s := by
  rw [← escAfter_eq_trailing, ← Closed]
  by_cases hall : AllBackslashes s
  · rw [validate_all h0 hall]
    exact ⟨fun h => absurd h (by tauto), fun h => absurd hall h⟩
  · rw [validate_iff h0 hall]
    exact ⟨fun _ => hall, fun _ => Iff.rfl⟩

theorem keyAddName_nil (hne : Elektra.keyName key ≠ []) (hro : key.roName = false) :
    keyAddName key (some []) = (0, key) := by
  cases hkey : key.key with
  | none => simp [Elektra.keyName, hkey] at hne
  | some name =>
    obtain ⟨c, t, rfl⟩ := List.exists_cons_of_ne_nil (l := name) (by simpa [Elektra.keyName, hkey] using hne)
    simp [keyAddName, hro, hkey]

theorem addName_path (h : HasName key P) (hro : key.roName = false) (n : CString) :
    ((keyAddName key (some n.1)).1 ≠ -1 → Unescapes (keyAddName key (some n.1)).2) ↔ ¬ OddRun n.1 := by
  by_cases hn : n.1 = []
  · rw [hn, keyAddName_nil (by rw [h.keyName_eq]; exact P.name_ne_nil) hro]
    exact ⟨fun _ h => absurd h.2 (by decide), fun _ _ => unescapes_of_path h⟩
  have heq := keyAddName_eq h.key h.keySize hro hn
  by_cases hv : elektraValidateKeyName n.1 (n.1.length + 1) = true
  · have hret : (keyAddName key (some n.1)).1 ≠ -1 := by
      rw [heq, if_pos hv]
      dsimp only
      split_ifs <;> omega
    obtain ⟨hodd, hd⟩ | ⟨hodd, Q, hQ, -⟩ := keyAddName_shape h.key h.keySize hro hn n.2 hv
    · exact ⟨fun h => absurd (h hret) (not_unescapes_of_dangling hd), fun h => absurd hodd h⟩
    · exact ⟨fun _ => hodd, fun _ _ => unescapes_of_path hQ⟩
  · rw [heq, if_neg hv]
    exact ⟨fun _ hodd => hv (validate_odd hodd), fun _ hret => absurd rfl hret⟩

theorem addName_dangling (h : Dangling key P d) (hro : key.roName = false) (n : CString) :
    ((keyAddName key (some n.1)).1 ≠ -1 → Unescapes (keyAddName key (some n.1)).2) ↔
      ¬ OddRun n.1 ∧ ∃ l ∈ levels n.1, l ≠ str "." := by
  by_cases hn : n.1 = []
  · rw [hn, keyAddName_nil (by rw [h.keyName_eq]; simp [danglingName]) hro]
    refine ⟨fun hu => absurd (hu (show (0 : ℤ) ≠ -1 by decide)) (not_unescapes_of_dangling h), ?_⟩
    rintro ⟨-, l, hl, -⟩
    cases hl
  have heq := keyAddName_dangling h hro hn
  by_cases hv : elektraValidateKeyName n.1 (n.1.length + 1) = true
  · have hret : (keyAddName key (some n.1)).1 ≠ -1 := by
      rw [heq, if_pos hv]
      dsimp only
      split_ifs <;> omega
    obtain ⟨hodd, hd⟩ | ⟨hodd, ⟨hdots, hd⟩ | ⟨pre, l, rest, hsplit, -, hl, Q, hQ, -⟩⟩ :=
      keyAddName_dangling_shape h hro hn n.2 hv
    · exact ⟨fun h => absurd (h hret) (not_unescapes_of_dangling hd), fun h => absurd hodd h.1⟩
    · refine ⟨fun h => absurd (h hret) (not_unescapes_of_dangling hd), ?_⟩
      rintro ⟨-, l, hl, hne⟩
      exact absurd (hdots l hl) hne
    · exact ⟨fun _ => ⟨hodd, l, by rw [hsplit]; simp, hl⟩, fun _ _ => unescapes_of_path hQ⟩
  · rw [heq, if_neg hv]
    refine ⟨fun _ => ⟨fun hodd => hv (validate_odd hodd), ?_⟩, fun _ hret => absurd rfl hret⟩
    by_contra hdots
    push Not at hdots
    exact hv (validate_of_dots hn hdots)

theorem addName_unescapes (h : Shape key) (n : CString) :
    ((keyAddName key (some n.1)).1 ≠ -1 → Unescapes (keyAddName key (some n.1)).2) ↔
      key.roName = true ∨ Elektra.keyName key = [] ∨
        ¬ OddRun n.1 ∧ (trailingEscapes (Elektra.keyName key) % 2 = 0 ∨ ∃ l ∈ levels n.1, l ≠ str ".") := by
  by_cases hro : key.roName = true
  · have hkeep : keyAddName key (some n.1) = (-1, key) := by simp [keyAddName, hro]
    rw [hkeep]
    exact ⟨fun _ => .inl hro, fun _ h => absurd rfl h⟩
  have hro : key.roName = false := Bool.eq_false_iff.mpr hro
  rw [hro, ← escAfter_eq_trailing]
  cases h with
  | unnamed h =>
    have hrun : keyAddName key (some n.1) = (-1, key) := by simp [keyAddName, hro, h]
    rw [hrun]
    exact ⟨fun _ => .inr (.inl (by simp [Elektra.keyName, h])), fun _ h => absurd rfl h⟩
  | empty h =>
    have hrun : keyAddName key (some n.1) = (-1, key) := by simp [keyAddName, hro, h]
    rw [hrun]
    exact ⟨fun _ => .inr (.inl (by simp [Elektra.keyName, h])), fun _ h => absurd rfl h⟩
  | path P h =>
    have hclosed : escAfter 0 P.name % 2 = 0 := closed_name P
    rw [addName_path h hro n, h.keyName_eq]
    simp [hclosed, P.name_ne_nil]
  | dangling P d h =>
    have hopen : ¬ escAfter 0 (danglingName P d) % 2 = 0 := fun hc => h.level.isOpen (closed_extend.mp hc)
    have hne : danglingName P d ≠ [] := by simp [danglingName]
    rw [addName_dangling h hro n, h.keyName_eq]
    simp [hopen, hne]

theorem setName_unescapes (n : CString) :
    ((keySetName key (some n.1)).1 ≠ -1 → Unescapes (keySetName key (some n.1)).2) ↔
      key.roName = true ∨ (keyGetNameNamespace (some n.1)).root = none ∨ ¬ OddRun (pathArgument n.1) := by
  by_cases hro : key.roName = true
  · have hkeep : keySetName key (some n.1) = (-1, key) := by simp [keySetName, elektraKeySetName, hro]
    rw [hkeep]
    exact ⟨fun _ => .inl hro, fun _ h => absurd rfl h⟩
  have hro : key.roName = false := Bool.eq_false_iff.mpr hro
  rw [hro]
  by_cases hn : n.1 = []
  · rw [hn]
    have hns : keyGetNameNamespace (some []) = .empty := rfl
    have hrun : keySetName key (some []) =
        (0, elektraFinalizeEmptyName (keySetOwner (elektraRemoveKeyName key) none)) := by
      simp only [keySetName, elektraKeySetName, hro, hns, Bool.false_eq_true, if_false]
    rw [hrun]
    exact ⟨fun _ => .inr (.inl rfl), fun _ _ => ⟨by simp [elektraFinalizeEmptyName, Elektra.keyName],
      fun h => absurd rfl h, Nat.le_refl 1⟩⟩
  · obtain ⟨hret, -, hcond⟩ | ⟨hret, R, hR, ⟨hodd, hd⟩ | ⟨hodd, Q, hQ, -⟩⟩ := keySetName_shape hn n.2 hro
    · exact ⟨fun _ => .inr hcond, fun _ h => absurd hret h⟩
    · refine ⟨fun h => absurd (h hret) (not_unescapes_of_dangling hd), ?_⟩
      rintro (h | h | h)
      · cases h
      · rw [hR] at h
        cases h
      · exact absurd hodd h
    · exact ⟨fun _ => .inr (.inr hodd), fun _ _ => unescapes_of_path hQ⟩

end Accepted

/-- **What is accepted is completely escaped, and can be unescaped, but where the path is an odd number of
backslashes, or leaves such an end of the name as it is; the validation is wrong about backslashes
alone.** -/
theorem accepted_iff {key : Key} (h : Made key) (n : CString) :
    (n.1 ≠ [] →
      ((elektraValidateKeyName n.1 (n.1.length + 1) = true ↔ trailingEscapes n.1 % 2 = 0) ↔
        ¬ AllBackslashes n.1)) ∧
    (((keyAddName key (some n.1)).1 ≠ -1 → Unescapes (keyAddName key (some n.1)).2) ↔
      key.roName = true ∨ keyName key = [] ∨
        ¬ OddRun n.1 ∧ (trailingEscapes (keyName key) % 2 = 0 ∨ ∃ l ∈ levels n.1, l ≠ str ".")) ∧
    (((keySetName key (some n.1)).1 ≠ -1 → Unescapes (keySetName key (some n.1)).2) ↔
      key.roName = true ∨ (keyGetNameNamespace (some n.1)).root = none ∨ ¬ OddRun (pathArgument n.1)) :=
  ⟨validate_trailing, addName_unescapes (shape_of_made h) n, setName_unescapes n⟩

theorem made_userA : Made (keySetName keyNew (some (str "user/a"))).2 :=
  .call (.setName (some ⟨str "user/a", by decide⟩)) .new

theorem accepted_iff_userA :
    Unescapes (keyAddName (keySetName keyNew (some (str "user/a"))).2 (some (str "b"))).2 :=
  (accepted_iff made_userA ⟨str "b", by decide⟩).2.1.mpr
    (.inr (.inr ⟨fun h => absurd h.1 (by decide), .inl (by decide +kernel)⟩)) (by decide +kernel)

/-- **One backslash is accepted; the name cannot be unescaped.** -/
theorem not_accepted_backslash :
    elektraValidateKeyName (str "\\") 2 = true ∧ trailingEscapes (str "\\") % 2 = 1 ∧
    (keyAddName (keySetName keyNew (some (str "user/a"))).2 (some (str "\\"))).1 ≠ -1 ∧
    unescapeNameChecked (keyName (keyAddName (keySetName keyNew (some (str "user/a"))).2 (some (str "\\"))).2) =
      none := by
  decide +kernel

end Elektra
