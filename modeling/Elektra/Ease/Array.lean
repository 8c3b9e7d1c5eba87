import Elektra.KeySet.Compare
import Elektra.Meta.Array
import Elektra.Name.BaseName

/-!
# The elements of an array

The base name of an element is `#`, an underscore for each digit but the first, and the digits; `#` on
its own stands before the first element.

* `elektraArrayValidateName`, `elektraReadArrayNumber`, `elektraArrayIncName`;
* `value`, **`compare_value`**, `digits_value`: strings of digits and their numbers;
* `Scanned`, **`validateBaseName_ne`**: what the scan accepts.
-/

namespace Elektra.Ease

/-- The bytes of a buffer for the base name of an element. -/
def ELEKTRA_MAX_ARRAY_SIZE : ℕ := 21

/-- The scan of `elektraArrayValidateName` -/
def validateBaseName (current : Str) : ℤ :=
  if current = str "#" then 0
  else if current.head? = some 35 then
    let underscores : ℤ := (current.tail.takeWhile (· = 95)).length
    let digits : ℤ := ((current.tail.dropWhile (· = 95)).takeWhile isdigit).length
    if underscores ≠ digits - 1 then -1
    else if underscores + digits > ELEKTRA_MAX_ARRAY_SIZE - 2 then -1
    else 1
  else -1

def elektraArrayValidateName (key : Key) : ℤ := validateBaseName (keyBaseName key)

/-- `sscanf` of a `long long`: blanks, a sign, digits; none also when `errno` says that the number is out
of range. -/
def sscanfLongLong (s : Str) : Option ℤ :=
  let s := s.dropWhile isspace
  let number := if s.head? = some 45 ∨ s.head? = some 43 then s.tail else s
  if number.takeWhile isdigit = [] then none
  else
    let n : ℤ := if s.head? = some 45 then - atoi number else atoi number
    if n < - 2 ^ 63 ∨ 2 ^ 63 ≤ n then none else some n

/-- None for the return value -1. -/
def elektraReadArrayNumber (baseName : Str) : Option ℤ :=
  match sscanfLongLong baseName with
  | none => none
  | some oldIndex => if oldIndex < 0 then none else some oldIndex

/-- The base name from the first digit on. -/
def jumpUnderscores (baseName : Str) : Str := baseName.tail.dropWhile (· = 95)

/-- The base name that `elektraArrayIncName` makes of another one: there is none when it fails, and none at
all when the new one does not fit into the buffer. -/
def incBaseName (baseName : Str) : Option (Option Str) :=
  let arrayElement := validateBaseName baseName
  if arrayElement = -1 then some none
  else
    match if arrayElement = 0 then some (-1) else elektraReadArrayNumber (jumpUnderscores baseName) with
    | none => some none
    | some oldIndex =>
      let newName := elektraWriteArrayNumber (oldIndex + 1).toNat
      if ELEKTRA_MAX_ARRAY_SIZE < newName.length + 1 then none else some (some newName)

/-- What `keySetBaseName` answers is not looked at. -/
def elektraArrayIncName (key : Key) : Option (ℤ × Key) :=
  (incBaseName (keyBaseName key)).map fun newName =>
    match newName with
    | none => (-1, key)
    | some newName => (0, (keySetBaseName key (some newName)).2)

/-! ## Strings of digits -/

/-- The number that the digits of a string stand for. -/
def value (ds : Str) : ℕ := ds.foldl (fun n d => 10 * n + (d.toNat - 48)) 0

/-- The strings that hold digits only. -/
def IsDigits (ds : Str) : Prop := ∀ d ∈ ds, isdigit d = true

/-- No leading zero. -/
def Plain (ds : Str) : Prop := ds.length = 1 ∨ ds.head? ≠ some 48

theorem isdigit_iff {c : UInt8} : isdigit c = true ↔ 48 ≤ c.toNat ∧ c.toNat ≤ 57 := by
  simp only [isdigit, Bool.and_eq_true, decide_eq_true_eq, UInt8.le_iff_toNat_le]
  rfl

theorem atoi_eq (s : Str) : atoi s = value (s.takeWhile isdigit) := rfl

theorem value_concat (ds : Str) (d : UInt8) : value (ds ++ [d]) = 10 * value ds + (d.toNat - 48) := by
  rw [value, List.foldl_append]
  rfl

theorem value_cons (d : UInt8) (ds : Str) :
    value (d :: ds) = (d.toNat - 48) * 10 ^ ds.length + value ds := by
  induction ds using List.reverseRecOn with
  | nil => simp [value]
  | append_singleton ds e ih =>
    rw [← List.cons_append, value_concat, ih, value_concat, List.length_append, List.length_singleton, pow_succ]
    ring

theorem value_lt {ds : Str} (h : IsDigits ds) : value ds < 10 ^ ds.length := by
  induction ds using List.reverseRecOn with
  | nil => exact Nat.one_pos
  | append_singleton ds d ih =>
    have hd := isdigit_iff.mp (h d (List.mem_append_right _ List.mem_cons_self))
    have hds := ih fun e he => h e (List.mem_append_left _ he)
    rw [value_concat, List.length_append, List.length_singleton, pow_succ]
    omega

theorem le_value {d : UInt8} {ds : Str} (h : isdigit d = true) (hd : d ≠ 48) :
    10 ^ ds.length ≤ value (d :: ds) := by
  have hdigit := isdigit_iff.mp h
  have hne : d.toNat ≠ 48 := fun he => hd (UInt8.toNat_inj.mp he)
  rw [value_cons]
  calc 10 ^ ds.length = 1 * 10 ^ ds.length := (Nat.one_mul _).symm
    _ ≤ (d.toNat - 48) * 10 ^ ds.length := Nat.mul_le_mul_right _ (by omega)
    _ ≤ _ := Nat.le_add_right _ _

theorem compare_digit (d e : UInt8) : compare [d] [e] = compare d.toNat e.toNat := by
  rw [List.compare_cons_cons]
  obtain hlt | heq | hlt := lt_trichotomy d.toNat e.toNat
  · rw [Std.compare_eq_lt.mpr (UInt8.lt_iff_toNat_lt.mpr hlt), Nat.compare_eq_lt.mpr hlt]
    rfl
  · rw [UInt8.toNat_inj.mp heq, Std.ReflOrd.compare_self, Nat.compare_eq_eq.mpr rfl]
    rfl
  · rw [Std.compare_eq_gt.mpr (UInt8.lt_iff_toNat_lt.mpr hlt), Nat.compare_eq_gt.mpr hlt]
    rfl

theorem compare_decimal (a b : ℕ) {x y : ℕ} (hx : x < 10) (hy : y < 10) :
    (compare a b).then (compare x y) = compare (10 * a + x) (10 * b + y) := by
  obtain hlt | rfl | hlt := lt_trichotomy a b
  · rw [Nat.compare_eq_lt.mpr hlt, Nat.compare_eq_lt.mpr (show 10 * a + x < 10 * b + y by omega)]
    rfl
  · rw [Nat.compare_eq_eq.mpr rfl, Ordering.then]
    obtain hlt | rfl | hlt := lt_trichotomy x y
    · rw [Nat.compare_eq_lt.mpr hlt, Nat.compare_eq_lt.mpr (show 10 * a + x < 10 * a + y by omega)]
    · rw [Nat.compare_eq_eq.mpr rfl, Nat.compare_eq_eq.mpr rfl]
    · rw [Nat.compare_eq_gt.mpr hlt, Nat.compare_eq_gt.mpr (show 10 * a + y < 10 * a + x by omega)]
  · rw [Nat.compare_eq_gt.mpr hlt, Nat.compare_eq_gt.mpr (show 10 * b + y < 10 * a + x by omega)]
    rfl

/-- **Strings of as many digits are sorted as their numbers.** -/
theorem compare_value {ds es : Str} (hlen : ds.length = es.length) (hds : IsDigits ds) (hes : IsDigits es) :
    compare ds es = compare (value ds) (value es) := by
  induction ds using List.reverseRecOn generalizing es with
  | nil =>
    obtain rfl := List.length_eq_zero_iff.mp hlen.symm
    rfl
  | append_singleton ds d ih =>
    obtain rfl | ⟨es, e, rfl⟩ := es.eq_nil_or_concat'
    · simp at hlen
    have hlen' : ds.length = es.length := by simpa using hlen
    have hd := isdigit_iff.mp (hds d (List.mem_append_right _ List.mem_cons_self))
    have he := isdigit_iff.mp (hes e (List.mem_append_right _ List.mem_cons_self))
    rw [compare_append hlen', ih hlen' (fun x hx => hds x (List.mem_append_left _ hx))
      (fun x hx => hes x (List.mem_append_left _ hx)), compare_digit, value_concat, value_concat]
    rw [← compare_decimal _ _ (show d.toNat - 48 < 10 by omega) (show e.toNat - 48 < 10 by omega)]
    congr 1
    obtain hlt | heq | hlt := lt_trichotomy d.toNat e.toNat
    · rw [Nat.compare_eq_lt.mpr hlt, Nat.compare_eq_lt.mpr (by omega)]
    · rw [heq]
      simp only [Nat.compare_eq_eq.mpr]
    · rw [Nat.compare_eq_gt.mpr hlt, Nat.compare_eq_gt.mpr (by omega)]

theorem value_digits (n : ℕ) : value (digits n) = n := by
  have := atoi_digits n
  rwa [atoi_eq, List.takeWhile_eq_self_iff.mpr (isdigit_digits n)] at this

theorem digits_length_le {n k : ℕ} (hk : 0 < k) : (digits n).length ≤ k ↔ n < 10 ^ k := by
  rw [digits, List.length_map]
  exact Nat.length_toDigits_le_iff (by decide) hk

/-- **A string of digits without a leading zero is the one of its number.** -/
theorem digits_value {ds : Str} (h : IsDigits ds) (hne : ds ≠ []) (hplain : Plain ds) :
    digits (value ds) = ds := by
  obtain ⟨d, es, rfl⟩ := List.exists_cons_of_ne_nil hne
  have hpos := digits_length_pos (value (d :: es))
  have hle := (digits_length_le (by simp)).mpr (value_lt h)
  have hlen : (digits (value (d :: es))).length = (d :: es).length := by
    refine le_antisymm hle ?_
    obtain hone | hhead := hplain
    · omega
    by_contra hlt
    have hsmall := (digits_length_le hpos).mp le_rfl
    have hlarge : 10 ^ es.length ≤ value (d :: es) :=
      le_value (h d List.mem_cons_self) fun he => hhead (by rw [he]; rfl)
    have := Nat.pow_lt_pow_iff_right (a := 10) (by decide) |>.mp (hlarge.trans_lt hsmall)
    simp only [List.length_cons] at hlt
    omega
  have := compare_value hlen (isdigit_digits _) h
  rw [value_digits, Nat.compare_eq_eq.mpr rfl] at this
  exact Std.LawfulEqCmp.eq_of_compare this

theorem head_digits (n : ℕ) : n ≠ 0 → (digits n).head? ≠ some 48 := by
  induction n using Nat.strong_induction_on with
  | _ n ih =>
    intro h0
    by_cases hn : n < 10
    · have hone : ∀ m < 10, m ≠ 0 → ¬ UInt8.ofNat (48 + m) = 48 := by decide
      rw [digits_of_lt hn, List.head?_cons]
      exact fun he => hone n hn h0 (Option.some.inj he)
    · rw [digits_of_le (not_lt.mp hn),
        List.head?_append_of_ne_nil _ (List.ne_nil_of_length_pos (digits_length_pos _))]
      exact ih (n / 10) (by omega) (by omega)

theorem plain_digits (n : ℕ) : Plain (digits n) := by
  by_cases h0 : n = 0
  · rw [h0]
    exact .inl rfl
  · exact .inr (head_digits n h0)

/-! ## The scan -/

/-- The digits of an element, and what is behind them. -/
structure Scanned (baseName ds rest : Str) : Prop where
  eq : baseName = 35 :: (List.replicate (ds.length - 1) 95 ++ (ds ++ rest))
  ne : ds ≠ []
  digit : IsDigits ds
  stop : ∀ c, rest.head? = some c → isdigit c = false

theorem scanned_write (n : ℕ) : Scanned (elektraWriteArrayNumber n) (digits n) [] :=
  ⟨by rw [List.append_nil]; rfl, List.ne_nil_of_length_pos (digits_length_pos n), isdigit_digits n, nofun⟩

section Scanned

variable {baseName ds rest : Str}

theorem takeWhile_stop {p : UInt8 → Bool} {l r : Str} (hl : ∀ c ∈ l, p c = true)
    (hr : ∀ c, r.head? = some c → p c = false) : (l ++ r).takeWhile p = l ∧ (l ++ r).dropWhile p = r := by
  rw [List.takeWhile_append_of_pos hl, List.dropWhile_append_of_pos hl]
  cases r with
  | nil => simp
  | cons c r =>
    have hc := hr c rfl
    rw [List.takeWhile_cons_of_neg (by rw [hc]; decide), List.dropWhile_cons_of_neg (by rw [hc]; decide)]
    simp

theorem Scanned.underscores (h : Scanned baseName ds rest) :
    baseName.tail.takeWhile (· = 95) = List.replicate (ds.length - 1) 95 ∧
      baseName.tail.dropWhile (· = 95) = ds ++ rest := by
  rw [h.eq, List.tail_cons]
  refine takeWhile_stop (fun c hc => decide_eq_true (List.eq_of_mem_replicate hc)) fun c hc => ?_
  obtain ⟨d, es, rfl⟩ := List.exists_cons_of_ne_nil h.ne
  obtain rfl := Option.some.inj hc
  refine decide_eq_false fun he => ?_
  have := h.digit d List.mem_cons_self
  rw [he] at this
  exact absurd this (by decide)

theorem Scanned.takeDigits (h : Scanned baseName ds rest) : (ds ++ rest).takeWhile isdigit = ds :=
  (takeWhile_stop h.digit h.stop).1

theorem Scanned.length_pos (h : Scanned baseName ds rest) : 0 < ds.length := List.length_pos_of_ne_nil h.ne

theorem Scanned.ne_start (h : Scanned baseName ds rest) : baseName ≠ str "#" := fun he => by
  have hlen := congrArg List.length (h.eq.symm.trans he)
  have hpos := h.length_pos
  rw [List.length_cons, List.length_append, List.length_append, show (str "#").length = 1 from rfl] at hlen
  omega

theorem Scanned.unique {ds' rest' : Str} (h : Scanned baseName ds rest) (h' : Scanned baseName ds' rest') :
    ds = ds' ∧ rest = rest' := by
  have heq := h.underscores.2.symm.trans h'.underscores.2
  have hds : ds = ds' := by rw [← h.takeDigits, heq, h'.takeDigits]
  rw [hds] at heq
  exact ⟨hds, List.append_cancel_left heq⟩

theorem Scanned.validate (h : Scanned baseName ds rest) :
    validateBaseName baseName = if ds.length ≤ 10 then 1 else -1 := by
  have hpos := h.length_pos
  have hhead : baseName.head? = some 35 := by rw [h.eq, List.head?_cons]
  rw [validateBaseName, if_neg h.ne_start, if_pos hhead, h.underscores.1, h.underscores.2, h.takeDigits,
    List.length_replicate]
  dsimp only [ELEKTRA_MAX_ARRAY_SIZE]
  rw [if_neg (by omega)]
  split_ifs <;> first | rfl | omega

/-- **What the scan accepts.** -/
theorem validateBaseName_ne (s : Str) : validateBaseName s ≠ -1 ↔
    s = str "#" ∨ ∃ ds rest, Scanned s ds rest ∧ ds.length ≤ 10 := by
  constructor
  · intro h
    by_cases hs : s = str "#"
    · exact .inl hs
    rw [validateBaseName, if_neg hs] at h
    by_cases hhead : s.head? = some 35
    · rw [if_pos hhead] at h
      obtain ⟨t, rfl⟩ : ∃ t, s = 35 :: t := by
        cases s with
        | nil => cases hhead
        | cons c t => exact ⟨t, by rw [Option.some.inj hhead]⟩
      rw [List.tail_cons] at h
      have hunder : t.takeWhile (· = 95) = List.replicate (t.takeWhile (· = 95)).length 95 :=
        List.eq_replicate_iff.mpr ⟨rfl, fun c hc =>
          of_decide_eq_true (List.mem_takeWhile_imp (p := fun c => decide (c = 95)) hc)⟩
      generalize hu : (t.takeWhile (· = 95)).length = u at h hunder
      generalize hd : (t.dropWhile (· = 95)).takeWhile isdigit = ds at h
      by_cases hcount : (u : ℤ) = ds.length - 1
      · rw [if_neg (not_not.mpr hcount)] at h
        refine .inr ⟨ds, (t.dropWhile (· = 95)).dropWhile isdigit, ⟨?_, ?_, ?_, ?_⟩, ?_⟩
        · rw [show ds.length - 1 = u by omega, ← hunder, ← hd, List.takeWhile_append_dropWhile,
            List.takeWhile_append_dropWhile]
        · rintro rfl
          simp at hcount
        · rw [← hd]
          exact fun d h => List.mem_takeWhile_imp h
        · intro c hc
          exact Bool.eq_false_iff.mpr fun hdigit => by
            have := List.head?_dropWhile_not isdigit (t.dropWhile (· = 95))
            rw [hc] at this
            simp [hdigit] at this
        · by_contra hlong
          rw [if_pos (by dsimp only [ELEKTRA_MAX_ARRAY_SIZE]; omega)] at h
          exact h rfl
      · rw [if_pos hcount] at h
        exact absurd rfl h
    · rw [if_neg hhead] at h
      exact absurd rfl h
  · rintro (rfl | ⟨ds, rest, h, hlen⟩)
    · decide
    · rw [h.validate, if_pos hlen]
      decide

theorem Scanned.read (h : Scanned baseName ds rest) : elektraReadArrayNumber (jumpUnderscores baseName) =
    if value ds < 2 ^ 63 then some (value ds : ℤ) else none := by
  rw [jumpUnderscores, h.underscores.2]
  obtain ⟨d, es, rfl⟩ := List.exists_cons_of_ne_nil h.ne
  have hdigit := isdigit_iff.mp (h.digit d List.mem_cons_self)
  have hspace : isspace d = false := by
    rw [isspace, Bool.or_eq_false_iff, Bool.and_eq_false_iff]
    refine ⟨decide_eq_false fun he => ?_, .inr (decide_eq_false fun he => ?_)⟩
    · rw [he] at hdigit
      exact absurd hdigit (by decide)
    · have : d.toNat ≤ 13 := he
      omega
  have hsign : ∀ c, c = 45 ∨ c = 43 → d ≠ c := fun c hc he => by
    obtain rfl | rfl := hc <;> rw [he] at hdigit <;> exact absurd hdigit (by decide)
  have hscan : sscanfLongLong (d :: es ++ rest) =
      if value (d :: es) < 2 ^ 63 then some (value (d :: es) : ℤ) else none := by
    have hminus : ¬ (d :: (es ++ rest)).head? = some 45 := fun he => hsign 45 (.inl rfl) (Option.some.inj he)
    have hplus : ¬ (d :: (es ++ rest)).head? = some 43 := fun he => hsign 43 (.inr rfl) (Option.some.inj he)
    have hskip : (d :: (es ++ rest)).dropWhile isspace = d :: (es ++ rest) :=
      List.dropWhile_cons_of_neg (by rw [hspace]; decide)
    simp only [sscanfLongLong, List.cons_append, hskip, hminus, hplus, or_self, if_false]
    rw [atoi_eq, ← List.cons_append, h.takeDigits, if_neg h.ne]
    split_ifs with h1 h2 h2 <;> first | rfl | omega
  rw [elektraReadArrayNumber, hscan]
  split_ifs with hlt
  · dsimp only
    rw [if_neg (by omega)]
  · rfl

end Scanned

end Elektra.Ease
