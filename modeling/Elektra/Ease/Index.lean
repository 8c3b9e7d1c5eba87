import Elektra.Ease.Array

/-!
# Indices and names

* `ArrayNames`, **`arrayNames_iff`**: the numbers with at most ten digits;
* `Spelled`, **`spelled_iff`**: the scan accepts more than the names that are written;
* `Increments`, `Followed`, **`increments_iff`**: the element behind.
-/

namespace Elektra.Ease

/-- The underscores of `elektraWriteArrayNumber`, whose loop divides by ten. -/
def underscoresLoop (i : ℕ) : Str := if 0 < i then 95 :: underscoresLoop (i / 10) else []

theorem underscoresLoop_eq (n : ℕ) : underscoresLoop (n / 10) = List.replicate ((digits n).length - 1) 95 := by
  induction n using Nat.strong_induction_on with
  | _ n ih =>
    rw [underscoresLoop]
    split_ifs with h
    · have hpos := digits_length_pos (n / 10)
      rw [ih (n / 10) (by omega), digits_of_le (n := n) (by omega), List.length_append, List.length_singleton,
        Nat.add_sub_cancel, ← List.replicate_succ, Nat.sub_add_cancel hpos]
    · rw [digits_of_lt (by omega)]
      rfl

theorem elektraWriteArrayNumber_loop (newIndex : ℕ) :
    elektraWriteArrayNumber newIndex = 35 :: underscoresLoop (newIndex / 10) ++ digits newIndex := by
  rw [underscoresLoop_eq]
  rfl

theorem nul_write (n : ℕ) : 0 ∉ elektraWriteArrayNumber n := by
  rw [(scanned_write n).eq, List.append_nil]
  intro h
  obtain h | h := List.mem_cons.mp h
  · exact absurd h (by decide)
  · obtain h | h := List.mem_append.mp h
    · exact absurd (List.eq_of_mem_replicate h) (by decide)
    · exact absurd (isdigit_digits n 0 h) (by decide)

/-- The base name of an element. -/
def arrayName (n : ℕ) : CString := ⟨elektraWriteArrayNumber n, nul_write n⟩

theorem keyBaseName_add {key : Key} {P : Path} {t : CString} (h : HasName key (P.add t)) : keyBaseName key = t.1 := by
  rw [keyBaseName_eq h]
  simp [Path.add]

theorem compare_nul {s t : Str} (hs : 0 ∉ s) (ht : 0 ∉ t) : compare (s ++ [0]) (t ++ [0]) = compare s t := by
  have hlt : ∀ c : UInt8, c ≠ 0 → compare 0 c = .lt := fun c hc =>
    Std.compare_eq_lt.mpr (UInt8.pos_iff_ne_zero.mpr hc)
  induction s generalizing t with
  | nil =>
    cases t with
    | nil => rfl
    | cons c t =>
      rw [List.nil_append, List.cons_append, List.compare_cons_cons, hlt c fun h => ht (by simp [h])]
      rfl
  | cons b s ih =>
    cases t with
    | nil =>
      rw [List.nil_append, List.cons_append, List.compare_cons_cons,
        Std.OrientedOrd.eq_swap, hlt b fun h => hs (by simp [h])]
      rfl
    | cons c t =>
      rw [List.cons_append, List.cons_append, List.compare_cons_cons, List.compare_cons_cons,
        ih (fun h => hs (List.mem_cons_of_mem _ h)) fun h => ht (List.mem_cons_of_mem _ h)]

theorem compare_siblings (P : Path) (s t : CString) : compare (P.add s).uname (P.add t).uname = compare s.1 t.1 := by
  rw [Path.uname_add, Path.uname_add, List.append_assoc, List.append_assoc, compare_append rfl,
    Std.ReflOrd.compare_self, Ordering.then, compare_nul s.2 t.2]

theorem compare_child (P : Path) (s : CString) : compare P.uname (P.add s).uname = .lt := by
  have happend := compare_append (l := P.uname) rfl [] (s.1 ++ [0])
  rw [List.append_nil, ← List.append_assoc, ← Path.uname_add, Std.ReflOrd.compare_self, Ordering.then] at happend
  rw [happend]
  cases s.1 <;> rfl

theorem compare_below (P : Path) (s : CString) (r : Str) : compare P.uname ((P.add s).uname ++ r) = .lt := by
  have happend := compare_append (l := P.uname) rfl [] (s.1 ++ [0] ++ r)
  rw [List.append_nil, ← List.append_assoc, ← List.append_assoc, ← Path.uname_add, Std.ReflOrd.compare_self,
    Ordering.then] at happend
  rw [happend]
  cases s.1 <;> rfl

theorem compare_stop : ∀ {s t : Str}, 0 ∉ s → 0 ∉ t → compare s t = .lt → ∀ u v : Str,
    compare (s ++ 0 :: u) (t ++ 0 :: v) = .lt
  | [], [], _, _, h, _, _ => by cases h
  | [], c :: t, _, ht, _, u, v => by
    have hc : (0 : UInt8) < c := UInt8.pos_iff_ne_zero.mpr fun hc => ht (hc ▸ List.mem_cons_self)
    rw [List.nil_append, List.cons_append, List.compare_cons_cons, Std.compare_eq_lt.mpr hc]
    rfl
  | _ :: _, [], _, _, h, _, _ => by cases h
  | c :: s, d :: t, hs, ht, h, u, v => by
    rw [List.compare_cons_cons] at h
    rw [List.cons_append, List.cons_append, List.compare_cons_cons]
    cases hcd : compare c d with
    | lt => rfl
    | gt =>
      rw [hcd] at h
      cases h
    | eq =>
      rw [hcd] at h
      exact compare_stop (fun h0 => hs (List.mem_cons_of_mem c h0)) (fun h0 => ht (List.mem_cons_of_mem d h0)) h u v

theorem compare_subtrees (P : Path) {s t : CString} (h : compare s.1 t.1 = .lt) (r r' : Str) :
    compare ((P.add s).uname ++ r) ((P.add t).uname ++ r') = .lt := by
  rw [Path.uname_add, Path.uname_add, List.append_assoc, List.append_assoc,
    List.append_assoc, List.append_assoc, compare_append rfl, Std.ReflOrd.compare_self, Ordering.then]
  exact compare_stop s.2 t.2 h r r'

theorem add_injective {P : Path} {s t : CString} (h : P.add s = P.add t) : s = t := by
  have hparts : P.parts ++ [s] = P.parts ++ [t] := congrArg Path.parts h
  exact List.singleton_inj.mp (List.append_cancel_left hparts)

theorem add_ne (P : Path) (s : CString) : P ≠ P.add s := fun h => by
  have hlen := congrArg (fun Q => Q.parts.length) h
  simp [Path.add] at hlen

theorem keyCmp_siblings {p k : Key} {P : Path} {s t : CString} (hp : HasName p (P.add s)) (hk : HasName k (P.add t)) :
    keyCmp (some p) (some k) =
      (compare s.1 t.1).then (compare (keyGetMeta p (str "owner")) (keyGetMeta k (str "owner"))) := by
  rw [keyCmp_named hp hk, compare_siblings]

/-- **Less digits or a smaller number**: the name is before the other one. -/
theorem Scanned.lt {s t ds es rest rest' : Str} (h : Scanned s ds rest) (h' : Scanned t es rest')
    (hlt : ds.length < es.length ∨ ds.length = es.length ∧ value ds < value es) : compare s t = .lt := by
  have hsharp : ∀ x y : Str, compare (35 :: x) (35 :: y) = compare x y := fun x y => by
    rw [List.compare_cons_cons, Std.ReflOrd.compare_self]
    rfl
  rw [h.eq, h'.eq, hsharp]
  obtain hlen | ⟨hlen, hvalue⟩ := hlt
  · -- the shorter number has a digit where the longer one still has an underscore
    have hpos := h.length_pos
    obtain ⟨k, hk⟩ : ∃ k, es.length - 1 = (ds.length - 1) + (k + 1) := ⟨es.length - ds.length - 1, by omega⟩
    obtain ⟨d, ds', rfl⟩ := List.exists_cons_of_ne_nil h.ne
    have hdigit : compare d 95 = .lt := by
      have := isdigit_iff.mp (h.digit d List.mem_cons_self)
      exact Std.compare_eq_lt.mpr (UInt8.lt_iff_toNat_lt.mpr (lt_of_le_of_lt this.2 (by decide)))
    rw [hk, List.replicate_add, List.append_assoc, compare_append rfl, Std.ReflOrd.compare_self,
      List.replicate_succ, List.cons_append, List.cons_append, List.compare_cons_cons, hdigit]
    rfl
  · rw [hlen, compare_append rfl, Std.ReflOrd.compare_self, Ordering.then, compare_append hlen,
      compare_value hlen h.digit h'.digit, Nat.compare_eq_lt.mpr hvalue]
    rfl

theorem digits_length_mono {m n : ℕ} (h : m ≤ n) : (digits m).length ≤ (digits n).length :=
  (digits_length_le (digits_length_pos n)).mpr
    (lt_of_le_of_lt h ((digits_length_le (digits_length_pos n)).mp le_rfl))

theorem compare_write (i j : ℕ) :
    compare (elektraWriteArrayNumber i) (elektraWriteArrayNumber j) = compare i j := by
  obtain hlt | rfl | hlt := lt_trichotomy i j
  · rw [elektraWriteArrayNumber_lt hlt, Nat.compare_eq_lt.mpr hlt]
  · rw [Std.ReflOrd.compare_self, Nat.compare_eq_eq.mpr rfl]
  · rw [Std.OrientedOrd.eq_swap, elektraWriteArrayNumber_lt hlt, Nat.compare_eq_gt.mpr hlt]
    rfl

theorem length_write (n : ℕ) : (elektraWriteArrayNumber n).length = 2 * (digits n).length := by
  have hpos := digits_length_pos n
  rw [(scanned_write n).eq, List.append_nil, List.length_cons, List.length_append, List.length_replicate]
  omega

theorem validate_write (n : ℕ) : validateBaseName (elektraWriteArrayNumber n) = 1 ↔ n < 10 ^ 10 := by
  rw [(scanned_write n).validate, ← digits_length_le (by decide)]
  split_ifs with h
  · exact iff_of_true rfl h
  · exact iff_of_false (by decide) h

theorem read_write {n : ℕ} (h : n < 2 ^ 63) :
    elektraReadArrayNumber (jumpUnderscores (elektraWriteArrayNumber n)) = some (n : ℤ) := by
  rw [(scanned_write n).read, value_digits, if_pos h]

/-! ## The names of the numbers -/

/-- The other functions agree with the name of a number. -/
structure ArrayNumber (n : ℕ) : Prop where
  accepted : ∀ {key : Key} {P : Path}, HasName key (P.add (arrayName n)) → elektraArrayValidateName key = 1
  read : elektraReadArrayNumber (jumpUnderscores (elektraWriteArrayNumber n)) = some (n : ℤ)
  fits : (elektraWriteArrayNumber n).length + 1 ≤ ELEKTRA_MAX_ARRAY_SIZE

/-- The names of two numbers. -/
structure ArrayNames (i j : ℕ) : Prop where
  left : ArrayNumber i
  right : ArrayNumber j
  distinct : i ≠ j → elektraWriteArrayNumber i ≠ elektraWriteArrayNumber j
  sorted : compare (elektraWriteArrayNumber i) (elektraWriteArrayNumber j) = compare i j
  siblings : ∀ {p k : Key} {P : Path}, HasName p (P.add (arrayName i)) → HasName k (P.add (arrayName j)) →
    keyCmp (some p) (some k) =
      (compare i j).then (compare (keyGetMeta p (str "owner")) (keyGetMeta k (str "owner")))

theorem arrayNumber_iff (n : ℕ) : ArrayNumber n ↔ n < 10 ^ 10 := by
  constructor
  · intro h
    rw [← digits_length_le (by decide)]
    have hfits := h.fits
    rw [length_write] at hfits
    dsimp only [ELEKTRA_MAX_ARRAY_SIZE] at hfits
    omega
  · intro h
    have hlen := (digits_length_le (by decide)).mpr h
    refine ⟨fun {key P} hk => ?_, read_write (h.trans (by decide)), ?_⟩
    · rw [elektraArrayValidateName, keyBaseName_add hk]
      exact (validate_write n).mpr h
    · rw [length_write]
      dsimp only [ELEKTRA_MAX_ARRAY_SIZE]
      omega

/-- **The names of the numbers with at most ten digits are elements, sorted as the numbers.** -/
theorem arrayNames_iff (i j : ℕ) : ArrayNames i j ↔ i < 10 ^ 10 ∧ j < 10 ^ 10 := by
  constructor
  · exact fun h => ⟨(arrayNumber_iff i).mp h.left, (arrayNumber_iff j).mp h.right⟩
  · rintro ⟨hi, hj⟩
    refine ⟨(arrayNumber_iff i).mpr hi, (arrayNumber_iff j).mpr hj, fun hne he =>
      hne (elektraWriteArrayNumber_injective he), compare_write i j, fun {p k P} hp hk => ?_⟩
    rw [keyCmp_siblings hp hk]
    exact congrArg (Ordering.then · _) (compare_write i j)

/-- With eleven digits the buffer is too small. -/
theorem not_arrayNames : ¬ ArrayNames (10 ^ 10) 0 := fun h =>
  absurd h.left.fits (by decide +kernel)

/-! ## Spellings -/

/-- The scan accepts the name exactly if it is the one of an index. -/
def Spelled (baseName : Str) : Prop :=
  validateBaseName baseName = 1 ↔ ∃ n < 2 ^ 63, baseName = elektraWriteArrayNumber n

/-- Nothing behind up to ten digits, and no leading zero; more digits are not those of an index. -/
def WellSpelled (baseName : Str) : Prop :=
  ∀ ds rest, Scanned baseName ds rest →
    if ds.length ≤ 10 then rest = [] ∧ Plain ds else ¬ (rest = [] ∧ Plain ds ∧ value ds < 2 ^ 63)

theorem Scanned.write {s ds : Str} (h : Scanned s ds []) (hplain : Plain ds) :
    s = elektraWriteArrayNumber (value ds) := by
  rw [(scanned_write _).eq, digits_value h.digit h.ne hplain]
  exact h.eq

theorem Scanned.write_iff {s ds rest : Str} (h : Scanned s ds rest) (n : ℕ) :
    s = elektraWriteArrayNumber n ↔ rest = [] ∧ Plain ds ∧ value ds = n := by
  constructor
  · rintro rfl
    obtain ⟨rfl, rfl⟩ := h.unique (scanned_write n)
    exact ⟨rfl, plain_digits n, value_digits n⟩
  · rintro ⟨rfl, hplain, rfl⟩
    exact h.write hplain

theorem spelled_iff_wellSpelled (s : Str) : Spelled s ↔ WellSpelled s := by
  by_cases hscan : ∃ ds rest, Scanned s ds rest
  · obtain ⟨ds, rest, h⟩ := hscan
    have hwritten : (∃ n < 2 ^ 63, s = elektraWriteArrayNumber n) ↔
        rest = [] ∧ Plain ds ∧ value ds < 2 ^ 63 := by
      constructor
      · rintro ⟨n, hn, he⟩
        obtain ⟨hr, hp, rfl⟩ := (h.write_iff n).mp he
        exact ⟨hr, hp, hn⟩
      · rintro ⟨hr, hp, hn⟩
        exact ⟨_, hn, (h.write_iff _).mpr ⟨hr, hp, rfl⟩⟩
    have hwell : WellSpelled s ↔
        if ds.length ≤ 10 then rest = [] ∧ Plain ds else ¬ (rest = [] ∧ Plain ds ∧ value ds < 2 ^ 63) := by
      refine ⟨fun hw => hw ds rest h, fun hw es rest' h' => ?_⟩
      obtain ⟨rfl, rfl⟩ := h.unique h'
      exact hw
    rw [Spelled, hwritten, hwell, h.validate]
    split_ifs with hlen
    · -- ten digits are always in the range
      have hvalue : value ds < 2 ^ 63 :=
        (value_lt h.digit).trans ((Nat.pow_le_pow_right (by decide) hlen).trans_lt (by decide))
      rw [and_iff_left hvalue]
      exact ⟨fun hiff => hiff.mp rfl, fun hw => iff_of_true rfl hw⟩
    · exact ⟨fun hiff hw => absurd (hiff.mpr hw) (by decide), fun hw => iff_of_false (by decide) hw⟩
  · refine iff_of_true (iff_of_false (fun hv => ?_) ?_) fun ds rest h => absurd ⟨ds, rest, h⟩ hscan
    · obtain rfl | ⟨ds, rest, h, -⟩ := (validateBaseName_ne s).mp (by rw [hv]; decide)
      · exact absurd hv (by decide)
      · exact hscan ⟨ds, rest, h⟩
    · rintro ⟨n, -, rfl⟩
      exact hscan ⟨_, _, scanned_write n⟩

/-- **The scan accepts the names that are written, but for what is behind the digits, leading zeros and
numbers with more than ten digits; then an index has one name.** -/
theorem spelled_iff (key : Key) (n : ℕ) : (Spelled (keyBaseName key) ↔ WellSpelled (keyBaseName key)) ∧
    ((∃! s, WellSpelled s ∧ validateBaseName s = 1 ∧
      elektraReadArrayNumber (jumpUnderscores s) = some (n : ℤ)) ↔ n < 10 ^ 10) := by
  refine ⟨spelled_iff_wellSpelled _, ?_⟩
  have hone : ∀ s, WellSpelled s ∧ validateBaseName s = 1 ∧
      elektraReadArrayNumber (jumpUnderscores s) = some (n : ℤ) → s = elektraWriteArrayNumber n := by
    rintro s ⟨hwell, hv, hread⟩
    obtain ⟨m, hm, rfl⟩ := ((spelled_iff_wellSpelled s).mpr hwell).mp hv
    rw [read_write hm] at hread
    rw [Nat.cast_inj.mp (Option.some.inj hread)]
  constructor
  · rintro ⟨s, hs, -⟩
    obtain rfl := hone s hs
    exact (validate_write n).mp hs.2.1
  · intro hn
    have hlt : n < 2 ^ 63 := hn.trans (by decide)
    have hv := (validate_write n).mpr hn
    have hwell := (spelled_iff_wellSpelled _).mp (iff_of_true hv ⟨n, hlt, rfl⟩)
    exact ⟨elektraWriteArrayNumber n, ⟨hwell, hv, read_write hlt⟩, hone⟩

/-- A number with a leading zero is accepted. -/
theorem not_spelled : ¬ Spelled (keyBaseName (keyNewName (str "user/#_00"))) := by
  have hbase : keyBaseName (keyNewName (str "user/#_00")) = str "#_00" := by decide +kernel
  rw [hbase]
  intro h
  obtain ⟨n, -, he⟩ := h.mp (by decide)
  have hscan : Scanned (str "#_00") (str "00") [] := ⟨by decide, by decide, fun d hd => by
    rw [List.eq_of_mem_replicate (n := 2) hd]
    rfl, nofun⟩
  obtain ⟨-, hplain, -⟩ := (hscan.write_iff n).mp he
  obtain h | h := hplain
  · exact absurd h (by decide)
  · exact h rfl

/-! ## The next element -/

/-- The index of an element; the one of the start is before 0. -/
def arrayIndex (baseName : Str) : Option ℤ :=
  if baseName = str "#" then some (-1) else elektraReadArrayNumber (jumpUnderscores baseName)

/-- `key'` is the element behind `key`. -/
structure Incremented (key key' : Key) : Prop where
  valid : elektraArrayValidateName key' = 1
  index : ∃ n, arrayIndex (keyBaseName key) = some n ∧ arrayIndex (keyBaseName key') = some (n + 1)
  sorted : keyCmp (some key) (some key') = .lt
  fits : (keyBaseName key').length + 1 ≤ ELEKTRA_MAX_ARRAY_SIZE

/-- `elektraArrayIncName` fails without a change, or gives the next element. -/
def Increments (key : Key) : Prop :=
  ∃ ret key', elektraArrayIncName key = some (ret, key') ∧
    (ret = -1 ∧ key' = key ∨ ret = 0 ∧ Incremented key key')

/-- The next number has at least as many digits, but not more than ten. -/
def Followed (baseName : Str) : Prop :=
  baseName = str "#" ∨ ∃ ds rest, Scanned baseName ds rest ∧
    value ds + 1 < 10 ^ 10 ∧ 10 ^ (ds.length - 1) ≤ value ds + 1

theorem incBaseName_start : incBaseName (str "#") = some (some (elektraWriteArrayNumber 0)) := rfl

theorem incBaseName_scanned {baseName ds rest : Str} (h : Scanned baseName ds rest) (hlen : ds.length ≤ 10) :
    incBaseName baseName =
      if 10 ^ 10 ≤ value ds + 1 then none else some (some (elektraWriteArrayNumber (value ds + 1))) := by
  have hv : validateBaseName baseName = 1 := by rw [h.validate, if_pos hlen]
  have hvalue : value ds < 2 ^ 63 :=
    (value_lt h.digit).trans ((Nat.pow_le_pow_right (by decide) hlen).trans_lt (by decide))
  have hnat : ((value ds : ℤ) + 1).toNat = value ds + 1 := by omega
  have hbuffer : ELEKTRA_MAX_ARRAY_SIZE < (elektraWriteArrayNumber (value ds + 1)).length + 1 ↔
      10 ^ 10 ≤ value ds + 1 := by
    rw [length_write, ← not_lt, ← digits_length_le (n := value ds + 1) (by decide)]
    dsimp only [ELEKTRA_MAX_ARRAY_SIZE]
    omega
  rw [incBaseName]
  dsimp only
  rw [hv, if_neg (by decide), if_neg (by decide), h.read, if_pos hvalue]
  dsimp only
  rw [hnat]
  by_cases hfull : 10 ^ 10 ≤ value ds + 1
  · rw [if_pos hfull, if_pos (hbuffer.mpr hfull)]
  · rw [if_neg hfull, if_neg fun hb => hfull (hbuffer.mp hb)]

theorem keySetBaseName_locked {key : Key} (h : key.roName = true) (baseName : Option Str) :
    (keySetBaseName key baseName).2 = key := by
  rw [keySetBaseName, if_pos h]

section Next

variable {key key' : Key} {P : Path} {t : CString} {n : ℕ}

/-- The name that is set is behind exactly if the base name is: an element is not next to itself. -/
theorem keyCmp_next (h : HasName key (P.add t)) (h' : HasName key' (P.add (arrayName n))) (hn : n < 10 ^ 10)
    (hindex : arrayIndex t.1 = some ((n : ℤ) - 1)) :
    keyCmp (some key) (some key') = .lt ↔ compare t.1 (elektraWriteArrayNumber n) = .lt := by
  have hsiblings := keyCmp_siblings h h'
  have hne : compare t.1 (arrayName n).1 ≠ .eq := fun he => by
    have heq : t.1 = elektraWriteArrayNumber n := Std.LawfulEqCmp.eq_of_compare he
    rw [heq, arrayIndex, if_neg (scanned_write n).ne_start, ((arrayNumber_iff n).mpr hn).read] at hindex
    have := Option.some.inj hindex
    omega
  change _ ↔ compare t.1 (arrayName n).1 = .lt
  rw [hsiblings]
  cases hc : compare t.1 (arrayName n).1 with
  | lt => exact iff_of_true rfl rfl
  | eq => exact absurd hc hne
  | gt => exact Iff.rfl

/-- A key with the base name of the next number is the next element, as far as it is behind. -/
theorem incremented_iff (h : HasName key (P.add t)) (h' : HasName key' (P.add (arrayName n))) (hn : n < 10 ^ 10)
    (hindex : arrayIndex t.1 = some ((n : ℤ) - 1)) :
    Incremented key key' ↔ compare t.1 (elektraWriteArrayNumber n) = .lt := by
  have hnumber := (arrayNumber_iff n).mpr hn
  rw [← keyCmp_next h h' hn hindex]
  refine ⟨fun hi => hi.sorted, fun hlt => ⟨hnumber.accepted h', ⟨(n : ℤ) - 1, ?_, ?_⟩, hlt, ?_⟩⟩
  · rw [keyBaseName_add h, hindex]
  · rw [keyBaseName_add h', show (arrayName n).1 = elektraWriteArrayNumber n from rfl, arrayIndex,
      if_neg (scanned_write n).ne_start, Int.sub_add_cancel]
    exact hnumber.read
  · rw [keyBaseName_add h']
    exact hnumber.fits

end Next

theorem Scanned.followed {baseName ds rest : Str} (h : Scanned baseName ds rest) : Followed baseName ↔
    value ds + 1 < 10 ^ 10 ∧ 10 ^ (ds.length - 1) ≤ value ds + 1 := by
  refine ⟨?_, fun hc => .inr ⟨ds, rest, h, hc⟩⟩
  rintro (hs | ⟨es, rest', h', hc⟩)
  · exact absurd hs h.ne_start
  · obtain ⟨rfl, rfl⟩ := h.unique h'
    exact hc

theorem Scanned.lt_next {baseName ds rest : Str} (h : Scanned baseName ds rest) :
    compare baseName (elektraWriteArrayNumber (value ds + 1)) = .lt ↔ 10 ^ (ds.length - 1) ≤ value ds + 1 := by
  have hwritten := scanned_write (value ds + 1)
  constructor
  · intro hlt
    by_contra hshort
    have hone : ds.length - 1 ≠ 0 := fun h0 => hshort (by rw [h0, pow_zero]; omega)
    have hless := (digits_length_le (by omega)).mpr (not_le.mp hshort)
    have hgt := hwritten.lt h (.inl (by omega))
    rw [Std.OrientedOrd.eq_swap, hgt] at hlt
    cases hlt
  · intro hlong
    refine h.lt hwritten ?_
    have hle : ds.length ≤ (digits (value ds + 1)).length := by
      by_contra hless
      have hpos := digits_length_pos (value ds + 1)
      have := (digits_length_le (n := value ds + 1) (k := ds.length - 1) (by omega)).mp (by omega)
      omega
    obtain hlt | heq := hle.lt_or_eq
    · exact .inl hlt
    · exact .inr ⟨heq, by rw [value_digits]; omega⟩

/-- **The next name of an accepted one**, if there is one. -/
theorem next_of_accepted {key : Key} (hv : elektraArrayValidateName key ≠ -1) :
    elektraArrayIncName key = none ∧ ¬ Followed (keyBaseName key) ∨
    ∃ n : ℕ, n < 10 ^ 10 ∧ arrayIndex (keyBaseName key) = some ((n : ℤ) - 1) ∧
      elektraArrayIncName key = some (0, (keySetBaseName key (some (elektraWriteArrayNumber n))).2) ∧
      (Followed (keyBaseName key) ↔ compare (keyBaseName key) (elektraWriteArrayNumber n) = .lt) := by
  rw [elektraArrayIncName]
  obtain hstart | ⟨ds, rest, hscan, hlen⟩ := (validateBaseName_ne (keyBaseName key)).mp hv
  · rw [hstart, incBaseName_start]
    exact .inr ⟨0, by decide, rfl, rfl, iff_of_true (.inl rfl) (by decide)⟩
  · rw [incBaseName_scanned hscan hlen]
    by_cases hfull : 10 ^ 10 ≤ value ds + 1
    · rw [if_pos hfull]
      exact .inl ⟨rfl, fun hf => absurd (hscan.followed.mp hf).1 (not_lt.mpr hfull)⟩
    · rw [if_neg hfull]
      have hvalue : value ds < 2 ^ 63 := by omega
      refine .inr ⟨value ds + 1, not_le.mp hfull, ?_, rfl, ?_⟩
      · rw [arrayIndex, if_neg hscan.ne_start, hscan.read, if_pos hvalue, Nat.cast_succ, Int.add_sub_cancel]
      · rw [hscan.followed, hscan.lt_next, and_iff_right (not_le.mp hfull)]

theorem exists_add {key : Key} {P : Path} (h : HasName key P) (hv : elektraArrayValidateName key ≠ -1) :
    ∃ (Q : Path) (t : CString), P = Q.add t := by
  obtain hp | hadd := P.cases_parts
  · refine absurd ?_ hv
    rw [elektraArrayValidateName, keyBaseName_eq h, hp]
    rfl
  · exact hadd

/-- **`elektraArrayIncName` increments, but for locked names, the last number and leading zeros.** -/
theorem increments_iff {key : Key} {P : Path} (h : HasName key P) (hv : elektraArrayValidateName key ≠ -1) :
    Increments key ↔ key.roName = false ∧ Followed (keyBaseName key) := by
  obtain ⟨Q, t, rfl⟩ := exists_add h hv
  obtain ⟨hinc, hf⟩ | ⟨n, hn, hindex, hinc, hf⟩ := next_of_accepted hv
  · refine iff_of_false ?_ fun hc => hf hc.2
    rintro ⟨ret, key', he, -⟩
    rw [hinc] at he
    cases he
  have hstep : Increments key ↔ Incremented key (keySetBaseName key (some (elektraWriteArrayNumber n))).2 := by
    refine ⟨?_, fun hi => ⟨0, _, hinc, .inr ⟨rfl, hi⟩⟩⟩
    rintro ⟨ret, key', he, ⟨hret, -⟩ | ⟨-, hi⟩⟩
    all_goals
      rw [hinc] at he
      obtain ⟨rfl, rfl⟩ := Prod.mk.inj (Option.some.inj he)
    · exact absurd hret (by decide)
    · exact hi
  rw [hstep, hf]
  cases hro : key.roName with
  | true =>
    rw [keySetBaseName_locked hro]
    refine iff_of_false (fun hi => ?_) fun hr => absurd hr.1 (by decide)
    obtain ⟨m, hm, hm'⟩ := hi.index
    have := Option.some.inj (hm.symm.trans hm')
    omega
  | false =>
    rw [keyBaseName_add h] at hindex ⊢
    exact (incremented_iff h (keySetBaseName_spec h hro (arrayName n)).2.2 hn hindex).trans
      (and_iff_right rfl).symm

theorem increments_nine : Increments (elektraFinalizeName keyNew (Path.mk (.ns .user) [arrayName 9]).name) := by
  have hbase : keyBaseName (elektraFinalizeName keyNew (Path.mk (.ns .user) [arrayName 9]).name) =
      elektraWriteArrayNumber 9 := by decide +kernel
  refine (increments_iff (hasName_finalize keyNew ⟨.ns .user, [arrayName 9]⟩) (by decide +kernel)).mpr
    ⟨rfl, .inr ⟨digits 9, [], ?_, by decide, by decide⟩⟩
  rw [hbase]
  exact scanned_write 9

/-- The name of the last number is accepted, and the one behind it does not fit. -/
theorem not_increments : elektraArrayValidateName (keyNewName (str "user/#_________9999999999")) = 1 ∧
    ¬ Increments (keyNewName (str "user/#_________9999999999")) := by
  refine ⟨by decide +kernel, ?_⟩
  rintro ⟨ret, key', he, -⟩
  have hnone : elektraArrayIncName (keyNewName (str "user/#_________9999999999")) = none := by
    decide +kernel
  rw [hnone] at he
  cases he

end Elektra.Ease
