import Elektra.Trie.Model

/-!
# The levels of a name from its end

The yajl plugin goes through the levels of a name backwards, and looks only at neighbouring characters.
Pointers are offsets into the name; a step that reads outside of it has no result.

* `elektraKeyNameGetReverseIterator`, `elektraKeyNameReverseNext`, `reverseLevels`, `elektraKeyCountLevel`;
* `forwardLevels`: pointers and sizes that `keyNameGetOneLevel` gives;
* `Guarded`, `levelBegin_level`: separators inside of a level do not end it;
* `Spaced`, `Behind`, **`reverseLoop_isSome`**: no round reads outside of a canonical name;
* `reverseLoop_spans`, `forwardLoop_spans`, **`reverseLevels_spec`**: the levels are those of the scanner.
-/

namespace Elektra.Yajl

/-! ## The code -/

structure KeyNameReverseIterator where
  rbegin : ℕ
  rend : ℕ
  current : ℕ
  size : ℕ
  deriving DecidableEq, Repr

def elektraKeyNameGetReverseIterator (k : Key) : KeyNameReverseIterator :=
  { rend := 0, rbegin := keyGetNameSize k, current := keyGetNameSize k, size := 0 }

/-- A byte of a name and the NUL behind it. -/
def byteAt (name : Str) (i : ℕ) : Option UInt8 := (name ++ [0])[i]?

/-- `while (*real == KDB_PATH_SEPARATOR) --real;` -/
def skipSeparators (name : Str) : ℕ → Option ℕ
  | 0 => do
    let c ← byteAt name 0
    if c = pathSeparator then none else some 0
  | real + 1 => do
    let c ← byteAt name (real + 1)
    if c = pathSeparator then skipSeparators name real else some (real + 1)

/-- The loop to where the level begins; `rend` is `0`. -/
def levelBegin (name : Str) : ℕ → Option ℕ
  | 0 => some 0
  | 1 => some 0
  | real + 2 => do
    let c ← byteAt name (real + 1)
    if c = pathSeparator then
      let d ← byteAt name real
      -- the fix for the lookahead leads back to where the round began
      if d ≠ pathEscape then some (real + 2) else levelBegin name real
    else levelBegin name (real + 1)

def elektraKeyNameReverseNext (name : Str) (it : KeyNameReverseIterator) :
    Option (KeyNameReverseIterator × ℤ) :=
  if it.current = it.rend then some (it, 0)
  else do
    let real ← skipSeparators name (it.current - 1)
    let c ← byteAt name real
    let currentEnd := if c = pathEscape then real + 1 else real
    let real ← levelBegin name currentEnd
    some ({ it with size := currentEnd - real + 1, current := real }, 1)

/-- What the loop `while (elektraKeyNameReverseNext (&it))` sees in `current` and `size`. -/
def reverseLoop (name : Str) : ℕ → KeyNameReverseIterator → Option (List (ℕ × ℕ))
  | 0, _ => none
  | fuel + 1, it => do
    let (it, ret) ← elektraKeyNameReverseNext name it
    if ret = 0 then some [] else (reverseLoop name fuel it).map ((it.current, it.size) :: ·)

/-- Every round goes back, so the size of the name bounds the rounds. -/
def reverseLevels (k : Key) : Option (List (ℕ × ℕ)) :=
  reverseLoop (keyName k) (keyGetNameSize k + 1) (elektraKeyNameGetReverseIterator k)

def elektraKeyCountLevel (cur : Key) : Option ℕ := (reverseLevels cur).map List.length

/-- The pointers and sizes in the loop `while (*(p = keyNameGetOneLevel (p + size, &size)))`. -/
def forwardLoop (name : Str) : ℕ → ℕ → List (ℕ × ℕ)
  | 0, _ => []
  | fuel + 1, p =>
    match keyNameGetOneLevel (name.drop p) with
    | ([], _) => []
    | (real, size) => (name.length - real.length, size) :: forwardLoop name fuel (name.length - real.length + size)

def forwardLevels (k : Key) : List (ℕ × ℕ) := forwardLoop (keyName k) (keyGetNameSize k) 0

/-! ## Levels in a name -/

/-- The first separator of two, and one at the end, are inside of a level: a backslash is before them. -/
def Spaced (s : Str) : Prop :=
  ∀ i, s[i]? = some pathSeparator → s[i + 1]? = some pathSeparator ∨ s[i + 1]? = none →
    ∃ j, i = j + 1 ∧ s[j]? = some pathEscape

/-- A backslash is before every separator. -/
def Guarded (s : Str) : Prop :=
  ∀ i, s[i]? = some pathSeparator → ∃ j, i = j + 1 ∧ s[j]? = some pathEscape

/-- Where the levels are, when the first one begins at `o`. -/
def spans : ℕ → List Str → List (ℕ × ℕ)
  | _, [] => []
  | o, p :: ps => (o, p.length) :: spans (o + p.length + 1) ps

theorem spans_append (ps qs : List Str) : ∀ o, spans o (ps ++ qs) = spans o ps ++ spans (o + (join ps).length) qs := by
  induction ps with
  | nil => simp [spans]
  | cons p ps ih =>
    intro o
    rw [List.cons_append, spans, spans, ih, List.cons_append, join_cons]
    congr 3
    simp only [List.length_cons, List.length_append]
    omega

theorem guarded_of_unbroken : ∀ {s : Str} {n : ℕ}, Unbroken n s → ∀ i, s[i]? = some pathSeparator →
    i = 0 ∧ n % 2 = 1 ∨ ∃ j, i = j + 1 ∧ s[j]? = some pathEscape
  | [], _, _, i, hi => by cases hi
  | c :: s, n, hu, 0, hi => by
    obtain rfl : c = pathSeparator := by simpa using hi
    rw [Unbroken, if_neg separator_ne_escape] at hu
    exact .inl ⟨rfl, hu.1 rfl⟩
  | c :: s, n, hu, i + 1, hi => by
    rw [List.getElem?_cons_succ] at hi
    refine .inr ⟨i, rfl, ?_⟩
    rw [Unbroken] at hu
    split_ifs at hu with hc
    · obtain ⟨rfl, -⟩ | ⟨j, rfl, hj⟩ := guarded_of_unbroken hu i hi
      · rw [List.getElem?_cons_zero, hc]
      · rwa [List.getElem?_cons_succ]
    · obtain ⟨-, hodd⟩ | ⟨j, rfl, hj⟩ := guarded_of_unbroken hu.2 i hi
      · cases hodd
      · rwa [List.getElem?_cons_succ]

theorem IsLevel.guarded {p : Str} (h : IsLevel p) : Guarded p := by
  intro i hi
  obtain ⟨-, hodd⟩ | hj := guarded_of_unbroken h.unbroken i hi
  · cases hodd
  · exact hj

theorem Guarded.spaced {s : Str} (h : Guarded s) : Spaced s := fun i hi _ => h i hi

section Index

variable {s t : Str} {c : UInt8}

theorem getElem?_separator : (s ++ c :: t)[s.length]? = some c := by
  rw [List.getElem?_append_right le_rfl, Nat.sub_self, List.getElem?_cons_zero]

theorem getElem?_behind (k : ℕ) : (s ++ c :: t)[s.length + 1 + k]? = t[k]? := by
  rw [List.getElem?_append_right (by omega), Nat.add_assoc, Nat.add_sub_cancel_left, Nat.add_comm 1 k,
    List.getElem?_cons_succ]

end Index

theorem Spaced.append {s p : Str} (hs : Spaced s) (hp : IsLevel p) : Spaced (s ++ pathSeparator :: p) := by
  have hguard : Guarded p := IsLevel.guarded hp
  intro i hi hnext
  obtain hlt | rfl | hgt := lt_trichotomy i s.length
  · rw [List.getElem?_append_left hlt] at hi
    have hs' : s[i + 1]? = some pathSeparator ∨ s[i + 1]? = none := by
      obtain hin | hend := Nat.lt_or_ge (i + 1) s.length
      · rwa [List.getElem?_append_left hin] at hnext
      · exact .inr (List.getElem?_eq_none hend)
    obtain ⟨j, rfl, hj⟩ := hs i hi hs'
    exact ⟨j, rfl, by rwa [List.getElem?_append_left (Nat.lt_of_succ_lt hlt)]⟩
  · -- the first character of a level is no separator
    obtain ⟨c, t, rfl, hc⟩ := IsLevel.cons hp
    have hfirst : (s ++ pathSeparator :: c :: t)[s.length + 1]? = some c := getElem?_behind 0
    rw [hfirst] at hnext
    obtain h | h := hnext
    · exact absurd (Option.some.inj h) hc
    · cases h
  · obtain ⟨k, rfl⟩ := Nat.exists_eq_add_of_le (Nat.succ_le_of_lt hgt)
    rw [Nat.succ_eq_add_one, getElem?_behind] at hi
    obtain ⟨j, rfl, hj⟩ := hguard k hi
    exact ⟨s.length + 1 + j, rfl, by rwa [getElem?_behind]⟩

theorem spaced_join {ps : List Str} (hps : ∀ p ∈ ps, IsLevel p) : ∀ {s : Str}, Spaced s → Spaced (s ++ join ps) := by
  induction ps with
  | nil =>
    intro s hs
    rwa [join_nil, List.append_nil]
  | cons p ps ih =>
    intro s hs
    rw [join_cons, ← List.append_assoc]
    exact ih (fun q hq => hps q (List.mem_cons_of_mem p hq)) (hs.append (hps p List.mem_cons_self))

theorem Namespace.spaced (n : Namespace) : Spaced n.name := (IsLevel.guarded n.isLevel).spaced

theorem spaced_stem (P : Path) : Spaced P.stem := by
  refine spaced_join (fun p hp => (Path.isPart_of_mem hp).toIsLevel) ?_
  cases P.root with
  | cascading =>
    intro i hi
    cases hi
  | ns n => exact Namespace.spaced n

/-! ## One round -/

section Round

variable {name : Str} {it : KeyNameReverseIterator} {e : ℕ}

theorem byteAt_of_lt {i : ℕ} (h : i < name.length) : byteAt name i = name[i]? := List.getElem?_append_left h

theorem byteAt_of_some {i : ℕ} {c : UInt8} (h : name[i]? = some c) : byteAt name i = some c := by
  rw [byteAt_of_lt (List.getElem?_eq_some_iff.mp h).1, h]

theorem byteAt_length : byteAt name name.length = some 0 := getElem?_separator

variable (name) in
/-- `current` is behind a part of the name that ends at `e`: its last byte, or the NUL. -/
inductive Behind : ℕ → ℕ → Prop
  | nul : Behind (name.length + 1) name.length
  | separator {e : ℕ} {c : UInt8} (hsep : name[e + 1]? = some pathSeparator) (hlast : name[e]? = some c)
      (hc : c ≠ pathEscape) : Behind (e + 2) e

theorem Behind.lt {current : ℕ} (h : Behind name current e) : e < current := by
  cases h <;> omega

theorem Behind.le_length {current : ℕ} (h : Behind name current e) : e ≤ name.length := by
  cases h with
  | nul => exact le_rfl
  | separator _ hlast _ => exact (List.getElem?_eq_some_iff.mp hlast).1.le

theorem skipSeparators_other {i : ℕ} {c : UInt8} (h : byteAt name i = some c) (hc : c ≠ pathSeparator) :
    skipSeparators name i = some i := by
  cases i with
  | zero =>
    rw [skipSeparators, h]
    exact if_neg hc
  | succ i =>
    rw [skipSeparators, h]
    exact if_neg hc

theorem skipSeparators_separator {i : ℕ} (h : byteAt name (i + 1) = some pathSeparator) :
    skipSeparators name (i + 1) = skipSeparators name i := by
  rw [skipSeparators, h, Option.bind_eq_bind, Option.bind_some, if_pos rfl]

/-- The steps back over separators and an escaped one lead to the end of the part. -/
theorem Behind.skip {current : ℕ} (h : Behind name current e) (hname : Spaced name) :
    ∃ real c, skipSeparators name (current - 1) = some real ∧ byteAt name real = some c ∧
      (if c = pathEscape then real + 1 else real) = e := by
  cases h with
  | nul => exact ⟨name.length, 0, skipSeparators_other byteAt_length (by decide), byteAt_length, if_neg (by decide)⟩
  | @separator e c hsep hlast hc =>
    have hskip : skipSeparators name (e + 2 - 1) = skipSeparators name e := skipSeparators_separator (byteAt_of_some hsep)
    rw [hskip]
    by_cases hescaped : c = pathSeparator
    · subst hescaped
      obtain ⟨j, rfl, hj⟩ := hname e hlast (.inl hsep)
      refine ⟨j, pathEscape, ?_, byteAt_of_some hj, if_pos rfl⟩
      rw [skipSeparators_separator (byteAt_of_some hlast),
        skipSeparators_other (byteAt_of_some hj) separator_ne_escape.symm]
    · exact ⟨e, c, skipSeparators_other (byteAt_of_some hlast) hescaped, byteAt_of_some hlast, if_neg hc⟩

/-- **One round** goes to where `levelBegin` leads from the end of the part. -/
theorem Behind.next (h : Behind name it.current e) (hname : Spaced name) (hrend : it.rend = 0) :
    elektraKeyNameReverseNext name it =
      (levelBegin name e).map fun real => ({ it with size := e - real + 1, current := real }, 1) := by
  obtain ⟨real, c, hskip, hbyte, hend⟩ := h.skip hname
  have hcurrent : it.current ≠ it.rend := by
    have := h.lt
    omega
  rw [elektraKeyNameReverseNext, if_neg hcurrent, hskip, Option.bind_eq_bind, Option.bind_some, hbyte,
    Option.bind_eq_bind, Option.bind_some]
  dsimp only
  rw [hend]
  exact Option.map_eq_bind.symm

theorem Behind.round {fuel real : ℕ} (h : Behind name it.current e) (hname : Spaced name) (hrend : it.rend = 0)
    (hreal : levelBegin name e = some real) :
    reverseLoop name (fuel + 1) it =
      (reverseLoop name fuel { it with size := e - real + 1, current := real }).map ((real, e - real + 1) :: ·) := by
  rw [reverseLoop, h.next hname hrend, hreal, Option.map_some, Option.bind_eq_bind, Option.bind_some]
  exact if_neg one_ne_zero

theorem reverseLoop_done {fuel : ℕ} (hcurrent : it.current = 0) (hrend : it.rend = 0) :
    reverseLoop name (fuel + 1) it = some [] := by
  rw [reverseLoop, elektraKeyNameReverseNext, if_pos (by rw [hcurrent, hrend]), Option.bind_eq_bind, Option.bind_some]
  exact if_pos rfl

theorem levelBegin_spec : ∀ {n : ℕ}, n ≤ name.length →
    ∃ real, levelBegin name n = some real ∧ real ≤ n ∧ (real = 0 ∨ ∃ e, Behind name real e)
  | 0, _ => ⟨0, rfl, le_rfl, .inl rfl⟩
  | 1, _ => ⟨0, rfl, Nat.zero_le 1, .inl rfl⟩
  | n + 2, h => by
    obtain ⟨c, hc⟩ : ∃ c, name[n + 1]? = some c := ⟨_, List.getElem?_eq_getElem h⟩
    obtain ⟨d, hd⟩ : ∃ d, name[n]? = some d := ⟨_, List.getElem?_eq_getElem (Nat.lt_of_succ_lt h)⟩
    rw [levelBegin, byteAt_of_some hc, byteAt_of_some hd]
    dsimp only [Option.bind_eq_bind, Option.bind_some]
    by_cases hsep : c = pathSeparator
    · subst hsep
      rw [if_pos rfl]
      by_cases hescape : d = pathEscape
      · obtain ⟨real, hreal, hle, hbegin⟩ := levelBegin_spec (n := n) (by omega)
        rw [if_neg (not_not.mpr hescape)]
        exact ⟨real, hreal, by omega, hbegin⟩
      · rw [if_pos hescape]
        exact ⟨n + 2, rfl, le_rfl, .inr ⟨n, .separator hc hd hescape⟩⟩
    · obtain ⟨real, hreal, hle, hbegin⟩ := levelBegin_spec (n := n + 1) (by omega)
      rw [if_neg hsep]
      exact ⟨real, hreal, by omega, hbegin⟩

/-- **No round reads outside of the name.** -/
theorem reverseLoop_isSome (hname : Spaced name) : ∀ {fuel : ℕ} {it : KeyNameReverseIterator}, it.rend = 0 →
    (it.current = 0 ∨ ∃ e, Behind name it.current e) → it.current < fuel → (reverseLoop name fuel it).isSome
  | fuel + 1, it, hrend, hit, hfuel => by
    obtain hzero | ⟨e, h⟩ := hit
    · rw [reverseLoop_done hzero hrend]
      rfl
    · obtain ⟨real, hreal, hle, hbegin⟩ := levelBegin_spec h.le_length
      have hlt := h.lt
      have hrest : (reverseLoop name fuel { it with size := e - real + 1, current := real }).isSome :=
        reverseLoop_isSome hname hrend hbegin
          (Nat.lt_of_lt_of_le (Nat.lt_of_le_of_lt hle hlt) (Nat.le_of_lt_succ hfuel))
      rw [h.round hname hrend hreal, Option.isSome_map]
      exact hrest

/-! ## Whole levels -/

theorem levelBegin_first {p : Str} (rest : Str) (hp : Guarded p) : ∀ {k : ℕ}, k ≤ p.length →
    levelBegin (p ++ rest) k = some 0
  | 0, _ => rfl
  | 1, _ => rfl
  | k + 2, hk => by
    have hat : ∀ i, i < p.length → byteAt (p ++ rest) i = p[i]? := fun i hi => by
      rw [byteAt, List.append_assoc, List.getElem?_append_left hi]
    obtain ⟨c, hc⟩ : ∃ c, p[k + 1]? = some c := ⟨_, List.getElem?_eq_getElem hk⟩
    rw [levelBegin, hat (k + 1) hk, hc, hat k (Nat.lt_of_succ_lt hk)]
    dsimp only [Option.bind_eq_bind, Option.bind_some]
    by_cases hsep : c = pathSeparator
    · subst hsep
      obtain ⟨j, hj, hescape⟩ := hp (k + 1) hc
      obtain rfl := Nat.succ.inj hj
      rw [if_pos rfl, hescape, Option.bind_some, if_neg (not_not.mpr rfl)]
      exact levelBegin_first rest hp (by omega)
    · rw [if_neg hsep]
      exact levelBegin_first rest hp (by omega)

/-- Another level begins behind its separator, when no backslash is before that. -/
theorem levelBegin_level {s p rest : Str} {c : UInt8} (hs : s.getLast? = some c) (hc : c ≠ pathEscape)
    (hp : Guarded p) {k : ℕ} (hk : k ≤ p.length) :
    levelBegin (s ++ pathSeparator :: (p ++ rest)) (s.length + 1 + k) = some (s.length + 1) := by
  obtain ⟨s, rfl⟩ := List.getLast?_eq_some_iff.mp hs
  have hname : (s ++ [c] ++ pathSeparator :: (p ++ rest)) = s ++ c :: pathSeparator :: (p ++ rest) := by simp
  have hlen : (s ++ [c]).length + 1 = s.length + 2 := by simp
  rw [hname, hlen]
  have hat : ∀ i, i < p.length → byteAt (s ++ c :: pathSeparator :: (p ++ rest)) (s.length + 2 + i) = p[i]? := by
    intro i hi
    have := getElem?_behind (s := s ++ [c]) (t := p ++ (rest ++ [0])) (c := pathSeparator) i
    rw [hlen, List.getElem?_append_left hi] at this
    rw [byteAt, ← this]
    simp
  have hsep : byteAt (s ++ c :: pathSeparator :: (p ++ rest)) (s.length + 1) = some pathSeparator :=
    byteAt_of_some (getElem?_behind 0)
  have hlast : byteAt (s ++ c :: pathSeparator :: (p ++ rest)) s.length = some c := byteAt_of_some getElem?_separator
  induction k using Nat.strong_induction_on with
  | _ k ih =>
    cases k with
    | zero =>
      rw [Nat.add_zero, levelBegin, hsep, hlast]
      dsimp only [Option.bind_eq_bind, Option.bind_some]
      rw [if_pos rfl, if_pos hc]
    | succ k =>
      obtain ⟨d, hd⟩ : ∃ d, p[k]? = some d := ⟨_, List.getElem?_eq_getElem hk⟩
      have hshift : s.length + 2 + (k + 1) = s.length + 1 + k + 2 := by omega
      have hbyte : byteAt (s ++ c :: pathSeparator :: (p ++ rest)) (s.length + 1 + k + 1) = some d := by
        rw [← hd, ← hat k hk]
        congr 1
        omega
      rw [hshift, levelBegin, hbyte]
      dsimp only [Option.bind_eq_bind, Option.bind_some]
      by_cases hd' : d = pathSeparator
      · subst hd'
        obtain ⟨j, rfl, hj⟩ := hp k hd
        have hescape : byteAt (s ++ c :: pathSeparator :: (p ++ rest)) (s.length + 1 + (j + 1)) = some pathEscape := by
          rw [← hj, ← hat j (by omega)]
          congr 1
          omega
        rw [if_pos rfl, hescape, Option.bind_some, if_neg (not_not.mpr rfl)]
        have hprev := ih j (by omega) (by omega)
        rwa [show s.length + 2 + j = s.length + 1 + (j + 1) by omega] at hprev
      · have hprev := ih k (by omega) (by omega)
        rw [if_neg hd']
        rwa [show s.length + 2 + k = s.length + 1 + k + 1 by omega] at hprev

/-- A part that does not end in a backslash, and the separator behind it. -/
theorem behind_separator {s : Str} {c : UInt8} (rest : Str) (hs : s.getLast? = some c) (hc : c ≠ pathEscape) :
    Behind (s ++ pathSeparator :: rest) (s.length + 1) (s.length - 1) := by
  obtain ⟨s, rfl⟩ := List.getLast?_eq_some_iff.mp hs
  rw [List.length_append, List.length_singleton, Nat.add_sub_cancel]
  refine .separator (c := c) ?_ ?_ hc
  · have := getElem?_separator (s := s ++ [c]) (t := rest) (c := pathSeparator)
    rwa [List.length_append, List.length_singleton] at this
  · rw [List.append_assoc]
    exact getElem?_separator

end Round

/-- A level that ends in no backslash. -/
structure Plain (p : Str) : Prop extends IsLevel p where
  last : p.getLast? ≠ some pathEscape

section Run

variable {p q : Str} {ps : List Str}

theorem length_join_cons : (join (p :: ps)).length = (p ++ join ps).length + 1 := by
  rw [join_cons, List.cons_append, List.length_cons]

theorem join_concat (rest : Str) :
    p ++ join (ps ++ [q]) ++ rest = p ++ join ps ++ pathSeparator :: (q ++ rest) := by
  rw [join_append, join_cons, join_nil]
  simp

theorem length_join_concat : (p ++ join (ps ++ [q])).length = (p ++ join ps).length + 1 + q.length := by
  rw [← List.append_nil (p ++ join (ps ++ [q])), join_concat, List.append_nil, List.length_append, List.length_cons]
  omega

theorem spans_concat : spans 0 (p :: (ps ++ [q])) = spans 0 (p :: ps) ++ [((p ++ join ps).length + 1, q.length)] := by
  rw [← List.cons_append, spans_append, Nat.zero_add, length_join_cons]
  rfl

theorem getLast_join (h : ∀ q ∈ p :: ps, Plain q) : ∃ c, (p ++ join ps).getLast? = some c ∧ c ≠ pathEscape := by
  have hlast : ∀ {s q : Str}, Plain q → ∃ c, (s ++ q).getLast? = some c ∧ c ≠ pathEscape := by
    intro s q hq
    obtain ⟨t, c, rfl⟩ := q.eq_nil_or_concat'.resolve_left hq.ne_nil
    refine ⟨c, ?_, fun hc => hq.last ?_⟩
    · rw [← List.append_assoc, List.getLast?_concat]
    · rw [List.getLast?_concat, hc]
  obtain rfl | ⟨qs, q, rfl⟩ := ps.eq_nil_or_concat'
  · rw [join_nil, List.append_nil]
    exact hlast (s := []) (h p List.mem_cons_self)
  · rw [← List.append_nil (p ++ join (qs ++ [q])), join_concat, List.append_nil, List.append_cons]
    exact hlast (h q (by simp))

theorem levelBegin_concat (rest : Str) {e : ℕ} (h : ∀ q ∈ p :: ps, Plain q) (hq : IsLevel q)
    (he : (p ++ join (ps ++ [q])).length ≤ e + 1) (hle : e ≤ (p ++ join (ps ++ [q])).length) :
    levelBegin (p ++ join (ps ++ [q]) ++ rest) e = some ((p ++ join ps).length + 1) := by
  obtain ⟨c, hlast, hc⟩ := getLast_join h
  have hpos := List.length_pos_of_ne_nil hq.ne_nil
  rw [length_join_concat] at he hle
  obtain ⟨k, rfl⟩ := Nat.exists_eq_add_of_le (show (p ++ join ps).length + 1 ≤ e by omega)
  rw [join_concat]
  exact levelBegin_level hlast hc (IsLevel.guarded hq) (by omega)

/-- **The rounds from the separator behind some levels**, back to the begin of the name. -/
theorem reverseLoop_levels : ∀ {n : ℕ} {ps : List Str} {rest : Str} {fuel : ℕ} {it : KeyNameReverseIterator},
    ps.length = n → (∀ q ∈ p :: ps, Plain q) → Spaced (p ++ join ps ++ pathSeparator :: rest) → it.rend = 0 →
    it.current = (p ++ join ps).length + 1 → it.current < fuel →
    reverseLoop (p ++ join ps ++ pathSeparator :: rest) fuel it = some (spans 0 (p :: ps)).reverse
  | n, ps, rest, fuel + 1, it, hn, hps, hname, hrend, hcurrent, hfuel => by
    obtain ⟨c, hlast, hc⟩ := getLast_join hps
    have hbehind := behind_separator rest hlast hc
    rw [← hcurrent] at hbehind
    have hp := hps p List.mem_cons_self
    have hpos := List.length_pos_of_ne_nil hp.ne_nil
    obtain rfl | ⟨qs, q, rfl⟩ := ps.eq_nil_or_concat'
    · rw [join_nil, List.append_nil] at hname hcurrent hbehind ⊢
      obtain ⟨fuel, rfl⟩ := Nat.exists_eq_succ_of_ne_zero (Nat.ne_of_gt (show 0 < fuel by omega))
      have hbegin := levelBegin_first (pathSeparator :: rest) (IsLevel.guarded hp.toIsLevel) (Nat.sub_le p.length 1)
      rw [hbehind.round hname hrend hbegin, reverseLoop_done rfl (by exact hrend), Nat.sub_zero, Nat.sub_add_cancel hpos]
      rfl
    · cases n with
      | zero => simp at hn
      | succ n =>
        have hqs : ∀ q ∈ p :: qs, Plain q := fun r hr => hps r (by
          rw [← List.cons_append]
          exact List.mem_append_left _ hr)
        have hq := hps q (by simp)
        have hqpos := List.length_pos_of_ne_nil hq.ne_nil
        have hbegin := levelBegin_concat (pathSeparator :: rest) hqs hq.toIsLevel
          (e := (p ++ join (qs ++ [q])).length - 1) (by omega) (by omega)
        have hsize : (p ++ join (qs ++ [q])).length - 1 - ((p ++ join qs).length + 1) + 1 = q.length := by
          rw [length_join_concat]
          omega
        have hlt : (p ++ join qs).length + 1 < fuel := by
          rw [hcurrent, length_join_concat] at hfuel
          omega
        rw [hbehind.round hname hrend hbegin, hsize, spans_concat, List.reverse_append]
        rw [join_concat] at hname ⊢
        have hrest : reverseLoop (p ++ join qs ++ pathSeparator :: (q ++ pathSeparator :: rest)) fuel
            { it with size := q.length, current := (p ++ join qs).length + 1 } = some (spans 0 (p :: qs)).reverse :=
          reverseLoop_levels (n := n) (by simpa using hn) hqs hname hrend rfl hlt
        rw [hrest]
        rfl

/-- **The rounds over a whole name.** The size of the last level, which comes first, counts the NUL. -/
theorem reverseLoop_spans {fuel : ℕ} {it : KeyNameReverseIterator} (hp : IsLevel p)
    (hps : ∀ q ∈ ps, IsLevel q) (hplain : ∀ q ∈ (p :: ps).dropLast, q.getLast? ≠ some pathEscape)
    (hname : Spaced (p ++ join ps)) (hrend : it.rend = 0) (hcurrent : it.current = (p ++ join ps).length + 1)
    (hfuel : it.current < fuel) :
    reverseLoop (p ++ join ps) fuel it =
      some ((spans 0 (p :: ps)).reverse.modifyHead fun level => (level.1, level.2 + 1)) := by
  obtain ⟨fuel, rfl⟩ := Nat.exists_eq_succ_of_ne_zero (Nat.ne_of_gt (Nat.zero_lt_of_lt hfuel))
  have hbehind : Behind (p ++ join ps) it.current (p ++ join ps).length := by
    rw [hcurrent]
    exact .nul
  obtain rfl | ⟨qs, q, rfl⟩ := ps.eq_nil_or_concat'
  · have hbegin := levelBegin_first (join []) (IsLevel.guarded hp) (k := (p ++ join []).length) (by simp)
    obtain ⟨fuel, rfl⟩ := Nat.exists_eq_succ_of_ne_zero (Nat.ne_of_gt (show 0 < fuel by omega))
    rw [hbehind.round hname hrend hbegin, reverseLoop_done rfl (by exact hrend)]
    simp [spans]
  · have hlevels : ∀ r ∈ p :: qs, Plain r := by
      intro r hr
      rw [← List.cons_append, List.dropLast_concat] at hplain
      refine ⟨?_, hplain r hr⟩
      obtain rfl | hr := List.mem_cons.mp hr
      · exact hp
      · exact hps r (List.mem_append_left _ hr)
    have hbegin := levelBegin_concat [] hlevels (hps q (by simp))
      (e := (p ++ join (qs ++ [q])).length) (by omega) le_rfl
    rw [List.append_nil] at hbegin
    have hsize : (p ++ join (qs ++ [q])).length - ((p ++ join qs).length + 1) + 1 = q.length + 1 := by
      rw [length_join_concat]
      omega
    have hlt : (p ++ join qs).length + 1 < fuel := by
      have hpos := List.length_pos_of_ne_nil (hps q (by simp)).ne_nil
      rw [hcurrent, length_join_concat] at hfuel
      omega
    rw [hbehind.round hname hrend hbegin, hsize, spans_concat, List.reverse_append]
    have hsplit : p ++ join (qs ++ [q]) = p ++ join qs ++ pathSeparator :: q := by
      rw [← List.append_nil (p ++ join (qs ++ [q])), join_concat, List.append_nil]
    rw [hsplit] at hname ⊢
    have hrest : reverseLoop (p ++ join qs ++ pathSeparator :: q) fuel
        { it with size := q.length + 1, current := (p ++ join qs).length + 1 } = some (spans 0 (p :: qs)).reverse :=
      reverseLoop_levels (n := qs.length) rfl hlevels hname hrend rfl hlt
    rw [hrest]
    rfl

/-! ## The scanner -/

theorem oneLevel_join {p : Str} {ps : List Str} (hp : IsLevel p) (hc : Closed p) :
    keyNameGetOneLevel (p ++ join ps) = (p ++ join ps, p.length) := by
  obtain ⟨c, t, rfl, hne⟩ := IsLevel.cons hp
  have hstart : (c :: t ++ join ps).dropWhile (· = pathSeparator) = c :: t ++ join ps :=
    List.dropWhile_cons_of_neg (by simpa using hne)
  have hsize : levelSize 0 (c :: t ++ join ps) = (c :: t).length := by
    rw [levelSize_append hp.unbroken]
    obtain h | ⟨s, h⟩ := join_cases ps
    · rw [h]
      rfl
    · rw [h, levelSize, if_neg separator_ne_escape, if_pos ⟨rfl, hc⟩, Nat.add_zero]
  rw [keyNameGetOneLevel, hstart, hsize]

theorem oneLevel_separator (s : Str) : keyNameGetOneLevel (pathSeparator :: s) = keyNameGetOneLevel s := by
  rw [keyNameGetOneLevel, List.dropWhile_cons_of_pos (by simp), ← keyNameGetOneLevel]

theorem forwardLoop_join {name : Str} : ∀ {ps : List Str} {o fuel : ℕ}, (∀ q ∈ ps, IsLevel q ∧ Closed q) →
    name.drop o = join ps → o ≤ name.length → ps.length < fuel → forwardLoop name fuel o = spans (o + 1) ps
  | [], o, fuel + 1, _, hdrop, _, _ => by
    rw [forwardLoop, hdrop]
    rfl
  | q :: ps, o, fuel + 1, hps, hdrop, ho, hfuel => by
    have hq := hps q List.mem_cons_self
    have hlen : name.length = o + 1 + (q ++ join ps).length := by
      have := congrArg List.length hdrop
      rw [List.length_drop, length_join_cons] at this
      omega
    have hlevel : keyNameGetOneLevel (name.drop o) = (q ++ join ps, q.length) := by
      rw [hdrop, join_cons, List.cons_append, oneLevel_separator, oneLevel_join hq.1 hq.2]
    have hat : name.length - (q ++ join ps).length = o + 1 := by omega
    have hrest : name.drop (o + 1 + q.length) = join ps := by
      rw [Nat.add_assoc, ← List.drop_drop, hdrop, join_cons, List.cons_append, Nat.add_comm 1 q.length,
        List.drop_succ_cons, List.drop_left]
    have hcons : q ++ join ps ≠ [] := List.append_ne_nil_of_left_ne_nil hq.1.ne_nil _
    obtain ⟨c, t, ht⟩ := List.exists_cons_of_ne_nil hcons
    rw [forwardLoop, hlevel, ht]
    dsimp only
    rw [← ht, hat, forwardLoop_join (fun r hr => hps r (List.mem_cons_of_mem q hr)) hrest
      (by rw [hlen, List.length_append]; omega) (Nat.lt_of_succ_lt_succ hfuel), spans]

theorem length_le_join (ps : List Str) : ps.length ≤ (join ps).length := by
  induction ps with
  | nil => exact le_rfl
  | cons p ps ih =>
    rw [length_join_cons, List.length_append, List.length_cons]
    omega

theorem forwardLoop_spans (hp : IsLevel p) (hc : Closed p) (hps : ∀ q ∈ ps, IsLevel q ∧ Closed q) :
    forwardLoop (p ++ join ps) ((p ++ join ps).length + 1) 0 = spans 0 (p :: ps) := by
  obtain ⟨c, t, ht⟩ := List.exists_cons_of_ne_nil (List.append_ne_nil_of_left_ne_nil hp.ne_nil (join ps))
  have hfuel : ps.length < (p ++ join ps).length := by
    have hpos := List.length_pos_of_ne_nil hp.ne_nil
    have hle := length_le_join ps
    rw [List.length_append]
    omega
  rw [forwardLoop, List.drop_zero, oneLevel_join hp hc]
  conv_lhs =>
    rw [ht]
    dsimp only
    rw [← ht]
  rw [Nat.sub_self, forwardLoop_join hps (by rw [Nat.zero_add, List.drop_left]) (by simp) hfuel, spans]

end Run

/-! ## Keys -/

section Keys

variable {k : Key} {P : Path}

theorem size_of_name (hk : HasName k P) : keyName k = P.name ∧ keyGetNameSize k = P.name.length + 1 := by
  rw [keyName, keyGetNameSize, hk.key, if_neg (Option.some_ne_none _), hk.keySize]
  exact ⟨rfl, rfl⟩

theorem levels_of_namespace (hk : HasName k P) (hroot : P.root ≠ .cascading) :
    ∃ n : Namespace, levels (keyName k) = n.name :: P.escaped ∧ keyName k = n.name ++ join P.escaped := by
  obtain ⟨n, hn⟩ : ∃ n, P.root = .ns n := by
    cases hr : P.root with
    | cascading => exact absurd hr hroot
    | ns n => exact ⟨n, rfl⟩
  refine ⟨n, ?_, ?_⟩
  · rw [(size_of_name hk).1, Path.levels_name, hn, if_neg (Root.ns_ne n), Root.level, List.singleton_append]
  · rw [(size_of_name hk).1, Path.name_of_stem fun h => hroot (Path.stem_eq_nil.mp h).1, Path.stem, hn, Root.level]

theorem isLevel_escaped : ∀ q ∈ P.escaped, IsLevel q ∧ Closed q := fun _ hq =>
  ⟨(Path.isPart_of_mem hq).toIsLevel, (Path.isPart_of_mem hq).closed⟩

theorem forwardLevels_spans (hk : HasName k P) (hroot : P.root ≠ .cascading) :
    forwardLevels k = spans 0 (levels (keyName k)) := by
  obtain ⟨n, hlevels, hname⟩ := levels_of_namespace hk hroot
  rw [forwardLevels, (size_of_name hk).2, ← (size_of_name hk).1, hlevels, hname]
  exact forwardLoop_spans n.isLevel n.closed isLevel_escaped

theorem reverseLevels_spans (hk : HasName k P) (hroot : P.root ≠ .cascading)
    (hplain : ∀ level ∈ (levels (keyName k)).dropLast, level.getLast? ≠ some pathEscape) :
    reverseLevels k =
      some ((spans 0 (levels (keyName k))).reverse.modifyHead fun level => (level.1, level.2 + 1)) := by
  obtain ⟨n, hlevels, hname⟩ := levels_of_namespace hk hroot
  have hspaced : Spaced (n.name ++ join P.escaped) := by
    have hstem : P.stem ≠ [] := fun h => hroot (Path.stem_eq_nil.mp h).1
    rw [← hname, (size_of_name hk).1, Path.name_of_stem hstem]
    exact spaced_stem P
  have hsize : keyGetNameSize k = (n.name ++ join P.escaped).length + 1 := by
    rw [← hname, (size_of_name hk).1, (size_of_name hk).2]
  rw [hlevels] at hplain
  rw [reverseLevels, hlevels, hname, hsize]
  exact reverseLoop_spans n.isLevel (fun q hq => (isLevel_escaped q hq).1) hplain hspaced rfl hsize
    (Nat.lt_succ_of_le (le_of_eq hsize))

theorem length_spans (ps : List Str) : ∀ o, (spans o ps).length = ps.length := by
  induction ps with
  | nil => exact fun _ => rfl
  | cons p ps ih =>
    intro o
    rw [spans, List.length_cons, List.length_cons, ih]

theorem elektraKeyCountLevel_eq (hk : HasName k P) (hroot : P.root ≠ .cascading)
    (hplain : ∀ level ∈ (levels (keyName k)).dropLast, level.getLast? ≠ some pathEscape) :
    elektraKeyCountLevel k = some (levels (keyName k)).length := by
  rw [elektraKeyCountLevel, reverseLevels_spans hk hroot hplain, Option.map_some, List.length_modifyHead,
    List.length_reverse, length_spans]

/-- **The levels of a canonical name from its end.** No byte outside of the name is read. Under a namespace,
when only the last level may end in a backslash, they are the levels of the scanner in reverse; the last one
counts the NUL. -/
theorem reverseLevels_spec (hk : HasName k P) :
    (reverseLevels k).isSome ∧
      (P.root ≠ .cascading → (∀ level ∈ (levels (keyName k)).dropLast, level.getLast? ≠ some pathEscape) →
        reverseLevels k = some ((forwardLevels k).reverse.modifyHead fun level => (level.1, level.2 + 1))) := by
  constructor
  · obtain ⟨hname, hsize⟩ := size_of_name hk
    rw [reverseLevels, hname, elektraKeyNameGetReverseIterator, hsize]
    by_cases hroot : P.stem = []
    · rw [Path.name_of_root hroot]
      decide
    · have hspaced := spaced_stem P
      rw [← Path.name_of_stem hroot] at hspaced
      exact reverseLoop_isSome hspaced rfl (.inr ⟨P.name.length, .nul⟩) (Nat.lt_succ_self _)
  · intro hroot hplain
    rw [forwardLevels_spans hk hroot]
    exact reverseLevels_spans hk hroot hplain

end Keys

/-- A part with a separator, and one without. -/
def slashed : Path := ⟨.ns .user, [⟨str "a/", by decide⟩, ⟨str "b", by decide⟩]⟩

theorem reverseLevels_slashed :
    (reverseLevels (elektraFinalizeName keyNew slashed.name)).isSome ∧
      reverseLevels (elektraFinalizeName keyNew slashed.name) =
        some ((forwardLevels (elektraFinalizeName keyNew slashed.name)).reverse.modifyHead
          fun level => (level.1, level.2 + 1)) :=
  ⟨(reverseLevels_spec (hasName_finalize keyNew slashed)).1,
    (reverseLevels_spec (hasName_finalize keyNew slashed)).2 (Root.ns_ne _) (by decide +kernel)⟩

/-- The last level does not have the size that the scanner gives. -/
theorem not_reverseLevels :
    ¬ ∀ (k : Key) (P : Path), HasName k P → reverseLevels k = some (forwardLevels k).reverse := by
  intro h
  have hlevels := h _ slashed (hasName_finalize keyNew slashed)
  exact absurd hlevels (by decide +kernel)

end Elektra.Yajl
