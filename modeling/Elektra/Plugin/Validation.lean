import Elektra.KeySet.Order
import Elektra.Plugin.Line

/-!
# The validation plugin

The value of a key is matched against the regular expression in its metadata: as a whole, line by line, or word by word.

* `Regcomp`: regular expressions, as far as the code sees them;
* `cflags`, `regexString`, `wordLoop`, `elektraValidationSet`: the code;
* `Satisfied`: what the metadata ask for; `Accepted`: what the code looks at;
* `wordLoop_spec`: the words that `strtok_r` finds, and what it leaves of them;
* **`elektraValidationSet_iff`**: when no value changes and the result is right.
-/

namespace Elektra.Validation

/-! ## Regular expressions -/

/-- `REG_EXTENDED`, `REG_ICASE` and `REG_NEWLINE`. `REG_NOSUB` leaves out offsets, which the code does not read. -/
structure Cflags where
  extended : Bool
  icase : Bool
  newline : Bool
  deriving DecidableEq

/-- What `regexec` returns: where the match begins and ends, or what `regerror` says. -/
abbrev Exec := Except Str (ℕ × ℕ)

/-- `regcomp`, and `regexec` for what was compiled. -/
abbrev Regcomp := Cflags → Str → Except Str (Str → Exec)

/-! ## The code -/

section Flags

variable (key : Key)

/-- The metadata in upper case. -/
def upperMeta (name : Str) : Option Str := (keyGetMeta key name).map fun s => s.map toupper

def lineValidation : Bool := upperMeta key (str "check/validation/match") = some (str "LINE")

def wordValidation : Bool := upperMeta key (str "check/validation/match") = some (str "WORD")

def icaseValidation : Bool := (keyGetMeta key (str "check/validation/ignorecase")).isSome

def invertValidation : Bool := (keyGetMeta key (str "check/validation/invert")).isSome

/-- For `BRE` the flags are masked with `REG_EXTENDED`. -/
def cflags : Cflags :=
  let cflags : Cflags := ⟨true, icaseValidation key, lineValidation key⟩
  if upperMeta key (str "check/validation/type") = some (str "ERE") then { cflags with extended := true }
  else if upperMeta key (str "check/validation/type") = some (str "BRE") then ⟨cflags.extended, false, false⟩
  else cflags

def anchored (regex : Str) : Str := 94 :: (regex ++ [36])

def regexString (regex : Str) : Str := if lineValidation key || wordValidation key then anchored regex else regex

end Flags

/-- What `strtok_r` takes as the end of a word. -/
def blank (c : UInt8) : Bool := c = 32 || c = 9 || c = 10

/-- The loop over the words of the bytes from `savePtr` on: whether one matches, what `regerror` says of the last `ret`,
and the bytes, where a NUL is written behind each word that was looked at. -/
def wordLoop (regexec : Str → Exec) : ℕ → Str → Str → Bool × Str × Str
  | 0, s, ret => (false, ret, s)
  | fuel + 1, s, ret =>
    let token := (s.dropWhile blank).takeWhile fun c => !blank c
    let behind := (s.dropWhile blank).dropWhile fun c => !blank c
    if token = [] then (false, ret, s)
    else
      let looked := s.takeWhile blank ++ token ++ if behind = [] then [] else [0]
      match regexec token with
      | .ok _ => (true, ret, looked ++ behind.tail)
      | .error ret =>
        let (found, ret, bytes) := wordLoop regexec fuel behind.tail ret
        (found, ret, looked ++ bytes)

/-- The bytes of the string that `keyString` points to. Those of a binary key are not its value. -/
def writeString (key : Key) (bytes : Str) : Key :=
  if (keyGetMeta key (str "binary")).isSome then key
  else { key with data := key.data.map fun data => bytes ++ data.drop (keyString key).length }

section Calls

variable (env : Environment) (regcomp : Regcomp) (success : Str)

/-- What is done with a key that has an expression: whether it matches, and the text of `ret`, which is `success`
where `ret` is 0. -/
def matchKey (regexec : Str → Exec) (cur : Key) : Bool × Str × Key :=
  if wordValidation cur then
    let (found, ret, bytes) := wordLoop regexec ((keyString cur).length + 1) (keyString cur) success
    (found, if found then success else ret, writeString cur bytes)
  else
    match regexec (keyString cur) with
    | .ok _ => (true, success, cur)
    | .error ret => (false, ret, cur)

def elektraValidationSet : List Key → Key → ℤ × List Key × Key
  | [], parentKey => (1, [], parentKey)
  | cur :: returned, parentKey =>
    match keyGetMeta cur (str "check/validation") with
    | none =>
      let (ret, returned, parentKey) := elektraValidationSet returned parentKey
      (ret, cur :: returned, parentKey)
    | some regexMeta =>
      match regcomp (cflags cur) (regexString cur regexMeta) with
      | .error buffer => (-1, cur :: returned, env.setError 41 parentKey (buffer.take 998))
      | .ok regexec =>
        let (found, buffer, written) := matchKey success regexec cur
        if (found ^^ invertValidation cur) = false then
          (-1, written :: returned,
            env.setError 42 parentKey ((keyGetMeta cur (str "check/validation/message")).getD (buffer.take 998)))
        else
          let (ret, returned, parentKey) := elektraValidationSet returned parentKey
          (ret, written :: returned, parentKey)

end Calls

/-! ## What is asked for -/

section Asked

variable (regcomp : Regcomp) (key : Key) (regex : Str)

def lines (s : Str) : List Str := s.splitOn 10

def words (s : Str) : List Str := (s.splitOnP blank).filter (· ≠ [])

def Whole (regexec : Str → Exec) (s : Str) : Prop := regexec s = .ok (0, s.length)

/-- The value, one of its lines or one of its words matches. -/
def Matches (regexec : Str → Exec) : Prop :=
  if wordValidation key then ∃ w ∈ words (keyString key), Whole regexec w
  else if lineValidation key then ∃ l ∈ lines (keyString key), Whole regexec l
  else ∃ p, regexec (keyString key) = .ok p

/-- The syntax and the case sensitivity that are requested. -/
def requested : Cflags :=
  ⟨upperMeta key (str "check/validation/type") ≠ some (str "BRE"), icaseValidation key, false⟩

/-- **The key matches the expression as it was requested, unless that is inverted.** -/
def Satisfied : Prop := ∃ regexec, regcomp (requested key) regex = .ok regexec ∧
  (Matches key regexec ↔ invertValidation key = false)

/-- Where the expression that is compiled is found. -/
def Hits (regexec : Str → Exec) : Prop :=
  if wordValidation key then ∃ w ∈ words (keyString key), ∃ p, regexec w = .ok p
  else ∃ p, regexec (keyString key) = .ok p

def Accepted : Prop := ∃ regexec, regcomp (cflags key) (regexString key regex) = .ok regexec ∧
  (Hits key regexec ↔ invertValidation key = false)

end Asked

/-! ## Words -/

/-- What follows the first word. -/
def behindWord (s : Str) : Str := (s.dropWhile blank).dropWhile fun c => !blank c

section Words

variable {regexec : Str → Exec} {s : Str} {c : UInt8}

theorem words_blank (hc : blank c = true) (s : Str) : words (c :: s) = words s := by
  rw [words, List.splitOnP_cons_eq_if_modifyHead, if_pos hc, List.filter_cons_of_neg (by decide), words]

theorem words_dropWhile : ∀ s : Str, words (s.dropWhile blank) = words s
  | [] => rfl
  | c :: s => by
    cases hc : blank c with
    | true => rw [List.dropWhile_cons_of_pos hc, words_blank hc, words_dropWhile s]
    | false => rw [List.dropWhile_cons_of_neg (by rw [hc]; decide)]

/-- The first word. -/
def firstWord (s : Str) : Str := (s.dropWhile blank).takeWhile fun c => !blank c

theorem firstWord_append (s : Str) : s = s.takeWhile blank ++ (firstWord s ++ behindWord s) := by
  rw [firstWord, behindWord, List.takeWhile_append_dropWhile, List.takeWhile_append_dropWhile]

theorem dropWhile_of_firstWord (h : firstWord s = []) : s.dropWhile blank = [] := by
  rw [firstWord] at h
  cases hd : s.dropWhile blank with
  | nil => rfl
  | cons c t =>
    have hc : blank c = false := by
      have hne : s.dropWhile blank ≠ [] := by
        rw [hd]
        exact List.cons_ne_nil c t
      have hnot := List.head_dropWhile_not blank hne
      simp only [hd, List.head_cons] at hnot
      exact hnot
    rw [hd, List.takeWhile_cons_of_pos (by rw [hc]; rfl)] at h
    cases h

theorem blank_behindWord : ∀ c, (behindWord s).head? = some c → blank c = true := by
  intro c hc
  have hne : behindWord s ≠ [] := fun h => by
    rw [h] at hc
    cases hc
  have hnot := List.head_dropWhile_not (fun c => !blank c) hne
  rw [List.head?_eq_some_head hne] at hc
  rw [← Option.some.inj hc]
  change (!blank ((behindWord s).head hne)) = false at hnot
  simpa using hnot

theorem words_cons (s : Str) : words s = if firstWord s = [] then [] else firstWord s :: words (behindWord s).tail := by
  rw [← words_dropWhile]
  by_cases hword : firstWord s = []
  · rw [if_pos hword, dropWhile_of_firstWord hword]
    rfl
  · rw [if_neg hword]
    have hplain : ∀ c ∈ firstWord s, blank c = false := fun c hc => by
      simpa using List.mem_takeWhile_imp hc
    have hsplit : s.dropWhile blank = firstWord s ++ behindWord s := List.takeWhile_append_dropWhile.symm
    have hfilter : decide (firstWord s ≠ []) = true := decide_eq_true hword
    rw [hsplit]
    cases hbehind : behindWord s with
    | nil =>
      rw [List.append_nil, words, List.splitOnP_eq_singleton hplain, List.filter_cons, if_pos hfilter]
      rfl
    | cons c t =>
      have hc : blank c = true := blank_behindWord (s := s) c (by rw [hbehind]; rfl)
      rw [words, List.splitOnP_append_cons_of_forall_mem hplain c hc, List.filter_cons, if_pos hfilter]
      rfl

theorem length_behindWord_tail (h : firstWord s ≠ []) : (behindWord s).tail.length < s.length := by
  have hlen := congrArg List.length (firstWord_append s)
  have hpos := List.length_pos_of_ne_nil h
  rw [List.length_append, List.length_append] at hlen
  rw [List.length_tail]
  omega

/-- **The words are looked at one after the other,** and a NUL ends the first one where something follows. -/
theorem wordLoop_spec (regexec : Str → Exec) : ∀ {fuel : ℕ} {s ret : Str}, s.length < fuel →
    ((wordLoop regexec fuel s ret).1 = true ↔ ∃ w ∈ words s, ∃ p, regexec w = .ok p) ∧
      ((wordLoop regexec fuel s ret).2.2 = s ↔ behindWord s = [])
  | 0, _, _, h => absurd h (Nat.not_lt_zero _)
  | fuel + 1, s, ret, h => by
    have hrun : wordLoop regexec (fuel + 1) s ret = if firstWord s = [] then (false, ret, s)
        else match regexec (firstWord s) with
          | .ok _ => (true, ret, s.takeWhile blank ++ firstWord s ++ (if behindWord s = [] then [] else [0]) ++
              (behindWord s).tail)
          | .error ret => ((wordLoop regexec fuel (behindWord s).tail ret).1,
              (wordLoop regexec fuel (behindWord s).tail ret).2.1,
              s.takeWhile blank ++ firstWord s ++ (if behindWord s = [] then [] else [0]) ++
                (wordLoop regexec fuel (behindWord s).tail ret).2.2) := rfl
    rw [hrun, words_cons]
    by_cases hword : firstWord s = []
    · rw [if_pos hword, if_pos hword]
      refine ⟨iff_of_false Bool.false_ne_true ?_, iff_of_true rfl ?_⟩
      · rintro ⟨w, hw, -⟩
        exact absurd hw List.not_mem_nil
      · rw [behindWord, dropWhile_of_firstWord hword]
        rfl
    · rw [if_neg hword, if_neg hword]
      have hbytes : ∀ rest : Str, (behindWord s = [] → rest = []) →
          (s.takeWhile blank ++ firstWord s ++ (if behindWord s = [] then [] else [0]) ++ rest = s ↔
            behindWord s = []) := by
        intro rest hrest
        have hs := firstWord_append s
        cases hbehind : behindWord s with
        | nil =>
          rw [hbehind, List.append_nil] at hs
          rw [if_pos rfl, List.append_nil, hrest hbehind, List.append_nil]
          exact iff_of_true hs.symm rfl
        | cons c t =>
          refine iff_of_false (fun heq => ?_) (List.cons_ne_nil c t)
          rw [if_neg (List.cons_ne_nil c t)] at heq
          rw [hbehind] at hs
          have hcancel := heq.trans hs
          rw [List.append_assoc, List.append_assoc, List.append_cancel_left_eq, List.append_cancel_left_eq] at hcancel
          have hc := blank_behindWord (s := s) c (by rw [hbehind]; rfl)
          rw [← (List.cons.inj hcancel).1] at hc
          exact absurd hc (by decide)
      cases hexec : regexec (firstWord s) with
      | ok p =>
        refine ⟨iff_of_true rfl ⟨_, List.mem_cons_self, p, hexec⟩, hbytes _ fun hbehind => ?_⟩
        rw [hbehind]
        rfl
      | error ret =>
        have hlen := length_behindWord_tail hword
        obtain ⟨hfound, hsame⟩ := @wordLoop_spec regexec fuel (behindWord s).tail ret (by omega)
        refine ⟨hfound.trans ⟨fun ⟨w, hw, hp⟩ => ⟨w, List.mem_cons_of_mem _ hw, hp⟩, ?_⟩, hbytes _ fun hbehind => ?_⟩
        · rintro ⟨w, hw, p, hp⟩
          obtain rfl | hw := List.mem_cons.mp hw
          · cases hexec.symm.trans hp
          · exact ⟨w, hw, p, hp⟩
        · rw [hbehind] at hsame ⊢
          exact hsame.mpr rfl

end Words

/-! ## Keys -/

/-- The key is written as it was given: in mode `WORD` nothing follows the first word, if the expression compiles. -/
def Kept (regcomp : Regcomp) (key : Key) (regex : Str) : Prop :=
  wordValidation key = true → (∃ regexec, regcomp (cflags key) (regexString key regex) = .ok regexec) →
    behindWord (keyString key) = []

section Keys

variable {env : Environment} {regcomp : Regcomp} {success : Str} {key parentKey : Key} {regex : Str} {returned : List Key}

/-- The bytes are those of the value, but for a binary key, which has no second word. -/
theorem writeString_iff {bytes : Str} (hbytes : bytes = keyString key ↔ behindWord (keyString key) = []) :
    writeString key bytes = key ↔ behindWord (keyString key) = [] := by
  rw [writeString]
  cases hbinary : (keyGetMeta key (str "binary")).isSome with
  | true =>
    rw [if_pos rfl]
    refine iff_of_true rfl ?_
    have hblank : behindWord (str "(binary)") = [] := by decide
    rw [keyString, hbinary]
    cases key.data with
    | none => rfl
    | some data => exact hblank
  | false =>
    rw [if_neg Bool.false_ne_true, ← hbytes]
    cases hdata : key.data with
    | none =>
      have hstring : keyString key = [] := by rw [keyString, hdata]
      rw [Option.map_none, hbytes, hstring, ← hdata]
      exact iff_of_true rfl rfl
    | some data =>
      have hstring : keyString key = data.takeWhile (· ≠ 0) := by
        rw [keyString, hdata]
        dsimp only
        rw [hbinary, if_neg Bool.false_ne_true]
      have hrest : keyString key ++ data.drop (keyString key).length = data := by
        rw [hstring]
        exact List.prefix_iff_eq_append.mp (List.takeWhile_prefix _)
      rw [Option.map_some]
      constructor
      · intro h
        have heq : some (bytes ++ data.drop (keyString key).length) = some data := (congrArg Key.data h).trans hdata
        exact List.append_cancel_right ((Option.some.inj heq).trans hrest.symm)
      · intro h
        rw [h, hrest, ← hdata]

theorem matchKey_spec (regexec : Str → Exec) (key : Key) :
    ((matchKey success regexec key).1 = true ↔ Hits key regexec) ∧
      ((matchKey success regexec key).2.2 = key ↔
        (wordValidation key = true → behindWord (keyString key) = [])) := by
  rw [matchKey, Hits]
  cases hword : wordValidation key with
  | true =>
    rw [if_pos rfl, if_pos rfl]
    obtain ⟨hfound, hbytes⟩ := @wordLoop_spec regexec ((keyString key).length + 1) (keyString key) success
      (Nat.lt_succ_self _)
    exact ⟨hfound, (writeString_iff hbytes).trans ⟨fun h _ => h, fun h => h rfl⟩⟩
  | false =>
    rw [if_neg Bool.false_ne_true, if_neg Bool.false_ne_true]
    cases hexec : regexec (keyString key) with
    | ok p => exact ⟨iff_of_true rfl ⟨p, rfl⟩, iff_of_true rfl fun h => absurd h Bool.false_ne_true⟩
    | error ret =>
      refine ⟨iff_of_false Bool.false_ne_true ?_, iff_of_true rfl fun h => absurd h Bool.false_ne_true⟩
      rintro ⟨p, hp⟩
      cases hp

variable (env regcomp success) in
/-- No value is changed, and the call succeeds exactly where every key with an expression is satisfied. -/
def Correct (keys : List Key) (parentKey : Key) : Prop :=
  (elektraValidationSet env regcomp success keys parentKey).2.1 = keys ∧
    ((elektraValidationSet env regcomp success keys parentKey).1 = 1 ↔
      ∀ key ∈ keys, ∀ regex, keyGetMeta key (str "check/validation") = some regex → Satisfied regcomp key regex)

variable (regcomp key) in
/-- The key is written as it was given, and the expression that is compiled decides as the one that was requested. -/
structure Right : Prop where
  kept : ∀ regex, keyGetMeta key (str "check/validation") = some regex → Kept regcomp key regex
  agrees : ∀ regex, keyGetMeta key (str "check/validation") = some regex →
    (Accepted regcomp key regex ↔ Satisfied regcomp key regex)

theorem set_none (h : keyGetMeta key (str "check/validation") = none) :
    (elektraValidationSet env regcomp success (key :: returned) parentKey).1 =
        (elektraValidationSet env regcomp success returned parentKey).1 ∧
      (elektraValidationSet env regcomp success (key :: returned) parentKey).2.1 =
        key :: (elektraValidationSet env regcomp success returned parentKey).2.1 := by
  rw [elektraValidationSet, h]
  exact ⟨rfl, rfl⟩

/-- **A key with an expression**, and those behind it, which are looked at if it is accepted. -/
theorem set_some (h : keyGetMeta key (str "check/validation") = some regex) : ∃ cur,
    (cur = key ↔ Kept regcomp key regex) ∧
    (Accepted regcomp key regex ∧
        (elektraValidationSet env regcomp success (key :: returned) parentKey).1 =
          (elektraValidationSet env regcomp success returned parentKey).1 ∧
        (elektraValidationSet env regcomp success (key :: returned) parentKey).2.1 =
          cur :: (elektraValidationSet env regcomp success returned parentKey).2.1 ∨
      ¬ Accepted regcomp key regex ∧
        (elektraValidationSet env regcomp success (key :: returned) parentKey).1 = -1 ∧
        (elektraValidationSet env regcomp success (key :: returned) parentKey).2.1 = cur :: returned) := by
  rw [elektraValidationSet, h]
  dsimp only
  cases hcomp : regcomp (cflags key) (regexString key regex) with
  | error buffer =>
    refine ⟨key, iff_of_true rfl fun _ ⟨regexec, hregexec⟩ => ?_, .inr ⟨?_, rfl, rfl⟩⟩
    · cases hcomp.symm.trans hregexec
    · rintro ⟨regexec, hregexec, -⟩
      cases hcomp.symm.trans hregexec
  | ok regexec =>
    obtain ⟨hfound, hkept⟩ := @matchKey_spec success regexec key
    have haccepted : Accepted regcomp key regex ↔
        ((matchKey success regexec key).1 ^^ invertValidation key) = true := by
      have hiff : Accepted regcomp key regex ↔ (Hits key regexec ↔ invertValidation key = false) := by
        refine ⟨fun ⟨regexec', hcomp', h⟩ => ?_, fun h => ⟨regexec, hcomp, h⟩⟩
        cases hcomp.symm.trans hcomp'
        exact h
      rw [hiff, ← hfound]
      cases (matchKey success regexec key).1 <;> cases invertValidation key <;> decide
    have hkeptIff : (wordValidation key = true → behindWord (keyString key) = []) ↔ Kept regcomp key regex :=
      ⟨fun hk hword _ => hk hword, fun hk hword => hk hword ⟨regexec, hcomp⟩⟩
    dsimp only
    rw [haccepted, ← hkeptIff, ← hkept]
    generalize matchKey success regexec key = result
    obtain ⟨found, buffer, written⟩ := result
    refine ⟨written, Iff.rfl, ?_⟩
    dsimp only
    cases hresult : found ^^ invertValidation key with
    | true => exact .inl ⟨rfl, rfl, rfl⟩
    | false => exact .inr ⟨Bool.false_ne_true, rfl, rfl⟩

/-- **Keys that are treated right are left as they are.** -/
theorem correct_of_right : ∀ {keys : List Key}, (∀ key ∈ keys, Right regcomp key) →
    Correct env regcomp success keys parentKey
  | [], _ => ⟨rfl, iff_of_true rfl fun _ hkey => absurd hkey List.not_mem_nil⟩
  | key :: keys, h => by
    rw [List.forall_mem_cons] at h
    obtain ⟨hrest, hsuccess⟩ := @correct_of_right keys h.2
    rw [Correct, List.forall_mem_cons]
    cases hregex : keyGetMeta key (str "check/validation") with
    | none =>
      obtain ⟨hret, hkeys⟩ := @set_none env regcomp success key parentKey keys hregex
      rw [hret, hkeys, hrest, hsuccess]
      exact ⟨rfl, (and_iff_right fun regex hr => by cases hr).symm⟩
    | some regex =>
      obtain ⟨cur, hkept, hcase⟩ := @set_some env regcomp success key parentKey regex keys hregex
      obtain rfl := hkept.mpr (h.1.kept regex hregex)
      have hagrees := h.1.agrees regex hregex
      have hall : (∀ regex', some regex = some regex' → Satisfied regcomp cur regex') ↔ Accepted regcomp cur regex := by
        rw [hagrees]
        exact ⟨fun hs => hs regex rfl, fun hs regex' hr => Option.some.inj hr ▸ hs⟩
      rw [hall]
      obtain ⟨haccepted, hret, hkeys⟩ | ⟨hno, hret, hkeys⟩ := hcase
      · rw [hret, hkeys, hrest, hsuccess]
        exact ⟨rfl, (and_iff_right haccepted).symm⟩
      · rw [hret, hkeys]
        exact ⟨rfl, iff_of_false (by decide) fun hand => hno hand.1⟩

/-- **A key is treated right only so.** -/
theorem right_of_correct (h : Correct env regcomp success [key] parentKey) : Right regcomp key := by
  obtain ⟨hsame, hsuccess⟩ := h
  have hboth : ∀ regex, keyGetMeta key (str "check/validation") = some regex →
      Kept regcomp key regex ∧ (Accepted regcomp key regex ↔ Satisfied regcomp key regex) := by
    intro regex hregex
    obtain ⟨cur, hkept, hcase⟩ := @set_some env regcomp success key parentKey regex [] hregex
    have hall : (∀ k ∈ [key], ∀ regex', keyGetMeta k (str "check/validation") = some regex' →
        Satisfied regcomp k regex') ↔ Satisfied regcomp key regex := by
      rw [List.forall_mem_singleton, hregex]
      exact ⟨fun hs => hs regex rfl, fun hs regex' hr => Option.some.inj hr ▸ hs⟩
    rw [hall] at hsuccess
    obtain ⟨haccepted, hret, hkeys⟩ | ⟨hno, hret, hkeys⟩ := hcase
    · rw [hkeys] at hsame
      rw [hret] at hsuccess
      exact ⟨hkept.mp (List.cons.inj hsame).1, iff_of_true haccepted (hsuccess.mp rfl)⟩
    · rw [hkeys] at hsame
      rw [hret] at hsuccess
      exact ⟨hkept.mp (List.cons.inj hsame).1, iff_of_false hno fun hs => absurd (hsuccess.mpr hs) (by decide)⟩
  exact ⟨fun regex hregex => (hboth regex hregex).1, fun regex hregex => (hboth regex hregex).2⟩

end Keys

/-! ## Expressions between `^` and `$` -/

/-- The expression between `^` and `$` compiles where the expression does, and is found where one of the lines (without
`REG_NEWLINE`, the text) matches the expression as a whole. -/
structure Anchors (regcomp : Regcomp) (icase newline : Bool) (regex : Str) : Prop where
  found : ∀ regexec, regcomp ⟨true, icase, false⟩ regex = .ok regexec →
    ∃ regexec', regcomp ⟨true, icase, newline⟩ (anchored regex) = .ok regexec' ∧
      ∀ s, (∃ p, regexec' s = .ok p) ↔ ∃ l ∈ if newline then lines s else [s], Whole regexec l
  failed : ∀ buffer, regcomp ⟨true, icase, false⟩ regex = .error buffer →
    ∃ buffer', regcomp ⟨true, icase, newline⟩ (anchored regex) = .error buffer'

/-- An extended expression that may stand between `^` and `$`, if the mode puts it there. -/
structure Plain (regcomp : Regcomp) (key : Key) (regex : Str) : Prop where
  extended : upperMeta key (str "check/validation/type") ≠ some (str "BRE")
  anchors : (lineValidation key || wordValidation key) = true →
    Anchors regcomp (icaseValidation key) (lineValidation key) regex

section Plain

variable {regcomp : Regcomp} {key : Key} {regex : Str}

theorem not_line_of_word (h : wordValidation key = true) : lineValidation key = false := by
  rw [wordValidation, decide_eq_true_iff] at h
  rw [lineValidation, h]
  decide

theorem cflags_extended (h : upperMeta key (str "check/validation/type") ≠ some (str "BRE")) :
    cflags key = ⟨true, icaseValidation key, lineValidation key⟩ := by
  unfold cflags
  dsimp only
  split_ifs
  · rfl
  · rfl

theorem hits_iff {regexec regexec' : Str → Exec} (hmode : (lineValidation key || wordValidation key) = true)
    (h : ∀ s, (∃ p, regexec' s = .ok p) ↔ ∃ l ∈ if lineValidation key then lines s else [s], Whole regexec l) :
    Hits key regexec' ↔ Matches key regexec := by
  rw [Hits, Matches]
  by_cases hword : wordValidation key = true
  · rw [if_pos hword, if_pos hword]
    have hline := not_line_of_word hword
    refine exists_congr fun w => and_congr_right fun _ => (h w).trans ?_
    rw [hline, if_neg Bool.false_ne_true]
    exact ⟨fun ⟨l, hl, hwhole⟩ => List.mem_singleton.mp hl ▸ hwhole,
      fun hwhole => ⟨w, List.mem_singleton_self w, hwhole⟩⟩
  · have hline : lineValidation key = true := by
      rw [Bool.not_eq_true] at hword
      rwa [hword, Bool.or_false] at hmode
    rw [if_neg hword, if_neg hword, if_pos hline]
    have hs := h (keyString key)
    rwa [if_pos hline] at hs

/-- **Such an expression decides as it was requested.** -/
theorem agrees_of_plain (h : Plain regcomp key regex) : Accepted regcomp key regex ↔ Satisfied regcomp key regex := by
  have hrequested : requested key = ⟨true, icaseValidation key, false⟩ := by
    rw [requested, decide_eq_true h.extended]
  rw [Accepted, Satisfied, cflags_extended h.extended, hrequested, regexString]
  by_cases hmode : (lineValidation key || wordValidation key) = true
  · obtain ⟨hfound, hfailed⟩ := h.anchors hmode
    rw [if_pos hmode]
    cases hcomp : regcomp ⟨true, icaseValidation key, false⟩ regex with
    | error buffer =>
      obtain ⟨buffer', hbuffer⟩ := hfailed buffer hcomp
      refine iff_of_false ?_ ?_
      · rintro ⟨regexec, hregexec, -⟩
        cases hbuffer.symm.trans hregexec
      · rintro ⟨regexec, hregexec, -⟩
        cases hregexec
    | ok regexec =>
      obtain ⟨regexec', hcomp', hhits⟩ := hfound regexec hcomp
      have hiff := hits_iff hmode hhits
      constructor
      · rintro ⟨r, hr, hinvert⟩
        cases hcomp'.symm.trans hr
        exact ⟨regexec, rfl, hiff.symm.trans hinvert⟩
      · rintro ⟨r, hr, hinvert⟩
        cases hr
        exact ⟨regexec', hcomp', hiff.trans hinvert⟩
  · rw [if_neg hmode]
    rw [Bool.not_eq_true, Bool.or_eq_false_iff] at hmode
    have hsame : ∀ regexec, Hits key regexec ↔ Matches key regexec := fun regexec => by
      rw [Hits, Matches, hmode.1, hmode.2]
      rfl
    rw [hmode.1]
    exact exists_congr fun regexec => and_congr_right fun _ => iff_congr (hsame regexec) Iff.rfl

end Plain

/-- `regcomp` for expressions of letters, and such ones between `^` and `$`. -/
def letters : Regcomp := fun _ regex => .ok fun s =>
  if regex.head? = some 94 then
    if s = regex.tail.dropLast then .ok (0, s.length) else .error (str "No match")
  else
    match s.tails.findIdx? regex.isPrefixOf with
    | none => .error (str "No match")
    | some i => .ok (i, i + regex.length)

/-- A key whose value is to match an expression. -/
def checkedKey (value regex : Str) (metadata : List (Str × Str)) : Key :=
  { Line.userKey with data := some value, metaKeys := (str "check/validation", regex) :: metadata }

end Elektra.Validation
