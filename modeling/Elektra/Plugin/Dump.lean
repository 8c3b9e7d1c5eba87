import Elektra.Meta.Array
import Elektra.Name.Level
import Elektra.Search.Loop

/-!
# Reading a dump

Each record states the length of a name and of a value, and both are read into buffers that all records
share.

* `IStream`, `getline`, `word`, `number`, `read`: the input streams;
* `fill`: the test of the size, the reading and the zero behind it;
* `round`, `start`: the loop of `unserialise`;
* **`unserialise_inside`**: the inputs for which all writes are inside of the buffers.
-/

namespace Elektra.Dump

open Loop

/-! ## Input streams -/

/-- What is left of the input, and whether neither the end nor a failure was seen. -/
structure IStream where
  bytes : Str
  good : Bool := true

def newline : UInt8 := 10

/-- `std::getline`; `none` if it fails. -/
def getline (is : IStream) : Option Str × IStream :=
  if is.good = false then (none, is)
  else
    let line := is.bytes.takeWhile (· ≠ newline)
    match is.bytes.dropWhile (· ≠ newline) with
    | _ :: rest => (some line, ⟨rest, true⟩)
    | [] => (if line = [] then none else some line, ⟨[], false⟩)

/-- The white space before formatted input. -/
def skipws (is : IStream) : IStream :=
  if is.good = false then is
  else
    let rest := is.bytes.dropWhile isspace
    ⟨rest, decide (rest ≠ [])⟩

/-- `is >> s` for a string, with the value `s` has before. -/
def word (is : IStream) (s : Str) : IStream × Str :=
  let is := skipws is
  if is.good = false then (is, s)
  else
    let rest := is.bytes.dropWhile fun c => ¬ isspace c
    (⟨rest, decide (rest ≠ [])⟩, is.bytes.takeWhile fun c => ¬ isspace c)

/-- `is >> n` for a `size_t`, with the value `n` has before: a negative number is taken modulo the range, one
out of range is the largest, and none is zero. -/
def number (is : IStream) (n : UInt64) : IStream × UInt64 :=
  let is := skipws is
  if is.good = false then (is, n)
  else
    let negative := is.bytes.head? = some 45
    let unsigned := if negative ∨ is.bytes.head? = some 43 then is.bytes.drop 1 else is.bytes
    let rest := unsigned.dropWhile isdigit
    let value := atoi unsigned
    if unsigned.takeWhile isdigit = [] then (⟨rest, false⟩, 0)
    else if 2 ^ 64 ≤ value then (⟨rest, false⟩, -1)
    else (⟨rest, decide (rest ≠ [])⟩, if negative then -UInt64.ofNat value else UInt64.ofNat value)

/-- `is.read (s, n)`: the bytes that are stored. A size above the range of `std::streamsize` is negative. -/
def read (is : IStream) (n : UInt64) : IStream × Str :=
  if is.good = false then (is, [])
  else if 2 ^ 63 ≤ n.toNat then (⟨is.bytes, false⟩, [])
  else (⟨is.bytes.drop n.toNat, decide (n.toNat ≤ is.bytes.length)⟩, is.bytes.take n.toNat)

/-! ## The code -/

inductive Failure
  /-- an exception of `resize` -/
  | thrown
  /-- a write outside of a buffer -/
  | outside
deriving DecidableEq

/-- `std::vector<char>::resize`; `allocates` tells for which sizes there is memory. -/
def resize (allocates : ℕ → Bool) (buffer : Str) (n : UInt64) : Except Failure Str :=
  if n.toNat ≤ buffer.length then .ok (buffer.take n.toNat)
  else if allocates n.toNat then .ok (buffer ++ List.replicate (n.toNat - buffer.length) 0)
  else .error .thrown

/-- The bytes from the begin of the buffer on. -/
def store (buffer bytes : Str) : Except Failure Str :=
  if bytes.length ≤ buffer.length then .ok (bytes ++ buffer.drop bytes.length) else .error .outside

/-- `buffer[n] = 0` -/
def terminate (buffer : Str) (n : UInt64) : Except Failure Str :=
  if n.toNat < buffer.length then .ok (buffer.set n.toNat 0) else .error .outside

/-- `if (size > buffer.size ()) buffer.resize (size + 1)` -/
def grow (allocates : ℕ → Bool) (buffer : Str) (size : UInt64) : Except Failure Str :=
  if buffer.length < size.toNat then resize allocates buffer (size + 1) else .ok buffer

/-- The three lines for a buffer and its size. -/
def fill (allocates : ℕ → Bool) (is : IStream) (buffer : Str) (size : UInt64) :
    Except Failure (IStream × Str) := do
  let buffer ← grow allocates buffer size
  let (is, bytes) := read is size
  let buffer ← store buffer bytes
  let buffer ← terminate buffer size
  .ok (is, buffer)

/-- What is called with the name and the value of a record, and the other changes to the key set. -/
inductive Call
  | ksClear
  /-- `keyNew`, `keySetName`, `keySetRaw` -/
  | keyNew (name value : Str)
  /-- `keySetMeta` -/
  | keyMeta (name value : Str)
  /-- `ksLookupByName`, `keyCopyMeta` -/
  | keyCopyMeta (name metaName : Str)
  /-- `ksAppendKey` -/
  | keyEnd
deriving DecidableEq

structure State where
  is : IStream
  command : Str
  namesize : UInt64
  valuesize : UInt64
  namebuffer : Str
  valuebuffer : Str
  calls : List Call

inductive Outcome
  /-- the return value, the number and the text of the error, and the calls -/
  | returned (ret : ℤ) (error : Option (ℕ × Str)) (calls : List Call)
  | failed (f : Failure)
deriving DecidableEq

/-- The string at the begin of a buffer. -/
def cstr (buffer : Str) : Str := buffer.takeWhile (· ≠ 0)

section Code

variable (allocates : ℕ → Bool)

/-- The sizes of a record, the name, the value and the rest of the line. -/
def record (s : State) (ss : IStream) (call : Str → Str → UInt64 → Call) : Round State Outcome :=
  let (ss, namesize) := number ss s.namesize
  let (_, valuesize) := number ss s.valuesize
  let filled := do
    let (is, namebuffer) ← fill allocates s.is s.namebuffer namesize
    let (is, valuebuffer) ← fill allocates is s.valuebuffer valuesize
    .ok { s with
      is := (getline is).2, namesize, valuesize, namebuffer, valuebuffer,
      calls := s.calls ++ [call (cstr namebuffer) valuebuffer valuesize] }
  match filled with
  | .ok s => .again s
  | .error f => .done (.failed f)

/-- The body of the loop for a line. -/
def execute (s : State) (line : Str) : Round State Outcome :=
  let (ss, command) := word ⟨line, true⟩ s.command
  let s := { s with command }
  if command = str "kdbOpen" then
    let version := (word ss []).2
    if version ≠ str "1" then .done (.returned (-1) (some (50, version)) s.calls) else .again s
  else if command = str "ksNew" then .again { s with calls := s.calls ++ [.ksClear] }
  else if command = str "keyNew" then
    record allocates s ss fun name value size => .keyNew name (value.take size.toNat)
  else if command = str "keyMeta" then record allocates s ss fun name value _ => .keyMeta name (cstr value)
  else if command = str "keyCopyMeta" then
    record allocates s ss fun name value _ => .keyCopyMeta name (cstr value)
  else if command = str "keyEnd" then .again { s with calls := s.calls ++ [.keyEnd] }
  else if command = str "ksEnd" then .done (.returned 1 none s.calls)
  else .done (.returned (-1) (some (49, command)) s.calls)

def round (s : State) : Round State Outcome :=
  match getline s.is with
  | (none, _) => .done (.returned 1 none s.calls)
  | (some line, is) => execute allocates { s with is } line

/-- The variables before the loop; the sizes are not initialised. -/
def start (input : Str) (namesize valuesize : UInt64) : State where
  is := ⟨input, true⟩
  command := []
  namesize := namesize
  valuesize := valuesize
  namebuffer := List.replicate 4048 0
  valuebuffer := List.replicate 4048 0
  calls := []

/-- `unserialise`, with at most as many lines. -/
def unserialise (lines : ℕ) (input : Str) (namesize valuesize : UInt64) : Option Outcome :=
  loop (round allocates) lines (start input namesize valuesize)

end Code

/-! ## The sizes -/

/-- The size is that of the buffer, or the one whose successor is zero: the buffer is not grown. -/
def Overruns (buffer : Str) (size : UInt64) : Prop :=
  size.toNat = buffer.length ∨ buffer.length < size.toNat ∧ size + 1 = 0

/-- The buffer has the room, or is given it. -/
def Fits (allocates : ℕ → Bool) (buffer : Str) (size : UInt64) : Prop :=
  size.toNat ≤ buffer.length ∨ allocates (size + 1).toNat = true

def IsRecord (command : Str) : Prop :=
  command = str "keyNew" ∨ command = str "keyMeta" ∨ command = str "keyCopyMeta"

instance (command : Str) : Decidable (IsRecord command) := inferInstanceAs (Decidable (_ ∨ _ ∨ _))

/-- The sizes that the next line states, if it is one of a record. -/
def stated (s : State) : Option (UInt64 × UInt64) :=
  match getline s.is with
  | (none, _) => none
  | (some line, _) =>
    let (ss, command) := word ⟨line, true⟩ s.command
    if IsRecord command then
      let (ss, namesize) := number ss s.namesize
      some (namesize, (number ss s.valuesize).2)
    else none

/-- Neither the name nor, behind a name there is memory for, the value overruns its buffer. -/
def Meets (allocates : ℕ → Bool) (s : State) : Prop :=
  ∀ namesize valuesize, stated s = some (namesize, valuesize) →
    ¬ Overruns s.namebuffer namesize ∧ (Fits allocates s.namebuffer namesize → ¬ Overruns s.valuebuffer valuesize)

/-- No write of a run is outside of its buffer. -/
def Inside (allocates : ℕ → Bool) (input : Str) (namesize valuesize : UInt64) : Prop :=
  ∀ lines, unserialise allocates lines input namesize valuesize ≠ some (.failed .outside)

/-! ## A buffer -/

section Fill

variable {allocates : ℕ → Bool} {is : IStream} {buffer : Str} {size : UInt64}

theorem read_length (is : IStream) (n : UInt64) :
    (read is n).2.length ≤ n.toNat ∧ (2 ^ 63 ≤ n.toNat → (read is n).2 = []) ∧
    (read is n).1.bytes.length ≤ is.bytes.length := by
  rw [read]
  split_ifs with hgood hbig
  · exact ⟨Nat.zero_le _, fun _ => rfl, le_rfl⟩
  · exact ⟨Nat.zero_le _, fun _ => rfl, le_rfl⟩
  · refine ⟨List.length_take_le _ _, fun h => absurd h hbig, ?_⟩
    rw [List.length_drop]
    omega

/-- What is stored is inside, and the zero behind it is if the buffer is longer than the size. -/
theorem fill_of_length (h : size.toNat ≤ buffer.length ∨ 2 ^ 63 ≤ size.toNat) :
    (do
      let buffer ← store buffer (read is size).2
      let buffer ← terminate buffer size
      (.ok ((read is size).1, buffer) : Except Failure (IStream × Str))) =
    if size.toNat < buffer.length then
      .ok ((read is size).1, ((read is size).2 ++ buffer.drop (read is size).2.length).set size.toNat 0)
    else .error .outside := by
  obtain ⟨hle, hbig, -⟩ := read_length is size
  have hroom : (read is size).2.length ≤ buffer.length := by
    obtain h | h := h
    · exact hle.trans h
    · rw [hbig h]
      exact Nat.zero_le _
  have hlen : ((read is size).2 ++ buffer.drop (read is size).2.length).length = buffer.length := by
    rw [List.length_append, List.length_drop]
    omega
  rw [store, if_pos hroom]
  simp only [bind, Except.bind, terminate, hlen]
  split_ifs <;> rfl

theorem fill_outside {buffer' : Str} (hgrow : grow allocates buffer size = .ok buffer')
    (h : size.toNat ≤ buffer'.length ∨ 2 ^ 63 ≤ size.toNat) (hout : buffer'.length ≤ size.toNat) :
    fill allocates is buffer size = .error .outside := by
  have hrun := @fill_of_length is _ size h
  rw [if_neg (by omega)] at hrun
  rw [fill, hgrow]
  exact hrun

theorem fill_inside {buffer' : Str} (hgrow : grow allocates buffer size = .ok buffer') (h : size.toNat < buffer'.length) :
    ∃ is' buffer'', fill allocates is buffer size = .ok (is', buffer'') ∧
      is'.bytes.length ≤ is.bytes.length := by
  have hrun := @fill_of_length is _ size (Or.inl h.le)
  rw [if_pos h] at hrun
  refine ⟨(read is size).1, ((read is size).2 ++ buffer'.drop (read is size).2.length).set size.toNat 0, ?_,
    (read_length is size).2.2⟩
  rw [fill, hgrow]
  exact hrun

theorem toNat_succ (hne : size + 1 ≠ 0) : (size + 1).toNat = size.toNat + 1 := by
  have hlt := size.toNat_lt
  have hne' : (size + 1).toNat ≠ 0 := fun h => hne (UInt64.toNat_inj.mp h)
  have hadd : (size + 1).toNat = (size.toNat + 1) % 2 ^ 64 := by
    rw [UInt64.toNat_add]
    rfl
  omega

/-- **What becomes of a buffer**: a zero behind its end, no memory, or a size below its length. -/
theorem fill_cases (allocates : ℕ → Bool) (is : IStream) (buffer : Str) (size : UInt64) :
    (Overruns buffer size ∧ fill allocates is buffer size = .error .outside) ∨
    (¬ Overruns buffer size ∧ ¬ Fits allocates buffer size ∧ fill allocates is buffer size = .error .thrown) ∨
    (¬ Overruns buffer size ∧ Fits allocates buffer size ∧
      ∃ is' buffer', fill allocates is buffer size = .ok (is', buffer') ∧ is'.bytes.length ≤ is.bytes.length) := by
  obtain hlt | heq | hgt := lt_trichotomy size.toNat buffer.length
  · have hgrow : grow allocates buffer size = .ok buffer := if_neg (by omega)
    refine Or.inr (Or.inr ⟨?_, Or.inl hlt.le, fill_inside hgrow hlt⟩)
    rintro (h | ⟨h, -⟩) <;> omega
  · have hgrow : grow allocates buffer size = .ok buffer := if_neg (by omega)
    exact Or.inl ⟨Or.inl heq, fill_outside hgrow (Or.inl heq.le) heq.ge⟩
  · by_cases hzero : size + 1 = 0
    · have hgrow : grow allocates buffer size = .ok [] := by
        rw [grow, if_pos hgt, resize, hzero]
        rfl
      have hbig : 2 ^ 63 ≤ size.toNat := by
        have hsize : size = -1 := by
          rw [← UInt64.add_left_inj 1, hzero]
          rfl
        rw [hsize]
        decide
      exact Or.inl ⟨Or.inr ⟨hgt, hzero⟩, fill_outside hgrow (Or.inr hbig) (Nat.zero_le _)⟩
    · have hsucc := toNat_succ hzero
      have hover : ¬ Overruns buffer size := by
        rintro (h | ⟨-, h⟩)
        · omega
        · exact hzero h
      cases hall : allocates (size + 1).toNat with
      | false =>
        have hfits : ¬ Fits allocates buffer size := by
          rintro (h | h)
          · omega
          · rw [hall] at h
            cases h
        refine Or.inr (Or.inl ⟨hover, hfits, ?_⟩)
        rw [fill, grow, if_pos hgt, resize, if_neg (by omega), hall]
        rfl
      | true =>
        have hgrow : grow allocates buffer size =
            .ok (buffer ++ List.replicate ((size + 1).toNat - buffer.length) 0) := by
          rw [grow, if_pos hgt, resize, if_neg (by omega), hall]
          rfl
        refine Or.inr (Or.inr ⟨hover, Or.inr hall, fill_inside hgrow ?_⟩)
        rw [List.length_append, List.length_replicate]
        omega

end Fill

/-! ## The loop -/

section Rounds

variable (allocates : ℕ → Bool)

theorem getline_length (is : IStream) : (getline is).2.bytes.length ≤ is.bytes.length ∧
    ((getline is).1 ≠ none → (getline is).2.bytes.length < is.bytes.length) := by
  rw [getline]
  split_ifs with hgood
  · exact ⟨le_rfl, fun h => absurd rfl h⟩
  · dsimp only
    have hlen := congrArg List.length (List.takeWhile_append_dropWhile (p := (· ≠ newline)) (l := is.bytes))
    rw [List.length_append] at hlen
    cases hrest : is.bytes.dropWhile (· ≠ newline) with
    | nil =>
      refine ⟨Nat.zero_le _, fun h => ?_⟩
      dsimp only at h ⊢
      by_cases hline : is.bytes.takeWhile (· ≠ newline) = []
      · exact absurd (if_pos hline) h
      · have := List.length_pos_of_ne_nil hline
        rw [List.length_nil]
        omega
    | cons c rest =>
      rw [hrest, List.length_cons] at hlen
      dsimp only
      exact ⟨by omega, fun _ => by omega⟩

/-- A record overruns a buffer, or a resize throws, or the loop goes on with no more of the input. -/
theorem record_cases (s : State) (ss : IStream) (call : Str → Str → UInt64 → Call) :
    (record allocates s ss call = .done (.failed .outside) ↔
      ¬ (¬ Overruns s.namebuffer (number ss s.namesize).2 ∧ (Fits allocates s.namebuffer (number ss s.namesize).2 →
        ¬ Overruns s.valuebuffer (number (number ss s.namesize).1 s.valuesize).2))) ∧
    ∀ t, record allocates s ss call = .again t → t.is.bytes.length ≤ s.is.bytes.length := by
  obtain ⟨hover, hname⟩ | ⟨hover, hfits, hname⟩ | ⟨hover, hfits, is, namebuffer, hname, hlen⟩ :=
    fill_cases allocates s.is s.namebuffer (number ss s.namesize).2
  · have hrun : record allocates s ss call = .done (.failed .outside) := by
      simp only [record, hname, bind, Except.bind]
    rw [hrun]
    exact ⟨iff_of_true rfl fun h => h.1 hover, fun t ht => by cases ht⟩
  · have hrun : record allocates s ss call = .done (.failed .thrown) := by
      simp only [record, hname, bind, Except.bind]
    rw [hrun]
    refine ⟨iff_of_false (fun h => by cases h) (not_not.mpr ⟨hover, fun h => absurd h hfits⟩), fun t ht => by cases ht⟩
  · obtain ⟨hover', hvalue⟩ | ⟨hover', -, hvalue⟩ | ⟨hover', -, is', valuebuffer, hvalue, hlen'⟩ :=
      fill_cases allocates is s.valuebuffer (number (number ss s.namesize).1 s.valuesize).2
    · have hrun : record allocates s ss call = .done (.failed .outside) := by
        simp only [record, hname, hvalue, bind, Except.bind]
      rw [hrun]
      exact ⟨iff_of_true rfl fun h => h.2 hfits hover', fun t ht => by cases ht⟩
    · have hrun : record allocates s ss call = .done (.failed .thrown) := by
        simp only [record, hname, hvalue, bind, Except.bind]
      rw [hrun]
      exact ⟨iff_of_false (fun h => by cases h) (not_not.mpr ⟨hover, fun _ => hover'⟩), fun t ht => by cases ht⟩
    · have hrun : ∃ t, record allocates s ss call = .again t ∧ t.is = (getline is').2 := by
        simp only [record, hname, hvalue, bind, Except.bind]
        exact ⟨_, rfl, rfl⟩
      obtain ⟨t, hrun, ht⟩ := hrun
      rw [hrun]
      refine ⟨iff_of_false (fun h => by cases h) (not_not.mpr ⟨hover, fun _ => hover'⟩), fun u hu => ?_⟩
      obtain rfl := (Round.again.inj hu)
      rw [ht]
      exact (getline_length is').1.trans (hlen'.trans hlen)

theorem execute_cases (s : State) (line : Str) :
    (IsRecord (word ⟨line, true⟩ s.command).2 ∧ ∃ call, execute allocates s line =
      record allocates { s with command := (word ⟨line, true⟩ s.command).2 } (word ⟨line, true⟩ s.command).1 call) ∨
    (¬ IsRecord (word ⟨line, true⟩ s.command).2 ∧ execute allocates s line ≠ .done (.failed .outside) ∧
      ∀ t, execute allocates s line = .again t → t.is = s.is) := by
  by_cases hrecord : IsRecord (word ⟨line, true⟩ s.command).2
  · refine Or.inl ⟨hrecord, ?_⟩
    rw [execute]
    dsimp only
    obtain h | h | h := hrecord <;> rw [h]
    · rw [if_neg (by decide), if_neg (by decide), if_pos rfl]
      exact ⟨_, rfl⟩
    · rw [if_neg (by decide), if_neg (by decide), if_neg (by decide), if_pos rfl]
      exact ⟨_, rfl⟩
    · rw [if_neg (by decide), if_neg (by decide), if_neg (by decide), if_neg (by decide), if_pos rfl]
      exact ⟨_, rfl⟩
  · refine Or.inr ⟨hrecord, ?_⟩
    obtain ⟨h1, h2, h3⟩ := not_or.mp hrecord |>.imp_right not_or.mp
    rw [execute]
    dsimp only
    rw [if_neg h1, if_neg h2, if_neg h3]
    split_ifs <;> refine ⟨fun h => (by cases h), fun t ht => ?_⟩ <;> cases ht <;> rfl

/-- **A round writes outside of a buffer exactly if the sizes of its line do not meet the condition**, and the
loop goes on with less of the input. -/
theorem round_cases (s : State) : (round allocates s = .done (.failed .outside) ↔ ¬ Meets allocates s) ∧
    ∀ t, round allocates s = .again t → t.is.bytes.length < s.is.bytes.length := by
  obtain ⟨-, hlt⟩ := getline_length s.is
  rw [round, Meets, stated]
  cases hline : getline s.is with
  | mk line is =>
    rw [hline] at hlt
    cases line with
    | none => exact ⟨iff_of_false (fun h => by cases h) (not_not.mpr fun _ _ h => by cases h), fun t ht => by cases ht⟩
    | some line =>
      have hlt := hlt (by simp)
      dsimp only at hlt ⊢
      obtain ⟨hrecord, call, hrun⟩ | ⟨hno, hne, hagain⟩ := execute_cases allocates { s with is } line
      · obtain ⟨hout, hlen⟩ := record_cases allocates
          { s with is, command := (word ⟨line, true⟩ s.command).2 } (word ⟨line, true⟩ s.command).1 call
        rw [hrun]
        refine ⟨hout.trans (not_congr ?_), fun t ht => (hlen t ht).trans_lt hlt⟩
        have hrecord : IsRecord (word ⟨line, true⟩ s.command).2 := hrecord
        rw [if_pos hrecord]
        refine ⟨fun h n v he => ?_, fun h => h _ _ rfl⟩
        cases he
        exact h
      · refine ⟨iff_of_false hne (not_not.mpr fun n v he => ?_), fun t ht => by rw [hagain t ht]; exact hlt⟩
        have hno : ¬ IsRecord (word ⟨line, true⟩ s.command).2 := hno
        rw [if_neg hno] at he
        cases he

end Rounds

/-- **All writes are inside of the buffers exactly if in each round the sizes meet the condition.** -/
theorem unserialise_inside (allocates : ℕ → Bool) (input : Str) (namesize valuesize : UInt64) :
    Inside allocates input namesize valuesize ↔
      ∀ s, Reaches (round allocates) (start input namesize valuesize) s → Meets allocates s := by
  have hloop : (∃ lines, unserialise allocates lines input namesize valuesize = some (.failed .outside)) ↔
      ∃ s, Reaches (round allocates) (start input namesize valuesize) s ∧ ¬ Meets allocates s := by
    simp only [unserialise, loop_eq_some, (round_cases allocates _).1]
  have h := not_congr hloop
  push Not at h
  exact h

/-- The size of the name is that of the buffer before the first record. -/
theorem not_inside : ¬ Inside (fun _ => true) (str "keyNew 4048 1\n") 0 0 := by
  intro h
  have hstated : stated (start (str "keyNew 4048 1\n") 0 0) = some (4048, 1) := by decide +kernel
  have hsize : Overruns (start (str "keyNew 4048 1\n") 0 0).namebuffer 4048 := Or.inl List.length_replicate.symm
  have hround := (round_cases (fun _ => true) _).1.mpr fun hmeets => (hmeets _ _ hstated).1 hsize
  exact h 1 (by rw [unserialise, loop, hround])

end Elektra.Dump
