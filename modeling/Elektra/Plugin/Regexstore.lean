import Elektra.KeySet.Cursor
import Elektra.Lookup.Resolve
import Elektra.Plugin.Line

/-!
# The regexstore plugin

The keys of the configuration below `/regexstore` hold regular expressions. Each expression is applied to the file,
and then again to what is behind the match, until there is no match any more. A key is appended for every match.

* `Match`, `Exec`, `Regcomp`: regular expressions, as far as the code sees them;
* `elektraRegexstorePos`, `elektraRegexstoreProcess`, `elektraRegexstoreGet`: the code;
* `Successive`, `keyOf`: the matches behind each other, and the key of each;
* `Usable`, `Proper`: what the code relies on;
* **`elektraRegexstoreGet_iff`**: when the code returns and appends a key for each match.
-/

namespace Elektra.Regexstore

/-! ## Regular expressions -/

/-- `regmatch_t [10]`: where the match and its groups begin and end. -/
structure Match where
  rm_so : ℕ
  rm_eo : ℕ
  groups : ℕ → Option (ℕ × ℕ)

def Match.offsets (m : Match) (pos : ℕ) : Option (ℕ × ℕ) := if pos = 0 then some (m.rm_so, m.rm_eo) else m.groups pos

/-- What `regexec` returns; an error with its text. -/
inductive Exec
  | noMatch
  | error (text : Str)
  | found (m : Match)

/-- `regcomp`, with the text of an error, and `regexec` for what was compiled. -/
abbrev Regcomp := Str → Except Str (Str → Exec)

/-- A match and its groups are inside of the text. -/
def Regcomp.Posix (regcomp : Regcomp) : Prop :=
  ∀ pattern regexec text m pos so eo, regcomp pattern = .ok regexec → regexec text = .found m →
    m.offsets pos = some (so, eo) → so ≤ eo ∧ eo ≤ text.length

/-! ## The code -/

/-- A character of a string and its NUL; there is none behind it. -/
def charAt (s : Str) (i : ℕ) : Option UInt8 := (s ++ [0])[i]?

/-- The C string at an offset in the bytes of an object. -/
def cStringAt (bytes : Str) (offset : ℕ) : Option Str :=
  if (bytes.drop offset).contains 0 then some ((bytes.drop offset).takeWhile (· ≠ 0)) else none

/-- The test of the first three characters, which are read one after the other. -/
def unstarted (configString : Str) : Option Bool :=
  if configString.length < 3 then
    (charAt configString 0).bind fun c =>
      if c = 35 then some false
      else (charAt configString 1).bind fun c =>
        if isdigit c then some false else (charAt configString 2).map fun c => c ≠ 32
  else some false

section Process

variable (file : Str) (offset : ℕ) (offsets : Match)

/-- The part of the file and the warnings. The warning of a wrong index reads a string from it on, which ends there
only where it is the NUL. -/
def elektraRegexstorePos (text : Str) (index : UInt8) (warnings : List Str) : Option (Str × List Str) :=
  if isdigit index then
    match offsets.offsets (index.toNat - 48) with
    | none => some ([], warnings ++ [str "Regex Group " ++ [index] ++ str " missing for " ++ text])
    | some (rm_so, rm_eo) =>
      if file.length < offset + rm_so then none
      else some ((file.drop (offset + rm_so)).take (rm_eo - rm_so), warnings)
  else if index = 0 then
    some ([], warnings ++ [str "Regex Group -48 for " ++ text ++ str " not between 0 and 9 read from "])
  else none

/-- The name from the key's name behind `user/regexstore` or `system/regexstore`, which may be other names as long. -/
def skippedName (configKey : Key) : Option Str :=
  let bytes := keyName configKey ++ 0 :: configKey.ukey
  if (str "user").isPrefixOf (keyName configKey) then cStringAt bytes 15
  else if (str "system").isPrefixOf (keyName configKey) then cStringAt bytes 17
  else some []

/-- The loop over `keyname`; behind its last character is the NUL. -/
def newName (keyname : Str) : Str → List Str → Option (Str × List Str)
  | [], warnings => some ([], warnings)
  | [c], warnings =>
    if c = 35 then elektraRegexstorePos file offset offsets (str "keyname " ++ keyname) 0 warnings
    else some ([c], warnings)
  | c :: index :: rest, warnings =>
    if c = 35 then
      (elektraRegexstorePos file offset offsets (str "keyname " ++ keyname) index warnings).bind
        fun (part, warnings) =>
          (newName keyname rest warnings).map fun (name, warnings) => (part ++ name, warnings)
    else (newName keyname (index :: rest) warnings).map fun (name, warnings) => (c :: name, warnings)

/-- The loop over the metadata. -/
def newMeta (newkeyname : Str) : List (Str × Str) → Key → List Str → Option (Key × List Str)
  | [], toAppend, warnings => some (toAppend, warnings)
  | (name, value) :: rest, toAppend, warnings =>
    (charAt value 1).bind fun index =>
      (elektraRegexstorePos file offset offsets (str "meta" ++ name ++ str " of " ++ newkeyname) index warnings).bind
        fun (part, warnings) => newMeta newkeyname rest (keySetMeta toAppend name (some part)).2 warnings

example (name : Str) (toAppend : Key) : newName file offset offsets name [] [] = some ([], []) ∧
    newMeta file offset offsets name [] toAppend [] = some (toAppend, []) := by
  rw [newName, newMeta]
  exact ⟨rfl, rfl⟩

/-- The key of a match. -/
def newKey (parentName : Str) (configKey : Key) (warnings : List Str) : Option (Key × List Str) := do
  let keyname ← skippedName configKey
  let (newkeyname, warnings) ← newName file offset offsets keyname keyname warnings
  let toAppend := (keyAddName (keyNewName parentName) (some newkeyname)).2
  let index ← charAt (keyString configKey) 1
  let (value, warnings) ← elektraRegexstorePos file offset offsets (str "keystring of " ++ newkeyname) index warnings
  newMeta file offset offsets newkeyname configKey.metaKeys (keySetString toAppend value) warnings

end Process

/-- `keyString` -/
def configString (configKey : Option Key) : Str := (configKey.map keyString).getD (str "(null)")

section Get

variable (regcomp : Regcomp)

/-- The file from an offset on, as a C string. -/
def textAt (file : Str) (offset : ℕ) : Str := (file.drop offset).takeWhile (· ≠ 0)

/-- The key to append, the offset and the warnings for the parent key, of which only the name is read. There is
nothing where memory outside of an object is read, the null pointer is, or the offset does not fit into an `int`. -/
def elektraRegexstoreProcess (parentName : Str) (configKey : Option Key) (offset : ℕ) (file : Str)
    (warnings : List Str) : Option (Option Key × ℕ × List Str) :=
  match unstarted (configString configKey) with
  | none => none
  | some true =>
    some (none, offset, warnings ++ [str "String " ++ configString configKey ++ str " of " ++
      (configKey.map keyName).getD [] ++ str " did not start with #<number><space>"])
  | some false =>
    if (configString configKey).length < 3 then none
    else
      match regcomp ((configString configKey).drop 3) with
      | .error text =>
        some (none, offset, warnings ++ [str "Could not compile regex " ++ (configString configKey).drop 3 ++
          str ", because: " ++ text])
      | .ok regexec =>
        match regexec (textAt file offset) with
        | .noMatch => some (none, offset, warnings)
        | .error text =>
          some (none, offset, warnings ++
            [str "Regex exec returned error (not in manual for linux), because: " ++ text])
        | .found offsets =>
          (configKey.bind fun configKey => newKey file offset offsets parentName configKey warnings).bind
            fun (toAppend, warnings) =>
              if offset + offsets.rm_eo < 2 ^ 31 then some (some toAppend, offset + offsets.rm_eo, warnings) else none

structure State where
  returned : List Key
  warnings : List Str

/-- The inner loop. -/
def applyLoop (parentName file : Str) (configKey : Option Key) : ℕ → ℕ → State → Option State
  | 0, _, _ => none
  | fuel + 1, offset, s =>
    (elektraRegexstoreProcess regcomp parentName configKey offset file s.warnings).bind
      fun (toAppend, offset, warnings) =>
        match toAppend with
        | none => some { s with warnings := warnings }
        | some toAppend => applyLoop parentName file configKey fuel offset ⟨ksAppendValue s.returned toAppend, warnings⟩

/-- The outer loop, with as many `rounds` of the inner one for each key. -/
def confLoop (parentName file : Str) (rounds : ℕ) (confParent : KeyRef) : ℕ → World → State → Option State
  | 0, _, _ => none
  | fuel + 1, w, s =>
    (applyLoop regcomp parentName file (w.ks.cursor.map w.cell) rounds 0 s).bind fun s =>
      if (ksNext w.ks).1.elim false fun k => keyIsBelow (w.cell confParent) (w.cell k) then
        confLoop parentName file rounds confParent fuel { w with ks := (ksNext w.ks).2 } s
      else some s

def moduleName : Str := str "system/elektra/modules/regexstore"

/-- The outer loop moves the cursor, so the size of the configuration bounds its rounds. -/
def elektraRegexstoreGet (env : Environment) (cb : Callback) (fuel rounds : ℕ) (contract : List Key) (conf : World)
    (file : Except Line.Errno Str) (returned : List Key) (parentKey : Key) : Option (ℤ × List Key × Key) :=
  if keyName parentKey = moduleName then some (1, contract.foldl ksAppendValue returned, parentKey)
  else
    match file with
    | .error errno => some (-1, returned, env.setError (if errno.access then 109 else 110) parentKey errno.text)
    | .ok file =>
      match ksLookupByName cb fuel { conf with ks := ksRewind conf.ks } (str "/regexstore") {} with
      | .error _ => none
      | .ok (none, _) =>
        some (-1, returned, env.setError 95 parentKey (str "Key /regexstore not found in configuration"))
      | .ok (some confParent, w) =>
        (confLoop regcomp (keyName parentKey) file rounds confParent (w.ks.size + 1)
          -- skip root
          { w with ks := (ksNext w.ks).2 } ⟨returned, []⟩).map fun s =>
            (1, s.returned, s.warnings.foldl (env.addWarning 96) parentKey)

end Get

/-! ## The keys of the matches -/

/-- A digit, or the NUL behind a string. -/
def IsIndex (c : UInt8) : Prop := isdigit c = true ∨ c = 0

instance (c : UInt8) : Decidable (IsIndex c) := inferInstanceAs (Decidable (_ ∨ _))

/-- What the match has for an index. -/
def groupAt (file : Str) (offset : ℕ) (offsets : Match) (index : UInt8) : Str :=
  if isdigit index then
    ((offsets.offsets (index.toNat - 48)).map fun g => (file.drop (offset + g.1)).take (g.2 - g.1)).getD []
  else []

/-- The name with the groups in it. -/
def filledName (file : Str) (offset : ℕ) (offsets : Match) : Str → Str
  | [] => []
  | [c] => if c = 35 then [] else [c]
  | c :: index :: rest =>
    if c = 35 then groupAt file offset offsets index ++ filledName file offset offsets rest
    else c :: filledName file offset offsets (index :: rest)

/-- Behind every `#` is an index. -/
def Marked : Str → Prop
  | [] => True
  | [_] => True
  | c :: index :: rest => if c = 35 then IsIndex index ∧ Marked rest else Marked (index :: rest)

/-- The key of a match at an offset. -/
def keyOf (parentName file : Str) (configKey : Key) (p : ℕ × Match) : Key :=
  configKey.metaKeys.foldl
    (fun key m => (keySetMeta key m.1 (some (groupAt file p.1 p.2 ((charAt m.2 1).getD 0)))).2)
    (keySetString
      (keyAddName (keyNewName parentName) (some (filledName file p.1 p.2 ((skippedName configKey).getD [])))).2
      (groupAt file p.1 p.2 ((charAt (keyString configKey) 1).getD 0)))

/-- The name, the value and the metadata have indices where they are read. -/
structure Usable (configKey : Key) : Prop where
  name : ∃ keyname, skippedName configKey = some keyname ∧ Marked keyname
  value : ∃ index, charAt (keyString configKey) 1 = some index ∧ IsIndex index
  metas : ∀ m ∈ configKey.metaKeys, ∃ index, charAt m.2 1 = some index ∧ IsIndex index

section Keys

variable {file : Str} {offset : ℕ} {offsets : Match}

/-- The match is inside of the file. -/
def Inside (file : Str) (offset : ℕ) (offsets : Match) : Prop :=
  ∀ pos so eo, offsets.offsets pos = some (so, eo) → offset + so ≤ file.length

theorem pos_index (hin : Inside file offset offsets) (text : Str) {index : UInt8} (h : IsIndex index)
    (warnings : List Str) : ∃ warnings', elektraRegexstorePos file offset offsets text index warnings =
      some (groupAt file offset offsets index, warnings') := by
  rw [elektraRegexstorePos, groupAt]
  by_cases hd : isdigit index = true
  · rw [if_pos hd, if_pos hd]
    cases hg : offsets.offsets (index.toNat - 48) with
    | none => exact ⟨_, rfl⟩
    | some g =>
      obtain ⟨so, eo⟩ := g
      have hle : ¬ file.length < offset + so := not_lt.mpr (hin _ so eo hg)
      dsimp only
      rw [if_neg hle]
      exact ⟨_, rfl⟩
  · rw [if_neg hd, if_neg hd, if_pos (h.resolve_left hd)]
    exact ⟨_, rfl⟩

theorem index_of_pos {text : Str} {index : UInt8} {warnings : List Str} {r : Str × List Str}
    (h : elektraRegexstorePos file offset offsets text index warnings = some r) : IsIndex index := by
  rw [elektraRegexstorePos] at h
  by_cases hd : isdigit index = true
  · exact .inl hd
  · rw [if_neg hd] at h
    by_cases h0 : index = 0
    · exact .inr h0
    · rw [if_neg h0] at h
      cases h

theorem newName_marked (hin : Inside file offset offsets) (keyname : Str) : ∀ (s : Str) (warnings : List Str),
    Marked s → ∃ warnings', newName file offset offsets keyname s warnings =
      some (filledName file offset offsets s, warnings')
  | [], warnings, _ => ⟨warnings, rfl⟩
  | [c], warnings, _ => by
    rw [newName, filledName]
    by_cases hc : c = 35
    · rw [if_pos hc, if_pos hc]
      exact pos_index hin _ (.inr rfl) warnings
    · rw [if_neg hc, if_neg hc]
      exact ⟨_, rfl⟩
  | c :: index :: rest, warnings, h => by
    rw [Marked] at h
    rw [newName, filledName]
    by_cases hc : c = 35
    · rw [if_pos hc] at h ⊢
      obtain ⟨w, hw⟩ := pos_index hin (str "keyname " ++ keyname) h.1 warnings
      obtain ⟨w', hw'⟩ := newName_marked hin keyname rest w h.2
      rw [if_pos hc, hw, Option.bind_some]
      dsimp only
      rw [hw']
      exact ⟨w', rfl⟩
    · rw [if_neg hc] at h ⊢
      obtain ⟨w, hw⟩ := newName_marked hin keyname (index :: rest) warnings h
      rw [if_neg hc, hw]
      exact ⟨w, rfl⟩

theorem marked_of_newName {keyname : Str} : ∀ {s : Str} {warnings : List Str} {r : Str × List Str},
    newName file offset offsets keyname s warnings = some r → Marked s
  | [], _, _, _ => trivial
  | [_], _, _, _ => trivial
  | c :: index :: rest, warnings, r, h => by
    rw [newName] at h
    rw [Marked]
    by_cases hc : c = 35
    · rw [if_pos hc] at h ⊢
      obtain ⟨⟨part, w⟩, hpos, hrest⟩ := Option.bind_eq_some_iff.mp h
      obtain ⟨r', hr', -⟩ := Option.map_eq_some_iff.mp hrest
      exact ⟨index_of_pos hpos, marked_of_newName hr'⟩
    · rw [if_neg hc] at h ⊢
      obtain ⟨r', hr', -⟩ := Option.map_eq_some_iff.mp h
      exact marked_of_newName hr'

theorem newMeta_usable (hin : Inside file offset offsets) (newkeyname : Str) : ∀ (metas : List (Str × Str)) (key : Key)
    (warnings : List Str), (∀ m ∈ metas, ∃ index, charAt m.2 1 = some index ∧ IsIndex index) →
    ∃ warnings', newMeta file offset offsets newkeyname metas key warnings = some (metas.foldl
      (fun key m => (keySetMeta key m.1 (some (groupAt file offset offsets ((charAt m.2 1).getD 0)))).2) key, warnings')
  | [], key, warnings, _ => ⟨warnings, rfl⟩
  | (name, value) :: rest, key, warnings, h => by
    obtain ⟨index, hget, hindex⟩ := h (name, value) List.mem_cons_self
    obtain ⟨w, hw⟩ := pos_index hin (str "meta" ++ name ++ str " of " ++ newkeyname) hindex warnings
    have hget : charAt value 1 = some index := hget
    rw [newMeta, hget, Option.bind_some, hw, Option.bind_some, List.foldl_cons]
    dsimp only
    rw [hget]
    exact newMeta_usable hin newkeyname rest _ w fun m hm => h m (List.mem_cons_of_mem _ hm)

theorem usable_of_newMeta {newkeyname : Str} : ∀ {metas : List (Str × Str)} {key : Key} {warnings : List Str}
    {r : Key × List Str}, newMeta file offset offsets newkeyname metas key warnings = some r →
    ∀ m ∈ metas, ∃ index, charAt m.2 1 = some index ∧ IsIndex index
  | [], _, _, _, _, m, hm => absurd hm List.not_mem_nil
  | (name, value) :: rest, key, warnings, r, h, m, hm => by
    rw [newMeta] at h
    obtain ⟨index, hget, hrest⟩ := Option.bind_eq_some_iff.mp h
    obtain ⟨⟨part, w⟩, hpos, hrest⟩ := Option.bind_eq_some_iff.mp hrest
    obtain rfl | hm := List.mem_cons.mp hm
    · exact ⟨index, hget, index_of_pos hpos⟩
    · exact usable_of_newMeta hrest m hm

theorem newKey_usable (hin : Inside file offset offsets) (parentName : Str) {configKey : Key} (h : Usable configKey)
    (warnings : List Str) : ∃ warnings', newKey file offset offsets parentName configKey warnings =
      some (keyOf parentName file configKey (offset, offsets), warnings') := by
  obtain ⟨keyname, hname, hmarked⟩ := h.name
  obtain ⟨index, hvalue, hindex⟩ := h.value
  obtain ⟨w₁, h₁⟩ := newName_marked hin keyname keyname warnings hmarked
  obtain ⟨w₂, h₂⟩ := pos_index hin (str "keystring of " ++ filledName file offset offsets keyname) hindex w₁
  obtain ⟨w₃, h₃⟩ := newMeta_usable hin (filledName file offset offsets keyname) configKey.metaKeys
    (keySetString (keyAddName (keyNewName parentName) (some (filledName file offset offsets keyname))).2
      (groupAt file offset offsets index)) w₂ h.metas
  refine ⟨w₃, ?_⟩
  simp only [newKey, hname, h₁, hvalue, h₂, h₃, keyOf, Option.bind_eq_bind, Option.bind_some, Option.getD_some]

theorem usable_of_newKey {parentName : Str} {configKey : Key} {warnings : List Str} {r : Key × List Str}
    (h : newKey file offset offsets parentName configKey warnings = some r) : Usable configKey := by
  simp only [newKey, Option.bind_eq_bind] at h
  obtain ⟨keyname, hname, h⟩ := Option.bind_eq_some_iff.mp h
  obtain ⟨⟨newkeyname, w₁⟩, hnew, h⟩ := Option.bind_eq_some_iff.mp h
  obtain ⟨index, hvalue, h⟩ := Option.bind_eq_some_iff.mp h
  obtain ⟨⟨value, w₂⟩, hpos, h⟩ := Option.bind_eq_some_iff.mp h
  exact ⟨⟨keyname, hname, marked_of_newName hnew⟩, ⟨index, hvalue, index_of_pos hpos⟩, usable_of_newMeta h⟩

end Keys

/-! ## Matches behind each other -/

section Matches

variable (regexec : Str → Exec) (file : Str)

/-- From an offset on, the matches with the offsets where they are looked for, each behind the one before. -/
inductive Successive : ℕ → List (ℕ × Match) → Prop
  | done {offset} (h : ∀ m, regexec (textAt file offset) ≠ .found m) : Successive offset []
  | next {offset m ms} (h : regexec (textAt file offset) = .found m) (hms : Successive (offset + m.rm_eo) ms) :
    Successive offset ((offset, m) :: ms)

/-- From `start` on, a match is found at an offset. -/
inductive Matched : ℕ → ℕ → Match → Prop
  | here {start m} (h : regexec (textAt file start) = .found m) : Matched start start m
  | behind {start offset m m'} (h : regexec (textAt file start) = .found m)
    (hm : Matched (start + m.rm_eo) offset m') : Matched start offset m'

variable {regexec file}

theorem Successive.matched {start : ℕ} {ms : List (ℕ × Match)} (h : Successive regexec file start ms) :
    ∀ p ∈ ms, Matched regexec file start p.1 p.2 := by
  induction h with
  | done => exact fun p hp => absurd hp List.not_mem_nil
  | next h hms ih =>
    intro p hp
    obtain rfl | hp := List.mem_cons.mp hp
    · exact .here h
    · exact .behind h (ih p hp)

theorem length_textAt (file : Str) (offset : ℕ) : (textAt file offset).length ≤ file.length - offset :=
  (List.takeWhile_prefix _).length_le.trans (List.length_drop ..).le

/-- **Where every match takes something, there is a last one.** -/
theorem exists_successive (hend : ∀ offset m, regexec (textAt file offset) = .found m →
    m.rm_eo ≤ (textAt file offset).length) : ∀ (n start : ℕ), file.length - start < n →
    (∀ offset m, Matched regexec file start offset m → 0 < m.rm_eo) → ∃ ms, Successive regexec file start ms
  | 0, _, hn, _ => absurd hn (Nat.not_lt_zero _)
  | n + 1, start, hn, h => by
    by_cases hfound : ∃ m, regexec (textAt file start) = .found m
    · obtain ⟨m, hm⟩ := hfound
      have hpos : 0 < m.rm_eo := h start m (.here hm)
      have hle : m.rm_eo ≤ file.length - start := (hend start m hm).trans (length_textAt file start)
      obtain ⟨ms, hms⟩ := exists_successive hend n (start + m.rm_eo) (by omega)
        fun offset m' hm' => h offset m' (.behind hm hm')
      exact ⟨_, .next hm hms⟩
    · exact ⟨[], .done fun m hm => hfound ⟨m, hm⟩⟩

end Matches

/-! ## The loops -/

section Loops

variable (regcomp : Regcomp) (parentName file : Str)

/-- The keys that are appended for an expression: one for each match. -/
def Appends (configKey : Option Key) (keys : List Key) : Prop :=
  if (configString configKey).length < 3 then keys = []
  else
    match regcomp ((configString configKey).drop 3) with
    | .error _ => keys = []
    | .ok regexec => ∃ ms, Successive regexec file 0 ms ∧ keys = ms.map (keyOf parentName file (configKey.getD keyNew))

/-- A match takes something of the file, its end fits into an `int`, and its key can be made. -/
structure Takes (configKey : Option Key) (offset : ℕ) (m : Match) : Prop where
  pos : 0 < m.rm_eo
  int : offset + m.rm_eo < 2 ^ 31
  usable : ∃ key, configKey = some key ∧ Usable key

/-- The expression is refused as it should be, or it has three characters before it and is used up by the file. -/
def Proper (configKey : Option Key) : Prop :=
  (∃ a b, configString configKey = [a, b] ∧ a ≠ 35 ∧ isdigit b = false) ∨
    3 ≤ (configString configKey).length ∧ ∀ regexec, regcomp ((configString configKey).drop 3) = .ok regexec →
      ∀ offset m, Matched regexec file 0 offset m → Takes configKey offset m

variable {regcomp parentName file} {configKey : Option Key} {regexec : Str → Exec} {offset : ℕ} {m : Match}

/-- Of the short strings only those of two characters are read inside of their memory and refused. -/
theorem unstarted_cases (s : Str) : (∃ a b, s = [a, b] ∧ a ≠ 35 ∧ isdigit b = false) ∧ unstarted s = some true ∨
    3 ≤ s.length ∧ unstarted s = some false ∨
      ¬ (∃ a b, s = [a, b] ∧ a ≠ 35 ∧ isdigit b = false) ∧ s.length < 3 ∧ unstarted s ≠ some true := by
  by_cases hlen : s.length < 3
  · have hsome : unstarted s = some true → ∃ a b, s = [a, b] ∧ a ≠ 35 ∧ isdigit b = false := by
      intro h
      rw [unstarted, if_pos hlen] at h
      obtain ⟨a, ha, h⟩ := Option.bind_eq_some_iff.mp h
      by_cases h35 : a = 35
      · rw [if_pos h35] at h
        cases h
      rw [if_neg h35] at h
      obtain ⟨b, hb, h⟩ := Option.bind_eq_some_iff.mp h
      by_cases hd : isdigit b = true
      · rw [if_pos hd] at h
        cases h
      rw [if_neg hd] at h
      obtain ⟨c, hc, -⟩ := Option.map_eq_some_iff.mp h
      have hlt : 2 < (s ++ [0]).length := (List.getElem?_eq_some_iff.mp hc).1
      rw [List.length_append, List.length_singleton] at hlt
      obtain ⟨x, y, rfl⟩ := List.length_eq_two.mp (show s.length = 2 by omega)
      obtain rfl : x = a := Option.some.inj ha
      obtain rfl : y = b := Option.some.inj hb
      exact ⟨x, y, rfl, h35, Bool.not_eq_true _ ▸ hd⟩
    by_cases hex : ∃ a b, s = [a, b] ∧ a ≠ 35 ∧ isdigit b = false
    · refine .inl ⟨hex, ?_⟩
      obtain ⟨a, b, rfl, ha, hb⟩ := hex
      have h0 : charAt [a, b] 0 = some a := rfl
      have h1 : charAt [a, b] 1 = some b := rfl
      have h2 : charAt [a, b] 2 = some 0 := rfl
      rw [unstarted, if_pos hlen, h0, Option.bind_some, if_neg ha, h1, Option.bind_some, hb, if_neg (by decide), h2]
      rfl
    · exact .inr (.inr ⟨hex, hlen, fun h => hex (hsome h)⟩)
  · exact .inr (.inl ⟨not_lt.mp hlen, by rw [unstarted, if_neg hlen]⟩)

theorem process_ok (hlen : 3 ≤ (configString configKey).length)
    (hre : regcomp ((configString configKey).drop 3) = .ok regexec) (warnings : List Str) :
    elektraRegexstoreProcess regcomp parentName configKey offset file warnings =
      match regexec (textAt file offset) with
      | .noMatch => some (none, offset, warnings)
      | .error text => some (none, offset, warnings ++
          [str "Regex exec returned error (not in manual for linux), because: " ++ text])
      | .found offsets =>
        (configKey.bind fun configKey => newKey file offset offsets parentName configKey warnings).bind
          fun (toAppend, warnings) =>
            if offset + offsets.rm_eo < 2 ^ 31 then some (some toAppend, offset + offsets.rm_eo, warnings) else none := by
  have hfalse : unstarted (configString configKey) = some false := by rw [unstarted, if_neg (not_lt.mpr hlen)]
  rw [elektraRegexstoreProcess, hfalse]
  dsimp only
  rw [if_neg (not_lt.mpr hlen), hre]

theorem process_found (hlen : 3 ≤ (configString configKey).length)
    (hre : regcomp ((configString configKey).drop 3) = .ok regexec) (hm : regexec (textAt file offset) = .found m)
    (hin : Inside file offset m) (ht : Takes configKey offset m) (warnings : List Str) :
    ∃ warnings', elektraRegexstoreProcess regcomp parentName configKey offset file warnings =
      some (some (keyOf parentName file (configKey.getD keyNew) (offset, m)), offset + m.rm_eo, warnings') := by
  obtain ⟨key, rfl, hu⟩ := ht.usable
  obtain ⟨w, hw⟩ := newKey_usable hin parentName hu warnings
  refine ⟨w, ?_⟩
  rw [process_ok hlen hre, hm]
  dsimp only
  rw [Option.bind_some, hw, Option.bind_some]
  dsimp only
  rw [if_pos ht.int, Option.getD_some]

theorem applyLoop_stuck (hlen : 3 ≤ (configString configKey).length)
    (hre : regcomp ((configString configKey).drop 3) = .ok regexec) (hm : regexec (textAt file offset) = .found m)
    (h0 : m.rm_eo = 0) : ∀ (rounds : ℕ) (s : State), applyLoop regcomp parentName file configKey rounds offset s = none
  | 0, _ => rfl
  | rounds + 1, s => by
    rw [applyLoop, process_ok hlen hre, hm]
    dsimp only
    rw [h0, Nat.add_zero]
    cases (configKey.bind fun configKey => newKey file offset m parentName configKey s.warnings) with
    | none => rfl
    | some r =>
      obtain ⟨toAppend, warnings⟩ := r
      rw [Option.bind_some]
      dsimp only
      split_ifs with hint
      · exact applyLoop_stuck hlen hre hm h0 rounds _
      · rfl

theorem takes_of_applyLoop (hlen : 3 ≤ (configString configKey).length)
    (hre : regcomp ((configString configKey).drop 3) = .ok regexec) : ∀ {rounds start : ℕ} {s s' : State},
    applyLoop regcomp parentName file configKey rounds start s = some s' →
    ∀ offset m, Matched regexec file start offset m → Takes configKey offset m
  | 0, _, _, _, h, _, _, _ => by cases h
  | rounds + 1, start, s, s', h, offset, m, hm => by
    -- the match at `start` is used, and the loop goes on behind it
    have hnext : ∀ m, regexec (textAt file start) = .found m → Takes configKey start m ∧
        ∃ s, applyLoop regcomp parentName file configKey rounds (start + m.rm_eo) s = some s' := by
      intro m hm
      have hpos : m.rm_eo ≠ 0 := by
        intro h0
        rw [applyLoop_stuck hlen hre hm h0] at h
        cases h
      rw [applyLoop, process_ok hlen hre, hm] at h
      obtain ⟨⟨toAppend, offset, warnings⟩, hr, hrest⟩ := Option.bind_eq_some_iff.mp h
      obtain ⟨⟨toAppend', warnings'⟩, hkey, hint⟩ := Option.bind_eq_some_iff.mp hr
      obtain ⟨key, hk, hkey⟩ := Option.bind_eq_some_iff.mp hkey
      dsimp only at hint
      split_ifs at hint with hlt
      cases hint
      exact ⟨⟨Nat.pos_of_ne_zero hpos, hlt, key, hk, usable_of_newKey hkey⟩, _, hrest⟩
    cases hm with
    | here hm => exact (hnext m hm).1
    | behind hfound hm =>
      obtain ⟨-, s, hs⟩ := hnext _ hfound
      exact takes_of_applyLoop hlen hre hs offset m hm

/-- **An expression on which the loop ends is proper.** -/
theorem proper_of_applyLoop {rounds : ℕ} {s s' : State}
    (h : applyLoop regcomp parentName file configKey rounds 0 s = some s') : Proper regcomp file configKey := by
  obtain ⟨href, -⟩ | ⟨hlen, -⟩ | ⟨-, hlen, hne⟩ := unstarted_cases (configString configKey)
  · exact .inl href
  · exact .inr ⟨hlen, fun regexec hre => takes_of_applyLoop hlen hre h⟩
  · cases rounds with
    | zero => cases h
    | succ rounds =>
      rw [applyLoop, elektraRegexstoreProcess] at h
      cases hu : unstarted (configString configKey) with
      | none =>
        rw [hu] at h
        cases h
      | some b =>
        cases b with
        | true => exact absurd hu hne
        | false =>
          rw [hu] at h
          dsimp only at h
          rw [if_pos hlen] at h
          cases h

theorem applyLoop_successive (hlen : 3 ≤ (configString configKey).length)
    (hre : regcomp ((configString configKey).drop 3) = .ok regexec)
    (hin : ∀ offset m, offset ≤ file.length → regexec (textAt file offset) = .found m →
      Inside file offset m ∧ offset + m.rm_eo ≤ file.length) {start : ℕ} {ms : List (ℕ × Match)}
    (hms : Successive regexec file start ms) (hle : start ≤ file.length)
    (ht : ∀ p ∈ ms, Takes configKey p.1 p.2) : ∀ (rounds : ℕ), ms.length < rounds → ∀ (s : State), ∃ warnings,
    applyLoop regcomp parentName file configKey rounds start s =
      some ⟨(ms.map (keyOf parentName file (configKey.getD keyNew))).foldl ksAppendValue s.returned, warnings⟩ := by
  induction hms with
  | @done start hno =>
    intro rounds hr s
    obtain ⟨rounds, rfl⟩ := Nat.exists_eq_add_one_of_ne_zero (Nat.ne_of_gt hr)
    rw [applyLoop, process_ok hlen hre]
    cases hx : regexec (textAt file start) with
    | noMatch => exact ⟨_, rfl⟩
    | error text => exact ⟨_, rfl⟩
    | found m => exact absurd hx (hno m)
  | @next start m ms hm _ ih =>
    intro rounds hr s
    obtain ⟨rounds, rfl⟩ := Nat.exists_eq_add_one_of_ne_zero (Nat.ne_of_gt (Nat.zero_lt_of_lt hr))
    obtain ⟨hinside, hend⟩ := hin start m hle hm
    obtain ⟨w, hw⟩ := process_found hlen hre hm hinside (ht _ List.mem_cons_self) s.warnings
    rw [applyLoop, hw, Option.bind_some]
    dsimp only
    rw [List.map_cons, List.foldl_cons]
    exact ih hend (fun p hp => ht p (List.mem_cons_of_mem _ hp)) rounds (Nat.lt_of_succ_lt_succ hr) _

end Loops

/-! ## The configuration -/

/-- The expressions: the key behind the root in any case, and those that follow it as long as they are below the
root. -/
def expressions (cb : Callback) (fuel : ℕ) (conf : World) : Except Stop (List (Option Key)) :=
  match ksLookupByName cb fuel { conf with ks := ksRewind conf.ks } (str "/regexstore") {} with
  | .error e => .error e
  | .ok (none, _) => .ok []
  | .ok (some confParent, w) =>
    .ok ((ksNext w.ks).2.cursor.map w.cell :: ((ksNext w.ks).2.remaining.takeWhile fun k =>
      keyIsBelow (w.cell confParent) (w.cell k)).map fun k => some (w.cell k))

section Conf

variable {regcomp : Regcomp} {parentName file : Str}

theorem remaining_next_lt (w : World) : (ksNext w.ks).2.remaining.length < w.ks.size + 1 := by
  have harray : (ksNext w.ks).2.array = w.ks.array := by
    obtain ⟨-, -, harray, -⟩ | ⟨k, rest, -, hnext, -⟩ := ksNext_cases w.ks
    · exact harray
    · rw [hnext]
  rw [KeySet.remaining, List.length_drop, harray]
  exact Nat.lt_succ_of_le (Nat.sub_le _ _)

theorem confLoop_eq (rounds : ℕ) (confParent : KeyRef) : ∀ (fuel : ℕ) (w : World) (s : State),
    w.ks.remaining.length < fuel → confLoop regcomp parentName file rounds confParent fuel w s =
      (w.ks.cursor.map w.cell :: (w.ks.remaining.takeWhile fun k =>
        keyIsBelow (w.cell confParent) (w.cell k)).map fun k => some (w.cell k)).foldlM
          (fun s configKey => applyLoop regcomp parentName file configKey rounds 0 s) s
  | 0, _, _, h => absurd h (Nat.not_lt_zero _)
  | fuel + 1, w, s, h => by
    rw [confLoop, List.foldlM_cons, Option.bind_eq_bind]
    congr 1
    funext s
    obtain ⟨hnil, hnone, -⟩ | ⟨k, rest, hcons, hnext, -, hrest⟩ := ksNext_cases w.ks
    · rw [hnil, hnone]
      rfl
    · rw [hcons] at h
      have hlt : (ksNext w.ks).2.remaining.length < fuel := by
        rw [hrest]
        exact Nat.lt_of_succ_lt_succ h
      have hcursor : (ksNext w.ks).2.cursor = some k := by rw [hnext]
      rw [hcons, List.takeWhile_cons]
      by_cases hb : keyIsBelow (w.cell confParent) (w.cell k) = true
      · have hif : ((ksNext w.ks).1.elim false fun k => keyIsBelow (w.cell confParent) (w.cell k)) = true := by
          rw [hnext]
          exact hb
        have ih := confLoop_eq rounds confParent fuel { w with ks := (ksNext w.ks).2 } s hlt
        rw [if_pos hif, if_pos hb, ih]
        dsimp only
        rw [hcursor, hrest]
        rfl
      · have hif : ¬ ((ksNext w.ks).1.elim false fun k => keyIsBelow (w.cell confParent) (w.cell k)) = true := by
          rw [hnext]
          exact hb
        rw [if_neg hif, if_neg hb]
        rfl

end Conf

section Claim

variable {regcomp : Regcomp} {parentName file : Str}

theorem Regcomp.Posix.inside (hposix : regcomp.Posix) {pattern : Str} {regexec : Str → Exec}
    (hre : regcomp pattern = .ok regexec) {offset : ℕ} {m : Match} (hle : offset ≤ file.length)
    (hm : regexec (textAt file offset) = .found m) : Inside file offset m ∧ offset + m.rm_eo ≤ file.length := by
  have hlen := length_textAt file offset
  constructor
  · intro pos so eo hpos
    obtain ⟨h₁, h₂⟩ := hposix pattern regexec _ m pos so eo hre hm hpos
    omega
  · obtain ⟨-, h₂⟩ := hposix pattern regexec _ m 0 m.rm_so m.rm_eo hre hm rfl
    omega

/-- **A proper expression is used up**, and a key is appended for each of its matches. -/
theorem applyLoop_proper (hposix : regcomp.Posix) (parentName : Str) {configKey : Option Key}
    (h : Proper regcomp file configKey) : ∃ keys bound, Appends regcomp parentName file configKey keys ∧
      ∀ rounds, bound < rounds → ∀ s : State, ∃ warnings,
        applyLoop regcomp parentName file configKey rounds 0 s =
          some ⟨keys.foldl ksAppendValue s.returned, warnings⟩ := by
  obtain ⟨hex, htrue⟩ | ⟨hlen, hfalse⟩ | ⟨hnex, hlen, -⟩ := unstarted_cases (configString configKey)
  · refine ⟨[], 0, ?_, fun rounds hr s => ?_⟩
    · obtain ⟨a, b, hs, -⟩ := hex
      have hlt : [a, b].length < 3 := Nat.lt_succ_self 2
      rw [Appends, hs, if_pos hlt]
    · obtain ⟨rounds, rfl⟩ := Nat.exists_eq_add_one_of_ne_zero (Nat.ne_of_gt hr)
      rw [applyLoop, elektraRegexstoreProcess, htrue]
      exact ⟨_, rfl⟩
  · have hproper := h.resolve_left fun ⟨a, b, hs, _⟩ => by
      rw [hs] at hlen
      exact Nat.not_succ_le_self 2 hlen
    cases hre : regcomp ((configString configKey).drop 3) with
    | error text =>
      refine ⟨[], 0, ?_, fun rounds hr s => ?_⟩
      · rw [Appends, if_neg (not_lt.mpr hlen), hre]
      · obtain ⟨rounds, rfl⟩ := Nat.exists_eq_add_one_of_ne_zero (Nat.ne_of_gt hr)
        rw [applyLoop, elektraRegexstoreProcess, hfalse]
        dsimp only
        rw [if_neg (not_lt.mpr hlen), hre]
        exact ⟨_, rfl⟩
    | ok regexec =>
      have ht := hproper.2 regexec hre
      obtain ⟨ms, hms⟩ := exists_successive
        (fun offset m hm => (hposix _ regexec _ m 0 m.rm_so m.rm_eo hre hm rfl).2) (file.length + 1) 0 (by omega)
        fun offset m hm => (ht offset m hm).pos
      refine ⟨_, ms.length, ?_, applyLoop_successive hlen hre (fun offset m hle hm => hposix.inside hre hle hm) hms
        (Nat.zero_le _) fun p hp => ht p.1 p.2 (hms.matched p hp)⟩
      rw [Appends, if_neg (not_lt.mpr hlen), hre]
      exact ⟨ms, hms, rfl⟩
  · exfalso
    obtain hex | ⟨hle, -⟩ := h
    · exact hnex hex
    · omega

/-- An expression that matches in every text, be it with nothing, is not used up by any file. -/
theorem not_proper_everywhere (hposix : regcomp.Posix) {configKey : Option Key} {regexec : Str → Exec}
    (hlen : 3 ≤ (configString configKey).length) (hre : regcomp ((configString configKey).drop 3) = .ok regexec)
    (hall : ∀ text, ∃ m, regexec text = .found m) : ¬ Proper regcomp file configKey := by
  intro h
  obtain ⟨keys, bound, happ, -⟩ := applyLoop_proper hposix [] h
  rw [Appends, if_neg (not_lt.mpr hlen), hre] at happ
  obtain ⟨ms, hms, -⟩ := happ
  generalize 0 = offset at hms
  induction hms with
  | done hno =>
    obtain ⟨m, hm⟩ := hall _
    exact hno m hm
  | next _ _ ih => exact ih

theorem proper_of_foldlM {rounds : ℕ} : ∀ {es : List (Option Key)} {s s' : State},
    es.foldlM (fun s configKey => applyLoop regcomp parentName file configKey rounds 0 s) s = some s' →
    ∀ configKey ∈ es, Proper regcomp file configKey
  | [], _, _, _, _, he => absurd he List.not_mem_nil
  | e :: es, s, s', h, configKey, he => by
    rw [List.foldlM_cons] at h
    obtain ⟨s₁, h₁, h₂⟩ := Option.bind_eq_some_iff.mp h
    obtain rfl | he := List.mem_cons.mp he
    · exact proper_of_applyLoop h₁
    · exact proper_of_foldlM h₂ configKey he

theorem foldlM_proper (hposix : regcomp.Posix) (parentName : Str) : ∀ {es : List (Option Key)},
    (∀ configKey ∈ es, Proper regcomp file configKey) → ∃ keys bound,
      List.Forall₂ (Appends regcomp parentName file) es keys ∧ ∀ rounds, bound < rounds → ∀ s : State, ∃ warnings,
        es.foldlM (fun s configKey => applyLoop regcomp parentName file configKey rounds 0 s) s =
          some ⟨keys.flatten.foldl ksAppendValue s.returned, warnings⟩
  | [], _ => ⟨[], 0, .nil, fun rounds _ s => ⟨s.warnings, rfl⟩⟩
  | e :: es, h => by
    obtain ⟨ks, b, ha, hrun⟩ := applyLoop_proper hposix parentName (h e List.mem_cons_self)
    obtain ⟨keys, bound, hall, hrest⟩ := foldlM_proper hposix parentName fun configKey he =>
      h configKey (List.mem_cons_of_mem _ he)
    refine ⟨ks :: keys, max b bound, .cons ha hall, fun rounds hr s => ?_⟩
    obtain ⟨w, hw⟩ := hrun rounds (lt_of_le_of_lt (le_max_left _ _) hr) s
    obtain ⟨w', hw'⟩ := hrest rounds (lt_of_le_of_lt (le_max_right _ _) hr)
      ⟨ks.foldl ksAppendValue s.returned, w⟩
    refine ⟨w', ?_⟩
    rw [List.foldlM_cons, hw, List.flatten_cons, List.foldl_append]
    exact hw'

theorem proper_of_get {env : Environment} {cb : Callback} {fuel rounds : ℕ} {contract returned : List Key} {conf : World}
    {parentKey : Key} {es : List (Option Key)} {result : ℤ × List Key × Key} (hparent : keyName parentKey ≠ moduleName)
    (hes : expressions cb fuel conf = .ok es)
    (hget : elektraRegexstoreGet regcomp env cb fuel rounds contract conf (.ok file) returned parentKey = some result) :
    ∀ configKey ∈ es, Proper regcomp file configKey := by
  rw [elektraRegexstoreGet, if_neg hparent] at hget
  rw [expressions] at hes
  cases hlookup : ksLookupByName cb fuel { conf with ks := ksRewind conf.ks } (str "/regexstore") {} with
  | error e =>
    rw [hlookup] at hes
    cases hes
  | ok r =>
    obtain ⟨found, w⟩ := r
    rw [hlookup] at hget hes
    cases found with
    | none =>
      cases hes
      exact fun configKey he => absurd he List.not_mem_nil
    | some confParent =>
      dsimp only at hget hes
      cases hes
      obtain ⟨s, hs, -⟩ := Option.map_eq_some_iff.mp hget
      rw [confLoop_eq _ _ _ _ _ (remaining_next_lt w)] at hs
      exact proper_of_foldlM hs

end Claim

/-- The call returns, and has appended a key for each match of each expression. -/
def Gets (regcomp : Regcomp) (env : Environment) (cb : Callback) (contract : List Key) (conf : World) (file : Str)
    (returned : List Key) (parentKey : Key) : Prop :=
  ∃ fuel rounds es keys ret parentKey', expressions cb fuel conf = .ok es ∧
    List.Forall₂ (Appends regcomp (keyName parentKey) file) es keys ∧
      elektraRegexstoreGet regcomp env cb fuel rounds contract conf (.ok file) returned parentKey =
        some (ret, keys.flatten.foldl ksAppendValue returned, parentKey')

/-- **The call returns, and has appended a key for each match, exactly when every expression is proper.** -/
theorem elektraRegexstoreGet_iff {regcomp : Regcomp} {env : Environment} {cb : Callback} {contract : List Key}
    {conf : World} {file : Str} {returned : List Key} {parentKey : Key} (hposix : regcomp.Posix)
    (hparent : keyName parentKey ≠ moduleName) :
    Gets regcomp env cb contract conf file returned parentKey ↔
      ∃ fuel es, expressions cb fuel conf = .ok es ∧ ∀ configKey ∈ es, Proper regcomp file configKey := by
  constructor
  · rintro ⟨fuel, rounds, es, keys, ret, parentKey', hes, -, hget⟩
    exact ⟨fuel, es, hes, proper_of_get hparent hes hget⟩
  · rintro ⟨fuel, es, hes, hproper⟩
    obtain ⟨keys, bound, hall, hrun⟩ := foldlM_proper hposix (keyName parentKey) hproper
    rw [expressions] at hes
    cases hlookup : ksLookupByName cb fuel { conf with ks := ksRewind conf.ks } (str "/regexstore") {} with
    | error e =>
      rw [hlookup] at hes
      cases hes
    | ok r =>
      obtain ⟨found, w⟩ := r
      rw [hlookup] at hes
      cases found with
      | none =>
        cases hes
        cases hall
        refine ⟨fuel, 0, [], [], -1, env.setError 95 parentKey (str "Key /regexstore not found in configuration"), ?_,
          .nil, ?_⟩
        · rw [expressions, hlookup]
        · rw [elektraRegexstoreGet, if_neg hparent]
          rw [hlookup]
          rfl
      | some confParent =>
        dsimp only at hes
        cases hes
        obtain ⟨warnings, hw⟩ := hrun (bound + 1) (Nat.lt_succ_self _) ⟨returned, []⟩
        refine ⟨fuel, bound + 1, _, keys, 1, warnings.foldl (env.addWarning 96) parentKey, ?_, hall, ?_⟩
        · rw [expressions, hlookup]
        · rw [elektraRegexstoreGet, if_neg hparent]
          rw [hlookup]
          have hloop := @confLoop_eq regcomp (keyName parentKey) file (bound + 1) confParent _ { w with ks := (ksNext w.ks).2 }
            ⟨returned, []⟩ (remaining_next_lt w)
          exact congrArg (Option.map _) (hloop.trans hw)

/-! ## Two expressions -/

/-- The expressions `x` and `x*`. -/
def regcompX : Regcomp := fun pattern =>
  if pattern = str "x*" then .ok fun text => .found ⟨0, (text.takeWhile (· = 120)).length, fun _ => none⟩
  else if pattern = str "x" then
    .ok fun text =>
      if text.contains 120 then
        .found ⟨(text.takeWhile (· ≠ 120)).length, (text.takeWhile (· ≠ 120)).length + 1, fun _ => none⟩
      else .noMatch
  else .error []

theorem posix_regcompX : regcompX.Posix := by
  intro pattern regexec text m pos so eo hre hm hpos
  have hzero : ∀ {so' eo' : ℕ}, m = ⟨so', eo', fun _ => none⟩ → so = so' ∧ eo = eo' := by
    rintro so' eo' rfl
    rw [Match.offsets] at hpos
    split_ifs at hpos
    cases hpos
    exact ⟨rfl, rfl⟩
  rw [regcompX] at hre
  split_ifs at hre
  · cases hre
    cases hm
    obtain ⟨rfl, rfl⟩ := hzero rfl
    exact ⟨Nat.zero_le _, (List.takeWhile_prefix _).length_le⟩
  · cases hre
    dsimp only at hm
    split_ifs at hm with hx
    cases hm
    obtain ⟨rfl, rfl⟩ := hzero rfl
    refine ⟨Nat.le_succ _, ?_⟩
    have hne : text.dropWhile (· ≠ 120) ≠ [] := by
      intro h
      have hall := List.dropWhile_eq_nil_iff.mp h 120 (List.contains_iff_mem.mp hx)
      exact absurd hall (by decide)
    have hlen := congrArg List.length (List.takeWhile_append_dropWhile (p := (· ≠ 120)) (l := text))
    rw [List.length_append] at hlen
    have hpos := List.length_pos_of_ne_nil hne
    omega

/-- One expression in a configuration. -/
def single (value : Str) : World :=
  worldOf [keyNewName (str "user/regexstore"),
    { keyNewName (str "user/regexstore/a") with data := some (value ++ [0]) }]

theorem expressions_single : ∃ key, expressions noCallback 2 (single (str "#0 x")) = .ok [some key] ∧
    keyString key = str "#0 x" ∧ skippedName key = some (str "/a") ∧ key.metaKeys = [] :=
  ⟨_, rfl, by decide +kernel, by decide +kernel, by decide +kernel⟩

/-- A match, and nothing behind it. -/
theorem elektraRegexstoreGet_x :
    Gets regcompX Line.unreported noCallback [] (single (str "#0 x")) (str "x") [] Line.userKey := by
  refine (elektraRegexstoreGet_iff posix_regcompX (by decide)).mpr ?_
  obtain ⟨key, hes, hvalue, hname, hmeta⟩ := expressions_single
  refine ⟨2, [some key], hes, fun configKey he => .inr ?_⟩
  obtain rfl := List.mem_singleton.mp he
  have hstring : configString (some key) = str "#0 x" := hvalue
  rw [hstring]
  refine ⟨by decide, fun regexec hre offset m hm => ?_⟩
  have husable : ∃ key', some key = some key' ∧ Usable key' := by
    have hmarked : Marked (str "/a") := by
      rw [show str "/a" = [47, 97] from rfl, Marked, if_neg (by decide)]
      trivial
    refine ⟨key, rfl, ⟨_, hname, hmarked⟩, ⟨48, ?_, by decide⟩, fun m hm => ?_⟩
    · rw [hvalue]
      rfl
    · rw [hmeta] at hm
      exact absurd hm List.not_mem_nil
  cases hre
  cases hm with
  | here hm =>
    cases hm
    exact ⟨by decide, by decide, husable⟩
  | behind hfound hm =>
    cases hfound
    cases hm with
    | here hm => cases hm
    | behind hfound hm => cases hfound

/-- An expression that matches nothing is applied for ever. -/
theorem not_gets : regcompX.Posix ∧ keyName Line.userKey ≠ moduleName ∧
    ¬ Gets regcompX Line.unreported noCallback [] (single (str "#0 x*")) (str "b") [] Line.userKey := by
  refine ⟨posix_regcompX, by decide, ?_⟩
  rintro ⟨fuel, rounds, es, keys, ret, parentKey', hes, -, hget⟩
  have hproper := proper_of_get (by decide) hes hget
  have hes₂ : ∃ key, es = [some key] ∧ keyString key = str "#0 x*" := by
    obtain _ | _ | n := fuel
    · cases hes
    · cases hes
    · have hlookup : expressions noCallback (n + 2) (single (str "#0 x*")) =
        expressions noCallback 2 (single (str "#0 x*")) := rfl
      rw [hlookup] at hes
      cases hes
      exact ⟨_, rfl, by decide +kernel⟩
  obtain ⟨key, rfl, hvalue⟩ := hes₂
  have hstring : configString (some key) = str "#0 x*" := hvalue
  obtain ⟨a, b, hab, -⟩ | ⟨-, h⟩ := hproper _ (List.mem_singleton_self _)
  · rw [hstring] at hab
    cases congrArg List.length hab
  · rw [hstring] at h
    exact absurd (h _ rfl 0 _ (.here rfl)).pos (Nat.lt_irrefl 0)

end Elektra.Regexstore
