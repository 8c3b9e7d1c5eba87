import Elektra.KeySet.Cut
import Elektra.KeySet.Relation
import Elektra.Plugin.Line

/-!
# The csvstorage plugin

Each line of a file is an element of an array below the parent key, and its columns are below it. The
columns are found again by the number in `csv/order`.

* `parseLine`, `eachColumn`: the columns are cut out of the buffer in place, one after the other;
* `csvRead`, `csvWrite`: the code;
* `stepAll`, **`eachColumn_line`**: the columns of a line that ends with a newline;
* `eachColumn_open`, `eachColumn_cut`: those of a line that does not.
-/

namespace Elektra.Csvstorage

/-! ## Reading -/

def newline : UInt8 := 10

def INT_MAX : ℕ := 2 ^ 31 - 1

def INTSTR_MAX : ℕ := 15

/-- `itostr`, into the buffer without its last byte. -/
def itostr (i : ℕ) : Str := (digits i).take (INTSTR_MAX - 2)

def csvOrder : Str := str "csv/order"

/-- Up to a newline or a NUL, and that too. -/
def lineFrom (s : Str) : Str :=
  s.takeWhile (fun c => c ≠ newline && c ≠ 0) ++ (s.dropWhile fun c => c ≠ newline && c ≠ 0).take 1

/-- `getLineLength` at an offset, to which the file goes back. There is none when an offset or the length does
not fit into an `int`. -/
def getLineLength (content : Str) (pos : ℕ) : Option ℕ :=
  let length := (lineFrom (content.drop pos)).length
  if INT_MAX < pos + length then none
  else if length = 0 then some 0
  else if INT_MAX < length + 1 then none
  else some (length + 1)

/-- `fgets` into a buffer of this size, without the NUL at the end. -/
def fgets (s : Str) (size : ℕ) : Str :=
  (s.take (size - 1)).takeWhile (· ≠ newline) ++ ((s.take (size - 1)).dropWhile (· ≠ newline)).take 1

/-- `getColumnCount` -/
def getColumnCount (lineBuffer : Str) (delim : UInt8) : ℕ := (lineBuffer.takeWhile (· ≠ 0)).count delim + 1

section Read

variable (env : Environment) (delim : UInt8)

/-- The column, the buffer and the parent key; there is nothing when a byte behind those of the line is
read. -/
def parseLine (origLine : Str) (offset : ℕ) (parentKey : Key) (lineNr : ℕ) : Option (Option Str × Str × Key) :=
  match origLine.drop offset with
  | [] => none
  | c :: rest =>
    if c = 0 then some (none, origLine, parentKey)
    else
      let line := (c :: rest).takeWhile (· ≠ 0)
      match (line ++ [0]).idxOf? delim with
      | some i => some (some (line.take i), origLine.set (offset + i) 0, parentKey)
      | none =>
        if line.getLast? = some newline then
          some (some line.dropLast, origLine.set (offset + line.length - 1) 0, parentKey)
        else
          -- the byte at the end is always the NUL
          some (some line, origLine, env.addWarning 136 parentKey
            (str "Unexpected end of line(" ++ digits lineNr ++ str ") , expected \\n, got \\0 \n " ++
              origLine.takeWhile (· ≠ 0) ++ str "\n"))

/-- The loops `while ((col = parseLine (..)) != NULL)` -/
def eachColumn {σ : Type} (lineNr : ℕ) (body : Str → ℕ → Key → σ → Option σ) :
    ℕ → Str → ℕ → ℕ → Key → σ → Option (ℕ × Key × σ)
  | 0, _, _, _, _, _ => none
  | fuel + 1, lineBuffer, offset, colCounter, parentKey, s =>
    match parseLine env delim lineBuffer offset parentKey lineNr with
    | none => none
    | some (none, _, parentKey) => some (colCounter, parentKey, s)
    | some (some col, lineBuffer, parentKey) =>
      match body col colCounter parentKey s with
      | none => none
      | some s => eachColumn lineNr body fuel lineBuffer (offset + col.length + 1) (colCounter + 1) parentKey s

variable (colNames : Option (List (Option Str)))

/-- The name from the configuration, where there are names, or else from the file. -/
def columnName (colCounter : ℕ) (name : Str) : Option (Option Str) :=
  match colNames with
  | none => some (some name)
  | some names => names[colCounter]?

/-- The body of the loop over the header line. -/
def headerBody (col : Str) (colCounter : ℕ) (parentKey : Key) (header : List Key) : Option (List Key) := do
  let name ← columnName colNames colCounter col
  let key := (keyAddBaseName (keyDup parentKey) name).2
  some (ksAppendValue header (keySetMeta key csvOrder (some (itostr colCounter))).2)

/-- If no headerline exists name the columns `0..N`. There are two ways to fail: `elektraArrayIncName` says so,
or writes behind its buffer. -/
def arrayHeader : ℕ → ℕ → Key → List Key → Option (Option (List Key))
  | 0, _, _, header => some (some header)
  | columns + 1, colCounter, key, header =>
    match Ease.elektraArrayIncName key with
    | none => none
    | some (ret, key) =>
      if ret = -1 then some none
      else do
        let key := (keySetMeta key csvOrder (some (itostr colCounter))).2
        let name ← columnName colNames colCounter (keyBaseName key)
        let key := keySetString key (name.getD [])
        arrayHeader columns (colCounter + 1) key (ksAppendValue header (keyDup key))

def getKeyByOrderNr (ks : List Key) (n : ℕ) : Option Key :=
  ks.find? fun cur => (keyGetMeta cur csvOrder).getD (str "(null)") = itostr n

def readHeader (useHeader : ℤ) (lineBuffer : Str) (columns : ℕ) (parentKey : Key) :
    Option (Option (List Key × Key)) :=
  if useHeader = 1 then
    (eachColumn env delim 0 (headerBody colNames) (lineBuffer.length + 2) (lineBuffer ++ [0]) 0 0 parentKey []).map
      fun (_, parentKey, header) => some (header, parentKey)
  else
    (arrayHeader colNames columns 0 (keyAddName (keyDup parentKey) (some (str "#"))).2 []).map fun header =>
      header.map fun header => (header, parentKey)

variable (useHeader : ℤ) (header : List Key)

/-- The body of the loop over a line, with `lastIndex`. -/
def rowBody (dirKey : Key) (col : Str) (colCounter : ℕ) (_ : Key) (s : List Key × Str) : Option (List Key × Str) :=
  let cur := getKeyByOrderNr header colCounter
  let name := if useHeader ≠ 1 then some (cur.elim (str "(null)") keyString) else cur.map keyBaseName
  let key := keySetString (keyAddBaseName (keyDup dirKey) name).2 col
  let key := (keySetMeta key csvOrder (some (itostr colCounter))).2
  some (ksAppendValue s.1 key, keyBaseName key)

variable (content : Str) (columns fixColumnCount : ℕ)

/-- The loop over the lines. `feof` is not true at its head: `fgets` reads no further than the line, and
`fseek` clears the flag. -/
def readRows : ℕ → ℕ → ℕ → Key → Key → List Key → Option (ℤ × List Key × Key × Key)
  | 0, _, _, _, _, _ => none
  | fuel + 1, pos, lineCounter, dirKey, parentKey, returned =>
    match getLineLength content pos with
    | none => none
    | some length =>
      if length = 0 then some (1, returned, parentKey, dirKey)
      else
        match Ease.elektraArrayIncName dirKey with
        | none => none
        | some (ret, dirKey) =>
          if ret = -1 then some (-1, returned, parentKey, dirKey)
          else
            let lineBuffer := fgets (content.drop pos) length
            match eachColumn env delim lineCounter (rowBody useHeader header dirKey) (lineBuffer.length + 2)
              (lineBuffer ++ [0]) 0 0 parentKey (returned, str "#0") with
            | none => none
            | some (colCounter, parentKey, returned, lastIndex) =>
              let dirKey := keySetString dirKey lastIndex
              let returned := ksAppendValue returned (keyDup dirKey)
              let text := str "illegal number of columns in line " ++ digits lineCounter
              if colCounter ≠ columns ∧ fixColumnCount ≠ 0 then
                some (-1, returned, env.setError 117 parentKey text, dirKey)
              else
                readRows fuel (pos + lineBuffer.length) (lineCounter + 1) dirKey
                  (if colCounter ≠ columns then env.addWarning 118 parentKey text else parentKey) returned

end Read

/-- The file is none when it cannot be opened. -/
def csvRead (env : Environment) (file : Option Str) (returned : List Key) (parentKey : Key) (delim : UInt8)
    (useHeader : ℤ) (fixColumnCount : ℕ) (colNames : Option (List (Option Str))) :
    Option (ℤ × List Key × Key) :=
  match file with
  | none =>
    some (-1, returned, env.setError 116 parentKey (str "couldn't open file " ++ keyString parentKey ++ str "\n"))
  | some content =>
    match getLineLength content 0 with
    | none => none
    | some length =>
      if length = 0 then some (-2, returned, env.addWarning 118 parentKey (str "Empty file"))
      else
        let lineBuffer := fgets content length
        let columns := getColumnCount lineBuffer delim
        if fixColumnCount ≠ 0 ∧ columns ≠ fixColumnCount then
          some (-1, returned, env.setError 117 parentKey (str "illegal number of columns in Header line"))
        else
          match readHeader env delim colNames useHeader lineBuffer columns parentKey with
          | none => none
          | some none => some (-1, returned, parentKey)
          | some (some (header, parentKey)) =>
            let pos := if useHeader = 1 ∨ useHeader = 0 then 0 else lineBuffer.length
            let dirKey := (keyAddName (keyDup parentKey) (some (str "#"))).2
            match readRows env delim useHeader header content columns fixColumnCount (content.length + 1) pos 0
              dirKey parentKey returned with
            | none => none
            | some (ret, returned, parentKey, dirKey) =>
              if ret = -1 then some (-1, returned, parentKey)
              else some (1, ksAppendValue returned (keySetString (keyDup parentKey) (keyBaseName dirKey)), parentKey)

/-- `useHeader` in `elektraCsvstorageGet`, by what is configured as `/header`. -/
def getUseHeader (header : Option Str) : ℤ :=
  if header = some (str "colname") then 1 else if header = some (str "skip") then -1 else 0

/-! ## Writing -/

/-- The columns of a row, as many as there are; and their number. -/
def writeColumns (delim : UInt8) (toWriteKS : List Key) : ℕ → ℕ → Str → Str × ℕ
  | 0, colCounter, out => (out, colCounter)
  | fuel + 1, colCounter, out =>
    match getKeyByOrderNr toWriteKS colCounter with
    | none => (out, colCounter)
    | some toWrite =>
      writeColumns delim toWriteKS fuel (colCounter + 1)
        ((if colCounter = 0 then out else out ++ [delim]) ++ keyString toWrite)

section Write

variable (env : Environment) (delim : UInt8) (parentKey : KeyRef)

/-- The loop of `csvWrite`. There is nothing when `keyRel` reads behind a name. -/
def writeRows : ℕ → World → Bool → ℕ → ℕ → Str → Option (ℤ × Str × World)
  | 0, _, _, _, _, _ => none
  | fuel + 1, w, useHeader, columns, lineCounter, out =>
    match ksNext w.ks with
    | (none, ks) => some (1, out, { w with ks := ks })
    | (some cur, ks) =>
      match keyRel (w.cell parentKey) (w.cell cur) with
      | none => none
      | some rel =>
        if rel ≠ 1 then writeRows fuel { w with ks := ks } useHeader columns lineCounter out
        else if useHeader then writeRows fuel { w with ks := ks } false columns lineCounter out
        else
          match ksCut w.heap ks cur with
          | (_, _, none) => none
          | (h, ks, some toWriteKS) =>
            let (out, colCounter) :=
              writeColumns delim (toWriteKS.array.map h.cell) (toWriteKS.size + 1) 0 out
            let w : World := { heap := ksDel h toWriteKS, ks := ks }
            let out := out ++ [newline]
            let columns := if columns = 0 then colCounter else columns
            if colCounter ≠ columns then
              some (-1, out, w.set parentKey (env.setError 117 (w.cell parentKey)
                (str "illegal number of columns in line " ++ digits lineCounter ++ str "\n")))
            else writeRows fuel w useHeader columns (lineCounter + 1) out

end Write

/-- What is written, with the world afterwards; there is none when the lookup does not end. -/
def csvWrite (env : Environment) (cb : Callback) (fuel : ℕ) (file : Except Line.Errno Unit) (w : World)
    (parentKey : KeyRef) (delim : UInt8) (useHeader : Bool) : Option (ℤ × Str × World) :=
  match file with
  | .error errno =>
    some (-1, [], w.set parentKey (env.setError (if errno.access then 9 else 75) (w.cell parentKey) errno.text))
  | .ok _ =>
    match ksLookup cb fuel w parentKey { pop := true } with
    | .error _ => none
    | .ok (k, w) =>
      let w := k.elim w w.del
      writeRows env delim parentKey (w.ks.size + 1) w useHeader 0 0 []

/-- `useHeader` in `elektraCsvstorageSet`; the string of no key is `(null)`. -/
def setUseHeader (header : Option Str) : Bool := header.getD (str "(null)") = str "skip"

/-! ## Cells -/

/-- What a cell of a table can be. -/
structure IsCell (delim : UInt8) (cell : Str) : Prop where
  delim : delim ∉ cell
  newline : newline ∉ cell
  nul : 0 ∉ cell

/-- A line of cells. -/
def joined (delim : UInt8) (cells : List Str) : Str := [delim].intercalate cells

section Columns

variable {env : Environment} {delim : UInt8} {parentKey : Key} {lineNr colCounter : ℕ} {pre t x : Str}

theorem joined_cons {cells : List Str} (h : cells ≠ []) (x : Str) :
    joined delim (x :: cells) = x ++ delim :: joined delim cells := by
  obtain ⟨y, cells, rfl⟩ := List.exists_cons_of_ne_nil h
  rw [joined, List.intercalate_cons_cons, joined, List.append_assoc]
  rfl

theorem takeWhile_zero {s : Str} (h : 0 ∉ s) (t : Str) : (s ++ 0 :: t).takeWhile (· ≠ 0) = s := by
  have hstop : ∀ c ∈ s, decide (c ≠ 0) = true := fun c hc => decide_eq_true fun he => h (he ▸ hc)
  rw [List.takeWhile_append_of_pos hstop, List.takeWhile_cons_of_neg (by simp), List.append_nil]

theorem length_joined (delim : UInt8) : ∀ {cells : List Str}, cells ≠ [] → cells.length ≤ (joined delim cells).length + 1
  | [], h => absurd rfl h
  | [x], _ => Nat.le_add_left _ _
  | x :: y :: cells, _ => by
    have ih := length_joined delim (List.cons_ne_nil y cells)
    rw [joined_cons (List.cons_ne_nil y cells), List.length_append, @List.length_cons _ x, @List.length_cons _ delim]
    omega

theorem parseLine_stop : parseLine env delim (pre ++ 0 :: t) pre.length parentKey lineNr =
    some (none, pre ++ 0 :: t, parentKey) := by
  rw [parseLine, List.drop_left]
  rfl

theorem parseLine_behind {buf : Str} : parseLine env delim buf buf.length parentKey lineNr = none := by
  rw [parseLine, List.drop_length]

theorem parseLine_at {line : Str} (hne : line ≠ []) (h0 : 0 ∉ line) :
    parseLine env delim (pre ++ (line ++ 0 :: t)) pre.length parentKey lineNr =
      match (line ++ [0]).idxOf? delim with
      | some i => some (some (line.take i), (pre ++ (line ++ 0 :: t)).set (pre.length + i) 0, parentKey)
      | none =>
        if line.getLast? = some newline then
          some (some line.dropLast, (pre ++ (line ++ 0 :: t)).set (pre.length + line.length - 1) 0, parentKey)
        else some (some line, pre ++ (line ++ 0 :: t), env.addWarning 136 parentKey
          (str "Unexpected end of line(" ++ digits lineNr ++ str ") , expected \\n, got \\0 \n " ++
            (pre ++ (line ++ 0 :: t)).takeWhile (· ≠ 0) ++ str "\n")) := by
  obtain ⟨c, line, rfl⟩ := List.exists_cons_of_ne_nil hne
  have hc : c ≠ 0 := fun hc => h0 (hc ▸ List.mem_cons_self)
  have htake : (c :: (line ++ 0 :: t)).takeWhile (· ≠ 0) = c :: line := takeWhile_zero h0 t
  rw [parseLine, List.drop_left, List.cons_append]
  dsimp only
  rw [if_neg hc, htake]

theorem parseLine_delim (hdelim : delim ≠ 0) (hx : delim ∉ x) (h0 : 0 ∉ x) {u : Str} (hu : 0 ∉ u) :
    parseLine env delim (pre ++ (x ++ delim :: u ++ 0 :: t)) pre.length parentKey lineNr =
      some (some x, (pre ++ x ++ [0]) ++ (u ++ 0 :: t), parentKey) := by
  have hline : 0 ∉ x ++ delim :: u := by
    rw [List.mem_append, not_or, List.mem_cons, not_or]
    exact ⟨h0, hdelim.symm, hu⟩
  have hidx : (x ++ delim :: u ++ [0]).idxOf? delim = some x.length := by
    rw [List.append_assoc, List.idxOf?, List.findIdx?_append, List.findIdx?_eq_none_iff.mpr fun c hc => ?_]
    · rw [List.cons_append, List.findIdx?_cons, beq_self_eq_true, if_pos rfl]
      simp
    · exact beq_eq_false_iff_ne.mpr fun he => hx (he ▸ hc)
  rw [parseLine_at (List.append_ne_nil_of_right_ne_nil x (List.cons_ne_nil delim u)) hline, hidx]
  have hset : (pre ++ (x ++ delim :: u ++ 0 :: t)).set (pre.length + x.length) 0 =
      (pre ++ x ++ [0]) ++ (u ++ 0 :: t) := by
    simp
  dsimp only
  rw [hset, List.append_assoc, List.take_left]

theorem idxOf?_none {u : Str} (hdelim : delim ≠ 0) (hu : delim ∉ u) : (u ++ [0]).idxOf? delim = none := by
  rw [List.idxOf?_eq_none_iff, List.mem_append, not_or, List.mem_singleton]
  exact ⟨hu, hdelim⟩

theorem parseLine_newline (hdelim : delim ≠ 0) (hnl : delim ≠ newline) (hx : delim ∉ x) (h0 : 0 ∉ x) :
    parseLine env delim (pre ++ (x ++ [newline] ++ 0 :: t)) pre.length parentKey lineNr =
      some (some x, (pre ++ x ++ [0]) ++ 0 :: t, parentKey) := by
  have hline : 0 ∉ x ++ [newline] := by
    rw [List.mem_append, not_or, List.mem_singleton]
    exact ⟨h0, by decide⟩
  have hdel : delim ∉ x ++ [newline] := by
    rw [List.mem_append, not_or, List.mem_singleton]
    exact ⟨hx, hnl⟩
  rw [parseLine_at (List.append_ne_nil_of_right_ne_nil x (List.cons_ne_nil newline [])) hline,
    idxOf?_none hdelim hdel]
  have hset : (pre ++ (x ++ [newline] ++ 0 :: t)).set (pre.length + (x ++ [newline]).length - 1) 0 =
      (pre ++ x ++ [0]) ++ 0 :: t := by
    rw [List.length_append, List.length_singleton, ← Nat.add_assoc, Nat.add_sub_cancel]
    simp
  dsimp only
  rw [List.getLast?_concat, if_pos rfl, hset, List.dropLast_concat]

theorem parseLine_open (hdelim : delim ≠ 0) (hx : IsCell delim x) (hne : x ≠ []) :
    ∃ parentKey', parseLine env delim (pre ++ (x ++ 0 :: t)) pre.length parentKey lineNr =
      some (some x, pre ++ (x ++ 0 :: t), parentKey') := by
  rw [parseLine_at hne hx.nul, idxOf?_none hdelim hx.delim]
  have hlast : x.getLast? ≠ some newline := fun he => hx.newline (List.mem_of_getLast? he)
  dsimp only
  rw [if_neg hlast]
  exact ⟨_, rfl⟩

/-! ## The columns of a line -/

/-- The body of a loop for one column after the other. -/
def stepAll {σ : Type} (body : Str → ℕ → Key → σ → Option σ) (parentKey : Key) : ℕ → List Str → σ → Option σ
  | _, [], s => some s
  | colCounter, x :: cells, s =>
    (body x colCounter parentKey s).bind (stepAll body parentKey (colCounter + 1) cells)

variable {σ : Type} {body : Str → ℕ → Key → σ → Option σ}

theorem isCell_joined (hdelim : delim ≠ newline) {cells : List Str} (h : ∀ x ∈ cells, IsCell delim x)
    (h0 : delim ≠ 0) : newline ∉ joined delim cells ∧ 0 ∉ joined delim cells := by
  induction cells with
  | nil => exact ⟨List.not_mem_nil, List.not_mem_nil⟩
  | cons x cells ih =>
    have hx := h x List.mem_cons_self
    have ih := ih fun y hy => h y (List.mem_cons_of_mem x hy)
    by_cases hnil : cells = []
    · rw [hnil, joined, List.intercalate_singleton]
      exact ⟨hx.newline, hx.nul⟩
    · rw [joined_cons hnil, List.mem_append, List.mem_append, List.mem_cons, List.mem_cons]
      exact ⟨not_or.mpr ⟨hx.newline, not_or.mpr ⟨hdelim.symm, ih.1⟩⟩,
        not_or.mpr ⟨hx.nul, not_or.mpr ⟨h0.symm, ih.2⟩⟩⟩

theorem eachColumn_cons (hdelim : delim ≠ 0) (hx : delim ∉ x) (h0 : 0 ∉ x) {u : Str} (hu : 0 ∉ u) {s : σ} {fuel : ℕ} :
    eachColumn env delim lineNr body (fuel + 1) (pre ++ (x ++ delim :: u ++ 0 :: t)) pre.length colCounter parentKey s =
      (body x colCounter parentKey s).bind fun s => eachColumn env delim lineNr body fuel
        ((pre ++ x ++ [0]) ++ (u ++ 0 :: t)) (pre ++ x ++ [0]).length (colCounter + 1) parentKey s := by
  have hlen : pre.length + x.length + 1 = (pre ++ x ++ [0]).length := by
    rw [List.length_append, List.length_append, List.length_singleton]
  rw [eachColumn, parseLine_delim hdelim hx h0 hu]
  dsimp only
  rw [hlen]
  cases body x colCounter parentKey s <;> rfl

/-- **The columns of a line with a newline.** -/
theorem eachColumn_line (hdelim : delim ≠ 0) (hnl : delim ≠ newline) : ∀ {cells : List Str} {pre : Str}
    {colCounter fuel : ℕ} {s : σ}, cells ≠ [] → (∀ x ∈ cells, IsCell delim x) → cells.length < fuel →
    eachColumn env delim lineNr body fuel (pre ++ (joined delim cells ++ [newline] ++ [0])) pre.length colCounter
        parentKey s =
      (stepAll body parentKey colCounter cells s).map fun s => (colCounter + cells.length, parentKey, s)
  | [], _, _, _, _, hne, _, _ => absurd rfl hne
  | [x], pre, colCounter, fuel, s, _, h, hfuel => by
    have hx := h x List.mem_cons_self
    obtain ⟨fuel, rfl⟩ : ∃ n, fuel = n + 2 := ⟨fuel - 2, by rw [List.length_singleton] at hfuel; omega⟩
    have hlen : pre.length + x.length + 1 = (pre ++ x ++ [0]).length := by
      rw [List.length_append, List.length_append, List.length_singleton]
    have hparse := @parseLine_newline env delim parentKey lineNr pre [] x hdelim hnl hx.delim hx.nul
    rw [joined, List.intercalate_singleton, eachColumn, hparse, stepAll]
    dsimp only
    cases body x colCounter parentKey s with
    | none => rfl
    | some s =>
      dsimp only
      rw [hlen, eachColumn, parseLine_stop]
      rfl
  | x :: y :: cells, pre, colCounter, fuel, s, _, h, hfuel => by
    have hx := h x List.mem_cons_self
    have hrest : ∀ z ∈ y :: cells, IsCell delim z := fun z hz => h z (List.mem_cons_of_mem x hz)
    obtain ⟨fuel, rfl⟩ : ∃ n, fuel = n + 1 := ⟨fuel - 1, by omega⟩
    have hu : 0 ∉ joined delim (y :: cells) ++ [newline] := by
      rw [List.mem_append, not_or, List.mem_singleton]
      exact ⟨(isCell_joined hnl hrest hdelim).2, by decide⟩
    have hbuf : pre ++ (joined delim (x :: y :: cells) ++ [newline] ++ [0]) =
        pre ++ (x ++ delim :: (joined delim (y :: cells) ++ [newline]) ++ 0 :: []) := by
      rw [joined_cons (List.cons_ne_nil y cells), List.append_assoc x, List.cons_append]
    rw [hbuf, eachColumn_cons hdelim hx.delim hx.nul hu, stepAll]
    cases body x colCounter parentKey s with
    | none => rfl
    | some s =>
      have ih := @eachColumn_line hdelim hnl (y :: cells) (pre ++ x ++ [0]) (colCounter + 1) fuel s
        (List.cons_ne_nil y cells) hrest (by rw [List.length_cons] at hfuel; omega)
      have hcount : colCounter + 1 + (y :: cells).length = colCounter + (x :: y :: cells).length := by
        rw [List.length_cons, List.length_cons, List.length_cons]
        omega
      rw [Option.bind_some, Option.bind_some, ih, hcount]

/-- The columns of a line without a newline: the byte behind the line is read. -/
theorem eachColumn_open (hdelim : delim ≠ 0) (hnl : delim ≠ newline) : ∀ {cells : List Str} {pre : Str}
    {colCounter fuel : ℕ} {s : σ} {parentKey : Key}, (∀ x ∈ cells, IsCell delim x) →
    (∃ x, cells.getLast? = some x ∧ x ≠ []) →
    eachColumn env delim lineNr body fuel (pre ++ (joined delim cells ++ [0])) pre.length colCounter parentKey s = none
  | _, _, _, 0, _, _, _, _ => rfl
  | [], _, _, _ + 1, _, _, _, hlast => by
    obtain ⟨x, hx, -⟩ := hlast
    cases hx
  | [x], pre, colCounter, fuel + 1, s, parentKey, h, hlast => by
    obtain ⟨x', hx', hne⟩ := hlast
    cases hx'
    have hlen : pre.length + x.length + 1 = (pre ++ (x ++ [0])).length := by
      rw [List.length_append, List.length_append, List.length_singleton, Nat.add_assoc]
    obtain ⟨parentKey', hparse⟩ :=
      @parseLine_open env delim parentKey lineNr pre [] x hdelim (h x List.mem_cons_self) hne
    rw [joined, List.intercalate_singleton, eachColumn, hparse]
    dsimp only
    cases body x colCounter parentKey' s with
    | none => rfl
    | some s =>
      dsimp only
      rw [hlen]
      cases fuel with
      | zero => rfl
      | succ fuel => rw [eachColumn, parseLine_behind]
  | x :: y :: cells, pre, colCounter, fuel + 1, s, parentKey, h, hlast => by
    have hx := h x List.mem_cons_self
    have hrest : ∀ z ∈ y :: cells, IsCell delim z := fun z hz => h z (List.mem_cons_of_mem x hz)
    rw [joined_cons (List.cons_ne_nil y cells), eachColumn_cons hdelim hx.delim hx.nul
      (isCell_joined hnl hrest hdelim).2]
    cases body x colCounter parentKey s with
    | none => rfl
    | some s => exact eachColumn_open hdelim hnl hrest (by rwa [List.getLast?_cons_cons] at hlast)

/-- The columns of a line without a newline whose last cell is empty: it is not read. -/
theorem eachColumn_cut (hdelim : delim ≠ 0) (hnl : delim ≠ newline) : ∀ {cells : List Str} {pre : Str}
    {colCounter fuel : ℕ} {s : σ}, (∀ x ∈ cells, IsCell delim x) → cells.length < fuel →
    eachColumn env delim lineNr body fuel (pre ++ (joined delim (cells ++ [[]]) ++ [0])) pre.length colCounter
        parentKey s =
      (stepAll body parentKey colCounter cells s).map fun s => (colCounter + cells.length, parentKey, s)
  | [], pre, colCounter, fuel, s, _, hfuel => by
    obtain ⟨fuel, rfl⟩ : ∃ n, fuel = n + 1 := ⟨fuel - 1, by omega⟩
    rw [List.nil_append, joined, List.intercalate_singleton, List.nil_append, eachColumn, parseLine_stop]
    rfl
  | x :: cells, pre, colCounter, fuel, s, h, hfuel => by
    have hx := h x List.mem_cons_self
    have hrest : ∀ z ∈ cells, IsCell delim z := fun z hz => h z (List.mem_cons_of_mem x hz)
    obtain ⟨fuel, rfl⟩ : ∃ n, fuel = n + 1 := ⟨fuel - 1, by omega⟩
    have hempty : IsCell delim [] := ⟨List.not_mem_nil, List.not_mem_nil, List.not_mem_nil⟩
    have hall : ∀ z ∈ cells ++ [[]], IsCell delim z := fun z hz => by
      obtain hz | hz := List.mem_append.mp hz
      · exact hrest z hz
      · exact List.mem_singleton.mp hz ▸ hempty
    rw [List.cons_append, joined_cons (List.append_ne_nil_of_right_ne_nil cells (List.cons_ne_nil [] [])),
      eachColumn_cons hdelim hx.delim hx.nul (isCell_joined hnl hall hdelim).2, stepAll]
    cases body x colCounter parentKey s with
    | none => rfl
    | some s =>
      have ih := @eachColumn_cut hdelim hnl cells (pre ++ x ++ [0]) (colCounter + 1) fuel s hrest
        (by rw [List.length_cons] at hfuel; omega)
      rw [Option.bind_some, Option.bind_some, ih, List.length_cons, Nat.add_assoc, Nat.add_comm 1]

/-! ## The lines of a file -/

theorem lineFrom_line (hnl : newline ∉ x) (h0 : 0 ∉ x) (t : Str) : lineFrom (x ++ newline :: t) = x ++ [newline] := by
  have hstop : ∀ c ∈ x, (c ≠ newline && c ≠ 0) = true := fun c hc => by
    rw [Bool.and_eq_true, decide_eq_true_iff, decide_eq_true_iff]
    exact ⟨fun he => hnl (he ▸ hc), fun he => h0 (he ▸ hc)⟩
  rw [lineFrom, List.takeWhile_append_of_pos hstop, List.dropWhile_append_of_pos hstop,
    List.takeWhile_cons_of_neg (by decide), List.dropWhile_cons_of_neg (by decide), List.append_nil]
  rfl

theorem lineFrom_open (hnl : newline ∉ x) (h0 : 0 ∉ x) : lineFrom x = x := by
  have hstop : ∀ c ∈ x, (c ≠ newline && c ≠ 0) = true := fun c hc => by
    rw [Bool.and_eq_true, decide_eq_true_iff, decide_eq_true_iff]
    exact ⟨fun he => hnl (he ▸ hc), fun he => h0 (he ▸ hc)⟩
  rw [lineFrom, List.takeWhile_eq_self_iff.mpr hstop, List.dropWhile_eq_nil_iff.mpr hstop]
  exact List.append_nil x

theorem fgets_line (hnl : newline ∉ x) (t : Str) : fgets (x ++ newline :: t) (x.length + 2) = x ++ [newline] := by
  have htake : (x ++ newline :: t).take (x.length + 2 - 1) = x ++ [newline] := by
    rw [List.take_append, Nat.add_sub_assoc (by decide), List.take_of_length_le (Nat.le_add_right _ _),
      Nat.add_sub_cancel_left]
    rfl
  have hstop : ∀ c ∈ x, decide (c ≠ newline) = true := fun c hc => decide_eq_true fun he => hnl (he ▸ hc)
  rw [fgets, htake, List.takeWhile_append_of_pos hstop, List.dropWhile_append_of_pos hstop,
    List.takeWhile_cons_of_neg (by decide), List.dropWhile_cons_of_neg (by decide), List.append_nil]
  rfl

theorem fgets_open (hnl : newline ∉ x) : fgets x (x.length + 1) = x := by
  have hstop : ∀ c ∈ x, decide (c ≠ newline) = true := fun c hc => decide_eq_true fun he => hnl (he ▸ hc)
  rw [fgets, Nat.add_sub_cancel, List.take_length, List.takeWhile_eq_self_iff.mpr hstop,
    List.dropWhile_eq_nil_iff.mpr hstop]
  exact List.append_nil x

theorem fgets_length_le (s : Str) (size : ℕ) : (fgets s size).length ≤ s.length := by
  have htake : ((s.take (size - 1)).takeWhile (· ≠ newline)).length + ((s.take (size - 1)).dropWhile (· ≠ newline)).length =
      (s.take (size - 1)).length := by
    rw [← List.length_append, List.takeWhile_append_dropWhile]
  rw [fgets, List.length_append, List.length_take]
  rw [List.length_take] at htake
  omega

theorem lineFrom_eq_nil {s : Str} (h : lineFrom s = []) : s = [] := by
  obtain ⟨htake, hrest⟩ := List.append_eq_nil_iff.mp h
  have hdrop : (s.dropWhile fun c => c ≠ newline && c ≠ 0) = [] :=
    (List.take_eq_nil_iff.mp hrest).resolve_left (by decide)
  have hsplit := List.takeWhile_append_dropWhile (p := fun c => c ≠ newline && c ≠ 0) (l := s)
  rw [htake, hdrop] at hsplit
  exact hsplit.symm

theorem getLineLength_zero {content : Str} {pos : ℕ} (h : getLineLength content pos = some 0) :
    pos ≤ INT_MAX ∧ content.drop pos = [] := by
  rw [getLineLength] at h
  split_ifs at h with hmax hzero
  · exact ⟨by omega, lineFrom_eq_nil (List.length_eq_zero_iff.mp hzero)⟩
  · cases h

end Columns

end Elektra.Csvstorage
