import Elektra.Ease.RelativeName
import Elektra.Name.Dangling
import Elektra.Plugin.Line
import Elektra.Plugin.Records

/-!
# The simpleini plugin

One format string serves both directions: with `fprintf` a line is written for each key, and with `fscanf` the keys
are read. A blank of the format is a blank in the file, but it takes all white space when it is read.

* `Directive`, `scan`: `fscanf`; `getFormat`, `elektraSimpleiniGet`, `elektraSimpleiniSet`: the code;
* `Entry`, `lines`, **`scan_line`**: what is read from the begin of a line on;
* `Reads`, **`getLoop_lines`**: the loop over the lines of a file; `allKept_of_reads`: when it gives the entries back;
* **`simpleini_roundTrip_iff`**: which key sets are read as they were written.
-/

namespace Elektra.Simpleini

open Ease Records

/-! ## Formats -/

def newline : UInt8 := 10

/-- The loop of `getFormat` over the configured format; `gotPercent` is whether the last character was a `%`. Behind
the last one is the NUL. -/
def userFormat : Bool → Str → Str
  | gotPercent, [] => if gotPercent then [115] else []
  | true, c :: s => if c = 37 then [37, 37, 37] ++ userFormat false s else 115 :: c :: userFormat false s
  | false, c :: s => c :: userFormat (c = 37) s

/-- `vsnprintf` and `fprintf`, for formats of `%s` and `%%`. There is nothing where an argument is missing. -/
def elektraFormat : Str → List Str → Option Str
  | [], _ => some []
  | 37 :: 115 :: _, [] => none
  | 37 :: 115 :: s, a :: args => (elektraFormat s args).map (a ++ ·)
  | 37 :: 37 :: s, args => (elektraFormat s args).map (37 :: ·)
  | c :: s, args => (elektraFormat s args).map (c :: ·)

/-- The format from the string of `/format`, if there is one. -/
def getFormat (format : Option Str) (first second : Str) : Option Str :=
  elektraFormat (format.elim (str "%s = %s" ++ [newline]) fun format => userFormat false format ++ [newline])
    [first, second]

/-! ## fscanf -/

/-- What a format is made of: white space, a character, `%ms` and `%m[^\n]`. -/
inductive Directive
  | space
  | literal (c : UInt8)
  | word
  | line
  deriving DecidableEq

/-- There is nothing for other conversions. -/
def directives : Str → Option (List Directive)
  | [] => some []
  | 37 :: 109 :: 115 :: s => (directives s).map (.word :: ·)
  | 37 :: 109 :: 91 :: 94 :: 10 :: 93 :: s => (directives s).map (.line :: ·)
  | 37 :: 37 :: s => (directives s).map ([.space, .literal 37] ++ ·)
  | 37 :: _ => none
  | c :: s => (directives s).map ((if isspace c then .space else .literal c) :: ·)

/-- What `fscanf` returns, the strings it allocated, and the rest of the file. -/
structure Scanned where
  n : ℤ
  values : List Str
  rest : Str
  deriving DecidableEq

/-- Nothing is left to read. -/
def inputFailure (values : List Str) : Scanned := ⟨if values = [] then -1 else values.length, values, []⟩

def scan : List Directive → Str → List Str → Scanned
  | [], s, values => ⟨values.length, values, s⟩
  | .space :: ds, s, values => scan ds (s.dropWhile isspace) values
  | .literal c :: ds, s, values =>
    if s = [] then inputFailure values
    else if s.head? = some c then scan ds s.tail values
    else ⟨values.length, values, s⟩
  | .word :: ds, s, values =>
    if s.dropWhile isspace = [] then inputFailure values
    else
      scan ds ((s.dropWhile isspace).dropWhile fun c => !isspace c)
        (values ++ [(s.dropWhile isspace).takeWhile fun c => !isspace c])
  | .line :: ds, s, values =>
    if s = [] then inputFailure values
    else if s.head? = some newline then ⟨values.length, values, s⟩
    else scan ds (s.dropWhile (· ≠ newline)) (values ++ [s.takeWhile (· ≠ newline)])

/-! ## The code -/

/-- A string up to its NUL. -/
def cString (s : Str) : Str := s.takeWhile (· ≠ 0)

/-- What the loop ends with: the keys, the names of the warnings, and whether no key came twice. -/
structure Result where
  returned : List Key
  warnings : List Str
  unique : Bool

/-- The loop of `elektraSimpleiniGet`. Of the parent key only the name is read. -/
def getLoop (ds : List Directive) (parentName : Str) : ℕ → Str → ℕ → List Key → List Str → Option Result
  | 0, _, _, _, _ => none
  | fuel + 1, s, ksize, returned, warnings =>
    let r := scan ds s []
    if r.n < 0 then some ⟨returned, warnings, true⟩
    else if r.n = 0 then
      -- discard line
      getLoop ds parentName fuel (r.rest.dropWhile (· ≠ newline)).tail ksize returned warnings
    else
      let key := cString (r.values.headD [])
      let (ret, read) := keyAddName (keyNewName parentName) (some key)
      if ret = -1 then getLoop ds parentName fuel r.rest ksize returned (warnings ++ [key])
      else
        let read := if r.n = 2 then keySetString read (cString (r.values.getLastD [])) else read
        if (ksAppendValue returned read).length ≠ ksize + 1 then
          some ⟨ksAppendValue returned read, warnings, false⟩
        else getLoop ds parentName fuel r.rest (ksize + 1) (ksAppendValue returned read) warnings

def moduleName : Str := str "system/elektra/modules/simpleini"

section Calls

variable (env : Environment) (moduleConfig : List Key) (format : Option Str)

/-- Every call of `fscanf` takes a byte, so the size of the file bounds the rounds. -/
def elektraSimpleiniGet (file : Except Line.Errno Line.File) (returned : List Key) (parentKey : Key) :
    Option (ℤ × List Key × Key) :=
  if keyName parentKey = moduleName then some (1, moduleConfig.foldl ksAppendValue returned, parentKey)
  else
    match file with
    | .error errno => some (-1, returned, env.setError (if errno.access then 109 else 110) parentKey errno.text)
    | .ok file => do
      let format ← getFormat format (str "%ms") (str "%m[^" ++ [newline] ++ str "]")
      let ds ← directives format
      let r ← getLoop ds (keyName parentKey) (file.content.length + 1) file.content 0 returned []
      let parentKey := r.warnings.foldl (env.addWarning 59) parentKey
      if r.unique = false then some (-1, r.returned, env.setError 60 parentKey (str "duplicated key"))
      else if file.complete = false then
        some (-1, r.returned, env.setError 60 parentKey (str "not at the end of file"))
      else some (1, r.returned, parentKey)

/-- The lines for the keys. -/
def setLoop (format : Str) (parentKey : Key) : List Key → Option Str
  | [] => some []
  | cur :: rest => do
    let line ← elektraFormat format [elektraKeyGetRelativeName cur parentKey, keyString cur]
    let out ← setLoop format parentKey rest
    some (line ++ out)

/-- The file that is written. -/
def elektraSimpleiniSet (file : Except Line.Errno Unit) (returned : List Key) (parentKey : Key) :
    Option (ℤ × Option Str × Key) :=
  match file with
  | .error errno => some (-1, none, env.setError (if errno.access then 9 else 75) parentKey errno.text)
  | .ok _ => do
    let format ← getFormat format (str "%s") (str "%s")
    let out ← setLoop format parentKey returned
    some (1, some out, parentKey)

end Calls

/-! ## The default format -/

theorem getFormat_read : getFormat none (str "%ms") (str "%m[^" ++ [newline] ++ str "]") =
    some (str "%ms = %m[^" ++ [newline] ++ str "]" ++ [newline]) := by decide +kernel

theorem directives_read : directives (str "%ms = %m[^" ++ [newline] ++ str "]" ++ [newline]) =
    some [.word, .space, .literal 61, .space, .line, .space] := by decide +kernel

theorem getFormat_write : getFormat none (str "%s") (str "%s") = some (str "%s = %s" ++ [newline]) := by decide +kernel

/-- A key as it stands in the file. -/
structure Entry where
  path : Path
  rel : Str
  value : Str

def Entry.text (e : Entry) : Str := e.rel ++ [32, 61, 32] ++ e.value

def lines (es : List Entry) : Str := es.flatMap fun e => e.text ++ [newline]

theorem elektraFormat_line (rel value : Str) : elektraFormat (str "%s = %s" ++ [newline]) [rel, value] =
    some (rel ++ [32, 61, 32] ++ value ++ [newline]) := by
  rw [show str "%s = %s" ++ [newline] = [37, 115, 32, 61, 32, 37, 115, newline] from rfl]
  simp only [elektraFormat, List.append_assoc, List.cons_append, List.nil_append]
  rfl

/-! ## Lines -/

/-- The format of the reader. -/
def readFormat : List Directive := [.word, .space, .literal 61, .space, .line, .space]

/-- A name without white space, a value in one line, and no NUL. -/
structure Entry.Plain (e : Entry) : Prop where
  rel : e.rel ≠ []
  word : ∀ c ∈ e.rel, isspace c = false
  line : newline ∉ e.value
  nul : 0 ∉ e.rel ∧ 0 ∉ e.value

/-- What is read for the value: what is behind its white space or, where that is all, the next line. -/
def readValue (e : Entry) (es : List Entry) : Option Str :=
  if e.value.dropWhile isspace = [] then es.head?.map Entry.text else some (e.value.dropWhile isspace)

/-- The lines behind what was read. -/
def behind (e : Entry) (es : List Entry) : List Entry := if e.value.dropWhile isspace = [] then es.tail else es

section Lines

variable {e : Entry} {es : List Entry}

theorem newline_not_mem_text (h : e.Plain) : newline ∉ e.text := by
  intro hmem
  obtain hmem | hmem := List.mem_append.mp hmem
  · obtain hmem | hmem := List.mem_append.mp hmem
    · exact absurd (h.word newline hmem) (by decide)
    · exact absurd hmem (by decide)
  · exact h.line hmem

theorem head_lines (h : ∀ e ∈ es, e.Plain) : ∀ c, (lines es).head? = some c → isspace c = false := by
  intro c hc
  cases es with
  | nil => cases hc
  | cons e es =>
    have he := h e List.mem_cons_self
    obtain ⟨d, t, hd⟩ := List.exists_cons_of_ne_nil he.rel
    rw [lines, List.flatMap_cons, Entry.text, hd] at hc
    obtain rfl : d = c := Option.some.inj hc
    exact he.word d (hd ▸ List.mem_cons_self)

theorem isspace_dropWhile (s : Str) : ∀ c, (s.dropWhile isspace).head? = some c → isspace c = false := by
  intro c hc
  have hne : s.dropWhile isspace ≠ [] := fun h => by
    rw [h] at hc
    cases hc
  have hnot := List.head_dropWhile_not isspace hne
  rw [List.head?_eq_some_head hne] at hc
  rw [← Option.some.inj hc]
  exact hnot

theorem dropWhile_newline (h : ∀ e ∈ es, e.Plain) : (newline :: lines es).dropWhile isspace = lines es := by
  rw [List.dropWhile_cons_of_pos (by decide)]
  exact (takeWhile_stop (l := []) (fun c hc => absurd hc List.not_mem_nil) (head_lines h)).2

theorem line_stop {s : Str} (hs : newline ∉ s) (t : Str) : (s ++ newline :: t).takeWhile (· ≠ newline) = s ∧
    (s ++ newline :: t).dropWhile (· ≠ newline) = newline :: t :=
  takeWhile_stop (fun c hc => decide_eq_true fun he => hs (he ▸ hc)) fun c hc => by
    obtain rfl := Option.some.inj hc
    decide

/-- A line of text that begins without white space is read behind the second blank of the format. -/
theorem scan_rest {s : Str} (hs : newline ∉ s) (hne : s ≠ []) (hhead : ∀ c, s.head? = some c → isspace c = false)
    (hes : ∀ e ∈ es, e.Plain) (values : List Str) :
    scan [.line, .space] (s ++ newline :: lines es) values = ⟨values.length + 1, values ++ [s], lines es⟩ := by
  obtain ⟨c, s, rfl⟩ := List.exists_cons_of_ne_nil hne
  have hc : ¬ some c = some newline := fun he => by
    have hspace := hhead c rfl
    rw [Option.some.inj he] at hspace
    exact absurd hspace (by decide)
  obtain ⟨htake, hdrop⟩ := line_stop hs (lines es)
  rw [scan, if_neg (List.append_ne_nil_of_left_ne_nil hne _), List.cons_append, List.head?_cons, if_neg hc,
    ← List.cons_append, htake, hdrop, scan, dropWhile_newline hes, scan, List.length_append, List.length_singleton]
  rfl

theorem skip_value (e : Entry) (hes : ∀ e ∈ es, e.Plain) : (32 :: (e.value ++ newline :: lines es)).dropWhile isspace =
    if e.value.dropWhile isspace = [] then lines es else e.value.dropWhile isspace ++ newline :: lines es := by
  rw [List.dropWhile_cons_of_pos (by decide), List.dropWhile_append]
  by_cases hv : e.value.dropWhile isspace = []
  · rw [if_pos (List.isEmpty_iff.mpr hv), if_pos hv, dropWhile_newline hes]
  · rw [if_neg fun h => hv (List.isEmpty_iff.mp h), if_neg hv]

/-- **What is read from the begin of a line on.** -/
theorem scan_line (he : e.Plain) (hes : ∀ e ∈ es, e.Plain) : scan readFormat (lines (e :: es)) [] =
    ⟨((e.rel :: (readValue e es).toList).length : ℕ), e.rel :: (readValue e es).toList, lines (behind e es)⟩ := by
  have htext : lines (e :: es) = e.rel ++ 32 :: 61 :: 32 :: (e.value ++ newline :: lines es) := by
    rw [lines, List.flatMap_cons, Entry.text]
    simp only [List.append_assoc, List.cons_append, List.nil_append]
    rfl
  have hword := takeWhile_stop (p := fun c => !isspace c) (l := e.rel)
    (r := 32 :: 61 :: 32 :: (e.value ++ newline :: lines es)) (fun c hc => by rw [he.word c hc]; rfl) (fun c hc => by rw [← Option.some.inj hc]; decide)
  have hskip : (lines (e :: es)).dropWhile isspace = lines (e :: es) :=
    (takeWhile_stop (l := []) (fun c hc => absurd hc List.not_mem_nil)
      (head_lines (List.forall_mem_cons.mpr ⟨he, hes⟩))).2
  have hne : lines (e :: es) ≠ [] := by
    rw [htext]
    exact List.append_ne_nil_of_right_ne_nil _ (List.cons_ne_nil _ _)
  rw [readFormat, scan, hskip, if_neg hne, htext, hword.1, hword.2, scan, List.dropWhile_cons_of_pos (by decide),
    List.dropWhile_cons_of_neg (by decide), scan, if_neg (List.cons_ne_nil _ _), List.head?_cons, if_pos rfl,
    List.tail_cons, scan, skip_value e hes, List.nil_append, readValue, behind]
  by_cases hv : e.value.dropWhile isspace = []
  · rw [if_pos hv, if_pos hv, if_pos hv]
    cases es with
    | nil => rfl
    | cons e' es =>
      have he' := hes e' List.mem_cons_self
      have hhead : ∀ c, e'.text.head? = some c → isspace c = false := by
        intro c hc
        obtain ⟨d, t, hd⟩ := List.exists_cons_of_ne_nil he'.rel
        rw [Entry.text, hd] at hc
        obtain rfl : d = c := Option.some.inj hc
        exact he'.word d (hd ▸ List.mem_cons_self)
      have htext' : e'.text ≠ [] := List.append_ne_nil_of_left_ne_nil (List.append_ne_nil_of_left_ne_nil he'.rel _) _
      have hrest := scan_rest (newline_not_mem_text he') htext' hhead
        (fun e'' h => hes e'' (List.mem_cons_of_mem e' h)) [e.rel]
      rw [lines, List.flatMap_cons, List.append_assoc]
      exact hrest
  · rw [if_neg hv, if_neg hv, if_neg hv]
    exact scan_rest (fun hmem => he.line ((List.dropWhile_suffix _).subset hmem)) hv (isspace_dropWhile _) hes [e.rel]

end Lines

/-! ## What is read -/

/-- The name of the key is not added: its parent's is not set, or it is of backslashes only. -/
def Lost (P Q : Path) : Prop := BackslashPart P.escaped ∨ AllBackslashes ((join (rest P Q).escaped).drop 1)

instance (P Q : Path) : Decidable (Lost P Q) := inferInstanceAs (Decidable (_ ∨ _))

/-- An entry below the parent. -/
structure Entry.Below (P : Path) (e : Entry) : Prop extends e.Plain where
  above : P.Above e.path
  root : P.root = e.path.root
  name : e.rel = (join (rest P e.path).escaped).drop 1

/-- What is read of lines: a key for each one that is not lost, or taken for the value before it. -/
inductive Reads (P : Path) : List Entry → List Record → Prop
  | nil : Reads P [] []
  | lost {e : Entry} {es : List Entry} {rs : List Record} (h : Lost P e.path) (hrest : Reads P (behind e es) rs) :
    Reads P (e :: es) rs
  | read {e : Entry} {es : List Entry} {rs : List Record} (h : ¬ Lost P e.path) (hrest : Reads P (behind e es) rs) :
    Reads P (e :: es) (⟨e.path, (readValue e es).getD [], fun _ => none⟩ :: rs)

section Reads

variable {P : Path} {e : Entry} {es : List Entry} {rs : List Record}

theorem behind_sublist (e : Entry) (es : List Entry) : (behind e es).Sublist es := by
  rw [behind]
  split_ifs
  · exact List.tail_sublist es
  · exact List.Sublist.refl es

theorem exists_reads (P : Path) : ∀ {n : ℕ} (es : List Entry), es.length = n → ∃ rs, Reads P es rs := by
  intro n
  induction n using Nat.strong_induction_on with
  | _ n ih =>
    intro es hn
    cases es with
    | nil => exact ⟨[], .nil⟩
    | cons e es =>
      have hlen : (behind e es).length < n := by
        rw [← hn]
        exact Nat.lt_succ_of_le (behind_sublist e es).length_le
      obtain ⟨rs, hrs⟩ := ih _ hlen _ rfl
      by_cases hlost : Lost P e.path
      · exact ⟨rs, .lost hlost hrs⟩
      · exact ⟨_, .read hlost hrs⟩

theorem cString_eq {s : Str} (h0 : 0 ∉ s) : cString s = s :=
  List.takeWhile_eq_self_iff.mpr fun _ hc => decide_eq_true fun he => h0 (he ▸ hc)

theorem nul_readValue (he : e.Plain) (hes : ∀ e ∈ es, e.Plain) : ∀ s, readValue e es = some s → 0 ∉ s := by
  intro s hs hmem
  rw [readValue] at hs
  split_ifs at hs
  · cases es with
    | nil => cases hs
    | cons e' es =>
      obtain rfl := Option.some.inj hs
      obtain hmem | hmem := List.mem_append.mp hmem
      · obtain hmem | hmem := List.mem_append.mp hmem
        · exact (hes e' List.mem_cons_self).nul.1 hmem
        · exact absurd hmem (by decide)
      · exact (hes e' List.mem_cons_self).nul.2 hmem
  · obtain rfl := Option.some.inj hs
    exact he.nul.2 ((List.dropWhile_suffix _).subset hmem)

/-- The key that is made of a line. -/
def readKey (P : Path) (e : Entry) (es : List Entry) : Key :=
  (readValue e es).elim (keyAddName (keyNewName P.name) (some e.rel)).2
    (keySetString (keyAddName (keyNewName P.name) (some e.rel)).2)

theorem work_readKey (he : e.Below P) (hes : ∀ e ∈ es, e.Plain) (hlost : ¬ Lost P e.path) :
    (keyAddName (keyNewName P.name) (some e.rel)).1 ≠ -1 ∧
      Work (readKey P e es) ⟨e.path, (readValue e es).getD [], fun _ => none⟩ := by
  obtain ⟨hback, hall⟩ := not_or.mp hlost
  obtain ⟨hret, hwork⟩ := (work_keyNewName hback).addRest he.above he.root hall
  rw [← he.name] at hret hwork
  refine ⟨hret, ?_⟩
  rw [readKey]
  cases hvalue : readValue e es with
  | none => exact hwork
  | some s =>
    have hset := hwork.setString (nul_readValue he.toPlain hes s hvalue)
    dsimp only at hset
    simp only [ite_self] at hset
    exact hset

theorem keyAddName_lost (he : e.Below P) (hlost : Lost P e.path) : (keyAddName (keyNewName P.name) (some e.rel)).1 = -1 := by
  by_cases hback : BackslashPart P.escaped
  · have hro : keyNew.roName = false := rfl
    have hnone : (keyNewName P.name).key = none := by
      obtain ⟨-, hnone, -⟩ | ⟨hret, -⟩ := @keySetName_shape keyNew _ P.name_ne_nil P.nul_name hro
      · exact hnone
      · obtain ⟨hret', -⟩ | ⟨-, hback', -⟩ := keySetName_name hro P
        · exact absurd hret' hret
        · exact absurd hback hback'
    rw [keyAddName, hnone]
    split_ifs <;> rfl
  · have hwork := work_keyNewName hback
    have hall := hlost.resolve_left hback
    have hclosed := closed_path (rest P e.path)
    rw [← he.name] at hall hclosed
    rw [keyAddName_eq hwork.name.key hwork.name.keySize hwork.roName he.rel,
      if_neg fun hvalid => (validate_all he.rel hall).mp hvalid hclosed]

/-- **One round of the loop.** -/
theorem getLoop_line (he : e.Below P) (hes : ∀ e ∈ es, e.Plain) (fuel ksize : ℕ) (ks : List Key) (warnings : List Str) :
    getLoop readFormat P.name (fuel + 1) (lines (e :: es)) ksize ks warnings =
      if Lost P e.path then
        getLoop readFormat P.name fuel (lines (behind e es)) ksize ks (warnings ++ [e.rel])
      else if (ksAppendValue ks (readKey P e es)).length ≠ ksize + 1 then
        some ⟨ksAppendValue ks (readKey P e es), warnings, false⟩
      else
        getLoop readFormat P.name fuel (lines (behind e es)) (ksize + 1) (ksAppendValue ks (readKey P e es))
          warnings := by
  have hkey : cString e.rel = e.rel := cString_eq he.nul.1
  have hpos : 0 < (e.rel :: (readValue e es).toList).length := List.length_pos_of_ne_nil (List.cons_ne_nil _ _)
  rw [getLoop, scan_line he.toPlain hes]
  dsimp only
  rw [if_neg (by omega), if_neg (by omega), List.headD_cons, hkey]
  by_cases hlost : Lost P e.path
  · have hret := keyAddName_lost he hlost
    rw [if_pos hlost]
    generalize keyAddName (keyNewName P.name) (some e.rel) = added at hret
    obtain ⟨ret, read⟩ := added
    exact if_pos hret
  · obtain ⟨hret, -⟩ := work_readKey he hes hlost
    have hread : (if ((e.rel :: (readValue e es).toList).length : ℤ) = 2 then
          keySetString (keyAddName (keyNewName P.name) (some e.rel)).2
            (cString ((e.rel :: (readValue e es).toList).getLastD []))
        else (keyAddName (keyNewName P.name) (some e.rel)).2) = readKey P e es := by
      rw [readKey]
      cases hvalue : readValue e es with
      | none => rfl
      | some s =>
        rw [if_pos (by rfl), Option.toList_some, Option.elim_some]
        exact congrArg (keySetString _) (cString_eq (nul_readValue he.toPlain hes s hvalue))
    rw [if_neg hlost, ← hread]
    generalize keyAddName (keyNewName P.name) (some e.rel) = added at hret
    obtain ⟨ret, read⟩ := added
    exact if_neg hret

/-- The paths of the keys are different from each other and from those before. -/
def Distinct (R : Record → Prop) (rs : List Record) : Prop :=
  rs.Pairwise (fun r r' => r.path ≠ r'.path) ∧ ∀ r ∈ rs, ∀ r', R r' → r'.path ≠ r.path

theorem distinct_cons {R : Record → Prop} {r : Record} : Distinct R (r :: rs) ↔
    (∀ r', R r' → r'.path ≠ r.path) ∧ Distinct (fun r' => r' = r ∨ R r') rs := by
  rw [Distinct, Distinct, List.pairwise_cons]
  constructor
  · rintro ⟨⟨hhead, htail⟩, hold⟩
    refine ⟨hold r List.mem_cons_self, htail, fun q hq r' hr' => ?_⟩
    obtain rfl | hr' := hr'
    · exact hhead q hq
    · exact hold q (List.mem_cons_of_mem r hq) r' hr'
  · rintro ⟨hold, htail, hnew⟩
    refine ⟨⟨fun q hq => hnew q hq r (.inl rfl), htail⟩, fun q hq r' hr' => ?_⟩
    obtain rfl | hq := List.mem_cons.mp hq
    · exact hold r' hr'
    · exact hnew q hq r' (.inr hr')

/-- **The loop over lines**: a key for each one that is read, as long as no path comes twice. -/
theorem getLoop_lines (h : Reads P es rs) : ∀ {R : Record → Prop} {ks : List Key} {fuel : ℕ} (warnings : List Str),
    (∀ e ∈ es, e.Below P) → es.length < fuel → Recorded R none ks →
    ∃ result, getLoop readFormat P.name fuel (lines es) ks.length ks warnings = some result ∧
      (result.unique = true ↔ Distinct R rs) ∧
      (result.unique = true → Recorded (fun r => R r ∨ r ∈ rs) none result.returned) := by
  induction h with
  | nil =>
    intro R ks fuel warnings _ hfuel hholds
    obtain ⟨fuel, rfl⟩ := Nat.exists_eq_succ_of_ne_zero (Nat.ne_of_gt hfuel)
    refine ⟨⟨ks, warnings, true⟩, rfl, iff_of_true rfl ⟨.nil, fun r hr => absurd hr List.not_mem_nil⟩, fun _ => ?_⟩
    exact hholds.congr fun r => (or_iff_left List.not_mem_nil).symm
  | @lost e es rs hlost _ ih =>
    intro R ks fuel warnings hes hfuel hholds
    obtain ⟨fuel, rfl⟩ := Nat.exists_eq_succ_of_ne_zero (Nat.ne_of_gt (Nat.zero_lt_of_lt hfuel))
    rw [List.forall_mem_cons] at hes
    have hsub := behind_sublist e es
    obtain ⟨result, hloop, hresult⟩ := ih (warnings ++ [e.rel]) (fun e' he' => hes.2 e' (hsub.subset he'))
      (lt_of_le_of_lt hsub.length_le (Nat.lt_of_succ_lt_succ hfuel)) hholds
    refine ⟨result, ?_, hresult⟩
    rw [getLoop_line hes.1 fun e' he' => (hes.2 e' he').toPlain, if_pos hlost, hloop]
  | @read e es rs hlost _ ih =>
    intro R ks fuel warnings hes hfuel hholds
    obtain ⟨fuel, rfl⟩ := Nat.exists_eq_succ_of_ne_zero (Nat.ne_of_gt (Nat.zero_lt_of_lt hfuel))
    rw [List.forall_mem_cons] at hes
    have hplain : ∀ e' ∈ es, e'.Plain := fun e' he' => (hes.2 e' he').toPlain
    obtain ⟨-, hwork⟩ := work_readKey hes.1 hplain hlost
    have hlen := hholds.length_put hwork.toIs rfl
    rw [getLoop_line hes.1 hplain, if_neg hlost, distinct_cons]
    by_cases hnew : ∀ r', R r' → r'.path ≠ e.path
    · have hsub := behind_sublist e es
      rw [if_neg (not_not.mpr (hlen.mpr hnew)), ← hlen.mpr hnew]
      have hput : Recorded (fun r' => r' = ⟨e.path, (readValue e es).getD [], fun _ => none⟩ ∨ R r') none _ :=
        (hholds.put hwork.toIs rfl).congr fun r' => or_congr_right (and_iff_left_of_imp (hnew r'))
      obtain ⟨result, hloop, hunique, hkeys⟩ := ih warnings (fun e' he' => hes.2 e' (hsub.subset he'))
        (lt_of_le_of_lt hsub.length_le (Nat.lt_of_succ_lt_succ hfuel)) hput
      refine ⟨result, hloop, hunique.trans (and_iff_right hnew).symm, fun htrue => ?_⟩
      refine (hkeys htrue).congr fun r => ?_
      rw [List.mem_cons, or_assoc, or_left_comm]
    · rw [if_pos fun heq => hnew (hlen.mp heq)]
      exact ⟨_, rfl, iff_of_false Bool.false_ne_true fun hd => hnew hd.1, fun hfalse => absurd hfalse Bool.false_ne_true⟩

end Reads

/-! ## Reading back -/

/-- An entry that is read as it is: its value does not begin with white space and, if a line follows, has a character. -/
structure Kept (P : Path) (e : Entry) (es : List Entry) : Prop where
  added : ¬ Lost P e.path
  head : ∀ c, e.value.head? = some c → isspace c = false
  nonempty : es ≠ [] → e.value ≠ []

def AllKept (P : Path) : List Entry → Prop
  | [] => True
  | e :: es => Kept P e es ∧ AllKept P es

def Entry.record (e : Entry) : Record := ⟨e.path, e.value, fun _ => none⟩

section Kept

variable {P : Path} {e : Entry} {es : List Entry} {rs : List Record}

theorem readValue_kept (h : Kept P e es) : (readValue e es).getD [] = e.value ∧ behind e es = es := by
  have hdrop : e.value.dropWhile isspace = e.value :=
    (takeWhile_stop (l := []) (fun c hc => absurd hc List.not_mem_nil) h.head).2
  rw [readValue, behind, hdrop]
  by_cases hvalue : e.value = []
  · rw [if_pos hvalue, if_pos hvalue, hvalue]
    cases es with
    | nil => exact ⟨rfl, rfl⟩
    | cons e' es => exact absurd hvalue (h.nonempty (List.cons_ne_nil e' es))
  · rw [if_neg hvalue, if_neg hvalue]
    exact ⟨rfl, rfl⟩

theorem kept_of_readValue (hes : ∀ e ∈ es, e.Plain) (hlost : ¬ Lost P e.path) (h : (readValue e es).getD [] = e.value) :
    Kept P e es := by
  rw [readValue] at h
  by_cases hdrop : e.value.dropWhile isspace = []
  · rw [if_pos hdrop] at h
    cases es with
    | nil =>
      have hvalue : [] = e.value := h
      refine ⟨hlost, fun c hc => ?_, fun hne => absurd rfl hne⟩
      rw [← hvalue] at hc
      cases hc
    | cons e' es =>
      have hvalue : e'.text = e.value := h
      have he' := hes e' List.mem_cons_self
      obtain ⟨d, t, hd⟩ := List.exists_cons_of_ne_nil he'.rel
      have hspace := he'.word d (hd ▸ List.mem_cons_self)
      rw [← hvalue, Entry.text, hd, List.cons_append, List.cons_append,
        List.dropWhile_cons_of_neg (by rw [hspace]; decide)] at hdrop
      cases hdrop
  · rw [if_neg hdrop] at h
    have hvalue : e.value.dropWhile isspace = e.value := h
    refine ⟨hlost, fun c hc => ?_, fun _ hnil => hdrop (by rw [hnil]; rfl)⟩
    rw [← hvalue] at hc
    exact isspace_dropWhile e.value c hc

theorem reads_kept : ∀ {es : List Entry}, AllKept P es → Reads P es (es.map Entry.record)
  | [], _ => .nil
  | e :: es, h => by
    obtain ⟨hvalue, hbehind⟩ := readValue_kept h.1
    have hrest : Reads P (behind e es) (es.map Entry.record) := by
      rw [hbehind]
      exact reads_kept h.2
    have hread := Reads.read h.1.added hrest
    rw [hvalue] at hread
    exact hread

theorem not_lost_of_reads (h : Reads P es rs) : ∀ r ∈ rs, ¬ Lost P r.path := by
  induction h with
  | nil => exact fun r hr => absurd hr List.not_mem_nil
  | lost _ _ ih => exact ih
  | read hlost _ ih => exact List.forall_mem_cons.mpr ⟨hlost, ih⟩

/-- **If every key is found among those that are read, every line is read as it is.** -/
theorem allKept_of_reads (h : Reads P es rs) {all : List Record} (hall : (all.map Record.path).Nodup)
    (hlost : ∀ r ∈ all, ¬ Lost P r.path) : (∀ e ∈ es, e.Plain) → (∀ r ∈ rs, r ∈ all) →
    (∀ e ∈ es, ∃ r ∈ all, r.path = e.path ∧ r.value = e.value) → AllKept P es ∧ rs = es.map Entry.record := by
  induction h with
  | nil => exact fun _ _ _ => ⟨trivial, rfl⟩
  | @lost e es rs hlost' _ _ =>
    intro _ _ hfound
    obtain ⟨r, hr, hpath, -⟩ := hfound e List.mem_cons_self
    exact absurd (hpath.symm ▸ hlost') (hlost r hr)
  | @read e es rs hlost' _ ih =>
    intro hplain hrs hfound
    rw [List.forall_mem_cons] at hplain hrs hfound
    obtain ⟨⟨r, hr, hpath, hvalue⟩, hfound⟩ := hfound
    have hsame := List.inj_on_of_nodup_map hall hr hrs.1 hpath
    rw [hsame] at hvalue
    have hkept := kept_of_readValue hplain.2 hlost' hvalue
    obtain ⟨hread, hbehind⟩ := readValue_kept hkept
    rw [hbehind] at ih
    obtain ⟨hrest, rfl⟩ := ih hplain.2 hrs.2 hfound
    refine ⟨⟨hkept, hrest⟩, ?_⟩
    rw [hread]
    rfl

end Kept

/-! ## Key sets -/

/-- A text key below the parent: its relative name is without white space, and its value in one line. -/
structure Stored (P : Path) (k : Key) (e : Entry) : Prop where
  name : HasName k e.path
  above : P.Above e.path
  root : P.root = e.path.root
  rel : e.rel = (join (rest P e.path).escaped).drop 1
  value : e.value = keyString k
  text : keyIsBinary k = false
  word : ∀ c ∈ e.rel, isspace c = false
  line : newline ∉ e.value

/-- The same names and values. -/
def SameKeys (keys keys' : List Key) : Prop :=
  (∀ k ∈ keys, ∃ k' ∈ keys', keyName k' = keyName k ∧ keyString k' = keyString k) ∧
    ∀ k' ∈ keys', ∃ k ∈ keys, keyName k' = keyName k ∧ keyString k' = keyString k

/-- **The keys that are read from the file that was written are the same.** -/
def RoundTrip (env : Environment) (moduleConfig : List Key) (parentKey : Key) (keys : List Key) : Prop :=
  ∃ text written keys' read, elektraSimpleiniSet env none (.ok ()) keys parentKey = some (1, some text, written) ∧
    elektraSimpleiniGet env moduleConfig none (.ok ⟨text, true⟩) [] written = some (1, keys', read) ∧ SameKeys keys keys'

/-- No two keys of a name, every name can be added, no value begins with white space, and only that of the last key
is empty. -/
structure Faithful (P : Path) (es : List Entry) : Prop where
  nodup : (es.map Entry.path).Nodup
  added : ∀ e ∈ es, ¬ Lost P e.path
  head : ∀ e ∈ es, ∀ c, e.value.head? = some c → isspace c = false
  nonempty : ∀ e ∈ es.dropLast, e.value ≠ []

section Claim

variable {env : Environment} {moduleConfig : List Key} {parentKey : Key} {P : Path} {keys : List Key} {es : List Entry}

theorem allKept_iff : ∀ {es : List Entry}, AllKept P es ↔ (∀ e ∈ es, ¬ Lost P e.path) ∧
    (∀ e ∈ es, ∀ c, e.value.head? = some c → isspace c = false) ∧ ∀ e ∈ es.dropLast, e.value ≠ []
  | [] => iff_of_true trivial ⟨fun e he => absurd he List.not_mem_nil, fun e he => absurd he List.not_mem_nil,
      fun e he => absurd he List.not_mem_nil⟩
  | e :: es => by
    rw [AllKept, allKept_iff, List.forall_mem_cons, List.forall_mem_cons]
    by_cases hes : es = []
    · subst hes
      constructor
      · rintro ⟨h, hrest⟩
        exact ⟨⟨h.added, hrest.1⟩, ⟨h.head, hrest.2.1⟩, hrest.2.2⟩
      · rintro ⟨h, hhead, hnonempty⟩
        exact ⟨⟨h.1, hhead.1, fun hne => absurd rfl hne⟩, h.2, hhead.2, hnonempty⟩
    · rw [List.dropLast_cons_of_ne_nil hes, List.forall_mem_cons]
      constructor
      · rintro ⟨h, hrest⟩
        exact ⟨⟨h.added, hrest.1⟩, ⟨h.head, hrest.2.1⟩, h.nonempty hes, hrest.2.2⟩
      · rintro ⟨h, hhead, hnonempty⟩
        exact ⟨⟨h.1, hhead.1, fun _ => hnonempty.1⟩, h.2, hhead.2, hnonempty.2⟩

theorem Stored.below {k : Key} {e : Entry} (h : Stored P k e) : e.Below P := by
  have hne : e.rel ≠ [] := fun hnil => escaped_rest_ne h.above (by
    rw [← levels_path (rest P e.path), ← h.rel, hnil, levels_nil])
  have hname : 0 ∉ e.rel := fun hmem => Path.nul_name ⟨.ns .user, (rest P e.path).parts⟩ (by
    rw [Path.name_ns]
    exact List.mem_append_right _ (List.mem_of_mem_drop (h.rel ▸ hmem)))
  have hvalue : 0 ∉ e.value := by
    rw [h.value, keyString]
    cases k.data with
    | none => exact List.not_mem_nil
    | some data =>
      dsimp only
      rw [← keyIsBinary, h.text, if_neg Bool.false_ne_true]
      exact fun hmem => absurd (List.mem_takeWhile_imp hmem) (by decide)
  exact ⟨⟨hne, h.word, h.line, hname, hvalue⟩, h.above, h.root, h.rel⟩

/-- **A line for each key.** -/
theorem setLoop_lines (hparent : HasName parentKey P) (hroot : P.root ≠ .cascading)
    (h : List.Forall₂ (Stored P) keys es) :
    setLoop (str "%s = %s" ++ [newline]) parentKey keys = some (lines es) := by
  induction h with
  | nil => rfl
  | @cons k e keys es hk _ ih =>
    have hne : P ≠ ⟨.cascading, []⟩ := fun he => hroot (by rw [he])
    have hrel := elektraKeyGetRelativeName_eq hparent hk.name hk.above (.inl hk.root)
    rw [if_neg hne, ← hk.rel] at hrel
    rw [setLoop, hrel, ← hk.value, elektraFormat_line, ih]
    rfl

theorem sameKeys_iff {keys' : List Key} {rs : List Record} (h : List.Forall₂ (Stored P) keys es)
    (hholds : Recorded (· ∈ rs) none keys') : SameKeys keys keys' ↔
      (∀ e ∈ es, ∃ r ∈ rs, r.path = e.path ∧ r.value = e.value) ∧
        ∀ r ∈ rs, ∃ e ∈ es, r.path = e.path ∧ r.value = e.value := by
  have hname : ∀ {k : Key} {Q : Path}, HasName k Q → keyName k = Q.name := fun hk => by
    rw [keyName, hk.key]
    rfl
  have hsame : ∀ {k k' : Key} {e : Entry} {r : Record}, Stored P k e → Is k' r →
      (keyName k' = keyName k ∧ keyString k' = keyString k ↔ r.path = e.path ∧ r.value = e.value) := by
    intro k k' e r hk hk'
    rw [hname hk.name, hname hk'.name, hk'.value, hk.value, Path.name_injective.eq_iff]
  refine and_congr ⟨fun hall e he => ?_, fun hall k hk => ?_⟩ ⟨fun hall r hr => ?_, fun hall k' hk' => ?_⟩
  · obtain ⟨k, hk, hstored⟩ := exists_partner h.flip e he
    obtain ⟨k', hk', hpair⟩ := hall k hk
    obtain ⟨r, hr, his⟩ := hholds.record k' hk'
    exact ⟨r, hr, (hsame hstored his).mp hpair⟩
  · obtain ⟨e, he, hstored⟩ := exists_partner h k hk
    obtain ⟨r, hr, hpair⟩ := hall e he
    obtain ⟨k', hk', his⟩ := hholds.key r hr
    exact ⟨k', hk', (hsame hstored his).mpr hpair⟩
  · obtain ⟨k', hk', his⟩ := hholds.key r hr
    obtain ⟨k, hk, hpair⟩ := hall k' hk'
    obtain ⟨e, he, hstored⟩ := exists_partner h k hk
    exact ⟨e, he, (hsame hstored his).mp hpair⟩
  · obtain ⟨r, hr, his⟩ := hholds.record k' hk'
    obtain ⟨e, he, hpair⟩ := hall r hr
    obtain ⟨k, hk, hstored⟩ := exists_partner h.flip e he
    exact ⟨k, hk, (hsame hstored his).mpr hpair⟩

theorem length_lines : ∀ es : List Entry, es.length ≤ (lines es).length
  | [] => Nat.zero_le _
  | e :: es => by
    have hes := length_lines es
    rw [lines] at hes ⊢
    rw [List.flatMap_cons, List.length_append, List.length_append, List.length_cons, List.length_singleton]
    omega

/-- **What is read of the lines.** -/
theorem get_lines {rs : List Record} (hparent : HasName parentKey P) (hname : P.name ≠ moduleName)
    (hes : ∀ e ∈ es, e.Below P) (hrs : Reads P es rs) : ∃ ret keys' read,
    elektraSimpleiniGet env moduleConfig none (.ok ⟨lines es, true⟩) [] parentKey = some (ret, keys', read) ∧
      (ret = 1 ↔ (rs.map Record.path).Nodup) ∧ (ret = 1 → Recorded (· ∈ rs) none keys') := by
  have hparentName : keyName parentKey = P.name := by
    rw [keyName, hparent.key]
    rfl
  have hempty : Recorded (fun _ => False) none [] :=
    ⟨validKeys_nil, fun _ hr => hr.elim, fun _ hk => absurd hk List.not_mem_nil, fun _ hr => hr.elim⟩
  obtain ⟨result, hloop, hunique, hholds⟩ := getLoop_lines hrs [] hes (Nat.lt_succ_of_le (length_lines es)) hempty
  have hdistinct : Distinct (fun _ => False) rs ↔ (rs.map Record.path).Nodup := by
    rw [Distinct, List.Nodup, List.pairwise_map]
    exact and_iff_left fun _ _ _ hr => hr.elim
  have hget : elektraSimpleiniGet env moduleConfig none (.ok ⟨lines es, true⟩) [] parentKey =
      if result.unique = false then
        some (-1, result.returned,
          env.setError 60 (result.warnings.foldl (env.addWarning 59) parentKey) (str "duplicated key"))
      else some (1, result.returned, result.warnings.foldl (env.addWarning 59) parentKey) := by
    rw [elektraSimpleiniGet, hparentName, if_neg hname]
    dsimp only
    rw [getFormat_read, Option.bind_eq_bind, Option.bind_some, directives_read, Option.bind_eq_bind, Option.bind_some]
    change (getLoop readFormat P.name _ (lines es) 0 [] []).bind _ = _
    rw [← List.length_nil (α := Key), hloop, Option.bind_some]
    rfl
  rw [hget, ← hdistinct]
  cases hresult : result.unique with
  | false =>
    rw [hresult] at hunique
    exact ⟨_, _, _, if_pos rfl, iff_of_false (by decide) fun hd => Bool.false_ne_true (hunique.mpr hd),
      fun hret => absurd hret (by decide)⟩
  | true =>
    rw [hresult] at hunique
    refine ⟨_, _, _, if_neg (by decide), iff_of_true rfl (hunique.mp rfl), fun _ => ?_⟩
    exact (hholds hresult).congr fun r => or_iff_right not_false

/-- **The keys are read as they were written exactly when they are faithful.** -/
theorem simpleini_roundTrip_iff (hparent : HasName parentKey P) (hroot : P.root ≠ .cascading)
    (hname : P.name ≠ moduleName) (hkeys : List.Forall₂ (Stored P) keys es) :
    RoundTrip env moduleConfig parentKey keys ↔ Faithful P es := by
  have hbelow : ∀ e ∈ es, e.Below P := fun e he => by
    obtain ⟨k, -, hk⟩ := exists_partner hkeys.flip e he
    exact Stored.below hk
  have hset : elektraSimpleiniSet env none (.ok ()) keys parentKey = some (1, some (lines es), parentKey) := by
    rw [elektraSimpleiniSet, getFormat_write]
    change (setLoop _ parentKey keys).bind _ = _
    rw [setLoop_lines hparent hroot hkeys]
    rfl
  have hpaths : (es.map Entry.record).map Record.path = es.map Entry.path := List.map_map
  constructor
  · rintro ⟨text, written, keys', read, hset', hget', hsame⟩
    obtain ⟨htext, rfl⟩ := Prod.mk.inj (Prod.mk.inj (Option.some.inj (hset.symm.trans hset'))).2
    obtain rfl := Option.some.inj htext
    obtain ⟨rs, hrs⟩ := exists_reads P es rfl
    obtain ⟨ret, keys'', read', hget, hnodup, hholds⟩ := @get_lines env moduleConfig _ _ _ _ hparent hname hbelow hrs
    obtain ⟨rfl, heq⟩ := Prod.mk.inj (Option.some.inj (hget.symm.trans hget'))
    obtain ⟨rfl, -⟩ := Prod.mk.inj heq
    obtain ⟨hfound, -⟩ := (sameKeys_iff hkeys (hholds rfl)).mp hsame
    obtain ⟨hall, rfl⟩ := allKept_of_reads hrs (hnodup.mp rfl) (not_lost_of_reads hrs)
      (fun e he => (hbelow e he).toPlain) (fun _ hr => hr) hfound
    obtain ⟨hadded, hhead, hnonempty⟩ := allKept_iff.mp hall
    exact ⟨hpaths ▸ hnodup.mp rfl, hadded, hhead, hnonempty⟩
  · intro h
    have hrs := reads_kept (allKept_iff.mpr ⟨h.added, h.head, h.nonempty⟩)
    obtain ⟨ret, keys', read, hget, hnodup, hholds⟩ := @get_lines env moduleConfig _ _ _ _ hparent hname hbelow hrs
    obtain rfl := hnodup.mpr (hpaths.symm ▸ h.nodup)
    refine ⟨lines es, parentKey, keys', read, hset, hget, (sameKeys_iff hkeys (hholds rfl)).mpr ?_⟩
    refine ⟨fun e he => ?_, fun r hr => ?_⟩
    · exact ⟨e.record, List.mem_map_of_mem he, rfl, rfl⟩
    · obtain ⟨e, he, rfl⟩ := List.mem_map.mp hr
      exact ⟨e, he, rfl, rfl⟩

end Claim

/-! ## Two key sets -/

def childPath (c : CString) : Path := Line.userLine.add c

/-- A key below the parent with a value. -/
def childKey (c : CString) (value : Str) : Key := keySetString (elektraFinalizeName keyNew (childPath c).name) value

def childEntry (c : CString) (value : Str) : Entry := ⟨childPath c, c.1, value⟩

theorem nul_nameA : 0 ∉ str "a" := by decide

def nameA : CString := ⟨str "a", nul_nameA⟩

theorem stored_childKey : Stored Line.userLine (childKey nameA (str "b c ")) (childEntry nameA (str "b c ")) where
  name := hasName_keySetString (hasName_finalize keyNew _) _
  above := by decide
  root := rfl
  rel := by decide +kernel
  value := by decide +kernel
  text := by decide +kernel
  word := by decide +kernel
  line := by decide

/-- A value with blanks in it and behind it. -/
theorem simpleini_roundTrip_blanks : RoundTrip Line.unreported [] Line.userKey [childKey nameA (str "b c ")] :=
  (simpleini_roundTrip_iff Line.parentKey_userKey.name (Root.ns_ne _) (by decide) (.cons stored_childKey .nil)).mpr
    ⟨by decide, by decide, by decide +kernel, by decide⟩

/-- A blank before the value is skipped. -/
theorem not_simpleini_roundTrip : ¬ RoundTrip Line.unreported [] Line.userKey [childKey nameA (str " b")] := by
  rintro ⟨text, written, keys', read, hset, hget, hsame, -⟩
  have hrun : ((elektraSimpleiniSet Line.unreported none (.ok ()) [childKey nameA (str " b")] Line.userKey).bind fun w =>
      (elektraSimpleiniGet Line.unreported [] none (.ok ⟨w.2.1.getD [], true⟩) [] w.2.2).map fun r =>
        r.2.1.map keyString) = some [str "b"] := by decide +kernel
  rw [hset, Option.bind_some, Option.getD_some, hget] at hrun
  obtain ⟨k', hk', -, hvalue⟩ := hsame _ List.mem_cons_self
  have hvalues : keys'.map keyString = [str "b"] := Option.some.inj hrun
  have hmem := List.mem_map_of_mem (f := keyString) hk'
  rw [hvalues, hvalue] at hmem
  exact absurd hmem (by decide +kernel)

end Elektra.Simpleini
