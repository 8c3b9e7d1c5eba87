import Elektra.Ease.MetaArray
import Elektra.Name.Rename
import Elektra.Plugin.Value
import Elektra.Search.Pieces
import Elektra.Split.Values

/-!
# The line plugin

A file is an array of its lines. The name of each line's key is made from the key that is last in the key
set; a start key, which is removed behind the last line, stands before the first one.

* `getline`, `elektraLineRead`, `elektraLineGet`, `elektraLineSet`;
* `Entry`, `Reading`: what the loop keeps;
* **`readLoop_lines`**: the loop over the lines of a file;
* `RoundTrip`, **`line_roundTrip_iff`**: which files are read and written back.
-/

namespace Elektra.Line

open Ease

/-! ## The code -/

/-- A file that is read, and whether reading comes to its end. -/
structure File where
  content : Str
  complete : Bool

def moduleName : Str := str "system/elektra/modules/line"

def newline : UInt8 := 10

/-- A line with its newline, if it has one, and the rest of the file. -/
def getline (s : Str) : Option (Str × Str) :=
  if s = [] then none
  else some (s.takeWhile (· ≠ newline) ++ (s.dropWhile (· ≠ newline)).take 1, (s.dropWhile (· ≠ newline)).tail)

/-- Without the newline at the end, and up to a NUL. -/
def stripped (value : Str) : Str :=
  (if value.getLast? = some newline then value.dropLast else value).takeWhile (· ≠ 0)

/-- The loop of `elektraLineRead`. There is no result where `elektraArrayIncName` writes behind its buffer. -/
def readLoop : ℕ → Str → List Key → Option (ℤ × List Key)
  | 0, _, _ => none
  | fuel + 1, s, returned =>
    match getline s with
    | none => some (1, returned)
    | some (value, s) =>
      match returned.getLast? with
      | none => some (-1, returned)
      | some tail =>
        match Ease.elektraArrayIncName (keyDup tail) with
        | none => none
        | some (ret, read) =>
          if ret = -1 then some (-1, returned)
          else readLoop fuel s (ksAppendValue returned (keySetString read (stripped value)))

/-- Every line has a byte, so the size of the file bounds the rounds. -/
def elektraLineRead (s : Str) (returned : List Key) : Option (ℤ × List Key) := readLoop (s.length + 1) s returned

/-- `ksLookup` with `KDB_O_POP`, for a key in a namespace. -/
def ksPopName (ks : List Key) (key : Key) : List Key :=
  match Bisect.halfOpen (fun i => (ks[i]?).elim .lt (keyCompareByName key)) ks.length with
  | none => ks
  | some found => ks.eraseIdx found

/-- What `strerror` says, and whether `errno` is `EACCES`. -/
structure Errno where
  text : Str
  access : Bool

section Calls

variable (env : Environment) (moduleConfig : List Key)

def elektraLineGet (file : Except Errno File) (returned : List Key) (parentKey : Key) :
    Option (ℤ × List Key × Key) :=
  if keyName parentKey = moduleName then some (1, moduleConfig.foldl ksAppendValue returned, parentKey)
  else
    match file with
    | .error errno => some (-1, returned, env.setError (if errno.access then 109 else 110) parentKey errno.text)
    | .ok file =>
      let b := keyNewName (keyName parentKey)
      -- start with the parent key
      let returned := ksAppendValue returned (keyDup b)
      -- the start point of the array
      let b := (keyAddName b (some (str "#"))).2
      let returned := ksAppendValue returned b
      (elektraLineRead file.content returned).map fun (ret, returned) =>
        let returned := ksPopName returned b
        if ret = -1 then
          (-1, returned, env.setError 158 parentKey
            (str "could not increment array from " ++ ((returned.getLast?.map keyName).getD (str "(null)"))))
        else if file.complete = false then (-1, returned, env.setError 60 parentKey (str "not at the end of file"))
        else (ret, returned, parentKey)

/-- The file that is written. -/
def elektraLineSet (file : Except Errno Unit) (returned : List Key) (parentKey : Key) : ℤ × Option Str × Key :=
  match file with
  | .error errno => (-1, none, env.setError (if errno.access then 9 else 75) parentKey errno.text)
  -- the first key is ignored
  | .ok _ => (1, some (returned.tail.flatMap fun cur => keyString cur ++ [newline]), parentKey)

end Calls

/-! ## Keys behind each other -/

section Order

variable {ks : List Key} {key : Key} {P : Path}

theorem compare_start (n : ℕ) : compare (str "#") (elektraWriteArrayNumber n) = .lt := by
  obtain ⟨d, t, hd⟩ := List.exists_cons_of_ne_nil (List.ne_nil_of_length_pos (digits_length_pos n))
  rw [(scanned_write n).eq, List.append_nil]
  have hne : List.replicate ((digits n).length - 1) 95 ++ digits n ≠ [] := by
    rw [hd]
    exact List.append_ne_nil_of_right_ne_nil _ (List.cons_ne_nil d t)
  obtain ⟨c, u, hc⟩ := List.exists_cons_of_ne_nil hne
  rw [hc]
  rfl

end Order

/-! ## Lines as keys -/

/-- The start point of the array. -/
def hash : CString := ⟨str "#", by decide⟩

/-- A key in the key set for a place and a value. -/
structure Entry (key : Key) (P : Path) (value : Str) : Prop where
  name : HasName key P
  locked : key.roName = true
  owner : keyGetMeta key (str "owner") = none
  value : keyString key = value

theorem Entry.ident {key : Key} {P : Path} {value : Str} (h : Entry key P value) : ident key = (P.uname, none) := by
  rw [Elektra.ident, h.name.ukey, h.owner]

/-- The keys of the lines that were read. -/
inductive Elements (P : Path) : List Str → List Key → Prop
  | nil : Elements P [] []
  | concat {done : List Str} {elems : List Key} {line : Str} {key : Key} (h : Elements P done elems)
      (hkey : Entry key (P.add (arrayName done.length)) line) : Elements P (done ++ [line]) (elems ++ [key])

/-- What is read so far: the parent key, the start and the lines. -/
structure Reading (P : Path) (done : List Str) (ks : List Key) : Prop where
  valid : ValidKeys ks
  keys : ∃ first start elems, ks = first :: start :: elems ∧ Entry first P [] ∧ Entry start (P.add hash) [] ∧
    Elements P done elems

section Step

variable {P : Path} {done : List Str} {ks elems : List Key} {key : Key} {line : Str} {t : CString}

theorem Elements.mem (h : Elements P done elems) : ∀ k ∈ elems, ∃ i line, i < done.length ∧
    Entry k (P.add (arrayName i)) line := by
  induction h with
  | nil => exact fun _ hk => absurd hk List.not_mem_nil
  | @concat done elems line key h hkey ih =>
    intro k hk
    rw [List.length_append, List.length_singleton]
    obtain hk | hk := List.mem_append.mp hk
    · obtain ⟨i, line, hi, he⟩ := ih k hk
      exact ⟨i, line, Nat.lt_succ_of_lt hi, he⟩
    · obtain rfl := List.mem_singleton.mp hk
      exact ⟨done.length, line, Nat.lt_succ_self _, hkey⟩

theorem Elements.values (h : Elements P done elems) : elems.map keyString = done := by
  induction h with
  | nil => rfl
  | concat h hkey ih => rw [List.map_append, ih, List.map_singleton, hkey.value]

/-- **The key of the next line.** -/
theorem next_entry (h : Entry key (P.add t) line) {n : ℕ} {value : Str} (h0 : 0 ∉ value)
    (hinc : incBaseName t.1 = some (some (elektraWriteArrayNumber n))) :
    ∃ read, Ease.elektraArrayIncName (keyDup key) = some (0, read) ∧
      HasName (keySetString read value) (P.add (arrayName n)) ∧
      Entry { keySetString read value with roName := true } (P.add (arrayName n)) value := by
  have hdup := hasName_keyDup h.name
  obtain ⟨-, hro, hname⟩ := keySetBaseName_spec hdup rfl (arrayName n)
  obtain ⟨hmeta, hroMeta, hroValue⟩ := keySetBaseName_fields (keyDup key) (some (arrayName n).1)
  refine ⟨(keySetBaseName (keyDup key) (some (arrayName n).1)).2, ?_, ?_⟩
  · rw [Ease.elektraArrayIncName, keyBaseName_add hdup, hinc]
    rfl
  · obtain ⟨-, -, hdata, -, hbinary, hget⟩ := keySetString_spec ⟨hroValue, hroMeta⟩ value
    have hstring := hasName_keySetString hname value
    refine ⟨hstring, ⟨hstring.key, hstring.keySize, hstring.ukey, hstring.keyUSize⟩, rfl, ?_, ?_⟩
    · exact (hget (str "owner") (by decide)).trans ((congrArg (List.lookup (str "owner")) hmeta).trans h.owner)
    · exact keyString_of_data hbinary h0 hdata

theorem incBaseName_last {done : List Str} (h : Reading P done ks) (hlen : done.length ≤ 10 ^ 10) :
    ∃ tail t line, ks.getLast? = some tail ∧ Entry tail (P.add t) line ∧
      incBaseName t.1 = if done.length < 10 ^ 10 then some (some (elektraWriteArrayNumber done.length)) else none := by
  obtain ⟨first, start, elems, rfl, -, hstart, helems⟩ := h.keys
  cases helems with
  | nil => exact ⟨start, hash, [], rfl, hstart, incBaseName_start⟩
  | @concat done elems line key _ hkey =>
    rw [List.length_append, List.length_singleton] at hlen ⊢
    refine ⟨key, _, line, ?_, hkey, incBaseName_write hlen⟩
    rw [← List.cons_append, ← List.cons_append, List.getLast?_concat]

theorem ident_lt {done : List Str} (h : Reading P done ks) (hkey : HasName key (P.add (arrayName done.length)))
    (howner : keyGetMeta key (str "owner") = none) : ∀ k ∈ ks, identCmp (ident k) (ident key) = .lt := by
  have hident : ident key = ((P.add (arrayName done.length)).uname, none) := by
    rw [ident, hkey.ukey, howner]
  obtain ⟨first, start, elems, rfl, hfirst, hstart, helems⟩ := h.keys
  intro k hk
  rw [hident, identCmp_eq]
  obtain rfl | hk := List.mem_cons.mp hk
  · rw [hfirst.ident, compare_child]
    rfl
  obtain rfl | hk := List.mem_cons.mp hk
  · rw [hstart.ident, compare_siblings]
    exact congrArg (Ordering.then · _) (compare_start done.length)
  · obtain ⟨i, line, hi, he⟩ := helems.mem k hk
    rw [he.ident, compare_siblings]
    exact congrArg (Ordering.then · _) ((compare_write i done.length).trans (Nat.compare_eq_lt.mpr hi))

theorem Reading.step {done : List Str} (h : Reading P done ks) (hname : HasName key (P.add (arrayName done.length)))
    (hkey : Entry { key with roName := true } (P.add (arrayName done.length)) line) :
    Reading P (done ++ [line]) (ksAppendValue ks key) := by
  have hnamed : key.key ≠ none := by
    rw [hname.key]
    exact Option.some_ne_none _
  obtain ⟨hvalid, heq⟩ := ksAppendValue_last h.valid hname.sized hnamed (ident_lt h hname hkey.owner)
  rw [heq]
  refine ⟨hvalid, ?_⟩
  obtain ⟨first, start, elems, rfl, hfirst, hstart, helems⟩ := h.keys
  exact ⟨first, start, elems ++ [_], rfl, hfirst, hstart, helems.concat hkey⟩

end Step

/-! ## The loop -/

section Loop

variable {P : Path} {done : List Str} {ks : List Key}

theorem getline_line {l t : Str} (hl : newline ∉ l) : getline (l ++ newline :: t) = some (l ++ [newline], t) := by
  have hstop : ∀ c ∈ l, decide (c ≠ newline) = true := fun c hc => decide_eq_true fun he => hl (he ▸ hc)
  rw [getline, if_neg (List.append_ne_nil_of_right_ne_nil l (List.cons_ne_nil newline t)),
    List.takeWhile_append_of_pos hstop, List.dropWhile_append_of_pos hstop,
    List.takeWhile_cons_of_neg (by simp), List.dropWhile_cons_of_neg (by simp), List.append_nil]
  rfl

theorem stripped_line {l : Str} (h0 : 0 ∉ l) : stripped (l ++ [newline]) = l := by
  rw [stripped, List.getLast?_concat, if_pos rfl, List.dropLast_concat]
  exact List.takeWhile_eq_self_iff.mpr fun c hc => decide_eq_true fun he => h0 (he ▸ hc)

/-- **The loop over complete lines**, as far as there are names for them. -/
theorem readLoop_lines : ∀ {n : ℕ} {s : Str} {done : List Str} {ks : List Key} {fuel : ℕ}, s.length = n →
    Pieces.Lines newline s → 0 ∉ s → Reading P done ks → done.length ≤ 10 ^ 10 → s.length < fuel →
    if done.length + (Pieces.lines newline s).length ≤ 10 ^ 10 then
      ∃ ks', readLoop fuel s ks = some (1, ks') ∧ Reading P (done ++ Pieces.lines newline s) ks'
    else readLoop fuel s ks = none := by
  intro n
  induction n using Nat.strong_induction_on with
  | _ n ih =>
    intro s done ks fuel hn hlines h0 hreading hdone hfuel
    obtain ⟨fuel, rfl⟩ := Nat.exists_eq_succ_of_ne_zero (Nat.ne_of_gt (Nat.zero_lt_of_lt hfuel))
    obtain rfl | ⟨l, t, rfl, hl, ht⟩ := hlines.cases
    · rw [Pieces.lines_nil, List.length_nil, Nat.add_zero, if_pos hdone]
      exact ⟨ks, rfl, by rwa [List.append_nil]⟩
    · rw [List.mem_append, not_or, List.mem_cons, not_or] at h0
      obtain ⟨tail, name, line, htail, hentry, hinc⟩ := incBaseName_last hreading hdone
      rw [Pieces.lines_line hl, List.length_cons]
      by_cases hlt : done.length < 10 ^ 10
      · rw [if_pos hlt] at hinc
        obtain ⟨read, hread, hname, hkey⟩ := next_entry hentry h0.1 hinc
        have hloop : readLoop (fuel + 1) (l ++ newline :: t) ks = readLoop fuel t (ksAppendValue ks (keySetString read l)) := by
          rw [readLoop, getline_line hl]
          dsimp only
          rw [htail]
          dsimp only
          rw [hread]
          dsimp only
          rw [if_neg (by decide), stripped_line h0.1]
        have hlen : t.length < (l ++ newline :: t).length := by
          rw [List.length_append, List.length_cons]
          omega
        have hrest := ih t.length (by rwa [← hn]) rfl ht h0.2.2 (hreading.step hname hkey)
          (by rw [List.length_append, List.length_singleton]; omega)
          (Nat.lt_of_lt_of_le hlen (Nat.le_of_lt_succ hfuel))
        rw [List.length_append, List.length_singleton, Nat.add_assoc, Nat.add_comm 1] at hrest
        rw [hloop, List.append_cons]
        exact hrest
      · rw [if_neg hlt] at hinc
        have hnone : Ease.elektraArrayIncName (keyDup tail) = none := by
          rw [Ease.elektraArrayIncName, keyBaseName_add (hasName_keyDup hentry.name), hinc]
          rfl
        rw [if_neg (by omega), readLoop, getline_line hl]
        dsimp only
        rw [htail]
        dsimp only
        rw [hnone]

end Loop

/-! ## Files -/

/-- The parent key of a file: in a namespace, with a name that `keyNew` takes, and not that of the contract. -/
structure ParentKey (parentKey : Key) (P : Path) : Prop where
  name : HasName parentKey P
  root : P.root ≠ .cascading
  reread : ¬ BackslashPart P.escaped
  file : P.name ≠ moduleName

section Files

variable {env : Environment} {moduleConfig : List Key} {parentKey : Key} {P : Path} {content : Str}

theorem keyNewName_parent (h : ParentKey parentKey P) :
    HasName (keyNewName (keyName parentKey)) P ∧ (keyNewName (keyName parentKey)).roName = false ∧
      (keyNewName (keyName parentKey)).rest = (none, [], false) := by
  have hname : keyName parentKey = P.name := by
    rw [keyName, h.name.key]
    rfl
  rw [hname]
  obtain ⟨-, hback⟩ | ⟨hret, -, hP⟩ := keySetName_name (show keyNew.roName = false from rfl) P
  · exact absurd hback h.reread
  · refine ⟨hP, ?_, keySetName_rest rfl P⟩
    obtain ⟨hret', -⟩ | ⟨-, -, hro, -⟩ :=
      keySetName_spec (show keyNew.roName = false from rfl) P.name_ne_nil P.nul_name (not_oddRun_path P)
    · exact absurd hret' hret
    · exact hro

theorem keyAddName_hash {b : Key} (h : HasName b P) (hro : b.roName = false) :
    HasName (keyAddName b (some (str "#"))).2 (P.add hash) := by
  have hodd : ¬ OddRun (str "#") := fun hodd =>
    absurd (show str "#" = elektraWriteBackslashes (str "#").length from hodd.1) (by decide)
  obtain ⟨-, hv⟩ | ⟨-, -, -, Q, hQ, hroot, hescaped⟩ :=
    keyAddName_spec h.key h.keySize hro (n := str "#") (by decide) (by decide) hodd
  · exact absurd (by decide) hv
  · have hlevels : pathReduce P.escaped (levels (str "#")) = (P.add hash).escaped := by
      rw [Path.escaped_add]
      rfl
    obtain rfl : Q = P.add hash := Path.ext_escaped hroot (hescaped.trans hlevels)
    exact hQ

theorem reading_start (h : ParentKey parentKey P) :
    Reading P [] (ksAppendValue (ksAppendValue [] (keyDup (keyNewName (keyName parentKey))))
      (keyAddName (keyNewName (keyName parentKey)) (some (str "#"))).2) := by
  obtain ⟨hP, hro, hrest⟩ := keyNewName_parent h
  have hhash := keyAddName_hash hP hro
  have hmeta : ∀ {b : Key}, b.rest = (none, [], false) → keyGetMeta b (str "owner") = none ∧ keyString b = [] := by
    intro b hb
    have hdata : b.data = none := congrArg Prod.fst hb
    have hkeys : b.metaKeys = [] := congrArg (fun r => r.2.1) hb
    rw [keyString, hdata, keyGetMeta, hkeys]
    exact ⟨rfl, rfl⟩
  have hnamed : (keyDup (keyNewName (keyName parentKey))).key ≠ none := by
    rw [(hasName_keyDup hP).key]
    exact Option.some_ne_none _
  have hnamed' : (keyAddName (keyNewName (keyName parentKey)) (some (str "#"))).2.key ≠ none := by
    rw [hhash.key]
    exact Option.some_ne_none _
  obtain ⟨howner, hstring⟩ := hmeta hrest
  obtain ⟨howner', hstring'⟩ := hmeta ((keyAddName_rest _ (some (str "#"))).trans hrest)
  have hfirst : Entry { keyDup (keyNewName (keyName parentKey)) with roName := true } P [] :=
    ⟨⟨hP.key, hP.keySize, hP.ukey, hP.keyUSize⟩, rfl, howner, hstring⟩
  have hstart : Entry { (keyAddName (keyNewName (keyName parentKey)) (some (str "#"))).2 with roName := true }
      (P.add hash) [] :=
    ⟨⟨hhash.key, hhash.keySize, hhash.ukey, hhash.keyUSize⟩, rfl, howner', hstring'⟩
  obtain ⟨hvalid, heq⟩ := ksAppendValue_last validKeys_nil (hasName_keyDup hP).sized hnamed
    fun k hk => absurd hk List.not_mem_nil
  obtain ⟨hvalid', heq'⟩ := ksAppendValue_last hvalid hhash.sized hnamed' fun k hk => by
    obtain rfl := List.mem_singleton.mp hk
    have hident : ident (keyAddName (keyNewName (keyName parentKey)) (some (str "#"))).2 =
        ((P.add hash).uname, none) := hstart.ident
    rw [List.nil_append, List.mem_singleton] at hk
    rw [hfirst.ident, hident, identCmp_eq, compare_child]
    rfl
  rw [heq, heq']
  exact ⟨hvalid', _, _, [], rfl, hfirst, hstart, .nil⟩

theorem Reading.owner {done : List Str} {ks : List Key} (h : Reading P done ks) :
    ∀ k ∈ ks, keyGetMeta k (str "owner") = none := by
  obtain ⟨first, start, elems, rfl, hfirst, hstart, helems⟩ := h.keys
  intro k hk
  obtain rfl | hk := List.mem_cons.mp hk
  · exact hfirst.owner
  obtain rfl | hk := List.mem_cons.mp hk
  · exact hstart.owner
  · obtain ⟨i, line, -, he⟩ := helems.mem k hk
    exact he.owner

/-- **The start point is removed.** -/
theorem ksPopName_start {done : List Str} {ks : List Key} {b : Key} (h : Reading P done ks) (hb : HasName b (P.add hash)) :
    ∃ first elems, ksPopName ks b = first :: elems ∧ Entry first P [] ∧ Elements P done elems := by
  have howner := h.owner
  have hvalid := h.valid
  obtain ⟨first, start, elems, rfl, hfirst, hstart, helems⟩ := h.keys
  refine ⟨first, elems, ?_, hfirst, helems⟩
  have honly : ∀ k ∈ first :: start :: elems, k.ukey = (P.add hash).uname → ident k = ident start := fun k hk hu => by
    rw [hstart.ident, ident, howner k hk, hu]
  rw [ksPopName, hvalid.halfOpen_name hb (List.getElem?_cons_succ.trans List.getElem?_cons_zero) hstart.name honly]
  rfl

variable (env moduleConfig) in
/-- **A file is read into one key for each line, and written back.** -/
def RoundTrip (P : Path) (parentKey : Key) (content : Str) : Prop :=
  ∃ first elems, elektraLineGet env moduleConfig (.ok ⟨content, true⟩) [] parentKey = some (1, first :: elems, parentKey) ∧
    HasName first P ∧ Elements P (Pieces.lines newline content) elems ∧
    elektraLineSet env (.ok ()) (first :: elems) parentKey = (1, some content, parentKey)

theorem flatMap_lines : ∀ {n : ℕ} {s : Str}, s.length = n → Pieces.Lines newline s →
    (Pieces.lines newline s).flatMap (· ++ [newline]) = s := by
  intro n
  induction n using Nat.strong_induction_on with
  | _ n ih =>
    intro s hn hlines
    obtain rfl | ⟨l, t, rfl, hl, ht⟩ := hlines.cases
    · rfl
    · have hlen : t.length < n := by
        rw [← hn, List.length_append, List.length_cons]
        omega
      rw [Pieces.lines_line hl, List.flatMap_cons, ih t.length hlen rfl ht, List.append_assoc]
      rfl

theorem elektraLineGet_eq (h : ParentKey parentKey P) (hlines : Pieces.Lines newline content) (h0 : 0 ∉ content) :
    if content.count newline ≤ 10 ^ 10 then
      ∃ first elems, elektraLineGet env moduleConfig (.ok ⟨content, true⟩) [] parentKey =
        some (1, first :: elems, parentKey) ∧ Entry first P [] ∧ Elements P (Pieces.lines newline content) elems
    else elektraLineGet env moduleConfig (.ok ⟨content, true⟩) [] parentKey = none := by
  have hname : keyName parentKey ≠ moduleName := by
    rw [keyName, h.name.key]
    exact h.file
  have hloop := readLoop_lines rfl hlines h0 (reading_start h) (Nat.zero_le _) (Nat.lt_succ_self _)
  rw [List.length_nil, Nat.zero_add, Pieces.length_lines newline rfl] at hloop
  rw [elektraLineGet, if_neg hname]
  dsimp only
  by_cases hcount : content.count newline ≤ 10 ^ 10
  · rw [if_pos hcount] at hloop ⊢
    obtain ⟨ks, hrun, hreading⟩ := hloop
    obtain ⟨hP, hro, -⟩ := keyNewName_parent h
    obtain ⟨first, elems, hpop, hfirst, helems⟩ := ksPopName_start hreading (keyAddName_hash hP hro)
    rw [elektraLineRead, hrun, Option.map_some]
    dsimp only
    rw [if_neg (by decide), if_neg (by decide), hpop]
    exact ⟨first, elems, rfl, hfirst, helems⟩
  · rw [if_neg hcount] at hloop ⊢
    rw [elektraLineRead, hloop]
    rfl

/-- **Which files are read and written back.** -/
theorem line_roundTrip_iff (h : ParentKey parentKey P) (hlines : Pieces.Lines newline content) (h0 : 0 ∉ content) :
    RoundTrip env moduleConfig P parentKey content ↔ content.count newline ≤ 10 ^ 10 := by
  have hget := @elektraLineGet_eq env moduleConfig _ _ _ h hlines h0
  by_cases hcount : content.count newline ≤ 10 ^ 10
  · rw [if_pos hcount] at hget
    obtain ⟨first, elems, hget, hfirst, helems⟩ := hget
    refine iff_of_true ⟨first, elems, hget, hfirst.name, helems, ?_⟩ hcount
    have hvalues : (elems.flatMap fun cur => keyString cur ++ [newline]) =
        (elems.map keyString).flatMap (· ++ [newline]) := by
      rw [List.flatMap_map]
    rw [elektraLineSet, List.tail_cons, hvalues, helems.values, flatMap_lines rfl hlines]
  · rw [if_neg hcount] at hget
    refine iff_of_false ?_ hcount
    rintro ⟨first, elems, heq, -⟩
    rw [hget] at heq
    cases heq

end Files

/-! ## Two files -/

def userLine : Path := ⟨.ns .user, [⟨str "line", by decide⟩]⟩

def userKey : Key := elektraFinalizeName keyNew userLine.name

theorem parentKey_userKey : ParentKey userKey userLine :=
  ⟨hasName_finalize keyNew userLine, Root.ns_ne _, by decide, by decide⟩

/-- Errors are not looked at. -/
def unreported : Environment := ⟨fun _ k _ => k, fun _ k _ => k, fun ks _ => (false, ks)⟩

theorem roundTrip_two : RoundTrip unreported [] userLine userKey (str "a\n\n") :=
  (line_roundTrip_iff parentKey_userKey (.inr rfl) (by decide)).mpr (by decide)

theorem not_roundTrip_replicate {n : ℕ} (hn : 10 ^ 10 < n) :
    ¬ RoundTrip unreported [] userLine userKey (List.replicate n newline) := by
  have hlines : Pieces.Lines newline (List.replicate n newline) := by
    obtain ⟨n, rfl⟩ := Nat.exists_eq_succ_of_ne_zero (Nat.ne_of_gt (Nat.zero_lt_of_lt hn))
    rw [List.replicate_succ']
    exact .inr List.getLast?_concat
  have h0 : 0 ∉ List.replicate n newline := fun h => absurd (List.eq_of_mem_replicate h) (by decide)
  have hget := @elektraLineGet_eq unreported [] _ _ _ parentKey_userKey hlines h0
  rw [List.count_replicate_self, if_neg (not_le.mpr hn)] at hget
  rintro ⟨first, elems, heq, -⟩
  rw [hget] at heq
  cases heq

/-- Behind the last name, `elektraArrayIncName` writes more than its buffer holds. -/
theorem not_roundTrip : ¬ RoundTrip unreported [] userLine userKey (List.replicate (10 ^ 10 + 1) newline) :=
  not_roundTrip_replicate (Nat.lt_succ_self _)

end Elektra.Line
