import Elektra.Tools.Builder

/-!
# The plugin database

A database with the clauses of the contracts of finitely many plugins, and the specifications that are
parsed from strings.

* `PluginSpec.ofFullName`, `parseArguments`;
* `MockPluginDatabase`: `lookupInfo`, `status`, `lookupProvides`, `lookupMetadata`;
* `lookupProvides_spec`, `lookupMetadata_spec`: what is found is a plugin of the database that provides it.
-/

namespace Elektra.Tools

/-! ## Specifications from strings -/

/-- What `resolveNeeds` throws. -/
inductive ResolveException
  | builder (e : BuilderException)
  | badPluginName (name : Str)
  | parse (message : Str)
  deriving DecidableEq, Repr

/-- The number sign -/
def numberSign : UInt8 := 35

namespace PluginSpec

/-- `PluginSpec::validate`, with what it throws -/
def validated (n : Str) : Except ResolveException {n : Str // validate n = true} :=
  if h : validate n = true then .ok ⟨n, h⟩
  else .error (.badPluginName (if n = [] then str "<empty>" else n))

theorem validRefName_name {n : Str} (h : validate n = true) : validRefName n = true := by
  rw [validRefName, h, Bool.true_or]

/-- A plugin whose reference name is its name. -/
def ofName (n : Str) (h : validate n = true) : PluginSpec := ⟨n, n, [], h, validRefName_name h⟩

/-- `PluginSpec (pluginName)` -/
def ofFullName (n : Str) : Except ResolveException PluginSpec :=
  match n.dropWhile (· ≠ numberSign) with
  | [] => do
    let n ← validated n
    .ok (ofName n.1 n.2)
  | _ :: rn => do
    let nn ← validated (n.takeWhile (· ≠ numberSign))
    let rn ← validated rn
    .ok ⟨nn.1, rn.1, [], nn.2, validRefName_name rn.2⟩

theorem validRefName_digits (i : ℕ) : validRefName (digits i) = true := by
  have hne : digits i ≠ [] := by
    have hlen := @Nat.length_toDigits_pos 10 i
    rw [← List.length_pos_iff, digits, List.length_map]
    exact hlen
  have hall : (digits i).all isdigit = true := List.all_eq_true.mpr (isdigit_digits i)
  rw [validRefName, hall, decide_eq_true hne]
  exact Bool.or_true _

def setRefNumber (ps : PluginSpec) (refnumber : ℕ) : PluginSpec :=
  { ps with refname := digits refnumber, validRef := validRefName_digits refnumber }

def isRefNumber (ps : PluginSpec) : Bool := ps.refname.all isdigit

end PluginSpec

/-! ## Parsing -/

/-- `std::getline`: what stands before the delimiter, and what behind it; nothing at the end. -/
def getline (delim : UInt8) (s : Str) : Option (Str × Str) :=
  if s = [] then none
  else some (s.takeWhile (· ≠ delim), (s.dropWhile (· ≠ delim)).tail)

/-- The keys `user/name` of `name=value,...`; a round reads one of the characters at least. -/
def parsePluginArguments : ℕ → Str → List Key → List Key
  | 0, _, ks => ks
  | fuel + 1, sstream, ks =>
    match getline 61 sstream with
    | none => ks
    | some (keyName, sstream) =>
      let (value, sstream) := (getline 44 sstream).getD ([], [])
      let key := { keyNewName (str "user" ++ str "/" ++ keyName) with data := some (value ++ [0]) }
      parsePluginArguments fuel sstream (ksAppendValue ks key)

/-- The plugins so far, and the counter for those without a reference name. -/
def processArgument (arguments : List PluginSpec × ℕ) (argument : Str) :
    Except ResolveException (List PluginSpec × ℕ) :=
  if argument = [] ∨ argument.all fun c => isspace c || c = 44 then .ok arguments
  else if (61 : UInt8) ∉ argument then do
    -- a plugin
    let ps ← PluginSpec.ofFullName argument
    if numberSign ∉ argument then .ok (arguments.1 ++ [ps.setRefNumber arguments.2], arguments.2 + 1)
    else .ok (arguments.1 ++ [ps], arguments.2)
  else
    -- the configuration of a plugin
    match arguments.1.getLast? with
    | none =>
      .error (.parse (str "config for plugin (" ++ argument ++ str ") without previous plugin name"))
    | some ps =>
      .ok (arguments.1.dropLast ++ [ps.appendConfig (parsePluginArguments argument.length argument [])],
        arguments.2)

/-- The first loop of `fixArguments`, with the arguments that are fixed already. -/
def fixNames (fixed : List PluginSpec) : List PluginSpec → Except ResolveException (List PluginSpec)
  | [] => .ok fixed
  | a :: arguments =>
    let all := fixed ++ a :: arguments
    let a := if (all.countP fun spec => spec.name = a.name) = 1 ∧ a.isRefNumber then
        { a with refname := a.name, validRef := PluginSpec.validRefName_name a.validName }
      else a
    let identical := (fixed ++ a :: arguments).countP fun spec => spec.refname = a.refname
    if 1 < identical then
      .error (.parse (str "identical reference names found for plugin: " ++ a.getFullName))
    else fixNames (fixed ++ [a]) arguments

/-- The second loop of `fixArguments`. -/
def fixCounter (counter : ℕ) : List PluginSpec → List PluginSpec
  | [] => []
  | a :: arguments =>
    if a.isRefNumber then a.setRefNumber counter :: fixCounter (counter + 1) arguments
    else a :: fixCounter counter arguments

def fixArguments (arguments : List PluginSpec) : Except ResolveException (List PluginSpec) := do
  let arguments ← fixNames [] arguments
  .ok (fixCounter 0 arguments)

/-- The arguments are separated by blanks. -/
def parseArguments (cmdline : Str) : Except ResolveException (List PluginSpec) := do
  let (arguments, _) ← (cmdline.splitOn 32).foldlM processArgument ([], 0)
  fixArguments arguments

/-! ## The status of a plugin -/

def statusMap : List (Str × ℤ) :=
  [(str "default", 64000), (str "recommended", 32000), (str "productive", 8000), (str "maintained", 4000),
    (str "reviewed", 4000), (str "conformant", 2000), (str "compatible", 2000), (str "coverage", 2000),
    (str "specific", 1000), (str "unittest", 1000), (str "shelltest", 1000), (str "tested", 500),
    (str "nodep", 250), (str "libc", 250), (str "configurable", 50), (str "final", 50), (str "global", 1),
    (str "readonly", 0), (str "writeonly", 0), (str "preview", -50), (str "memleak", -250),
    (str "experimental", -500), (str "difficult", -500), (str "limited", -750), (str "unfinished", -1000),
    (str "old", -1000), (str "nodoc", -1000), (str "concept", -2000), (str "orphan", -4000),
    (str "obsolete", -4000), (str "discouraged", -32000)]

inductive StoiException
  | invalidArgument
  | outOfRange

/-- `std::stoi` of a word: a sign and digits, whatever follows them. -/
def stoi (s : Str) : Except StoiException ℤ :=
  let (negative, s) := match s with
    | 45 :: s => (true, s)
    | 43 :: s => (false, s)
    | s => (false, s)
  if s.takeWhile isdigit = [] then .error .invalidArgument
  else
    let n : ℤ := if negative then -(atoi s : ℤ) else atoi s
    if -2147483648 ≤ n ∧ n ≤ 2147483647 then .ok n else .error .outOfRange

/-- None when a number is out of range. -/
def calculateStatus (statusString : Str) : Option ℤ :=
  (words statusString).foldlM (fun ret status =>
    match statusMap.lookup status with
    | some s => some (ret + s)
    | none =>
      match stoi status with
      | .ok n => some (ret + n)
      | .error .invalidArgument => some ret
      | .error .outOfRange => none) 0

/-! ## The database -/

inductive Status
  | provides
  | real
  | missing
  deriving DecidableEq, Repr

/-- The clauses of each plugin; `checkconf` is that of all of them, and `what` the text of an exception for
a number that is out of range. -/
structure MockPluginDatabase where
  data : List (PluginSpec × List (Str × Str))
  checkconf : Option (List Key → ℤ × List Key)
  what : Str

namespace MockPluginDatabase

variable (db : MockPluginDatabase)

/-- The plugins are found by their names. -/
def find (name : Str) : Option (PluginSpec × List (Str × Str)) := db.data.find? fun e => e.1.name = name

def lookupInfo (spec : PluginSpec) (which : Str) : Str :=
  (db.find spec.name).elim [] fun e => (e.2.lookup which).getD []

/-- The words of a clause. -/
def clause (which : Str) (spec : PluginSpec) : List Str := words (db.lookupInfo spec which)

def hasProvides (which : Str) : Bool := db.data.any fun e => (db.clause (str "provides") e.1).contains which

def status (spec : PluginSpec) : Status :=
  if (db.find spec.name).isSome then .real else if db.hasProvides spec.name then .provides else .missing

/-- The plugins that offer something, the first of each status, and what was thrown. -/
def foundPlugins (offers : PluginSpec → Bool) : List (ℤ × PluginSpec) × Str :=
  db.data.foldl (fun found e =>
    if offers e.1 then
      match calculateStatus (db.lookupInfo e.1 (str "status")) with
      | some s =>
        if found.1.any fun p => p.1 = s then found
        else (found.1 ++ [(s, PluginSpec.ofName e.1.name e.1.validName)], found.2)
      | none => (found.1, found.2 ++ db.what ++ str ",")
    else found) ([], [])

/-- The plugin of the highest status. -/
def largest : List (ℤ × PluginSpec) → Option (ℤ × PluginSpec)
  | [] => none
  | p :: found =>
    match largest found with
    | some q => some (if p.1 < q.1 then q else p)
    | none => some p

/-- The plugin that is suited best. -/
def bestSuited (which : Str) (offers : PluginSpec → Bool) : Except BuilderException PluginSpec :=
  let (found, errors) := db.foundPlugins offers
  match largest found with
  | some p => .ok p.2
  | none =>
    let message := str "No plugin that provides " ++ which ++ str " could be found"
    .error (.noPlugin (if errors = [] then message else message ++ str ", got errors: " ++ errors))

def lookupMetadata (which : Str) : Except BuilderException PluginSpec :=
  db.bestSuited which fun spec => (db.clause (str "metadata") spec).contains which

/-- The plugin of that name, or one that provides it. -/
def lookupProvides (which : Str) : Except BuilderException PluginSpec :=
  match db.find which with
  | some e => .ok (PluginSpec.ofName e.1.name e.1.validName)
  | none => db.bestSuited which fun spec =>
    spec.name = which || (db.clause (str "provides") spec).contains which

/-- As the builder sees it. -/
def database : PluginDatabase where
  lookupProvides := db.lookupProvides
  lookupInfo spec which := .ok (db.lookupInfo spec which)
  checkconf _ := db.checkconf

/-! ## What is found -/

variable {db}

theorem clause_name {spec spec' : PluginSpec} (h : spec.name = spec'.name) (which : Str) :
    db.clause which spec = db.clause which spec' := by
  rw [clause, clause, lookupInfo, lookupInfo, h]

theorem mem_largest : ∀ {found : List (ℤ × PluginSpec)} {p : ℤ × PluginSpec}, largest found = some p →
    p ∈ found
  | q :: found, p, h => by
    rw [largest] at h
    cases hl : largest found with
    | some r =>
      rw [hl] at h
      have hr := mem_largest hl
      dsimp only at h
      split_ifs at h with hlt
      · cases h
        exact List.mem_cons_of_mem q hr
      · cases h
        exact List.mem_cons_self
    | none =>
      rw [hl] at h
      cases h
      exact List.mem_cons_self

theorem mem_foundPlugins {offers : PluginSpec → Bool} {p : ℤ × PluginSpec}
    (h : p ∈ (db.foundPlugins offers).1) :
    ∃ e ∈ db.data, offers e.1 = true ∧ p.2 = PluginSpec.ofName e.1.name e.1.validName := by
  unfold foundPlugins at h
  generalize db.data = data at h ⊢
  induction data using List.reverseRecOn with
  | nil => cases h
  | append_singleton data e ih =>
    rw [List.foldl_append, List.foldl_cons, List.foldl_nil] at h
    generalize data.foldl _ _ = found at h ih
    have hold : p ∈ found.1 → ∃ e' ∈ data ++ [e], offers e'.1 = true ∧
        p.2 = PluginSpec.ofName e'.1.name e'.1.validName := fun hp => by
      obtain ⟨e', he', hrest⟩ := ih hp
      exact ⟨e', List.mem_append_left _ he', hrest⟩
    split_ifs at h with hoffers
    · cases hs : calculateStatus (db.lookupInfo e.1 (str "status")) with
      | none =>
        rw [hs] at h
        exact hold h
      | some s =>
        rw [hs] at h
        dsimp only at h
        split_ifs at h
        · exact hold h
        · obtain hp | hp := List.mem_append.mp h
          · exact hold hp
          · rw [List.mem_singleton.mp hp]
            exact ⟨e, by simp, hoffers, rfl⟩
    · exact hold h

theorem bestSuited_spec {which : Str} {offers : PluginSpec → Bool} {spec : PluginSpec}
    (h : db.bestSuited which offers = .ok spec) :
    ∃ e ∈ db.data, offers e.1 = true ∧ spec = PluginSpec.ofName e.1.name e.1.validName := by
  unfold bestSuited at h
  dsimp only at h
  split at h
  · rename_i p hp
    cases h
    exact mem_foundPlugins (mem_largest hp)
  · cases h

theorem find_some {name : Str} {e : PluginSpec × List (Str × Str)} (h : db.find name = some e) :
    e ∈ db.data ∧ e.1.name = name :=
  ⟨List.mem_of_find?_eq_some h, by simpa using List.find?_some h⟩

/-- The plugins of the database. -/
def listAllPlugins (db : MockPluginDatabase) : List Str := db.data.map fun e => e.1.name

/-- **What is found for a name has it, or provides it.** -/
theorem lookupProvides_spec {which : Str} {spec : PluginSpec} (h : db.lookupProvides which = .ok spec) :
    spec.name ∈ db.listAllPlugins ∧ spec.config = [] ∧
      (spec.name = which ∨ which ∈ db.clause (str "provides") spec) := by
  unfold lookupProvides at h
  split at h
  · rename_i e he
    cases h
    obtain ⟨hmem, hname⟩ := find_some he
    exact ⟨List.mem_map_of_mem hmem, rfl, .inl hname⟩
  · obtain ⟨e, hmem, hoffers, rfl⟩ := bestSuited_spec h
    rw [Bool.or_eq_true, decide_eq_true_iff, List.contains_iff_mem] at hoffers
    exact ⟨List.mem_map_of_mem hmem, rfl, hoffers⟩

/-- **What is found for metadata handles it.** -/
theorem lookupMetadata_spec {which : Str} {spec : PluginSpec} (h : db.lookupMetadata which = .ok spec) :
    spec.name ∈ db.listAllPlugins ∧ spec.refname = spec.name ∧ which ∈ db.clause (str "metadata") spec := by
  obtain ⟨e, hmem, hoffers, rfl⟩ := bestSuited_spec h
  exact ⟨List.mem_map_of_mem hmem, rfl, List.contains_iff_mem.mp hoffers⟩

theorem lookupProvides_name {name : Str} {spec : PluginSpec} (hname : name ∈ db.listAllPlugins)
    (h : db.lookupProvides name = .ok spec) : spec.name = name := by
  unfold lookupProvides at h
  split at h
  · rename_i e he
    cases h
    exact (find_some he).2
  · rename_i hnone
    obtain ⟨e, hmem, rfl⟩ := List.mem_map.mp hname
    have hne := List.find?_eq_none.mp hnone e hmem
    simp at hne

end MockPluginDatabase

end Elektra.Tools
