import Elektra.Name.Level
import Elektra.Trie.Longest
import Mathlib.Data.List.DropRight

/-!
# The file of the dir namespace

The configuration file of a directory is searched from the working directory upwards.

* `dirname`, `filenameIn`, `upwards`, `elektraResolveDir`;
* `Directory`, `Directory.path`, `dirname_path`: absolute directories, and the one above;
* `Chosen`: the file in the deepest directory that has one;
* **`elektraResolveDir_iff`**: where the search gives that file.
-/

namespace Elektra.Resolver.Filename

open Longest

/-! ## The code -/

/-- `KDB_DB_DIR`, as it is built by default. -/
def dbDir : Str := str ".dir"

/-- The strings of `resolverHandle`, as far as they are about one file. -/
structure ResolverHandle where
  dirname : Str
  filename : Str
  tempfile : Str
  path : Str
  deriving DecidableEq, Repr

/-- `dirname` of the C library -/
def dirname (s : Str) : Str :=
  let base := s.rdropWhile (· = pathSeparator)
  if base = [] then if s = [] then str "." else [pathSeparator]
  else
    let parent := base.rdropWhile (· ≠ pathSeparator)
    if parent = [] then str "."
    else
      let parent := parent.rdropWhile (· = pathSeparator)
      if parent = [] then [pathSeparator] else parent

/-- `stamp` is made of the process and the time. -/
def elektraResolveFinishByFilename (stamp : Str) (p : ResolverHandle) : ResolverHandle :=
  { p with dirname := dirname p.filename, tempfile := p.filename ++ stamp }

/-- The file name that is put together for the directory `dn`. -/
def filenameIn (path dn : Str) : Str :=
  if path.head? = some pathSeparator then dn ++ path
  else dn ++ [pathSeparator] ++ dbDir ++ [pathSeparator] ++ path

/-- The loop, and the `dn` it stops at; `none` if that takes more steps. -/
def upwards (stat : Str → Bool) (path : Str) : ℕ → Str → Option Str
  | 0, _ => none
  | fuel + 1, dn =>
    if stat (filenameIn path dn) then some dn
    else if dn = [pathSeparator] then some dn
    else upwards stat path fuel (dirname dn)

/-- `stat` says which files exist, `cwd` is what `elektraGetCwd` gives. -/
def elektraResolveDir (stat : Str → Bool) (stamp : Str) (cwd : Option Str) (p : ResolverHandle) :
    Option ResolverHandle :=
  let cwd := cwd.getD [pathSeparator]
  (upwards stat p.path (cwd.length + 1) cwd).map fun dn =>
    let filename := if dn = [pathSeparator] then filenameIn p.path cwd else filenameIn p.path dn
    elektraResolveFinishByFilename stamp { p with filename := filename }

/-! ## Directories -/

/-- The name of a directory in the one above. -/
structure Component where
  name : Str
  ne : name ≠ []
  plain : ∀ c ∈ name, c ≠ pathSeparator

/-- An absolute directory, from the root on. -/
abbrev Directory := List Component

/-- The string for a directory. -/
def Directory.path (d : Directory) : Str :=
  if d = [] then [pathSeparator] else d.flatMap fun c => pathSeparator :: c.name

namespace Directory

variable {d : Directory} {c : Component}

/-- The string without the separator for the root. -/
def flat (d : Directory) : Str := d.flatMap fun c => pathSeparator :: c.name

theorem flat_concat : flat (d ++ [c]) = flat d ++ [pathSeparator] ++ c.name := by
  rw [flat, List.flatMap_append, List.flatMap_singleton, ← flat, List.append_cons]

theorem path_nil : path [] = [pathSeparator] := rfl

theorem path_of_ne (h : d ≠ []) : path d = flat d := by
  rw [path, if_neg h, flat]

theorem flat_ne (h : d ≠ []) : flat d ≠ [] := by
  cases d with
  | nil => exact absurd rfl h
  | cons c d => exact List.cons_ne_nil _ _

theorem length_le_flat : d.length ≤ (flat d).length := by
  induction d with
  | nil => exact le_rfl
  | cons c d ih =>
    rw [flat, List.flatMap_cons, ← flat, List.length_append, List.length_cons, List.length_cons]
    omega

theorem length_le_path : d.length ≤ (path d).length := by
  by_cases h : d = []
  · rw [h]
    exact Nat.zero_le _
  · rw [path_of_ne h]
    exact length_le_flat

theorem path_eq_root : path d = [pathSeparator] ↔ d = [] := by
  constructor
  · intro h
    by_contra hne
    obtain ⟨c, d, rfl⟩ := List.exists_cons_of_ne_nil hne
    rw [path_of_ne hne, flat, List.flatMap_cons, List.cons_append] at h
    exact c.ne (List.append_eq_nil_iff.mp (List.cons.inj h).2).1
  · rintro rfl
    rfl

theorem flat_last : (flat d).rdropWhile (· = pathSeparator) = flat d := by
  rw [List.rdropWhile_eq_self_iff]
  intro hne
  have hd : d ≠ [] := by
    rintro rfl
    exact hne rfl
  obtain ⟨d, c, rfl⟩ := List.eq_nil_or_concat' d |>.resolve_left hd
  have hlast : (flat (d ++ [c])).getLast hne = c.name.getLast c.ne := by
    simp only [flat_concat]
    exact List.getLast_append_of_right_ne_nil _ _ c.ne
  rw [hlast, decide_eq_true_iff]
  exact c.plain _ (List.getLast_mem c.ne)

/-- **The directory above.** -/
theorem dirname_path : dirname (path (d ++ [c])) = path d := by
  have hne : d ++ [c] ≠ [] := List.append_ne_nil_of_right_ne_nil d (List.cons_ne_nil c [])
  have hparent : (flat (d ++ [c])).rdropWhile (· ≠ pathSeparator) = flat d ++ [pathSeparator] := by
    have hname : ∀ x ∈ c.name.reverse, decide (x ≠ pathSeparator) = true := fun x hx =>
      decide_eq_true (c.plain x (List.mem_reverse.mp hx))
    rw [flat_concat, List.rdropWhile, List.reverse_append, List.dropWhile_append_of_pos hname, ← List.rdropWhile,
      List.rdropWhile_concat_neg]
    simp
  have hroot : (flat d ++ [pathSeparator]).rdropWhile (· = pathSeparator) = flat d := by
    rw [List.rdropWhile_concat_pos _ _ _ (by simp), flat_last]
  rw [dirname, path_of_ne hne, flat_last, hparent]
  dsimp only
  rw [if_neg (flat_ne hne), if_neg (List.append_ne_nil_of_right_ne_nil _ (List.cons_ne_nil _ _)), hroot]
  by_cases hd : d = []
  · rw [hd, flat, List.flatMap_nil, if_pos rfl, path_nil]
  · rw [if_neg (flat_ne hd), path_of_ne hd]

end Directory

/-! ## The search -/

section Search

variable {stat : Str → Bool} {path : Str} {d : Directory} {f : Str}

variable (path) in
/-- The name of the file in a directory. -/
def fileOf (d : Directory) : Str := filenameIn path d.path

theorem filenameIn_injective {dn dn' : Str} (h : filenameIn path dn = filenameIn path dn') : dn = dn' := by
  unfold filenameIn at h
  split_ifs at h
  · exact List.append_cancel_right h
  · simpa using h

variable (stat path) in
/-- **The file of the deepest directory that has it**, from `d` up to the root, or else the one of `d`. -/
def Chosen (d : Directory) (f : Str) : Prop :=
  (∃ a, a <+: d ∧ stat (fileOf path a) = true ∧
    (∀ b, b <+: d → stat (fileOf path b) = true → b.length ≤ a.length) ∧ f = fileOf path a) ∨
  (∀ a, a <+: d → stat (fileOf path a) = false) ∧ f = fileOf path d

variable (stat path) in
/-- A directory with the file. -/
def located (a : Directory) : Option Directory := if stat (fileOf path a) then some a else none

theorem located_eq_some {a b : Directory} : located stat path a = some b ↔ stat (fileOf path a) = true ∧ a = b := by
  rw [located]
  split_ifs with h
  · simp [h]
  · simp [h]

theorem located_isSome {a : Directory} : (located stat path a).isSome ↔ stat (fileOf path a) = true := by
  rw [located]
  split_ifs with h
  · simp [h]
  · simp [h]

theorem located_eq_none {a : Directory} : located stat path a = none ↔ stat (fileOf path a) = false := by
  rw [located]
  split_ifs with h
  · simp [h]
  · simp [h]

theorem chosen_iff : Chosen stat path d f ↔ f = fileOf path ((longest (located stat path) d).getD d) := by
  cases h : longest (located stat path) d with
  | none =>
    have hnone := longest_eq_none.mp h
    constructor
    · rintro (⟨a, ha, hstat, -⟩ | ⟨-, hf⟩)
      · rw [located_eq_none.mp (hnone a ha)] at hstat
        cases hstat
      · exact hf
    · exact fun hf => .inr ⟨fun a ha => located_eq_none.mp (hnone a ha), hf⟩
  | some a =>
    obtain ⟨a', ha, hloc, hmax⟩ := longest_eq_some.mp h
    obtain ⟨hstat, ha'⟩ := located_eq_some.mp hloc
    rw [ha'] at ha hstat hmax
    constructor
    · rintro (⟨b, hb, hbstat, hbmax, hf⟩ | ⟨hnone, -⟩)
      · have hlen : b.length = a.length :=
          le_antisymm (hmax b hb (located_isSome.mpr hbstat)) (hbmax a ha hstat)
        rw [hf, Option.getD_some, (List.prefix_of_prefix_length_le hb ha hlen.le).eq_of_length hlen]
      · rw [hnone a ha] at hstat
        cases hstat
    · exact fun hf => .inl ⟨a, ha, hstat, fun b hb hbstat => hmax b hb (located_isSome.mpr hbstat), hf⟩

/-- The loop ends at the deepest directory with the file, or at the root. -/
theorem upwards_path : ∀ {d : Directory} {fuel : ℕ}, d.length < fuel →
    upwards stat path fuel d.path = some ((longest (located stat path) d).getD []).path := by
  intro d
  induction d using List.reverseRecOn with
  | nil =>
    intro fuel hfuel
    obtain ⟨fuel, rfl⟩ := Nat.exists_eq_succ_of_ne_zero (Nat.ne_of_gt hfuel)
    rw [upwards, Directory.path_nil, if_pos rfl, ite_self, longest, located]
    split_ifs <;> rfl
  | append_singleton d c ih =>
    intro fuel hfuel
    rw [List.length_append, List.length_singleton] at hfuel
    obtain ⟨fuel, rfl⟩ := Nat.exists_eq_succ_of_ne_zero (Nat.ne_of_gt (Nat.zero_lt_of_lt hfuel))
    rw [upwards, longest_concat, located]
    by_cases hstat : stat (filenameIn path (Directory.path (d ++ [c]))) = true
    · rw [if_pos hstat, if_pos (by exact hstat), Option.some_or, Option.getD_some]
    · have hroot : Directory.path (d ++ [c]) ≠ [pathSeparator] := fun h =>
        List.append_ne_nil_of_right_ne_nil d (List.cons_ne_nil c []) (Directory.path_eq_root.mp h)
      rw [if_neg hstat, if_neg hroot, if_neg (by exact hstat), Option.none_or, Directory.dirname_path]
      exact ih (by omega)

/-- **Which file is chosen.** The file of the root is not chosen for another directory. -/
theorem elektraResolveDir_iff (stat : Str → Bool) (stamp : Str) (d : Directory) (p : ResolverHandle) :
    (∃ q, elektraResolveDir stat stamp (some d.path) p = some q ∧ Chosen stat p.path d q.filename) ↔
      (stat (fileOf p.path []) = true → d = [] ∨ ∃ a, a <+: d ∧ a ≠ [] ∧ stat (fileOf p.path a) = true) := by
  have hloop : upwards stat p.path (d.path.length + 1) d.path =
      some ((longest (located stat p.path) d).getD []).path :=
    upwards_path (Nat.lt_succ_of_le Directory.length_le_path)
  have hcode : (∃ q, elektraResolveDir stat stamp (some d.path) p = some q ∧ Chosen stat p.path d q.filename) ↔
      (if (longest (located stat p.path) d).getD [] = [] then fileOf p.path d
        else fileOf p.path ((longest (located stat p.path) d).getD [])) =
      fileOf p.path ((longest (located stat p.path) d).getD d) := by
    simp only [elektraResolveDir, Option.getD_some, hloop, Option.map_some, Option.some.injEq, exists_eq_left',
      chosen_iff, elektraResolveFinishByFilename, Directory.path_eq_root, fileOf]
  rw [hcode]
  cases h : longest (located stat p.path) d with
  | none =>
    refine iff_of_true (if_pos rfl) fun hroot => ?_
    rw [located_eq_none.mp (longest_eq_none.mp h [] List.nil_prefix)] at hroot
    cases hroot
  | some a =>
    obtain ⟨a', ha, hloc, hmax⟩ := longest_eq_some.mp h
    obtain ⟨hstat, ha'⟩ := located_eq_some.mp hloc
    rw [ha'] at ha hstat hmax
    rw [Option.getD_some, Option.getD_some]
    by_cases hnil : a = []
    · subst hnil
      rw [if_pos rfl]
      constructor
      · intro heq _
        exact .inl (Directory.path_eq_root.mp (filenameIn_injective heq))
      · intro hcond
        obtain rfl | ⟨b, hb, hne, hbstat⟩ := hcond hstat
        · rfl
        · -- there is none below the root
          exact absurd (List.eq_nil_of_length_eq_zero
            (Nat.le_zero.mp (hmax b hb (located_isSome.mpr hbstat)))) hne
    · exact iff_of_true (if_neg hnil) fun _ => .inr ⟨a, ha, hnil, hstat⟩

end Search

/-! ## A file in the root -/

theorem home_ne : str "home" ≠ [] := by decide

theorem home_plain : ∀ c ∈ str "home", c ≠ pathSeparator := by decide +kernel

/-- A directory with one component. -/
def home : Directory := [⟨str "home", home_ne, home_plain⟩]

/-- The file of the root is there, and no other. -/
def onlyRoot (s : Str) : Bool := s == str "//.dir/app.ini" || s == str "/.dir/app.ini"

/-- The handle before the file is searched. -/
def unresolved : ResolverHandle := { dirname := [], filename := [], tempfile := [], path := str "app.ini" }

/-- **The file of the root is found and given up** for one that does not exist. -/
theorem root_given_up :
    (elektraResolveDir onlyRoot [] (some home.path) unresolved).map (·.filename) =
        some (str "/home/.dir/app.ini") ∧
      ¬ ∀ (stat : Str → Bool) (stamp : Str) (d : Directory) (p : ResolverHandle),
        ∃ q, elektraResolveDir stat stamp (some d.path) p = some q ∧ Chosen stat p.path d q.filename := by
  have hfile : (elektraResolveDir onlyRoot [] (some home.path) unresolved).map (·.filename) =
      some (str "/home/.dir/app.ini") := by decide +kernel
  refine ⟨hfile, fun h => ?_⟩
  obtain ⟨q, hq, hchosen⟩ := h onlyRoot [] home unresolved
  rw [hq, Option.map_some, Option.some.injEq] at hfile
  rw [hfile] at hchosen
  obtain ⟨a, -, hstat, -, hf⟩ | ⟨hnone, -⟩ := hchosen
  · rw [← hf] at hstat
    exact absurd hstat (by decide +kernel)
  · exact absurd (hnone [] List.nil_prefix) (by decide +kernel)

end Elektra.Resolver.Filename
