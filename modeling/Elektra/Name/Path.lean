import Elektra.Name.Escape

/-!
# What a name means

A key stands at a path: a root (a namespace, or none for a cascading key) and a list of parts, which
are arbitrary C strings. The name and the unescaped name are two renderings of it.

* `Path`, `Path.name`, `Path.uname`;
* `levels_name`, **`unescapeKeyName_name`**: scanning and unescaping the name;
* `Path.ext_escaped`, **`name_injective`**, **`uname_injective`**: either rendering determines the path;
* `pathReduce`: what the levels `.` and `..` do to a list of levels.
-/

namespace Elektra

/-- The namespaces of stored keys, in the order of `elektraNamespace`. -/
inductive Namespace
  | spec | proc | dir | user | system
  deriving DecidableEq, Repr

def Namespace.name : Namespace → Str
  | spec => str "spec"
  | proc => str "proc"
  | dir => str "dir"
  | user => str "user"
  | system => str "system"

/-- Where a path starts. -/
inductive Root
  | cascading
  | ns (n : Namespace)
  deriving DecidableEq, Repr

/-- The first level of the names under a root; a cascading name has none. -/
def Root.level : Root → Str
  | cascading => []
  | ns n => n.name

/-- The place of a key. -/
structure Path where
  root : Root
  parts : List CString
  deriving DecidableEq

theorem Root.ns_ne (m : Namespace) : Root.ns m ≠ .cascading := nofun

namespace Path

/-- The parts as they stand in the name. -/
def escaped (P : Path) : List Str := P.parts.map fun s => elektraEscapeKeyNamePart s.1

/-- The name, but for the separator of the cascading root. -/
def stem (P : Path) : Str := P.root.level ++ join P.escaped

/-- The name. -/
def name (P : Path) : Str := if P.stem = [] then [pathSeparator] else P.stem

/-- The unescaped name: root and parts, each NUL-terminated. -/
def uname (P : Path) : Str :=
  (P.root.level ++ [0]) ++ P.parts.flatMap fun s => s.1 ++ [0]

/-- One part below. -/
def add (P : Path) (s : CString) : Path := { P with parts := P.parts ++ [s] }

/-- One part less; a root is its own parent. -/
def parent (P : Path) : Path := { P with parts := P.parts.dropLast }

end Path

/-- The effect of one level on a list of levels. -/
def pathStep (parts : List Str) (level : Str) : List Str :=
  if level = str "." then parts else if level = str ".." then parts.dropLast else parts ++ [level]

/-- Levels read as a file system path, from `parts` on. -/
def pathReduce (parts : List Str) (path : List Str) : List Str := path.foldl pathStep parts

/-! ## Roots -/

theorem Namespace.isLevel (n : Namespace) : IsLevel n.name := by
  cases n <;>
    exact ⟨by decide, by simp [name, str, Unbroken, pathEscape, pathSeparator]⟩

theorem Namespace.closed (n : Namespace) : Closed n.name := by
  cases n <;> rfl

theorem Namespace.name_injective : Function.Injective Namespace.name := by
  intro m n h
  cases m <;> cases n <;> first | rfl | exact absurd h (by decide)

theorem Namespace.name_ne_nil (n : Namespace) : n.name ≠ [] := n.isLevel.ne_nil

theorem Namespace.nul_name (n : Namespace) : 0 ∉ n.name := by
  cases n <;> decide

theorem Namespace.unescape_name (n : Namespace) : unescapeLevel n.name = n.name := by
  cases n <;> rfl

theorem Root.level_injective : Function.Injective Root.level := by
  intro r r' h
  cases r with
  | cascading =>
    cases r' with
    | cascading => rfl
    | ns n => exact absurd h.symm n.name_ne_nil
  | ns m =>
    cases r' with
    | cascading => exact absurd h m.name_ne_nil
    | ns n => exact congrArg Root.ns (Namespace.name_injective h)

theorem Root.nul_level (r : Root) : 0 ∉ r.level := by
  cases r with
  | cascading => simp [level]
  | ns n => exact n.nul_name

/-! ## Renderings -/

namespace Path

theorem isPart_of_mem {P : Path} {p : Str} (h : p ∈ P.escaped) : IsPart p := by
  obtain ⟨s, -, rfl⟩ := List.mem_map.mp h
  exact isPart_escape _

@[simp] theorem escaped_add (P : Path) (s : CString) :
    (P.add s).escaped = P.escaped ++ [elektraEscapeKeyNamePart s.1] := by
  simp [escaped, add]

@[simp] theorem escaped_parent (P : Path) : P.parent.escaped = P.escaped.dropLast := by
  simp [escaped, parent, List.map_dropLast]

theorem stem_add (P : Path) (s : CString) :
    (P.add s).stem = P.stem ++ pathSeparator :: elektraEscapeKeyNamePart s.1 := by
  simp [stem, join_append, add, escaped]

theorem stem_eq_nil {P : Path} : P.stem = [] ↔ P.root = .cascading ∧ P.parts = [] := by
  obtain ⟨r, ps⟩ := P
  cases r with
  | cascading => cases ps <;> simp [stem, escaped, Root.level]
  | ns n => simp [stem, Root.level, n.name_ne_nil]

theorem name_add (P : Path) (s : CString) :
    (P.add s).name = P.stem ++ pathSeparator :: elektraEscapeKeyNamePart s.1 := by
  rw [name, if_neg, stem_add]
  rw [stem_add]
  simp

theorem name_ne_nil (P : Path) : P.name ≠ [] := by
  rw [name]
  split_ifs with h
  · simp
  · exact h

theorem levels_stem (P : Path) : levels P.stem =
    (if P.root = .cascading then [] else [P.root.level]) ++ P.escaped := by
  have hjoin : levels (join P.escaped) = P.escaped :=
    levels_join fun p hp => ⟨(isPart_of_mem hp).toIsLevel, (isPart_of_mem hp).closed⟩
  rw [stem]
  cases P.root with
  | cascading => simpa [Root.level] using hjoin
  | ns n =>
    rw [Root.level, levels_level_join n.isLevel n.closed, hjoin]
    simp

/-- The levels of a name: the root, when there is one, and the escaped parts. -/
theorem levels_name (P : Path) : levels P.name =
    (if P.root = .cascading then [] else [P.root.level]) ++ P.escaped := by
  rw [← levels_stem, name]
  split_ifs with h
  · rw [h, levels_separator]
  · rfl

theorem head_name (P : Path) : P.name.head? = some pathSeparator ↔ P.root = .cascading := by
  rw [name]
  obtain ⟨r, ps⟩ := P
  cases r with
  | cascading => cases ps <;> simp [stem, escaped, Root.level]
  | ns n => cases n <;> simp [stem, Root.level, Namespace.name, str, pathSeparator]

theorem flatMap_unescape (P : Path) : (P.escaped.flatMap fun l => unescapeLevel l ++ [0]) =
    P.parts.flatMap fun s => s.1 ++ [0] := by
  rw [escaped, List.flatMap_map]
  simp only [unescape_escape]

/-- **Unescaping the name of a path gives its unescaped name.** -/
theorem unescapeKeyName_name (P : Path) : elektraUnescapeKeyName P.name = P.uname := by
  rw [elektraUnescapeKeyName, levels_name, uname, List.flatMap_append, flatMap_unescape,
    ← List.append_assoc]
  congr 1
  simp only [head_name]
  cases P.root with
  | cascading => simp [Root.level]
  | ns n => simp [Root.level, n.unescape_name]

theorem nul_name (P : Path) : 0 ∉ P.name := by
  have hjoin : 0 ∉ join P.escaped := by
    simp only [join, escaped, List.mem_flatMap, List.mem_map, List.mem_cons]
    rintro ⟨p, ⟨s, -, rfl⟩, h | h⟩
    · exact absurd h (by decide)
    · exact nul_escape s.2 h
  rw [name]
  split_ifs with h
  · decide
  · rw [stem, List.mem_append, not_or]
    exact ⟨P.root.nul_level, hjoin⟩

theorem ext_escaped {P Q : Path} (hr : P.root = Q.root) (he : P.escaped = Q.escaped) : P = Q := by
  obtain ⟨r, ps⟩ := P
  obtain ⟨r', qs⟩ := Q
  obtain rfl : r = r' := hr
  have hinj : Function.Injective fun s : CString => elektraEscapeKeyNamePart s.1 := by
    intro s t h
    have := congrArg unescapeLevel h
    simp only [unescape_escape] at this
    exact Subtype.ext this
  exact congrArg (Path.mk r) (List.map_injective_iff.mpr hinj he)

end Path

/-! ## NUL-terminated strings -/

/-- Strings one after the other, each NUL-terminated. -/
def terminate (ps : List CString) : Str := ps.flatMap fun s => s.1 ++ [0]

@[simp] theorem terminate_nil : terminate [] = [] := rfl

@[simp] theorem terminate_cons (s : CString) (ps : List CString) :
    terminate (s :: ps) = s.1 ++ 0 :: terminate ps := by
  simp [terminate]

theorem terminate_append (ps qs : List CString) :
    terminate (ps ++ qs) = terminate ps ++ terminate qs := by
  simp [terminate]

theorem prefix_nul {x y A B : Str} (hx : 0 ∉ x) (hy : 0 ∉ y) :
    x ++ 0 :: A <+: y ++ 0 :: B ↔ x = y ∧ A <+: B := by
  induction x generalizing y with
  | nil =>
    cases y with
    | nil => simp [List.cons_prefix_cons]
    | cons d y =>
      simp only [List.mem_cons, not_or] at hy
      simp [List.cons_prefix_cons, hy.1]
  | cons c x ih =>
    simp only [List.mem_cons, not_or] at hx
    cases y with
    | nil => simp [List.cons_prefix_cons, Ne.symm hx.1]
    | cons d y =>
      simp only [List.mem_cons, not_or] at hy
      rw [List.cons_append, List.cons_append, List.cons_prefix_cons, ih hx.2 hy.2, ← and_assoc,
        List.cons.injEq]

/-- **A prefix of NUL-terminated strings is a prefix of the list.** -/
theorem terminate_prefix {ps qs : List CString} : terminate ps <+: terminate qs ↔ ps <+: qs := by
  induction ps generalizing qs with
  | nil => simp
  | cons p ps ih =>
    cases qs with
    | nil => simp
    | cons q qs =>
      rw [terminate_cons, terminate_cons, prefix_nul p.2 q.2, ih, List.cons_prefix_cons,
        Subtype.ext_iff]

/-- The first level as a C string. -/
def Root.token (r : Root) : CString := ⟨r.level, r.nul_level⟩

theorem Root.token_injective : Function.Injective Root.token := fun _ _ h =>
  Root.level_injective (congrArg Subtype.val h)

namespace Path

theorem uname_eq (P : Path) : P.uname = terminate (P.root.token :: P.parts) := rfl

theorem uname_prefix {P Q : Path} :
    P.uname <+: Q.uname ↔ P.root = Q.root ∧ P.parts <+: Q.parts := by
  rw [uname_eq, uname_eq, terminate_prefix, List.cons_prefix_cons, Root.token_injective.eq_iff]

/-- **The unescaped name determines the path.** -/
theorem uname_injective : Function.Injective uname := by
  intro P Q h
  obtain ⟨hr, hp⟩ := uname_prefix.mp (h ▸ List.prefix_rfl : P.uname <+: Q.uname)
  obtain ⟨-, hq⟩ := uname_prefix.mp (h ▸ List.prefix_rfl : Q.uname <+: P.uname)
  obtain ⟨r, ps⟩ := P
  obtain ⟨r', qs⟩ := Q
  obtain rfl : r = r' := hr
  exact congrArg (Path.mk r) (hp.eq_of_length_le hq.length_le)

/-- **The name determines the path.** -/
theorem name_injective : Function.Injective name := by
  intro P Q h
  apply uname_injective
  rw [← unescapeKeyName_name, ← unescapeKeyName_name, h]

end Path

end Elektra
