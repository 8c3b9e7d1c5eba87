import Elektra.Lookup.Model
import Elektra.Search.Choice

/-!
# Which key a name stands for

A lookup resolves a name against the content of a key set. A name of a namespace stands for the key
of that name. A cascading name stands for the first answer of several attempts, in order: with a key
of the specification, its overrides, the namespaces it lists, its fallbacks and its default; without,
the namespaces `proc`, `dir`, `user` and `system` and then the name itself.

* `Content`, `Query`, `Answer`;
* `attempts`, `resolution`; `Resolution`: the answer of a query;
* `Options.Plain`.
-/

namespace Elektra

open Choice

/-- A key, and what it specifies when it is one of the specification. -/
structure KeyInfo where
  ref : KeyRef
  name : Str
  /-- `override/#0`, `override/#1`, ... -/
  overrides : List Str
  /-- `namespace/#0`, `namespace/#1`, ... -/
  namespaces : List Str
  /-- `fallback/#0`, `fallback/#1`, ... -/
  fallbacks : List Str
  default : Option Str

/-- The key of a name. -/
abbrev Content := Str → Option KeyInfo

/-- A key of the key set, or a new key. -/
inductive Answer
  | found (k : KeyRef)
  | default (name value : Str)
  deriving DecidableEq

inductive Query
  | lookup (name : Option Str) (options : Options)
  | key (k : KeyRef)
  | default (name value : Str)
  /-- The name of a namespace that does not fit into the buffer. -/
  | overflow

/-- The option words of a lookup that neither adds nor removes keys nor looks for other names. -/
structure Options.Plain (o : Options) : Prop where
  del : o.del = false
  pop : o.pop = false
  nocase : o.nocase = false
  withowner : o.withowner = false
  noall : o.noall = false
  spec : o.spec = false
  create : o.create = false

/-- The options do not ask for cascading, or the name is one of a namespace. -/
def direct (name : Str) (o : Options) : Bool :=
  o.nocascading || decide (name.head? ≠ some pathSeparator)

/-- The name that a link gives to the key of its lookup. -/
def linkName (m : Str) : Option Str := (keyNewCascading m none).key

/-- Links are looked up without defaults. -/
def link (m : Str) : Query := .lookup (linkName m) { nodefault := true }

/-- The namespaces one after the other, and then the name itself. -/
def cascadingAttempts (name : Str) (o : Options) : List Query :=
  ([.proc, .dir, .user, .system] : List Namespace).map
      (fun ns => .lookup (some (ns.name ++ name)) o) ++
    if o.nodefault then [] else [.lookup (some name) { o with nocascading := true }]

/-- The namespaces that the specification lists; the default ones where there are none. -/
def namespaceAttempts (s : KeyInfo) (name : Str) : List Query :=
  match s.namespaces with
  | [] => cascadingAttempts name { nospec := true, nodefault := true }
  | l => l.map fun m => if 6 < m.length then .overflow else .lookup (some (m ++ name)) {}

/-- A key of that name that is there already, and the default of the specification. -/
def defaultAttempts (s : KeyInfo) (name : Str) : List Query :=
  .lookup (some name) { nocascading := true } :: s.default.toList.map (.default name)

/-- The attempts by a key of the specification. -/
def specAttempts (s : KeyInfo) (o : Options) : List Query :=
  let name := s.name.dropWhile (· ≠ pathSeparator)
  s.overrides.map link ++
    (namespaceAttempts s name ++
      (s.fallbacks.map link ++ if o.nodefault then [] else defaultAttempts s name))

/-- The attempts for a cascading name. -/
def attempts (c : Content) (name : Str) (o : Options) : List Query :=
  match if o.nospec then none else c (str "spec" ++ name) with
  | none => cascadingAttempts name o
  | some s => if (str "spec/").isPrefixOf s.name then specAttempts s o else [.key s.ref]

def resolution (c : Content) : Query → Step Query Answer Stop
  | .lookup none _ => .answer none
  | .lookup (some name) o =>
    if direct name o then .answer ((c name).map fun s => .found s.ref)
    else .attempt (attempts c name o)
  | .key k => .answer (some (.found k))
  | .default name value => .answer (some (.default name value))
  | .overflow => .error .buffer

/-- The answer of a query, given the content of the key set. -/
abbrev Resolution (c : Content) : Query → Option Answer → Prop := Resolves (resolution c)

theorem resolution_error {c : Content} {q : Query} {e : Stop} (h : resolution c q = .error e) :
    e ≠ .fuel := by
  intro he
  subst he
  cases q with
  | lookup name o =>
    cases name with
    | none => cases h
    | some name =>
      rw [resolution] at h
      split_ifs at h
  | key k => cases h
  | default name value => cases h
  | overflow => cases h

/-- No key of a namespace has that name. -/
def Quiet (c : Content) (name : Str) : Prop := ∀ ns ∈ namespaces, c (ns.name ++ name) = none

theorem eval_direct (c : Content) {name : Str} {o : Options} (hd : direct name o = true) (n : ℕ) :
    eval (resolution c) .fuel (n + 1) (.lookup (some name) o) =
      .ok ((c name).map fun s => .found s.ref) := by
  rw [eval, resolution, if_pos hd]

theorem eval_quiet {c : Content} {name : Str} {o : Options} (hno : o.nodefault = false)
    (hq : direct name o = true ∨ Quiet c name) (n : ℕ) :
    eval (resolution c) .fuel (n + 2) (.lookup (some name) o) =
      .ok ((c name).map fun s => .found s.ref) := by
  by_cases hd : direct name o = true
  · exact eval_direct c hd (n + 1)
  have hq := hq.resolve_left hd
  have hns : ∀ ns ∈ namespaces,
      eval (resolution c) .fuel (n + 1) (.lookup (some (ns.name ++ name)) o) = .ok none := by
    intro ns hns
    have hdirect : direct (ns.name ++ name) o = true := by
      refine (Bool.or_eq_true _ _).mpr (Or.inr ?_)
      cases ns <;> rfl
    rw [eval_direct c hdirect, hq ns hns, Option.map_none]
  have hspec : c (str "spec" ++ name) = none := hq .spec List.mem_cons_self
  have hattempts : attempts c name o = cascadingAttempts name o := by
    unfold attempts
    rw [hspec, ite_self]
  have hself : eval (resolution c) .fuel (n + 1) (.lookup (some name) { o with nocascading := true }) =
      .ok ((c name).map fun s => .found s.ref) := eval_direct c rfl n
  rw [eval, resolution, if_neg hd]
  dsimp only
  rw [hattempts, cascadingAttempts, if_neg (Bool.eq_false_iff.mp hno)]
  simp only [List.map_cons, List.map_nil, List.cons_append, List.nil_append]
  rw [first_cons, hns .proc (by decide), orElse_none, first_cons, hns .dir (by decide), orElse_none,
    first_cons, hns .user (by decide), orElse_none, first_cons, hns .system (by decide), orElse_none,
    first_singleton, hself]

end Elektra
