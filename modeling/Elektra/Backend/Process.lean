import Elektra.Kdb.Set
import Elektra.Search.Strings
import Mathlib.Data.UInt

/-!
# The names of the plugins in a mountpoint configuration

The base name of a configuration key is a position and a plugin, with or without a label that makes it
available later, or the label of a plugin that is used again.

* `elektraProcessPlugin`: the splitting, with the buffers it allocates;
* `Prescribed`: the grammar;
* **`elektraProcessPlugin_iff`**: the names that are refused or split as the grammar prescribes.
-/

namespace Elektra.Process

open Buffer

/-! ## The code -/

def hash : UInt8 := 35

def isDigit (c : UInt8) : Bool := 48 ≤ c && c ≤ 57

def NR_OF_PLUGINS : ℕ := 10

def prefixReferenceName : Str := str "system/elektra/plugins/"

/-- `sizeof (prefixReferenceName)` -/
def sizeofPrefix : ℕ := prefixReferenceName.length + 1

/-- The loop `while (*iter != '#')`: how often it advances. -/
def searchHash : Str → Option ℕ
  | [] => none
  | c :: iter => if c = hash then some 0 else (searchHash iter).map (· + 1)

/-- New memory holds anything; a size below zero is none that can be allocated. -/
def elektraMalloc (fresh : ℕ → UInt8) (size : ℤ) : Option Str :=
  if 0 ≤ size then some ((List.range size.toNat).map fresh) else none

/-- What a call leaves in the places its arguments point to; `none` is a place that is not written. -/
structure Processed where
  ret : ℤ
  pluginNumber : Option ℕ := none
  pluginName : Option Str := none
  referenceName : Option Str := none
  errorKey : Key

/-- `none` is a read or a write outside of the memory of the name or of a buffer, or an allocation of a size
below zero. -/
def elektraProcessPlugin (env : Environment) (fresh : ℕ → UInt8) (cur errorKey : Key) : Option Processed := do
  let baseName := keyBaseName cur
  let fullname := baseName ++ [0]
  let fullsize : ℤ := fullname.length
  if (← readAt fullname 0) ≠ hash then
    return { ret := -1, errorKey := env.addWarning 18 errorKey baseName }
  let digit ← readAt fullname 1
  if digit < 48 ∨ 57 < digit then
    return { ret := -1, errorKey := env.addWarning 19 errorKey baseName }
  let pluginNumber := digit.toNat - 48
  if NR_OF_PLUGINS < pluginNumber then
    return { ret := -1, pluginNumber, errorKey := env.addWarning 20 errorKey baseName }
  if (← readAt fullname 2) = hash then
    if (← readAt fullname (fullsize - 2)) = hash then
      let advanced ← searchHash (fullname.drop 3)
      let pluginNameSize := advanced + 1
      let pluginName ← elektraMalloc fresh pluginNameSize
      let pluginName ← strncpy pluginName (fullname.drop 3) pluginNameSize
      let pluginName ← writeAt pluginName (pluginNameSize - 1) [0]
      let referenceNameSize := fullsize - pluginNameSize - 4
      let iter := fullname.drop (3 + advanced + 1)
      let referenceName ← elektraMalloc fresh (referenceNameSize + sizeofPrefix)
      let referenceName ← strncpy referenceName (prefixReferenceName ++ [0]) sizeofPrefix
      let referenceName ← strncat referenceName iter referenceNameSize.toNat
      let referenceName ← writeAt referenceName (referenceNameSize + sizeofPrefix - 2) [0]
      return { ret := 3, pluginNumber, pluginName, referenceName, errorKey }
    else
      let referenceName ← elektraMalloc fresh (fullsize - 3 + sizeofPrefix - 1)
      let referenceName ← strncpy referenceName (prefixReferenceName ++ [0]) sizeofPrefix
      let referenceName ← strncat referenceName (fullname.drop 3) (fullsize - 3).toNat
      return { ret := 2, pluginNumber, referenceName, errorKey }
  else
    let pluginName ← elektraMalloc fresh (fullsize - 2)
    let pluginName ← strncpy pluginName (fullname.drop 2) (fullsize - 2).toNat
    return { ret := 1, pluginNumber, pluginName, errorKey }

/-! ## The grammar -/

/-- The base names with their position, plugin and label: `#<n><plugin>`, `#<n>#<plugin>#<label>#` and
`#<n>#<label>`, of which the last does not end as the one before. -/
inductive Prescribed : Str → ℕ → Option Str → Option Str → Prop
  | plugin {d : UInt8} {p : Str} (hd : isDigit d) (hp : p ≠ []) (hhash : p.head? ≠ some hash) :
    Prescribed (hash :: d :: p) (d.toNat - 48) (some p) none
  | labelled {d : UInt8} {p l : Str} (hd : isDigit d) (hp : p ≠ []) (hhash : hash ∉ p) (hl : l ≠ []) :
    Prescribed (hash :: d :: hash :: (p ++ hash :: (l ++ [hash]))) (d.toNat - 48) (some p) (some l)
  | reference {d : UInt8} {l : Str} (hd : isDigit d) (hl : l ≠ []) (hhash : l.getLast? ≠ some hash) :
    Prescribed (hash :: d :: hash :: l) (d.toNat - 48) none (some l)

/-- A buffer holds a string. -/
def Holds (buffer : Option Str) (s : Option Str) : Prop :=
  buffer.bind strget = s

/-- The name is refused with a warning about it, or split as the grammar prescribes. -/
def Splits (env : Environment) (fresh : ℕ → UInt8) (cur errorKey : Key) : Prop :=
  ∃ r, elektraProcessPlugin env fresh cur errorKey = some r ∧
    ((r.ret = -1 ∧ r.pluginName = none ∧ r.referenceName = none ∧
        ∃ number, r.errorKey = env.addWarning number errorKey (keyBaseName cur)) ∨
      ∃ n p l, Prescribed (keyBaseName cur) n p l ∧ r.pluginNumber = some n ∧ Holds r.pluginName p ∧
        Holds r.referenceName (l.map (prefixReferenceName ++ ·)) ∧ r.errorKey = errorKey ∧
        r.ret = (if p.isSome then 1 else 0) + if l.isSome then 2 else 0)

/-- A name that is taken although a part of it is missing: the plugin or the label is empty, or the separator
between them is not there. -/
def LacksPart (name : Str) : Prop :=
  ∃ d rest, isDigit d ∧ name = hash :: d :: rest ∧
    (rest = [] ∨ rest = [hash] ∨ (∃ s, rest = hash :: hash :: s ∧ rest.getLast? = some hash) ∨
      ∃ p, hash ∉ p ∧ (rest = hash :: (p ++ [hash]) ∨ rest = hash :: (p ++ [hash, hash])))

/-! ## The buffers -/

theorem keyBaseName_nul (key : Key) : 0 ∉ keyBaseName key := by
  unfold keyBaseName
  split
  · exact List.not_mem_nil
  · dsimp only
    split_ifs
    · intro h
      simpa using List.mem_takeWhile_imp (List.mem_reverse.mp h)
    · exact List.not_mem_nil

theorem elektraMalloc_of (fresh : ℕ → UInt8) (n : ℕ) :
    elektraMalloc fresh n = some ((List.range n).map fresh) := by
  rw [elektraMalloc, if_pos (Int.natCast_nonneg n), Int.toNat_natCast]

theorem searchHash_of {p t : Str} (hp : hash ∉ p) : searchHash (p ++ hash :: t) = some p.length := by
  induction p with
  | nil => simp [searchHash]
  | cons c p ih =>
    rw [List.mem_cons, not_or] at hp
    simp [searchHash, Ne.symm hp.1, ih hp.2]

theorem strncpy_string {fresh : ℕ → UInt8} {s t : Str} (hs : 0 ∉ s) :
    strncpy ((List.range (s.length + 1)).map fresh) (s ++ 0 :: t) (s.length + 1) = some (s ++ [0]) := by
  have hread := strnget_nul (t := t) hs (Nat.lt_succ_self _)
  rw [strncpy_of hread (Nat.le_succ _) (by simp), List.drop_eq_nil_of_le (by simp)]
  simp

theorem strncpy_front (fresh : ℕ → UInt8) (n : ℕ) : ∃ old : Str, old.length = n ∧
    strncpy ((List.range (n + sizeofPrefix)).map fresh) (prefixReferenceName ++ [0]) sizeofPrefix =
      some (prefixReferenceName ++ 0 :: old) := by
  have hread := strnget_nul (s := prefixReferenceName) (t := []) (by decide) (Nat.lt_succ_self _)
  refine ⟨((List.range (n + sizeofPrefix)).map fresh).drop sizeofPrefix, by simp, ?_⟩
  rw [sizeofPrefix, strncpy_of hread (Nat.le_succ _) (by simp)]
  simp

/-! ## The cases -/

section Cases

variable (env : Environment) (fresh : ℕ → UInt8) (errorKey : Key) {cur : Key} {d : UInt8}

theorem digit_of (hd : isDigit d = true) :
    ¬ (d < 48 ∨ 57 < d) ∧ ¬ NR_OF_PLUGINS < d.toNat - 48 := by
  simp only [isDigit, Bool.and_eq_true, decide_eq_true_eq, UInt8.le_iff_toNat_le,
    UInt8.lt_iff_toNat_lt, NR_OF_PLUGINS] at hd ⊢
  have h48 : UInt8.toNat 48 = 48 := rfl
  have h57 : UInt8.toNat 57 = 57 := rfl
  omega

theorem read_head (s : Str) : readAt (hash :: d :: s) 0 = some hash ∧ readAt (hash :: d :: s) 1 = some d :=
  ⟨rfl, rfl⟩

theorem process_plugin {p : Str} (hd : isDigit d = true) (hname : keyBaseName cur = hash :: d :: p)
    (hhash : p.head? ≠ some hash) : elektraProcessPlugin env fresh cur errorKey =
      some { ret := 1, pluginNumber := some (d.toNat - 48), pluginName := some (p ++ [0]), errorKey } := by
  obtain ⟨h1, h2⟩ := digit_of hd
  have h0 : 0 ∉ p := fun h => keyBaseName_nul cur (by simp [hname, h])
  obtain ⟨c, hc, hread⟩ : ∃ c, c ≠ hash ∧ readAt (hash :: d :: (p ++ [0])) 2 = some c := by
    cases p with
    | nil => exact ⟨0, by decide, rfl⟩
    | cons c p => exact ⟨c, fun h => hhash (by rw [h]; rfl), rfl⟩
  have hsize : ((hash :: d :: (p ++ [0])).length : ℤ) - 2 = (p.length + 1 : ℕ) := by
    simp only [List.length_cons, List.length_append, List.length_nil]
    omega
  unfold elektraProcessPlugin
  simp only [hname, List.cons_append, read_head, h1, h2, hc, hread, hsize, elektraMalloc_of, strncpy_string h0,
    Option.bind_eq_bind, Option.bind_some, Option.pure_def, ne_eq, not_true_eq_false, if_false, Int.toNat_natCast,
    List.drop_succ_cons, List.drop_zero]

theorem process_reference {l : Str} (hd : isDigit d = true) (hname : keyBaseName cur = hash :: d :: hash :: l)
    (hl : l ≠ []) (hhash : l.getLast? ≠ some hash) : elektraProcessPlugin env fresh cur errorKey =
      some { ret := 2, pluginNumber := some (d.toNat - 48),
             referenceName := some (prefixReferenceName ++ (l ++ [0])), errorKey } := by
  obtain ⟨h1, h2⟩ := digit_of hd
  have h0 : 0 ∉ l := fun h => keyBaseName_nul cur (by simp [hname, h])
  have hread : readAt (hash :: d :: hash :: (l ++ [0])) 2 = some hash := rfl
  obtain ⟨c, hc, hlast⟩ : ∃ c, c ≠ hash ∧ readAt (hash :: d :: hash :: (l ++ [0]))
      (((hash :: d :: hash :: (l ++ [0])).length : ℤ) - 2) = some c := by
    refine ⟨l.getLast hl, fun h => hhash (by rw [List.getLast?_eq_some_getLast hl, h]), ?_⟩
    rw [← List.getLast?_eq_some_getLast hl, ← List.getLast?_append_of_ne_nil [hash, d, hash] hl]
    exact readAt_last (s := hash :: d :: hash :: l) (by simp) 0
  have hbound : ((hash :: d :: hash :: (l ++ [0])).length : ℤ) - 3 = (l.length + 1 : ℕ) := by
    simp only [List.length_cons, List.length_append, List.length_nil]
    omega
  have hsize : ((l.length + 1 : ℕ) : ℤ) + sizeofPrefix - 1 = (l.length + sizeofPrefix : ℕ) := by omega
  obtain ⟨old, hold, hfront⟩ := strncpy_front fresh l.length
  have hcat : strncat (prefixReferenceName ++ 0 :: old) (l ++ [0]) (l.length + 1) =
      some (prefixReferenceName ++ (l ++ [0])) := by
    have h := strncat_of [] (d := prefixReferenceName) (by decide)
      (strnget_nul (t := []) h0 (Nat.lt_succ_self _)) hold
    rwa [List.append_nil] at h
  unfold elektraProcessPlugin
  simp only [hname, List.cons_append, read_head, h1, h2, hc, hread, hlast, hbound, hsize, elektraMalloc_of, hfront,
    hcat, Option.bind_eq_bind, Option.bind_some, Option.pure_def, ne_eq, not_true_eq_false, if_false, if_true,
    Int.toNat_natCast, List.drop_succ_cons, List.drop_zero]

/-- The last character of the reference is lost with the separator behind the label. -/
theorem process_both {p t : Str} (hd : isDigit d = true)
    (hname : keyBaseName cur = hash :: d :: hash :: (p ++ hash :: t)) (hp : hash ∉ p)
    (ht : (hash :: t).getLast? = some hash) : elektraProcessPlugin env fresh cur errorKey =
      some { ret := 3, pluginNumber := some (d.toNat - 48), pluginName := some (p ++ [0]),
             referenceName := some ((prefixReferenceName ++ t).dropLast ++ [0, 0]), errorKey } := by
  obtain ⟨h1, h2⟩ := digit_of hd
  have h0p : 0 ∉ p := fun h => keyBaseName_nul cur (by simp [hname, h])
  have h0t : 0 ∉ t := fun h => keyBaseName_nul cur (by simp [hname, h])
  have hread : readAt (hash :: d :: hash :: (p ++ hash :: (t ++ [0]))) 2 = some hash := rfl
  have hlast : readAt (hash :: d :: hash :: (p ++ hash :: (t ++ [0])))
      (((hash :: d :: hash :: (p ++ hash :: (t ++ [0]))).length : ℤ) - 2) = some hash := by
    have h := readAt_last (s := hash :: d :: hash :: (p ++ hash :: t)) (by simp) 0
    have hend : (hash :: d :: hash :: (p ++ hash :: t)).getLast? = some hash := by
      rw [← ht, show hash :: d :: hash :: (p ++ hash :: t) = (hash :: d :: hash :: p) ++ hash :: t from rfl,
        List.getLast?_append_cons]
    rw [hend] at h
    simpa using h
  -- the plugin
  have hcopy : strncpy ((List.range (p.length + 1)).map fresh) (p ++ hash :: (t ++ [0])) (p.length + 1) =
      some (p ++ [hash]) := by
    have h := strnget_take (s := p ++ [hash]) (t := t ++ [0]) (n := p.length + 1)
      (by simp [h0p]; decide) (by simp)
    rw [List.append_assoc, List.singleton_append, List.take_of_length_le (by simp)] at h
    rw [strncpy_of h (by simp) (by simp), List.drop_eq_nil_of_le (by simp)]
    simp
  have hend : writeAt (p ++ [hash]) (((p.length + 1 : ℕ) : ℤ) - 1) [0] = some (p ++ [0]) := by
    have h := @writeAt_append _ p [hash] [] [0] (((p.length + 1 : ℕ) : ℤ) - 1) (by omega) rfl
    simpa using h
  -- the reference
  have hsize : ((hash :: d :: hash :: (p ++ hash :: (t ++ [0]))).length : ℤ) - (p.length + 1 : ℕ) - 4 =
      (t.length : ℕ) := by
    simp only [List.length_cons, List.length_append, List.length_nil]
    omega
  obtain ⟨old, hold, hfront⟩ := strncpy_front fresh t.length
  have hcat : strncat (prefixReferenceName ++ 0 :: old) (t ++ [0]) t.length =
      some (prefixReferenceName ++ (t ++ [0])) := by
    have hr := strnget_take (t := [0]) h0t le_rfl
    rw [List.take_length] at hr
    have h := strncat_of [] (d := prefixReferenceName) (by decide) hr hold
    rwa [List.append_nil] at h
  have hdrop : List.drop (3 + p.length) (d :: hash :: (p ++ hash :: (t ++ [0]))) = t ++ [0] := by
    have hsplit : d :: hash :: (p ++ hash :: (t ++ [0])) = (d :: hash :: (p ++ [hash])) ++ (t ++ [0]) := by simp
    rw [hsplit, List.drop_left']
    simp only [List.length_cons, List.length_append, List.length_nil]
    omega
  have hcut : writeAt (prefixReferenceName ++ (t ++ [0])) (((t.length + sizeofPrefix : ℕ) : ℤ) - 2) [0] =
      some ((prefixReferenceName ++ t).dropLast ++ [0, 0]) := by
    obtain ⟨u, c, hu⟩ := (List.eq_nil_or_concat' (prefixReferenceName ++ t)).resolve_left
      (List.append_ne_nil_of_left_ne_nil (by decide) t)
    have hlen := congrArg List.length hu
    simp only [List.length_append, List.length_singleton] at hlen
    rw [← List.append_assoc, hu, List.dropLast_concat, List.append_assoc]
    exact writeAt_append (by rw [sizeofPrefix]; omega) rfl
  unfold elektraProcessPlugin
  simp only [hname, List.cons_append, List.append_assoc, read_head, h1, h2, hread, hlast, searchHash_of hp, hcopy,
    hend, hsize, ← Nat.cast_add, elektraMalloc_of, hfront, hdrop, hcat, hcut, Option.bind_eq_bind, Option.bind_some,
    Option.pure_def, ne_eq, not_true_eq_false, if_false, if_true, Int.toNat_natCast, List.drop_succ_cons,
    List.drop_zero]

theorem process_single (hd : isDigit d = true) (hname : keyBaseName cur = [hash, d, hash]) :
    elektraProcessPlugin env fresh cur errorKey = none := by
  obtain ⟨h1, h2⟩ := digit_of hd
  have hread : readAt [hash, d, hash, 0] 2 = some hash := rfl
  have hlast : readAt [hash, d, hash, 0] ((([hash, d, hash, 0] : Str).length : ℤ) - 2) = some hash := rfl
  have hsearch : searchHash [0] = none := rfl
  unfold elektraProcessPlugin
  simp only [hname, List.cons_append, List.nil_append, read_head, h1, h2, hread, hlast, hsearch, Option.bind_eq_bind,
    Option.bind_some, Option.bind_none, ne_eq, not_true_eq_false, if_false, if_true, List.drop_succ_cons,
    List.drop_zero]

theorem process_refused (h : ∀ d rest, isDigit d = true → keyBaseName cur ≠ hash :: d :: rest) :
    ∃ number, elektraProcessPlugin env fresh cur errorKey =
      some { ret := -1, errorKey := env.addWarning number errorKey (keyBaseName cur) } := by
  by_cases hhead : (keyBaseName cur).head? = some hash
  · obtain ⟨rest, hrest⟩ := List.head?_eq_some_iff.mp hhead
    obtain ⟨c, hc, hread⟩ : ∃ c, (c < 48 ∨ 57 < c) ∧ readAt (hash :: (rest ++ [0])) 1 = some c := by
      cases rest with
      | nil => exact ⟨0, by decide, rfl⟩
      | cons c rest =>
        refine ⟨c, ?_, rfl⟩
        have hd : ¬ isDigit c = true := fun hd => h c rest hd hrest
        simpa [isDigit, imp_iff_or_not, or_comm] using hd
    refine ⟨19, ?_⟩
    have hread0 : readAt (hash :: (rest ++ [0])) 0 = some hash := rfl
    unfold elektraProcessPlugin
    simp only [hrest, List.cons_append, hread0, hread, hc, Option.bind_eq_bind, Option.bind_some, Option.pure_def,
      ne_eq, not_true_eq_false, if_false, if_true]
  · obtain ⟨c, hc, hread⟩ : ∃ c, c ≠ hash ∧ readAt (keyBaseName cur ++ [0]) 0 = some c := by
      cases hname : keyBaseName cur with
      | nil => exact ⟨0, by decide, rfl⟩
      | cons c rest => exact ⟨c, fun hc => hhead (by rw [hname, hc]; rfl), rfl⟩
    refine ⟨18, ?_⟩
    unfold elektraProcessPlugin
    simp only [hread, hc, Option.bind_eq_bind, Option.bind_some, Option.pure_def, ne_eq, not_false_eq_true, if_true]

end Cases

/-! ## The names -/

theorem name_cases (name : Str) : (∀ d rest, isDigit d = true → name ≠ hash :: d :: rest) ∨
    ∃ d, isDigit d = true ∧ ((∃ p, name = hash :: d :: p ∧ p.head? ≠ some hash) ∨ name = [hash, d, hash] ∨
      (∃ l, name = hash :: d :: hash :: l ∧ l ≠ [] ∧ l.getLast? ≠ some hash) ∨
      (∃ p, name = hash :: d :: hash :: (p ++ [hash]) ∧ hash ∉ p) ∨
      ∃ p l, name = hash :: d :: hash :: (p ++ hash :: (l ++ [hash])) ∧ hash ∉ p) := by
  by_cases h : ∀ d rest, isDigit d = true → name ≠ hash :: d :: rest
  · exact Or.inl h
  · push Not at h
    obtain ⟨d, rest, hd, rfl⟩ := h
    refine Or.inr ⟨d, hd, ?_⟩
    by_cases hhead : rest.head? = some hash
    · obtain ⟨s, rfl⟩ := List.head?_eq_some_iff.mp hhead
      obtain rfl | hs := eq_or_ne s []
      · exact Or.inr (Or.inl rfl)
      · by_cases hlast : s.getLast? = some hash
        · -- the first separator of what follows is the last character, or stands before it
          obtain ⟨p, t, rfl, hp⟩ := List.eq_append_cons_of_mem (List.mem_of_getLast? hlast)
          obtain rfl | ht := eq_or_ne t []
          · exact Or.inr (Or.inr (Or.inr (Or.inl ⟨p, rfl, hp⟩)))
          · rw [List.getLast?_append_of_ne_nil p (List.cons_ne_nil _ _), List.getLast?_cons_of_ne_nil ht,
              List.getLast?_eq_some_iff] at hlast
            obtain ⟨l, rfl⟩ := hlast
            exact Or.inr (Or.inr (Or.inr (Or.inr ⟨p, l, rfl, hp⟩)))
        · exact Or.inr (Or.inr (Or.inl ⟨s, rfl, hs, hlast⟩))
    · exact Or.inl ⟨rest, rfl, hhead⟩

theorem Prescribed.ne_nil {name : Str} {n : ℕ} {p l : Option Str} (h : Prescribed name n p l) :
    p ≠ some [] ∧ l ≠ some [] := by
  cases h with
  | plugin hd hp hhash => simp [hp]
  | labelled hd hp hhash hl => simp [hp, hl]
  | reference hd hl hhash => simp [hl]

section Theorem

variable {env : Environment} {fresh : ℕ → UInt8} {cur errorKey : Key} {r : Processed}

/-- An empty plugin, or a reference that is no longer than its prefix, is not prescribed. -/
theorem not_splits (hr : elektraProcessPlugin env fresh cur errorKey = some r) (hret : r.ret ≠ -1)
    (hempty : Holds r.pluginName (some []) ∨
      ∃ s, Holds r.referenceName (some s) ∧ s.length ≤ prefixReferenceName.length) :
    ¬ Splits env fresh cur errorKey := by
  rintro ⟨r', hr', hcase⟩
  obtain rfl := Option.some.inj (hr.symm.trans hr')
  obtain ⟨hrefused, -⟩ | ⟨n, p, l, hpre, -, hp, hl, -, -⟩ := hcase
  · exact hret hrefused
  · obtain ⟨hpne, hlne⟩ := hpre.ne_nil
    obtain h | ⟨s, h, hshort⟩ := hempty
    · exact hpne (hp.symm.trans h)
    · obtain ⟨l, rfl, rfl⟩ := Option.map_eq_some_iff.mp (hl.symm.trans h)
      rw [List.length_append] at hshort
      exact hlne (by rw [List.length_eq_zero_iff.mp (by omega : l.length = 0)])

theorem lacksPart_cons {rest : Str} (hd : isDigit d = true) : LacksPart (hash :: d :: rest) ↔
    rest = [] ∨ rest = [hash] ∨ (∃ s, rest = hash :: hash :: s ∧ rest.getLast? = some hash) ∨
      ∃ p, hash ∉ p ∧ (rest = hash :: (p ++ [hash]) ∨ rest = hash :: (p ++ [hash, hash])) := by
  refine ⟨?_, fun h => ⟨d, rest, hd, rfl, h⟩⟩
  rintro ⟨d', rest', -, he, h⟩
  cases he
  exact h

theorem first_separator {p q t u : Str} (hp : hash ∉ p) (hq : hash ∉ q) (h : p ++ hash :: t = q ++ hash :: u) :
    t = u := by
  have hlen : some p.length = some q.length := by rw [← searchHash_of hp, h, searchHash_of hq]
  exact (List.cons.inj (List.append_inj h (Option.some.inj hlen)).2).2

theorem getLast_hash (s : Str) : (hash :: (s ++ [hash])).getLast? = some hash := by
  rw [← List.cons_append, List.getLast?_concat]

theorem holds_string {s t : Str} (h : 0 ∉ s) : Holds (some (s ++ 0 :: t)) (some s) :=
  strget_nul h

/-- **A name is refused, or split as the grammar prescribes, exactly if no part of it is lacking.** -/
theorem elektraProcessPlugin_iff (env : Environment) (fresh : ℕ → UInt8) (cur errorKey : Key) :
    Splits env fresh cur errorKey ↔ ¬ LacksPart (keyBaseName cur) := by
  have h0 := keyBaseName_nul cur
  have hfront : 0 ∉ prefixReferenceName := by decide
  obtain hname | ⟨d, hd, ⟨p, hname, hhash⟩ | hname | ⟨l, hname, hl, hlast⟩ | ⟨p, hname, hp⟩ | ⟨p, l, hname, hp⟩⟩ :=
    name_cases (keyBaseName cur)
  · -- the name is refused
    obtain ⟨number, hr⟩ := process_refused env fresh errorKey hname
    refine iff_of_true ⟨_, hr, Or.inl ⟨rfl, rfl, rfl, number, rfl⟩⟩ ?_
    rintro ⟨d, rest, hd, he, -⟩
    exact hname d rest hd he
  · have hr := process_plugin env fresh errorKey hd hname hhash
    rw [hname] at h0
    simp only [List.mem_cons, not_or] at h0
    obtain rfl | hp := eq_or_ne p []
    · refine iff_of_false (not_splits hr (by simp) (Or.inl (holds_string List.not_mem_nil))) ?_
      rw [not_not, hname, lacksPart_cons hd]
      exact Or.inl rfl
    · refine iff_of_true ⟨_, hr, Or.inr ⟨_, some p, none, hname ▸ .plugin hd hp hhash, rfl, holds_string h0.2.2, rfl,
        rfl, rfl⟩⟩ ?_
      rw [hname, lacksPart_cons hd]
      rintro (rfl | rfl | ⟨s, rfl, -⟩ | ⟨q, -, rfl | rfl⟩)
      · exact hp rfl
      all_goals exact hhash rfl
  · -- no second separator follows the first
    refine iff_of_false ?_ ?_
    · rintro ⟨r, hr, -⟩
      rw [process_single _ _ _ hd hname] at hr
      cases hr
    · rw [not_not, hname, lacksPart_cons hd]
      exact Or.inr (Or.inl rfl)
  · have hr := process_reference env fresh errorKey hd hname hl hlast
    rw [hname] at h0
    simp only [List.mem_cons, not_or] at h0
    refine iff_of_true ⟨_, hr, Or.inr ⟨_, none, some l, hname ▸ .reference hd hl hlast, rfl, rfl, ?_, rfl, rfl⟩⟩ ?_
    · rw [← List.append_assoc]
      exact holds_string (by simp [hfront, h0.2.2.2])
    · rw [hname, lacksPart_cons hd]
      rintro (h | h | ⟨s, h, hhash⟩ | ⟨q, -, h | h⟩)
      · cases h
      · exact hl (List.cons.inj h).2
      · rw [List.getLast?_cons_of_ne_nil hl] at hhash
        exact hlast hhash
      all_goals exact hlast (by rw [(List.cons.inj h).2]; simp)
  · -- the label is missing
    have hr := process_both env fresh errorKey hd hname hp rfl
    refine iff_of_false (not_splits hr (by simp) (Or.inr ⟨prefixReferenceName.dropLast, ?_, by simp⟩)) ?_
    · exact holds_string (by decide)
    · rw [not_not, hname, lacksPart_cons hd]
      exact Or.inr (Or.inr (Or.inr ⟨p, hp, Or.inl rfl⟩))
  · have hr := process_both env fresh errorKey hd hname hp (getLast_hash l)
    rw [hname] at h0
    simp only [List.mem_cons, List.mem_append, not_or] at h0
    have hreference : (prefixReferenceName ++ (l ++ [hash])).dropLast = prefixReferenceName ++ l := by
      rw [← List.append_assoc, List.dropLast_concat]
    have hholds : Holds (some ((prefixReferenceName ++ (l ++ [hash])).dropLast ++ [0, 0]))
        (some (prefixReferenceName ++ l)) := by
      rw [hreference]
      exact holds_string (by simp [hfront, h0])
    obtain rfl | hpne := eq_or_ne p []
    · refine iff_of_false (not_splits hr (by simp) (Or.inl (holds_string List.not_mem_nil))) ?_
      rw [not_not, hname, lacksPart_cons hd]
      exact Or.inr (Or.inr (Or.inl ⟨l ++ [hash], rfl, getLast_hash _⟩))
    obtain rfl | hlne := eq_or_ne l []
    · refine iff_of_false (not_splits hr (by simp) (Or.inr ⟨_, hholds, by simp⟩)) ?_
      rw [not_not, hname, lacksPart_cons hd]
      exact Or.inr (Or.inr (Or.inr ⟨p, hp, Or.inr rfl⟩))
    · refine iff_of_true ⟨_, hr, Or.inr ⟨_, some p, some l, hname ▸ .labelled hd hpne hp hlne, rfl,
        holds_string h0.2.2.2.1, hholds, rfl, rfl⟩⟩ ?_
      rw [hname, lacksPart_cons hd]
      rintro (h | h | ⟨s, h, -⟩ | ⟨q, hq, h | h⟩)
      · cases h
      · simp at h
      · obtain ⟨c, p, rfl⟩ := List.exists_cons_of_ne_nil hpne
        cases h
        exact hp List.mem_cons_self
      · have := first_separator hp hq (List.cons.inj h).2
        simp at this
      · have := first_separator hp hq (List.cons.inj h).2
        simp [hlne] at this

end Theorem

/-- A key of a configuration with one separator too many. -/
def loneSeparator : Key := keyNewName (str "system/elektra/mountpoints/user/getplugins/#1#")

theorem not_splits_loneSeparator : ¬ ∀ (env : Environment) (fresh : ℕ → UInt8) (cur errorKey : Key),
    Splits env fresh cur errorKey := by
  intro h
  obtain ⟨r, hr, -⟩ := h ⟨fun _ k _ => k, fun _ k _ => k, fun ks _ => (false, ks)⟩ (fun _ => 0) loneSeparator keyNew
  have hname : keyBaseName loneSeparator = [hash, 49, hash] := by decide +kernel
  rw [process_single _ _ _ (by decide) hname] at hr
  cases hr

end Elektra.Process
