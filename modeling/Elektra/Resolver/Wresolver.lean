import Elektra.Kdb.Set

/-!
# The resolver without locks

The resolver for systems other than POSIX compares the time stamp of the file in the first phase of a
set with the one of the last get, and does nothing in the second phase.

* `elektraWresolverGet`, `elektraWresolverSet`, `elektraWresolverError`;
* `Event`, `step`, `Inv`: calls, and changes of the file by the storage plugin and by others;
* `Detects`, `Undisturbed`, **`prepares_detect`**: when the first phase finds what others did, and only that.
-/

namespace Elektra.Wresolver

/-! ## The code -/

/-- `resolverHandle`, as far as it is used after the filename is resolved. -/
structure ResolverHandle where
  /-- of the file at the last get, or `0` -/
  mtime : ℤ
  /-- `0` .. invalid -> `kdbGet` -> `1` .. ready to set -> `kdbSet` -> `2` -/
  state : ℤ
  filename : Str

/-- `resolverInit`, with the filename that is resolved next. -/
def resolverInit (filename : Str) : ResolverHandle := { mtime := 0, state := 0, filename := filename }

def moduleName : Str := str "system/elektra/modules/wresolver"

/-- `%ld` -/
def decimal (n : ℤ) : Str := str (toString n)

section Calls

variable (env : Environment) (moduleConfig : List Key)

/-- `file` is what `stat` finds: the time stamp of the file, if there is one. -/
def elektraWresolverGet (pk : ResolverHandle) (file : Option ℤ) (returned : List Key) (parentKey : Key) :
    ℤ × ResolverHandle × List Key × Key :=
  if keyName parentKey = moduleName then (1, pk, moduleConfig.foldl ksAppendValue returned, parentKey)
  else
    let parentKey := keySetString parentKey pk.filename
    let pk := { pk with state := 1 }
    match file with
    -- no file, so no time
    | none => (0, { pk with mtime := 0 }, returned, parentKey)
    | some st_mtime =>
      if pk.mtime = st_mtime then (0, pk, returned, parentKey)
      else (1, { pk with mtime := st_mtime }, returned, parentKey)

/-- The text of a conflict. -/
def conflictText (pk : ResolverHandle) (st_mtime : ℤ) : Str :=
  str "conflict, file modification time stamp " ++ decimal st_mtime ++
    str " is different than our time stamp " ++ decimal pk.mtime ++ str " config file name is \"" ++
    pk.filename ++ str "\", "

/-- The part of `elektraWresolverSet` behind the switch. -/
def prepare (pk : ResolverHandle) (file : Option ℤ) (parentKey : Key) : ℤ × ResolverHandle × Key :=
  if pk.mtime = 0 then (1, pk, parentKey)
  else
    match file with
    | none =>
      (0, pk, env.addWarning 29 parentKey (str "could not stat config file \"" ++ pk.filename ++ str "\", "))
    | some st_mtime =>
      if pk.mtime ≠ st_mtime then
        (-1, { pk with state := 0 }, env.setError 30 parentKey (conflictText pk st_mtime))
      else (1, { pk with mtime := st_mtime }, parentKey)

def elektraWresolverSet (pk : ResolverHandle) (file : Option ℤ) (parentKey : Key) : ℤ × ResolverHandle × Key :=
  let parentKey := keySetString parentKey pk.filename
  if pk.state = 0 then (-1, pk, env.setError 107 parentKey (str "kdbSet() called before kdbGet()"))
  else if pk.state = 1 then prepare env { pk with state := pk.state + 1 } file parentKey
  -- nothing to do on commit
  else if pk.state = 2 then (1, { pk with state := 1 }, parentKey)
  else prepare env pk file parentKey

def elektraWresolverError (pk : ResolverHandle) : ℤ × ResolverHandle := (1, { pk with state := 1 })

end Calls

/-! ## Calls and changes -/

/-- The file, the handle, and what the calls so far were about. -/
structure Sys where
  pk : ResolverHandle
  file : Option ℤ
  /-- the file at the last get or at the end of the last set that was committed -/
  reference : Option (Option ℤ)
  /-- the time stamps that the file had -/
  times : List ℤ

inductive Event
  | get (returned : List Key) (parentKey : Key)
  | set (parentKey : Key)
  | error (parentKey : Key)
  /-- somebody else creates or writes the file -/
  | write (time : ℤ)
  /-- somebody else removes it -/
  | remove
  /-- what the storage plugin of the process leaves -/
  | store (file : Option ℤ)

section Runs

variable (env : Environment) (moduleConfig : List Key)

def step (s : Sys) : Event → Sys
  | .get returned parentKey =>
    { s with
      pk := (elektraWresolverGet moduleConfig s.pk s.file returned parentKey).2.1
      reference := some s.file }
  | .set parentKey =>
    { s with
      pk := (elektraWresolverSet env s.pk s.file parentKey).2.1
      reference := if s.pk.state = 2 then some s.file else s.reference }
  | .error _ => { s with pk := (elektraWresolverError s.pk).2 }
  | .write time => { s with file := some time, times := time :: s.times }
  | .remove => { s with file := none }
  | .store file => { s with file := file, times := file.toList ++ s.times }

/-- Gets are about the mountpoint; others write with a new time stamp, the storage plugin between the
phases of a set with a new one or the present one. -/
def Allowed (s : Sys) : Event → Prop
  | .get _ parentKey => keyName parentKey ≠ moduleName
  | .set _ | .error _ | .remove => True
  | .write time => time ∉ s.times
  | .store file => s.pk.state = 2 ∧ ∀ time, file = some time → time ∉ s.times ∨ s.file = some time

def AllAllowed : Sys → List Event → Prop
  | _, [] => True
  | s, e :: es => Allowed s e ∧ AllAllowed (step env moduleConfig s e) es

/-- The states in which a set starts, and the parent keys of the calls. -/
def prepares : Sys → List Event → List (Sys × Key)
  | _, [] => []
  | s, .set parentKey :: es =>
    if s.pk.state = 2 then prepares (step env moduleConfig s (.set parentKey)) es
    else (s, parentKey) :: prepares (step env moduleConfig s (.set parentKey)) es
  | s, e :: es => prepares (step env moduleConfig s e) es

/-- The handle after the plugin was opened. -/
def start (filename : Str) (file : Option ℤ) : Sys :=
  { pk := resolverInit filename, file := file, reference := none, times := file.toList }

/-- The first phase succeeds if and only if the file is as it was. -/
def Detects (s : Sys) (parentKey : Key) : Prop :=
  (elektraWresolverSet env s.pk s.file parentKey).1 ≠ -1 ↔ s.reference = some s.file

/-- What the first phase relies on. -/
def Undisturbed (s : Sys) : Prop :=
  match s.reference with
  -- without a get, no error was reported
  | none => s.pk.state = 0
  | some last =>
    -- the last get found no file, and nobody else has made one since
    if s.pk.mtime = 0 then s.file = last
    -- after a conflict, the file is not what the process left
    else if s.pk.state = 0 then s.file ≠ last
    else
      match s.file with
      -- nobody else has removed the file
      | none => last = none
      -- the process has not changed the file since the last get, or somebody else has since then
      | some _ => last = some s.pk.mtime ∨ s.file ≠ last

end Runs

/-! ## Invariant -/

/-- The time stamp in the handle is one that the file does not get again. -/
structure Inv (s : Sys) : Prop where
  state : s.pk.state = 0 ∨ s.pk.state = 1 ∨ s.pk.state = 2
  seen : ∀ t, s.file = some t → t ∈ s.times
  stamp : s.pk.mtime ≠ 0 → s.pk.mtime ∈ s.times
  before : s.reference = none → s.pk.mtime = 0
  ready : s.reference ≠ none → s.pk.mtime = 0 → s.pk.state ≠ 0
  gone : s.pk.mtime ≠ 0 → s.reference ≠ some (some s.pk.mtime) → s.file ≠ some s.pk.mtime
  conflict : s.pk.mtime ≠ 0 → s.pk.state = 0 → s.file ≠ some s.pk.mtime

section Step

variable {env : Environment} {moduleConfig : List Key} {s : Sys}

theorem inv_start (filename : Str) (file : Option ℤ) : Inv (start filename file) where
  state := Or.inl rfl
  seen t ht := by simp [start] at ht ⊢; exact ht
  stamp h := absurd rfl h
  before _ := rfl
  ready h := absurd rfl h
  gone h := absurd rfl h
  conflict h := absurd rfl h

theorem get_pk {returned : List Key} {parentKey : Key} (h : keyName parentKey ≠ moduleName) (pk : ResolverHandle)
    (file : Option ℤ) : (elektraWresolverGet moduleConfig pk file returned parentKey).2.1 =
      { pk with state := 1, mtime := file.getD 0 } := by
  rw [elektraWresolverGet, if_neg h]
  cases file with
  | none => rfl
  | some t =>
    dsimp only
    split_ifs with ht
    · rw [Option.getD_some, ← ht]
    · rfl

/-- What a set does in each state: nothing without a get, a check, a commit. -/
theorem set_cases (hs : s.pk.state = 0 ∨ s.pk.state = 1 ∨ s.pk.state = 2) (parentKey : Key) :
    ∃ r pk, (elektraWresolverSet env s.pk s.file parentKey).1 = r ∧
      (elektraWresolverSet env s.pk s.file parentKey).2.1 = pk ∧
      ((s.pk.state = 0 ∧ r = -1 ∧ pk = s.pk) ∨
        (s.pk.state = 1 ∧ (s.pk.mtime = 0 ∨ s.file = none ∨ s.file = some s.pk.mtime) ∧ r ≠ -1 ∧
          pk = { s.pk with state := 2 }) ∨
        (s.pk.state = 1 ∧ s.pk.mtime ≠ 0 ∧ s.file ≠ none ∧ s.file ≠ some s.pk.mtime ∧ r = -1 ∧
          pk = { s.pk with state := 0 }) ∨
        (s.pk.state = 2 ∧ pk = { s.pk with state := 1 })) := by
  have hone : (1 : ℤ) ≠ -1 := by decide
  have hzero : (0 : ℤ) ≠ -1 := by decide
  refine ⟨_, _, rfl, rfl, ?_⟩
  obtain h | h | h := hs
  · left
    rw [elektraWresolverSet, if_pos h]
    exact ⟨h, rfl, rfl⟩
  · have hne : s.pk.state ≠ 0 := by omega
    unfold elektraWresolverSet prepare
    dsimp only
    rw [if_neg hne, if_pos h, h]
    by_cases hm : s.pk.mtime = 0
    · rw [if_pos hm]
      exact Or.inr (Or.inl ⟨rfl, Or.inl hm, hone, rfl⟩)
    · rw [if_neg hm]
      cases hf : s.file with
      | none => exact Or.inr (Or.inl ⟨rfl, Or.inr (Or.inl rfl), hzero, rfl⟩)
      | some t =>
        dsimp only
        by_cases ht : s.pk.mtime = t
        · rw [if_neg (not_not.mpr ht)]
          refine Or.inr (Or.inl ⟨rfl, Or.inr (Or.inr (by rw [ht])), hone, ?_⟩)
          rw [← ht]
          rfl
        · rw [if_pos ht]
          exact Or.inr (Or.inr (Or.inl ⟨rfl, hm, nofun, fun he => ht (Option.some.inj he).symm, rfl, rfl⟩))
  · right; right; right
    rw [elektraWresolverSet, if_neg (by omega), if_neg (by omega), if_pos h]
    exact ⟨h, rfl⟩

theorem get_inv (h : Inv s) {returned : List Key} {parentKey : Key} (hp : keyName parentKey ≠ moduleName) :
    Inv (step env moduleConfig s (.get returned parentKey)) := by
  rw [step, get_pk hp]
  have hstamp : s.file.getD 0 ≠ 0 → s.file = some (s.file.getD 0) := by
    cases s.file with
    | none => exact fun hne => absurd rfl hne
    | some t => exact fun _ => rfl
  exact
    { state := Or.inr (Or.inl rfl)
      seen := h.seen
      stamp := fun hne => h.seen _ (hstamp hne)
      before := nofun
      ready := fun _ _ => one_ne_zero
      gone := fun hne hr => absurd (congrArg some (hstamp hne)) hr
      conflict := fun _ h0 => absurd h0 one_ne_zero }

theorem set_inv (h : Inv s) (parentKey : Key) : Inv (step env moduleConfig s (.set parentKey)) := by
  obtain ⟨r, pk, -, hpk, hcase⟩ := @set_cases env s h.state parentKey
  rw [step, hpk]
  obtain ⟨h0, -, rfl⟩ | ⟨h1, hok, -, rfl⟩ | ⟨h1, hm, -, hne, -, rfl⟩ | ⟨h2, rfl⟩ := hcase
  · rw [if_neg (by omega)]
    exact h
  · rw [if_neg (by omega)]
    exact { h with
      state := Or.inr (Or.inr rfl)
      ready := fun _ _ => two_ne_zero
      conflict := fun _ h0 => absurd h0 two_ne_zero }
  · rw [if_neg (by omega)]
    exact { h with
      state := Or.inl rfl
      ready := fun _ h0 => absurd h0 hm
      conflict := fun _ _ => hne }
  · -- a commit makes the present file the one to compare with
    rw [if_pos h2]
    exact { h with
      state := Or.inr (Or.inl rfl)
      before := nofun
      ready := fun _ _ => one_ne_zero
      gone := fun _ hr hf => hr (congrArg some hf)
      conflict := fun _ h0 => absurd h0 one_ne_zero }

/-- The file changes to one without a time stamp or with one that is not that of the handle, or keeps its. -/
theorem change_inv (h : Inv s) {file : Option ℤ}
    (hfile : ∀ t, file = some t → t ∉ s.times ∨ s.file = some t) :
    Inv { s with file := file, times := file.toList ++ s.times } := by
  have hold : s.pk.mtime ≠ 0 → s.file ≠ some s.pk.mtime → file ≠ some s.pk.mtime := by
    intro hm hne hf
    exact (hfile _ hf).elim (fun hnew => hnew (h.stamp hm)) hne
  exact
    { state := h.state
      seen := fun t ht => List.mem_append_left _ (Option.mem_toList.mpr ht)
      stamp := fun hm => List.mem_append_right _ (h.stamp hm)
      before := h.before
      ready := h.ready
      gone := fun hm hr => hold hm (h.gone hm hr)
      conflict := fun hm h0 => hold hm (h.conflict hm h0) }

theorem step_inv (h : Inv s) {e : Event} (he : Allowed s e) : Inv (step env moduleConfig s e) := by
  cases e with
  | get returned parentKey => exact get_inv h he
  | set parentKey => exact set_inv h parentKey
  | error parentKey =>
    exact { h with
      state := Or.inr (Or.inl rfl)
      ready := fun _ _ => one_ne_zero
      conflict := fun _ h0 => absurd h0 one_ne_zero }
  | write time =>
    refine change_inv h fun t ht => Or.inl ?_
    obtain rfl := Option.some.inj ht
    exact he
  | remove => exact @change_inv s h none nofun
  | store file => exact change_inv h he.2

theorem detects_iff (h : Inv s) (hs : s.pk.state ≠ 2) (parentKey : Key) :
    Detects env s parentKey ↔ Undisturbed s := by
  obtain ⟨r, pk, hr, -, hcase⟩ := @set_cases env s h.state parentKey
  rw [Detects, hr, Undisturbed]
  cases href : s.reference with
  | none =>
    have hm := h.before href
    dsimp only
    obtain ⟨h0, rfl, -⟩ | ⟨h1, -, hok, -⟩ | ⟨-, hne, -⟩ | ⟨h2, -⟩ := hcase
    · exact iff_of_true ⟨fun hne => absurd rfl hne, nofun⟩ h0
    · exact iff_of_false (fun hiff => nomatch hiff.mp hok) (by omega)
    · exact absurd hm hne
    · exact absurd h2 hs
  | some last =>
    have hgone : s.pk.mtime ≠ 0 → last ≠ some s.pk.mtime → s.file ≠ some s.pk.mtime := by
      intro hm hlast
      refine h.gone hm ?_
      rw [href]
      exact fun he => hlast (Option.some.inj he)
    rw [Option.some.injEq]
    dsimp only
    obtain ⟨h0, rfl, -⟩ | ⟨h1, hfile, hok, -⟩ | ⟨h1, hm, hsome, hne, rfl, -⟩ | ⟨h2, -⟩ := hcase
    · have hm : s.pk.mtime ≠ 0 := fun hm => h.ready (by rw [href]; nofun) hm h0
      rw [if_neg hm, if_pos h0]
      constructor
      · exact fun hiff he => hiff.mpr he.symm rfl
      · exact fun hne => ⟨fun hn => absurd rfl hn, fun he => absurd he.symm hne⟩
    · rw [if_neg (show s.pk.state ≠ 0 by omega), iff_true_left hok]
      by_cases hm : s.pk.mtime = 0
      · rw [if_pos hm]
        exact eq_comm
      rw [if_neg hm]
      obtain hf | hf := hfile.resolve_left hm
      · rw [hf]
      · -- the time stamp is still that of the last get, so the process has not changed the file
        have hlast : last = some s.pk.mtime := by
          by_contra hne
          exact hgone hm hne hf
        rw [hf]
        exact iff_of_true hlast (Or.inl hlast)
    · rw [if_neg hm, if_neg (show s.pk.state ≠ 0 by omega)]
      cases hf : s.file with
      | none => exact absurd hf hsome
      | some t =>
        rw [hf] at hne
        dsimp only
        constructor
        · exact fun hiff => Or.inr fun he => hiff.mpr he.symm rfl
        · rintro (hlast | hlast)
          · exact ⟨fun hn => absurd rfl hn, fun he => absurd (he.symm.trans hlast) hne⟩
          · exact ⟨fun hn => absurd rfl hn, fun he => absurd he.symm hlast⟩
    · exact absurd h2 hs

theorem run_inv : ∀ {es : List Event} {s : Sys}, Inv s → AllAllowed env moduleConfig s es →
    ∀ x ∈ prepares env moduleConfig s es, Inv x.1 ∧ x.1.pk.state ≠ 2
  | [], _, _, _, _, hx => absurd hx List.not_mem_nil
  | e :: es, s, h, hes, x, hx => by
    have ih := @run_inv es _ (step_inv h hes.1) hes.2
    cases e with
    | set parentKey =>
      rw [prepares] at hx
      split_ifs at hx with h2
      · exact ih x hx
      · obtain rfl | hx := List.mem_cons.mp hx
        · exact ⟨h, h2⟩
        · exact ih x hx
    | _ => exact ih x hx

end Step

/-- **In each run, a set finds that the file is not as it was, and only that, exactly where nothing came in
between that the time stamp of the last get says nothing about.** -/
theorem prepares_detect (env : Environment) (moduleConfig : List Key) (filename : Str) (file : Option ℤ)
    (es : List Event) (hes : AllAllowed env moduleConfig (start filename file) es) :
    ∀ x ∈ prepares env moduleConfig (start filename file) es, Detects env x.1 x.2 ↔ Undisturbed x.1 := by
  intro x hx
  obtain ⟨hinv, hs⟩ := run_inv (inv_start filename file) hes x hx
  exact detects_iff hinv hs x.2

section Instances

def silentEnv : Environment := ⟨fun _ k _ => k, fun _ k _ => k, fun ks _ => (false, ks)⟩

def parent : Key := keyNewName (str "user/a")

/-- A get, and two sets, the first of which writes the file. -/
def twoSets : List Event :=
  [.get [] parent, .set parent, .store (some 2), .set parent, .set parent]

theorem twoSets_allowed : AllAllowed silentEnv [] (start (str "/a") (some 1)) twoSets := by
  have hname : keyName parent ≠ moduleName := by decide +kernel
  refine ⟨hname, trivial, ⟨rfl, ?_⟩, trivial, trivial, trivial⟩
  rintro t ⟨⟩
  exact Or.inl (by decide)

/-- The first one of two sets finds no conflict. -/
theorem prepares_detect_first : Detects silentEnv
    (step silentEnv [] (start (str "/a") (some 1)) (.get [] parent)) parent ↔
      Undisturbed (step silentEnv [] (start (str "/a") (some 1)) (.get [] parent)) :=
  prepares_detect silentEnv [] (str "/a") (some 1) twoSets twoSets_allowed (_, parent) List.mem_cons_self

/-- The second one of two sets finds the file that the first one left, and takes it for a conflict. -/
theorem not_prepares_detect : ¬ ∀ (env : Environment) (moduleConfig : List Key) (filename : Str)
    (file : Option ℤ) (es : List Event), AllAllowed env moduleConfig (start filename file) es →
    ∀ x ∈ prepares env moduleConfig (start filename file) es, Detects env x.1 x.2 := by
  intro h
  have hall := h silentEnv [] (str "/a") (some 1) twoSets twoSets_allowed
  have hsecond := hall (_, parent) (List.mem_cons_of_mem _ List.mem_cons_self)
  exact hsecond.mpr rfl rfl

end Instances

end Elektra.Wresolver
