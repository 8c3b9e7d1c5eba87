import Elektra.Context.Evaluate
import Elektra.Lookup.Resolve
import Elektra.Plugin.Rename
import Elektra.Sync.Timer

/-!
# The intercepted getenv

The library answers `getenv` from the configuration and from the environment. Each part of the
configuration is looked up at a new path, and at an old one.

* `elektraContextEvaluation`, `elektraLookupWithContext`, `elektraGetEnvKey`: one path;
* `addLayers`, `applyOptions`, `reload`: what a change of the configuration does;
* `elektraGetEnv`;
* `Place`, `firstHit`: the places in their order; `Heeded`; **`elektraGetEnv_first_iff`**;
* `Run`: calls with a timeout; **`reload_timely_iff`**.
-/

namespace Elektra.Getenv

open Contextual (evaluate)
open Rename (atoiInt)

/-! ## The state -/

/-- How a call does not return: a lookup has no result, or an option ends the process. -/
inductive Ending
  | lookup (s : Stop)
  | exit
  deriving DecidableEq, Repr

/-- `layers` are the active ones of `elektraEnvContext`, with their values. -/
structure State where
  /-- `elektraRepo` is open -/
  repo : Bool
  config : World
  layers : Str → Option Str
  /-- in milliseconds -/
  reloadTimeout : ℤ
  /-- in nanoseconds, the ticks of the clock -/
  reloadNext : ℤ
  /-- what the original `getenv` finds -/
  environ : Str → Option Str

/-- The ticks of so many milliseconds. -/
def ms (v : ℤ) : ℤ := v * 1000000

/-! ## Lookups -/

section Lookups

variable (fuel : ℕ)

def lookupByName (w : World) (name : Str) : Except Ending (Option KeyRef × World) :=
  (ksLookupByName noCallback fuel w name {}).mapError .lookup

/-- A nested lookup without result counts as one that found nothing. -/
def elektraContextEvaluation (layers : Str → Option Str) : Callback := fun _ w _ found option =>
  match found with
  | none => (none, w)
  | some k =>
    if (str "spec/").isPrefixOf (keyName (w.cell k)) = true ∧ option = { callback := true } then
      match keyGetMeta (w.cell k) (str "context") with
      | none => (some k, w)
      | some contextName =>
        -- only consider context if key actually exists
        match ksLookupByName noCallback fuel w (evaluate layers contextName) {} with
        | .ok (some ret, w) => (some ret, w)
        | .ok (none, w) => (some k, w)
        | .error _ => (some k, w)
    else (some k, w)

/-- The address of `elektraContextEvaluation`. -/
def address : Str := List.replicate 8 1

def elektraLookupWithContext (layers : Str → Option Str) (w : World) (name : Str) :
    Except Ending (Option KeyRef × World) := do
  let search := keySetBinary (keySetMeta (keyNewName name) (str "callback") (some [])).2 (some address)
  let (search, w) := w.alloc search
  let (ret, w) ← (ksLookup (elektraContextEvaluation fuel layers) fuel w search {}).mapError .lookup
  .ok (ret, w.del search)

/-- What is returned, and `finish`. -/
def elektraGetEnvKey (layers : Str → Option Str) (w : World) (fullName : Str) :
    Except Ending ((Option Str × Bool) × World) := do
  let (key, w) ← elektraLookupWithContext fuel layers w fullName
  match key with
  | some key =>
    .ok ((if keyIsBinary (w.cell key) then none else some (keyString (w.cell key)), true), w)
  | none => .ok ((none, false), w)

/-! ## Options and layers -/

/-- The new path is preferred; a key without a string is not considered. -/
def lookupOption (w : World) (name : Str) : Except Ending (Option Key × World) := do
  let (k, w) ← lookupByName fuel w (str "/elektra/intercept/getenv/option/" ++ name)
  let (k, w) ← match k with
    | some k => .ok (some k, w)
    | none => lookupByName fuel w (str "/env/option/" ++ name)
  .ok ((k.map w.cell).filter fun key => !keyIsBinary key, w)

/-- Where the log goes is left out. -/
def applyOptions (s : State) : Except Ending State := do
  let (_, w) ← lookupOption fuel s.config (str "debug")
  let (clearenv, w) ← lookupOption fuel w (str "clearenv")
  let (timeout, w) ← lookupOption fuel w (str "reload_timeout")
  let (help, w) ← lookupOption fuel w (str "help")
  if help.isSome then .error .exit
  else do
    let (version, w) ← lookupOption fuel w (str "version")
    if version.isSome then .error .exit
    else .ok { s with
      config := w
      environ := if clearenv.isSome then fun _ => none else s.environ
      reloadTimeout := timeout.elim 0 fun k => atoiInt (keyString k) }

/-- The loop over `elektraConfig`; every round moves its cursor. -/
def addLayersHelper (dir : Str) : ℕ → State → KeySet → Except Ending (State × KeySet)
  | 0, s, lookupConfig => .ok (s, lookupConfig)
  | rounds + 1, s, lookupConfig =>
    match ksNext s.config.ks with
    | (none, ks) => .ok ({ s with config := { s.config with ks := ks } }, lookupConfig)
    | (some c, ks) =>
      let cascadingName := (keyName (s.config.cell c)).dropWhile (· ≠ pathSeparator)
      if dir.isPrefixOf cascadingName then do
        let (found, w) ← lookupByName fuel { s.config with ks := lookupConfig } cascadingName
        let value := found.elim (str "(null)") fun k => keyString (w.cell k)
        addLayersHelper dir rounds { s with
          config := { heap := w.heap, ks := ks }
          layers := Function.update s.layers (cascadingName.drop dir.length) (some value) } w.ks
      else addLayersHelper dir rounds { s with config := { s.config with ks := ks } } lookupConfig

def addLayers (s : State) : Except Ending State := do
  let (h, lookupConfig) := ksDup s.config.heap s.config.ks
  let rounds := s.config.ks.size + 1
  -- fallback config
  let (s, lookupConfig) ← addLayersHelper fuel (str "/env/layer/") rounds
    { s with config := { heap := h, ks := ksRewind s.config.ks } } lookupConfig
  let (s, lookupConfig) ← addLayersHelper fuel (str "/elektra/intercept/getenv/layer/") rounds
    { s with config := { s.config with ks := ksRewind s.config.ks } } lookupConfig
  .ok { s with config := { s.config with heap := ksDel s.config.heap lookupConfig } }

/-! ## getenv -/

variable (kdbGet : World → ℤ × World)

/-- The call of `kdbGet`, and what follows when there was a change. -/
def refresh (s : State) : Except Ending State :=
  let (ret, w) := kdbGet s.config
  if ret = 1 then do
    let s ← addLayers fuel { s with config := w, layers := fun _ => none }
    applyOptions fuel s
  else .ok { s with config := w }

def refreshAt (now : ℤ) (s : State) : Except Ending State :=
  if s.reloadNext ≤ now then refresh fuel kdbGet s else .ok s

/-- The beginning of `elektraGetEnv`, at the time `now`; the flag says whether `kdbGet` was called. -/
def reload (now : ℤ) (s : State) : Except Ending (Bool × State) :=
  if 0 < s.reloadTimeout then do
    let s' ← refreshAt fuel kdbGet now s
    .ok (decide (s.reloadNext ≤ now), { s' with reloadNext := now + ms s'.reloadTimeout })
  else .ok (false, s)

/-- A key at the new path, then one at the old path: the second call overwrites `finish`. -/
def getEnvKeys (layers : Str → Option Str) (w : World) (new old name : Str) :
    Except Ending ((Option Str × Bool) × World) := do
  let ((ret, finish), w) ← elektraGetEnvKey fuel layers w (new ++ name)
  match ret with
  | some ret => .ok ((some ret, finish), w)
  | none => elektraGetEnvKey fuel layers w (old ++ name)

/-- The rest of `elektraGetEnv`. -/
def search (layers environ : Str → Option Str) (w : World) (name : Str) :
    Except Ending (Option Str × World) := do
  let ((ret, finish), w) ←
    getEnvKeys fuel layers w (str "/elektra/intercept/getenv/override/") (str "/env/override/") name
  if finish then .ok (ret, w)
  else
    match environ name with
    | some ret => .ok (some ret, w)
    | none => do
      let ((ret, finish), w) ←
        getEnvKeys fuel layers w (str "/elektra/intercept/getenv/fallback/") (str "/env/fallback/") name
      if finish then .ok (ret, w) else .ok (none, w)

/-- What `elektraGetEnv` returns, and whether it called `kdbGet`. -/
structure Answer where
  ret : Option Str
  reloaded : Bool
  deriving DecidableEq, Repr

def elektraGetEnv (now : ℤ) (s : State) (cname : Str) : Except Ending (Answer × State) :=
  -- needed for bootstrapping
  if s.repo = false then .ok (⟨s.environ cname, false⟩, s)
  else do
    let (reloaded, s) ← reload fuel kdbGet now s
    let (ret, w) ← search fuel s.layers s.environ s.config cname
    .ok (⟨ret, reloaded⟩, { s with config := w })

end Lookups

/-! ## The places in their order -/

inductive Place
  | below (dir : Str)
  /-- the process environment -/
  | process
  deriving DecidableEq, Repr

def places : List Place :=
  [.below (str "/elektra/intercept/getenv/override/"), .below (str "/env/override/"), .process,
    .below (str "/elektra/intercept/getenv/fallback/"), .below (str "/env/fallback/")]

/-- What is at a place; a key with a null value is there. -/
inductive Hit
  | missing
  | null
  | value (s : Str)
  deriving DecidableEq, Repr

/-- What `elektraGetEnvKey` returns, and `finish`. -/
def Hit.answer : Hit → Option Str × Bool
  | missing => (none, false)
  | null => (none, true)
  | value s => (some s, true)

def hit (w : World) : Option KeyRef → Hit
  | none => .missing
  | some k => if keyIsBinary (w.cell k) then .null else .value (keyString (w.cell k))

section Order

variable (fuel : ℕ) (layers environ : Str → Option Str) (name : Str)

/-- A lookup may change the key set, so that the places are asked in turn. -/
def Place.ask : Place → World → Except Ending (Hit × World)
  | below dir, w => do
    let (key, w) ← elektraLookupWithContext fuel layers w (dir ++ name)
    .ok (hit w key, w)
  | process, w => .ok ((environ name).elim .missing .value, w)

/-- **The first hit**, as it was meant: a key with a null value ends the search. -/
def firstHit : List Place → World → Except Ending (Option Str × World)
  | [], w => .ok (none, w)
  | p :: places, w => do
    let (hit, w) ← p.ask fuel layers environ name w
    match hit with
    | .missing => firstHit places w
    | .null => .ok (none, w)
    | .value s => .ok (some s, w)

/-- A key with a null value ends the search at the old paths only. -/
def Place.heeds (p : Place) : Bool :=
  p = .below (str "/env/override/") || p = .below (str "/env/fallback/")

/-- There is no value, up to a null key that ends the search. -/
def silent : List Place → World → Bool
  | [], _ => true
  | p :: places, w =>
    match p.ask fuel layers environ name w with
    | .error _ => false
    | .ok (.value _, _) => false
    | .ok (.null, w) => p.heeds || silent places w
    | .ok (.missing, w) => silent places w

/-- When the first hit is a null key at a new path, there is no value behind it. -/
def heeded : List Place → World → Bool
  | [], _ => true
  | p :: places, w =>
    match p.ask fuel layers environ name w with
    | .error _ => false
    | .ok (.value _, _) => true
    | .ok (.null, w) => p.heeds || silent fuel layers environ name places w
    | .ok (.missing, w) => heeded places w

/-- The search of the code, over the same places. -/
def course : List Place → World → Except Ending (Option Str × World)
  | [], w => .ok (none, w)
  | p :: places, w => do
    let (hit, w) ← p.ask fuel layers environ name w
    match hit with
    | .missing => course places w
    | .null => if p.heeds then .ok (none, w) else course places w
    | .value s => .ok (some s, w)

end Order

section Order

variable {fuel : ℕ} {layers environ : Str → Option Str} {name : Str} {w : World}

theorem ask_below (dir : Str) : (Place.below dir).ask fuel layers environ name w =
    (elektraLookupWithContext fuel layers w (dir ++ name)).map fun r => (hit r.2 r.1, r.2) := by
  rw [Place.ask]
  cases elektraLookupWithContext fuel layers w (dir ++ name) <;> rfl

theorem elektraGetEnvKey_eq (dir : Str) : elektraGetEnvKey fuel layers w (dir ++ name) =
    ((Place.below dir).ask fuel layers environ name w).map fun r => (r.1.answer, r.2) := by
  rw [ask_below, elektraGetEnvKey]
  rcases elektraLookupWithContext fuel layers w (dir ++ name) with e | ⟨key, w'⟩
  · rfl
  · cases key with
    | none => rfl
    | some k =>
      have hanswer : (hit w' (some k)).answer =
          (if keyIsBinary (w'.cell k) then none else some (keyString (w'.cell k)), true) := by
        rw [hit]
        cases keyIsBinary (w'.cell k) <;> rfl
      exact congrArg (fun a => Except.ok (a, w')) hanswer.symm

/-- The two paths of one part: at the old one, a null key ends the search. -/
theorem course_getEnvKeys {new old : Str} {places : List Place} (hnew : (Place.below new).heeds = false)
    (hold : (Place.below old).heeds = true) :
    course fuel layers environ name (.below new :: .below old :: places) w = (do
      let ((ret, finish), w) ← getEnvKeys fuel layers w new old name
      if finish then .ok (ret, w) else course fuel layers environ name places w) := by
  have hrest (w : World) : course fuel layers environ name (.below old :: places) w = (do
      let ((ret, finish), w) ← elektraGetEnvKey fuel layers w (old ++ name)
      if finish then .ok (ret, w) else course fuel layers environ name places w) := by
    rw [course, hold, @elektraGetEnvKey_eq fuel layers environ name w]
    rcases (Place.below old).ask fuel layers environ name w with e | ⟨_ | _ | s, w'⟩ <;> rfl
  rw [course, hnew, getEnvKeys, @elektraGetEnvKey_eq fuel layers environ name w]
  rcases (Place.below new).ask fuel layers environ name w with e | ⟨_ | _ | s, w'⟩
  · rfl
  · exact hrest w'
  · exact hrest w'
  · rfl

/-- **The code asks the places in turn.** -/
theorem search_eq : search fuel layers environ w name = course fuel layers environ name places w := by
  rw [places, course_getEnvKeys (by decide) (by decide), search]
  rcases getEnvKeys fuel layers w (str "/elektra/intercept/getenv/override/") (str "/env/override/") name
    with e | ⟨⟨ret, finish⟩, w'⟩
  · rfl
  · cases finish with
    | true => rfl
    | false =>
      change (match environ name with
        | some ret => Except.ok (some ret, w')
        | none => _) = course fuel layers environ name [.process, _, _] w'
      rw [course, Place.ask]
      cases environ name with
      | none =>
        exact (@course_getEnvKeys fuel layers environ name w' (str "/elektra/intercept/getenv/fallback/")
          (str "/env/fallback/") [] (by decide) (by decide)).symm
      | some ret => rfl

theorem silent_iff : ∀ {places : List Place} {w : World}, silent fuel layers environ name places w = true ↔
    ∃ w', course fuel layers environ name places w = .ok (none, w')
  | [], w => ⟨fun _ => ⟨w, rfl⟩, fun _ => rfl⟩
  | p :: places, w => by
    rw [silent, course]
    rcases p.ask fuel layers environ name w with e | ⟨_ | _ | s, w⟩
    · exact ⟨fun h => (by cases h), fun ⟨w', h⟩ => by cases h⟩
    · exact silent_iff
    · cases hp : p.heeds with
      | true => exact ⟨fun _ => ⟨w, rfl⟩, fun _ => rfl⟩
      | false => exact silent_iff
    · exact ⟨fun h => (by cases h), fun ⟨w', h⟩ => by cases h⟩

/-- **The code finds the first hit if and only if a null key at a new path has no value behind it.** -/
theorem heeded_iff : ∀ {places : List Place} {w : World}, heeded fuel layers environ name places w = true ↔
    ∃ ret w₁ w₂, course fuel layers environ name places w = .ok (ret, w₁) ∧
      firstHit fuel layers environ name places w = .ok (ret, w₂)
  | [], w => ⟨fun _ => ⟨none, w, w, rfl, rfl⟩, fun _ => rfl⟩
  | p :: places, w => by
    rw [heeded, course, firstHit]
    rcases p.ask fuel layers environ name w with e | ⟨_ | _ | s, w⟩
    · exact ⟨fun h => (by cases h), fun ⟨ret, w₁, w₂, h, _⟩ => by cases h⟩
    · exact heeded_iff
    · cases hp : p.heeds with
      | true => exact ⟨fun _ => ⟨none, w, w, rfl, rfl⟩, fun _ => rfl⟩
      | false =>
        refine silent_iff.trans ⟨fun ⟨w', h⟩ => ⟨none, w', w, h, rfl⟩, fun ⟨ret, w₁, w₂, h, hnone⟩ => ⟨w₁, ?_⟩⟩
        cases hnone
        exact h
    · exact ⟨fun _ => ⟨some s, w, w, rfl, rfl⟩, fun _ => rfl⟩

end Order

section Calls

variable {fuel : ℕ} {kdbGet : World → ℤ × World} {now : ℤ} {s s' : State} {cname : Str} {reloaded : Bool}

/-- **A call of the intercepted getenv returns the first hit if and only if a null key at a new path has no
value behind it.** -/
theorem elektraGetEnv_first_iff (hrepo : s.repo = true) (hreload : reload fuel kdbGet now s = .ok (reloaded, s')) :
    (∃ ret w₁ w₂, elektraGetEnv fuel kdbGet now s cname = .ok (⟨ret, reloaded⟩, { s' with config := w₁ }) ∧
      firstHit fuel s'.layers s'.environ cname places s'.config = .ok (ret, w₂)) ↔
    heeded fuel s'.layers s'.environ cname places s'.config = true := by
  have hcall : elektraGetEnv fuel kdbGet now s cname =
      (course fuel s'.layers s'.environ cname places s'.config).map fun r =>
        (⟨r.1, reloaded⟩, { s' with config := r.2 }) := by
    rw [elektraGetEnv, hrepo, if_neg Bool.noConfusion, hreload]
    change (search fuel s'.layers s'.environ s'.config cname >>= _) = _
    rw [search_eq]
    cases course fuel s'.layers s'.environ cname places s'.config <;> rfl
  rw [heeded_iff, hcall]
  rcases course fuel s'.layers s'.environ cname places s'.config with e | ⟨ret, w⟩
  · exact ⟨fun ⟨_, _, _, h, _⟩ => (by cases h), fun ⟨_, _, _, h, _⟩ => (by cases h)⟩
  · refine ⟨fun ⟨ret', w₁, w₂, h, hfirst⟩ => ⟨ret', w, w₂, ?_, hfirst⟩,
      fun ⟨ret', w₁, w₂, h, hfirst⟩ => ⟨ret', w₁, w₂, ?_, hfirst⟩⟩
    · cases h
      rfl
    · cases h
      rfl

end Calls

section Examples

/-- The library after it was opened, with these keys. -/
def stateOf (keys : List Key) (reloadTimeout : ℤ) : State where
  repo := true
  config := worldOf keys
  layers := fun _ => none
  reloadTimeout := reloadTimeout
  reloadNext := 0
  environ := fun _ => none

/-- Storage without a change. -/
def unchanged (w : World) : ℤ × World := (0, w)

/-- A null key at the new path, and a value at the old one. -/
def shadowed : List Key :=
  [keySetBinary (keyNewName (str "user/elektra/intercept/getenv/override/A")) none,
    { keyNewName (str "user/env/override/A") with data := some (str "x" ++ [0]) }]

theorem first_old : ∃ ret w₁ w₂, elektraGetEnv 5 unchanged 0 (stateOf shadowed.tail 0) (str "A") =
      .ok (⟨ret, false⟩, { stateOf shadowed.tail 0 with config := w₁ }) ∧
    firstHit 5 (fun _ => none) (fun _ => none) (str "A") places (worldOf shadowed.tail) = .ok (ret, w₂) :=
  (elektraGetEnv_first_iff (s := stateOf shadowed.tail 0) rfl rfl).mpr (by decide +kernel)

/-- The null key is a hit, but the value at the old path is returned. -/
theorem null_given_up : ¬ ∃ ret w₁ w₂, elektraGetEnv 5 unchanged 0 (stateOf shadowed 0) (str "A") =
      .ok (⟨ret, false⟩, { stateOf shadowed 0 with config := w₁ }) ∧
    firstHit 5 (fun _ => none) (fun _ => none) (str "A") places (worldOf shadowed) = .ok (ret, w₂) := by
  intro ⟨ret, w₁, w₂, hcode, hfirst⟩
  have hvalue : (elektraGetEnv 5 unchanged 0 (stateOf shadowed 0) (str "A")).toOption.map (·.1.ret) =
      some (some (str "x")) := by decide +kernel
  have hnull : (firstHit 5 (fun _ => none) (fun _ => none) (str "A") places (worldOf shadowed)).toOption.map
      (·.1) = some none := by decide +kernel
  rw [hcode] at hvalue
  rw [hfirst] at hnull
  cases hvalue
  cases hnull

end Examples

section Calls

variable {fuel : ℕ} {kdbGet : World → ℤ × World} {now : ℤ} {s s' : State} {cname : Str}

/-! ## Calls with a timeout -/

theorem elektraGetEnv_reload {answer : Answer} (hrepo : s.repo = true) (ht : 0 < s.reloadTimeout)
    (h : elektraGetEnv fuel kdbGet now s cname = .ok (answer, s')) :
    answer.reloaded = decide (s.reloadNext ≤ now) ∧ s'.reloadNext = now + ms s'.reloadTimeout := by
  rw [elektraGetEnv, hrepo, if_neg Bool.noConfusion, reload, if_pos ht] at h
  rcases hnow : refreshAt fuel kdbGet now s with e | s₁
  · rw [hnow] at h
    cases h
  · rw [hnow] at h
    change (search fuel s₁.layers s₁.environ s₁.config cname >>= _) = _ at h
    rcases hsearch : search fuel s₁.layers s₁.environ s₁.config cname with e | ⟨ret, w⟩
    · rw [hsearch] at h
      cases h
    · rw [hsearch] at h
      cases h
      exact ⟨rfl, rfl⟩

/-- Calls one after the other, each with its time and whether it reloaded; the timeout is `t`. Between two
calls the environment may change. -/
inductive Run (t : ℤ) : State → List (ℤ × Bool) → Prop
  | done (s : State) : Run t s []
  | call {s s' : State} {fuel : ℕ} {kdbGet : World → ℤ × World} {environ : Str → Option Str} {now : ℤ}
      {cname : Str} {answer : Answer} {calls : List (ℤ × Bool)} :
      s.repo = true → ms s.reloadTimeout = t →
      elektraGetEnv fuel kdbGet now { s with environ := environ } cname = .ok (answer, s') →
      Run t s' calls → Run t s ((now, answer.reloaded) :: calls)

/-- Calls with one name at these times. -/
def callsAt (fuel : ℕ) (kdbGet : World → ℤ × World) (t : ℤ) (cname : Str) :
    State → List ℤ → Option (List (ℤ × Bool))
  | _, [] => some []
  | s, now :: times =>
    match elektraGetEnv fuel kdbGet now s cname with
    | .error _ => none
    | .ok (answer, s') =>
      if s.repo = true ∧ ms s.reloadTimeout = t then
        (callsAt fuel kdbGet t cname s' times).map ((now, answer.reloaded) :: ·)
      else none

variable {t : ℤ} {calls : List (ℤ × Bool)}

theorem run_callsAt : ∀ {times : List ℤ} {s : State} {calls : List (ℤ × Bool)},
    callsAt fuel kdbGet t cname s times = some calls → Run t s calls
  | [], s, calls, h => by
    cases h
    exact .done s
  | now :: times, s, calls, h => by
    rw [callsAt] at h
    rcases hcall : elektraGetEnv fuel kdbGet now s cname with e | ⟨answer, s'⟩
    · rw [hcall] at h
      cases h
    · rw [hcall] at h
      change (if _ then _ else _) = _ at h
      split at h
      · rename_i hs
        obtain ⟨rest, hrest, rfl⟩ := Option.map_eq_some_iff.mp h
        exact @Run.call t s s' fuel kdbGet s.environ now cname answer rest hs.1 hs.2 hcall (run_callsAt hrest)
      · cases h

/-- **The calls are those of a timer that every call puts off.** -/
theorem run_timer (ht : 0 < t) (h : Run t s calls) : calls = Timer.run t s.reloadNext (calls.map Prod.fst) := by
  induction h with
  | done s => rfl
  | call hrepo htimeout hcall rest ih =>
    rename_i s s' fuel kdbGet environ now cname answer calls
    have hpos : 0 < s.reloadTimeout := by
      unfold ms at htimeout
      omega
    obtain ⟨hreloaded, hnext⟩ :=
      @elektraGetEnv_reload fuel kdbGet now { s with environ := environ } s' cname answer hrepo hpos hcall
    rw [List.map_cons, Timer.run, hreloaded]
    refine congrArg _ ?_
    cases rest with
    | done => rfl
    | call _ htimeout' _ _ =>
      rw [hnext, htimeout'] at ih
      exact ih

/-- **With a timeout, the configuration is reloaded in time if and only if all calls of a burst come before the
timeout from its first call on is over.** -/
theorem reload_timely_iff {first : ℤ × Bool} (ht : 0 < t) (h : Run t s (first :: calls)) :
    Timer.Timely t first.1 calls ↔
      ∀ burst ∈ Timer.bursts t ((first :: calls).map Prod.fst), Timer.Within t burst := by
  have hrun := run_timer ht h
  rw [List.map_cons, Timer.run, List.cons.injEq] at hrun
  rw [List.map_cons, ← Timer.timely_run_iff ht, ← hrun.2]

end Calls

/-- The third call comes when the timeout since the second is over. -/
theorem reload_timely_pause : Timer.Timely (ms 10) 0 [(ms 6, false), (ms 16, true)] ↔
    ∀ burst ∈ Timer.bursts (ms 10) [0, ms 6, ms 16], Timer.Within (ms 10) burst :=
  reload_timely_iff (by decide) (@run_callsAt 5 unchanged (str "A") (ms 10) [0, ms 6, ms 16] (stateOf [] 10)
    [(0, true), (ms 6, false), (ms 16, true)] (by decide +kernel))

/-- A call every six milliseconds puts off the reload that is due after ten. -/
theorem not_reload_timely : Run (ms 10) (stateOf [] 10) [(0, true), (ms 6, false), (ms 12, false)] ∧
    ¬ Timer.Timely (ms 10) 0 [(ms 6, false), (ms 12, false)] :=
  ⟨@run_callsAt 5 unchanged (str "A") (ms 10) [0, ms 6, ms 12] (stateOf [] 10)
    [(0, true), (ms 6, false), (ms 12, false)] (by decide +kernel), fun h => Bool.noConfusion (h.2.2.1 (by decide))⟩

end Elektra.Getenv
