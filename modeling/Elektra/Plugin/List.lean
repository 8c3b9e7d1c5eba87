import Elektra.Lookup.Resolve
import Elektra.Mount.Model
import Elektra.Split.Model

/-!
# The list plugin

The plugin has a cycle of placements for the gets, one for the sets and one for the errors. Each call is
for the current placement of its cycle, and looks for the next one that is enabled.

* `Cycle`, `elektraListOpen`, `listParseConfiguration`: the placements, and the plugins in them;
* `Slaves`, `runPlugins`, `Cycle.advance`, `step`, `run`: calls, `none` where one reads behind an array;
* `Cycle.goes`, **`goes_eq`**: the placements that one cycle goes through;
* `RoundRobin`, **`run_roundRobin_iff`**.

The search for the next placement does not start again at the front: it reads on behind the array.
-/

namespace Elektra.ListPlugin

/-! ## Configuration -/

inductive OP
  | get | set | err
  deriving DecidableEq

def OP.all : List OP := [.get, .set, .err]

/-- `getStrings`, `setStrings` and `errStrings`. -/
def OP.strings : OP → List Str
  | .get => [str "pregetstorage", str "postgetstorage", str "postgetcleanup"]
  | .set => [str "presetstorage", str "presetcleanup", str "precommit", str "postcommit"]
  | .err => [str "prerollback", str "postrollback"]

def OP.baseName : OP → Str
  | .get => str "get"
  | .set => str "set"
  | .err => str "error"

def strstr (s sub : Str) : Bool := s.tails.any sub.isPrefixOf

/-- Which placements are enabled, the keys of the plugins in each placement, and the current placement. -/
structure Cycle where
  enabled : List Bool
  keys : List (List Key)
  current : ℕ

abbrev Placements := OP → Cycle

def placementsNew : Placements := fun op =>
  { enabled := op.strings.map fun _ => false, keys := op.strings.map fun _ => [], current := 0 }

/-- The placements that the string names are enabled. -/
def Cycle.enable (c : Cycle) (strings : List Str) (s : Str) : Cycle :=
  { c with enabled := List.zipWith (fun string b => strstr s string || b) strings c.enabled }

/-- The plugin is appended to the placements that the string names. -/
def Cycle.add (c : Cycle) (strings : List Str) (s : Str) (cur : Key) : Cycle :=
  let add := fun string ks => if strstr s string then ksAppendValue ks (keyDup cur) else ks
  { c with keys := List.zipWith add strings c.keys }

section Open

variable (cb : Callback) (fuel : ℕ)

/-- The key `/placements/set`, and its siblings. -/
def openPlacements (op : OP) (p : Placements) (w : World) : Except Stop (Placements × World) := do
  let (key, w) ← ksLookupByName cb fuel w (str "/placements/" ++ op.baseName) {}
  match key with
  | none => .ok (p, w)
  | some key =>
    .ok (Function.update p op ((p op).enable op.strings (keyString (w.cell key))), w)

/-- The placements of the plugin `cur`, which are below it. -/
def parsePlacements (cur lookup : KeyRef) (op : OP) (p : Placements) (w : World) :
    Except Stop (Placements × World) := do
  let (sub, w) ← ksLookup cb fuel w lookup {}
  match sub with
  | none => .ok (p, w)
  | some sub =>
    .ok (Function.update p op ((p op).add op.strings (keyString (w.cell sub)) (w.cell cur)), w)

/-- The loop over the keys that were cut; the lookups move the cursor. -/
def parseLoop (key : KeyRef) : ℕ → Placements → World → Except Stop Placements
  | 0, _, _ => .error .fuel
  | n + 1, p, w =>
    match ksNext w.ks with
    | (none, _) => .ok p
    | (some cur, ks) =>
      let w := { w with ks := ks }
      if keyRel (w.cell key) (w.cell cur) ≠ some 1 then parseLoop key n p w
      else do
        let sub := (keyAddBaseName (keyDup (w.cell cur)) (some (str "placements"))).2
        let (lookup, w) := w.alloc (keyAddBaseName sub (some (OP.set).baseName)).2
        let (p, w) ← parsePlacements cb fuel cur lookup .set p w
        let w := w.set lookup (keySetBaseName (w.cell lookup) (some (OP.get).baseName)).2
        let (p, w) ← parsePlacements cb fuel cur lookup .get p w
        let w := w.set lookup (keySetBaseName (w.cell lookup) (some (OP.err).baseName)).2
        let (p, w) ← parsePlacements cb fuel cur lookup .err p w
        parseLoop key n p (w.del lookup)

/-- The plugins directly below `/plugins`. -/
def listParseConfiguration (p : Placements) (w : World) : Except Stop Placements := do
  let (key, w) ← ksLookupByName cb fuel w (str "/plugins") {}
  match key with
  | none => .ok p
  | some key =>
    match ksCut w.heap w.ks key with
    | (_, _, none) => .ok p
    | (h, _, some cutKS) =>
      if cutKS.size < 2 then .ok p
      else parseLoop cb fuel key fuel p { heap := h, ks := ksRewind cutKS }

/-- `w` is the configuration of the plugin. -/
def elektraListOpen (w : World) : Except Stop Placements := do
  let (p, w) ← openPlacements cb fuel .set placementsNew w
  let (p, w) ← openPlacements cb fuel .get p w
  let (p, w) ← openPlacements cb fuel .err p w
  listParseConfiguration cb fuel p w

end Open

/-! ## Calls -/

/-- The plugins that are delegated to: loading one with the configuration below its key, and its
functions; `-1` is an error. -/
structure Slaves (σ : Type) where
  pluginOpen : Str → Key → σ → Bool × σ
  call : OP → Str → σ → ℤ × σ

/-- The plugins that are loaded, by name. -/
structure Plugins (σ : Type) where
  loaded : List Str
  state : σ

/-- A get goes from the first plugin to the last (`ksNext`), the others from the last on (`ksPop`). -/
def OP.order (op : OP) (keys : List Key) : List Key :=
  match op with
  | .get => keys
  | .set | .err => keys.reverse

variable {σ : Type} (slaves : Slaves σ)

/-- The plugin of a key, which is loaded when it is not yet. -/
def loadPlugin (current : Key) (s : Plugins σ) : Bool × Plugins σ :=
  let name := keyString current
  if s.loaded.contains name then (true, s)
  else
    match slaves.pluginOpen name current s.state with
    | (true, state) => (true, { loaded := name :: s.loaded, state := state })
    | (false, state) => (false, { s with state := state })

/-- What is returned, and the plugins that were executed. -/
def runPlugins (op : OP) : List Key → Plugins σ → ℤ × List Key × Plugins σ
  | [], s => (1, [], s)
  | current :: keys, s =>
    match loadPlugin slaves current s with
    | (false, s) => (-1, [], s)
    | (true, s) =>
      let (ret, state) := slaves.call op (keyString current) s.state
      let s := { s with state := state }
      if ret = -1 then (-1, [current], s)
      else
        let (ret, executed, s) := runPlugins op keys s
        (ret, current :: executed, s)

/-- The search from `i` on; the array ends behind the flags. -/
def searchPlacement : List Bool → ℕ → Option ℕ
  | [], _ => none
  | b :: flags, i => if b then some i else searchPlacement flags (i + 1)

/-- The current placement is not reduced in the search, only where it is stored. -/
def Cycle.advance (c : Cycle) : Option Cycle :=
  (searchPlacement (c.enabled.drop (c.current + 1)) (c.current + 1)).map fun i =>
    { c with current := i % c.enabled.length }

inductive Call
  | get (parentKey : Key)
  | set
  | error

/-- A get of the contract is for no placement. -/
def Call.op : Call → Option OP
  | .get parentKey => if keyName parentKey = str "system/elektra/modules/list" then none else some .get
  | .set => some .set
  | .error => some .err

/-- A call: the placement it was for, the plugins that were executed, and what was returned. -/
structure Entry where
  op : OP
  placement : ℕ
  executed : List Key
  ret : ℤ

structure State (σ : Type) where
  placements : Placements
  plugins : Plugins σ

/-- `elektraListGet`, `elektraListSet` and `elektraListError` on a cycle. -/
def callCycle (st : State σ) (op : OP) : Option (Entry × State σ) :=
  ((st.placements op).keys[(st.placements op).current]?).bind fun keys =>
    let (ret, executed, plugins) := runPlugins slaves op (op.order keys) st.plugins
    (st.placements op).advance.map fun c =>
      (⟨op, (st.placements op).current, executed, ret⟩,
        { placements := Function.update st.placements op c, plugins := plugins })

def run (st : State σ) : List Call → Option (List Entry)
  | [] => some []
  | call :: calls =>
    match call.op with
    | none => run st calls
    | some op =>
      (callCycle slaves st op).bind fun r => (run r.2 calls).map fun trace => r.1 :: trace

/-! ## What is expected -/

/-- The positions of the flags that are set, where the first one is at `i`. -/
def placesFrom : List Bool → ℕ → List ℕ
  | [], _ => []
  | b :: flags, i => if b then i :: placesFrom flags (i + 1) else placesFrom flags (i + 1)

/-- The enabled placements in their order. -/
def Cycle.places (c : Cycle) : List ℕ := placesFrom c.enabled 0

/-- The call executes the plugins of its placement, all of them unless there is an error. -/
def Executes (p : Placements) (e : Entry) : Prop :=
  ∃ keys, (p e.op).keys[e.placement]? = some keys ∧ e.executed <+: e.op.order keys ∧
    (e.ret ≠ -1 → e.executed = e.op.order keys)

/-- How many calls of a kind there are. -/
def calls (op : OP) (cs : List Call) : ℕ := cs.countP fun call => call.op = some op

/-- Every call returns, those of a kind go through its enabled placements cyclically, and execute the
plugins there. -/
def RoundRobin (p : Placements) (cs : List Call) (result : Option (List Entry)) : Prop :=
  ∃ trace, result = some trace ∧ (∀ e ∈ trace, Executes p e) ∧
    ∀ op, ((trace.filter (·.op = op)).map Entry.placement).length = calls op cs ∧
      ∀ j < calls op cs, ((trace.filter (·.op = op)).map Entry.placement)[j]? =
        (p op).places[j % (p op).places.length]?

/-! ## What open sets up -/

/-- The arrays have the sizes of the enumerations, and every cycle starts at its first placement. -/
structure Ready (p : Placements) : Prop where
  enabled : ∀ op, (p op).enabled.length = op.strings.length
  keys : ∀ op, (p op).keys.length = op.strings.length
  current : ∀ op, (p op).current = 0

section Open

variable {cb : Callback} {fuel : ℕ} {p p' : Placements} {w w' : World}

theorem ready_new : Ready placementsNew where
  enabled _ := List.length_map ..
  keys _ := List.length_map ..
  current _ := rfl

theorem Ready.update (h : Ready p) {op : OP} {c : Cycle} (he : c.enabled.length = op.strings.length)
    (hk : c.keys.length = op.strings.length) (hc : c.current = 0) : Ready (Function.update p op c) := by
  have hop : ∀ op', ((Function.update p op c op').enabled.length = op'.strings.length ∧
      (Function.update p op c op').keys.length = op'.strings.length) ∧
        (Function.update p op c op').current = 0 := by
    intro op'
    by_cases heq : op' = op
    · subst heq
      rw [Function.update_self]
      exact ⟨⟨he, hk⟩, hc⟩
    · rw [Function.update_of_ne heq]
      exact ⟨⟨h.enabled op', h.keys op'⟩, h.current op'⟩
  exact ⟨fun op => (hop op).1.1, fun op => (hop op).1.2, fun op => (hop op).2⟩

theorem openPlacements_ready {op : OP} (h : openPlacements cb fuel op p w = .ok (p', w')) (hp : Ready p) :
    Ready p' := by
  obtain ⟨⟨key, w₁⟩, -, h⟩ := except_bind_ok h
  cases key with
  | none =>
    cases h
    exact hp
  | some key =>
    cases h
    refine hp.update ?_ (hp.keys op) (hp.current op)
    rw [Cycle.enable, List.length_zipWith, hp.enabled op, Nat.min_self]

theorem parsePlacements_ready {cur lookup : KeyRef} {op : OP}
    (h : parsePlacements cb fuel cur lookup op p w = .ok (p', w')) (hp : Ready p) : Ready p' := by
  obtain ⟨⟨sub, w₁⟩, -, h⟩ := except_bind_ok h
  cases sub with
  | none =>
    cases h
    exact hp
  | some sub =>
    cases h
    refine hp.update (hp.enabled op) ?_ (hp.current op)
    dsimp only [Cycle.add]
    rw [List.length_zipWith, hp.keys op, Nat.min_self]

theorem parseLoop_ready {key : KeyRef} : ∀ {n : ℕ} {p : Placements} {w : World},
    parseLoop cb fuel key n p w = .ok p' → Ready p → Ready p'
  | 0, _, _, h, _ => by cases h
  | n + 1, p, w, h, hp => by
    unfold parseLoop at h
    split at h
    · cases h
      exact hp
    · dsimp only at h
      split_ifs at h
      · exact parseLoop_ready h hp
      · obtain ⟨⟨p₁, w₁⟩, h₁, h⟩ := except_bind_ok h
        obtain ⟨⟨p₂, w₂⟩, h₂, h⟩ := except_bind_ok h
        obtain ⟨⟨p₃, w₃⟩, h₃, h⟩ := except_bind_ok h
        exact parseLoop_ready h (parsePlacements_ready h₃ (parsePlacements_ready h₂
          (parsePlacements_ready h₁ hp)))

theorem elektraListOpen_ready (h : elektraListOpen cb fuel w = .ok p) : Ready p := by
  obtain ⟨⟨p₁, w₁⟩, h₁, h⟩ := except_bind_ok h
  obtain ⟨⟨p₂, w₂⟩, h₂, h⟩ := except_bind_ok h
  obtain ⟨⟨p₃, w₃⟩, h₃, h⟩ := except_bind_ok h
  have hp := openPlacements_ready h₃ (openPlacements_ready h₂ (openPlacements_ready h₁ ready_new))
  obtain ⟨⟨key, w₄⟩, -, h⟩ := except_bind_ok h
  cases key with
  | none =>
    cases h
    exact hp
  | some key =>
    dsimp only at h
    split at h
    · cases h
      exact hp
    · split_ifs at h
      · cases h
        exact hp
      · exact parseLoop_ready h hp

end Open

/-! ## One cycle -/

/-- The placements of `n` calls. -/
def Cycle.goes (c : Cycle) : ℕ → Option (List ℕ)
  | 0 => some []
  | n + 1 => c.advance.bind fun c' => (c'.goes n).map (c.current :: ·)

/-- The enabled placements behind the current one. -/
def Cycle.later (c : Cycle) : List ℕ := placesFrom (c.enabled.drop (c.current + 1)) (c.current + 1)

theorem searchPlacement_eq : ∀ (l : List Bool) (i : ℕ), searchPlacement l i = (placesFrom l i).head?
  | [], _ => rfl
  | b :: l, i => by
    rw [searchPlacement, placesFrom]
    split_ifs
    · rfl
    · exact searchPlacement_eq l (i + 1)

/-- The positions are behind the front, and the flags behind a position have the next ones. -/
theorem placesFrom_cons : ∀ {l : List Bool} {i j : ℕ} {t : List ℕ}, placesFrom l i = j :: t →
    i ≤ j ∧ j < i + l.length ∧ placesFrom (l.drop (j - i + 1)) (j + 1) = t
  | [], _, _, _, h => by cases h
  | b :: l, i, j, t, h => by
    rw [placesFrom] at h
    rw [List.length_cons]
    split_ifs at h
    · obtain ⟨rfl, rfl⟩ := List.cons.inj h
      refine ⟨le_rfl, by omega, ?_⟩
      rw [Nat.sub_self]
      rfl
    · obtain ⟨h₁, h₂, h₃⟩ := placesFrom_cons h
      refine ⟨by omega, by omega, ?_⟩
      rwa [show j - i = j - (i + 1) + 1 by omega, List.drop_succ_cons]

theorem le_of_mem_placesFrom : ∀ {l : List Bool} {i j : ℕ}, j ∈ placesFrom l i → i ≤ j
  | [], _, _, h => by cases h
  | b :: l, i, j, h => by
    rw [placesFrom] at h
    split_ifs at h
    · obtain rfl | h := List.mem_cons.mp h
      · exact le_rfl
      · exact Nat.le_of_succ_le (le_of_mem_placesFrom h)
    · exact Nat.le_of_succ_le (le_of_mem_placesFrom h)

theorem advance_eq {c : Cycle} {j : ℕ} {t : List ℕ} (h : c.later = j :: t) :
    c.advance = some { c with current := j } ∧ Cycle.later { c with current := j } = t := by
  obtain ⟨h₁, h₂, h₃⟩ := placesFrom_cons h
  rw [List.length_drop] at h₂
  rw [List.drop_drop, show c.current + 1 + (j - (c.current + 1) + 1) = j + 1 by omega] at h₃
  refine ⟨?_, h₃⟩
  rw [Cycle.advance, searchPlacement_eq, show placesFrom _ _ = j :: t from h, List.head?_cons, Option.map_some,
    Nat.mod_eq_of_lt (by omega)]

/-- **A cycle goes through the placements behind the current one, and no further.** -/
theorem goes_eq : ∀ (n : ℕ) (c : Cycle),
    c.goes n = if n ≤ c.later.length then some ((c.current :: c.later).take n) else none
  | 0, _ => rfl
  | n + 1, c => by
    rw [Cycle.goes]
    cases h : c.later with
    | nil =>
      have hnone : c.advance = none := by
        rw [Cycle.advance, searchPlacement_eq, show placesFrom _ _ = [] from h]
        rfl
      rw [hnone]
      rfl
    | cons j t =>
      obtain ⟨hadv, hlater⟩ := advance_eq h
      rw [hadv, Option.bind_some, goes_eq n, hlater, List.length_cons]
      simp only [Nat.add_le_add_iff_right]
      split_ifs <;> rfl

/-- The calls of one kind go through the enabled placements cyclically. -/
def Cyclic (places : List ℕ) (n : ℕ) (l : List ℕ) : Prop :=
  l.length = n ∧ ∀ j < n, l[j]? = places[j % places.length]?

/-- From the first placement on, that is where it is enabled and the search does not come to the end. -/
theorem goes_cyclic_iff {c : Cycle} (hc : c.current = 0) (n : ℕ) :
    (∃ l, c.goes n = some l ∧ Cyclic c.places n l) ↔
      n = 0 ∨ c.enabled.head? = some true ∧ n < c.places.length := by
  have hlater : c.later = placesFrom c.enabled.tail 1 := by
    rw [Cycle.later, hc, List.drop_one]
  have hplaces : c.places = if c.enabled.head? = some true then 0 :: c.later else c.later := by
    rw [hlater, Cycle.places]
    cases c.enabled with
    | nil => rfl
    | cons b l => cases b <;> rfl
  rw [goes_eq]
  constructor
  · rintro ⟨l, hl, hlen, hcyc⟩
    by_cases hn : n = 0
    · exact .inl hn
    right
    split_ifs at hl with hle
    have hfirst := hcyc 0 (Nat.pos_of_ne_zero hn)
    rw [← Option.some.inj hl, List.getElem?_take_of_lt (Nat.pos_of_ne_zero hn), Nat.zero_mod, hc] at hfirst
    rw [hplaces] at hfirst ⊢
    split_ifs at hfirst ⊢ with hhead
    · exact ⟨hhead, Nat.lt_succ_of_le hle⟩
    · have hmem : (0 : ℕ) ∈ c.later := List.mem_of_getElem? hfirst.symm
      rw [hlater] at hmem
      exact absurd (le_of_mem_placesFrom hmem) (by decide)
  · rintro (rfl | ⟨hhead, hlt⟩)
    · exact ⟨[], by simp, rfl, by simp⟩
    · rw [hplaces, if_pos hhead, List.length_cons] at hlt
      rw [if_pos (Nat.le_of_lt_succ hlt), hplaces, if_pos hhead]
      refine ⟨_, rfl, ?_, fun j hj => ?_⟩
      · rw [List.length_take, List.length_cons, Nat.min_eq_left (Nat.le_of_lt hlt)]
      · rw [List.getElem?_take_of_lt hj, hc, List.length_cons,
          Nat.mod_eq_of_lt (Nat.lt_trans hj hlt)]

/-! ## All calls -/

/-- The current placement is in the arrays. -/
def Cycle.Valid (c : Cycle) : Prop := c.keys.length = c.enabled.length ∧ c.current < c.enabled.length

theorem advance_cases {c c' : Cycle} (h : c.advance = some c') (hc : c.Valid) :
    c'.Valid ∧ c'.keys = c.keys := by
  obtain ⟨i, -, rfl⟩ := Option.map_eq_some_iff.mp h
  exact ⟨⟨hc.1, Nat.mod_lt _ (Nat.zero_lt_of_lt hc.2)⟩, rfl⟩

section Run

variable {σ : Type} {slaves : Slaves σ}

theorem runPlugins_order (op : OP) : ∀ (keys : List Key) (s : Plugins σ),
    (runPlugins slaves op keys s).2.1 <+: keys ∧
      ((runPlugins slaves op keys s).1 ≠ -1 → (runPlugins slaves op keys s).2.1 = keys)
  | [], s => ⟨List.nil_prefix, fun _ => rfl⟩
  | current :: keys, s => by
    rw [runPlugins]
    generalize loadPlugin slaves current s = r
    obtain ⟨b, s₁⟩ := r
    cases b with
    | false => exact ⟨List.nil_prefix, fun h => absurd rfl h⟩
    | true =>
      dsimp only
      split_ifs with hret
      · exact ⟨List.prefix_append [current] keys, fun h => absurd rfl h⟩
      · obtain ⟨hpre, hall⟩ := runPlugins_order op keys
          { s₁ with state := (slaves.call op (keyString current) s₁.state).2 }
        exact ⟨(List.prefix_cons_inj current).mpr hpre, fun h => congrArg _ (hall h)⟩

theorem callCycle_eq (st : State σ) (op : OP) (hv : (st.placements op).Valid) :
    ∃ e plugins, e.op = op ∧ e.placement = (st.placements op).current ∧ Executes st.placements e ∧
      callCycle slaves st op = (st.placements op).advance.map fun c =>
        (e, { placements := Function.update st.placements op c, plugins := plugins }) := by
  obtain ⟨keys, hkeys⟩ : ∃ keys, (st.placements op).keys[(st.placements op).current]? = some keys :=
    ⟨_, List.getElem?_eq_getElem (hv.1 ▸ hv.2)⟩
  obtain ⟨hpre, hall⟩ := @runPlugins_order σ slaves op (op.order keys) st.plugins
  refine ⟨⟨op, (st.placements op).current, (runPlugins slaves op (op.order keys) st.plugins).2.1,
    (runPlugins slaves op (op.order keys) st.plugins).1⟩,
    (runPlugins slaves op (op.order keys) st.plugins).2.2, rfl, rfl, ⟨keys, hkeys, hpre, hall⟩, ?_⟩
  rw [callCycle, hkeys]
  rfl

theorem Executes.congr {p p' : Placements} {e : Entry} (h : Executes p e)
    (hp : ∀ op, (p' op).keys = (p op).keys) : Executes p' e := by
  obtain ⟨keys, hkeys, hexec⟩ := h
  exact ⟨keys, (hp e.op).symm ▸ hkeys, hexec⟩

/-- **The calls of each kind are those of its cycle.** -/
theorem run_spec : ∀ (cs : List Call) (st : State σ), (∀ op, (st.placements op).Valid) →
    (∀ trace, run slaves st cs = some trace → (∀ e ∈ trace, Executes st.placements e) ∧
      ∀ op, (st.placements op).goes (calls op cs) =
        some ((trace.filter (·.op = op)).map Entry.placement)) ∧
    ((∀ op, ((st.placements op).goes (calls op cs)).isSome) → (run slaves st cs).isSome)
  | [], st, _ => by
    refine ⟨fun trace h => ?_, fun _ => rfl⟩
    cases h
    exact ⟨nofun, fun _ => rfl⟩
  | call :: cs, st, hv => by
    cases hop : call.op with
    | none =>
      have hcalls : ∀ op, calls op (call :: cs) = calls op cs := fun op => by
        rw [calls, List.countP_cons_of_neg (by rw [hop]; simp)]
        rfl
      have ih := run_spec cs st hv
      simp only [run, hop, hcalls]
      exact ih
    | some o =>
      have hcalls : ∀ op, calls op (call :: cs) = calls op cs + if op = o then 1 else 0 := by
        intro op
        rw [calls, List.countP_cons, hop]
        simp [calls, eq_comm]
      obtain ⟨e, plugins, heop, hplace, hexec, hcall⟩ := @callCycle_eq σ slaves st o (hv o)
      simp only [run, hop, hcall]
      cases hadv : (st.placements o).advance with
      | none =>
        refine ⟨fun trace h => (by cases h), fun h => ?_⟩
        have ho := h o
        rw [hcalls, if_pos rfl, Cycle.goes, hadv] at ho
        cases ho
      | some c =>
        obtain ⟨hvc, hkeys⟩ := advance_cases hadv (hv o)
        have hgoes : ∀ op, (st.placements op).goes (calls op (call :: cs)) =
            if op = o then ((Function.update st.placements o c op).goes (calls op cs)).map
              ((st.placements o).current :: ·)
            else (Function.update st.placements o c op).goes (calls op cs) := by
          intro op
          rw [hcalls]
          split_ifs with heq
          · subst heq
            rw [Function.update_self, Cycle.goes, hadv]
            rfl
          · rw [Function.update_of_ne heq]
            rfl
        obtain ⟨ih₁, ih₂⟩ := run_spec cs
          { placements := Function.update st.placements o c, plugins := plugins } fun op => by
            by_cases heq : op = o
            · subst heq
              dsimp only
              rwa [Function.update_self]
            · dsimp only
              rw [Function.update_of_ne heq]
              exact hv op
        rw [Option.map_some, Option.bind_some]
        constructor
        · intro trace htrace
          obtain ⟨rest, hrest, rfl⟩ := Option.map_eq_some_iff.mp htrace
          obtain ⟨hexec', hgoes'⟩ := ih₁ rest hrest
          constructor
          · intro e' he'
            obtain rfl | he' := List.mem_cons.mp he'
            · exact hexec
            · refine (hexec' e' he').congr fun op => ?_
              dsimp only
              by_cases heq : op = o
              · subst heq
                rw [Function.update_self, hkeys]
              · rw [Function.update_of_ne heq]
          · intro op
            rw [hgoes op, hgoes' op, List.filter_cons, heop]
            by_cases heq : op = o
            · subst heq
              simp [hplace]
            · simp [heq, Ne.symm heq]
        · intro h
          rw [Option.isSome_map]
          refine ih₂ fun op => ?_
          have ho := h op
          rw [hgoes op] at ho
          split_ifs at ho
          · rwa [Option.isSome_map] at ho
          · exact ho

end Run

/-- **The calls of a kind go through the enabled placements exactly when there are none, or the first
placement is enabled and there are fewer calls than enabled placements.** -/
theorem run_roundRobin_iff {σ : Type} (slaves : Slaves σ) (cb : Callback) (fuel : ℕ) (config : World)
    (p : Placements) (hopen : elektraListOpen cb fuel config = .ok p) (plugins : Plugins σ)
    (cs : List Call) :
    RoundRobin p cs (run slaves { placements := p, plugins := plugins } cs) ↔
      ∀ op, calls op cs = 0 ∨ (p op).enabled.head? = some true ∧ calls op cs < (p op).places.length := by
  have hready := elektraListOpen_ready hopen
  have hv : ∀ op, (p op).Valid := by
    intro op
    refine ⟨(hready.keys op).trans (hready.enabled op).symm, ?_⟩
    rw [hready.current op, hready.enabled op]
    cases op <;> decide
  obtain ⟨htrace, hsome⟩ := @run_spec σ slaves cs { placements := p, plugins := plugins } hv
  have hiff : ∀ op, (∃ l, (p op).goes (calls op cs) = some l ∧ Cyclic (p op).places (calls op cs) l) ↔
      calls op cs = 0 ∨ (p op).enabled.head? = some true ∧ calls op cs < (p op).places.length :=
    fun op => goes_cyclic_iff (hready.current op) (calls op cs)
  simp only [← hiff]
  constructor
  · rintro ⟨trace, hrun, -, hcyc⟩ op
    exact ⟨_, (htrace trace hrun).2 op, hcyc op⟩
  · intro h
    have hgoes : ∀ op, ((p op).goes (calls op cs)).isSome := fun op => by
      obtain ⟨l, hl, -⟩ := h op
      rw [hl]
      rfl
    obtain ⟨trace, hrun⟩ := Option.isSome_iff_exists.mp (hsome hgoes)
    refine ⟨trace, hrun, (htrace trace hrun).1, fun op => ?_⟩
    obtain ⟨l, hl, hcyc⟩ := h op
    have hl' := (htrace trace hrun).2 op
    cases hl.symm.trans hl'
    exact hcyc

/-- A key with a string. -/
def keyNewString (name value : Str) : Key := { keyNewName name with data := some (value ++ [0]) }

/-- A plugin that is placed before and behind the storage of a get. -/
def config : World :=
  worldOf [keyNewName (str "user/placements"),
    keyNewString (str "user/placements/get") (str "pregetstorage postgetstorage"),
    keyNewName (str "user/plugins"), keyNewString (str "user/plugins/#0") (str "rename"),
    keyNewName (str "user/plugins/#0/placements"),
    keyNewString (str "user/plugins/#0/placements/get") (str "pregetstorage postgetstorage")]

/-- Plugins that can be loaded and do nothing. -/
def idle : Slaves Unit := { pluginOpen := fun _ _ _ => (true, ()), call := fun _ _ _ => (0, ()) }

def get : Call := .get (keyNewName (str "user"))

theorem ok_of_toOption {ε α : Type} {x : Except ε α} {a : α} (h : x.toOption = some a) : x = .ok a := by
  cases x with
  | error e => cases h
  | ok b => exact congrArg Except.ok (Option.some.inj h)

theorem open_config : ∃ p, elektraListOpen noCallback 20 config = .ok p ∧
    (p .get).enabled = [true, true, false] ∧ (p .get).keys.map List.length = [1, 1, 0] := by
  have hopen : (elektraListOpen noCallback 20 config).toOption.map
      (fun p => ((p .get).enabled, (p .get).keys.map List.length)) =
        some ([true, true, false], [1, 1, 0]) := by decide +kernel
  obtain ⟨p, hp, heq⟩ := Option.map_eq_some_iff.mp hopen
  obtain ⟨henabled, hkeys⟩ := Prod.mk.inj heq
  exact ⟨p, ok_of_toOption hp, henabled, hkeys⟩

/-- One get. -/
theorem run_roundRobin_get : ∃ p, elektraListOpen noCallback 20 config = .ok p ∧
    (p .get).keys.map List.length = [1, 1, 0] ∧
    RoundRobin p [get] (run idle { placements := p, plugins := { loaded := [], state := () } } [get]) := by
  obtain ⟨p, hp, henabled, hkeys⟩ := open_config
  refine ⟨p, hp, hkeys, (run_roundRobin_iff idle noCallback 20 config p hp _ [get]).mpr fun op => ?_⟩
  cases op with
  | get =>
    right
    rw [Cycle.places, henabled]
    decide +kernel
  | set => exact .inl (by decide +kernel)
  | err => exact .inl (by decide +kernel)

/-- The second get reads behind the array: the two placements of the configuration are one get. -/
theorem not_run_roundRobin : ∃ p, elektraListOpen noCallback 20 config = .ok p ∧
    ¬RoundRobin p [get, get]
      (run idle { placements := p, plugins := { loaded := [], state := () } } [get, get]) := by
  have hopen : (elektraListOpen noCallback 20 config).toOption.map (fun p =>
      (run idle { placements := p, plugins := { loaded := [], state := () } } [get, get]).isNone) =
        some true := by decide +kernel
  obtain ⟨p, hp, hnone⟩ := Option.map_eq_some_iff.mp hopen
  refine ⟨p, ok_of_toOption hp, ?_⟩
  rintro ⟨trace, htrace, -⟩
  rw [htrace] at hnone
  cases hnone

end Elektra.ListPlugin
