import Elektra.Name.Level
import Mathlib.Tactic

/-!
# Names with placeholders

What stands between two `%` in the name of a contextual value is a layer, or a group of layers that spaces
separate. The name under a context has there what the layers answer.

* `Scan`, `evaluate`: one character after the other;
* `attached`: the layers that a value listens to;
* **`evaluate_congr`**: the name depends on no other layer.
-/

namespace Elektra.Contextual

def percent : UInt8 := 37

def space : UInt8 := 32

/-- `on_layer`: it may add to the name, and says whether the group is left. -/
abbrev OnLayer := Str → Str → Bool → Bool × Str

/-- The variables of the loop of `evaluate`. -/
structure Scan where
  ret : Str
  currentId : Str
  /-- within a `%` block -/
  captureId : Bool
  /-- omit layers that do not matter in a group anymore -/
  leftGroup : Bool
  isInGroup : Bool
  /-- the layers that `on_layer` was called with -/
  called : List Str

namespace Scan

def start : Scan := ⟨[], [], false, false, false, []⟩

variable (onLayer : OnLayer) (s : Scan)

def step (c : UInt8) : Scan :=
  if c = percent then
    if s.captureId then
      if s.leftGroup then { s with currentId := [], captureId := false }
      else { s with
        ret := (onLayer s.currentId s.ret s.isInGroup).2
        called := s.called ++ [s.currentId]
        currentId := []
        captureId := false }
    else { s with captureId := true, leftGroup := false, isInGroup := false }
  else if s.captureId = true ∧ c = space ∧ s.leftGroup = false then
    -- a group separator in an active group
    let r := onLayer s.currentId s.ret true
    if s.isInGroup = false ∧ r.1 = true then
      { s with -- empty groups
        ret := r.2 ++ [percent]
        called := s.called ++ [s.currentId]
        leftGroup := r.1
        currentId := [] }
    else { s with
      ret := r.2
      called := s.called ++ [s.currentId]
      leftGroup := r.1
      isInGroup := true
      currentId := [] }
  else if s.captureId then { s with currentId := s.currentId ++ [c] }
  else { s with ret := s.ret ++ [c] }

def run (name : Str) : Scan := name.foldl (step onLayer) s

end Scan

/-- The `on_layer` of a context with these answers. -/
def answer (layers : Str → Option Str) : OnLayer := fun id ret inGroup =>
  match layers id with
  | some r =>
    if r ≠ [] then (false, (if inGroup then ret ++ [percent] else ret) ++ r)
    else if inGroup then (true, ret) else (true, ret ++ [percent])
  | none => if inGroup then (true, ret) else (true, ret ++ [percent])

def evaluate (layers : Str → Option Str) (name : Str) : Str := (Scan.start.run (answer layers) name).ret

/-- The `on_layer` of `attachByName`, which attaches to every layer. -/
def attachAll : OnLayer := fun _ ret _ => (false, ret)

/-- The events to which `attachByName` attaches. -/
def attached (name : Str) : List Str := (Scan.start.run attachAll name).called

/-! ## Layers that do not occur -/

section Congr

variable {onLayer : OnLayer} {layers layers' : Str → Option Str} {a s : Scan}

theorem called_step (c : UInt8) : s.called ⊆ (s.step onLayer c).called := by
  unfold Scan.step
  dsimp only
  split_ifs <;> simp

theorem called_run (name : Str) : s.called ⊆ (s.run onLayer name).called := by
  induction name generalizing s with
  | nil => exact fun _ h => h
  | cons c name ih => exact List.Subset.trans (called_step c) ih

/-- The scan `a` attaches to every layer that `s` may still ask. -/
structure Attaches (a s : Scan) : Prop where
  capture : s.captureId = a.captureId
  left : a.leftGroup = false
  id : s.captureId = true → s.leftGroup = false → s.currentId = a.currentId
  idle : s.captureId = false → s.currentId = [] ∧ a.currentId = []

theorem attaches_start : Attaches .start .start := ⟨rfl, rfl, fun _ _ => rfl, fun _ => ⟨rfl, rfl⟩⟩

theorem answer_congr {id : Str} (h : layers id = layers' id) : answer layers id = answer layers' id := by
  unfold answer
  rw [h]

/-- A character is read alike with layers that agree where the scan is attached. -/
theorem step_attaches (h : Attaches a s) (c : UInt8)
    (hcalled : ∀ id ∈ (a.step attachAll c).called, layers id = layers' id) :
    s.step (answer layers) c = s.step (answer layers') c ∧
      Attaches (a.step attachAll c) (s.step (answer layers) c) := by
  -- the layer that may be asked is the one that is attached
  have hasked : s.captureId = true → s.leftGroup = false → c = percent ∨ c = space →
      answer layers s.currentId = answer layers' s.currentId := by
    intro hcap hleft hc
    refine answer_congr (hcalled _ ?_)
    rw [h.id hcap hleft]
    have hcap' : a.captureId = true := h.capture ▸ hcap
    rcases hc with rfl | rfl
    · simp [Scan.step, hcap', h.left]
    · simp [Scan.step, hcap', h.left, percent, space, attachAll]
  obtain ⟨ret, current, capture, left, group, called⟩ := s
  obtain ⟨ret', current', capture', left', group', called'⟩ := a
  obtain ⟨rfl, rfl, hid, hidle⟩ := h
  dsimp only at hid hidle hasked
  unfold Scan.step
  dsimp only
  by_cases hp : c = percent
  · rw [if_pos hp, if_pos hp, if_pos hp]
    cases capture with
    | false =>
      obtain ⟨rfl, rfl⟩ := hidle rfl
      exact ⟨rfl, rfl, rfl, fun _ _ => rfl, nofun⟩
    | true =>
      cases left with
      | false =>
        rw [hasked rfl rfl (.inl hp)]
        exact ⟨rfl, rfl, rfl, nofun, fun _ => ⟨rfl, rfl⟩⟩
      | true => exact ⟨rfl, rfl, rfl, nofun, fun _ => ⟨rfl, rfl⟩⟩
  rw [if_neg hp, if_neg hp, if_neg hp]
  cases capture with
  | false => exact ⟨rfl, rfl, rfl, nofun, fun _ => hidle rfl⟩
  | true =>
    by_cases hs : c = space
    · have hask : true = true ∧ c = space ∧ false = false := ⟨rfl, hs, rfl⟩
      have hin : ¬(group' = false ∧ (attachAll current' ret' true).1 = true) := fun h => nomatch h.2
      cases left with
      | false =>
        rw [if_pos hask, if_pos hask, if_pos hask, if_neg hin, hasked rfl rfl (.inr hs)]
        refine ⟨rfl, ?_⟩
        split_ifs
        · exact ⟨rfl, rfl, fun _ _ => rfl, nofun⟩
        · exact ⟨rfl, rfl, fun _ _ => rfl, nofun⟩
      | true =>
        -- the scan has left the group, and asks no layer before its end
        have hleft : ¬(true = true ∧ c = space ∧ true = false) := fun h => nomatch h.2.2
        rw [if_neg hleft, if_neg hleft, if_pos hask, if_neg hin]
        exact ⟨rfl, rfl, rfl, (fun _ h => nomatch h), nofun⟩
    · have hnot : ∀ left, ¬(true = true ∧ c = space ∧ left = false) := fun _ h => hs h.2.1
      rw [if_neg (hnot _), if_neg (hnot _), if_neg (hnot _)]
      refine ⟨rfl, rfl, rfl, fun _ hl => ?_, nofun⟩
      exact congrArg (· ++ [c]) (hid rfl hl)

theorem run_congr (name : Str) : ∀ {a s : Scan}, Attaches a s →
    (∀ id ∈ (a.run attachAll name).called, layers id = layers' id) →
    s.run (answer layers) name = s.run (answer layers') name := by
  induction name with
  | nil => exact fun _ _ => rfl
  | cons c name ih =>
    intro a s h hcalled
    obtain ⟨hstep, hnext⟩ := step_attaches h c fun id hid => hcalled id (called_run name hid)
    change (s.step (answer layers) c).run _ name = (s.step (answer layers') c).run _ name
    rw [← hstep]
    exact ih hnext hcalled

/-- **A name depends on the layers that the value is attached to, and on no other.** -/
theorem evaluate_congr {name : Str} (h : ∀ id ∈ attached name, layers id = layers' id) :
    evaluate layers name = evaluate layers' name := by
  rw [evaluate, run_congr name attaches_start h, evaluate]

end Congr

/-! ## The start of a name -/

section Prefix

variable {s : Scan}

theorem le_answer (layers : Str → Option Str) (id ret : Str) (inGroup : Bool) :
    ret <+: (answer layers id ret inGroup).2 := by
  unfold answer
  cases layers id with
  | none => cases inGroup <;> simp
  | some r =>
    dsimp only
    split_ifs <;> simp

theorem ret_step (layers : Str → Option Str) (c : UInt8) : s.ret <+: (s.step (answer layers) c).ret := by
  unfold Scan.step
  dsimp only
  split_ifs
  all_goals first
    | exact List.prefix_refl _
    | exact List.prefix_append _ _
    | exact le_answer _ _ _ _
    | exact (le_answer _ _ _ _).trans (List.prefix_append _ _)

theorem ret_run (layers : Str → Option Str) (name : Str) : s.ret <+: (s.run (answer layers) name).ret := by
  induction name generalizing s with
  | nil => exact List.prefix_refl _
  | cons c name ih => exact (ret_step layers c).trans ih

theorem head_evaluate (layers : Str → Option Str) {name : Str} (h : name.head? = some pathSeparator) :
    (evaluate layers name).head? = some pathSeparator := by
  obtain ⟨t, rfl⟩ := List.head?_eq_some_iff.mp h
  obtain ⟨t', ht'⟩ := ret_run layers (s := Scan.start.step (answer layers) pathSeparator) t
  exact congrArg List.head? ht'.symm

end Prefix

end Elektra.Contextual
