import Elektra.Context.Evaluate
import Elektra.Search.Pieces
import Mathlib.Algebra.Group.Even
import Mathlib.Data.Finset.Basic

/-!
# The parts of a name with placeholders

The loop of `evaluate` has one flag for a placeholder, one for a group and one for a group that was left.
It reads a name part by part.

* `NamePart`, `parts`, `NamePart.value`: texts and placeholders in turn, and what they are under a context;
* `run_content`, `run_visits`: the loop over the content of a placeholder;
* **`evaluate_parts`**, **`attached_parts`**: the loop over a name;
* `Subject`, `attachByName`, `notifyByEvents`: who listens to which layer;
* **`evaluate_spec`**.
-/

namespace Elektra.Contextual

/-! ## Parts -/

inductive NamePart
  | text (s : Str)
  /-- what stands between two `%` -/
  | placeholder (content : Str)
  deriving DecidableEq, Repr

/-- The pieces between the `%` of a name are texts and placeholders in turn. -/
def partsOf : List Str → List NamePart
  | [] => []
  | [s] => [.text s]
  | s :: content :: pieces => .text s :: .placeholder content :: partsOf pieces

def parts (name : Str) : List NamePart := partsOf (name.splitOn percent)

/-- The identifiers of a placeholder. -/
def NamePart.ids : NamePart → List Str
  | text _ => []
  | placeholder content => content.splitOn space

section Value

variable (layers : Str → Option Str)

/-- The value of a layer, empty when it is inactive. -/
def layerValue (id : Str) : Str := (layers id).getD []

/-- A placeholder that is no group. -/
def single (id : Str) : Str := if layerValue layers id = [] then [percent] else layerValue layers id

/-- The values of the layers up to the first one that is inactive or empty. -/
def grouped (ids : List Str) : Str :=
  (ids.takeWhile fun id => layerValue layers id ≠ []).flatMap fun id => percent :: layerValue layers id

def group (ids : List Str) : Str :=
  if grouped layers ids = [] then [percent] else grouped layers ids

def placeholderValue : List Str → Str
  | [id] => single layers id
  | ids => group layers ids

/-- **What a part is under a context.** -/
def NamePart.value : NamePart → Str
  | text s => s
  | placeholder content => placeholderValue layers (content.splitOn space)

end Value

/-! ## The loop over texts and identifiers -/

section Loop

variable {f : OnLayer} {layers : Str → Option Str} {s : Scan} {ret cur : Str} {left grp : Bool} {called : List Str}

theorem run_cons (c : UInt8) (name : Str) : s.run f (c :: name) = (s.step f c).run f name := rfl

theorem run_append (t name : Str) : s.run f (t ++ name) = (s.run f t).run f name := List.foldl_append

theorem run_text : ∀ {t : Str} {ret : Str}, percent ∉ t →
    (Scan.mk ret cur false left grp called).run f t = ⟨ret ++ t, cur, false, left, grp, called⟩
  | [], ret, _ => by
    rw [List.append_nil]
    rfl
  | c :: t, ret, h => by
    have hc : c ≠ percent := fun he => h (he ▸ List.mem_cons_self)
    have hstep : (Scan.mk ret cur false left grp called).step f c =
        ⟨ret ++ [c], cur, false, left, grp, called⟩ := by
      rw [Scan.step, if_neg hc]
      rfl
    rw [run_cons, hstep, run_text fun ht => h (List.mem_cons_of_mem c ht), List.append_assoc]
    rfl

/-- An identifier is captured; in a group that was left, with the spaces. -/
theorem run_id : ∀ {id cur : Str}, percent ∉ id → (left = false → space ∉ id) →
    (Scan.mk ret cur true left grp called).run f id = ⟨ret, cur ++ id, true, left, grp, called⟩
  | [], cur, _, _ => by
    rw [List.append_nil]
    rfl
  | c :: id, cur, h, hspace => by
    have hc : c ≠ percent := fun he => h (he ▸ List.mem_cons_self)
    have hsep : ¬ (true = true ∧ c = space ∧ left = false) := fun hsep =>
      hspace hsep.2.2 (hsep.2.1 ▸ List.mem_cons_self)
    have hstep : (Scan.mk ret cur true left grp called).step f c =
        ⟨ret, cur ++ [c], true, left, grp, called⟩ := by
      rw [Scan.step, if_neg hc, if_neg hsep]
      rfl
    rw [run_cons, hstep, run_id (fun hid => h (List.mem_cons_of_mem c hid))
      fun hleft hid => hspace hleft (List.mem_cons_of_mem c hid), List.append_assoc]
    rfl

theorem step_start : (Scan.mk ret cur false left grp called).step f percent = ⟨ret, cur, true, false, false, called⟩ := rfl

theorem step_left : (Scan.mk ret cur true true grp called).step f percent = ⟨ret, [], false, true, grp, called⟩ := rfl

theorem step_end : (Scan.mk ret cur true false grp called).step f percent =
    ⟨(f cur ret grp).2, [], false, false, grp, called ++ [cur]⟩ := rfl

theorem space_ne : space ≠ percent := by decide

theorem step_space : (Scan.mk ret cur true false grp called).step f space =
    if grp = false ∧ (f cur ret true).1 = true then
      ⟨(f cur ret true).2 ++ [percent], [], true, (f cur ret true).1, grp, called ++ [cur]⟩
    else ⟨(f cur ret true).2, [], true, (f cur ret true).1, true, called ++ [cur]⟩ := by
  rw [Scan.step, if_neg space_ne]
  rfl

/-- Between two placeholders. -/
structure Idle (s : Scan) (ret : Str) : Prop where
  capture : s.captureId = false
  current : s.currentId = []
  written : s.ret = ret

theorem idle_left {content : Str} (h : percent ∉ content) :
    Idle ((Scan.mk ret cur true true grp called).run f (content ++ [percent])) ret := by
  rw [run_append, run_id h fun hleft => Bool.noConfusion hleft, run_cons, step_left]
  exact ⟨rfl, rfl, rfl⟩

/-! ## Placeholders -/

theorem answer_group (id ret : Str) : answer layers id ret true =
    if layerValue layers id = [] then (true, ret) else (false, ret ++ percent :: layerValue layers id) := by
  unfold answer layerValue
  cases layers id with
  | none => rfl
  | some r =>
    by_cases hr : r = []
    · simp [hr]
    · simp [hr]

theorem answer_single (id ret : Str) : (answer layers id ret false).2 = ret ++ single layers id := by
  unfold answer single layerValue
  cases layers id with
  | none => rfl
  | some r =>
    by_cases hr : r = []
    · simp [hr]
    · simp [hr]

theorem grouped_cons (id : Str) (ids : List Str) : grouped layers (id :: ids) =
    if layerValue layers id = [] then [] else percent :: layerValue layers id ++ grouped layers ids := by
  unfold grouped
  by_cases h : layerValue layers id = []
  · rw [List.takeWhile_cons_of_neg (by simpa using h), if_pos h, List.flatMap_nil]
  · rw [List.takeWhile_cons_of_pos (by simpa using h), if_neg h, List.flatMap_cons]

theorem run_grouped : ∀ {n : ℕ} {content ret : Str} {called : List Str}, content.length = n → percent ∉ content →
    Idle ((Scan.mk ret [] true false true called).run (answer layers) (content ++ [percent]))
      (ret ++ grouped layers (content.splitOn space)) := by
  intro n
  induction n using Nat.strong_induction_on with
  | _ n ih =>
    intro content ret called hn hcontent
    obtain ⟨hspace, hsplit⟩ | ⟨id, rest, rfl, hspace, hsplit⟩ := Pieces.splitOn_cases space content
    · rw [hsplit, run_append, run_id hcontent fun _ => hspace, run_cons, step_end, List.nil_append, answer_group,
        grouped_cons]
      refine ⟨rfl, rfl, ?_⟩
      by_cases h : layerValue layers content = []
      · rw [if_pos h, if_pos h, List.append_nil]
        rfl
      · rw [if_neg h, if_neg h, grouped, List.takeWhile_nil, List.flatMap_nil, List.append_nil]
        rfl
    · rw [List.mem_append, not_or, List.mem_cons, not_or] at hcontent
      rw [hsplit, List.append_assoc, run_append, run_id hcontent.1 fun _ => hspace, List.cons_append, run_cons,
        step_space, if_neg (fun h => Bool.noConfusion h.1), List.nil_append, answer_group, grouped_cons]
      by_cases h : layerValue layers id = []
      · rw [if_pos h, if_pos h, List.append_nil]
        exact idle_left hcontent.2.2
      · have hlen : rest.length < n := by
          rw [← hn, List.length_append, List.length_cons]
          omega
        have hrest : Idle ((Scan.mk (ret ++ percent :: layerValue layers id) [] true false true (called ++ [id])).run
            (answer layers) (rest ++ [percent]))
            (ret ++ percent :: layerValue layers id ++ grouped layers (rest.splitOn space)) :=
          ih rest.length hlen rfl hcontent.2.2
        rw [if_neg h, if_neg h, ← List.append_assoc]
        exact hrest

/-- **The loop over the content of a placeholder.** -/
theorem run_content {content : Str} (hcontent : percent ∉ content) :
    Idle ((Scan.mk ret [] true false false called).run (answer layers) (content ++ [percent]))
      (ret ++ placeholderValue layers (content.splitOn space)) := by
  obtain ⟨hspace, hsplit⟩ | ⟨id, rest, rfl, hspace, hsplit⟩ := Pieces.splitOn_cases space content
  · rw [hsplit, run_append, run_id hcontent fun _ => hspace, run_cons, step_end, List.nil_append, answer_single,
      placeholderValue]
    exact ⟨rfl, rfl, rfl⟩
  · rw [List.mem_append, not_or, List.mem_cons, not_or] at hcontent
    obtain ⟨id', ids, hrest⟩ := List.exists_cons_of_ne_nil (List.splitOn_ne_nil space rest)
    have hvalue : placeholderValue layers (id :: rest.splitOn space) = group layers (id :: rest.splitOn space) := by
      rw [hrest]
      rfl
    rw [hsplit, hvalue, group, grouped_cons, List.append_assoc, run_append, run_id hcontent.1 fun _ => hspace,
      List.cons_append, run_cons, step_space, List.nil_append, answer_group]
    by_cases h : layerValue layers id = []
    · rw [if_pos h, if_pos h, if_pos rfl, if_pos ⟨rfl, rfl⟩]
      exact idle_left hcontent.2.2
    · have hgroup : Idle ((Scan.mk (ret ++ percent :: layerValue layers id) [] true false true (called ++ [id])).run
          (answer layers) (rest ++ [percent]))
          (ret ++ percent :: layerValue layers id ++ grouped layers (rest.splitOn space)) :=
        run_grouped rfl hcontent.2.2
      rw [if_neg h, if_neg h, if_neg (List.append_ne_nil_of_left_ne_nil (List.cons_ne_nil _ _) _),
        if_neg (fun h => Bool.noConfusion h.2), ← List.append_assoc]
      exact hgroup

/-- The scan of `attachByName` between two placeholders. -/
structure Visited (s : Scan) (ids : List Str) : Prop where
  capture : s.captureId = false
  current : s.currentId = []
  visited : s.called = ids

/-- **Every identifier of a placeholder is visited.** -/
theorem run_visits : ∀ {n : ℕ} {content : Str} {grp : Bool} {called : List Str}, content.length = n →
    percent ∉ content →
    Visited ((Scan.mk ret [] true false grp called).run attachAll (content ++ [percent]))
      (called ++ content.splitOn space) := by
  intro n
  induction n using Nat.strong_induction_on with
  | _ n ih =>
    intro content grp called hn hcontent
    obtain ⟨hspace, hsplit⟩ | ⟨id, rest, rfl, hspace, hsplit⟩ := Pieces.splitOn_cases space content
    · rw [hsplit, run_append, run_id hcontent fun _ => hspace, run_cons, step_end]
      exact ⟨rfl, rfl, rfl⟩
    · rw [List.mem_append, not_or, List.mem_cons, not_or] at hcontent
      have hlen : rest.length < n := by
        rw [← hn, List.length_append, List.length_cons]
        omega
      have hrest : Visited ((Scan.mk ret [] true false true (called ++ [id])).run attachAll (rest ++ [percent]))
          (called ++ [id] ++ rest.splitOn space) := ih rest.length hlen rfl hcontent.2.2
      rw [hsplit, List.append_assoc, run_append, run_id hcontent.1 fun _ => hspace, List.cons_append, run_cons,
        step_space, if_neg (fun h => Bool.noConfusion h.2), List.append_cons called id]
      exact hrest

end Loop

/-! ## Names -/

section Names

variable {layers : Str → Option Str} {name : Str}

/-- A name that is no text starts with a text, a placeholder, and a name. -/
theorem parts_cases (h : Even (name.count percent)) :
    percent ∉ name ∧ parts name = [.text name] ∨
      ∃ t content rest, name = t ++ percent :: (content ++ percent :: rest) ∧ percent ∉ t ∧ percent ∉ content ∧
        Even (rest.count percent) ∧ parts name = .text t :: .placeholder content :: parts rest := by
  obtain ⟨hname, hsplit⟩ | ⟨t, tail, rfl, ht, hsplit⟩ := Pieces.splitOn_cases percent name
  · exact .inl ⟨hname, by rw [parts, hsplit, partsOf]⟩
  · rw [List.count_append, List.count_eq_zero.mpr ht, Nat.zero_add, List.count_cons_self] at h
    obtain ⟨htail, -⟩ | ⟨content, rest, rfl, hcontent, hsplit'⟩ := Pieces.splitOn_cases percent tail
    · rw [List.count_eq_zero.mpr htail] at h
      exact absurd h (by decide)
    · rw [List.count_append, List.count_eq_zero.mpr hcontent, Nat.zero_add, List.count_cons_self] at h
      have hrest : Even (rest.count percent) := by
        rw [Nat.add_assoc] at h
        exact (Nat.even_add.mp h).mpr (by decide)
      exact .inr ⟨t, content, rest, rfl, ht, hcontent, hrest, by rw [parts, hsplit, hsplit', partsOf, ← parts]⟩

theorem run_part {f : OnLayer} {t content rest : Str} {s : Scan} (ht : percent ∉ t) (hcapture : s.captureId = false)
    (hcurrent : s.currentId = []) :
    s.run f (t ++ percent :: (content ++ percent :: rest)) =
      ((Scan.mk (s.ret ++ t) [] true false false s.called).run f (content ++ [percent])).run f rest := by
  obtain ⟨ret, cur, capture, left, grp, called⟩ := s
  dsimp only at hcapture hcurrent ⊢
  rw [hcapture, hcurrent, run_append, run_text ht, run_cons, step_start, List.append_cons, run_append]

theorem run_evaluate : ∀ {n : ℕ} {name ret : Str} {s : Scan}, name.length = n → Even (name.count percent) →
    Idle s ret → (s.run (answer layers) name).ret = ret ++ (parts name).flatMap (NamePart.value layers) := by
  intro n
  induction n using Nat.strong_induction_on with
  | _ n ih =>
    intro name ret s hn heven hs
    obtain ⟨hname, hparts⟩ | ⟨t, content, rest, rfl, ht, hcontent, hrest, hparts⟩ := parts_cases heven
    · obtain ⟨ret', cur, capture, left, grp, called⟩ := s
      obtain ⟨hcapture, -, hret⟩ := hs
      dsimp only at hcapture hret
      rw [hcapture, hret, run_text hname, hparts, List.flatMap_singleton, NamePart.value]
    · have hlen : rest.length < n := by
        rw [← hn, List.length_append, List.length_cons, List.length_append, List.length_cons]
        omega
      rw [run_part ht hs.capture hs.current, hs.written, ih rest.length hlen rfl hrest (run_content hcontent), hparts,
        List.flatMap_cons, List.flatMap_cons, NamePart.value, NamePart.value, List.append_assoc, List.append_assoc]

/-- **A name under a context, part by part.** -/
theorem evaluate_parts (h : Even (name.count percent)) :
    evaluate layers name = (parts name).flatMap (NamePart.value layers) := by
  rw [evaluate, run_evaluate rfl h ⟨rfl, rfl, rfl⟩]
  rfl

theorem run_attached : ∀ {n : ℕ} {name : Str} {ids : List Str} {s : Scan}, name.length = n →
    Even (name.count percent) → Visited s ids →
    (s.run attachAll name).called = ids ++ (parts name).flatMap NamePart.ids := by
  intro n
  induction n using Nat.strong_induction_on with
  | _ n ih =>
    intro name ids s hn heven hs
    obtain ⟨hname, hparts⟩ | ⟨t, content, rest, rfl, ht, hcontent, hrest, hparts⟩ := parts_cases heven
    · obtain ⟨ret', cur, capture, left, grp, called⟩ := s
      obtain ⟨hcapture, -, hcalled⟩ := hs
      dsimp only at hcapture hcalled
      rw [hcapture, hcalled, run_text hname, hparts, List.flatMap_singleton, NamePart.ids, List.append_nil]
    · have hlen : rest.length < n := by
        rw [← hn, List.length_append, List.length_cons, List.length_append, List.length_cons]
        omega
      rw [run_part ht hs.capture hs.current, hs.visited, ih rest.length hlen rfl hrest (run_visits rfl hcontent), hparts,
        List.flatMap_cons, List.flatMap_cons, NamePart.ids, NamePart.ids, List.nil_append, List.append_assoc]

/-- **The identifiers that are visited**, in their order and each one once. -/
theorem attached_parts (h : Even (name.count percent)) : attached name = (parts name).flatMap NamePart.ids := by
  rw [attached, run_attached rfl h ⟨rfl, rfl, rfl⟩]
  rfl

end Names

/-! ## Observers -/

/-- The observers of all events, and of each single one. -/
structure Subject (ι : Type) where
  observers : Finset ι
  events : Str → Finset ι

namespace Subject

variable {ι : Type} [DecidableEq ι] (s : Subject ι)

def attachObserver (o : ι) : Subject ι := { s with observers := insert o s.observers }

def attachObserverByEvent (event : Str) (o : ι) : Subject ι :=
  { s with events := Function.update s.events event (insert o (s.events event)) }

/-- All that the `on_layer` of `attachByName` does is to attach the observer to the identifier. -/
def attachByName (keyName : Str) (o : ι) : Subject ι :=
  (attached keyName).foldl (fun s id => s.attachObserverByEvent id o) (s.attachObserver o)

/-- The observers that `notifyByEvents` calls, each one once. -/
def notifyByEvents (events : List Str) : Finset ι := events.foldl (fun os e => os ∪ s.events e) ∅

/-- Values are attached one after the other. -/
def attachValues (values : List (Str × ι)) : Subject ι := values.foldl (fun s v => s.attachByName v.1 v.2) s

variable {s} {o : ι} {id : Str}

theorem mem_attachObserverByEvent {event : Str} {o' : ι} (h : o ∈ s.events id ∨ event = id ∧ o' = o) :
    o ∈ (s.attachObserverByEvent event o').events id := by
  change o ∈ Function.update s.events event (insert o' (s.events event)) id
  by_cases he : event = id
  · subst he
    rw [Function.update_self]
    obtain h | ⟨-, rfl⟩ := h
    · exact Finset.mem_insert_of_mem h
    · exact Finset.mem_insert_self _ _
  · rw [Function.update_of_ne fun h => he h.symm]
    exact h.resolve_right fun h => he h.1

theorem mem_foldl_attach {o' : ι} : ∀ {ids : List Str} {s : Subject ι}, o ∈ s.events id ∨ id ∈ ids ∧ o' = o →
    o ∈ (ids.foldl (fun s id => s.attachObserverByEvent id o') s).events id
  | [], s, h => h.resolve_right fun h => absurd h.1 List.not_mem_nil
  | event :: ids, s, h => by
    rw [List.foldl_cons]
    refine mem_foldl_attach ?_
    obtain h | ⟨hid, ho⟩ := h
    · exact .inl (mem_attachObserverByEvent (.inl h))
    · obtain rfl | hid := List.mem_cons.mp hid
      · exact .inl (mem_attachObserverByEvent (.inr ⟨rfl, ho⟩))
      · exact .inr ⟨hid, ho⟩

/-- An observer listens to the layers of its name, whatever is attached later. -/
theorem mem_attachValues {name : Str} (hid : id ∈ attached name) : ∀ {values : List (Str × ι)} {s : Subject ι},
    o ∈ s.events id ∨ (name, o) ∈ values → o ∈ (s.attachValues values).events id
  | [], s, h => h.resolve_right List.not_mem_nil
  | v :: values, s, h => by
    rw [attachValues, List.foldl_cons, ← attachValues]
    refine mem_attachValues hid ?_
    obtain h | h := h
    · exact .inl (mem_foldl_attach (.inl h))
    · obtain rfl | h := List.mem_cons.mp h
      · exact .inl (mem_foldl_attach (.inr ⟨hid, rfl⟩))
      · exact .inr h

theorem notifyByEvents_singleton : s.notifyByEvents [id] = s.events id := Finset.empty_union _

end Subject

/-- A layer that changes the name of a value is one that the value is attached to. -/
theorem mem_attached {layers : Str → Option Str} {name id : Str} {answer : Option Str}
    (h : evaluate (Function.update layers id answer) name ≠ evaluate layers name) : id ∈ attached name := by
  by_contra hid
  refine h (evaluate_congr fun id' hid' => Function.update_of_ne (fun he => hid ?_) _ _)
  rwa [← he]

/-- **What a name is under a context, and who is told of a change.** -/
theorem evaluate_spec {ι : Type} [DecidableEq ι] (name : Str) (h : Even (name.count percent)) :
    (∀ layers, evaluate layers name = (parts name).flatMap (NamePart.value layers)) ∧
      attached name = (parts name).flatMap NamePart.ids ∧
      ∀ (s : Subject ι) (values : List (Str × ι)) (o : ι) (layers : Str → Option Str) (id : Str) (answer : Option Str),
        (name, o) ∈ values → evaluate (Function.update layers id answer) name ≠ evaluate layers name →
          o ∈ (s.attachValues values).notifyByEvents [id] := by
  refine ⟨fun layers => evaluate_parts h, attached_parts h, ?_⟩
  intro s values o layers id answer ho hname
  rw [Subject.notifyByEvents_singleton]
  exact Subject.mem_attachValues (mem_attached hname) (.inr ho)

/-- A text, a group and a layer. -/
def grouping : Str := str "/sw/%country language%/%user%"

/-- The group ends at the layer that is not active. -/
theorem evaluate_grouping :
    (∀ layers, evaluate layers grouping = (parts grouping).flatMap (NamePart.value layers)) ∧
      attached grouping = (parts grouping).flatMap NamePart.ids ∧
      ∀ (s : Subject ℕ) (values : List (Str × ℕ)) (o : ℕ) (layers : Str → Option Str) (id : Str) (answer : Option Str),
        (grouping, o) ∈ values → evaluate (Function.update layers id answer) grouping ≠ evaluate layers grouping →
          o ∈ (s.attachValues values).notifyByEvents [id] :=
  evaluate_spec grouping (by decide +kernel)

example : parts grouping = [.text (str "/sw/"), .placeholder (str "country language"), .text (str "/"),
    .placeholder (str "user"), .text []] := by decide +kernel

end Elektra.Contextual
