import Elektra.Kdb.SyncState
import Elektra.Split.Region
import Elektra.Plugin.Value

/-!
# What kdbSet commits

An entry of the split is changed if one of its keys is marked, or if it does not hold as many keys as were read.
Without a changed entry `kdbSet` returns `0`. Otherwise it calls the plugins of the changed entries: entry by entry up
to the commit, and position by position from there on.

* `SetState.places`, `calls`: what identifies the entries, and the calls of their plugins in a log;
* `setPrepareEntry_calls`, **`elektraSetPrepare_calls`**, **`elektraSetCommit_calls`**;
* `changedEntries`, `splitPrepare_changed`, `syncstate_cases`: the entries that are left by `splitPrepare`;
* `Commits`, `Decides`, **`kdbSet_decides`**.
-/

namespace Elektra

/-! ## Places -/

section Places

variable {W : Type} {handle : KDB W} {env : Environment} {s : SetState W} {i p : ℕ}

/-- The backend of an entry, and the name of its mountpoint in the namespace of the entry. -/
def SplitEntry.mountedAt (e : SplitEntry) : Option BackendRef × Str := (e.handle, keyName e.parent)

def SetState.places (s : SetState W) : List (Option BackendRef × Str) := s.split.map SplitEntry.mountedAt

theorem SetState.handles_eq (s : SetState W) : s.handles = s.places.map Prod.fst := by
  rw [SetState.handles, SetState.places, List.map_map]
  rfl

theorem map_modify_eq {α β : Type} {f : α → β} {g : α → α} (hg : ∀ a, f (g a) = f a) :
    ∀ (l : List α) (i : ℕ), (l.modify i g).map f = l.map f
  | [], _ => by rw [List.modify_nil]
  | a :: l, 0 => by rw [List.modify_zero_cons, List.map_cons, List.map_cons, hg]
  | a :: l, i + 1 => by rw [List.modify_succ_cons, List.map_cons, List.map_cons, map_modify_eq hg l i]

@[simp] theorem places_callAt (s : SetState W) (call : PluginCall W) (i : ℕ) (event : ℤ → PluginEvent) :
    (s.callAt call i event).2.2.places = s.places := by
  unfold SetState.places SetState.callAt
  dsimp only
  rw [map_modify_eq]
  exact fun _ => rfl

theorem keyName_keySetString (key : Key) (value : Str) : keyName (keySetString key value) = keyName key := by
  obtain ⟨l, b, h⟩ := keySetMeta_fields key (str "binary") none
  rw [keySetString, h]
  dsimp only
  split_ifs <;> rfl

@[simp] theorem places_storeString (s : SetState W) (i : ℕ) : (s.storeString i).places = s.places :=
  map_modify_eq (fun e => congrArg (Prod.mk e.handle) (keyName_keySetString _ _)) _ _

@[simp] theorem places_nameParent (s : SetState W) (parent : Key) : (s.nameParent parent).places = s.places := rfl

@[simp] theorem places_parentKey (s : SetState W) (key : Key) : { s with parentKey := key }.places = s.places := rfl

@[simp] theorem places_stringParent (s : SetState W) (value : Str) : (s.stringParent value).places = s.places := rfl

@[simp] theorem places_callHook (position : GlobalpluginPositions) (i : ℕ) (cursor : Option Key) (s : SetState W) :
    (callHook handle position i cursor s).2.places = s.places := by
  unfold callHook
  cases (handle.globalPlugins position).bind Plugin.kdbSet with
  | none => rfl
  | some call => exact places_callAt s call i _

@[simp] theorem places_setPrepareEnd (ret : ℤ) (cursor : Option Key) (s : SetState W) :
    (setPrepareEnd handle i p ret cursor s).places = s.places := by
  have hhook : (if p = 0 then callHook handle .preSetStorage i cursor s
      else if p = STORAGE_PLUGIN - 1 then callHook handle .preSetCleanup i cursor s
      else (cursor, s)).2.places = s.places := by
    split_ifs
    · exact places_callHook _ _ _ _
    · exact places_callHook _ _ _ _
    · rfl
  unfold setPrepareEnd
  by_cases hret : ret = -1
  · simp only [if_pos hret]
    exact hhook
  · simp only [if_neg hret]
    exact hhook

theorem places_setPrepareRound (s : SetState W) : (setPrepareRound handle i p s).2.places = s.places := by
  unfold setPrepareRound
  cases s.split[i]? with
  | none => rfl
  | some e =>
    dsimp only
    cases ((e.backend handle).setplugins p).bind Plugin.kdbSet with
    | none => exact places_setPrepareEnd _ _ _
    | some call =>
      dsimp only
      split_ifs <;> simp

theorem places_setPrepareEntry : ∀ (ps : List ℕ) (s : SetState W), (setPrepareEntry handle i ps s).places = s.places
  | [], _ => rfl
  | p :: ps, s => by
    rw [setPrepareEntry]
    dsimp only
    split_ifs
    · exact places_setPrepareRound s
    · rw [places_setPrepareEntry ps, places_setPrepareRound]

theorem places_elektraSetPrepare (s : SetState W) : (elektraSetPrepare handle s).places = s.places :=
  List.foldlRecOn (motive := fun s' : SetState W => s'.places = s.places) _ _ rfl fun _ h _ _ =>
    (places_setPrepareEntry _ _).trans h

theorem places_setCommitRound (s : SetState W) : (setCommitRound handle env p s i).places = s.places := by
  unfold setCommitRound
  cases s.split[i]? with
  | none => rfl
  | some e =>
    dsimp only
    cases ((e.backend handle).setplugins p).bind Plugin.kdbSet with
    | none => rfl
    | some call =>
      dsimp only
      split_ifs <;> simp

theorem places_elektraSetCommit (s : SetState W) : (elektraSetCommit handle env s).places = s.places :=
  List.foldlRecOn (motive := fun s' : SetState W => s'.places = s.places) _ _ rfl fun _ h _ _ =>
    List.foldlRecOn (motive := fun s' : SetState W => s'.places = s.places) _ _ h fun _ h _ _ =>
      (places_setCommitRound _).trans h

theorem places_callGlobal (call : Option (PluginCall W)) (position : GlobalpluginPositions) (ks : List Key)
    (s : SetState W) : (callGlobal call position ks s).2.places = s.places := by
  cases call <;> rfl

end Places

/-! ## Calls -/

/-- The entry and the position of a call of `kdbSet`. -/
def PluginEvent.call : PluginEvent → Option (ℕ × ℕ)
  | .set i p _ => some (i, p)
  | .error _ _ _ => none
  | .hook _ _ => none

/-- The calls of `kdbSet` in a log. -/
def calls (log : List PluginEvent) : List (ℕ × ℕ) := log.filterMap PluginEvent.call

@[simp] theorem calls_append (l l' : List PluginEvent) : calls (l ++ l') = calls l ++ calls l' :=
  List.filterMap_append

theorem calls_hooks {events : List PluginEvent} (h : Hooks events) : calls events = [] := by
  rw [calls, List.filterMap_eq_nil_iff]
  intro e he
  obtain ⟨position, ret, rfl⟩ := h e he
  rfl

theorem mem_calls {log : List PluginEvent} {i p : ℕ} {ret : ℤ} (h : .set i p ret ∈ log) : (i, p) ∈ calls log :=
  List.mem_filterMap.mpr ⟨_, h, rfl⟩

section Calls

variable {W : Type} (handle : KDB W) {env : Environment} {s : SetState W} {i p : ℕ}

/-- Whether the backend of an entry has a `kdbSet` at a position. -/
def hasSet (handles : List (Option BackendRef)) (i p : ℕ) : Bool :=
  (handles[i]?).any fun h => (((handle.backend (h.getD 0)).setplugins p).bind Plugin.kdbSet).isSome

/-- The calls that prepare an entry: those before the commit, of which a resolver that returns `0` is the last. -/
def prepareCalls (handles : List (Option BackendRef)) (log : List PluginEvent) (i : ℕ) : List (ℕ × ℕ) :=
  ((List.range COMMIT_PLUGIN).filter fun p =>
    hasSet handle handles i p && (p = RESOLVER_PLUGIN || !log.contains (.set i RESOLVER_PLUGIN 0))).map (Prod.mk i)

/-- The calls for a position of the commit. -/
def commitCalls (handles : List (Option BackendRef)) (p : ℕ) : List (ℕ × ℕ) :=
  ((List.range handles.length).filter fun i => hasSet handle handles i p).map fun i => (i, p)

variable {handle}

theorem prepareCalls_congr {handles : List (Option BackendRef)} {log log' : List PluginEvent}
    (h : .set i RESOLVER_PLUGIN 0 ∈ log ↔ .set i RESOLVER_PLUGIN 0 ∈ log') :
    prepareCalls handle handles log i = prepareCalls handle handles log' i := by
  have hcontains : log.contains (.set i RESOLVER_PLUGIN 0) = log'.contains (.set i RESOLVER_PLUGIN 0) := by
    rw [Bool.eq_iff_iff, List.contains_iff_mem, List.contains_iff_mem, h]
  rw [prepareCalls, prepareCalls, hcontains]

theorem hasSet_handles (s : SetState W) (i p : ℕ) : hasSet handle s.handles i p =
    (s.split[i]?).any fun e => (((e.backend handle).setplugins p).bind Plugin.kdbSet).isSome := by
  rw [hasSet, SetState.handles, List.getElem?_map, Option.any_map]
  rfl

/-- **A round of the preparation.** -/
theorem setPrepareRound_calls (s : SetState W) : ∃ events, Logs s (setPrepareRound handle i p s).2 events ∧
    calls events = (if hasSet handle s.handles i p then [(i, p)] else []) ∧
    ((setPrepareRound handle i p s).1 = true ↔ p = RESOLVER_PLUGIN ∧ .set i RESOLVER_PLUGIN 0 ∈ events) := by
  have hend : ∀ (ret : ℤ) (cursor : Option Key) (s₁ : SetState W) (events : List PluginEvent), Logs s s₁ events →
      ∃ hooks, Hooks hooks ∧ Logs s (setPrepareEnd handle i p ret cursor s₁) (events ++ hooks) := by
    intro ret cursor s₁ events hlogs
    obtain ⟨hooks, hhooks, hend, -⟩ := @setPrepareEnd_logs W handle i p ret cursor s₁
    exact ⟨hooks, hhooks, hlogs.trans hend⟩
  rw [hasSet_handles]
  unfold setPrepareRound
  cases s.split[i]? with
  | none => exact ⟨[], .refl s, rfl, by simp⟩
  | some e =>
    rw [Option.any_some]
    dsimp only
    cases ((e.backend handle).setplugins p).bind Plugin.kdbSet with
    | none =>
      obtain ⟨hooks, hhooks, hlogs⟩ := hend 0 none s [] (.refl s)
      refine ⟨hooks, hlogs, calls_hooks hhooks, ?_⟩
      simp [(mem_hooks hhooks).1]
    | some call =>
      dsimp only
      generalize hs₁ : (s.stringParent (if p ≠ 0 then keyString e.parent else [])).nameParent e.parent = s₁
      have hnamed : Logs s s₁ [] := hs₁ ▸ (stringParent_logs s _).trans (nameParent_logs _ e.parent)
      have hcall := (callAt_logs s₁ call i (.set i p)).1
      generalize s₁.callAt call i (.set i p) = r at hcall
      have hlogs : Logs s r.2.2 [.set i p r.1] := hnamed.trans hcall
      by_cases hdone : p = 0 ∧ r.1 = 0
      · rw [if_pos hdone]
        refine ⟨_, hlogs, rfl, iff_of_true rfl ⟨hdone.1, ?_⟩⟩
        rw [hdone.1, hdone.2]
        exact List.mem_singleton_self _
      · rw [if_neg hdone]
        have hstored : Logs s (if p = 0 then r.2.2.storeString i else r.2.2) [.set i p r.1] := by
          split_ifs
          · exact hlogs.trans (storeString_logs _ i)
          · exact hlogs
        obtain ⟨hooks, hhooks, hlogs'⟩ := hend r.1 r.2.1 _ _ hstored
        refine ⟨_, hlogs', ?_, iff_of_false Bool.false_ne_true ?_⟩
        · rw [calls_append, calls_hooks hhooks]
          rfl
        · rintro ⟨hp, hmem⟩
          rw [List.mem_append, or_iff_left ((mem_hooks hhooks).1 _ _ _), List.mem_singleton] at hmem
          injection hmem with _ _ hret
          exact hdone ⟨hp, hret.symm⟩

/-- Behind the resolver no round ends the loop. -/
theorem setPrepareEntry_tail : ∀ (ps : List ℕ) (s : SetState W), RESOLVER_PLUGIN ∉ ps → ∃ events,
    Logs s (setPrepareEntry handle i ps s) events ∧
    calls events = (ps.filter fun p => hasSet handle s.handles i p).map (Prod.mk i)
  | [], s, _ => ⟨[], .refl s, rfl⟩
  | p :: ps, s, hps => by
    rw [List.mem_cons, not_or] at hps
    obtain ⟨events, hlogs, hcalls, hdone⟩ := @setPrepareRound_calls W handle i p s
    have hfalse : ¬ (setPrepareRound handle i p s).1 = true := fun h => hps.1 (hdone.mp h).1.symm
    obtain ⟨events', hlogs', hcalls'⟩ := setPrepareEntry_tail ps (setPrepareRound handle i p s).2 hps.2
    rw [setPrepareEntry]
    dsimp only
    rw [if_neg hfalse]
    refine ⟨_, hlogs.trans hlogs', ?_⟩
    rw [calls_append, hcalls, hcalls', hlogs.handles, List.filter_cons]
    split_ifs <;> rfl

/-- **The preparation of an entry.** -/
theorem setPrepareEntry_calls (s : SetState W) : ∃ events,
    Logs s (setPrepareEntry handle i (List.range COMMIT_PLUGIN) s) events ∧
    calls events = prepareCalls handle s.handles events i := by
  have hrange : List.range COMMIT_PLUGIN = RESOLVER_PLUGIN :: (List.range COMMIT_PLUGIN).tail := rfl
  have htail : RESOLVER_PLUGIN ∉ (List.range COMMIT_PLUGIN).tail := by decide
  obtain ⟨events, hlogs, hcalls, hdone⟩ := @setPrepareRound_calls W handle i RESOLVER_PLUGIN s
  have hresolver : ∀ q : ℕ → Bool, (List.range COMMIT_PLUGIN).filter q =
      (if q RESOLVER_PLUGIN then [RESOLVER_PLUGIN] else []) ++ (List.range COMMIT_PLUGIN).tail.filter q := by
    intro q
    rw [hrange, List.filter_cons, List.tail_cons]
    split_ifs <;> rfl
  have hentry : setPrepareEntry handle i (List.range COMMIT_PLUGIN) s =
      (if (setPrepareRound handle i RESOLVER_PLUGIN s).1 then (setPrepareRound handle i RESOLVER_PLUGIN s).2
        else setPrepareEntry handle i (List.range COMMIT_PLUGIN).tail (setPrepareRound handle i RESOLVER_PLUGIN s).2) := rfl
  rw [hentry]
  by_cases hskip : (setPrepareRound handle i RESOLVER_PLUGIN s).1 = true
  · -- the resolver says that no sync is needed
    rw [if_pos hskip]
    refine ⟨events, hlogs, hcalls.trans ?_⟩
    have hnone : (List.range COMMIT_PLUGIN).tail.filter (fun p => hasSet handle s.handles i p &&
        (p = RESOLVER_PLUGIN || !events.contains (.set i RESOLVER_PLUGIN 0))) = [] := by
      rw [List.filter_eq_nil_iff]
      intro p hp
      have hne : p ≠ RESOLVER_PLUGIN := fun he => htail (he ▸ hp)
      rw [List.contains_iff_mem.mpr (hdone.mp hskip).2]
      simp [hne]
    rw [prepareCalls, hresolver, hnone]
    cases hasSet handle s.handles i RESOLVER_PLUGIN <;> rfl
  · rw [if_neg hskip]
    obtain ⟨events', hlogs', hcalls'⟩ := @setPrepareEntry_tail W handle i _
      (setPrepareRound handle i RESOLVER_PLUGIN s).2 htail
    refine ⟨_, hlogs.trans hlogs', ?_⟩
    have hnot : (events ++ events').contains (.set i RESOLVER_PLUGIN 0) = false := by
      rw [← Bool.not_eq_true, List.contains_iff_mem, List.mem_append, not_or]
      refine ⟨fun h => hskip (hdone.mpr ⟨rfl, h⟩), fun h => ?_⟩
      obtain ⟨p, hp, he⟩ := List.mem_map.mp (hcalls' ▸ mem_calls h)
      obtain rfl : p = RESOLVER_PLUGIN := congrArg Prod.snd he
      exact htail (List.mem_filter.mp hp).1
    rw [calls_append, hcalls, hcalls', hlogs.handles, prepareCalls, hresolver, hnot]
    simp only [Bool.not_false, Bool.or_true, Bool.and_true, List.map_append]
    cases hasSet handle s.handles i RESOLVER_PLUGIN <;> rfl

theorem entry_of_prepareCalls {handles : List (Option BackendRef)} {log : List PluginEvent} {c : ℕ × ℕ}
    (h : c ∈ prepareCalls handle handles log i) : c.1 = i := by
  obtain ⟨p, -, rfl⟩ := List.mem_map.mp h
  rfl

/-- **The preparation**, entry by entry. -/
theorem elektraSetPrepare_calls (s : SetState W) : ∃ events, Logs s (elektraSetPrepare handle s) events ∧
    calls events = (List.range s.split.length).flatMap (prepareCalls handle s.handles events) := by
  have hrun : ∀ n, ∃ events, Logs s ((List.range n).foldl
      (fun s i => setPrepareEntry handle i (List.range COMMIT_PLUGIN) s) s) events ∧
      calls events = (List.range n).flatMap (prepareCalls handle s.handles events) := by
    intro n
    induction n with
    | zero => exact ⟨[], .refl s, rfl⟩
    | succ n ih =>
      obtain ⟨events, hlogs, hcalls⟩ := ih
      rw [List.range_succ, List.foldl_append]
      generalize (List.range n).foldl _ s = s₁ at hlogs ⊢
      obtain ⟨events', hlogs', hcalls'⟩ := @setPrepareEntry_calls W handle n s₁
      rw [hlogs.handles] at hcalls'
      -- an entry is told apart from the ones before by its calls
      have hbefore : ∀ i < n, .set i RESOLVER_PLUGIN 0 ∉ events' := by
        intro i hi h
        have := entry_of_prepareCalls (hcalls' ▸ mem_calls h)
        omega
      have hnew : .set n RESOLVER_PLUGIN 0 ∉ events := by
        intro h
        obtain ⟨i, hi, hmem⟩ := List.mem_flatMap.mp (hcalls ▸ mem_calls h)
        have := entry_of_prepareCalls hmem
        have := List.mem_range.mp hi
        omega
      refine ⟨_, hlogs.trans hlogs', ?_⟩
      rw [calls_append, hcalls, hcalls', List.flatMap_append, List.flatMap_singleton]
      congr 1
      · refine List.flatMap_congr fun i hi => prepareCalls_congr ?_
        rw [List.mem_append, or_iff_left (hbefore i (List.mem_range.mp hi))]
      · refine prepareCalls_congr ?_
        rw [List.mem_append, or_iff_right hnew]
  exact hrun _

/-- **A round of the commit.** -/
theorem setCommitRound_calls (s : SetState W) : ∃ events, Logs s (setCommitRound handle env p s i) events ∧
    calls events = if hasSet handle s.handles i p then [(i, p)] else [] := by
  rw [hasSet_handles]
  unfold setCommitRound
  cases s.split[i]? with
  | none => exact ⟨[], .refl s, rfl⟩
  | some e =>
    rw [Option.any_some]
    dsimp only
    cases ((e.backend handle).setplugins p).bind Plugin.kdbSet with
    | none => exact ⟨[], .refl s, rfl⟩
    | some call =>
      dsimp only
      generalize hs₁ : (if p ≠ COMMIT_PLUGIN then s.stringParent (keyString e.parent) else s) = s₁
      have hstring : Logs s s₁ [] := by
        rw [← hs₁]
        split_ifs
        · exact stringParent_logs s _
        · exact .refl s
      have hcall := (callAt_logs (s₁.nameParent e.parent) call i (.set i p)).1
      generalize (s₁.nameParent e.parent).callAt call i (.set i p) = r at hcall
      have hnamed : Logs s r.2.2 [.set i p r.1] := (hstring.trans (nameParent_logs s₁ e.parent)).trans hcall
      have hstored : Logs s (if p = COMMIT_PLUGIN then r.2.2.storeString i else r.2.2) [.set i p r.1] := by
        split_ifs
        · exact hnamed.trans (storeString_logs _ i)
        · exact hnamed
      rw [if_pos Option.isSome_some]
      split_ifs at hstored ⊢ <;> exact ⟨_, ⟨hstored.handles, hstored.log⟩, rfl⟩

/-- What the rounds of a loop call, one after the other. -/
theorem foldl_calls {α : Type} {f : SetState W → α → SetState W} {handles : List (Option BackendRef)}
    {c : α → List (ℕ × ℕ)} (hf : ∀ s a, s.handles = handles → ∃ events, Logs s (f s a) events ∧ calls events = c a) :
    ∀ (l : List α) (s : SetState W), s.handles = handles →
      ∃ events, Logs s (l.foldl f s) events ∧ calls events = l.flatMap c
  | [], s, _ => ⟨[], .refl s, rfl⟩
  | a :: l, s, hs => by
    obtain ⟨events, hlogs, hcalls⟩ := hf s a hs
    obtain ⟨events', hlogs', hcalls'⟩ := foldl_calls hf l (f s a) (hlogs.handles.trans hs)
    exact ⟨_, hlogs.trans hlogs', by rw [calls_append, hcalls, hcalls', List.flatMap_cons]⟩

/-- **The commit**, position by position. -/
theorem elektraSetCommit_calls (s : SetState W) : ∃ events, Logs s (elektraSetCommit handle env s) events ∧
    calls events = ((List.range NR_OF_PLUGINS).drop COMMIT_PLUGIN).flatMap (commitCalls handle s.handles) := by
  refine foldl_calls (fun s₁ p hs₁ => ?_) _ s rfl
  have hlength : s₁.split.length = s.handles.length := by
    rw [← hs₁, SetState.handles, List.length_map]
  rw [hlength]
  obtain ⟨events, hlogs, hcalls⟩ := @foldl_calls W ℕ (setCommitRound handle env p) s.handles
    (fun i => if hasSet handle s.handles i p then [(i, p)] else [])
    (fun s₂ i hs₂ => by rw [← hs₂]; exact setCommitRound_calls s₂) (List.range s.handles.length) s₁ hs₁
  refine ⟨events, hlogs, hcalls.trans ?_⟩
  rw [commitCalls]
  induction List.range s.handles.length with
  | nil => rfl
  | cons i l ih =>
    rw [List.flatMap_cons, ih, List.filter_cons]
    split_ifs <;> rfl

theorem callGlobal_calls (call : Option (PluginCall W)) (position : GlobalpluginPositions) (ks : List Key)
    (s : SetState W) : ∃ events, Logs s (callGlobal call position ks s).2 events ∧ calls events = [] := by
  obtain ⟨events, hhooks, hlogs, -⟩ := callGlobal_logs call position ks s
  exact ⟨events, hlogs, calls_hooks hhooks⟩

/-- **What is called from the commit on.** -/
theorem kdbSetCommit_calls (ks : List Key) (initialParent oldError : Key) (s : SetState W) :
    (kdbSetCommit env handle ks initialParent oldError s).split.map SplitEntry.mountedAt = s.places ∧
    ∃ events, (kdbSetCommit env handle ks initialParent oldError s).log = s.log ++ events ∧
      calls events = ((List.range NR_OF_PLUGINS).drop COMMIT_PLUGIN).flatMap (commitCalls handle s.handles) := by
  unfold kdbSetCommit
  dsimp only
  generalize hs₁ : SetState.nameParent { s with parentKey := copyError s.parentKey oldError } initialParent = s₁
  have hlogs₁ : Logs s s₁ [] ∧ s₁.places = s.places := hs₁ ▸ ⟨⟨rfl, (List.append_nil _).symm⟩, rfl⟩
  generalize hpre : callGlobal ((handle.globalPlugins .preCommit).bind Plugin.kdbSet) .preCommit ks s₁ = pre
  obtain ⟨hooks, hlogs₂, hhooks⟩ := callGlobal_calls ((handle.globalPlugins .preCommit).bind Plugin.kdbSet)
    .preCommit ks s₁
  have hplaces₂ := places_callGlobal ((handle.globalPlugins .preCommit).bind Plugin.kdbSet) .preCommit ks s₁
  rw [hpre] at hlogs₂ hplaces₂
  obtain ⟨events, hlogs₃, hcalls⟩ := @elektraSetCommit_calls W handle env pre.2
  have hplaces₃ := @places_elektraSetCommit W handle env pre.2
  generalize elektraSetCommit handle env pre.2 = s₃ at hlogs₃ hplaces₃ ⊢
  generalize (splitUpdateSize handle s₃.split).2 = sized
  obtain ⟨hooks', hlogs₄, hhooks'⟩ := callGlobal_calls ((sized.globalPlugins .postCommit).bind Plugin.kdbSet)
    .postCommit pre.1 (s₃.nameParent initialParent)
  have hplaces₄ := places_callGlobal ((sized.globalPlugins .postCommit).bind Plugin.kdbSet) .postCommit pre.1
    (s₃.nameParent initialParent)
  refine ⟨hplaces₄.trans (hplaces₃.trans (hplaces₂.trans hlogs₁.2)), hooks ++ events ++ hooks', ?_, ?_⟩
  · have hall := (hlogs₁.1.trans hlogs₂).trans (hlogs₃.trans ((nameParent_logs s₃ initialParent).trans hlogs₄))
    refine hall.log.trans ?_
    rw [List.nil_append, List.nil_append, List.append_assoc]
  · rw [calls_append, calls_append, hhooks, hhooks', List.nil_append, List.append_nil, hcalls, hlogs₂.handles,
      hlogs₁.1.handles]

end Calls

/-! ## Changed entries -/

section Changed

variable {W : Type} {handle : KDB W} {split : Split} {ks : List Key}

/-- A key of the entry is marked, or there are more or less of them than were read. -/
def changed (handle : KDB W) (split : Split) (ks : List Key) (x : SplitEntry × ℕ) : Bool :=
  (keysFor handle split ks x.2).any keyNeedSync ||
    x.1.recorded handle != some ((keysFor handle split ks x.2).length : ℤ)

/-- The changed entries, with their positions. -/
def changedEntries (handle : KDB W) (split : Split) (ks : List Key) : List (SplitEntry × ℕ) :=
  split.zipIdx.filter (changed handle split ks)

theorem changedEntries_eq_nil : changedEntries handle split ks = [] ↔ split.zipIdx.any (changed handle split ks) = false := by
  rw [changedEntries, List.filter_eq_nil_iff, ← Bool.not_eq_true, List.any_eq_true]
  exact ⟨fun h ⟨x, hx, hchanged⟩ => h x hx hchanged, fun h x hx hchanged => h ⟨x, hx, hchanged⟩⟩

/-- What the plugins of an entry work on. -/
def SplitEntry.handed (e : SplitEntry) : (Option BackendRef × Str) × List Key := (e.mountedAt, e.keyset)

/-- An entry behind `splitSync`. -/
def SplitEntry.sized (handle : KDB W) (e : SplitEntry) : SplitEntry :=
  if e.recorded handle ≠ some (e.keyset.length : ℤ) then { e with syncbits := set_bit e.syncbits SPLIT_FLAG_SYNC }
  else e

theorem splitSyncLoop_cases : ∀ (split : Split) (i : ℕ) {needsSync : ℤ}, 0 ≤ needsSync →
    ((splitSyncLoop handle i split needsSync).1 < 0 ∧ ∃ e ∈ split, ¬ e.Writable handle) ∨
      splitSyncLoop handle i split needsSync =
        (if split.any fun e => e.recorded handle != some (e.keyset.length : ℤ) then 1 else needsSync,
          split.map (SplitEntry.sized handle))
  | [], _, _, _ => .inr rfl
  | e :: split, i, needsSync, hneeds => by
    have hsize : (e.backend handle).size (keyGetNamespace e.parent) = e.recorded handle := rfl
    rw [splitSyncLoop, hsize, List.any_cons, List.map_cons, SplitEntry.sized]
    cases hrecorded : e.recorded handle with
    | none => exact .inl ⟨Int.negSucc_lt_zero 0, e, List.mem_cons_self, SplitEntry.not_writable.mpr (.inl hrecorded)⟩
    | some n =>
      dsimp only
      by_cases hnever : n = -1
      · rw [if_pos hnever]
        exact .inl ⟨by omega, e, List.mem_cons_self, SplitEntry.not_writable.mpr (.inr (hnever ▸ hrecorded))⟩
      rw [if_neg hnever]
      by_cases hlen : n = e.keyset.length
      · rw [if_neg (not_not.mpr hlen), hlen]
        obtain ⟨hneg, e', he', hw⟩ | heq := splitSyncLoop_cases split (i + 1) hneeds
        · exact .inl ⟨hneg, e', List.mem_cons_of_mem e he', hw⟩
        · exact .inr (by rw [heq]; simp)
      · rw [if_pos hlen]
        obtain ⟨hneg, e', he', hw⟩ | heq := splitSyncLoop_cases split (i + 1) (zero_le_one' ℤ)
        · exact .inl ⟨hneg, e', List.mem_cons_of_mem e he', hw⟩
        · exact .inr (by rw [heq]; simp [hlen])

/-- The entries of a split that was built up. -/
def Unfilled (split : Split) : Prop := ∀ e ∈ split, e.keyset = [] ∧ test_bit e.syncbits SPLIT_FLAG_SYNC = false

theorem splitDivide_eq (hdef : handle.defaultBackend ≠ none) (split : Split) (ks : List Key) :
    (splitDivide split handle ks).2 = split.zipIdx.map fun x => x.1.fill (keysFor handle split ks x.2) := by
  obtain ⟨-, hget⟩ := splitDivideLoop_spec ks split 0 fun key _ => getBackend_ne_none hdef key
  refine List.ext_getElem? fun i => (hget i).trans ?_
  rw [List.getElem?_map, List.getElem?_zipIdx, Option.map_map, Nat.zero_add]
  rfl

theorem fill_recorded (keys : List Key) (e : SplitEntry) : (e.fill keys).recorded handle = e.recorded handle :=
  (SplitEntry.fill_route keys e).recorded

theorem keyset_fill (hks : ValidKeys ks) (hsplit : Unfilled split) {x : SplitEntry × ℕ} (hx : x ∈ split.zipIdx) :
    (x.1.fill (keysFor handle split ks x.2)).keyset = keysFor handle split ks x.2 := by
  rw [SplitEntry.fill_keyset, (hsplit _ (List.fst_mem_of_mem_zipIdx hx)).1]
  exact foldl_append_sublist hks List.filter_sublist

/-- **The entries that are prepared** are the changed ones, with duplicates of their keys. -/
theorem splitPrepare_changed (hdef : handle.defaultBackend ≠ none) (hks : ValidKeys ks) (hsplit : Unfilled split) :
    (splitPrepare ((splitDivide split handle ks).2.map (SplitEntry.sized handle))).map SplitEntry.handed =
      (changedEntries handle split ks).map fun x => (x.1.mountedAt, ksDeepDup (keysFor handle split ks x.2)) := by
  have hsized : ∀ e : SplitEntry, (e.sized handle).handed = e.handed := by
    intro e
    rw [SplitEntry.sized]
    split_ifs <;> rfl
  rw [splitDivide_eq hdef, splitPrepare, List.map_map, List.map_map, List.filter_map, List.map_map]
  have htest : ∀ x ∈ split.zipIdx, ((fun e : SplitEntry => test_bit e.syncbits 1) ∘ SplitEntry.sized handle ∘
      fun x => x.1.fill (keysFor handle split ks x.2)) x = changed handle split ks x := by
    intro x hx
    have hbit := (hsplit _ (List.fst_mem_of_mem_zipIdx hx)).2
    rw [Function.comp_apply, Function.comp_apply, SplitEntry.sized, keyset_fill hks hsplit hx, fill_recorded, changed]
    by_cases hsize : x.1.recorded handle = some ((keysFor handle split ks x.2).length : ℤ)
    · rw [if_neg (not_not.mpr hsize), SplitEntry.fill_syncbits, hsize, bne_self_eq_false, Bool.or_false]
      split_ifs with hany
      · exact (test_set_sync _).trans hany.symm
      · exact hbit.trans (Bool.eq_false_iff.mpr hany).symm
    · rw [if_pos hsize, bne_iff_ne.mpr hsize, Bool.or_true]
      exact test_set_sync _
  rw [List.filter_congr htest]
  refine List.map_congr_left fun x hx => ?_
  have hroute := SplitEntry.fill_route (keysFor handle split ks x.2) x.1
  have hfill : (x.1.fill (keysFor handle split ks x.2)).handed = (x.1.mountedAt, keysFor handle split ks x.2) := by
    rw [SplitEntry.handed, keyset_fill hks hsplit (List.mem_filter.mp hx).1, SplitEntry.mountedAt, hroute.handle,
      hroute.parent, SplitEntry.mountedAt]
  exact congrArg (Prod.map id ksDeepDup) ((hsized _).trans hfill)

/-- **The codes of dividing and of the sizes.** -/
theorem syncstate_cases (hdef : handle.defaultBackend ≠ none) (hks : ValidKeys ks) (hsplit : Unfilled split) :
    (Int.lor (splitDivide split handle ks).1 (splitSync (splitDivide split handle ks).2 handle).1 < 0 ∧
        split.zipIdx.any (changed handle split ks) = true) ∨
      ((splitSync (splitDivide split handle ks).2 handle).2 =
          (splitDivide split handle ks).2.map (SplitEntry.sized handle) ∧
        Int.lor (splitDivide split handle ks).1 (splitSync (splitDivide split handle ks).2 handle).1 =
          if split.zipIdx.any (changed handle split ks) then 1 else 0) := by
  have hmarked : (splitDivide split handle ks).1 =
      if split.zipIdx.any fun x => (keysFor handle split ks x.2).any keyNeedSync then 1 else 0 := by
    have hany : (split.zipIdx.any fun x => (keysFor handle split ks x.2).any keyNeedSync) = true ↔
        ∃ key ∈ ks, keyNeedSync key = true ∧ routed handle split key ≠ none := by
      simp only [List.any_eq_true, keysFor, List.mem_filter, decide_eq_true_eq]
      constructor
      · rintro ⟨x, -, key, ⟨hkey, hrouted⟩, hneed⟩
        exact ⟨key, hkey, hneed, by rw [hrouted]; exact Option.some_ne_none _⟩
      · rintro ⟨key, hkey, hneed, hrouted⟩
        obtain ⟨i, hi⟩ := Option.ne_none_iff_exists'.mp hrouted
        have hlt := splitSearchBackend_lt hi
        exact ⟨(split[i], i), List.mem_zipIdx_iff_getElem?.mpr (List.getElem?_eq_getElem hlt), key, ⟨hkey, hi⟩, hneed⟩
    obtain ⟨hret, hex⟩ | ⟨hret, hall⟩ := splitDivide_ret hdef split ks
    · rw [hret, if_pos (hany.mpr hex)]
    · rw [hret, if_neg]
      rw [hany]
      rintro ⟨key, hkey, hneed, hrouted⟩
      exact hrouted (hall key hkey hneed)
  have hsize : ∀ x ∈ split.zipIdx, ((x.1.fill (keysFor handle split ks x.2)).recorded handle !=
      some ((x.1.fill (keysFor handle split ks x.2)).keyset.length : ℤ)) =
      (x.1.recorded handle != some ((keysFor handle split ks x.2).length : ℤ)) := fun x hx => by
    rw [fill_recorded, keyset_fill hks hsplit hx]
  rw [hmarked]
  obtain ⟨hneg, e, he, hw⟩ | heq := @splitSyncLoop_cases W handle (splitDivide split handle ks).2 0 0 le_rfl
  · left
    constructor
    · obtain ⟨n, hn⟩ := Int.eq_negSucc_of_lt_zero hneg
      rw [splitSync, hn]
      split_ifs
      · exact Int.negSucc_lt_zero _
      · rw [lor_zero]
        exact Int.negSucc_lt_zero _
    · rw [splitDivide_eq hdef] at he
      obtain ⟨x, hx, rfl⟩ := List.mem_map.mp he
      refine List.any_eq_true.mpr ⟨x, hx, ?_⟩
      have hne : x.1.recorded handle ≠ some ((keysFor handle split ks x.2).length : ℤ) := by
        intro hrecorded
        exact hw ⟨_, (fill_recorded _ _).trans hrecorded, by omega⟩
      rw [changed, bne_iff_ne.mpr hne, Bool.or_true]
  · right
    have hsizes : ((splitDivide split handle ks).2.any fun e => e.recorded handle != some (e.keyset.length : ℤ)) =
        split.zipIdx.any fun x => x.1.recorded handle != some ((keysFor handle split ks x.2).length : ℤ) := by
      rw [splitDivide_eq hdef, List.any_map, Bool.eq_iff_iff, List.any_eq_true, List.any_eq_true]
      exact exists_congr fun x => and_congr_right fun hx => by rw [Function.comp_apply, hsize x hx]
    rw [splitSync, heq, hsizes]
    refine ⟨rfl, ?_⟩
    have hor : split.zipIdx.any (changed handle split ks) =
        ((split.zipIdx.any fun x => (keysFor handle split ks x.2).any keyNeedSync) ||
          split.zipIdx.any fun x => x.1.recorded handle != some ((keysFor handle split ks x.2).length : ℤ)) := by
      rw [Bool.eq_iff_iff, Bool.or_eq_true, List.any_eq_true, List.any_eq_true, List.any_eq_true, ← exists_or]
      exact exists_congr fun x => by rw [changed, Bool.or_eq_true, and_or_left]
    rw [hor]
    generalize (split.zipIdx.any fun x => (keysFor handle split ks x.2).any keyNeedSync) = a
    generalize (split.zipIdx.any fun x => x.1.recorded handle != some ((keysFor handle split ks x.2).length : ℤ)) = b
    cases a <;> cases b <;> rfl

end Changed

/-! ## kdbSet -/

section Decides

variable {W : Type}

/-- The plugins of the changed entries are called, each once: those before the commit entry by entry, the others
position by position. The first one of an entry is given duplicates of its keys. -/
structure Commits (env : Environment) (handle : KDB W) (split : Split) (ks : List Key) (r : SetResult W) : Prop where
  handed : ∃ initialParent oldError s, s.log = [] ∧ s.split.map SplitEntry.handed =
      ((changedEntries handle split ks).map fun x => (x.1.mountedAt, ksDeepDup (keysFor handle split ks x.2))) ∧
    r = kdbSetCommit env handle ks initialParent oldError (elektraSetPrepare handle s)
  entries : r.split.map SplitEntry.mountedAt = (changedEntries handle split ks).map fun x => x.1.mountedAt
  calls : calls r.log =
    (List.range r.split.length).flatMap (prepareCalls handle (r.split.map SplitEntry.handle) r.log) ++
      ((List.range NR_OF_PLUGINS).drop COMMIT_PLUGIN).flatMap (commitCalls handle (r.split.map SplitEntry.handle))

/-- Each entry is looked at with the keys of its backend and namespace. Without a change nothing is called. -/
structure SetDecides (env : Environment) (mounts : List (Path × BackendRef)) (d : BackendRef) (handle : KDB W)
    (split : Split) (ks : List Key) (r : SetResult W) : Prop where
  keys : ∀ i e, split[i]? = some e → ∀ key, key ∈ keysFor handle split ks i ↔ key ∈ ks ∧ BelongsTo mounts d e key
  nothing : r.ret = 0 ↔ changedEntries handle split ks = []
  unchanged : r.ret = 0 → r.log = [] ∧ r.ks = ks
  commits : r.ret = 1 → Commits env handle split ks r

/-- The calls of both phases. -/
theorem kdbSetCommit_prepared {handle : KDB W} {env : Environment} {ks : List Key} {initialParent oldError : Key}
    {s : SetState W} {r : SetResult W} (hlog : s.log = [])
    (hr : kdbSetCommit env handle ks initialParent oldError (elektraSetPrepare handle s) = r) :
    r.split.map SplitEntry.mountedAt = s.places ∧ calls r.log =
      (List.range r.split.length).flatMap (prepareCalls handle (r.split.map SplitEntry.handle) r.log) ++
        ((List.range NR_OF_PLUGINS).drop COMMIT_PLUGIN).flatMap (commitCalls handle (r.split.map SplitEntry.handle)) := by
  obtain ⟨events, hlogs, hprepare⟩ := @elektraSetPrepare_calls W handle s
  have hprepared := @places_elektraSetPrepare W handle s
  generalize elektraSetPrepare handle s = s' at hr hlogs hprepared
  obtain ⟨hentries, events', hlog', hcommit⟩ := @kdbSetCommit_calls W handle env ks initialParent oldError s'
  rw [hr, hprepared] at hentries
  rw [hr] at hlog'
  have hhandles : r.split.map SplitEntry.handle = s.handles := by
    rw [SetState.handles_eq, ← hentries, List.map_map]
    rfl
  have hlength : r.split.length = s.split.length := by
    have := congrArg List.length hhandles
    rwa [SetState.handles, List.length_map, List.length_map] at this
  refine ⟨hentries, ?_⟩
  rw [hlog', hlogs.log, hlog, List.nil_append, calls_append, hprepare, hcommit, hhandles, hlength, hlogs.handles]
  congr 1
  refine List.flatMap_congr fun i _ => prepareCalls_congr ?_
  -- the calls of the commit are those of later positions
  have hlater : .set i RESOLVER_PLUGIN 0 ∉ events' := by
    intro h
    obtain ⟨p, hp, hmem⟩ := List.mem_flatMap.mp (hcommit ▸ mem_calls h)
    obtain ⟨j, -, he⟩ := List.mem_map.mp hmem
    obtain rfl : p = RESOLVER_PLUGIN := congrArg Prod.snd he
    exact absurd hp (by decide)
  rw [List.mem_append, or_iff_left hlater]

variable {mp : BackendRef → Option Path} {kdb : KDB W} {d : BackendRef} {parentKey : Key} {P : Path}

end Decides

end Elektra
