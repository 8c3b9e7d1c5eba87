import Elektra.Kdb.Set

/-!
# The two phases of kdbSet

The calls of plugins stand in a log. Up to the commit a log holds only positions before the commit,
and the error that `elektraSetPrepare` returns is that of a call in it; the commit is reached without
one. The global plugins are called in between, and their return values are not looked at.

* `foldl_establishes`: what each round of a loop establishes and the others keep;
* `SetState.handles`, `Logs`: what a call leaves unchanged, and what it adds to the log;
* `Prepared`, **`elektraSetPrepare_prepared`**; `RolledBack`, **`elektraSetRollback_all`**;
* **`kdbSet_two_phase`**.
-/

namespace Elektra

/-- What each round establishes and every other round keeps holds behind the loop. -/
theorem foldl_establishes {α β : Type} {f : β → α → β} {P : β → Prop} {Q : α → β → Prop}
    (hP : ∀ b a, P b → P (f b a)) (hQ : ∀ b a, P b → Q a (f b a))
    (hkeep : ∀ b a a', Q a b → Q a (f b a')) (l : List α) {b : β} (hb : P b) :
    ∀ a ∈ l, Q a (l.foldl f b) := by
  induction l generalizing b with
  | nil => exact fun a ha => absurd ha List.not_mem_nil
  | cons a' l ih =>
    intro a ha
    rw [List.foldl_cons]
    obtain rfl | ha := List.mem_cons.mp ha
    · exact List.foldlRecOn l f (hQ b a hb) fun c hc a' _ => hkeep c a a' hc
    · exact ih (hP b a' hb) a ha

/-! ## The calls -/

section Calls

variable {W : Type} {handle : KDB W} {env : Environment} {s : SetState W} {i p : ℕ}

/-- The backends of the entries. -/
def SetState.handles (s : SetState W) : List (Option BackendRef) := s.split.map SplitEntry.handle

theorem handles_modify (l : Split) (i : ℕ) (f : SplitEntry → SplitEntry)
    (hf : ∀ e, (f e).handle = e.handle) :
    (l.modify i f).map SplitEntry.handle = l.map SplitEntry.handle := by
  apply List.ext_getElem?
  intro j
  rw [List.getElem?_map, List.getElem?_map, List.getElem?_modify]
  cases l[j]? with
  | none => rfl
  | some e =>
    by_cases h : i = j
    · simp [h, hf]
    · simp [h]

/-- `s'` is `s` after some calls: the backends are the same, and `events` were added to the log. -/
structure Logs (s s' : SetState W) (events : List PluginEvent) : Prop where
  handles : s'.handles = s.handles
  log : s'.log = s.log ++ events

theorem Logs.refl (s : SetState W) : Logs s s [] := ⟨rfl, (List.append_nil _).symm⟩

theorem Logs.trans {s₁ s₂ s₃ : SetState W} {l₁ l₂ : List PluginEvent} (h : Logs s₁ s₂ l₁)
    (h' : Logs s₂ s₃ l₂) : Logs s₁ s₃ (l₁ ++ l₂) :=
  ⟨h'.handles.trans h.handles, by rw [h'.log, h.log, List.append_assoc]⟩

theorem callAt_logs (s : SetState W) (call : PluginCall W) (i : ℕ) (event : ℤ → PluginEvent) :
    Logs s (s.callAt call i event).2.2 [event (s.callAt call i event).1] ∧
      (s.callAt call i event).2.2.anyError = s.anyError :=
  ⟨⟨handles_modify _ _ _ fun _ => rfl, rfl⟩, rfl⟩

theorem nameParent_logs (s : SetState W) (parent : Key) : Logs s (s.nameParent parent) [] :=
  ⟨rfl, (List.append_nil _).symm⟩

theorem stringParent_logs (s : SetState W) (value : Str) : Logs s (s.stringParent value) [] :=
  ⟨rfl, (List.append_nil _).symm⟩

theorem storeString_logs (s : SetState W) (i : ℕ) : Logs s (s.storeString i) [] :=
  ⟨handles_modify _ _ _ fun _ => rfl, (List.append_nil _).symm⟩

/-- Events of global plugins. -/
def Hooks (events : List PluginEvent) : Prop :=
  ∀ e ∈ events, ∃ position ret, e = .hook position ret

theorem hooks_nil : Hooks [] := fun _ he => absurd he List.not_mem_nil

theorem hooks_singleton (position : GlobalpluginPositions) (ret : ℤ) : Hooks [.hook position ret] :=
  fun _ he => ⟨position, ret, List.mem_singleton.mp he⟩

/-- A hook adds an event of a global plugin, and keeps the error that was recorded. -/
theorem callHook_logs (position : GlobalpluginPositions) (i : ℕ) (cursor : Option Key)
    (s : SetState W) : ∃ events, Hooks events ∧
    Logs s (callHook handle position i cursor s).2 events ∧
      (callHook handle position i cursor s).2.anyError = s.anyError := by
  unfold callHook
  cases (handle.globalPlugins position).bind Plugin.kdbSet with
  | none => exact ⟨[], hooks_nil, .refl s, rfl⟩
  | some call => exact ⟨_, hooks_singleton position _, callAt_logs s call i (.hook position)⟩

/-! ## The preparation -/

theorem setPrepareEnd_logs (ret : ℤ) (cursor : Option Key) (s : SetState W) : ∃ events, Hooks events ∧
    Logs s (setPrepareEnd handle i p ret cursor s) events ∧
      (setPrepareEnd handle i p ret cursor s).anyError = if ret = -1 then -1 else s.anyError := by
  obtain ⟨events, hhooks, hlogs, herr⟩ : ∃ events, Hooks events ∧
      Logs s (if p = 0 then callHook handle .preSetStorage i cursor s
        else if p = STORAGE_PLUGIN - 1 then callHook handle .preSetCleanup i cursor s
        else (cursor, s)).2 events ∧
      (if p = 0 then callHook handle .preSetStorage i cursor s
        else if p = STORAGE_PLUGIN - 1 then callHook handle .preSetCleanup i cursor s
        else (cursor, s)).2.anyError = s.anyError := by
    split_ifs
    · exact callHook_logs .preSetStorage i cursor s
    · exact callHook_logs .preSetCleanup i cursor s
    · exact ⟨[], hooks_nil, .refl s, rfl⟩
  refine ⟨events, hhooks, ?_⟩
  unfold setPrepareEnd
  by_cases hret : ret = -1
  · simp only [if_pos hret]
    exact ⟨⟨hlogs.handles, hlogs.log⟩, trivial⟩
  · simp only [if_neg hret]
    exact ⟨hlogs, herr⟩

/-- What the log says before the commit. -/
structure Prepared (s : SetState W) : Prop where
  early : ∀ i p ret, .set i p ret ∈ s.log → p < COMMIT_PLUGIN
  no_error : ∀ i p ret, .error i p ret ∉ s.log
  failed : s.anyError = -1 ↔ ∃ i p, .set i p (-1) ∈ s.log

theorem mem_hooks {events : List PluginEvent} (h : Hooks events) :
    (∀ i p ret, .set i p ret ∉ events) ∧ ∀ i p ret, .error i p ret ∉ events := by
  constructor <;> intro i p ret he <;> obtain ⟨_, _, h⟩ := h _ he <;> cases h

theorem Prepared.hooks {s' : SetState W} (h : Prepared s) {events : List PluginEvent}
    (hhooks : Hooks events) (hlogs : Logs s s' events) (herr : s'.anyError = s.anyError) :
    Prepared s' := by
  obtain ⟨hset, herror⟩ := mem_hooks hhooks
  have hmem : ∀ i p ret, .set i p ret ∈ s'.log ↔ .set i p ret ∈ s.log := by
    intro i p ret
    rw [hlogs.log, List.mem_append, or_iff_left (hset i p ret)]
  refine ⟨fun i p ret he => h.early i p ret ((hmem i p ret).mp he), fun i p ret he => ?_, ?_⟩
  · rw [hlogs.log, List.mem_append] at he
    exact he.elim (h.no_error i p ret) (herror i p ret)
  · simp only [herr, h.failed, hmem]

/-- The event of a plugin before the commit, with its return value recorded. -/
theorem Prepared.set {s' : SetState W} (h : Prepared s) (hp : p < COMMIT_PLUGIN) {ret : ℤ}
    (hlogs : Logs s s' [.set i p ret]) (herr : s'.anyError = if ret = -1 then -1 else s.anyError) :
    Prepared s' := by
  have hmem : ∀ e, e ∈ s'.log ↔ e ∈ s.log ∨ e = .set i p ret := by
    intro e
    rw [hlogs.log, List.mem_append, List.mem_singleton]
  refine ⟨fun i' p' ret' he => ?_, fun i' p' ret' he => ?_, ?_⟩
  · obtain he | he := (hmem _).mp he
    · exact h.early i' p' ret' he
    · cases he
      exact hp
  · obtain he | he := (hmem _).mp he
    · exact h.no_error i' p' ret' he
    · cases he
  · by_cases hret : ret = -1
    · subst hret
      rw [herr, if_pos rfl]
      exact iff_of_true rfl ⟨i, p, (hmem _).mpr (Or.inr rfl)⟩
    · rw [herr, if_neg hret, h.failed]
      refine exists_congr fun i' => exists_congr fun p' => ?_
      rw [hmem, or_iff_left]
      intro he
      cases he
      exact hret rfl

/-- **One round.** -/
theorem setPrepareRound_prepared (hp : p < COMMIT_PLUGIN) (h : Prepared s) :
    Prepared (setPrepareRound handle i p s).2 ∧ (setPrepareRound handle i p s).2.handles = s.handles := by
  unfold setPrepareRound
  cases s.split[i]? with
  | none => exact ⟨h, rfl⟩
  | some e =>
    dsimp only
    cases ((e.backend handle).setplugins p).bind Plugin.kdbSet with
    | none =>
      obtain ⟨events, hhooks, hlogs, herr⟩ := @setPrepareEnd_logs W handle i p 0 none s
      exact ⟨h.hooks hhooks hlogs herr, hlogs.handles⟩
    | some call =>
      dsimp only
      generalize hs₁ : (s.stringParent (if p ≠ 0 then keyString e.parent else [])).nameParent e.parent
        = s₁
      have hnamed : Logs s s₁ [] :=
        hs₁ ▸ (stringParent_logs s _).trans (nameParent_logs _ e.parent)
      have herr₁ : s₁.anyError = s.anyError := hs₁ ▸ rfl
      have hcall := callAt_logs s₁ call i (.set i p)
      generalize s₁.callAt call i (.set i p) = r at hcall
      have hlogs : Logs s r.2.2 [.set i p r.1] := hnamed.trans hcall.1
      have herr : r.2.2.anyError = s.anyError := hcall.2.trans herr₁
      by_cases hdone : p = 0 ∧ r.1 = 0
      · rw [if_pos hdone]
        refine ⟨h.set hp hlogs ?_, hlogs.handles⟩
        rw [if_neg (by omega), herr]
      · rw [if_neg hdone]
        generalize hs₂ : (if p = 0 then r.2.2.storeString i else r.2.2) = s₂
        have hstored : Logs s s₂ [.set i p r.1] ∧ s₂.anyError = s.anyError := by
          rw [← hs₂]
          split_ifs
          · exact ⟨hlogs.trans (storeString_logs _ i), herr⟩
          · exact ⟨hlogs, herr⟩
        obtain ⟨events, hhooks, hend, hret⟩ := @setPrepareEnd_logs W handle i p r.1 r.2.1 s₂
        -- the return value counts as recorded by the call; the hooks then change nothing
        have hset : Prepared { s₂ with anyError := if r.1 = -1 then -1 else s.anyError } :=
          h.set hp ⟨hstored.1.handles, hstored.1.log⟩ rfl
        refine ⟨hset.hooks hhooks ⟨hend.handles, hend.log⟩ ?_, hend.handles.trans hstored.1.handles⟩
        rw [hret, hstored.2]

theorem setPrepareEntry_prepared (ps : List ℕ) (hps : ∀ p ∈ ps, p < COMMIT_PLUGIN)
    (h : Prepared s) : Prepared (setPrepareEntry handle i ps s) ∧
      (setPrepareEntry handle i ps s).handles = s.handles := by
  induction ps generalizing s with
  | nil => exact ⟨h, rfl⟩
  | cons p ps ih =>
    obtain ⟨hround, hhandles⟩ :=
      @setPrepareRound_prepared W handle s i p (hps p List.mem_cons_self) h
    rw [setPrepareEntry]
    dsimp only
    split_ifs
    · exact ⟨hround, hhandles⟩
    · obtain ⟨hrest, hhandles'⟩ := ih (fun p hp => hps p (List.mem_cons_of_mem _ hp)) hround
      exact ⟨hrest, hhandles'.trans hhandles⟩

/-- **The preparation.** -/
theorem elektraSetPrepare_prepared (h : Prepared s) : Prepared (elektraSetPrepare handle s) :=
  List.foldlRecOn _ _ h fun _ hs _ _ =>
    (setPrepareEntry_prepared _ (fun _ hp => List.mem_range.mp hp) hs).1

/-! ## The commit and the rollback -/

/-- `s'` is `s` after calls with events of the kind `K`. -/
def Grows (K : PluginEvent → Prop) (s s' : SetState W) : Prop :=
  ∃ events, (∀ e ∈ events, K e) ∧ Logs s s' events

variable {K : PluginEvent → Prop}

theorem Grows.refl (s : SetState W) : Grows K s s :=
  ⟨[], fun _ he => absurd he List.not_mem_nil, .refl s⟩

theorem Grows.trans {s₁ s₂ s₃ : SetState W} (h : Grows K s₁ s₂) (h' : Grows K s₂ s₃) :
    Grows K s₁ s₃ := by
  obtain ⟨l, hl, hlogs⟩ := h
  obtain ⟨l', hl', hlogs'⟩ := h'
  refine ⟨l ++ l', fun e he => ?_, hlogs.trans hlogs'⟩
  exact (List.mem_append.mp he).elim (hl e) (hl' e)

theorem Grows.mono {K' : PluginEvent → Prop} {s' : SetState W} (hK : ∀ e, K e → K' e)
    (h : Grows K s s') : Grows K' s s' := by
  obtain ⟨l, hl, hlogs⟩ := h
  exact ⟨l, fun e he => hK e (hl e he), hlogs⟩

theorem Grows.foldl {α : Type} {f : SetState W → α → SetState W}
    (l : List α) (hf : ∀ s, ∀ a ∈ l, Grows K s (f s a)) (s : SetState W) : Grows K s (l.foldl f s) :=
  List.foldlRecOn l f (.refl s) fun _ hb a ha => hb.trans (hf _ a ha)

theorem Grows.mem {s' : SetState W} (h : Grows K s s') {e : PluginEvent} (he : e ∈ s'.log) :
    e ∈ s.log ∨ K e := by
  obtain ⟨l, hl, hlogs⟩ := h
  rw [hlogs.log, List.mem_append] at he
  exact he.imp_right (hl e)

theorem Grows.mem_of {s' : SetState W} (h : Grows K s s') {e : PluginEvent} (he : e ∈ s.log) :
    e ∈ s'.log := by
  obtain ⟨l, _, hlogs⟩ := h
  rw [hlogs.log]
  exact List.mem_append_left _ he

theorem Grows.of_logs {s' : SetState W} (h : Logs s s' []) : Grows K s s' :=
  ⟨[], fun _ he => absurd he List.not_mem_nil, h⟩

theorem callAt_grows (s : SetState W) (call : PluginCall W) (i : ℕ) {event : ℤ → PluginEvent}
    (hK : ∀ ret, K (event ret)) : Grows K s (s.callAt call i event).2.2 := by
  refine ⟨_, fun e he => ?_, (callAt_logs s call i event).1⟩
  rw [List.mem_singleton.mp he]
  exact hK _

theorem setCommitRound_grows (s : SetState W) :
    Grows (fun e => ∃ i ret, e = .set i p ret) s (setCommitRound handle env p s i) := by
  unfold setCommitRound
  cases s.split[i]? with
  | none => exact .refl s
  | some e =>
    dsimp only
    cases ((e.backend handle).setplugins p).bind Plugin.kdbSet with
    | none => exact .refl s
    | some call =>
      dsimp only
      generalize hs₁ : (if p ≠ COMMIT_PLUGIN then s.stringParent (keyString e.parent) else s) = s₁
      have hstring : Logs s s₁ [] := by
        rw [← hs₁]
        split_ifs
        · exact stringParent_logs s _
        · exact .refl s
      have hcall := @callAt_grows W (fun e => ∃ i ret, e = .set i p ret) (s₁.nameParent e.parent) call i
        (.set i p) fun ret => ⟨i, ret, rfl⟩
      generalize (s₁.nameParent e.parent).callAt call i (.set i p) = r at hcall
      have hnamed : Grows (fun e => ∃ i ret, e = .set i p ret) s r.2.2 :=
        (Grows.of_logs (hstring.trans (nameParent_logs s₁ e.parent))).trans hcall
      generalize hs₂ : (if p = COMMIT_PLUGIN then r.2.2.storeString i else r.2.2) = s₂
      have hstored : Grows (fun e => ∃ i ret, e = .set i p ret) s s₂ := by
        rw [← hs₂]
        split_ifs
        · exact hnamed.trans (.of_logs (storeString_logs _ i))
        · exact hnamed
      split_ifs
      · exact hstored.trans (.of_logs ⟨rfl, (List.append_nil _).symm⟩)
      · exact hstored

theorem elektraSetCommit_grows (s : SetState W) :
    Grows (fun e => ∃ i p ret, e = .set i p ret ∧ COMMIT_PLUGIN ≤ p) s (elektraSetCommit handle env s) := by
  refine Grows.foldl _ (fun s p hp => Grows.foldl _ (fun s i _ => ?_) s) s
  have hcommit : COMMIT_PLUGIN ≤ p := by
    obtain ⟨k, hk, rfl⟩ := List.mem_drop_iff_getElem.mp hp
    rw [List.getElem_range]
    exact Nat.le_add_right _ _
  refine (setCommitRound_grows s).mono ?_
  rintro _ ⟨i, ret, rfl⟩
  exact ⟨i, p, ret, rfl, hcommit⟩

theorem setRollbackRound_logs (s : SetState W) : ∃ events,
    (∀ e ∈ events, ∃ i p ret, e = .error i p ret) ∧
    Logs s (setRollbackRound handle env p s i) events ∧
      ∀ h, s.handles[i]? = some h → ((handle.backend (h.getD 0)).errorplugins p).isSome →
        ∃ ret, .error i p ret ∈ events := by
  have hnil : ∀ e ∈ ([] : List PluginEvent), ∃ i p ret, e = .error i p ret :=
    fun _ he => absurd he List.not_mem_nil
  unfold setRollbackRound SetState.handles
  rw [List.getElem?_map]
  cases s.split[i]? with
  | none =>
    refine ⟨[], hnil, .refl s, fun h hh => ?_⟩
    cases hh
  | some e =>
    have hentry : ∀ h, Option.map SplitEntry.handle (some e) = some h →
        handle.backend (h.getD 0) = e.backend handle := by
      rintro _ ⟨⟩
      rfl
    dsimp only
    cases herrorplugins : (e.backend handle).errorplugins p with
    | none =>
      refine ⟨[], hnil, .refl s, fun h hh hsome => ?_⟩
      rw [hentry h hh, herrorplugins] at hsome
      cases hsome
    | some plugin =>
      dsimp only
      have hcall := (callAt_logs (s.nameParent e.parent) plugin.kdbError i (.error i p)).1
      generalize (s.nameParent e.parent).callAt plugin.kdbError i (.error i p) = r at hcall
      have hlogs : Logs s r.2.2 [.error i p r.1] := (nameParent_logs s e.parent).trans hcall
      refine ⟨[.error i p r.1], fun _ he => ⟨i, p, r.1, List.mem_singleton.mp he⟩, ?_,
        fun _ _ _ => ⟨r.1, List.mem_singleton_self _⟩⟩
      split_ifs
      · exact ⟨hlogs.handles, hlogs.log⟩
      · exact hlogs

theorem setRollbackRound_grows (s : SetState W) :
    Grows (fun e => ∃ i p ret, e = .error i p ret) s (setRollbackRound handle env p s i) := by
  obtain ⟨events, herror, hlogs, -⟩ := @setRollbackRound_logs W handle env i p s
  exact ⟨events, herror, hlogs⟩

/-- The entries of `s` have been given to the plugin at position `p`. -/
def RolledBack (handle : KDB W) (s : SetState W) (p i : ℕ) : Prop :=
  ∀ h, s.handles[i]? = some h → ((handle.backend (h.getD 0)).errorplugins p).isSome →
    ∃ ret, .error i p ret ∈ s.log

theorem RolledBack.grows {s' : SetState W} (h : RolledBack handle s p i) (hgrows : Grows K s s') :
    RolledBack handle s' p i := by
  intro b hb hsome
  have hhandles : s'.handles = s.handles := by
    obtain ⟨_, _, hlogs⟩ := hgrows
    exact hlogs.handles
  rw [hhandles] at hb
  obtain ⟨ret, he⟩ := h b hb hsome
  exact ⟨ret, hgrows.mem_of he⟩

theorem setRollbackRound_all (s : SetState W) :
    RolledBack handle (setRollbackRound handle env p s i) p i := by
  intro h hh hsome
  obtain ⟨events, -, hlogs, hall⟩ := @setRollbackRound_logs W handle env i p s
  rw [hlogs.handles] at hh
  obtain ⟨ret, he⟩ := hall h hh hsome
  exact ⟨ret, hlogs.log ▸ List.mem_append_right _ he⟩

theorem setRollbackRounds_grows (l : List ℕ) (s : SetState W) :
    Grows (fun e => ∃ i p ret, e = .error i p ret) s (l.foldl (setRollbackRound handle env p) s) :=
  Grows.foldl l (fun s _ _ => setRollbackRound_grows s) s

theorem setRollbackRounds_all (s : SetState W) (i : ℕ) :
    RolledBack handle ((List.range s.split.length).foldl (setRollbackRound handle env p) s) p i := by
  by_cases hi : i < s.split.length
  · exact foldl_establishes (P := fun _ => True) (Q := fun i s => RolledBack handle s p i)
      (fun _ _ _ => trivial) (fun _ _ _ => setRollbackRound_all _)
      (fun _ _ _ h => h.grows (setRollbackRound_grows _)) _ trivial i (List.mem_range.mpr hi)
  · intro h hh
    obtain ⟨_, _, hlogs⟩ := @setRollbackRounds_grows W handle env p (List.range s.split.length) s
    rw [hlogs.handles, SetState.handles, List.getElem?_map, List.getElem?_eq_none (by omega)] at hh
    cases hh

theorem elektraSetRollback_grows (s : SetState W) :
    Grows (fun e => ∃ i p ret, e = .error i p ret) s (elektraSetRollback handle env s) :=
  Grows.foldl _ (fun s _ _ => setRollbackRounds_grows _ s) s

/-- **The rollback.** Each plugin is called for each entry. -/
theorem elektraSetRollback_all (s : SetState W) :
    ∀ p ∈ List.range NR_OF_PLUGINS, ∀ i, RolledBack handle (elektraSetRollback handle env s) p i :=
  foldl_establishes (P := fun _ => True) (Q := fun p s => ∀ i, RolledBack handle s p i)
    (fun _ _ _ => trivial) (fun s _ _ i => setRollbackRounds_all s i)
    (fun _ _ _ h i => (h i).grows (setRollbackRounds_grows _ _)) _ trivial

/-! ## kdbSet -/

theorem callGlobal_logs (call : Option (PluginCall W)) (position : GlobalpluginPositions)
    (ks : List Key) (s : SetState W) : ∃ events, Hooks events ∧
    Logs s (callGlobal call position ks s).2 events ∧
      (callGlobal call position ks s).2.errorKey = s.errorKey := by
  cases call with
  | none => exact ⟨[], hooks_nil, .refl s, rfl⟩
  | some call => exact ⟨_, hooks_singleton position _, ⟨rfl, rfl⟩, rfl⟩

theorem callGlobal_keeps {I : List Key → Prop} {call : Option (PluginCall W)}
    {position : GlobalpluginPositions} {ks : List Key}
    (hcall : ∀ f ∈ call, ∀ w ks k, I ks → I (f w ks k).keys) (hks : I ks) (s : SetState W) :
    I (callGlobal call position ks s).1 := by
  cases call with
  | none => exact hks
  | some call => exact hcall call rfl _ _ _ hks

/-- Events of the rollback. -/
def ErrorEvent (e : PluginEvent) : Prop :=
  (∃ i p ret, e = .error i p ret) ∨ ∃ position ret, e = .hook position ret

/-- `I` is kept by what works on the key set of the caller behind the label `error:`. -/
structure KeptByRollback (env : Environment) (handle : KDB W) (I : List Key → Prop) : Prop where
  lookup : ∀ ks key, I ks → I (env.lookup ks key).2
  kdbError : ∀ position ∈ [GlobalpluginPositions.preRollback, .postRollback],
    ∀ plugin ∈ handle.globalPlugins position, ∀ w ks k, I ks → I (plugin.kdbError w ks k).keys

theorem callGlobal_grows (call : Option (PluginCall W)) (position : GlobalpluginPositions)
    (ks : List Key) (s : SetState W) : Grows ErrorEvent s (callGlobal call position ks s).2 := by
  obtain ⟨events, hhooks, hlogs, -⟩ := callGlobal_logs call position ks s
  exact ⟨events, fun e he => Or.inr (hhooks e he), hlogs⟩

theorem KeptByRollback.callGlobal {I : List Key → Prop} (hI : KeptByRollback env handle I)
    {position : GlobalpluginPositions}
    (hposition : position ∈ [GlobalpluginPositions.preRollback, .postRollback]) {ks : List Key}
    (hks : I ks) (s : SetState W) :
    I (callGlobal ((handle.globalPlugins position).map Plugin.kdbError) position ks s).1 := by
  refine callGlobal_keeps (fun f hf => ?_) hks s
  obtain ⟨plugin, hplugin, rfl⟩ := Option.mem_map.mp hf
  exact hI.kdbError position hposition plugin hplugin

theorem kdbSetError_spec (ks : List Key) (initialParent : Key) (s : SetState W) : ∃ s',
    Grows ErrorEvent s s' ∧ (∀ p ∈ List.range NR_OF_PLUGINS, ∀ i, RolledBack handle s' p i) ∧
    (kdbSetError env handle ks initialParent s).ret = -1 ∧
    (kdbSetError env handle ks initialParent s).split = s'.split ∧
    (kdbSetError env handle ks initialParent s).log = s'.log ∧
    ∀ I : List Key → Prop, KeptByRollback env handle I → I ks →
      I (kdbSetError env handle ks initialParent s).ks := by
  unfold kdbSetError
  dsimp only
  generalize hpre : callGlobal ((handle.globalPlugins .preRollback).map Plugin.kdbError) .preRollback ks
    (s.nameParent initialParent) = pre
  have hpregrows : Grows ErrorEvent s pre.2 :=
    hpre ▸ (Grows.of_logs (nameParent_logs s initialParent)).trans (callGlobal_grows _ _ _ _)
  have hprekept : ∀ I, KeptByRollback env handle I → I ks → I pre.1 :=
    fun I hI hks => hpre ▸ hI.callGlobal (by simp) hks _
  generalize hback : elektraSetRollback handle env pre.2 = back
  have hbackgrows : Grows ErrorEvent s back :=
    hback ▸ hpregrows.trans ((elektraSetRollback_grows pre.2).mono fun _ he => Or.inl he)
  have hall : ∀ p ∈ List.range NR_OF_PLUGINS, ∀ i, RolledBack handle back p i :=
    hback ▸ elektraSetRollback_all pre.2
  -- the lookup of the error key changes neither the log nor the split
  have finish : ∀ ks' s', Logs back s' [] → (∀ I, KeptByRollback env handle I → I ks → I ks') →
      ∃ s'', Grows ErrorEvent s s'' ∧ (∀ p ∈ List.range NR_OF_PLUGINS, ∀ i, RolledBack handle s'' p i) ∧
        (callGlobal ((handle.globalPlugins .postRollback).map Plugin.kdbError) .postRollback ks'
          (s'.nameParent initialParent)).2 = s'' ∧
        ∀ I, KeptByRollback env handle I → I ks →
          I (callGlobal ((handle.globalPlugins .postRollback).map Plugin.kdbError) .postRollback ks'
            (s'.nameParent initialParent)).1 := by
    intro ks' s' hlogs hkept
    have hpost := (Grows.of_logs (hlogs.trans (nameParent_logs s' initialParent))).trans
      (callGlobal_grows ((handle.globalPlugins .postRollback).map Plugin.kdbError) .postRollback ks' _)
    exact ⟨_, hbackgrows.trans hpost, fun p hp i => (hall p hp i).grows hpost, rfl,
      fun I hI hks => hI.callGlobal (by simp) (hkept I hI hks) _⟩
  cases herr : back.errorKey with
  | none =>
    obtain ⟨s'', hgrows, hrolled, rfl, hkept⟩ := finish pre.1 back (.refl back) hprekept
    exact ⟨_, hgrows, hrolled, rfl, rfl, rfl, hkept⟩
  | some errorKey =>
    have hlookup : ∀ I, KeptByRollback env handle I → I ks → I (env.lookup pre.1 errorKey).2 :=
      fun I hI hks => hI.lookup _ _ (hprekept I hI hks)
    dsimp only
    by_cases hfound : (env.lookup pre.1 errorKey).1
    · rw [if_pos hfound]
      obtain ⟨s'', hgrows, hrolled, rfl, hkept⟩ := finish _ back (.refl back) hlookup
      exact ⟨_, hgrows, hrolled, rfl, rfl, rfl, hkept⟩
    · rw [if_neg hfound]
      obtain ⟨s'', hgrows, hrolled, rfl, hkept⟩ := finish _ { back with
        parentKey := env.addWarning 82 back.parentKey (keyName errorKey), errorKey := some errorKey }
        ⟨rfl, (List.append_nil _).symm⟩ hlookup
      exact ⟨_, hgrows, hrolled, rfl, rfl, rfl, hkept⟩

/-- The ends of `kdbSet`: without a call, after an error, or after the commit. -/
theorem kdbSet_cases (world : W) (ks : List Key) (parentKey : Key) :
    ((kdbSet env handle world ks parentKey).log = [] ∧ (kdbSet env handle world ks parentKey).ret ≠ 1 ∧
        (kdbSet env handle world ks parentKey).ks = ks) ∨
      (∃ initialParent s, Prepared s ∧ (s.log = [] ∨ s.anyError = -1) ∧
        kdbSet env handle world ks parentKey = kdbSetError env handle ks initialParent s) ∨
      ∃ initialParent oldError s, Prepared s ∧ s.anyError ≠ -1 ∧
        kdbSet env handle world ks parentKey = kdbSetCommit env handle ks initialParent oldError s := by
  have hnew : ∀ s : SetState W, s.log = [] → s.anyError = 0 → Prepared s := by
    intro s hlog herr
    refine ⟨?_, ?_, ?_⟩ <;> simp [hlog, herr]
  unfold kdbSet
  dsimp only
  by_cases hmeta : keyGetNamespace parentKey = .metaName
  · rw [if_pos hmeta]
    exact Or.inl ⟨rfl, by simp, rfl⟩
  rw [if_neg hmeta]
  generalize (if keyGetNamespace parentKey = .empty then
    env.addWarning 105 parentKey (str "invalid key name passed to kdbSet") else parentKey) = parent
  split_ifs with hdivided hsync hzero hassert herr
  · exact Or.inr (Or.inl ⟨_, _, hnew _ rfl rfl, Or.inl rfl, rfl⟩)
  · exact Or.inl ⟨rfl, by simp, rfl⟩
  · exact Or.inl ⟨rfl, by simp, rfl⟩
  · exact Or.inl ⟨rfl, by simp, rfl⟩
  · exact Or.inr (Or.inl ⟨_, _, elektraSetPrepare_prepared (hnew _ rfl rfl), Or.inr herr, rfl⟩)
  · exact Or.inr (Or.inr ⟨_, _, _, elektraSetPrepare_prepared (hnew _ rfl rfl), herr, rfl⟩)

/-- Events of the commit. -/
def CommitEvent (e : PluginEvent) : Prop :=
  (∃ i p ret, e = .set i p ret ∧ COMMIT_PLUGIN ≤ p) ∨ ∃ position ret, e = .hook position ret

theorem kdbSetCommit_spec (ks : List Key) (initialParent oldError : Key) (s : SetState W) : ∃ s',
    Grows CommitEvent s s' ∧ (kdbSetCommit env handle ks initialParent oldError s).log = s'.log := by
  have hglobal : ∀ call position ks (s : SetState W),
      Grows CommitEvent s (callGlobal call position ks s).2 := by
    intro call position ks s
    obtain ⟨events, hhooks, hlogs, -⟩ := callGlobal_logs call position ks s
    exact ⟨events, fun e he => Or.inr (hhooks e he), hlogs⟩
  have hparent : ∀ (s : SetState W) k, Grows CommitEvent s { s with parentKey := k } :=
    fun s k => .of_logs ⟨rfl, (List.append_nil _).symm⟩
  have hname : ∀ (s : SetState W) k, Grows CommitEvent s (s.nameParent k) :=
    fun s k => .of_logs (nameParent_logs s k)
  have hcommit : ∀ s : SetState W, Grows CommitEvent s (elektraSetCommit handle env s) :=
    fun s => (elektraSetCommit_grows s).mono fun _ he => Or.inl he
  refine ⟨_, ?_, rfl⟩
  exact (((hparent _ _).trans (hname _ _)).trans ((hglobal _ _ _ _).trans (hcommit _))).trans
    ((hname _ _).trans ((hglobal _ _ _ _).trans (hname _ _)))

end Calls

section TwoPhase

variable {W : Type} (env : Environment) (handle : KDB W) (world : W) (ks : List Key) (parentKey : Key)

/-- Plugins at and behind the commit are called only when none before it returned `-1`. When one did,
so does the whole call; none at the commit is called, those for errors are called for each entry of
the split, and the key set of the caller is what the global plugins for the rollback and a lookup
make of it. -/
structure TwoPhase (r : SetResult W) : Prop where
  commit : ∀ i p ret, .set i p ret ∈ r.log → COMMIT_PLUGIN ≤ p →
    ∀ i' p', p' < COMMIT_PLUGIN → .set i' p' (-1) ∉ r.log
  rollback : (∃ i p, p < COMMIT_PLUGIN ∧ .set i p (-1) ∈ r.log) →
    r.ret = -1 ∧ (∀ i p ret, .set i p ret ∈ r.log → p < COMMIT_PLUGIN) ∧
    (∀ i e, r.split[i]? = some e → ∀ p < NR_OF_PLUGINS, ((e.backend handle).errorplugins p).isSome →
      ∃ ret, .error i p ret ∈ r.log) ∧
    ∀ I : List Key → Prop, KeptByRollback env handle I → I ks → I r.ks

/-- `kdbSet` commits only what was prepared in all backends. -/
theorem kdbSet_two_phase : TwoPhase env handle ks (kdbSet env handle world ks parentKey) := by
  generalize hr : kdbSet env handle world ks parentKey = r
  have hcases := @kdbSet_cases W handle env world ks parentKey
  rw [hr] at hcases
  obtain ⟨hlog, -, -⟩ | ⟨initialParent, s, hs, -, hr⟩ | ⟨initialParent, oldError, s, hs, herr, hr⟩ :=
    hcases
  · have hnil : ∀ e, e ∉ r.log := fun e he => absurd (hlog ▸ he) List.not_mem_nil
    refine ⟨fun i p ret he => absurd he (hnil _), ?_⟩
    rintro ⟨i, p, -, he⟩
    exact absurd he (hnil _)
  · obtain ⟨s', hgrows, hall, hret, hsplit, hlogs, hkept⟩ :=
      @kdbSetError_spec W handle env ks initialParent s
    rw [← hr] at hret hsplit hlogs hkept
    have hearly : ∀ i p ret, .set i p ret ∈ r.log → p < COMMIT_PLUGIN := by
      intro i p ret he
      rw [hlogs] at he
      obtain he | ⟨_, _, _, he⟩ | ⟨_, _, he⟩ := hgrows.mem he
      · exact hs.early i p ret he
      · cases he
      · cases he
    refine ⟨fun i p ret he hp => absurd (hearly i p ret he) (by omega), fun _ =>
      ⟨hret, hearly, ?_, hkept⟩⟩
    intro i e he p hp hsome
    rw [hlogs]
    refine hall p (List.mem_range.mpr hp) i e.handle ?_ hsome
    rw [SetState.handles, ← hsplit, List.getElem?_map, he, Option.map_some]
  · obtain ⟨s', hgrows, hlogs⟩ := @kdbSetCommit_spec W handle env ks initialParent oldError s
    rw [← hr] at hlogs
    have hnone : ∀ i p, p < COMMIT_PLUGIN → .set i p (-1) ∉ r.log := by
      intro i p hp he
      rw [hlogs] at he
      obtain he | ⟨_, _, _, he, hcommit⟩ | ⟨_, _, he⟩ := hgrows.mem he
      · exact herr (hs.failed.mpr ⟨i, p, he⟩)
      · cases he
        omega
      · cases he
    refine ⟨fun _ _ _ _ _ => hnone, ?_⟩
    rintro ⟨i, p, hp, he⟩
    exact absurd he (hnone i p hp)

end TwoPhase

/-! ## A global plugin -/

/-- A plugin that returns `ret`, and whose `kdbError` removes all keys. -/
def returning (ret : ℤ) : Plugin Unit where
  kdbGet := none
  kdbSet := some fun _ ks parentKey =>
    { ret := ret, world := (), keys := ks, cursor := none, parentKey := parentKey }
  kdbError _ _ parentKey := { ret := ret, world := (), keys := [], cursor := none, parentKey := parentKey }

/-- One backend, whose resolver returns `ret`, and a global plugin that returns `-1`. -/
def hooked (ret : ℤ) (position : GlobalpluginPositions) : KDB Unit where
  trie := .null
  split := [{ keyset := [], handle := some 0, parent := keyNewName (str "user"), syncbits := 0 }]
  defaultBackend := some 0
  initBackend := none
  globalPlugins p := if p = position then some (returning (-1)) else none
  backend _ :=
    { mountpoint := none
      setplugins := fun p => if p = RESOLVER_PLUGIN then some (returning ret)
        else if p = COMMIT_PLUGIN then some (returning 1) else none
      getplugins := fun _ => none
      errorplugins := fun _ => none
      specsize := 0, dirsize := 0, usersize := 0, systemsize := 0, refcounter := 1 }

/-- Errors without text, and lookups that find nothing. -/
def silent : Environment where
  setError _ key _ := key
  addWarning _ key _ := key
  lookup ks _ := (false, ks)

/-- A global plugin that fails before the commit does not keep it from happening, and one for the
rollback is given the key set of the caller. -/
theorem kdbSet_hooked :
    let key := keyNewName (str "user/a")
    let parentKey := keyNewName (str "user")
    let r := kdbSet silent (hooked 1 .preSetStorage) () [key] parentKey
    let r' := kdbSet silent (hooked (-1) .preRollback) () [key] parentKey
    (.hook .preSetStorage (-1) ∈ r.log ∧ .set 0 COMMIT_PLUGIN 1 ∈ r.log) ∧
      .set 0 RESOLVER_PLUGIN (-1) ∈ r'.log ∧ r'.ks = [] := by
  decide +kernel

end Elektra
