import Elektra.Resolver.Model

/-!
# Cycles of one process

What a complete `kdbGet` or `kdbSet` has to leave behind: no descriptor, no lock, a handle that
describes the file, and after a failure the file as it was.

* `Quiet`, `Describes`, `Restored`;
* `Fits`: no file is removed by a commit, and a file that was created is either filled or removed;
* **`cycle_restored`**: a cycle restores exactly if it fits;
* **`cycles_restored`**: in every run whose cycles fit.
-/

namespace Elektra.Resolver

/-- Between two cycles: no descriptor, and everything that was locked was released. -/
structure Quiet (s : State) : Prop where
  fd : s.pk.fd = .none
  mutex : s.mutex = 0
  locks : s.locks = 0

/-- `isMissing` and `mtime` describe the file. -/
def Describes (s : State) : Prop :=
  match s.file with
  | none => s.pk.isMissing = true ∧ s.pk.mtime = ⟨0, 0⟩
  | some f => s.pk.isMissing = false ∧ s.pk.mtime = f.mtime

/-- What the configuration file holds; none where it is missing. -/
def State.content (s : State) : Option (List UInt8) := s.file.map File.content

/-- What a cycle should leave behind. -/
structure Restored (s : State) (c : Cycle) : Prop where
  quiet : Quiet (cycle s c).1
  describes : Describes (cycle s c).1
  unchanged : (cycle s c).2 ≠ .done → (cycle s c).1.content = s.content
  noConflict : ∀ e, (cycle s c).2 = .prepareFailed e → e.onFile = false

/-- Where no file is, the first phase creates one. -/
def creates (s : State) (p : Prepare) : Bool :=
  (s.dir && !p.openFails) || (!p.createFails && (s.dir || !p.mkdirFails))

/-- The commit of a cycle for a file `f` that is there, or for one that was just created. -/
def Commit.Fits (c : Commit) : Option File → Prop
  | none => c.tempOpens = true ∧ c.renames = true
  | some f => c.renames = false ∨ c.tempOpens = true ∨ (c.content = f.content ∧ c.mtime = f.mtime)

/-- The locks are acquired. -/
def Prepare.locks (p : Prepare) : Bool := !p.mutexFails && !p.lockFails

/-- A commit does not remove the file; a file that the first phase creates is locked and then either
committed or rolled back; a commit that renames the temporary file can open it. -/
def Fits (s : State) : Cycle → Prop
  | .set true _ (.committed _) => s.file = none
  | .set false p after =>
    match s.file with
    | none => creates s p = true → p.locks = true ∧ ∀ c, after = .committed c → c.Fits none
    | some f => p.openFails = false → p.locks = true → ∀ c, after = .committed c → c.Fits (some f)
  | _ => True

/-! ## The first phase -/

/-- The first phase refused: nothing is locked, and the handle knows what it knew. -/
structure Refused (s s' : State) : Prop where
  quiet : Quiet s'
  mtime : s'.pk.mtime = s.pk.mtime
  isMissing : s'.pk.isMissing = s.pk.isMissing

/-- The first phase succeeded: the file is open and locked. -/
structure Prepared (s s' : State) (created : Bool) : Prop where
  fd : s'.pk.fd = .opened
  mutex : s'.mutex = 1
  locks : s'.locks = 1
  mtime : s'.pk.mtime = s.pk.mtime
  isMissing : s'.pk.isMissing = s.pk.isMissing
  removalNeeded : s'.pk.removalNeeded = created

/-- The result of the first phase, when the locks decide. -/
def Locked (s s' : State) (p : Prepare) (e : Option PrepareError) (created : Bool) : Prop :=
  if p.locks then e = none ∧ Prepared s s' created
  else (∃ e', e = some e' ∧ e'.onFile = false) ∧ Refused s s'

section FirstPhase

variable {s : State} {p : Prepare}

/-- The locks and the check, for a file that is open and passes the check. -/
theorem lockAndCheck_spec {t : State} {b : Bool} (hm : t.mutex = 0) (hl : t.locks = 0)
    (hfd : t.pk.fd = .opened) (ht : t.pk.mtime = s.pk.mtime) (hi : t.pk.isMissing = s.pk.isMissing)
    (hr : t.pk.removalNeeded = b) (hc : elektraCheckConflict t = true) :
    (lockAndCheck t p).1.file = t.file ∧
      Locked s (lockAndCheck t p).1 p (lockAndCheck t p).2 b := by
  have hc' : ∀ m l, elektraCheckConflict { t with mutex := m, locks := l } = true := fun _ _ => hc
  unfold lockAndCheck Locked Prepare.locks
  cases hmf : p.mutexFails with
  | true => exact ⟨rfl, ⟨_, rfl, rfl⟩, ⟨rfl, hm, hl⟩, ht, hi⟩
  | false =>
    cases hlf : p.lockFails with
    | true =>
      refine ⟨rfl, ⟨_, rfl, rfl⟩, ⟨rfl, ?_, hl⟩, ht, hi⟩
      simp [State.setFd, hm]
    | false =>
      simp only [Bool.false_eq_true, if_false, hc', if_true, Bool.not_false, Bool.and_self]
      exact ⟨trivial, trivial, hfd, by simp [hm], by simp [hl], ht, hi, hr⟩

theorem prepare_missing (hq : Quiet s) (hf : s.file = none) (hm : s.pk.isMissing = true) :
    if creates s p then
      (elektraSetPrepare s p).1.file = some ⟨[], p.now⟩ ∧
        Locked s (elektraSetPrepare s p).1 p (elektraSetPrepare s p).2 true
    else (elektraSetPrepare s p).1.file = none ∧
      (∃ e, (elektraSetPrepare s p).2 = some e ∧ e.onFile = false) ∧
        Refused s (elektraSetPrepare s p).1 := by
  unfold creates elektraSetPrepare elektraOpenFile
  simp only [hm, if_true, hf]
  cases h1 : s.dir && !p.openFails with
  | true =>
    simp only [if_true, Bool.true_or, State.create, reduceCtorEq, if_false]
    exact lockAndCheck_spec hq.mutex hq.locks rfl rfl hm.symm rfl rfl
  | false =>
    simp only [Bool.false_eq_true, if_false, Bool.false_or, State.setFd, if_true]
    unfold elektraCreateFile elektraMkdirParents
    dsimp only
    have h3 : (!p.createFails && (s.dir || !p.mkdirFails)) =
        !(p.createFails || !(s.dir || !p.mkdirFails)) := by simp
    rw [h3]
    cases h2 : p.createFails || !(s.dir || !p.mkdirFails) with
    | true =>
      simp only [if_true, Bool.not_true, Bool.false_eq_true, if_false, State.setFd]
      exact ⟨trivial, ⟨_, rfl, rfl⟩, ⟨rfl, hq.mutex, hq.locks⟩, rfl, hm.symm⟩
    | false =>
      simp only [Bool.false_eq_true, if_false, Bool.not_false, if_true, State.create]
      exact lockAndCheck_spec hq.mutex hq.locks rfl rfl hm.symm rfl rfl

theorem prepare_there {f : File} (hq : Quiet s) (hf : s.file = some f) (hm : s.pk.isMissing = false)
    (ht : s.pk.mtime = f.mtime) :
    (elektraSetPrepare s p).1.file = some f ∧
      if p.openFails then (∃ e, (elektraSetPrepare s p).2 = some e ∧ e.onFile = false) ∧
        Refused s (elektraSetPrepare s p).1
      else Locked s (elektraSetPrepare s p).1 p (elektraSetPrepare s p).2 false := by
  unfold elektraSetPrepare elektraOpenFile
  simp only [hm, hf, Bool.false_eq_true, if_false]
  cases h1 : p.openFails with
  | true =>
    simp only [if_true]
    exact ⟨rfl, ⟨_, rfl, rfl⟩, ⟨rfl, hq.mutex, hq.locks⟩, rfl, hm.symm⟩
  | false =>
    simp only [Bool.false_eq_true, if_false, State.setFd, reduceCtorEq]
    exact lockAndCheck_spec hq.mutex hq.locks rfl rfl hm.symm rfl (by simp [elektraCheckConflict, ht])

end FirstPhase

/-! ## The second phase, and the rollback -/

section SecondPhase

variable {s t : State} {b : Bool} {c : Commit}

/-- The rollback releases the locks, and removes a file that was created. -/
theorem error_spec (hp : Prepared s t b) :
    (error t).file = (if b then none else t.file) ∧ Refused s (error t) := by
  unfold error
  rw [hp.fd]
  dsimp only
  rw [hp.removalNeeded]
  refine ⟨rfl, ⟨rfl, ?_, ?_⟩, hp.mtime, hp.isMissing⟩
  · simp [hp.mutex]
  · simp [hp.locks]

theorem error_quiet (hq : Quiet s) : error s = s := by
  unfold error
  rw [hq.fd]
  dsimp only
  rw [State.setFd, ← hq.fd]

theorem setSecond_quiet (hp : Prepared s t b) : Quiet (setSecond t c).1 := by
  unfold setSecond elektraSetCommit
  rw [hp.fd]
  refine ⟨rfl, ?_, ?_⟩
  · simp [State.setFd, hp.mutex]
  · cases hc : c.tempOpens <;> simp [State.setFd, hp.locks]

/-- What the commit leaves under the name of the file, for a file `g` that is open: the handle
describes it, and after a failure it is as before the cycle. -/
theorem setSecond_iff {g : File} (hp : Prepared s t b) (hg : t.file = some g) :
    (Describes (setSecond t c).1 ∧
      ((setSecond t c).2 = -1 → (setSecond t c).1.content = s.content)) ↔
    if c.renames then c.tempOpens = true ∨ (some c.content = s.content ∧ s.pk.mtime = c.mtime)
    else some g.content = s.content := by
  unfold setSecond elektraSetCommit commitFile Describes State.content
  rw [hp.fd]
  cases hr : c.renames with
  | true =>
    cases ht : c.tempOpens with
    | true => simp [State.setFd]
    | false => simp [State.setFd, hp.mtime, and_comm]
  | false =>
    cases ht : c.tempOpens with
    | true => simp [State.setFd, hg]
    | false => simp [State.setFd, hg]

end SecondPhase

/-! ## Cycles -/

section Cycles

variable {s : State}

theorem describes_refused {s' : State} (hd : Describes s) (hr : Refused s s') (hf : s'.file = s.file) :
    Describes s' ∧ s'.content = s.content := by
  refine ⟨?_, by rw [State.content, hf, State.content]⟩
  unfold Describes at hd ⊢
  rw [hf, hr.isMissing, hr.mtime]
  exact hd

theorem not_describes_created {s' : State} {f : File} (hd : Describes s) (hr : Refused s s')
    (hs : s.file = none) (hf : s'.file = some f) : ¬ Describes s' := by
  unfold Describes at hd ⊢
  rw [hs] at hd
  rw [hf]
  intro h
  have h1 := hr.isMissing.symm.trans h.1
  rw [hd.1] at h1
  cases h1

theorem restored_iff {c : Cycle} {u : State} {o : Outcome} (h : cycle s c = (u, o)) (hq : Quiet u)
    (hn : ∀ e, o = .prepareFailed e → e.onFile = false) :
    Restored s c ↔ Describes u ∧ (o ≠ .done → u.content = s.content) := by
  constructor
  · intro hr
    have h1 := hr.describes
    have h2 := hr.unchanged
    rw [h] at h1 h2
    exact ⟨h1, h2⟩
  · rintro ⟨h1, h2⟩
    refine ⟨?_, ?_, ?_, ?_⟩ <;> rw [h]
    · exact hq
    · exact h1
    · exact h2
    · exact hn

theorem get_restored (hq : Quiet s) : Restored s .get := by
  have hquiet : Quiet (get s).1 ∧ Describes (get s).1 := by
    unfold get Describes
    cases hf : s.file with
    | none => exact ⟨⟨hq.fd, hq.mutex, hq.locks⟩, by simp⟩
    | some f =>
      dsimp only
      split_ifs with ht
      · exact ⟨⟨hq.fd, hq.mutex, hq.locks⟩, by simp [ht]⟩
      · exact ⟨⟨hq.fd, hq.mutex, hq.locks⟩, by simp⟩
  exact ⟨hquiet.1, hquiet.2, fun h => absurd rfl h, nofun⟩

theorem other_restored (hq : Quiet s) (hd : Describes s) : Restored s .other := by
  have he : cycle s .other = (s, .rolledBack) := by
    unfold cycle
    rw [error_quiet hq]
  exact (restored_iff he hq nofun).2 ⟨hd, fun _ => rfl⟩

/-- A set for which no key is left removes the file when it is committed. -/
theorem remove_restored (hq : Quiet s) (hd : Describes s) (p : Prepare) (after : After) :
    Restored s (.set true p after) ↔ Fits s (.set true p after) := by
  cases after with
  | rolledBack =>
    have he : cycle s (.set true p .rolledBack) = (s, .rolledBack) := by
      unfold cycle setFirst error
      simp only [if_true, State.setFd]
      rw [← hq.fd]
    exact iff_of_true ((restored_iff he hq nofun).2 ⟨hd, fun _ => rfl⟩) trivial
  | committed c =>
    have he : cycle s (.set true p (.committed c)) =
        ((elektraRemoveConfigurationFile (s.setFd .removal)).setFd .none, .done) := rfl
    have hquiet : Quiet ((elektraRemoveConfigurationFile (s.setFd .removal)).setFd .none) :=
      ⟨rfl, hq.mutex, hq.locks⟩
    rw [restored_iff he hquiet nofun]
    have hdone : Describes ((elektraRemoveConfigurationFile (s.setFd .removal)).setFd .none) ↔
        s.pk.isMissing = true ∧ s.pk.mtime = ⟨0, 0⟩ := Iff.rfl
    rw [hdone]
    unfold Describes at hd
    cases hf : s.file with
    | none =>
      rw [hf] at hd
      simp [Fits, hf, hd]
    | some f =>
      rw [hf] at hd
      simp [Fits, hf, hd]

theorem refused_iff {p : Prepare} {after : After} {t : State} {e : PrepareError}
    (hp : elektraSetPrepare s p = (t, some e)) (he : e.onFile = false) (hr : Refused s t) :
    Restored s (.set false p after) ↔ Describes t ∧ t.content = s.content := by
  have hc : cycle s (.set false p after) = (t, .prepareFailed e) := by
    unfold cycle setFirst
    simp only [Bool.false_eq_true, if_false, hp]
    rw [error_quiet hr.quiet]
  rw [restored_iff hc hr.quiet (by rintro _ ⟨⟩; exact he)]
  simp

theorem rolledBack_iff {p : Prepare} {t : State} {b : Bool} (hp : elektraSetPrepare s p = (t, none))
    (hr : Prepared s t b) :
    Restored s (.set false p .rolledBack) ↔ Describes (error t) ∧ (error t).content = s.content := by
  have hc : cycle s (.set false p .rolledBack) = (error t, .rolledBack) := by
    unfold cycle setFirst
    simp only [Bool.false_eq_true, if_false, hp]
  rw [restored_iff hc (error_spec hr).2.quiet nofun]
  simp

theorem committed_iff {p : Prepare} {t : State} {b : Bool} {c : Commit} {g : File}
    (hp : elektraSetPrepare s p = (t, none)) (hr : Prepared s t b) (hg : t.file = some g) :
    Restored s (.set false p (.committed c)) ↔
      if c.renames then c.tempOpens = true ∨ (some c.content = s.content ∧ s.pk.mtime = c.mtime)
      else some g.content = s.content := by
  have hc : cycle s (.set false p (.committed c)) =
      ((setSecond t c).1, if (setSecond t c).2 = -1 then .commitFailed else .done) := by
    unfold cycle setFirst
    simp only [Bool.false_eq_true, if_false, hp]
  rw [restored_iff hc (setSecond_quiet hr) (by intro e h; split_ifs at h), ← setSecond_iff hr hg]
  by_cases h1 : (setSecond t c).2 = -1 <;> simp [h1]

theorem missing_restored (hq : Quiet s) (hd : Describes s) (hf : s.file = none) (p : Prepare)
    (after : After) : Restored s (.set false p after) ↔ Fits s (.set false p after) := by
  have hm : s.pk.isMissing = true := by
    unfold Describes at hd
    rw [hf] at hd
    exact hd.1
  have hcontent : s.content = none := by rw [State.content, hf, Option.map_none]
  have hfits : Fits s (.set false p after) ↔
      (creates s p = true → p.locks = true ∧ ∀ c, after = .committed c → c.Fits none) := by
    unfold Fits
    rw [hf]
  have hprep := @prepare_missing s p hq hf hm
  rw [hfits]
  generalize he : elektraSetPrepare s p = r at hprep
  obtain ⟨t, e⟩ := r
  dsimp only at hprep
  by_cases hc : creates s p = true
  · rw [if_pos hc] at hprep
    obtain ⟨hfile, hl⟩ := hprep
    unfold Locked at hl
    by_cases hlock : p.locks = true
    · rw [if_pos hlock] at hl
      obtain ⟨rfl, hr⟩ := hl
      cases after with
      | rolledBack =>
        have h1 := error_spec hr
        refine iff_of_true ((rolledBack_iff he hr).2 (describes_refused hd h1.2 ?_))
          fun _ => ⟨hlock, nofun⟩
        rw [h1.1, if_pos rfl, hf]
      | committed c =>
        rw [committed_iff he hr hfile, hcontent]
        simp [Commit.Fits, hc, hlock, and_comm]
    · rw [if_neg hlock] at hl
      obtain ⟨⟨e', rfl, he'⟩, hr⟩ := hl
      have h1 := not_describes_created hd hr hf hfile
      refine iff_of_false (fun h => h1 ((refused_iff he he' hr).1 h).1) fun h => hlock (h hc).1
  · rw [if_neg hc] at hprep
    obtain ⟨hfile, ⟨e', rfl, he'⟩, hr⟩ := hprep
    refine iff_of_true ((refused_iff he he' hr).2 (describes_refused hd hr ?_)) fun h => absurd h hc
    rw [hfile, hf]

theorem there_restored (hq : Quiet s) (hd : Describes s) {f : File} (hf : s.file = some f)
    (p : Prepare) (after : After) :
    Restored s (.set false p after) ↔ Fits s (.set false p after) := by
  have hm : s.pk.isMissing = false ∧ s.pk.mtime = f.mtime := by
    unfold Describes at hd
    rw [hf] at hd
    exact hd
  have hcontent : s.content = some f.content := by rw [State.content, hf, Option.map_some]
  have hfits : Fits s (.set false p after) ↔
      (p.openFails = false → p.locks = true → ∀ c, after = .committed c → c.Fits (some f)) := by
    unfold Fits
    rw [hf]
  have hprep := @prepare_there s p f hq hf hm.1 hm.2
  rw [hfits]
  generalize he : elektraSetPrepare s p = r at hprep
  obtain ⟨t, e⟩ := r
  dsimp only at hprep
  obtain ⟨hfile, hl⟩ := hprep
  have hsame : t.file = s.file := hfile.trans hf.symm
  by_cases ho : p.openFails = true
  · rw [if_pos ho] at hl
    obtain ⟨⟨e', rfl, he'⟩, hr⟩ := hl
    refine iff_of_true ((refused_iff he he' hr).2 (describes_refused hd hr hsame)) fun h => ?_
    rw [ho] at h
    cases h
  · rw [if_neg ho] at hl
    unfold Locked at hl
    by_cases hlock : p.locks = true
    · rw [if_pos hlock] at hl
      obtain ⟨rfl, hr⟩ := hl
      cases after with
      | rolledBack =>
        have h1 := error_spec hr
        refine iff_of_true ((rolledBack_iff he hr).2 (describes_refused hd h1.2 ?_)) fun _ _ => nofun
        rw [h1.1]
        exact hsame
      | committed c =>
        rw [committed_iff he hr hfile, hcontent, hm.2]
        have ho' := Bool.eq_false_iff.2 ho
        have hswap : f.mtime = c.mtime ↔ c.mtime = f.mtime := eq_comm
        cases hren : c.renames <;> cases htemp : c.tempOpens <;>
          simp [Commit.Fits, ho', hlock, hren, htemp, hswap]
    · rw [if_neg hlock] at hl
      obtain ⟨⟨e', rfl, he'⟩, hr⟩ := hl
      exact iff_of_true ((refused_iff he he' hr).2 (describes_refused hd hr hsame))
        fun _ h => absurd h hlock

/-- **Which cycles restore everything.** -/
theorem cycle_restored (hq : Quiet s) (hd : Describes s) (c : Cycle) : Restored s c ↔ Fits s c := by
  cases c with
  | get => exact iff_of_true (get_restored hq) trivial
  | other => exact iff_of_true (other_restored hq hd) trivial
  | set empty p after =>
    cases empty with
    | true => exact remove_restored hq hd p after
    | false =>
      cases hf : s.file with
      | none => exact missing_restored hq hd hf p after
      | some f => exact there_restored hq hd hf p after

end Cycles

/-! ## Runs -/

/-- Cycles, one after the other. -/
def run (s : State) (cs : List Cycle) : State := cs.foldl (fun s c => (cycle s c).1) s

/-- Every cycle fits, each in the state that the cycles before it left. -/
def AllFit : State → List Cycle → Prop
  | _, [] => True
  | s, c :: cs => Fits s c ∧ AllFit (cycle s c).1 cs

/-- After the first `kdbGet` of a handle. -/
def start (file : Option File) (dir : Bool) : State :=
  (get { file := file, dir := dir, pk := resolverInit, mutex := 0, locks := 0 }).1

theorem start_describes (file : Option File) (dir : Bool) :
    Quiet (start file dir) ∧ Describes (start file dir) := by
  have h := get_restored (s := { file := file, dir := dir, pk := resolverInit, mutex := 0, locks := 0 })
    ⟨rfl, rfl, rfl⟩
  exact ⟨h.quiet, h.describes⟩

theorem run_describes : ∀ (cs : List Cycle) {s : State}, Quiet s → Describes s → AllFit s cs →
    Quiet (run s cs) ∧ Describes (run s cs)
  | [], _, hq, hd, _ => ⟨hq, hd⟩
  | c :: cs, s, hq, hd, hf => by
    have h := (cycle_restored hq hd c).2 hf.1
    exact run_describes cs h.quiet h.describes hf.2

/-- **Cycles of a single process.** After any cycles that fit, the next one leaves no descriptor and no
lock, a handle that describes the file, and after a failure the file as it was, and it finds no
conflict on the file, exactly if it fits as well. -/
theorem cycles_restored {file : Option File} {dir : Bool} {cs : List Cycle}
    (h : AllFit (start file dir) cs) (c : Cycle) :
    Restored (run (start file dir) cs) c ↔ Fits (run (start file dir) cs) c := by
  have hs := start_describes file dir
  have hr := run_describes cs hs.1 hs.2 h
  exact cycle_restored hr.1 hr.2 c

/-- A set without failures. -/
def plainSet (content : List UInt8) (mtime : Timespec) : Cycle :=
  .set false { now := mtime } (.committed { content := content, mtime := mtime, clock := ⟨0, 0⟩ })

/-- A set for which no key is left. -/
def emptySet : Cycle :=
  .set true { now := ⟨0, 0⟩ } (.committed { content := [], mtime := ⟨0, 0⟩, clock := ⟨0, 0⟩ })

theorem cycles_restored_write :
    Restored (run (start none true) [plainSet [97] ⟨7, 0⟩, .get]) (plainSet [98] ⟨8, 0⟩) := by
  have hfit : AllFit (start none true) [plainSet [97] ⟨7, 0⟩, .get] := by
    refine ⟨fun _ => ⟨rfl, ?_⟩, trivial, trivial⟩
    rintro _ ⟨⟩
    exact ⟨rfl, rfl⟩
  refine (cycles_restored hfit _).2 fun _ _ => ?_
  rintro _ ⟨⟩
  exact Or.inr (Or.inl rfl)

/-- The removal of the file leaves a handle that believes it is there: the next set reports a
conflict. -/
theorem not_cycles_restored :
    ¬ Restored (start (some ⟨[97], ⟨7, 0⟩⟩) true) emptySet ∧
      (cycle (run (start (some ⟨[97], ⟨7, 0⟩⟩) true) [emptySet]) (plainSet [98] ⟨8, 0⟩)).2 =
        .prepareFailed .nowMissing :=
  ⟨fun h => absurd h.describes.1 (by decide), by decide⟩

end Elektra.Resolver
