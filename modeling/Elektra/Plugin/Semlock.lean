import Mathlib.Data.Nat.Notation
import Elektra.Sync.Lightswitch

/-!
# The semlock plugin

Any number of processes `P` open the plugin, read and write between the two calls of a get and of a
set, and close it, one operation on a semaphore at a time. Readers and writers are groups that share a
lock each: the readers `access`, and the writers `tryRead`.

* `Name`, `Instr`, `Call.program`: the semaphores, and the calls as lists of operations;
* `Handle`, `State`, `step`, `run`, `Along`;
* `Safe`: nobody else reads or writes while a process writes;
* `Fits`: a name is not unlinked while a process has the semaphore open;
* `Inv`: what every step that fits keeps; **`run_safe`**.
-/

namespace Elektra.Semlock

open Lightswitch

/-! ## Operations -/

/-- The names of the semaphores. -/
inductive Name
  | readCount
  | writeCount
  | read
  | write
  | tryRead
  | access
  /-- `SEM_MUTEX` -/
  | mutex
  deriving DecidableEq

/-- `openCount` and `openMutex` -/
def Name.initial : Name → ℕ
  | .readCount | .writeCount => 0
  | _ => 1

inductive Instr
  | open (n : Name)
  | wait (n : Name)
  | post (n : Name)
  | getvalue (n : Name)
  /-- `if (count == v) sem_wait` -/
  | waitIf (v : ℕ) (n : Name)
  /-- `if (count == v) sem_post` -/
  | postIf (v : ℕ) (n : Name)
  | close (n : Name)
  | unlink (n : Name)
  deriving DecidableEq

/-- The calls; a get and a set have one before (`PRE`) and one behind (`POST`). -/
inductive Call
  | open | getPre | getPost | setPre | setPost | close
  deriving DecidableEq

def Call.program : Call → List Instr
  | .open =>
    [.open .mutex, .wait .mutex, .open .tryRead, .open .read, .open .write, .open .access,
      .open .readCount, .open .writeCount, .post .mutex]
  | .getPre =>
    [.wait .tryRead, .wait .read, .post .readCount, .getvalue .readCount, .waitIf 1 .access, .post .read,
      .post .tryRead]
  | .getPost =>
    [.wait .read, .wait .readCount, .getvalue .readCount, .postIf 0 .access, .post .read]
  | .setPre =>
    [.wait .write, .post .writeCount, .getvalue .writeCount, .waitIf 1 .tryRead, .post .write,
      .wait .access]
  | .setPost =>
    [.post .access, .wait .write, .wait .writeCount, .getvalue .writeCount, .postIf 0 .tryRead,
      .post .write]
  | .close =>
    [.close .readCount, .close .writeCount, .close .read, .close .write, .close .tryRead, .close .access,
      .wait .mutex, .unlink .readCount, .unlink .writeCount, .unlink .read, .unlink .write,
      .unlink .tryRead, .unlink .access, .post .mutex, .close .mutex, .unlink .mutex]

/-! ## Processes -/

/-- Where a process is. `data->state` is `POST` in `reading` and `writing`. -/
inductive Pc
  | closed
  | idle
  | reading
  | writing
  /-- the operation `k` of a call is next -/
  | running (call : Call) (k : ℕ)
  deriving DecidableEq

/-- Where a call leads to. -/
def Call.done : Call → Pc
  | .open | .getPost | .setPost => .idle
  | .getPre => .reading
  | .setPre => .writing
  | .close => .closed

/-- Where a process is behind the operation `k`. -/
def Call.after (call : Call) (k : ℕ) : Pc :=
  if k + 1 < call.program.length then .running call (k + 1) else call.done

/-- A call that a process can make. -/
def Pc.mayCall : Pc → Call → Bool
  | .closed, .open | .idle, .getPre | .idle, .setPre | .idle, .close | .reading, .getPost
  | .writing, .setPost => true
  | _, _ => false

/-- A process and its data: which semaphore of a name it has open, and the variable `count`. -/
structure Proc where
  pc : Pc
  handle : Name → Option ℕ
  count : ℕ

/-- The semaphores that were created under a name are numbered; `current` is the one that has the name.
A semaphore without name works on for those that have it open. -/
structure State (P : Type) where
  current : Name → Option ℕ
  next : Name → ℕ
  value : Name → ℕ → ℕ
  proc : P → Proc

variable {P : Type} [DecidableEq P]

namespace State

def setProc (s : State P) (p : P) (q : Proc) : State P :=
  { s with proc := Function.update s.proc p q }

def setValue (s : State P) (n : Name) (o v : ℕ) : State P :=
  { s with value := Function.update s.value n (Function.update (s.value n) o v) }

/-- `sem_open` with `O_CREAT`: a semaphore of the name, or a new one. -/
def openName (s : State P) (n : Name) : ℕ × State P :=
  match s.current n with
  | some o => (o, s)
  | none =>
    (s.next n, { s.setValue n (s.next n) n.initial with
      current := Function.update s.current n (some (s.next n))
      next := Function.update s.next n (s.next n + 1) })

/-- `sem_wait`, which is none where it blocks. -/
def wait (s : State P) (n : Name) (o : ℕ) : Option (State P) :=
  if s.value n o = 0 then none else some (s.setValue n o (s.value n o - 1))

def post (s : State P) (n : Name) (o : ℕ) : State P := s.setValue n o (s.value n o + 1)

/-- An operation of process `p`: its data, and the semaphores. -/
def exec (s : State P) (p : Proc) : Instr → Option (Proc × State P)
  | .open n =>
    let (o, s) := s.openName n
    some ({ p with handle := Function.update p.handle n (some o) }, s)
  | .wait n => (p.handle n).bind fun o => (s.wait n o).map fun s => (p, s)
  | .post n => (p.handle n).map fun o => (p, s.post n o)
  | .getvalue n => (p.handle n).map fun o => ({ p with count := s.value n o }, s)
  | .waitIf v n =>
    if p.count = v then (p.handle n).bind fun o => (s.wait n o).map fun s => (p, s) else some (p, s)
  | .postIf v n =>
    if p.count = v then (p.handle n).map fun o => (p, s.post n o) else some (p, s)
  | .close n => some ({ p with handle := Function.update p.handle n none }, s)
  | .unlink n => some (p, { s with current := Function.update s.current n none })

end State

/-- A process makes a call, or does the next operation of the one it makes. -/
inductive Action
  | call (call : Call)
  | next

def step (s : State P) (p : P) : Action → Option (State P)
  | .call call =>
    if (s.proc p).pc.mayCall call then
      some (s.setProc p { s.proc p with pc := .running call 0 })
    else none
  | .next =>
    match (s.proc p).pc with
    | .running call k =>
      (call.program[k]?).bind fun i =>
        (s.exec (s.proc p) i).map fun r => r.2.setProc p { r.1 with pc := call.after k }
    | _ => none

/-- The steps of the processes, in any order. -/
def run (s : State P) : List (P × Action) → Option (State P)
  | [] => some s
  | (p, a) :: steps => (step s p a).bind fun s => run s steps

/-- `Q` holds of each step. -/
def Along (Q : State P → P → Action → Prop) (s : State P) : List (P × Action) → Prop
  | [] => True
  | (p, a) :: steps => ∀ s', step s p a = some s' → Q s p a ∧ Along Q s' steps

/-- No semaphore exists, and no process has opened the plugin. -/
def start : State P where
  current _ := none
  next _ := 0
  value _ _ := 0
  proc _ := { pc := .closed, handle := fun _ => none, count := 0 }

/-! ## Safety -/

/-- The process is neither in a call nor between two calls of a get or a set. -/
def Pc.outside : Pc → Bool
  | .closed | .idle | .running .open _ | .running .close _ => true
  | _ => false

/-- Those that write are alone, and where nobody reads or writes all semaphores have their initial
values, those of the names and those that somebody has open. -/
structure Safe (s : State P) : Prop where
  alone : ∀ p q, p ≠ q → (s.proc p).pc = .writing →
    (s.proc q).pc ≠ .writing ∧ (s.proc q).pc ≠ .reading
  calm : (∀ p, (s.proc p).pc.outside = true) → ∀ n, n ≠ .mutex → ∀ o,
    (s.current n = some o ∨ ∃ p, (s.proc p).handle n = some o) → s.value n o = n.initial

/-- The next operation of the process. -/
def State.instr (s : State P) (p : P) : Option Instr :=
  match (s.proc p).pc with
  | .running call k => call.program[k]?
  | _ => none

/-- A name is unlinked only when no process has the semaphore open. -/
def Fits (s : State P) (p : P) : Action → Prop
  | .call _ => True
  | .next => ∀ n, n ≠ .mutex → s.instr p = some (.unlink n) → ∀ q, (s.proc q).handle n = none

/-! ## The two locks -/

/-- The readers share `access`, which one of the writers takes alone; the writers share `tryRead`, which
one of the readers takes alone. -/
inductive Side
  | readers | writers
  deriving DecidableEq

/-- The semaphores of a side. -/
inductive Role
  | mutex | count | lock
  deriving DecidableEq

def Side.name : Side → Role → Name
  | .readers, .mutex => .read
  | .readers, .count => .readCount
  | .readers, .lock => .access
  | .writers, .mutex => .write
  | .writers, .count => .writeCount
  | .writers, .lock => .tryRead

/-- The phase of a process among those of the side. -/
def Pc.phase : Pc → Side → Phase
  | .reading, .readers => .inside
  | .running .getPre 2, .readers => .enter
  | .running .getPre 3, .readers => .raised
  | .running .getPre 4, .readers => .measured
  | .running .getPre 5, .readers => .opened
  | .running .getPre 6, .readers => .inside
  | .running .getPost 0, .readers => .inside
  | .running .getPost 1, .readers => .leave
  | .running .getPost 2, .readers => .lowered
  | .running .getPost 3, .readers => .checked
  | .running .getPost 4, .readers => .done
  | .writing, .writers => .inside
  | .running .setPre 1, .writers => .enter
  | .running .setPre 2, .writers => .raised
  | .running .setPre 3, .writers => .measured
  | .running .setPre 4, .writers => .opened
  | .running .setPre 5, .writers => .inside
  | .running .setPost 0, .writers => .inside
  | .running .setPost 1, .writers => .inside
  | .running .setPost 2, .writers => .leave
  | .running .setPost 3, .writers => .lowered
  | .running .setPost 4, .writers => .checked
  | .running .setPost 5, .writers => .done
  | _, _ => .out

/-- The process has the lock of the side alone. -/
def Pc.alone : Pc → Side → Bool
  | .writing, .readers | .running .setPost 0, .readers => true
  | .running .getPre k, .writers => 0 < k
  | _, _ => false

/-- A process on the way has all semaphores open, one that opens the plugin those before. -/
def Pc.has : Pc → Name → Bool
  | .closed, _ | .running .close _, _ | _, .mutex => false
  | .running .open k, .tryRead => 2 < k
  | .running .open k, .read => 3 < k
  | .running .open k, .write => 4 < k
  | .running .open k, .access => 5 < k
  | .running .open k, .readCount => 6 < k
  | .running .open k, .writeCount => 7 < k
  | _, _ => true

/-- The operation at a phase. -/
def Side.instr (side : Side) : Phase → Instr
  | .out | .inside => .wait (side.name .mutex)
  | .enter => .post (side.name .count)
  | .raised | .lowered => .getvalue (side.name .count)
  | .measured => .waitIf 1 (side.name .lock)
  | .opened | .done => .post (side.name .mutex)
  | .leave => .wait (side.name .count)
  | .checked => .postIf 0 (side.name .lock)

/-- The value of a semaphore. -/
def Role.value (sw : Switch P) (alone : Option P) : Role → ℕ
  | .mutex => if sw.holder = none then 1 else 0
  | .count => sw.members.card
  | .lock => if sw.held = false ∧ alone = none then 1 else 0

structure Side.Values (side : Side) (s : State P) (sw : Switch P) (alone : Option P) : Prop where
  value : ∀ r o, s.current (side.name r) = some o → s.value (side.name r) o = r.value sw alone

structure Side.Inv (side : Side) (s : State P) (sw : Switch P) (alone : Option P) : Prop
    extends side.Values s sw alone where
  switch : sw.Inv fun p => (s.proc p).pc.phase side
  owner : ∀ p, alone = some p ↔ (s.proc p).pc.alone side = true
  excl : sw.held = true → alone = none
  count : ∀ p, (s.proc p).pc.phase side = .measured ∨ (s.proc p).pc.phase side = .checked →
    (s.proc p).count = sw.members.card

structure Inv (s : State P) : Prop where
  handle : ∀ p n o, n ≠ .mutex → (s.proc p).handle n = some o → s.current n = some o
  has : ∀ p n, (s.proc p).pc.has n = true → ∃ o, (s.proc p).handle n = some o
  side : ∀ side : Side, ∃ sw alone, side.Inv s sw alone

section Inv

omit [DecidableEq P]

variable {s : State P} {side : Side} {sw sw' : Switch P} {alone alone' : Option P}

/-! ### Operations on open semaphores -/

theorem ne_mutex (side : Side) (r : Role) : side.name r ≠ .mutex := by
  cases side <;> cases r <;> decide

theorem name_injective (side : Side) : Function.Injective side.name := by
  intro r r' h
  cases side <;> cases r <;> cases r' <;> first | rfl | cases h

theorem exists_name {n : Name} (h : n ≠ .mutex) : ∃ (side : Side) (r : Role), n = side.name r := by
  cases n with
  | mutex => exact absurd rfl h
  | readCount => exact ⟨.readers, .count, rfl⟩
  | read => exact ⟨.readers, .mutex, rfl⟩
  | access => exact ⟨.readers, .lock, rfl⟩
  | writeCount => exact ⟨.writers, .count, rfl⟩
  | write => exact ⟨.writers, .mutex, rfl⟩
  | tryRead => exact ⟨.writers, .lock, rfl⟩

theorem initial_eq (side : Side) (r : Role) :
    (side.name r).initial = r.value (⟨none, ∅, false⟩ : Switch P) none := by
  cases side <;> cases r <;> simp [Side.name, Name.initial, Role.value]

theorem wait_eq {n : Name} {o : ℕ} {s' : State P} (h : s.wait n o = some s') :
    s.value n o ≠ 0 ∧ s' = s.setValue n o (s.value n o - 1) := by
  unfold State.wait at h
  split at h
  · cases h
  · exact ⟨‹_›, (Option.some.inj h).symm⟩

theorem Side.Values.setValue (h : side.Values s sw alone) {r : Role} {o v : ℕ}
    (ho : s.current (side.name r) = some o) (hv : v = r.value sw' alone')
    (hr : ∀ r', r' ≠ r → r'.value sw alone = r'.value sw' alone') :
    side.Values (s.setValue (side.name r) o v) sw' alone' := by
  refine ⟨fun r' o' ho' => ?_⟩
  change s.current (side.name r') = some o' at ho'
  unfold State.setValue
  by_cases hrr : r' = r
  · subst hrr
    cases ho.symm.trans ho'
    rw [← hv]
    dsimp only
    rw [Function.update_self, Function.update_self]
  · dsimp only
    rw [Function.update_of_ne fun e => hrr (name_injective side e), h.value r' o' ho', hr r' hrr]

theorem exec_wait {q q' : Proc} {n : Name} {o : ℕ} {s' : State P} (hq : q.handle n = some o)
    (h : s.exec q (.wait n) = some (q', s')) :
    s.value n o ≠ 0 ∧ q' = q ∧ s' = s.setValue n o (s.value n o - 1) := by
  simp only [State.exec, hq, Option.bind_some, Option.map_eq_some_iff] at h
  obtain ⟨s₁, hw, he⟩ := h
  cases he
  exact ⟨(wait_eq hw).1, rfl, (wait_eq hw).2⟩

theorem exec_post {q q' : Proc} {n : Name} {o : ℕ} {s' : State P} (hq : q.handle n = some o)
    (h : s.exec q (.post n) = some (q', s')) : q' = q ∧ s' = s.setValue n o (s.value n o + 1) := by
  simp only [State.exec, hq, Option.map_some] at h
  cases h
  exact ⟨rfl, rfl⟩

theorem exec_getvalue {q q' : Proc} {n : Name} {o : ℕ} {s' : State P} (hq : q.handle n = some o)
    (h : s.exec q (.getvalue n) = some (q', s')) : q' = { q with count := s.value n o } ∧ s' = s := by
  simp only [State.exec, hq, Option.map_some] at h
  cases h
  exact ⟨rfl, rfl⟩

theorem exec_waitIf (q : Proc) (v : ℕ) (n : Name) :
    s.exec q (.waitIf v n) = if q.count = v then s.exec q (.wait n) else some (q, s) := rfl

theorem exec_postIf (q : Proc) (v : ℕ) (n : Name) :
    s.exec q (.postIf v n) = if q.count = v then s.exec q (.post n) else some (q, s) := rfl

end Inv

/-! ### The semaphores of a side -/

/-- The process has the semaphore of the name open. -/
def Opened (s : State P) (q : Proc) (n : Name) : Prop :=
  ∃ o, q.handle n = some o ∧ s.current n = some o

section Values

variable {s s' : State P} {side : Side} {sw : Switch P} {alone : Option P} {q q' : Proc}

omit [DecidableEq P] in
theorem Side.Values.takeMutex (h : side.Values s sw alone) (ho : Opened s q (side.name .mutex))
    (he : s.exec q (.wait (side.name .mutex)) = some (q', s')) (p : P) :
    sw.holder = none ∧ side.Values s' { sw with holder := some p } alone := by
  obtain ⟨o, hq, hc⟩ := ho
  obtain ⟨hne, -, rfl⟩ := exec_wait hq he
  have hv := h.value .mutex o hc
  rw [Role.value] at hv
  split_ifs at hv with hnone
  · refine ⟨hnone, h.setValue hc (by rw [hv]; rfl) fun r hr => ?_⟩
    cases r with
    | mutex => exact absurd rfl hr
    | count => rfl
    | lock => rfl
  · exact absurd hv hne

omit [DecidableEq P] in
theorem Side.Values.giveMutex (h : side.Values s sw alone) (ho : Opened s q (side.name .mutex))
    (he : s.exec q (.post (side.name .mutex)) = some (q', s')) (hsome : sw.holder ≠ none) :
    side.Values s' { sw with holder := none } alone := by
  obtain ⟨o, hq, hc⟩ := ho
  obtain ⟨-, rfl⟩ := exec_post hq he
  have hv := h.value .mutex o hc
  rw [Role.value, if_neg hsome] at hv
  refine h.setValue hc (by rw [hv]; rfl) fun r hr => ?_
  cases r with
  | mutex => exact absurd rfl hr
  | count => rfl
  | lock => rfl

omit [DecidableEq P] in
theorem Side.Values.setCount (h : side.Values s sw alone) {o : ℕ}
    (hc : s.current (side.name .count) = some o) (members : Finset P) :
    side.Values (s.setValue (side.name .count) o members.card) { sw with members := members } alone := by
  refine h.setValue hc rfl fun r hr => ?_
  cases r with
  | mutex => rfl
  | count => exact absurd rfl hr
  | lock => rfl

theorem Side.Values.raise (h : side.Values s sw alone) (ho : Opened s q (side.name .count))
    (he : s.exec q (.post (side.name .count)) = some (q', s')) {p : P} (hp : p ∉ sw.members) :
    side.Values s' { sw with members := insert p sw.members } alone := by
  obtain ⟨o, hq, hc⟩ := ho
  obtain ⟨-, rfl⟩ := exec_post hq he
  have hv : s.value (side.name .count) o = sw.members.card := h.value .count o hc
  rw [hv, ← Finset.card_insert_of_notMem hp]
  exact h.setCount hc _

theorem Side.Values.lower (h : side.Values s sw alone) (ho : Opened s q (side.name .count))
    (he : s.exec q (.wait (side.name .count)) = some (q', s')) {p : P} (hp : p ∈ sw.members) :
    side.Values s' { sw with members := sw.members.erase p } alone := by
  obtain ⟨o, hq, hc⟩ := ho
  obtain ⟨-, -, rfl⟩ := exec_wait hq he
  have hv : s.value (side.name .count) o = sw.members.card := h.value .count o hc
  rw [hv, ← Finset.card_erase_of_mem hp]
  exact h.setCount hc _

omit [DecidableEq P] in
theorem Side.Values.takeLock (h : side.Values s sw alone) (ho : Opened s q (side.name .lock))
    (he : s.exec q (.wait (side.name .lock)) = some (q', s')) {held : Bool} {alone' : Option P}
    (hheld : held = true ∨ alone' ≠ none) :
    sw.held = false ∧ alone = none ∧ side.Values s' { sw with held := held } alone' := by
  obtain ⟨o, hq, hc⟩ := ho
  obtain ⟨hne, -, rfl⟩ := exec_wait hq he
  have hv := h.value .lock o hc
  rw [Role.value] at hv
  split_ifs at hv with hfree
  · have hnew : Role.lock.value { sw with held := held } alone' = 0 := by
      refine if_neg ?_
      rintro ⟨h₁, h₂⟩
      cases hheld with
      | inl ht => rw [ht] at h₁; cases h₁
      | inr hn => exact hn h₂
    refine ⟨hfree.1, hfree.2, h.setValue hc (by rw [hv, hnew]) fun r hr => ?_⟩
    cases r with
    | mutex => rfl
    | count => rfl
    | lock => exact absurd rfl hr
  · exact absurd hv hne

omit [DecidableEq P] in
theorem Side.Values.giveLock (h : side.Values s sw alone) (ho : Opened s q (side.name .lock))
    (he : s.exec q (.post (side.name .lock)) = some (q', s')) (hheld : sw.held = true ∨ alone ≠ none) :
    side.Values s' { sw with held := false } none := by
  obtain ⟨o, hq, hc⟩ := ho
  obtain ⟨-, rfl⟩ := exec_post hq he
  have hv : s.value (side.name .lock) o = 0 := by
    rw [h.value .lock o hc]
    refine if_neg ?_
    rintro ⟨h₁, h₂⟩
    cases hheld with
    | inl ht => rw [ht] at h₁; cases h₁
    | inr hn => exact hn h₂
  refine h.setValue hc (by rw [hv]; rfl) fun r hr => ?_
  cases r with
  | mutex => rfl
  | count => rfl
  | lock => exact absurd rfl hr

end Values

/-! ### On the way -/

section Moves

variable {s s' : State P} {side : Side} {sw : Switch P} {alone : Option P} {p : P} {q : Proc}

theorem exec_phase (h : side.Inv s sw alone) (hopen : ∀ r, Opened s (s.proc p) (side.name r))
    (he : s.exec (s.proc p) (side.instr ((s.proc p).pc.phase side)) = some (q, s')) :
    (((s.proc p).pc.phase side).mutex = false → sw.holder = none) ∧
      side.Values s' (sw.move p ((s.proc p).pc.phase side)) alone ∧
      ((sw.move p ((s.proc p).pc.phase side)).held = true → alone = none) := by
  have hholder := h.switch.holder p
  have hmem := h.switch.members p
  have hexp := h.switch.expects p
  have hfirst := h.switch.first (p := p)
  have hcount := h.count p
  have hexcl := h.excl
  generalize (s.proc p).pc.phase side = ph at *
  have hsome : ph.mutex = true → sw.holder ≠ none := fun hm => by
    rw [hholder.mpr hm]
    exact Option.some_ne_none p
  have hlocked : true = false → sw.holder = none := fun hm => (by cases hm)
  cases ph with
  | out =>
    obtain ⟨hnone, hv⟩ := h.takeMutex (hopen .mutex) he p
    exact ⟨fun _ => hnone, hv, hexcl⟩
  | enter =>
    exact ⟨hlocked, h.raise (hopen .count) he fun hp => Bool.false_ne_true (hmem.mp hp), hexcl⟩
  | raised =>
    obtain ⟨o, hq, -⟩ := hopen .count
    rw [(exec_getvalue hq he).2]
    exact ⟨hlocked, h.toValues, hexcl⟩
  | measured =>
    rw [Side.instr, exec_waitIf, hcount (.inl rfl)] at he
    split_ifs at he with hone
    · obtain ⟨-, hnone, hv⟩ := h.takeLock (hopen .lock) he (.inl rfl)
      exact ⟨hlocked, hv, fun _ => hnone⟩
    · -- not the first: the group has the lock
      have hheld : sw.held = true := (hfirst rfl).mpr hone
      cases he
      refine ⟨hlocked, ?_, fun _ => hexcl hheld⟩
      rw [Switch.move, ← hheld]
      exact h.toValues
  | opened => exact ⟨hlocked, h.giveMutex (hopen .mutex) he (hsome rfl), hexcl⟩
  | inside =>
    obtain ⟨hnone, hv⟩ := h.takeMutex (hopen .mutex) he p
    exact ⟨fun _ => hnone, hv, hexcl⟩
  | leave => exact ⟨hlocked, h.lower (hopen .count) he (hmem.mpr rfl), hexcl⟩
  | lowered =>
    obtain ⟨o, hq, -⟩ := hopen .count
    rw [(exec_getvalue hq he).2]
    exact ⟨hlocked, h.toValues, hexcl⟩
  | checked =>
    have hheld : sw.held = true := hexp
    rw [Side.instr, exec_postIf, hcount (.inr rfl)] at he
    split_ifs at he with hzero
    · have hempty : ¬sw.members.Nonempty := by
        rw [Finset.card_eq_zero.mp hzero]
        exact Finset.not_nonempty_empty
      have hv := h.giveLock (hopen .lock) he (.inl hheld)
      rw [Switch.move, decide_eq_false hempty, hexcl hheld]
      exact ⟨hlocked, hv, fun hm => (by cases hm)⟩
    · -- not the last: the group keeps the lock
      have hne : sw.members.Nonempty := Finset.card_ne_zero.mp hzero
      cases he
      refine ⟨hlocked, ?_, fun _ => hexcl hheld⟩
      rw [Switch.move, decide_eq_true hne, ← hheld]
      exact h.toValues
  | done => exact ⟨hlocked, h.giveMutex (hopen .mutex) he (hsome rfl), hexcl⟩

end Moves

/-! ### Positions -/

/-- The semaphore of an operation. -/
def Instr.name : Instr → Name
  | .open n | .wait n | .post n | .getvalue n | .waitIf _ n | .postIf _ n | .close n | .unlink n => n

/-- The operation is for processes that have the semaphore open. -/
def Instr.inner : Instr → Bool
  | .open _ | .close _ | .unlink _ => false
  | _ => true

/-- What the operation at a position does on the side: it goes on with the way, it takes the lock alone
or gives it back, or it is no operation on its semaphores. -/
def Side.Effect (side : Side) (pc pc' : Pc) (i : Instr) : Prop :=
  (i = side.instr (pc.phase side) ∧ pc'.phase side = (pc.phase side).next ∧
      pc'.alone side = pc.alone side) ∨
    pc'.phase side = pc.phase side ∧ pc.phase side ≠ .measured ∧ pc.phase side ≠ .checked ∧
      ((i = .wait (side.name .lock) ∧ pc.alone side = false ∧ pc'.alone side = true) ∨
        (i = .post (side.name .lock) ∧ pc.alone side = true ∧ pc'.alone side = false) ∨
        (pc'.alone side = pc.alone side ∧
          (i.inner = true → i.name ≠ side.name .mutex ∧ i.name ≠ side.name .count ∧
            i.name ≠ side.name .lock)))

instance (side : Side) (pc pc' : Pc) (i : Instr) : Decidable (side.Effect pc pc' i) :=
  inferInstanceAs (Decidable (_ ∨ _))

theorem effect (side : Side) (call : Call) :
    ∀ k (h : k < call.program.length), side.Effect (.running call k) (call.after k) (call.program.get ⟨k, h⟩) := by
  cases side <;> cases call <;> decide

theorem has_of_inner (call : Call) {n : Name} (hn : n ≠ .mutex) :
    ∀ k (h : k < call.program.length), (call.program.get ⟨k, h⟩).inner = true →
      (call.program.get ⟨k, h⟩).name ≠ .mutex → (Pc.running call k).has n = true := by
  revert hn
  cases n <;> cases call <;> decide

theorem has_after (call : Call) (n : Name) :
    ∀ k (h : k < call.program.length), (call.after k).has n = true →
      ((Pc.running call k).has n = true ∨ call.program.get ⟨k, h⟩ = .open n) ∧
        call.program.get ⟨k, h⟩ ≠ .close n := by
  cases n <;> cases call <;> decide

theorem out_of_has {pc : Pc} {side : Side} {r : Role} (h : pc.has (side.name r) = false) :
    pc.phase side = .out ∧ pc.alone side = false := by
  cases pc with
  | closed => cases side <;> exact ⟨rfl, rfl⟩
  | idle => cases side <;> exact ⟨rfl, rfl⟩
  | reading => cases side <;> cases r <;> cases h
  | writing => cases side <;> cases r <;> cases h
  | running call k =>
    cases call with
    | «open» => cases side <;> exact ⟨rfl, rfl⟩
    | close => cases side <;> exact ⟨rfl, rfl⟩
    | _ => cases side <;> cases r <;> cases h

theorem call_start {pc : Pc} {call : Call} (h : pc.mayCall call = true) :
    (∀ side, (Pc.running call 0).phase side = pc.phase side ∧
      (Pc.running call 0).alone side = pc.alone side) ∧
      ∀ n, (Pc.running call 0).has n = true → pc.has n = true := by
  unfold Pc.mayCall at h
  split at h
  case h_7 => cases h
  all_goals exact ⟨fun side => by cases side <;> exact ⟨rfl, rfl⟩, fun n => by cases n <;> decide⟩

/-! ### Steps -/

section Steps

variable {s s' : State P} {side : Side} {sw : Switch P} {alone : Option P} {p : P} {q q' : Proc}
  {i : Instr}

omit [DecidableEq P] in
theorem exec_cases (h : s.exec q i = some (q', s')) :
    (∃ n, i = .open n ∧ q' = { q with handle := Function.update q.handle n (some (s.openName n).1) } ∧
      s' = (s.openName n).2) ∨
    (∃ n, i = .close n ∧ q' = { q with handle := Function.update q.handle n none } ∧ s' = s) ∨
    (∃ n, i = .unlink n ∧ q' = q ∧ s' = { s with current := Function.update s.current n none }) ∨
    (i.inner = true ∧ q'.handle = q.handle ∧ (s' = s ∨ ∃ o v, s' = s.setValue i.name o v)) := by
  have hwait : ∀ n, s.exec q (.wait n) = some (q', s') →
      q'.handle = q.handle ∧ (s' = s ∨ ∃ o v, s' = s.setValue n o v) := by
    intro n he
    cases hq : q.handle n with
    | none => rw [State.exec, hq] at he; cases he
    | some o =>
      obtain ⟨-, rfl, rfl⟩ := exec_wait hq he
      exact ⟨rfl, .inr ⟨o, _, rfl⟩⟩
  have hpost : ∀ n, s.exec q (.post n) = some (q', s') →
      q'.handle = q.handle ∧ (s' = s ∨ ∃ o v, s' = s.setValue n o v) := by
    intro n he
    cases hq : q.handle n with
    | none => rw [State.exec, hq] at he; cases he
    | some o =>
      obtain ⟨rfl, rfl⟩ := exec_post hq he
      exact ⟨rfl, .inr ⟨o, _, rfl⟩⟩
  cases i with
  | «open» n => cases h; exact .inl ⟨n, rfl, rfl, rfl⟩
  | close n => cases h; exact .inr (.inl ⟨n, rfl, rfl, rfl⟩)
  | unlink n => cases h; exact .inr (.inr (.inl ⟨n, rfl, rfl, rfl⟩))
  | wait n => exact .inr (.inr (.inr ⟨rfl, hwait n h⟩))
  | post n => exact .inr (.inr (.inr ⟨rfl, hpost n h⟩))
  | getvalue n =>
    refine .inr (.inr (.inr ⟨rfl, ?_⟩))
    cases hq : q.handle n with
    | none => rw [State.exec, hq] at h; cases h
    | some o =>
      obtain ⟨rfl, rfl⟩ := exec_getvalue hq h
      exact ⟨rfl, .inl rfl⟩
  | waitIf v n =>
    refine .inr (.inr (.inr ⟨rfl, ?_⟩))
    rw [exec_waitIf] at h
    split_ifs at h
    · exact hwait n h
    · cases h; exact ⟨rfl, .inl rfl⟩
  | postIf v n =>
    refine .inr (.inr (.inr ⟨rfl, ?_⟩))
    rw [exec_postIf] at h
    split_ifs at h
    · exact hpost n h
    · cases h; exact ⟨rfl, .inl rfl⟩

omit [DecidableEq P] in
theorem openName_cases (s : State P) (n : Name) :
    (s.current n = some (s.openName n).1 ∧ (s.openName n).2 = s) ∨
      (s.current n = none ∧ (s.openName n).1 = s.next n ∧
        (s.openName n).2 = { s.setValue n (s.next n) n.initial with
          current := Function.update s.current n (some (s.next n))
          next := Function.update s.next n (s.next n + 1) }) := by
  cases hc : s.current n with
  | some o => exact .inl (by simp [State.openName, hc])
  | none => exact .inr (by simp [State.openName, hc])

omit [DecidableEq P] in
theorem exec_proc (h : s.exec q i = some (q', s')) : s'.proc = s.proc := by
  obtain ⟨n, -, -, rfl⟩ | ⟨n, -, -, rfl⟩ | ⟨n, -, -, rfl⟩ | ⟨-, -, rfl | ⟨o, v, rfl⟩⟩ := exec_cases h
  · obtain ⟨-, he⟩ | ⟨-, -, he⟩ := openName_cases s n
    · rw [he]
    · rw [he]; rfl
  all_goals rfl

omit [DecidableEq P] in
theorem exec_handle (h : s.exec q i = some (q', s')) {n : Name} (ho : i ≠ .open n) (hc : i ≠ .close n) :
    q'.handle n = q.handle n := by
  obtain ⟨m, rfl, rfl, -⟩ | ⟨m, rfl, rfl, -⟩ | ⟨m, -, rfl, -⟩ | ⟨-, he, -⟩ := exec_cases h
  · exact Function.update_of_ne (fun e : n = m => ho (by rw [e])) _ _
  · exact Function.update_of_ne (fun e : n = m => hc (by rw [e])) _ _
  · rfl
  · rw [he]

omit [DecidableEq P] in
theorem exec_current (h : s.exec q i = some (q', s')) {n : Name} (ho : i ≠ .open n)
    (hu : i ≠ .unlink n) : s'.current n = s.current n := by
  obtain ⟨m, rfl, -, rfl⟩ | ⟨m, -, -, rfl⟩ | ⟨m, rfl, -, rfl⟩ | ⟨-, -, rfl | ⟨o, v, rfl⟩⟩ := exec_cases h
  · obtain ⟨-, he⟩ | ⟨-, -, he⟩ := openName_cases s m
    · rw [he]
    · rw [he]
      exact Function.update_of_ne (fun e : n = m => ho (by rw [e])) _ _
  · rfl
  · exact Function.update_of_ne (fun e : n = m => hu (by rw [e])) _ _
  · rfl
  · rfl

omit [DecidableEq P] in
theorem exec_value (h : s.exec q i = some (q', s')) {n : Name} (hn : i.inner = true → i.name ≠ n)
    (ho : i ≠ .open n) : s'.value n = s.value n := by
  obtain ⟨m, rfl, -, rfl⟩ | ⟨m, -, -, rfl⟩ | ⟨m, -, -, rfl⟩ | ⟨hi, -, rfl | ⟨o, v, rfl⟩⟩ := exec_cases h
  · obtain ⟨-, he⟩ | ⟨-, -, he⟩ := openName_cases s m
    · rw [he]
    · rw [he]
      exact Function.update_of_ne (fun e : n = m => ho (by rw [e])) _ _
  · rfl
  · rfl
  · rfl
  · exact Function.update_of_ne (hn hi).symm _ _

omit [DecidableEq P] in
theorem exec_open {n : Name} (h : s.exec q (.open n) = some (q', s')) :
    ∃ o, q'.handle n = some o ∧ s'.current n = some o ∧
      ((s.current n = some o ∧ s'.value n = s.value n) ∨
        s.current n = none ∧ s'.value n o = n.initial) := by
  obtain ⟨m, hm, rfl, rfl⟩ | ⟨m, hm, -⟩ | ⟨m, hm, -⟩ | ⟨hi, -⟩ := exec_cases h
  · cases hm
    refine ⟨_, Function.update_self .., ?_⟩
    obtain ⟨hc, he⟩ | ⟨hc, ho, he⟩ := openName_cases s n
    · rw [he]
      exact ⟨hc, .inl ⟨hc, rfl⟩⟩
    · rw [he, ho]
      exact ⟨Function.update_self .., .inr ⟨hc, by simp [State.setValue]⟩⟩
  · cases hm
  · cases hm
  · cases hi

omit [DecidableEq P] in
/-- The values of a side when no operation is on its open semaphores. -/
theorem Side.Values.rest (h : side.Values s sw alone) (he : s.exec q i = some (q', s'))
    (hi : i.inner = true → ∀ r, i.name ≠ side.name r)
    (hnew : ∀ r, s.current (side.name r) = none → sw = ⟨none, ∅, false⟩ ∧ alone = none) :
    side.Values s' sw alone := by
  refine ⟨fun r o ho => ?_⟩
  by_cases hopen : i = .open (side.name r)
  · subst hopen
    obtain ⟨o', -, hc', ⟨hc, hv⟩ | ⟨hc, hv⟩⟩ := exec_open he
    · cases hc'.symm.trans ho
      rw [hv, h.value r _ hc]
    · cases hc'.symm.trans ho
      obtain ⟨rfl, rfl⟩ := hnew r hc
      rw [hv, initial_eq]
  · rw [exec_value he (fun hin => hi hin r) hopen]
    by_cases hunlink : i = .unlink (side.name r)
    · subst hunlink
      cases he
      cases (Function.update_self ..).symm.trans ho
    · rw [exec_current he hopen hunlink] at ho
      exact h.value r o ho

theorem setProc_proc (s : State P) (p : P) (q : Proc) (r : P) :
    (s.setProc p q).proc r = if r = p then q else s.proc r := by
  exact Function.update_apply ..

theorem step_next (h : step s p .next = some s') :
    ∃ call k, ∃ hk : k < call.program.length, ∃ q s₁, (s.proc p).pc = .running call k ∧
      s.exec (s.proc p) (call.program.get ⟨k, hk⟩) = some (q, s₁) ∧
      s' = s₁.setProc p { q with pc := call.after k } := by
  simp only [step] at h
  split at h
  · rename_i call k hpc
    obtain ⟨i, hi, hmap⟩ := Option.bind_eq_some_iff.mp h
    obtain ⟨hk, rfl⟩ := List.getElem?_eq_some_iff.mp hi
    obtain ⟨⟨q, s₁⟩, he, hs⟩ := Option.map_eq_some_iff.mp hmap
    exact ⟨call, k, hk, q, s₁, hpc, he, hs.symm⟩
  · cases h

theorem Side.Values.inv {sw' : Switch P} {alone' : Option P} (hv : side.Values s' sw' alone')
    (hproc : s'.proc = s.proc)
    (hsw : sw'.Inv (Function.update (fun r => (s.proc r).pc.phase side) p (q.pc.phase side)))
    (howner : ∀ r, alone' = some r ↔ (if r = p then q else s.proc r).pc.alone side = true)
    (hexcl : sw'.held = true → alone' = none)
    (hcount : ∀ r, (if r = p then q else s.proc r).pc.phase side = .measured ∨
      (if r = p then q else s.proc r).pc.phase side = .checked →
        (if r = p then q else s.proc r).count = sw'.members.card) :
    side.Inv (s'.setProc p q) sw' alone' where
  value := hv.value
  switch := by
    convert hsw using 1
    funext r
    rw [setProc_proc, hproc, Function.update_apply]
    split_ifs
    · rfl
    · rfl
  owner r := by
    rw [setProc_proc, hproc]
    exact howner r
  excl := hexcl
  count r := by
    rw [setProc_proc, hproc]
    exact hcount r

theorem Side.Inv.move (h : side.Inv s sw alone) (hopen : ∀ r, Opened s (s.proc p) (side.name r))
    (he : s.exec (s.proc p) (side.instr ((s.proc p).pc.phase side)) = some (q, s')) {pc : Pc}
    (hphase : pc.phase side = ((s.proc p).pc.phase side).next)
    (halone : pc.alone side = (s.proc p).pc.alone side) :
    side.Inv (s'.setProc p { q with pc := pc }) (sw.move p ((s.proc p).pc.phase side)) alone := by
  obtain ⟨hfree, hv, hexcl⟩ := exec_phase h hopen he
  refine hv.inv (exec_proc he) ?_ (fun r => ?_) hexcl fun r => ?_
  · rw [hphase]
    exact h.switch.move hfree
  · rw [h.owner r]
    split_ifs with hr
    · rw [hr, ← halone]
    · rfl
  · split_ifs with hr
    · -- the count was read
      intro hm
      change pc.phase side = _ ∨ pc.phase side = _ at hm
      obtain ⟨o, hq, hc⟩ := hopen .count
      have hval := h.value .count o hc
      rw [hphase] at hm
      cases hph : (s.proc p).pc.phase side <;> rw [hph] at hm he
      case raised | lowered =>
        rw [(exec_getvalue hq he).1]
        exact hval
      all_goals obtain hm | hm := hm <;> cases hm
    · intro hm
      have hmutex := h.switch.others hfree hr
      obtain hm | hm := hm <;> (rw [hm] at hmutex; cases hmutex)

theorem Side.Values.stay {alone' : Option P} (h : side.Inv s sw alone)
    (hv : side.Values s' sw alone') (he : s.exec (s.proc p) i = some (q, s')) {pc : Pc}
    (hphase : pc.phase side = (s.proc p).pc.phase side)
    (hm : (s.proc p).pc.phase side ≠ .measured) (hc : (s.proc p).pc.phase side ≠ .checked)
    (howner : ∀ r, alone' = some r ↔
      (if r = p then { q with pc := pc } else s.proc r).pc.alone side = true)
    (hexcl : sw.held = true → alone' = none) :
    side.Inv (s'.setProc p { q with pc := pc }) sw alone' := by
  refine hv.inv (exec_proc he) ?_ howner hexcl fun r => ?_
  · rw [hphase, Function.update_eq_self]
    exact h.switch
  · split_ifs with hr
    · rw [hphase]
      rintro (hp | hp)
      · exact absurd hp hm
      · exact absurd hp hc
    · exact h.count r

/-! ### Runs -/

omit [DecidableEq P] in
theorem Inv.opened (h : Inv s) {n : Name} (hn : n ≠ .mutex) (hp : (s.proc p).pc.has n = true) :
    Opened s (s.proc p) n := by
  obtain ⟨o, ho⟩ := h.has p n hp
  exact ⟨o, ho, h.handle p n o hn ho⟩

omit [DecidableEq P] in
/-- Where nobody has a semaphore of the side open, nobody is on the way. -/
theorem Inv.off (h : Inv s) (hs : side.Inv s sw alone) {r : Role}
    (hr : s.current (side.name r) = none) : sw = ⟨none, ∅, false⟩ ∧ alone = none := by
  have hout : ∀ p, (s.proc p).pc.phase side = .out ∧ (s.proc p).pc.alone side = false := by
    intro p
    refine out_of_has (r := r) (Bool.eq_false_iff.mpr fun hp => ?_)
    obtain ⟨o, -, ho⟩ := h.opened (ne_mutex side r) hp
    cases hr.symm.trans ho
  refine ⟨hs.switch.out fun p => (hout p).1, Option.eq_none_iff_forall_ne_some.mpr fun p hp => ?_⟩
  have hl := (hs.owner p).mp hp
  rw [(hout p).2] at hl
  cases hl

theorem Inv.side_next (h : Inv s) {call : Call} {k : ℕ} (hk : k < call.program.length)
    (hpc : (s.proc p).pc = .running call k)
    (he : s.exec (s.proc p) (call.program.get ⟨k, hk⟩) = some (q, s')) (side : Side) :
    ∃ sw alone, side.Inv (s'.setProc p { q with pc := call.after k }) sw alone := by
  obtain ⟨sw, alone, hs⟩ := h.side side
  have heff := effect side call k hk
  have hopen : ∀ {n : Name}, (call.program.get ⟨k, hk⟩).inner = true → (call.program.get ⟨k, hk⟩).name = n →
      n ≠ .mutex → ∀ r, Opened s (s.proc p) (side.name r) := by
    rintro n hin rfl hn r
    refine h.opened (ne_mutex side r) ?_
    rw [hpc]
    exact has_of_inner call (ne_mutex side r) k hk hin hn
  generalize hi : call.program.get ⟨k, hk⟩ = i at *
  rw [← hpc] at heff
  obtain ⟨rfl, hnext, halone⟩ | ⟨hphase, hm, hc, ⟨rfl, hal, hal'⟩ | ⟨rfl, hal, hal'⟩ | ⟨hal, hname⟩⟩ := heff
  · have hin : ∀ ph, (side.instr ph).inner = true ∧ (side.instr ph).name ≠ .mutex := by
      cases side <;> (intro ph; cases ph <;> decide)
    exact ⟨_, _, hs.move (hopen (hin _).1 rfl (hin _).2) he hnext halone⟩
  · -- the lock is taken alone
    obtain ⟨hheld, hnone, hv⟩ : sw.held = false ∧ alone = none ∧ side.Values s' sw (some p) :=
      hs.takeLock (hopen rfl rfl (ne_mutex side .lock) .lock) he (.inr (Option.some_ne_none p))
    refine ⟨sw, some p, hv.stay hs he hphase hm hc (fun r => ?_) fun ht => ?_⟩
    · split_ifs with hr
      · exact iff_of_true (by rw [hr]) hal'
      · rw [← hs.owner r, hnone]
        exact iff_of_false (fun e => hr (Option.some.inj e).symm) nofun
    · rw [hheld] at ht
      cases ht
  · -- the lock is given back
    have howner : alone = some p := (hs.owner p).mpr hal
    have hheld : sw.held = false := by
      rw [← Bool.not_eq_true]
      intro ht
      cases howner.symm.trans (hs.excl ht)
    have hv := hs.giveLock (hopen rfl rfl (ne_mutex side .lock) .lock) he
      (.inr (by rw [howner]; exact Option.some_ne_none p))
    rw [← hheld] at hv
    refine ⟨sw, none, hv.stay hs he hphase hm hc (fun r => ?_) fun _ => rfl⟩
    split_ifs with hr
    · exact iff_of_false nofun (by rw [hal']; nofun)
    · rw [← hs.owner r, howner]
      exact iff_of_false nofun fun e => hr (Option.some.inj e).symm
  · have hv := hs.rest he (fun hin r => ?_) fun r hr => h.off hs hr
    · refine ⟨sw, alone, hv.stay hs he hphase hm hc (fun r => ?_) hs.excl⟩
      split_ifs with hr
      · rw [hs.owner r, hr, ← hal]
      · exact hs.owner r
    · cases r with
      | mutex => exact (hname hin).1
      | count => exact (hname hin).2.1
      | lock => exact (hname hin).2.2

omit [DecidableEq P] in
theorem current_next (he : s.exec q i = some (q', s'))
    (hunlink : ∀ n, n ≠ .mutex → i = .unlink n → ∀ r, (s.proc r).handle n = none) {n : Name}
    (hn : n ≠ .mutex) {r : P} {o : ℕ} (ho : (s.proc r).handle n = some o) (hc : s.current n = some o) :
    s'.current n = some o := by
  by_cases hopen : i = .open n
  · rw [hopen] at he
    obtain ⟨o', -, hc', ⟨hc'', -⟩ | ⟨hnone, -⟩⟩ := exec_open he
    · rw [hc', ← hc'', hc]
    · cases hnone.symm.trans hc
  · rw [exec_current he hopen fun hu => ?_, hc]
    cases (hunlink n hn hu r).symm.trans ho

/-- **A step that fits keeps the invariant.** -/
theorem Inv.step (h : Inv s) {a : Action} (hfit : Fits s p a) (hstep : step s p a = some s') : Inv s' := by
  cases a with
  | call call =>
    simp only [Semlock.step] at hstep
    split_ifs at hstep with hmay
    cases hstep
    obtain ⟨hsame, hhas⟩ := call_start hmay
    refine ⟨fun r n o hn => ?_, fun r n => ?_, fun side => ?_⟩
    · rw [setProc_proc]
      split_ifs with hr
      · exact h.handle p n o hn
      · exact h.handle r n o hn
    · rw [setProc_proc]
      split_ifs with hr
      · exact fun hp => h.has p n (hhas n hp)
      · exact h.has r n
    · obtain ⟨sw, alone, hs⟩ := h.side side
      refine ⟨sw, alone, hs.toValues.inv rfl ?_ (fun r => ?_) hs.excl fun r => ?_⟩
      · rw [(hsame side).1, Function.update_eq_self]
        exact hs.switch
      · split_ifs with hr
        · rw [hs.owner r, hr, (hsame side).2]
        · exact hs.owner r
      · split_ifs with hr
        · rw [(hsame side).1]
          exact hs.count p
        · exact hs.count r
  | next =>
    obtain ⟨call, k, hk, q, s₁, hpc, he, rfl⟩ := step_next hstep
    have hinstr : s.instr p = some (call.program.get ⟨k, hk⟩) := by
      rw [State.instr, hpc]
      exact List.getElem?_eq_getElem hk
    have hunlink : ∀ n, n ≠ .mutex → call.program.get ⟨k, hk⟩ = .unlink n → ∀ r, (s.proc r).handle n = none :=
      fun n hn hi => hfit n hn (hinstr.trans (congrArg some hi))
    refine ⟨fun r n o hn => ?_, fun r n => ?_, fun side => h.side_next hk hpc he side⟩
    · rw [setProc_proc, exec_proc he]
      split_ifs with hr
      · intro ho
        by_cases hopen : call.program.get ⟨k, hk⟩ = .open n
        · rw [hopen] at he
          obtain ⟨o', hq, hc, -⟩ := exec_open he
          exact (hq.symm.trans ho) ▸ hc
        · have hclose : call.program.get ⟨k, hk⟩ ≠ .close n := by
            intro hc
            rw [hc] at he
            cases he
            cases (Function.update_self ..).symm.trans ho
          rw [show q.handle n = _ from exec_handle he hopen hclose] at ho
          exact current_next he hunlink hn ho (h.handle p n o hn ho)
      · intro ho
        exact current_next he hunlink hn ho (h.handle r n o hn ho)
    · rw [setProc_proc, exec_proc he]
      split_ifs with hr
      · intro hp
        obtain ⟨hhas, hclose⟩ := has_after call n k hk hp
        by_cases hopen : call.program.get ⟨k, hk⟩ = .open n
        · rw [hopen] at he
          obtain ⟨o, hq, -⟩ := exec_open he
          exact ⟨o, hq⟩
        · obtain ⟨o, ho⟩ := h.has p n (by rw [hpc]; exact hhas.resolve_right hopen)
          exact ⟨o, (exec_handle he hopen hclose).trans ho⟩
      · exact h.has r n

theorem Inv.run (h : Inv s) {steps : List (P × Action)} (hfits : Along Fits s steps)
    (hrun : run s steps = some s') : Inv s' := by
  induction steps generalizing s with
  | nil =>
    cases hrun
    exact h
  | cons a steps ih =>
    obtain ⟨s₁, hstep, hrun⟩ := Option.bind_eq_some_iff.mp hrun
    obtain ⟨hfit, hfits⟩ := hfits s₁ hstep
    exact ih (h.step hfit hstep) hfits hrun

omit [DecidableEq P] in
theorem inv_start : Inv (start : State P) where
  handle _ _ _ _ h := by cases h
  has _ n h := by cases n <;> cases h
  side side := by
    refine ⟨⟨none, ∅, false⟩, none, ?_⟩
    exact {
      value := fun r o h => by cases h
      switch := inv_off
      owner := fun p => iff_of_false nofun (by cases side <;> nofun)
      excl := fun _ => rfl
      count := fun p h => by cases side <;> (obtain h | h := h <;> cases h) }

omit [DecidableEq P] in
theorem Inv.safe (h : Inv s) : Safe s where
  alone p q hpq hp := by
    obtain ⟨sw, alone, hs⟩ := h.side .readers
    have hsome : alone = some p := (hs.owner p).mpr (by rw [hp]; rfl)
    constructor
    · intro hq
      exact hpq (Option.some.inj (hsome.symm.trans ((hs.owner q).mpr (by rw [hq]; rfl))))
    · intro hq
      cases hsome.symm.trans (hs.excl (hs.switch.inside (p := q) (by rw [hq]; rfl)))
  calm hout n hn o ho := by
    obtain ⟨side, r, rfl⟩ := exists_name hn
    have hcur : s.current (side.name r) = some o := by
      obtain hc | ⟨p, hp⟩ := ho
      · exact hc
      · exact h.handle p _ o hn hp
    obtain ⟨sw, alone, hs⟩ := h.side side
    have hpc : ∀ p, (s.proc p).pc.phase side = .out ∧ (s.proc p).pc.alone side = false := by
      intro p
      have hp := hout p
      unfold Pc.outside at hp
      split at hp
      case h_5 => cases hp
      all_goals
        rename_i he
        rw [he]
        cases side <;> exact ⟨rfl, rfl⟩
    have hsw := hs.switch.out fun p => (hpc p).1
    have hnone : alone = none := by
      refine Option.eq_none_iff_forall_ne_some.mpr fun p hp => ?_
      have hl := (hs.owner p).mp hp
      rw [(hpc p).2] at hl
      cases hl
    rw [hs.value r o hcur, hsw, hnone, initial_eq]

end Steps

section Close

variable {s s' : State P}

theorem along_fits {steps : List (P × Action)} (hs : ∀ p k, (s.proc p).pc ≠ .running .close k)
    (hsteps : ∀ x ∈ steps, x.2 ≠ .call .close) : Along Fits s steps := by
  induction steps generalizing s with
  | nil => trivial
  | cons x steps ih =>
    obtain ⟨p, a⟩ := x
    intro s' hstep
    have hx : a ≠ .call .close := hsteps (p, a) List.mem_cons_self
    have hrest : ∀ x ∈ steps, x.2 ≠ .call .close := fun x hx => hsteps x (List.mem_cons_of_mem _ hx)
    cases a with
    | call call =>
      simp only [step] at hstep
      split_ifs at hstep
      cases hstep
      refine ⟨trivial, ih (fun r k => ?_) hrest⟩
      rw [setProc_proc]
      split_ifs
      · intro he
        cases he
        exact hx rfl
      · exact hs r k
    | next =>
      obtain ⟨call, k, hk, q, s₁, hpc, he, rfl⟩ := step_next hstep
      have hcall : call ≠ .close := by
        rintro rfl
        exact hs p k hpc
      constructor
      · intro n _ hi
        rw [State.instr, hpc] at hi
        have hmem : Instr.unlink n ∈ call.program := List.mem_of_getElem? hi
        cases call with
        | close => exact absurd rfl hcall
        | _ => simp [Call.program] at hmem
      · refine ih (fun r j => ?_) hrest
        rw [setProc_proc, exec_proc he]
        split_ifs
        · change call.after k ≠ _
          unfold Call.after
          split_ifs
          · intro e
            cases e
            exact hcall rfl
          · cases call <;> (intro e; cases e)
        · exact hs r j

end Close

/-- **In every run whose steps fit, those that write are alone**, and the semaphores have their initial
values while nobody reads or writes. -/
theorem run_safe {steps : List (P × Action)} {s : State P} (hfits : Along Fits start steps)
    (hrun : run start steps = some s) : Safe s :=
  (inv_start.run hfits hrun).safe

/-- The steps of calls that nobody interrupts. -/
def calls : List (P × Call) → List (P × Action)
  | [] => []
  | (p, call) :: rest =>
    (p, .call call) :: List.replicate call.program.length (p, .next) ++ calls rest

/-- While process 0 writes, process 1 opens the plugin. -/
theorem run_safe_writer : ∃ s : State ℕ,
    run start (calls [(0, .open), (0, .setPre), (1, .open)]) = some s ∧ (s.proc 0).pc = .writing ∧
      Safe s := by
  have hrun : (run (start : State ℕ) (calls [(0, .open), (0, .setPre), (1, .open)])).map
      (fun s => (s.proc 0).pc) = some .writing := by decide +kernel
  obtain ⟨s, hs, hpc⟩ := Option.map_eq_some_iff.mp hrun
  refine ⟨s, hs, hpc, run_safe (along_fits (fun p k => by intro h; cases h) ?_) hs⟩
  intro x hx hc
  simp [calls, Call.program] at hx
  rcases hx with rfl | rfl | rfl | rfl | rfl | rfl <;> cases hc

/-- Process 0 writes; process 1 opens and closes the plugin, and with it the names are gone: process 2
creates new semaphores, and writes too. -/
theorem run_not_safe : ∃ s : State ℕ,
    run start (calls [(0, .open), (0, .setPre), (1, .open), (1, .close), (2, .open), (2, .setPre)]) =
      some s ∧ ¬Safe s := by
  have hrun : (run (start : State ℕ)
      (calls [(0, .open), (0, .setPre), (1, .open), (1, .close), (2, .open), (2, .setPre)])).map
        (fun s => ((s.proc 0).pc, (s.proc 2).pc)) = some (.writing, .writing) := by decide +kernel
  obtain ⟨s, hs, hpc⟩ := Option.map_eq_some_iff.mp hrun
  obtain ⟨h₀, h₂⟩ := Prod.mk.inj hpc
  exact ⟨s, hs, fun h => (h.alone 0 2 (by decide) h₀).1 h₂⟩

end Elektra.Semlock
