import Mathlib.Data.Nat.Notation
import Mathlib.Logic.Function.Basic
import Mathlib.Tactic.Common

/-!
# The resolver of many processes

Any number of processes `P` work on one configuration file, one system call at a time. An inode is
numbered when it gets the name of the file: by `open` with `O_CREAT`, or by the rename of a temporary
file, which nobody else opens before. `C` is what a file can hold, `T` are the time stamps.

* `Inode`, `Proc`, `State`; `Call`, `step`, `Along`;
* `Safe`: a commit replaces or removes what the process saw;
* `Fits`: the steps at which the protocol leaves a gap, and nobody came through it;
* `Ok`: what every step keeps, from what it leaves to the others (`Frame`); **`commit_safe`**.
-/

namespace Elektra.Resolver.Protocol

/-! ## Files and processes -/

/-- A file. `born` is no data of the file system: it is the time stamp that the file had first. -/
structure Inode (P C T : Type) where
  content : C
  mtime : T
  born : T
  lock : Option P

/-- Where a process is; `i` is the inode of `pk->fd`, `n` the one of the temporary file. `created`
says that this set created the file. -/
inductive Pc
  /-- outside of any phase, `pk->fd` is `-1` -/
  | idle
  /-- get answered that there is an update, the storage has not read it yet -/
  | reading
  /-- `elektraOpenFile` left no descriptor, `elektraCreateFile` is next -/
  | retry
  | opened (i : ℕ) (created : Bool)
  | locked (i : ℕ) (created : Bool)
  /-- the first phase succeeded -/
  | prepared (i : ℕ) (created : Bool)
  | renamed (i n : ℕ)
  | stamped (i n : ℕ)
  | touched (i n : ℕ)
  | unlocking (n : ℕ)
  /-- `pk->fd` is `-2` -/
  | removal
  /-- the rollback has closed the file and is about to unlink it -/
  | undo (i : ℕ)
  deriving DecidableEq, Repr

/-- A process and its handle. `mtime` is none for the time zero. The field `seen` is no data of the
program: it is what the process saw in its last get, or wrote itself since; none where no file was. -/
structure Proc (C T : Type) where
  pc : Pc
  isMissing : Bool
  mtime : Option T
  removalNeeded : Bool
  seen : Option C

/-- `name` is the inode that has the name of the configuration file. -/
structure State (P C T : Type) where
  name : Option ℕ
  next : ℕ
  inode : ℕ → Inode P C T
  proc : P → Proc C T

variable {P C T : Type} [DecidableEq P] [DecidableEq T]

namespace State

def setProc (s : State P C T) (a : P) (p : Proc C T) : State P C T :=
  { s with proc := Function.update s.proc a p }

def setInode (s : State P C T) (i : ℕ) (f : Inode P C T) : State P C T :=
  { s with inode := Function.update s.inode i f }

/-- A new inode under the name of the file. -/
def link (s : State P C T) (f : Inode P C T) : State P C T :=
  { s with name := some s.next, next := s.next + 1, inode := Function.update s.inode s.next f }

def setLock (s : State P C T) (i : ℕ) (lock : Option P) : State P C T :=
  s.setInode i { s.inode i with lock := lock }

def goto (s : State P C T) (a : P) (pc : Pc) : State P C T :=
  s.setProc a { s.proc a with pc := pc }

/-- Every write yields a new time stamp. -/
def fresh (s : State P C T) (m : T) : Bool := decide (∀ i < s.next, (s.inode i).born ≠ m)

end State

/-- The file `open` creates: it is empty. -/
def newInode (empty : C) (m : T) : Inode P C T := ⟨empty, m, m, none⟩

/-! ## System calls -/

/-- What a process does next. -/
inductive Call (C T : Type)
  /-- get -/
  | stat
  /-- the storage reads the file -/
  | read
  /-- `elektraOpenFile` -/
  | openFile (m : T)
  /-- `elektraOpenFile`, where creating the file fails but for `EEXIST` -/
  | openFails
  /-- `elektraCreateFile` -/
  | createFile (m : T)
  | createFails
  | lockFile
  | checkConflict
  /-- `elektraSetCommit` from here on -/
  | rename (content : C) (m : T)
  | fstat
  | futimens
  | unlockOld
  | unlockNew
  /-- set without keys, first phase -/
  | startRemoval
  /-- set without keys, second phase -/
  | unlink
  /-- error: unlock and close -/
  | rollback
  /-- error: unlink what was created -/
  | unlinkCreated

/-- There was a get: `kdbSet` is refused before. -/
def Proc.got (p : Proc C T) : Bool := p.isMissing || p.mtime.isSome

namespace State

/-! Each step of a process `a` is none where the process is elsewhere, or a time stamp is not new. A
conflict leads back to `idle`, and so does an error. -/

def stat (s : State P C T) (a : P) : Option (State P C T) :=
  match (s.proc a).pc, s.name with
  | .idle, none =>
    some (s.setProc a { s.proc a with isMissing := true, mtime := none, seen := none })
  | .idle, some i =>
    if (s.proc a).mtime = some (s.inode i).mtime then
      some (s.setProc a { s.proc a with isMissing := false })
    else some (s.setProc a
      { s.proc a with pc := .reading, isMissing := false, mtime := some (s.inode i).mtime })
  | _, _ => none

def read (s : State P C T) (a : P) : Option (State P C T) :=
  match (s.proc a).pc, s.name with
  | .reading, none => some (s.goto a .idle)
  | .reading, some i =>
    some (s.setProc a { s.proc a with pc := .idle, seen := some (s.inode i).content })
  | _, _ => none

def openFile (empty : C) (s : State P C T) (a : P) (m : T) : Option (State P C T) :=
  match (s.proc a).pc, (s.proc a).got, (s.proc a).isMissing, s.name with
  | .idle, true, true, none =>
    if s.fresh m then
      some ((s.link (newInode empty m)).setProc a
        { s.proc a with pc := .opened s.next true, removalNeeded := true })
    else none
  | .idle, true, false, some i =>
    some (s.setProc a { s.proc a with pc := .opened i false, removalNeeded := false })
  -- the file is there and should not, or should be there and is not
  | .idle, true, _, _ => some (s.setProc a { s.proc a with removalNeeded := false })
  | _, _, _, _ => none

def openFails (s : State P C T) (a : P) : Option (State P C T) :=
  match (s.proc a).pc, (s.proc a).isMissing, s.name with
  | .idle, true, none =>
    some (s.setProc a { s.proc a with pc := .retry, removalNeeded := false })
  | _, _, _ => none

def createFile (empty : C) (s : State P C T) (a : P) (m : T) : Option (State P C T) :=
  match (s.proc a).pc, s.name with
  | .retry, none =>
    if s.fresh m then
      some ((s.link (newInode empty m)).setProc a
        { s.proc a with pc := .opened s.next true, removalNeeded := true })
    else none
  | .retry, some i =>
    some (s.setProc a { s.proc a with pc := .opened i false, removalNeeded := true })
  | _, _ => none

def createFails (s : State P C T) (a : P) : Option (State P C T) :=
  match (s.proc a).pc with
  | .retry => some (s.goto a .idle)
  | _ => none

def lockFile (s : State P C T) (a : P) : Option (State P C T) :=
  match (s.proc a).pc with
  | .opened i created =>
    if (s.inode i).lock = none then some ((s.setLock i (some a)).goto a (.locked i created))
    else some (s.goto a .idle)
  | _ => none

def checkConflict (s : State P C T) (a : P) : Option (State P C T) :=
  match (s.proc a).pc with
  | .locked i created =>
    if (s.proc a).isMissing || (s.proc a).mtime = some (s.inode i).mtime then
      some (s.goto a (.prepared i created))
    else some ((s.setLock i none).goto a .idle)
  | _ => none

def rename (s : State P C T) (a : P) (content : C) (m : T) : Option (State P C T) :=
  match (s.proc a).pc with
  | .prepared i _ =>
    if s.fresh m then
      some ((s.link ⟨content, m, m, some a⟩).setProc a
        { s.proc a with pc := .renamed i s.next, seen := some content })
    else none
  | _ => none

def fstat (s : State P C T) (a : P) : Option (State P C T) :=
  match (s.proc a).pc with
  | .renamed i n =>
    some (s.setProc a
      { s.proc a with pc := .stamped i n, isMissing := false, mtime := some (s.inode n).mtime })
  | _ => none

def futimens (s : State P C T) (a : P) : Option (State P C T) :=
  match (s.proc a).pc, (s.proc a).mtime with
  | .stamped i n, some m =>
    some ((s.setInode i { s.inode i with mtime := m }).goto a (.touched i n))
  | _, _ => none

def unlockOld (s : State P C T) (a : P) : Option (State P C T) :=
  match (s.proc a).pc with
  | .touched i n => some ((s.setLock i none).goto a (.unlocking n))
  | _ => none

def unlockNew (s : State P C T) (a : P) : Option (State P C T) :=
  match (s.proc a).pc with
  | .unlocking n => some ((s.setLock n none).goto a .idle)
  | _ => none

def startRemoval (s : State P C T) (a : P) : Option (State P C T) :=
  match (s.proc a).pc, (s.proc a).got with
  | .idle, true => some (s.goto a .removal)
  | _, _ => none

def unlink (s : State P C T) (a : P) : Option (State P C T) :=
  match (s.proc a).pc with
  | .removal => some (({ s with name := none } : State P C T).goto a .idle)
  | _ => none

def rollback (s : State P C T) (a : P) : Option (State P C T) :=
  match (s.proc a).pc with
  | .prepared i _ =>
    some ((s.setLock i none).goto a (if (s.proc a).removalNeeded then .undo i else .idle))
  | .removal => some (s.goto a .idle)
  | _ => none

def unlinkCreated (s : State P C T) (a : P) : Option (State P C T) :=
  match (s.proc a).pc with
  | .undo _ => some (({ s with name := none } : State P C T).goto a .idle)
  | _ => none

end State

/-- A step of process `a`. -/
def step (empty : C) (s : State P C T) (a : P) : Call C T → Option (State P C T)
  | .stat => s.stat a
  | .read => s.read a
  | .openFile m => s.openFile empty a m
  | .openFails => s.openFails a
  | .createFile m => s.createFile empty a m
  | .createFails => s.createFails a
  | .lockFile => s.lockFile a
  | .checkConflict => s.checkConflict a
  | .rename content m => s.rename a content m
  | .fstat => s.fstat a
  | .futimens => s.futimens a
  | .unlockOld => s.unlockOld a
  | .unlockNew => s.unlockNew a
  | .startRemoval => s.startRemoval a
  | .unlink => s.unlink a
  | .rollback => s.rollback a
  | .unlinkCreated => s.unlinkCreated a

/-- Whatever steps the processes make, in any order: `Q` holds of each of them. -/
def Along (empty : C) (Q : State P C T → P → Call C T → Prop) (s : State P C T) :
    List (P × Call C T) → Prop
  | [] => True
  | (a, c) :: cs => ∀ s', step empty s a c = some s' → Q s a c ∧ Along empty Q s' cs

/-! ## Safety -/

/-- What a commit of process `a` replaces or removes: the content of the file, unless this set created
it. -/
def replaced (s : State P C T) (a : P) : Option C :=
  match s.name with
  | none => none
  | some i =>
    if (s.proc a).pc = .prepared i true then none else some (s.inode i).content

/-- A commit replaces or removes what the process saw. Without a file, `unlink` fails with an error. -/
def Safe (s : State P C T) (a : P) : Call C T → Prop
  | .rename _ _ => replaced s a = (s.proc a).seen
  | .unlink => s.name = none ∨ replaced s a = (s.proc a).seen
  | _ => True

/-- The process has opened the inode, and has not renamed over it yet. -/
def Pc.holds (i : ℕ) : Pc → Prop
  | .opened j _ | .locked j _ | .prepared j _ => j = i
  | _ => False

/-- The gaps of the protocol. `elektraCreateFile` opens without `O_EXCL`: nobody else has created the
file since. A file that was just created is not locked yet: nobody else has replaced it. The removal
checks nothing: the file is the one that was seen, and nobody has opened it. The rollback unlinks after
it unlocked: the file is still the one that was created, and nobody has opened it. -/
def Fits (s : State P C T) (a : P) : Call C T → Prop
  | .createFile _ => s.name = none
  | .lockFile => ∀ i, (s.proc a).pc = .opened i true → s.name = some i
  | .unlink => ∀ i, s.name = some i → (s.proc a).isMissing = false ∧
      (s.proc a).mtime = some (s.inode i).mtime ∧ ∀ b, ¬ (s.proc b).pc.holds i
  | .unlinkCreated => ∀ i, s.name = some i → (s.proc a).pc = .undo i ∧ ∀ b, ¬ (s.proc b).pc.holds i
  | _ => True

/-- A file system in which no process has done anything. -/
structure Initial (s : State P C T) : Prop where
  file : (s.name = none ∧ s.next = 0) ∨
    (s.name = some 0 ∧ s.next = 1 ∧ (s.inode 0).mtime = (s.inode 0).born ∧ (s.inode 0).lock = none)
  proc : ∀ a, (s.proc a).pc = .idle ∧ (s.proc a).isMissing = false ∧ (s.proc a).mtime = none

/-! ## The invariant -/

/-- The process knows nothing, that there was no file, or an inode by its first time stamp. -/
def Knows (s : State P C T) (p : Proc C T) : Prop :=
  (p.isMissing = true → p.seen = none ∧ p.mtime = none) ∧
  (p.isMissing = false → p.mtime = none ∨ ∃ j < s.next, p.mtime = some (s.inode j).born ∧
    (p.pc = .reading ∨ p.seen = some (s.inode j).content ∨ s.name ≠ some j))

/-- The process has an inode open that is at least as new as the one it knows. -/
def Opens (s : State P C T) (p : Proc C T) (i : ℕ) (created : Bool) : Prop :=
  i < s.next ∧ p.isMissing = created ∧ ∀ j < s.next, p.mtime = some (s.inode j).born → j ≤ i

/-- A commit under way: the inode that is replaced, and the new one. -/
def Commits (s : State P C T) (a : P) (i n : ℕ) : Prop :=
  i < n ∧ n < s.next ∧ (s.inode i).lock = some a ∧ (s.inode n).lock = some a

/-- What holds of a process `a` at each place. -/
def At (s : State P C T) (a : P) (p : Proc C T) : Prop :=
  match p.pc with
  | .idle | .removal | .undo _ => True
  | .reading => p.isMissing = false
  | .retry => p.isMissing = true
  | .opened i c => Opens s p i c
  | .locked i c => Opens s p i c ∧ (s.inode i).lock = some a ∧ (c = true → s.name = some i)
  | .prepared i c => i < s.next ∧ (s.inode i).lock = some a ∧ s.name = some i ∧
      p.seen = if c then none else some (s.inode i).content
  | .renamed i n => Commits s a i n ∧ p.seen = some (s.inode n).content ∧
      (s.inode n).mtime = (s.inode n).born
  | .stamped i n => Commits s a i n ∧ p.mtime = some (s.inode n).born
  | .touched i n => Commits s a i n
  | .unlocking n => n < s.next ∧ (s.inode n).lock = some a

/-- The inode numbers and the time stamps. -/
structure Stamps (s : State P C T) : Prop where
  last : ∀ i, s.name = some i → i + 1 = s.next
  born : ∀ i < s.next, ∀ j < s.next, (s.inode i).born = (s.inode j).born → i = j
  named : ∀ i, s.name = some i → (s.inode i).mtime = (s.inode i).born
  touched : ∀ i < s.next, (s.inode i).mtime = (s.inode i).born ∨
    ∃ n, i < n ∧ n < s.next ∧ (s.inode i).mtime = (s.inode n).born

/-- The process has renamed over the inode, and has not touched it yet. -/
def Pc.replaces (i : ℕ) : Pc → Prop
  | .renamed j _ | .stamped j _ => j = i
  | _ => False

/-- An inode that lost the name is touched, or is going to be, or nobody has it open. -/
def Dead (s : State P C T) : Prop :=
  ∀ i < s.next, s.name ≠ some i → (s.inode i).mtime = (s.inode i).born →
    (∃ b, (s.proc b).pc.replaces i) ∨ ∀ b, ¬ (s.proc b).pc.holds i

structure Ok (s : State P C T) : Prop where
  stamps : Stamps s
  dead : Dead s
  places : ∀ a, At s a (s.proc a)
  knows : ∀ a, (∀ i n, (s.proc a).pc ≠ .renamed i n) → Knows s (s.proc a)

/-- What a step of `a` leaves to the others. -/
structure Frame (a : P) (s s' : State P C T) : Prop where
  proc : ∀ b, b ≠ a → s'.proc b = s.proc b
  next : s.next ≤ s'.next
  content : ∀ i < s.next, (s'.inode i).content = (s.inode i).content
  born : ∀ i < s.next, (s'.inode i).born = (s.inode i).born
  lock : ∀ i < s.next, ∀ b, b ≠ a → (s.inode i).lock = some b → (s'.inode i).lock = some b
  mtime : ∀ i < s.next, ∀ b, b ≠ a → (s.inode i).lock = some b →
    (s'.inode i).mtime = (s.inode i).mtime
  old : ∀ i < s.next, s'.name = some i → s.name = some i
  named : ∀ i b, b ≠ a → (s.proc b).pc.holds i → (s.inode i).lock = some b → s.name = some i →
    s'.name = some i

section Frame

omit [DecidableEq P] [DecidableEq T]

variable {s s' : State P C T} {a b : P} {p : Proc C T}

theorem Frame.knows (f : Frame a s s') (hp : Knows s p) : Knows s' p := by
  refine ⟨hp.1, fun hm => (hp.2 hm).imp_right ?_⟩
  rintro ⟨j, hj, ht, hs⟩
  refine ⟨j, Nat.lt_of_lt_of_le hj f.next, (f.born j hj).symm ▸ ht, ?_⟩
  rw [f.content j hj]
  exact hs.imp_right (Or.imp_right fun hn h => hn (f.old j hj h))

/-- A time stamp that is known is the one of an inode that was there before. -/
theorem Frame.opens (f : Frame a s s') (st : Stamps s') (hk : Knows s p) {i : ℕ} {c : Bool}
    (h : Opens s p i c) : Opens s' p i c := by
  refine ⟨Nat.lt_of_lt_of_le h.1 f.next, h.2.1, fun j hj ht => ?_⟩
  cases hm : p.isMissing with
  | true => rw [(hk.1 hm).2] at ht; cases ht
  | false =>
    rcases hk.2 hm with h0 | ⟨k, hk', hkt, -⟩
    · rw [h0] at ht; cases ht
    · have e : (s'.inode k).born = (s'.inode j).born := by
        rw [f.born k hk']; exact Option.some.inj (hkt.symm.trans ht)
      have := st.born k (Nat.lt_of_lt_of_le hk' f.next) j hj e
      exact this ▸ h.2.2 k hk' hkt

theorem Frame.commits (f : Frame a s s') (hb : b ≠ a) {i n : ℕ} (h : Commits s b i n) :
    Commits s' b i n := by
  have hi : i < s.next := Nat.lt_trans h.1 h.2.1
  exact ⟨h.1, Nat.lt_of_lt_of_le h.2.1 f.next, f.lock i hi b hb h.2.2.1, f.lock n h.2.1 b hb h.2.2.2⟩

theorem Frame.place (f : Frame a s s') (st : Stamps s') (hb : b ≠ a)
    (hk : (∀ i n, (s.proc b).pc ≠ .renamed i n) → Knows s (s.proc b)) (h : At s b (s.proc b)) :
    At s' b (s.proc b) := by
  unfold At at h ⊢
  have nm := f.named
  cases e : (s.proc b).pc <;> simp only [e] at h ⊢
  case reading => exact h
  case retry => exact h
  case opened i c => exact f.opens st (hk (by simp [e])) h
  case locked i c =>
    have hh : (s.proc b).pc.holds i := by rw [e]; rfl
    exact ⟨f.opens st (hk (by simp [e])) h.1, f.lock i h.1.1 b hb h.2.1,
      fun hc => nm i b hb hh h.2.1 (h.2.2 hc)⟩
  case prepared i c =>
    have hh : (s.proc b).pc.holds i := by rw [e]; rfl
    rw [f.content i h.1]
    exact ⟨Nat.lt_of_lt_of_le h.1 f.next, f.lock i h.1 b hb h.2.1, nm i b hb hh h.2.1 h.2.2.1, h.2.2.2⟩
  case renamed i n =>
    have hn := h.1.2.1
    rw [f.content n hn, f.born n hn, f.mtime n hn b hb h.1.2.2.2]
    exact ⟨f.commits hb h.1, h.2⟩
  case stamped i n => rw [f.born n h.1.2.1]; exact ⟨f.commits hb h.1, h.2⟩
  case touched i n => exact f.commits hb h
  case unlocking n => exact ⟨Nat.lt_of_lt_of_le h.1 f.next, f.lock n h.1 b hb h.2⟩

/-- What is left to show of a step: its own process, and the two facts about the disk. -/
theorem Ok.step (ok : Ok s) (f : Frame a s s') (st : Stamps s') (dd : Dead s')
    (pl : At s' a (s'.proc a))
    (kn : (∀ i n, (s'.proc a).pc ≠ .renamed i n) → Knows s' (s'.proc a)) : Ok s' where
  stamps := st
  dead := dd
  places b := by
    by_cases hb : b = a
    · subst hb; exact pl
    · rw [f.proc b hb]; exact f.place st hb (ok.knows b) (ok.places b)
  knows b hn := by
    by_cases hb : b = a
    · subst hb; exact kn hn
    · rw [f.proc b hb] at hn ⊢; exact f.knows (ok.knows b hn)

end Frame

/-! ## The disk -/

section Disk

variable {s s' : State P C T} {a : P}

omit [DecidableEq P]

omit [DecidableEq T] in
theorem Stamps.of_same (st : Stamps s) (hn : s'.name = s.name ∨ s'.name = none)
    (hx : s'.next = s.next) (hb : ∀ i, (s'.inode i).born = (s.inode i).born)
    (hm : ∀ i, (s'.inode i).mtime = (s.inode i).mtime) : Stamps s' := by
  have hn' : ∀ i, s'.name = some i → s.name = some i := by
    intro i h
    rcases hn with hn | hn
    · exact hn ▸ h
    · rw [hn] at h; cases h
  refine ⟨fun i h => hx ▸ st.last i (hn' i h), ?_, fun i h => ?_, ?_⟩
  · simpa only [hx, hb] using st.born
  · rw [hb, hm]; exact st.named i (hn' i h)
  · simpa only [hx, hb, hm] using st.touched

theorem Stamps.link (st : Stamps s) {f : Inode P C T} (hf : f.mtime = f.born)
    (hfresh : s.fresh f.born = true) : Stamps (s.link f) := by
  have hfresh : ∀ i < s.next, (s.inode i).born ≠ f.born := of_decide_eq_true hfresh
  have old : ∀ i < s.next, (s.link f).inode i = s.inode i := fun i hi =>
    Function.update_of_ne (Nat.ne_of_lt hi) _ _
  have new : (s.link f).inode s.next = f := Function.update_self _ _ _
  have split : ∀ i < s.next + 1, i = s.next ∨ i < s.next := by omega
  refine ⟨?_, fun i hi j hj h => ?_, ?_, fun i hi => ?_⟩
  · rintro i ⟨⟩; rfl
  · rcases split i hi with rfl | hi <;> rcases split j hj with rfl | hj
    · rfl
    · rw [new, old j hj] at h; exact absurd h.symm (hfresh j hj)
    · rw [new, old i hi] at h; exact absurd h (hfresh i hi)
    · rw [old i hi, old j hj] at h; exact st.born i hi j hj h
  · rintro i ⟨⟩; rw [new]; exact hf
  · rcases split i hi with rfl | hi
    · rw [new]; exact .inl hf
    · rw [old i hi]
      refine (st.touched i hi).imp_right ?_
      rintro ⟨n, hin, hn, h⟩
      exact ⟨n, hin, Nat.lt_succ_of_lt hn, by rw [old n hn]; exact h⟩

omit [DecidableEq T] in
theorem Stamps.touch (st : Stamps s) {i n : ℕ} (hin : i < n) (hn : n < s.next) :
    Stamps (s.setInode i { s.inode i with mtime := (s.inode n).born }) := by
  have born : ∀ j, ((s.setInode i { s.inode i with mtime := (s.inode n).born }).inode j).born =
      (s.inode j).born := by
    intro j
    by_cases hj : j = i <;> simp [State.setInode, hj]
  have old : ∀ j, j ≠ i → (s.setInode i { s.inode i with mtime := (s.inode n).born }).inode j =
      s.inode j := fun j hj => Function.update_of_ne hj _ _
  refine ⟨st.last, fun j hj k hk h => ?_, fun j h => ?_, fun j hj => ?_⟩
  · rw [born, born] at h; exact st.born j hj k hk h
  · -- the name is on a newer inode
    have hj : j + 1 = s.next := st.last j h
    rw [old j (by omega)]; exact st.named j h
  · by_cases hji : j = i
    · subst hji
      exact .inr ⟨n, hin, hn, by rw [born]; simp [State.setInode]⟩
    · rw [old j hji]
      refine (st.touched j hj).imp_right ?_
      rintro ⟨k, hjk, hk, h⟩
      exact ⟨k, hjk, hk, by rw [born]; exact h⟩

omit [DecidableEq T] in
theorem Dead.step (dd : Dead s) (hproc : ∀ b, b ≠ a → s'.proc b = s.proc b)
    (hname : ∀ i < s'.next, s'.name ≠ some i → i < s.next ∧ (s.name ≠ some i ∨
      (s'.proc a).pc.replaces i ∨ ∀ b, ¬ (s'.proc b).pc.holds i))
    (hstamp : ∀ i < s.next, (s'.inode i).mtime = (s'.inode i).born →
      (s.inode i).mtime = (s.inode i).born)
    (hreplaces : ∀ i, (s.proc a).pc.replaces i → (s'.inode i).mtime = (s'.inode i).born →
      (s'.proc a).pc.replaces i)
    (hholds : ∀ i, (s'.proc a).pc.holds i → (s.proc a).pc.holds i ∨ s'.name = some i) :
    Dead s' := by
  intro i hi hn hm
  obtain ⟨hi', h | h | h⟩ := hname i hi hn
  · rcases dd i hi' h (hstamp i hi' hm) with ⟨b, hb⟩ | hb
    · left
      by_cases hab : b = a
      · subst hab; exact ⟨b, hreplaces i hb hm⟩
      · exact ⟨b, by rw [hproc b hab]; exact hb⟩
    · right
      intro b hh
      by_cases hab : b = a
      · subst hab; exact (hholds i hh).elim (hb b) hn
      · rw [hproc b hab] at hh; exact hb b hh
  · exact .inl ⟨a, h⟩
  · exact .inr h

end Disk

/-! ## The changes a step makes -/

section Changes

variable {s : State P C T} {a : P} {p : Proc C T} {i : ℕ}

omit [DecidableEq T] in
theorem proc_setProc (b : P) (hb : b ≠ a) : (s.setProc a p).proc b = s.proc b :=
  Function.update_of_ne hb _ _

omit [DecidableEq T] in
@[simp] theorem setProc_self : (s.setProc a p).proc a = p := Function.update_self _ _ _

omit [DecidableEq P] [DecidableEq T] in
theorem inode_setInode (f : Inode P C T) (j : ℕ) :
    (s.setInode i f).inode j = if j = i then f else s.inode j := by
  simp only [State.setInode, Function.update_apply]

omit [DecidableEq P] [DecidableEq T] in
theorem setInode_data {D : Type} (g : Inode P C T → D) {f : Inode P C T}
    (h : g f = g (s.inode i)) (j : ℕ) : g ((s.setInode i f).inode j) = g (s.inode j) := by
  rw [inode_setInode]
  split
  · next e => rw [e]; exact h
  · rfl

omit [DecidableEq P] [DecidableEq T] in
theorem inode_link (f : Inode P C T) (j : ℕ) :
    (s.link f).inode j = if j = s.next then f else s.inode j := by
  simp only [State.link, Function.update_apply]

omit [DecidableEq T] in
theorem Ok.setProc (ok : Ok s) (pl : At s a p)
    (kn : (∀ i n, p.pc ≠ .renamed i n) → Knows s p)
    (hr : ∀ i, (s.proc a).pc.replaces i → p.pc.replaces i)
    (hh : ∀ i, p.pc.holds i → (s.proc a).pc.holds i ∨ s.name = some i) : Ok (s.setProc a p) := by
  have f : Frame a s (s.setProc a p) :=
    ⟨proc_setProc, Nat.le_refl _, fun _ _ => rfl, fun _ _ => rfl, fun _ _ _ _ h => h,
      fun _ _ _ _ _ => rfl, fun _ _ h => h, fun _ _ _ _ _ h => h⟩
  have st : Stamps (s.setProc a p) :=
    ok.stamps.of_same (.inl rfl) rfl (fun _ => rfl) fun _ => rfl
  refine ok.step f st ?_ (by rw [setProc_self]; exact pl) (by rw [setProc_self]; exact kn)
  refine ok.dead.step (a := a) proc_setProc (fun i hi hn => ⟨hi, .inl hn⟩) (fun _ _ h => h) ?_ ?_
  · intro i h _; rw [setProc_self]; exact hr i h
  · intro i h; rw [setProc_self] at h; exact hh i h

omit [DecidableEq T] in
/-- A lock is taken or released, on an inode that nobody else has locked. -/
theorem Ok.setLock (ok : Ok s) (l : Option P)
    (hl : (s.inode i).lock = none ∨ (s.inode i).lock = some a) (pl : At (s.setLock i l) a p)
    (kn : Knows s p) (hr : ∀ j, ¬ (s.proc a).pc.replaces j)
    (hh : ∀ j, p.pc.holds j → (s.proc a).pc.holds j) : Ok ((s.setLock i l).setProc a p) := by
  have other : ∀ j, ∀ b, b ≠ a → (s.inode j).lock = some b → j ≠ i := by
    rintro j b hb h rfl
    rcases hl with hl | hl <;> rw [hl] at h <;> cases h
    exact hb rfl
  have content : ∀ j, ((s.setLock i l).inode j).content = (s.inode j).content :=
    setInode_data Inode.content rfl
  have born : ∀ j, ((s.setLock i l).inode j).born = (s.inode j).born := setInode_data Inode.born rfl
  have mtime : ∀ j, ((s.setLock i l).inode j).mtime = (s.inode j).mtime :=
    setInode_data Inode.mtime rfl
  have f : Frame a s ((s.setLock i l).setProc a p) := by
    refine ⟨proc_setProc, Nat.le_refl _, fun j _ => content j, fun j _ => born j, ?_,
      fun j _ _ _ _ => mtime j, fun _ _ h => h, fun _ _ _ _ _ h => h⟩
    intro j _ b hb h
    have hj := other j b hb h
    show ((s.setLock i l).inode j).lock = some b
    rw [State.setLock, inode_setInode, if_neg hj]
    exact h
  refine ok.step f (ok.stamps.of_same (.inl rfl) rfl born mtime) ?_ (by rw [setProc_self]; exact pl)
    fun _ => by rw [setProc_self]; exact f.knows kn
  refine ok.dead.step (a := a) proc_setProc (fun j hj hn => ⟨hj, .inl hn⟩) ?_ ?_ ?_
  · intro j _ h
    exact (mtime j).symm.trans (Eq.trans h (born j))
  · intro j h; exact absurd h (hr j)
  · intro j h; rw [setProc_self] at h; exact .inl (hh j h)

/-- A new inode gets the name; the old one, if any, is locked and about to be touched. -/
theorem Ok.link (ok : Ok s) {f : Inode P C T} (hf : f.mtime = f.born)
    (hfresh : s.fresh f.born = true)
    (hname : ∀ i, s.name = some i → (s.inode i).lock = some a ∧ p.pc.replaces i)
    (pl : At (s.link f) a p) (kn : (∀ i n, p.pc ≠ .renamed i n) → Knows s p)
    (hr : ∀ i, ¬ (s.proc a).pc.replaces i) (hh : ∀ i, p.pc.holds i → i = s.next) :
    Ok ((s.link f).setProc a p) := by
  have old : ∀ j < s.next, (s.link f).inode j = s.inode j := by
    intro j hj; rw [inode_link, if_neg (Nat.ne_of_lt hj)]
  have fr : Frame a s ((s.link f).setProc a p) := by
    refine ⟨proc_setProc, Nat.le_succ _, fun j hj => congrArg Inode.content (old j hj),
      fun j hj => congrArg Inode.born (old j hj), ?_, fun j hj _ _ _ => congrArg Inode.mtime (old j hj),
      ?_, ?_⟩
    · intro j hj b _ h
      exact (congrArg Inode.lock (old j hj)).trans h
    · rintro j hj ⟨⟩; omega
    · intro j b hb _ hl hn
      exact absurd (Option.some.inj (hl.symm.trans (hname j hn).1)) hb
  have st := ok.stamps.link hf hfresh
  refine ok.step fr (st.of_same (.inl rfl) rfl (fun _ => rfl) fun _ => rfl) ?_
    (by rw [setProc_self]; exact pl) fun h => by rw [setProc_self] at h ⊢; exact fr.knows (kn h)
  refine ok.dead.step (a := a) proc_setProc ?_ ?_ ?_ ?_
  · intro j hj hn
    have hj' : j < s.next := by
      have hj : j < s.next + 1 := hj
      have : j ≠ s.next := fun e => hn (e ▸ rfl)
      omega
    refine ⟨hj', ?_⟩
    by_cases h : s.name = some j
    · rw [setProc_self]; exact .inr (.inl (hname j h).2)
    · exact .inl h
  · intro j hj h
    have h : ((s.link f).inode j).mtime = ((s.link f).inode j).born := h
    rwa [old j hj] at h
  · intro j h; exact absurd h (hr j)
  · intro j h; rw [setProc_self] at h; rw [hh j h]; exact .inr rfl

omit [DecidableEq T] in
theorem Ok.touch (ok : Ok s) {n : ℕ} (hc : Commits s a i n) (hp : (s.proc a).pc = .stamped i n)
    (kn : Knows s p) (hpc : p.pc = .touched i n) :
    Ok ((s.setInode i { s.inode i with mtime := (s.inode n).born }).setProc a p) := by
  obtain ⟨hin, hn, hi, hln⟩ := hc
  have inode : ∀ j, (s.setInode i { s.inode i with mtime := (s.inode n).born }).inode j =
      if j = i then { s.inode i with mtime := (s.inode n).born } else s.inode j := inode_setInode _
  have content : ∀ j, ((s.setInode i { s.inode i with mtime := (s.inode n).born }).inode j).content =
      (s.inode j).content := setInode_data Inode.content rfl
  have born : ∀ j, ((s.setInode i { s.inode i with mtime := (s.inode n).born }).inode j).born =
      (s.inode j).born := setInode_data Inode.born rfl
  have lock : ∀ j, ((s.setInode i { s.inode i with mtime := (s.inode n).born }).inode j).lock =
      (s.inode j).lock := setInode_data Inode.lock rfl
  have fr : Frame a s ((s.setInode i { s.inode i with mtime := (s.inode n).born }).setProc a p) := by
    refine ⟨proc_setProc, Nat.le_refl _, fun j _ => content j, fun j _ => born j,
      fun j _ b _ h => (lock j).trans h, fun j _ b hb h => ?_, fun _ _ h => h,
      fun _ _ _ _ _ h => h⟩
    · have hj : j ≠ i := by
        rintro rfl
        exact hb (Option.some.inj (h.symm.trans hi))
      exact congrArg Inode.mtime ((inode j).trans (if_neg hj))
  have st := ok.stamps.touch hin hn
  refine ok.step fr (st.of_same (.inl rfl) rfl (fun _ => rfl) fun _ => rfl) ?_ ?_
    fun _ => by rw [setProc_self]; exact fr.knows kn
  · refine ok.dead.step (a := a) proc_setProc (fun j hj h => ⟨hj, .inl h⟩) ?_ ?_ ?_
    · intro j hj h
      have h : ((s.setInode i { s.inode i with mtime := (s.inode n).born }).inode j).mtime =
        ((s.setInode i { s.inode i with mtime := (s.inode n).born }).inode j).born := h
      rw [inode] at h
      split at h
      · next e => exact absurd (ok.stamps.born n hn i (Nat.lt_trans hin hn) h) (by omega)
      · exact h
    · intro j h hm
      rw [hp] at h
      obtain rfl : i = j := h
      have hm : ((s.setInode i { s.inode i with mtime := (s.inode n).born }).inode i).mtime =
        ((s.setInode i { s.inode i with mtime := (s.inode n).born }).inode i).born := hm
      rw [inode, if_pos rfl] at hm
      exact absurd (ok.stamps.born n hn i (Nat.lt_trans hin hn) hm) (by omega)
    · intro j h; rw [setProc_self, hpc] at h; exact h.elim
  · rw [setProc_self]
    unfold At
    rw [hpc]
    refine ⟨hin, hn, ?_, ?_⟩
    · exact (lock i).trans hi
    · exact (lock n).trans hln

omit [DecidableEq T] in
theorem Ok.unlink (ok : Ok s) (hfree : ∀ i, s.name = some i → ∀ b, ¬ (s.proc b).pc.holds i)
    (hr : ∀ i, ¬ (s.proc a).pc.replaces i) (kn : Knows s p) (hp : p.pc = .idle) :
    Ok (({ s with name := none } : State P C T).setProc a p) := by
  have fr : Frame a s (({ s with name := none } : State P C T).setProc a p) := by
    refine ⟨proc_setProc (s := { s with name := none }), Nat.le_refl _, fun _ _ => rfl,
      fun _ _ => rfl, fun _ _ _ _ h => h, fun _ _ _ _ _ => rfl, fun _ _ h => ?_, ?_⟩
    · cases h
    · intro i b _ hh _ hn; exact absurd hh (hfree i hn b)
  have hpa : ∀ j, ¬ p.pc.holds j := by intro j h; rw [hp] at h; exact h
  refine ok.step fr (ok.stamps.of_same (.inr rfl) rfl (fun _ => rfl) fun _ => rfl) ?_ ?_
    fun _ => by rw [setProc_self]; exact fr.knows kn
  · refine ok.dead.step (a := a) fr.proc ?_ (fun _ _ h => h) ?_ ?_
    · intro j hj _
      by_cases h : s.name = some j
      · refine ⟨hj, .inr (.inr fun b hb => ?_)⟩
        by_cases hab : b = a
        · subst hab; rw [setProc_self] at hb; exact hpa j hb
        · rw [fr.proc b hab] at hb; exact hfree j h b hb
      · exact ⟨hj, .inl h⟩
    · intro j h; exact absurd h (hr j)
    · intro j h; rw [setProc_self] at h; exact absurd h (hpa j)
  · rw [setProc_self]; unfold At; rw [hp]; trivial

end Changes

/-! ## Steps -/

section Steps

variable {empty : C} {s s' : State P C T} {a : P}

omit [DecidableEq P] [DecidableEq T] in
theorem Knows.goto {p : Proc C T} (h : Knows s p) (hp : p.pc ≠ .reading) (pc : Pc) (r : Bool) :
    Knows s { p with pc := pc, removalNeeded := r } := by
  refine ⟨h.1, fun hm => (h.2 hm).imp_right ?_⟩
  rintro ⟨j, hj, ht, hs⟩
  exact ⟨j, hj, ht, .inr (hs.resolve_left hp)⟩

/-- A place from which a process may close what it has open. -/
structure Pc.Settled (pc : Pc) : Prop where
  reading : pc ≠ .reading
  replaces : ∀ i, ¬ pc.replaces i

/-- A place where a process has nothing open. -/
def Pc.free : Pc → Prop
  | .idle | .removal | .undo _ => True
  | _ => False

theorem Pc.free.holds {pc : Pc} (h : pc.free) (i : ℕ) : ¬ pc.holds i := by
  intro h'
  cases pc with
  | opened | locked | prepared => exact h.elim
  | _ => exact h'.elim

omit [DecidableEq P] [DecidableEq T] in
theorem Pc.free.place {p : Proc C T} (h : p.pc.free) : At s a p := by
  unfold At
  cases e : p.pc <;> rw [e] at h
  case idle | removal | undo => trivial
  all_goals exact h.elim

omit [DecidableEq P] [DecidableEq T] in
theorem Ok.known (ok : Ok s) {pc : Pc} (h : (s.proc a).pc = pc)
    (hpc : ∀ i n, pc ≠ .renamed i n) : Knows s (s.proc a) :=
  ok.knows a (h.symm ▸ hpc)

omit [DecidableEq P] [DecidableEq T] in
theorem Ok.place (ok : Ok s) {pc : Pc} (h : (s.proc a).pc = pc) :
    At s a { s.proc a with pc := pc } := by
  have := ok.places a
  rwa [← h]

omit [DecidableEq P] [DecidableEq T] in
theorem Pc.Settled.known {pc : Pc} (hq : pc.Settled) (ok : Ok s) (h : (s.proc a).pc = pc) (pc' : Pc)
    (r : Bool) : Knows s { s.proc a with pc := pc', removalNeeded := r } := by
  refine (ok.known h fun i n e => ?_).goto (h ▸ hq.reading) _ _
  subst e
  exact hq.replaces i rfl

omit [DecidableEq T] in
theorem Ok.leave (ok : Ok s) {pc : Pc} (h : (s.proc a).pc = pc) (hq : pc.Settled) (pc' : Pc)
    (hf : pc'.free) (r : Bool) :
    Ok (s.setProc a { s.proc a with pc := pc', removalNeeded := r }) :=
  ok.setProc (Pc.free.place hf) (fun _ => hq.known ok h pc' r)
    (fun i hr => absurd hr (h ▸ hq.replaces i)) fun i hh => absurd hh (hf.holds i)

omit [DecidableEq T] in
theorem Ok.unlock (ok : Ok s) {pc : Pc} (h : (s.proc a).pc = pc) (hq : pc.Settled) {i : ℕ}
    (hl : (s.inode i).lock = some a) (pc' : Pc) (hf : pc'.free) :
    Ok ((s.setLock i none).goto a pc') :=
  ok.setLock none (.inr hl) (Pc.free.place hf) (hq.known ok h pc' _) (fun j => h ▸ hq.replaces j)
    fun j hh => absurd hh (hf.holds j)

theorem settled_idle : Pc.idle.Settled := ⟨nofun, fun _ => id⟩

theorem stat_ok (ok : Ok s) (h : s.stat a = some s') : Ok s' := by
  unfold State.stat at h
  split at h
  · next hp hn =>
    cases h
    refine ok.setProc ?_ (fun _ => ⟨fun _ => ⟨rfl, rfl⟩, nofun⟩) ?_ ?_
    · exact Pc.free.place (by rw [hp]; trivial)
    · exact fun _ h => h
    · exact fun _ h => .inl h
  · next i hp hn =>
    have hk := ok.known hp fun _ _ e => by cases e
    split at h <;> cases h
    · next ht =>
      refine ok.setProc ?_ (fun _ => ⟨nofun, fun _ => ?_⟩) ?_ ?_
      · exact Pc.free.place (by rw [hp]; trivial)
      · cases hm : (s.proc a).isMissing with
        | true => exact .inl (hk.1 hm).2
        | false => exact hk.2 hm
      · exact fun _ h => h
      · exact fun _ h => .inl h
    · refine ok.setProc rfl (fun _ => ⟨nofun, fun _ => .inr ⟨i, ?_, ?_, .inl rfl⟩⟩) ?_ ?_
      · have := ok.stamps.last i hn
        omega
      · exact congrArg some (ok.stamps.named i hn)
      · intro j h
        exact absurd h (hp ▸ settled_idle.replaces j)
      · exact fun _ h => h.elim
  · cases h

omit [DecidableEq T] in
theorem read_ok (ok : Ok s) (h : s.read a = some s') : Ok s' := by
  unfold State.read at h
  split at h
  · next hp hn =>
    cases h
    have hk := ok.known hp fun _ _ e => by cases e
    refine ok.setProc (Pc.free.place trivial) (fun _ => ⟨hk.1, fun hm => (hk.2 hm).imp_right ?_⟩) ?_ ?_
    · rintro ⟨j, hj, ht, -⟩
      exact ⟨j, hj, ht, .inr (.inr (by rw [hn]; nofun))⟩
    · intro j h
      rw [hp] at h
      exact h.elim
    · exact fun _ h => h.elim
  · next i hp hn =>
    cases h
    have hk := ok.known hp fun _ _ e => by cases e
    have hm : (s.proc a).isMissing = false := ok.place hp
    refine ok.setProc (Pc.free.place trivial)
      (fun _ => ⟨fun h => ?_, fun _ => (hk.2 hm).imp_right ?_⟩) ?_ ?_
    · rw [hm] at h; cases h
    · -- either the file is the one of the time stamp, or that one lost its name
      rintro ⟨j, hj, ht, -⟩
      refine ⟨j, hj, ht, .inr ?_⟩
      by_cases hij : i = j
      · subst hij; exact .inl rfl
      · right
        rw [hn]
        exact fun e => hij (Option.some.inj e)
    · intro j h
      rw [hp] at h
      exact h.elim
    · exact fun _ h => h.elim
  · cases h

theorem create_ok (ok : Ok s) (hn : s.name = none) (hm : (s.proc a).isMissing = true) {pc : Pc}
    (h : (s.proc a).pc = pc) (hq : pc.Settled) {m : T} (hf : s.fresh m = true) :
    Ok ((s.link (newInode empty m)).setProc a
      { s.proc a with pc := .opened s.next true, removalNeeded := true }) := by
  have hk := hq.known ok h (.opened s.next true) true
  have ht : (s.proc a).mtime = none := (hk.1 hm).2
  refine ok.link rfl hf ?_ ?_ (fun _ => hk) (fun i => h ▸ hq.replaces i) ?_
  · intro i h; rw [hn] at h; cases h
  · refine ⟨Nat.lt_succ_self _, hm, fun j _ h => ?_⟩
    rw [ht] at h; cases h
  · intro i h; exact h.symm

theorem openFile_ok (ok : Ok s) {m : T} (h : s.openFile empty a m = some s') : Ok s' := by
  unfold State.openFile at h
  split at h
  · next hp _ hm hn =>
    split at h <;> cases h
    next hf => exact create_ok ok hn hm hp settled_idle hf
  · next i hp _ hm hn =>
    cases h
    have hi := ok.stamps.last i hn
    refine ok.setProc ⟨by omega, hm, fun j hj _ => ?_⟩ (fun _ => settled_idle.known ok hp _ _) ?_ ?_
    · show j ≤ i
      omega
    · intro j h
      exact absurd h (hp ▸ settled_idle.replaces j)
    · intro j h
      obtain rfl : i = j := h
      exact .inr hn
  · next hp _ _ _ =>
    cases h
    have := ok.leave hp settled_idle .idle trivial false
    rwa [← hp] at this
  · cases h

omit [DecidableEq T] in
theorem openFails_ok (ok : Ok s) (h : s.openFails a = some s') : Ok s' := by
  unfold State.openFails at h
  split at h
  · next hp hm hn =>
    cases h
    refine ok.setProc hm (fun _ => settled_idle.known ok hp _ _) ?_ ?_
    · intro j h
      exact absurd h (hp ▸ settled_idle.replaces j)
    · exact fun _ h => h.elim
  · cases h

theorem settled_retry : Pc.retry.Settled := ⟨nofun, fun _ => id⟩

theorem createFile_ok (ok : Ok s) {m : T} (fits : Fits s a (Call.createFile m : Call C T))
    (h : s.createFile empty a m = some s') : Ok s' := by
  unfold State.createFile at h
  split at h
  · next hp hn =>
    split at h <;> cases h
    next hf => exact create_ok ok hn (ok.place hp) hp settled_retry hf
  · next i hp hn => rw [show s.name = none from fits] at hn; cases hn
  · cases h

omit [DecidableEq T] in
theorem createFails_ok (ok : Ok s) (h : s.createFails a = some s') : Ok s' := by
  unfold State.createFails at h
  split at h
  · next hp =>
    cases h
    exact ok.leave hp settled_retry .idle trivial _
  · cases h

theorem settled_opened (i : ℕ) (c : Bool) : (Pc.opened i c).Settled := ⟨nofun, fun _ => id⟩

omit [DecidableEq T] in
theorem lockFile_ok (ok : Ok s) (fits : Fits s a (.lockFile : Call C T))
    (h : s.lockFile a = some s') : Ok s' := by
  unfold State.lockFile at h
  split at h
  · next i c hp =>
    have hq := settled_opened i c
    have ho : Opens s (s.proc a) i c := ok.place hp
    split at h <;> cases h
    · next hl =>
      refine ok.setLock (some a) (.inl hl) ⟨?_, ?_, ?_⟩ (hq.known ok hp _ _)
        (fun j => hp ▸ hq.replaces j) ?_
      · have hb : ∀ j, ((s.setLock i (some a)).inode j).born = (s.inode j).born :=
          setInode_data Inode.born rfl
        exact ⟨ho.1, ho.2.1, fun j hj ht => ho.2.2 j hj (Eq.trans ht (congrArg some (hb j)))⟩
      · rw [State.setLock, inode_setInode, if_pos rfl]
      · intro hc; exact fits i (hc ▸ hp)
      · intro j h; rw [hp]; exact h
    · exact ok.leave hp hq .idle trivial _
  · cases h

omit [DecidableEq P] [DecidableEq T] in
/-- A time stamp that is known, and is the one of an inode: this inode is known, and is untouched. -/
theorem Ok.untouched (ok : Ok s) {p : Proc C T} (hk : Knows s p) {i : ℕ} (hi : i < s.next)
    (hle : ∀ j < s.next, p.mtime = some (s.inode j).born → j ≤ i) (hm : p.isMissing = false)
    (ht : p.mtime = some (s.inode i).mtime) :
    (s.inode i).mtime = (s.inode i).born ∧
      (p.pc = .reading ∨ p.seen = some (s.inode i).content ∨ s.name ≠ some i) := by
  rcases hk.2 hm with h0 | ⟨j, hj, hjt, hs⟩
  · rw [h0] at ht; cases ht
  · have hij : (s.inode i).mtime = (s.inode j).born := Option.some.inj (ht.symm.trans hjt)
    have hji : j ≤ i := hle j hj hjt
    rcases ok.stamps.touched i hi with h | ⟨n, hin, hn, h⟩
    · obtain rfl := ok.stamps.born j hj i hi (hij.symm.trans h)
      exact ⟨h, hs⟩
    · have := ok.stamps.born n hn j hj (h.symm.trans hij)
      omega

omit [DecidableEq P] [DecidableEq T] in
/-- An inode that a process has locked and nobody touched has the name. -/
theorem Ok.has_name (ok : Ok s) {i : ℕ} {c : Bool} (hp : (s.proc a).pc = .locked i c)
    (ht : (s.inode i).mtime = (s.inode i).born) : s.name = some i := by
  have hl : Opens s (s.proc a) i c ∧ (s.inode i).lock = some a ∧ (c = true → s.name = some i) :=
    ok.place hp
  by_contra hn
  rcases ok.dead i hl.1.1 hn ht with ⟨b, hb⟩ | hb
  · -- who replaced it has the lock
    have hlock : (s.inode i).lock = some b := by
      have pl := ok.places b
      unfold At at pl
      cases e : (s.proc b).pc <;> rw [e] at hb pl
      case renamed | stamped => obtain rfl : _ = i := hb; exact pl.1.2.2.1
      all_goals exact hb.elim
    obtain rfl : b = a := Option.some.inj (hlock.symm.trans hl.2.1)
    rw [hp] at hb
    exact hb
  · exact hb a (by rw [hp]; rfl)

theorem settled_locked (i : ℕ) (c : Bool) : (Pc.locked i c).Settled := ⟨nofun, fun _ => id⟩

theorem checkConflict_ok (ok : Ok s) (h : s.checkConflict a = some s') : Ok s' := by
  unfold State.checkConflict at h
  split at h
  · next i c hp =>
    have hq := settled_locked i c
    have hk := ok.known hp fun _ _ e => by cases e
    have hl : Opens s (s.proc a) i c ∧ (s.inode i).lock = some a ∧ (c = true → s.name = some i) :=
      ok.place hp
    have hmc : (s.proc a).isMissing = c := hl.1.2.1
    split at h <;> cases h
    · next ht =>
      refine ok.setProc ?_ (fun _ => hq.known ok hp _ _) ?_ ?_
      · show i < s.next ∧ _ ∧ s.name = some i ∧ (s.proc a).seen = _
        refine ⟨hl.1.1, hl.2.1, ?_⟩
        cases c with
        | true => exact ⟨hl.2.2 rfl, (hk.1 hmc).1⟩
        | false =>
          rw [hmc, Bool.false_or, decide_eq_true_eq] at ht
          obtain ⟨hu, hs⟩ := ok.untouched hk hl.1.1 hl.1.2.2 hmc ht
          have hn := ok.has_name hp hu
          exact ⟨hn, (hs.resolve_left (hp ▸ hq.reading)).resolve_right fun h => h hn⟩
      · intro j h
        exact absurd h (hp ▸ hq.replaces j)
      · intro j h; rw [hp]; exact .inl h
    · exact ok.unlock hp hq hl.2.1 .idle trivial
  · cases h

theorem settled_prepared (i : ℕ) (c : Bool) : (Pc.prepared i c).Settled := ⟨nofun, fun _ => id⟩

theorem rename_ok (ok : Ok s) {content : C} {m : T} (h : s.rename a content m = some s') : Ok s' := by
  unfold State.rename at h
  split at h
  · next i c hp =>
    split at h <;> cases h
    next hf =>
    have hl : i < s.next ∧ (s.inode i).lock = some a ∧ s.name = some i ∧ _ := ok.place hp
    refine ok.link (f := ⟨content, m, m, some a⟩) rfl hf ?_ ?_ ?_ ?_ ?_
    · intro j hj
      rw [hl.2.2.1] at hj
      cases hj
      exact ⟨hl.2.1, rfl⟩
    · have new : (s.link ⟨content, m, m, some a⟩).inode s.next = ⟨content, m, m, some a⟩ := by
        rw [inode_link, if_pos rfl]
      refine ⟨⟨hl.1, Nat.lt_succ_self _, ?_, by rw [new]⟩, by rw [new], by rw [new]⟩
      rw [inode_link, if_neg (by omega)]
      exact hl.2.1
    · intro h; exact absurd rfl (h i s.next)
    · exact fun j => hp ▸ (settled_prepared i c).replaces j
    · exact fun _ h => h.elim
  · cases h

omit [DecidableEq T] in
theorem fstat_ok (ok : Ok s) (h : s.fstat a = some s') : Ok s' := by
  unfold State.fstat at h
  split at h
  · next i n hp =>
    cases h
    have hc : Commits s a i n ∧ (s.proc a).seen = some (s.inode n).content ∧
      (s.inode n).mtime = (s.inode n).born := ok.place hp
    refine ok.setProc ⟨hc.1, congrArg some hc.2.2⟩ (fun _ => ⟨nofun, fun _ => .inr ?_⟩) ?_ ?_
    · exact ⟨n, hc.1.2.1, congrArg some hc.2.2, .inr (.inl hc.2.1)⟩
    · intro j h; rw [hp] at h; exact h
    · exact fun _ h => h.elim
  · cases h

omit [DecidableEq T] in
theorem futimens_ok (ok : Ok s) (h : s.futimens a = some s') : Ok s' := by
  unfold State.futimens at h
  split at h
  · next i n m hp hm =>
    cases h
    have hc : Commits s a i n ∧ (s.proc a).mtime = some (s.inode n).born := ok.place hp
    obtain rfl : (s.inode n).born = m := Option.some.inj (hc.2.symm.trans hm)
    exact ok.touch hc.1 hp ((ok.known hp fun _ _ e => by cases e).goto (by rw [hp]; nofun) _ _) rfl
  · cases h

theorem settled_touched (i n : ℕ) : (Pc.touched i n).Settled := ⟨nofun, fun _ => id⟩

omit [DecidableEq T] in
theorem unlockOld_ok (ok : Ok s) (h : s.unlockOld a = some s') : Ok s' := by
  unfold State.unlockOld at h
  split at h
  · next i n hp =>
    cases h
    have hq := settled_touched i n
    have hc : Commits s a i n := ok.place hp
    refine ok.setLock none (.inr hc.2.2.1) ⟨hc.2.1, ?_⟩ (hq.known ok hp _ _)
      (fun j => hp ▸ hq.replaces j) fun _ h => h.elim
    have hin := hc.1
    rw [State.setLock, inode_setInode, if_neg (by omega)]
    exact hc.2.2.2
  · cases h

omit [DecidableEq T] in
theorem unlockNew_ok (ok : Ok s) (h : s.unlockNew a = some s') : Ok s' := by
  unfold State.unlockNew at h
  split at h
  · next n hp =>
    cases h
    have hl : n < s.next ∧ (s.inode n).lock = some a := ok.place hp
    exact ok.unlock hp ⟨nofun, fun _ => id⟩ hl.2 .idle trivial
  · cases h

omit [DecidableEq T] in
theorem startRemoval_ok (ok : Ok s) (h : s.startRemoval a = some s') : Ok s' := by
  unfold State.startRemoval at h
  split at h
  · next hp _ =>
    cases h
    exact ok.leave hp settled_idle .removal trivial _
  · cases h

theorem settled_removal : Pc.removal.Settled := ⟨nofun, fun _ => id⟩

omit [DecidableEq T] in
theorem unlink_ok (ok : Ok s) (fits : Fits s a (.unlink : Call C T)) (h : s.unlink a = some s') :
    Ok s' := by
  unfold State.unlink at h
  split at h
  · next hp =>
    cases h
    exact ok.unlink (fun i hi => (fits i hi).2.2) (fun i => hp ▸ settled_removal.replaces i)
      (settled_removal.known ok hp _ _) rfl
  · cases h

omit [DecidableEq T] in
theorem rollback_ok (ok : Ok s) (h : s.rollback a = some s') : Ok s' := by
  unfold State.rollback at h
  split at h
  · next i c hp =>
    cases h
    have hl : i < s.next ∧ (s.inode i).lock = some a ∧ s.name = some i ∧ _ := ok.place hp
    refine ok.unlock hp (settled_prepared i c) hl.2.1 _ ?_
    cases (s.proc a).removalNeeded <;> trivial
  · next hp =>
    cases h
    exact ok.leave hp settled_removal .idle trivial _
  · cases h

omit [DecidableEq T] in
theorem unlinkCreated_ok (ok : Ok s) (fits : Fits s a (.unlinkCreated : Call C T))
    (h : s.unlinkCreated a = some s') : Ok s' := by
  unfold State.unlinkCreated at h
  split at h
  · next i hp =>
    cases h
    have hq : (Pc.undo i).Settled := ⟨nofun, fun _ => id⟩
    exact ok.unlink (fun i hi => (fits i hi).2) (fun j => hp ▸ hq.replaces j) (hq.known ok hp _ _) rfl
  · cases h

theorem step_ok (ok : Ok s) {c : Call C T} (fits : Fits s a c) (h : step empty s a c = some s') :
    Ok s' := by
  cases c with
  | stat => exact stat_ok ok h
  | read => exact read_ok ok h
  | openFile m => exact openFile_ok ok h
  | openFails => exact openFails_ok ok h
  | createFile m => exact createFile_ok ok fits h
  | createFails => exact createFails_ok ok h
  | lockFile => exact lockFile_ok ok fits h
  | checkConflict => exact checkConflict_ok ok h
  | rename content m => exact rename_ok ok h
  | fstat => exact fstat_ok ok h
  | futimens => exact futimens_ok ok h
  | unlockOld => exact unlockOld_ok ok h
  | unlockNew => exact unlockNew_ok ok h
  | startRemoval => exact startRemoval_ok ok h
  | unlink => exact unlink_ok ok fits h
  | rollback => exact rollback_ok ok h
  | unlinkCreated => exact unlinkCreated_ok ok fits h

/-! ## Safety of every run -/

omit [DecidableEq P] [DecidableEq T] in
theorem Initial.ok (h : Initial s) : Ok s where
  stamps := by
    rcases h.file with ⟨hn, hx⟩ | ⟨hn, hx, hm, -⟩
    · refine ⟨?_, ?_, ?_, ?_⟩ <;> intro i hi
      · rw [hn] at hi; cases hi
      · omega
      · rw [hn] at hi; cases hi
      · omega
    · have zero : ∀ i, s.name = some i → i = 0 := by
        intro i hi; rw [hn] at hi; cases hi; rfl
      refine ⟨fun i hi => ?_, fun i hi j hj _ => ?_, fun i hi => ?_, fun i hi => .inl ?_⟩
      · rw [zero i hi, hx]
      · omega
      · rw [zero i hi]; exact hm
      · obtain rfl : i = 0 := by omega
        exact hm
  dead i _ _ _ := by
    right
    intro b hb
    rw [(h.proc b).1] at hb
    exact hb
  places b := by unfold At; rw [(h.proc b).1]; trivial
  knows b _ := by
    refine ⟨fun hm => ?_, fun _ => .inl (h.proc b).2.2⟩
    rw [(h.proc b).2.1] at hm; cases hm

/-- A rename replaces the file that passed the check, a removal removes the file of the time stamp. -/
theorem step_safe (ok : Ok s) {c : Call C T} (fits : Fits s a c) (h : step empty s a c = some s') :
    Safe s a c := by
  cases c <;> try exact trivial
  case rename content m =>
    change s.rename a content m = some s' at h
    unfold State.rename at h
    split at h
    · next i c hp =>
      have hl : i < s.next ∧ (s.inode i).lock = some a ∧ s.name = some i ∧
        (s.proc a).seen = if c then none else some (s.inode i).content := ok.place hp
      show replaced s a = (s.proc a).seen
      rw [replaced, hl.2.2.1, hl.2.2.2]
      show (if (s.proc a).pc = .prepared i true then none else some (s.inode i).content) = _
      cases c <;> simp [hp]
    · cases h
  case unlink =>
    change s.unlink a = some s' at h
    unfold State.unlink at h
    split at h
    · next hp =>
      cases hn : s.name with
      | none => exact .inl hn
      | some i =>
        obtain ⟨hm, ht, -⟩ := fits i hn
        have hi := ok.stamps.last i hn
        have hs := (ok.untouched (ok.known hp fun _ _ e => by cases e) (by omega) (by omega) hm ht).2
        have hs := (hs.resolve_left (hp ▸ settled_removal.reading)).resolve_right fun h => h hn
        right
        rw [replaced, hn, hs]
        show (if (s.proc a).pc = .prepared i true then none else some (s.inode i).content) = _
        rw [hp]
        rfl
    · cases h

theorem ok_safe {cs : List (P × Call C T)} (ok : Ok s) (h : Along empty Fits s cs) :
    Along empty Safe s cs := by
  induction cs generalizing s with
  | nil => trivial
  | cons c cs ih =>
    intro s' hs
    obtain ⟨fits, hcs⟩ := h s' hs
    exact ⟨step_safe ok fits hs, ih (step_ok ok fits hs) hcs⟩

/-- **No update is lost.** In every run outside of the gaps, each commit replaces or removes what its
process saw. -/
theorem commit_safe (h : Initial s) {cs : List (P × Call C T)} (fits : Along empty Fits s cs) :
    Along empty Safe s cs :=
  ok_safe h.ok fits

end Steps

/-! ## Two processes -/

/-- A file with content 1 and time stamp 1. -/
def start : State Bool ℕ ℕ where
  name := some 0
  next := 1
  inode _ := ⟨1, 1, 1, none⟩
  proc _ := ⟨.idle, false, none, false, none⟩

theorem start_initial : Initial start :=
  ⟨.inr ⟨rfl, rfl, rfl, rfl⟩, fun _ => ⟨rfl, rfl, rfl⟩⟩

/-- A get, and the calls of a set that writes. -/
def getWrite (content m : ℕ) : List (Call ℕ ℕ) :=
  [.stat, .read, .openFile m, .lockFile, .checkConflict, .rename content m, .fstat, .futimens,
    .unlockOld, .unlockNew]

theorem commit_safe_write : Along 0 Safe start ((getWrite 2 2).map (Prod.mk true)) := by
  apply commit_safe start_initial
  simp [getWrite, Along, Fits, step, start, State.stat, State.read, State.openFile, State.lockFile,
    State.checkConflict, State.rename, State.fstat, State.futimens, State.unlockOld, State.unlockNew,
    State.setProc, State.goto, State.setLock, State.setInode, State.link, State.fresh, newInode, Proc.got]

/-- Both see the content 1; one writes the content 2, and the other one removes the file. -/
def lost : List (Bool × Call ℕ ℕ) :=
  [(false, .stat), (false, .read)] ++ (getWrite 2 2).map (Prod.mk true) ++
    [(false, .startRemoval), (false, .unlink)]

theorem not_commit_safe : Initial start ∧ ¬ Along 0 Safe start lost := by
  refine ⟨start_initial, ?_⟩
  simp [lost, getWrite, Along, Safe, replaced, step, start, State.stat, State.read, State.openFile,
    State.lockFile, State.checkConflict, State.rename, State.fstat, State.futimens, State.unlockOld,
    State.unlockNew, State.startRemoval, State.unlink, State.setProc, State.goto, State.setLock,
    State.setInode, State.link, State.fresh, newInode, Proc.got, Function.update_apply]

end Elektra.Resolver.Protocol
