import Mathlib.Data.Int.Notation
import Mathlib.Tactic.Common

/-!
# The resolver of one process

One configuration file, the handle of the resolver for it, and the locks. The functions follow the
source; which of their system calls fail is part of their input. Calls on an open descriptor succeed.

* `File`, `Handle`, `State`;
* `get`, `elektraOpenFile`, `elektraCreateFile`, `elektraSetPrepare`, `elektraSetCommit`, `set`,
  `error`;
* `Cycle`, `cycle`: a complete `kdbGet` or `kdbSet`.
-/

namespace Elektra.Resolver

/-- `struct timespec` -/
structure Timespec where
  sec : ℤ
  nsec : ℤ
  deriving DecidableEq, Repr

structure File where
  content : List UInt8
  mtime : Timespec
  deriving DecidableEq, Repr

/-- `pk->fd`: `-1`, `-2` (the file is to be removed), or a descriptor. -/
inductive Fd
  | none
  | removal
  | opened
  deriving DecidableEq, Repr

/-- `resolverHandle`, as far as it is about the phases. -/
structure Handle where
  fd : Fd
  mtime : Timespec
  removalNeeded : Bool
  isMissing : Bool
  timeFix : ℤ
  deriving DecidableEq, Repr

/-- `file` is what `pk->filename` names, `dir` says whether its directory exists; `mutex` and `locks`
count how often the mutex and a file lock were acquired, less how often they were released. -/
structure State where
  file : Option File
  dir : Bool
  pk : Handle
  mutex : ℤ
  locks : ℤ
  deriving DecidableEq, Repr

/-- `resolverInit` -/
def resolverInit : Handle :=
  { fd := .none, mtime := ⟨0, 0⟩, removalNeeded := false, isMissing := false, timeFix := 1 }

/-! ## get -/

def get (s : State) : State × ℤ :=
  match s.file with
  | none => ({ s with pk := { s.pk with mtime := ⟨0, 0⟩, isMissing := true } }, 0)
  | some f =>
    if s.pk.mtime = f.mtime then ({ s with pk := { s.pk with isMissing := false } }, 0)
    else ({ s with pk := { s.pk with isMissing := false, mtime := f.mtime } }, 1)

/-! ## The first phase of set -/

/-- The errors of the first phase. -/
inductive PrepareError
  /-- "was there earlier, now it is missing" -/
  | nowMissing
  /-- "No configuration file was there earlier, now configuration file exists" -/
  | nowExists
  /-- "conflict, file modification time stamp is different than our time stamp" -/
  | timeStamp
  /-- "conflict because of mutex lock" -/
  | mutex
  /-- "conflict because of file lock" -/
  | lock
  /-- "Could not reopen configuration file" -/
  | reopen
  /-- "Could not create configuration file" -/
  | create
  deriving DecidableEq, Repr

/-- The conflicts that are found on the file itself. -/
def PrepareError.onFile : PrepareError → Bool
  | nowMissing | nowExists | timeStamp => true
  | _ => false

/-- Which calls of the first phase fail, and the time stamp of a file that is created. -/
structure Prepare where
  openFails : Bool := false
  mkdirFails : Bool := false
  createFails : Bool := false
  mutexFails : Bool := false
  lockFails : Bool := false
  now : Timespec
  deriving DecidableEq, Repr

/-- A descriptor, or the value `-1`. -/
def State.setFd (s : State) (fd : Fd) : State := { s with pk := { s.pk with fd := fd } }

/-- `open` with `O_CREAT` where no file is. -/
def State.create (s : State) (now : Timespec) : State :=
  { s with file := some ⟨[], now⟩, pk := { s.pk with fd := .opened } }

def elektraOpenFile (s : State) (p : Prepare) : State × Option PrepareError :=
  if s.pk.isMissing then
    match s.file with
    | none =>
      if s.dir && !p.openFails then
        let s := s.create p.now
        ({ s with pk := { s.pk with removalNeeded := true } }, none)
      -- errors are ignored, creating the file is tried again later
      else (s.setFd .none, none)
    | some _ => (s.setFd .none, some .nowExists)
  else
    match s.file with
    | none => (s.setFd .none, some .nowMissing)
    | some _ => if p.openFails then (s.setFd .none, some .reopen) else (s.setFd .opened, none)

/-- `elektraMkdirParents` -/
def elektraMkdirParents (s : State) (p : Prepare) : State := { s with dir := s.dir || !p.mkdirFails }

def elektraCreateFile (s : State) (p : Prepare) : State × Option PrepareError :=
  if p.createFails || !s.dir then (s.setFd .none, some .create)
  else
    match s.file with
    | none => (s.create p.now, none)
    | some _ => (s.setFd .opened, none)

/-- No conflict: the file was created, or is as it was at the last get. -/
def elektraCheckConflict (s : State) : Bool :=
  s.pk.isMissing || s.file.all (·.mtime = s.pk.mtime)

/-- The mutex, the file lock, the check for a conflict. -/
def lockAndCheck (s : State) (p : Prepare) : State × Option PrepareError :=
  if p.mutexFails then (s.setFd .none, some .mutex)
  else
    let s := { s with mutex := s.mutex + 1 }
    if p.lockFails then ({ s.setFd .none with mutex := s.mutex - 1 }, some .lock)
    else
      let s := { s with locks := s.locks + 1 }
      if elektraCheckConflict s then (s, none)
      else
        ({ s.setFd .none with locks := s.locks - 1, mutex := s.mutex - 1 }, some .timeStamp)

def elektraSetPrepare (s : State) (p : Prepare) : State × Option PrepareError :=
  let s := { s with pk := { s.pk with removalNeeded := false } }
  match elektraOpenFile s p with
  | (s, some e) => (s, some e)
  | (s, none) =>
    if s.pk.fd = .none then
      match elektraCreateFile (elektraMkdirParents s p) p with
      | (s, some e) => (s, some e)
      | (s, none) => lockAndCheck { s with pk := { s.pk with removalNeeded := true } } p
    else lockAndCheck s p

/-! ## The second phase of set -/

/-- What the storage plugin wrote to the temporary file, and which calls of the commit succeed. -/
structure Commit where
  content : List UInt8
  mtime : Timespec
  tempOpens : Bool := true
  renames : Bool := true
  clock : Timespec
  deriving DecidableEq, Repr

def elektraModifyFileTime (pk : Handle) (ts : Timespec) : Handle :=
  let (sec, timeFix) :=
    if ts.sec = pk.mtime.sec then (pk.mtime.sec + pk.timeFix, -pk.timeFix) else (ts.sec, pk.timeFix)
  let nsec := if ts.nsec = pk.mtime.nsec then pk.mtime.nsec + timeFix else ts.nsec
  { pk with mtime := ⟨sec, nsec⟩, timeFix := timeFix }

/-- The time stamp of the handle is that of the temporary file, or one that is new for both. -/
def commitTime (pk : Handle) (c : Commit) : Handle :=
  if pk.mtime ≠ c.mtime then { pk with mtime := c.mtime } else elektraModifyFileTime pk c.clock

/-- The file that is named after the commit: the temporary file if it was renamed, the one that
`pk->fd` is open on if not; both get the time stamp of the handle, the temporary file if it is open. -/
def commitFile (s : State) (c : Commit) (pk : Handle) : Option File :=
  if c.renames then some ⟨c.content, if c.tempOpens then pk.mtime else c.mtime⟩
  else s.file.map fun f => { f with mtime := pk.mtime }

def elektraSetCommit (s : State) (c : Commit) : State × ℤ :=
  let ret : ℤ := if c.tempOpens && c.renames then 0 else -1
  let locks := if c.tempOpens then s.locks + 1 else s.locks
  let pk := if c.tempOpens then commitTime s.pk c else s.pk
  let file := commitFile s c pk
  -- file is present now!
  let pk := { pk with isMissing := false }
  let locks := if c.tempOpens then locks - 1 - 1 else locks - 1
  ({ s with file := file, pk := pk, mutex := s.mutex - 1, locks := locks }, ret)

/-- `elektraRemoveConfigurationFile` -/
def elektraRemoveConfigurationFile (s : State) : State := { s with file := none }

/-- `set` in its first phase: `1` or `0` for a file that is to be written or removed. -/
def setFirst (s : State) (empty : Bool) (p : Prepare) : State × Option PrepareError :=
  if empty then (s.setFd .removal, none) else elektraSetPrepare s p

/-- `set` in its second phase, and what it returns. -/
def setSecond (s : State) (c : Commit) : State × ℤ :=
  match s.pk.fd with
  | .removal => ((elektraRemoveConfigurationFile s).setFd .none, 1)
  | _ =>
    let r := elektraSetCommit s c
    (r.1.setFd .none, if r.2 = -1 then -1 else 1)

/-! ## error -/

def error (s : State) : State :=
  match s.pk.fd with
  | .removal => s.setFd .none
  | .none => s.setFd .none
  | .opened =>
    let file := if s.pk.removalNeeded then none else s.file
    { s.setFd .none with file := file, locks := s.locks - 1, mutex := s.mutex - 1 }

/-! ## Cycles -/

/-- What happens after the first phase: a failure elsewhere and the rollback, or the commit. -/
inductive After
  | rolledBack
  | committed (c : Commit)

/-- A complete `kdbGet` or `kdbSet`, as far as this resolver is called. `empty` says that no key is
left for the backend; `other` is a `kdbSet` that fails before this resolver is called. -/
inductive Cycle
  | get
  | set (empty : Bool) (p : Prepare) (after : After)
  | other

/-- How a cycle ended. -/
inductive Outcome
  | done
  | rolledBack
  | commitFailed
  | prepareFailed (e : PrepareError)
  deriving DecidableEq, Repr

def cycle (s : State) : Cycle → State × Outcome
  | .get => ((get s).1, .done)
  | .set empty p after =>
    match setFirst s empty p with
    | (s, some e) => (error s, .prepareFailed e)
    | (s, none) =>
      match after with
      | .rolledBack => (error s, .rolledBack)
      | .committed c =>
        let r := setSecond s c
        (r.1, if r.2 = -1 then .commitFailed else .done)
  | .other => (error s, .rolledBack)

end Elektra.Resolver
