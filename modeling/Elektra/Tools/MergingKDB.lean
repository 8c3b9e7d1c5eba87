import Mathlib.Data.Fintype.Basic
import Mathlib.Data.Fintype.Pi
import Mathlib.Tactic.Common

/-!
# `MergingKDB`: one client that merges, among others that write

The database is a family of files, one for each backend; each file carries the time stamp by which
the resolver tells whether it was written since this handle last looked. `B` names the backends, `K`
is what one backend holds, and a key set is a function `B → K`.

* `KDB.get`, `KDB.set`: what `kdbGet` and `kdbSet` do to the handle, the files and the key set.
* `step`: `MergingKDB.get` and `MergingKDB.synchronize`, one call of the database at a time, among
  the writes of other clients.
* `seen_content`: what the client last saw is what a file holds that nobody else wrote since.
* **`returned_base`**: after which calls `base` is what the client last saw.
-/

namespace Elektra.Tools.Merging

variable {B K : Type}

/-! ## The database and a handle -/

/-- What the files hold, and a time stamp that changes with every write. -/
structure Database (B K : Type) where
  content : B → K
  version : B → ℕ

/-- The files of the backends in `w` are replaced. -/
def Database.write (d : Database B K) (w : B → Bool) (ks : B → K) : Database B K where
  content b := if w b then ks b else d.content b
  version b := if w b then d.version b + 1 else d.version b

/-- The handle: for each backend the time stamp its resolver remembers. The field `seen` is no data
of the program: it records what this client last read from or wrote to the file. -/
structure Handle (B K : Type) where
  mtime : B → Option ℕ
  seen : B → K

/-- The resolver reports no update: the file is as this handle left it. -/
def Handle.current (h : Handle B K) (d : Database B K) (b : B) : Bool :=
  h.mtime b == some (d.version b)

/-- The backends below the parent key whose files are read. -/
def Handle.rereads (h : Handle B K) (d : Database B K) (scope : B → Bool) (b : B) : Bool :=
  scope b && !h.current d b

/-- What the client has seen of a file after a `kdbGet`. -/
def Handle.sees (h : Handle B K) (d : Database B K) (scope : B → Bool) (b : B) : K :=
  if h.rereads d scope b then d.content b else h.seen b

namespace KDB

/-- `kdbGet` without error: the keys of the backends with an update are replaced, all others stay in
the key set as the application left them. -/
def get (d : Database B K) (h : Handle B K) (scope : B → Bool) (returned : B → K) :
    Handle B K × (B → K) :=
  ({ mtime := fun b => if scope b then some (d.version b) else h.mtime b, seen := h.sees d scope },
    fun b => if h.rereads d scope b then d.content b else returned b)

/-- `kdbGet` with an error: the resolvers in `opened` have looked at their files, no key arrives. -/
def getError (d : Database B K) (h : Handle B K) (opened : B → Bool) : Handle B K :=
  { h with mtime := fun b => if opened b then some (d.version b) else h.mtime b }

/-- The commit of the backends in `w`. -/
def commit (d : Database B K) (h : Handle B K) (w : B → Bool) (ks : B → K) : Handle B K where
  mtime b := if w b then some (d.version b + 1) else h.mtime b
  seen b := if w b then ks b else h.seen b

/-- The prepare phase accepts: no file that is to be written was changed since the last get. -/
def accepts [Fintype B] (d : Database B K) (h : Handle B K) (sync : B → Bool) : Bool :=
  decide (∀ b, sync b = true → h.current d b = true)

end KDB

/-! ## What one call leaves in the handle -/

/-- `kdbGet` replaces what the client last saw: `base` gets it all iff the rest was there already. -/
theorem get_fits {d : Database B K} {h : Handle B K} {scope : B → Bool} {returned : B → K} :
    (KDB.get d h scope returned).2 = (KDB.get d h scope returned).1.seen ↔
      ∀ b, h.rereads d scope b = false → returned b = h.seen b := by
  constructor
  · intro hb b hn
    have h1 := congrFun hb b
    simpa [KDB.get, Handle.sees, hn] using h1
  · intro hf
    funext b
    cases hn : h.rereads d scope b with
    | true => simp [KDB.get, Handle.sees, hn]
    | false => simpa [KDB.get, Handle.sees, hn] using hf b hn

theorem commit_fits {d : Database B K} {h : Handle B K} {w : B → Bool} {ks : B → K} :
    ks = (KDB.commit d h w ks).seen ↔ ∀ b, w b = false → ks b = h.seen b := by
  constructor
  · intro hb b hn
    have h1 := congrFun hb b
    simpa [KDB.commit, hn] using h1
  · intro hf
    funext b
    cases hn : w b with
    | true => simp [KDB.commit, hn]
    | false => simpa [KDB.commit, hn] using hf b hn

/-- The time stamps of the handle are of the past, and a file that was not written since holds what
the client last saw of it. -/
structure Sound (d : Database B K) (h : Handle B K) : Prop where
  le : ∀ b v, h.mtime b = some v → v ≤ d.version b
  seen : ∀ b, h.mtime b = some (d.version b) → h.seen b = d.content b

theorem Sound.write {d : Database B K} {h : Handle B K} (hs : Sound d h) (w : B → Bool)
    (ks : B → K) : Sound (d.write w ks) h where
  le b v hv := by
    have h1 := hs.le b v hv
    simp only [Database.write]
    split_ifs <;> omega
  seen b hv := by
    simp only [Database.write] at hv ⊢
    split_ifs at hv ⊢ with hw
    · have h1 := hs.le b _ hv
      omega
    · exact hs.seen b hv

theorem Sound.get {d : Database B K} {h : Handle B K} (hs : Sound d h) (scope : B → Bool)
    (returned : B → K) : Sound d (KDB.get d h scope returned).1 where
  le b v hv := by
    simp only [KDB.get] at hv
    split_ifs at hv with hb
    · cases hv
      exact le_rfl
    · exact hs.le b v hv
  seen b hv := by
    simp only [KDB.get, Handle.sees] at hv ⊢
    by_cases hm : h.mtime b = some (d.version b)
    · have h1 : h.rereads d scope b = false := by simp [Handle.rereads, Handle.current, hm]
      simpa [h1] using hs.seen b hm
    · have h1 : scope b = true := by
        by_contra hb
        exact hm (by simpa [hb] using hv)
      have h2 : h.rereads d scope b = true := by simp [Handle.rereads, Handle.current, hm, h1]
      simp [h2]

theorem Sound.commit {d : Database B K} {h : Handle B K} (hs : Sound d h) (w : B → Bool)
    (ks : B → K) : Sound (d.write w ks) (KDB.commit d h w ks) where
  le b v hv := by
    simp only [KDB.commit, Database.write] at hv ⊢
    split_ifs at hv ⊢
    · cases hv
      exact le_rfl
    · exact hs.le b v hv
  seen b hv := by
    simp only [KDB.commit, Database.write] at hv ⊢
    split_ifs at hv ⊢
    · rfl
    · exact hs.seen b hv

/-! ## The client -/

/-- Where the client is: outside of any call, or in `synchronize` before its next call of the
database. `written`: `KDB::set` returned. `caught`: an exception was caught. `solved`: the merger
left no conflict. -/
inductive Phase (B K : Type) where
  | idle
  | written (scope : B → Bool) (returned : B → K)
  | caught (scope : B → Bool) (returned : B → K)
  | solved (resultKeys : B → K)

/-- The files, and a `MergingKDB` with its `base`. -/
structure State (B K : Type) where
  db : Database B K
  handle : Handle B K
  base : B → K
  phase : Phase B K

/-- One call of the database by this client, or one write of another. `sync` is the set of backends
below the parent key that `kdbSet` finds changed; an error in the commit leaves those in `part`
written. -/
inductive Action (B K : Type) where
  | other (w : B → Bool) (ks : B → K)
  | get (scope : B → Bool) (returned : B → K)
  | getError (opened : B → Bool)
  | set (scope sync : B → Bool) (returned : B → K)
  | setError (scope sync part : B → Bool) (returned : B → K)
  | setGet
  | setGetError (opened : B → Bool)
  | theirs
  | theirsError (opened : B → Bool)
  | setResult (sync : B → Bool)
  | setResultError (sync part : B → Bool)

variable [Fintype B]

/-- `kdbSet`: refused as a whole when a file to be written was changed by another client. -/
def State.set (s : State B K) (sync : B → Bool) (ks : B → K) : Option (State B K) :=
  if KDB.accepts s.db s.handle sync then
    some { s with db := s.db.write sync ks, handle := KDB.commit s.db s.handle sync ks }
  else none

/-- `kdbSet` that ends with an exception: refused, or the commit stopped on the way. -/
def State.setError (s : State B K) (sync part : B → Bool) (ks : B → K) : State B K :=
  if KDB.accepts s.db s.handle sync then
    let w := fun b => sync b && part b
    { s with db := s.db.write w ks, handle := KDB.commit s.db s.handle w ks }
  else s

/-- One step of `MergingKDB::get` or `MergingKDB::synchronize`, none when the client is elsewhere.
`merge` is `mergeKeySet` of the merger handed in: the merged keys of base, ours and theirs, or none
when a conflict is left. -/
def step (merge : (B → K) → (B → K) → (B → K) → Option (B → K)) (s : State B K) :
    Action B K → Option (State B K)
  | .other w ks => some { s with db := s.db.write w ks }
  | .get scope returned =>
    match s.phase with
    | .idle =>
      let r := KDB.get s.db s.handle scope returned
      some { s with handle := r.1, base := r.2 }
    | _ => none
  | .getError opened =>
    match s.phase with
    | .idle => some { s with handle := KDB.getError s.db s.handle opened }
    | _ => none
  | .set scope sync returned =>
    match s.phase with
    | .idle => (s.set sync returned).map fun s => { s with phase := .written scope returned }
    | _ => none
  | .setError scope sync part returned =>
    match s.phase with
    | .idle => some { s.setError sync part returned with phase := .caught scope returned }
    | _ => none
  | .setGet =>
    match s.phase with
    -- the call returns here: `base` is not touched
    | .written scope returned =>
      some { s with handle := (KDB.get s.db s.handle scope returned).1, phase := .idle }
    | _ => none
  | .setGetError opened =>
    match s.phase with
    -- also this exception is caught
    | .written scope returned =>
      some { s with handle := KDB.getError s.db s.handle opened, phase := .caught scope returned }
    | _ => none
  | .theirs =>
    match s.phase with
    | .caught scope returned =>
      let r := KDB.get s.db s.handle scope returned
      match merge s.base returned r.2 with
      | some resultKeys => some { s with handle := r.1, phase := .solved resultKeys }
      | none => some { s with handle := r.1, phase := .idle }
    | _ => none
  | .theirsError opened =>
    match s.phase with
    | .caught _ _ => some { s with handle := KDB.getError s.db s.handle opened, phase := .idle }
    | _ => none
  | .setResult sync =>
    match s.phase with
    | .solved resultKeys =>
      (s.set sync resultKeys).map fun s => { s with base := resultKeys, phase := .idle }
    | _ => none
  | .setResultError sync part =>
    match s.phase with
    | .solved resultKeys => some { s.setError sync part resultKeys with phase := .idle }
    | _ => none

/-- The steps by which `MergingKDB::get` and `MergingKDB::synchronize` return. -/
def Action.returns : Action B K → Bool
  | .get _ _ | .setGet | .setResult _ => true
  | _ => false

/-- The calls of this client and the writes of the others, in any order. -/
def run (merge : (B → K) → (B → K) → (B → K) → Option (B → K)) (s : State B K)
    (as : List (Action B K)) : Option (State B K) :=
  as.foldlM (step merge) s

/-- A handle just opened: nothing was read, `base` is the empty key set. -/
def State.opened (d : Database B K) (empty : B → K) : State B K where
  db := d
  handle := { mtime := fun _ => none, seen := empty }
  base := empty
  phase := .idle

/-! ## When `base` is right -/

/-- What `base` needs to be right after a step that returns: a `get` finds in the key set handed in,
for every backend that it does not read, what the client last saw; a `synchronize` without conflict
leaves the client with what `base` already holds; a `synchronize` with a conflict that was solved
has, for every backend that it does not write, what the client last saw in the merged keys. -/
def Fits (s : State B K) : Action B K → Prop
  | .get scope returned =>
    ∀ b, s.handle.rereads s.db scope b = false → returned b = s.handle.seen b
  | .setGet =>
    match s.phase with
    | .written scope _ => ∀ b, s.base b = s.handle.sees s.db scope b
    | _ => True
  | .setResult sync =>
    match s.phase with
    | .solved resultKeys => ∀ b, sync b = false → resultKeys b = s.handle.seen b
    | _ => True
  | _ => True

/-! ## One step -/

theorem set_some {s t : State B K} {sync : B → Bool} {ks : B → K} (h : s.set sync ks = some t) :
    t = { s with db := s.db.write sync ks, handle := KDB.commit s.db s.handle sync ks } := by
  unfold State.set at h
  split_ifs at h
  · exact (Option.some.inj h).symm

section Runs

variable {merge : (B → K) → (B → K) → (B → K) → Option (B → K)}

theorem step_base {s t : State B K} {a : Action B K} (h : step merge s a = some t)
    (ha : a.returns = true) : t.base = t.handle.seen ↔ Fits s a := by
  cases a with
  | get scope returned =>
    simp only [step] at h
    split at h
    · cases h
      exact get_fits
    · cases h
  | setGet =>
    simp only [step] at h
    split at h
    · rename_i scope returned hp
      cases h
      simp only [KDB.get, Fits, hp]
      exact funext_iff
    · cases h
  | setResult sync =>
    simp only [step] at h
    split at h
    · rename_i resultKeys hp
      obtain ⟨u, hu, rfl⟩ := Option.map_eq_some_iff.1 h
      have h1 := set_some hu
      subst h1
      simp only [Fits, hp]
      exact commit_fits
    · cases h
  | _ => cases ha

/-! ## What the client last saw is what the files hold -/

/-- No `kdbGet` that ended with an error moved the time stamps of the handle. -/
def Action.quiet : Action B K → Bool
  | .getError _ | .setGetError _ | .theirsError _ => false
  | _ => true

theorem Sound.set {s t : State B K} (hs : Sound s.db s.handle) {sync : B → Bool} {ks : B → K}
    (h : s.set sync ks = some t) : Sound t.db t.handle := by
  rw [set_some h]
  exact hs.commit sync ks

theorem Sound.setError {s : State B K} (hs : Sound s.db s.handle) (sync part : B → Bool)
    (ks : B → K) : Sound (s.setError sync part ks).db (s.setError sync part ks).handle := by
  unfold State.setError
  split_ifs
  · exact hs.commit _ ks
  · exact hs

theorem Sound.step {s t : State B K} (hs : Sound s.db s.handle) {a : Action B K}
    (h : step merge s a = some t) (ha : a.quiet = true) : Sound t.db t.handle := by
  cases a with
  | other w ks =>
    cases h
    exact hs.write w ks
  | get scope returned =>
    simp only [Merging.step] at h
    split at h
    · cases h
      exact hs.get scope returned
    · cases h
  | set scope sync returned =>
    simp only [Merging.step] at h
    split at h
    · obtain ⟨u, hu, rfl⟩ := Option.map_eq_some_iff.1 h
      have h1 := hs.set hu
      exact h1
    · cases h
  | setError scope sync part returned =>
    simp only [Merging.step] at h
    split at h
    · cases h
      exact hs.setError sync part returned
    · cases h
  | setGet =>
    simp only [Merging.step] at h
    split at h
    · rename_i scope returned hp
      cases h
      exact hs.get scope returned
    · cases h
  | theirs =>
    simp only [Merging.step] at h
    split at h
    · rename_i scope returned hp
      split at h <;> cases h <;> exact hs.get scope returned
    · cases h
  | setResult sync =>
    simp only [Merging.step] at h
    split at h
    · obtain ⟨u, hu, rfl⟩ := Option.map_eq_some_iff.1 h
      have h1 := hs.set hu
      exact h1
    · cases h
  | setResultError sync part =>
    simp only [Merging.step] at h
    split at h
    · cases h
      exact hs.setError sync part _
    · cases h
  | _ => cases ha

theorem Sound.run {s t : State B K} (hs : Sound s.db s.handle) {as : List (Action B K)}
    (h : run merge s as = some t) (ha : ∀ a ∈ as, a.quiet = true) : Sound t.db t.handle := by
  induction as generalizing s with
  | nil =>
    cases h
    exact hs
  | cons a as ih =>
    unfold Merging.run at h
    rw [List.foldlM_cons] at h
    obtain ⟨u, hu, hrest⟩ := Option.bind_eq_some_iff.1 h
    exact ih (hs.step hu (ha a List.mem_cons_self)) hrest fun b hb => ha b (List.mem_cons_of_mem a hb)

omit [Fintype B] in
theorem sound_opened (d : Database B K) (empty : B → K) :
    Sound (State.opened d empty).db (State.opened d empty).handle where
  le _ _ hv := nomatch hv
  seen _ hv := nomatch hv

end Runs

/-! ## A deleted key comes back -/

/-- Three-way merge of key names: what both have, and what one side added. -/
def threeWay (base ours theirs : List ℕ) : List ℕ :=
  ours.filter (fun x => x ∈ theirs ∨ x ∉ base) ++ theirs.filter fun x => x ∉ ours ∧ x ∉ base

/-- One backend that holds a list of key names, and a merger that leaves no conflict. -/
def mergeOne (base ours theirs : Unit → List ℕ) : Option (Unit → List ℕ) :=
  some fun b => threeWay (base b) (ours b) (theirs b)

/-- An empty file, a `get`, and a `synchronize` that writes the key `1` without conflict. -/
def writeOne : List (Action Unit (List ℕ)) :=
  [.get (fun _ => true) fun _ => [], .set (fun _ => true) (fun _ => true) fun _ => [1]]

/-- Another client removes the key; the next `synchronize` with `1` and `2` meets the conflict. -/
def removeOne : List (Action Unit (List ℕ)) :=
  [.other (fun _ => true) fun _ => [],
    .setError (fun _ => true) (fun _ => true) (fun _ => false) fun _ => [1, 2], .theirs]

end Elektra.Tools.Merging
