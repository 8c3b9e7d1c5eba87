import Elektra.Kdb.Set

/-!
# The resolver for git repositories

A get checks a file of a branch out to a temporary file; of the two calls of a set, the second one commits
the temporary file. Calls of the library succeed: the repository opens, and files can be written.

* `Repo`, `Repo.commit`: a repository, as far as the resolver sees it;
* `elektraGitresolverGet`, `elektraGitresolverSet`;
* `cycle`: both calls of a set, with the write of the storage plugin in between;
* `Works`, `Fits`, **`cycles_commit`**: when a set makes its commit, and no other.
-/

namespace Elektra.Gitresolver

/-! ## Repositories -/

/-- The contents of the files, by their paths. -/
abbrev Tree := Str → Option Str

/-- The id of a commit is its position, that of a file its content. -/
structure Repo where
  workdir : Str
  commits : List Tree
  refs : Str → Option ℕ
  /-- the reference that `HEAD` stands for -/
  head : Str
  index : Tree

/-- The file `path` of the commit that `refName` stands for. -/
def Repo.blob (repo : Repo) (refName path : Str) : Option Str :=
  ((repo.refs refName).bind fun id => repo.commits[id]?).bind fun tree => tree path

/-- The file is added to the index, and the index committed. There is no parent without a commit. -/
def Repo.commit (repo : Repo) (path content : Str) : Option Repo :=
  (repo.refs repo.head).map fun _ =>
    let index := Function.update repo.index path (some content)
    { repo with
      index := index
      commits := repo.commits ++ [index]
      refs := Function.update repo.refs repo.head (some repo.commits.length) }

/-- The repository, and the temporary files with their time stamps. -/
structure World where
  repo : Repo
  files : Str → Option (Str × ℤ)

/-- A file is written. -/
def World.write (w : World) (name content : Str) (time : ℤ) : World :=
  { w with files := Function.update w.files name (some (content, time)) }

/-! ## The code -/

inductive Tracking
  | OBJECT | HEAD
  deriving DecidableEq, Repr

/-- The strings in the configuration of the plugin. -/
structure Config where
  path : Option Str
  branch : Option Str
  tracking : Option Str

structure GitData where
  tmpFile : Str
  repo : Str
  branch : Str
  file : Str
  refName : Str
  headID : Option ℕ
  objID : Option Str
  tracking : Tracking
  setPhase : ℕ
  mtime : ℤ

def DEFAULT_CHECKOUT_LOCATION : Str := str "/tmp/"

def REFSTRING : Str := str "refs/heads/"

def moduleName : Str := str "system/elektra/modules/gitresolver"

/-- `%lu` -/
def decimal (n : ℕ) : Str := str (toString n)

/-- With the time of the day, in seconds and microseconds. -/
def genCheckoutFileName (data : GitData) (tv : ℕ × ℕ) : GitData :=
  let fileName := (data.file.reverse.takeWhile (· ≠ pathSeparator)).reverse
  { data with
    tmpFile := DEFAULT_CHECKOUT_LOCATION ++ data.branch ++ str "_" ++ fileName ++ str "_" ++ decimal tv.1 ++
      str ":" ++ decimal tv.2 }

/-- The reference of a branch. -/
def refNameOf (config : Config) : Str := REFSTRING ++ config.branch.getD (str "master")

/-- What a new handle starts from. -/
def GitData.init (config : Config) (path : Str) : GitData :=
  { tmpFile := []
    repo := path
    branch := config.branch.getD (str "master")
    file := []
    refName := refNameOf config
    headID := none
    objID := none
    tracking := if config.tracking = some (str "object") then .OBJECT else .HEAD
    setPhase := 0
    mtime := 0 }

def connectToLocalRepo (data : GitData) (repo : Repo) : GitData :=
  { data with file := data.repo.drop repo.workdir.length }

def getHeadRef (data : GitData) (repo : Repo) : Option ℕ := repo.refs data.refName

/-- `none` is the null pointer: the commit is the one from before. -/
def hasNewCommit (data : GitData) (headObj : ℕ) : Option ℕ :=
  match data.headID with
  | none => some headObj
  | some headID => if headID = headObj then none else some headObj

def hasNewObjectCommit (data : GitData) (blob : Str) : Option Str :=
  match data.objID with
  | none => some blob
  | some objID => if objID = blob then none else some blob

def getBlob (data : GitData) (repo : Repo) : Option Str := repo.blob data.refName data.file

/-- The id of the commit is kept where commits are tracked. -/
def trackHead (data : GitData) (headObj : ℕ) : GitData :=
  if data.tracking = .HEAD then { data with headID := hasNewCommit data headObj } else data

section Calls

variable (env : Environment) (config : Config) (moduleConfig : List Key)

/-- `initData`, for the handle of a plugin; no data is set without a path. -/
def initData (handle : Option GitData) (parentKey : Key) : Option GitData × Key :=
  match handle, config.path with
  | some data, _ => (some data, parentKey)
  | none, some path => (some (GitData.init config path), parentKey)
  | none, none => (none, env.setError 34 parentKey (str "no repository specified"))

def referenceError (data : GitData) (parentKey : Key) : Key :=
  env.setError 147 parentKey (str "Failed to get reference " ++ data.refName ++ str "\n")

/-- The part of `elektraGitresolverGet` behind the reference, where `headID` was set. -/
def checkOut (data : GitData) (w : World) (time : ℤ) (parentKey : Key) : ℤ × GitData × World × Key :=
  match getBlob data w.repo with
  | none =>
    (0, data, w, env.addWarning 83 parentKey
      (str "File " ++ data.file ++ str " not found in repository " ++ data.repo ++ str "\n"))
  | some blob =>
    match data.tracking, hasNewObjectCommit data blob with
    | .OBJECT, none => (0, data, w, parentKey)
    | .OBJECT, some newObj =>
      (1, { data with objID := some newObj, mtime := time }, w.write data.tmpFile blob time, parentKey)
    | .HEAD, _ => (1, { data with mtime := time }, w.write data.tmpFile blob time, parentKey)

/-- `tv` is the time of the day, `time` the time stamp of a file that is written. -/
def elektraGitresolverGet (handle : Option GitData) (w : World) (tv : ℕ × ℕ) (time : ℤ) (returned : List Key)
    (parentKey : Key) : ℤ × Option GitData × World × List Key × Key :=
  if keyName parentKey = moduleName then (1, handle, w, moduleConfig.foldl ksAppendValue returned, parentKey)
  else
    match initData env config handle parentKey with
    | (none, parentKey) => (-1, none, w, returned, parentKey)
    | (some data, parentKey) =>
      let data := genCheckoutFileName (connectToLocalRepo data w.repo) tv
      let parentKey := keySetString parentKey data.tmpFile
      match getHeadRef data w.repo with
      | none => (-1, some data, w, returned, referenceError env data parentKey)
      | some headObj =>
        -- still newest commit, no need to update
        if data.tracking = .HEAD ∧ hasNewCommit data headObj = none then (0, some data, w, returned, parentKey)
        else
          let (ret, data, w, parentKey) := checkOut env (trackHead data headObj) w time parentKey
          (ret, some data, w, returned, parentKey)

/-- The checks of `elektraGitresolverSet` against the repository. -/
def isAhead (data : GitData) (repo : Repo) (headObj : ℕ) : Bool :=
  match data.tracking with
  | .HEAD => (hasNewCommit data headObj).isSome
  | .OBJECT => (getBlob data repo).any fun blob => (hasNewObjectCommit data blob).isSome

/-- The commit phase. `none` where the temporary file or the parent of the commit is missing, and what is
read was never set. -/
def commitPhase (data : GitData) (w : World) (parentKey : Key) : Option (ℤ × Option GitData × World × Key) := do
  let (content, st_mtime) ← w.files data.tmpFile
  -- file hasn't changed, nothing to do here
  if data.mtime = st_mtime then some (0, some data, w, parentKey)
  else
    let repo ← w.repo.commit data.file content
    some (1, some data, { w with repo := repo }, parentKey)

def elektraGitresolverSet (handle : Option GitData) (w : World) (parentKey : Key) :
    Option (ℤ × Option GitData × World × Key) :=
  match handle with
  | none => some (-1, none, w, parentKey)
  | some data =>
    let parentKey := keySetString parentKey data.tmpFile
    let data := connectToLocalRepo data w.repo
    match getHeadRef data w.repo with
    | none => some (-1, some data, w, referenceError env data parentKey)
    | some headObj =>
      if isAhead data w.repo headObj then
        some (-1, some data, w, env.setError 148 parentKey
          (str "The repository has been updated and is ahead of you"))
      else if data.setPhase = 0 then some (1, some { data with setPhase := data.setPhase + 1 }, w, parentKey)
      else if data.setPhase = 1 then commitPhase data w parentKey
      else some (1, some data, w, parentKey)

end Calls

/-! ## Cycles and runs -/

/-- A handle and its surroundings. -/
structure Sys where
  handle : Option GitData
  world : World

/-- The return values of the two calls, the second of which there is only after a success of the first, the
repository in between, and what is left. -/
structure Outcome where
  prepare : ℤ
  prepared : Repo
  commit : Option ℤ
  after : Sys

inductive Event
  | get (tv : ℕ × ℕ) (time : ℤ) (returned : List Key) (parentKey : Key)
  | set (content : Str) (time : ℤ) (parentKey : Key)

section Runs

variable (env : Environment) (config : Config) (moduleConfig : List Key)

/-- Prepare, write, commit. The storage plugin writes the temporary file, which the parent key names. -/
def cycle (s : Sys) (content : Str) (time : ℤ) (parentKey : Key) : Option Outcome := do
  let (prepare, handle, w, parentKey) ← elektraGitresolverSet env s.handle s.world parentKey
  if prepare = -1 then some ⟨prepare, w.repo, none, ⟨handle, w⟩⟩
  else
    let stored := handle.elim w fun data => w.write data.tmpFile content time
    let (commit, handle, after, _) ← elektraGitresolverSet env handle stored parentKey
    some ⟨prepare, w.repo, some commit, ⟨handle, after⟩⟩

def step (s : Sys) : Event → Option Sys
  | .get tv time returned parentKey =>
    let r := elektraGitresolverGet env config moduleConfig s.handle s.world tv time returned parentKey
    some ⟨r.2.1, r.2.2.1⟩
  | .set content time parentKey => (cycle env s content time parentKey).map Outcome.after

def run (s : Sys) (es : List Event) : Option Sys := es.foldlM (step env config moduleConfig) s

/-- The file in the commit of the branch is another one. -/
def Changed (data : GitData) (repo : Repo) (content : Str) : Prop :=
  getBlob (connectToLocalRepo data repo) repo ≠ some content

/-- No call fails; a set with a changed content makes one commit, in the second call, and the branch stands
for it. -/
def Works (s : Sys) (content : Str) (time : ℤ) (parentKey : Key) : Prop :=
  ∃ data o commit, s.handle = some data ∧ cycle env s content time parentKey = some o ∧
    o.prepare ≠ -1 ∧ o.commit = some commit ∧ commit ≠ -1 ∧
    (Changed data s.world.repo content →
      o.prepared.commits = s.world.repo.commits ∧ ∃ tree,
        o.after.world.repo.commits = s.world.repo.commits ++ [tree] ∧
        tree (connectToLocalRepo data s.world.repo).file = some content ∧
        getHeadRef data o.after.world.repo = some s.world.repo.commits.length)

/-- The id that the handle keeps is that of the branch, or of the file in it. -/
def UpToDate (data : GitData) (repo : Repo) (headObj : ℕ) : Prop :=
  match data.tracking with
  | .HEAD => data.headID = some headObj
  | .OBJECT => ∀ blob, getBlob (connectToLocalRepo data repo) repo = some blob → data.objID = some blob

/-- What a set relies on: the ids; in the first call, that no set was there before or that the temporary file
is the one the last get left; that the write of the storage plugin shows in the time stamp. -/
def Fits (s : Sys) (content : Str) (time : ℤ) : Prop :=
  ∃ data headObj, s.handle = some data ∧ getHeadRef data s.world.repo = some headObj ∧
    UpToDate data s.world.repo headObj ∧
    (data.setPhase = 0 ∨ ∃ old t, s.world.files data.tmpFile = some (old, t) ∧ (t = data.mtime ∨
      ¬Changed data s.world.repo content ∧ data.tracking = .OBJECT ∧ data.objID = some old)) ∧
    (Changed data s.world.repo content → time ≠ data.mtime)

end Runs

/-! ## What a call keeps -/

/-- The configured branch is the one of `HEAD`, references stand for commits, and the handle is for the
branch. -/
structure Inv (config : Config) (s : Sys) : Prop where
  head : s.world.repo.head = refNameOf config
  commits : ∀ id, s.world.repo.refs s.world.repo.head = some id → id < s.world.repo.commits.length
  refName : ∀ data, s.handle = some data → data.refName = refNameOf config
  phase : ∀ data, s.handle = some data → data.setPhase = 0 ∨ data.setPhase = 1

section Calls

variable {env : Environment} {config : Config} {moduleConfig : List Key} {w : World}
  {data : GitData} {content : Str} {time : ℤ} {headObj : ℕ}

theorem Repo.commit_spec {repo repo' : Repo} {path : Str} (h : repo.commit path content = some repo') :
    repo'.head = repo.head ∧ repo'.workdir = repo.workdir ∧
    repo'.refs repo.head = some repo.commits.length ∧
    ∃ tree, repo'.commits = repo.commits ++ [tree] ∧ tree path = some content := by
  rw [Repo.commit, Option.map_eq_some_iff] at h
  obtain ⟨_, -, rfl⟩ := h
  exact ⟨rfl, rfl, Function.update_self _ _ _, _, rfl, Function.update_self _ _ _⟩

theorem Repo.commit_isSome {repo : Repo} {id : ℕ} (h : repo.refs repo.head = some id) (path : Str) :
    ∃ repo', repo.commit path content = some repo' := by
  rw [Repo.commit, h]
  exact ⟨_, rfl⟩

theorem hasNewCommit_eq (data : GitData) (headObj : ℕ) :
    hasNewCommit data headObj = if data.headID = some headObj then none else some headObj := by
  rw [hasNewCommit]
  cases data.headID with
  | none => rfl
  | some id => simp only [Option.some.injEq]

theorem hasNewObjectCommit_eq (data : GitData) (blob : Str) :
    hasNewObjectCommit data blob = if data.objID = some blob then none else some blob := by
  rw [hasNewObjectCommit]
  cases data.objID with
  | none => rfl
  | some id => simp only [Option.some.injEq]

theorem isAhead_eq_false (repo : Repo) :
    isAhead (connectToLocalRepo data repo) repo headObj = false ↔ UpToDate data repo headObj := by
  have htrack : (connectToLocalRepo data repo).tracking = data.tracking := rfl
  rw [isAhead, UpToDate, htrack]
  cases data.tracking with
  | HEAD =>
    dsimp only
    rw [Option.isSome_eq_false_iff, Option.isNone_iff_eq_none, hasNewCommit_eq, ite_eq_left_iff]
    constructor
    · exact fun hn => by_contra fun hne => nomatch hn hne
    · exact fun hid hne => absurd hid hne
  | OBJECT =>
    dsimp only
    cases getBlob (connectToLocalRepo data repo) repo with
    | none => exact iff_of_true rfl nofun
    | some blob =>
      rw [Option.any_some, Option.isSome_eq_false_iff, Option.isNone_iff_eq_none, hasNewObjectCommit_eq, ite_eq_left_iff]
      refine ⟨?_, fun h hne => absurd (h blob rfl) hne⟩
      rintro hn _ ⟨⟩
      exact by_contra fun hne => nomatch hn hne

theorem set_cases (parentKey : Key) (href : getHeadRef data w.repo = some headObj) :
    ∃ k, elektraGitresolverSet env (some data) w parentKey =
      if isAhead (connectToLocalRepo data w.repo) w.repo headObj then
        some (-1, some (connectToLocalRepo data w.repo), w, k)
      else if data.setPhase = 0 then
        some (1, some { connectToLocalRepo data w.repo with setPhase := 1 }, w, k)
      else if data.setPhase = 1 then commitPhase (connectToLocalRepo data w.repo) w k
      else some (1, some (connectToLocalRepo data w.repo), w, k) := by
  have href' : getHeadRef (connectToLocalRepo data w.repo) w.repo = some headObj := href
  rw [elektraGitresolverSet]
  dsimp only
  rw [href']
  dsimp only
  by_cases ha : isAhead (connectToLocalRepo data w.repo) w.repo headObj = true
  · rw [if_pos ha]
    exact ⟨_, (if_pos ha).symm⟩
  · rw [if_neg ha]
    refine ⟨keySetString parentKey data.tmpFile, ?_⟩
    rw [if_neg ha]
    by_cases h0 : data.setPhase = 0
    · rw [if_pos h0, if_pos (show (connectToLocalRepo data w.repo).setPhase = 0 from h0)]
      rw [show (connectToLocalRepo data w.repo).setPhase = 0 from h0]
    · rw [if_neg h0, if_neg (show (connectToLocalRepo data w.repo).setPhase ≠ 0 from h0)]
      rfl

theorem commitPhase_spec {id : ℕ} (hid : w.repo.refs w.repo.head = some id)
    (hfile : w.files data.tmpFile = some (content, time)) (parentKey : Key) :
    ∃ ret w', commitPhase data w parentKey = some (ret, some data, w', parentKey) ∧ ret ≠ -1 ∧
      w'.files = w.files ∧
      ((time = data.mtime ∧ w' = w) ∨
        (time ≠ data.mtime ∧ w.repo.commit data.file content = some w'.repo)) := by
  rw [commitPhase, hfile]
  dsimp only [Option.bind_eq_bind, Option.bind_some]
  by_cases ht : data.mtime = time
  · rw [if_pos ht]
    exact ⟨0, w, rfl, by decide, rfl, Or.inl ⟨ht.symm, rfl⟩⟩
  · obtain ⟨repo', hrepo⟩ := @Repo.commit_isSome content w.repo id hid data.file
    rw [if_neg ht, hrepo]
    exact ⟨1, _, rfl, by decide, rfl, Or.inr ⟨fun he => ht he.symm, rfl⟩⟩

theorem second_call {id : ℕ} (hid : w.repo.refs w.repo.head = some id)
    (href : getHeadRef data w.repo = some headObj) (hphase : data.setPhase = 1)
    (hup : UpToDate data w.repo headObj) (content : Str) (time : ℤ) (parentKey : Key) :
    ∃ ret w' k, elektraGitresolverSet env (some data) (w.write data.tmpFile content time) parentKey =
        some (ret, some (connectToLocalRepo data w.repo), w', k) ∧ ret ≠ -1 ∧
      ((time = data.mtime ∧ w'.repo = w.repo) ∨
        (time ≠ data.mtime ∧
          w.repo.commit (connectToLocalRepo data w.repo).file content = some w'.repo)) := by
  have hahead : isAhead (connectToLocalRepo data w.repo) w.repo headObj = false :=
    (isAhead_eq_false w.repo).mpr hup
  obtain ⟨k, hset⟩ := @set_cases env (w.write data.tmpFile content time) data headObj parentKey href
  have hwrite : (w.write data.tmpFile content time).repo = w.repo := rfl
  rw [hwrite, if_neg (by rw [hahead]; exact Bool.false_ne_true), if_neg (by omega), if_pos hphase] at hset
  have hfile : (w.write data.tmpFile content time).files (connectToLocalRepo data w.repo).tmpFile =
      some (content, time) := Function.update_self _ _ _
  obtain ⟨ret, w', hcommit, hret, -, hcase⟩ := @commitPhase_spec (w.write data.tmpFile content time)
    (connectToLocalRepo data w.repo) content time id hid hfile k
  refine ⟨ret, w', k, hset.trans hcommit, hret, hcase.imp ?_ fun hc => hc⟩
  rintro ⟨ht, rfl⟩
  exact ⟨ht, rfl⟩

theorem cycle_failed {s : Sys} {parentKey k : Key} {handle : Option GitData}
    (h : elektraGitresolverSet env s.handle s.world parentKey = some (-1, handle, w, k)) :
    cycle env s content time parentKey = some ⟨-1, w.repo, none, ⟨handle, w⟩⟩ := by
  rw [cycle, h]
  rfl

theorem cycle_succeeded {s : Sys} {parentKey k k' : Key} {ret commit : ℤ} {handle : Option GitData} {w' : World}
    (h : elektraGitresolverSet env s.handle s.world parentKey = some (ret, some data, w, k)) (hret : ret ≠ -1)
    (h' : elektraGitresolverSet env (some data) (w.write data.tmpFile content time) k =
      some (commit, handle, w', k')) :
    cycle env s content time parentKey = some ⟨ret, w.repo, some commit, ⟨handle, w'⟩⟩ := by
  rw [cycle, h]
  dsimp only [Option.bind_eq_bind, Option.bind_some, Option.elim_some]
  rw [if_neg hret, h']
  rfl

end Calls

/-! ## Which sets work -/

section Cycles

variable {env : Environment} {config : Config} {s : Sys} {data : GitData} {content : Str} {time : ℤ}
  {headObj : ℕ}

theorem Inv.ref_head (h : Inv config s) (hs : s.handle = some data) :
    getHeadRef data s.world.repo = s.world.repo.refs s.world.repo.head := by
  rw [getHeadRef, h.refName data hs, h.head]

theorem works_of_quiet (h : Inv config s) (hs : s.handle = some data) {ret : ℤ}
    (href : getHeadRef data s.world.repo = some headObj) (hup : UpToDate data s.world.repo headObj)
    {parentKey k : Key} (hset : elektraGitresolverSet env s.handle s.world parentKey =
      some (ret, some { connectToLocalRepo data s.world.repo with setPhase := 1 }, s.world, k))
    (hret : ret ≠ -1) : Works env s content time parentKey ↔
      (Changed data s.world.repo content → time ≠ data.mtime) := by
  have hid := (h.ref_head hs).symm.trans href
  obtain ⟨commit, w', k', hsecond, hcommit, hcase⟩ := @second_call env s.world
    { connectToLocalRepo data s.world.repo with setPhase := 1 } headObj headObj hid href rfl hup content time k
  have hcycle := cycle_succeeded hset hret hsecond
  constructor
  · rintro ⟨data₁, o, commit₁, hd, ho, -, -, -, hw⟩ hch ht
    rw [hs] at hd
    cases hd
    rw [hcycle] at ho
    cases ho
    obtain ⟨-, tree, hcommits, -⟩ := hw hch
    obtain ⟨-, hrepo⟩ | ⟨hne, -⟩ := hcase
    · rw [hrepo] at hcommits
      simp at hcommits
    · exact hne ht
  · intro ht
    refine ⟨data, _, commit, hs, hcycle, hret, rfl, hcommit, fun hch => ⟨rfl, ?_⟩⟩
    obtain ⟨heq, -⟩ | ⟨-, hrepo⟩ := hcase
    · exact absurd heq (ht hch)
    · obtain ⟨-, -, hhead, tree, hcommits, htree⟩ := Repo.commit_spec hrepo
      refine ⟨tree, hcommits, htree, ?_⟩
      rw [getHeadRef, h.refName data hs, ← h.head]
      exact hhead

theorem not_works_of_failed {parentKey k : Key} {handle : Option GitData} {w : World}
    (hset : elektraGitresolverSet env s.handle s.world parentKey = some (-1, handle, w, k)) :
    ¬Works env s content time parentKey := by
  rintro ⟨data, o, commit, -, ho, hp, -⟩
  rw [cycle_failed hset] at ho
  cases ho
  exact hp rfl

theorem fits_iff (hs : s.handle = some data) (href : getHeadRef data s.world.repo = some headObj) :
    Fits s content time ↔ UpToDate data s.world.repo headObj ∧
      (data.setPhase = 0 ∨ ∃ old t, s.world.files data.tmpFile = some (old, t) ∧ (t = data.mtime ∨
        ¬Changed data s.world.repo content ∧ data.tracking = .OBJECT ∧ data.objID = some old)) ∧
      (Changed data s.world.repo content → time ≠ data.mtime) := by
  constructor
  · rintro ⟨data₁, headObj₁, hd, hr, hfits⟩
    rw [hs] at hd
    cases hd
    rw [href] at hr
    cases hr
    exact hfits
  · exact fun hfits => ⟨data, headObj, hs, href, hfits⟩

/-- The handle is behind its own commit, unless it tracks the file and that is the same. -/
theorem upToDate_commit {repo repo' : Repo} {old : Str}
    (hlt : headObj < repo.commits.length) (hup : UpToDate data repo headObj) (hhead : repo.head = data.refName)
    (hcommit : repo.commit (connectToLocalRepo data repo).file old = some repo') :
    UpToDate (connectToLocalRepo data repo) repo' repo.commits.length ↔
      data.tracking = .OBJECT ∧ data.objID = some old := by
  obtain ⟨-, hdir, href', tree, hcommits, htree⟩ := Repo.commit_spec hcommit
  have hblob : getBlob (connectToLocalRepo (connectToLocalRepo data repo) repo') repo' = some old := by
    have hfile : (connectToLocalRepo (connectToLocalRepo data repo) repo').file =
        (connectToLocalRepo data repo).file := by
      rw [connectToLocalRepo, hdir]
      rfl
    rw [getBlob, hfile, Repo.blob, show (connectToLocalRepo (connectToLocalRepo data repo) repo').refName =
      repo.head from hhead.symm, href', hcommits]
    simpa using htree
  rw [UpToDate] at hup
  rw [UpToDate, show (connectToLocalRepo data repo).tracking = data.tracking from rfl]
  cases htrack : data.tracking with
  | HEAD =>
    rw [htrack] at hup
    refine iff_of_false (fun he => ?_) nofun
    have hid : some headObj = some repo.commits.length := hup.symm.trans he
    exact absurd (Option.some.inj hid) (by omega)
  | OBJECT =>
    dsimp only
    rw [hblob]
    constructor
    · exact fun hid => ⟨rfl, hid old rfl⟩
    · rintro ⟨-, hid⟩ _ ⟨⟩
      exact hid

/-- A set whose first call commits what the temporary file was left with. -/
theorem works_of_early (h : Inv config s) (hs : s.handle = some data) {old : Str} {t : ℤ}
    (href : getHeadRef data s.world.repo = some headObj) (hup : UpToDate data s.world.repo headObj)
    (hphase : data.setPhase = 1) (hfile : s.world.files data.tmpFile = some (old, t)) (ht : t ≠ data.mtime)
    {parentKey k : Key} (hset : elektraGitresolverSet env s.handle s.world parentKey =
      commitPhase (connectToLocalRepo data s.world.repo) s.world k) : Works env s content time parentKey ↔
      ¬Changed data s.world.repo content ∧ data.tracking = .OBJECT ∧ data.objID = some old := by
  have hid := (h.ref_head hs).symm.trans href
  obtain ⟨ret, w', hfirst, hret, -, hcase⟩ :=
    @commitPhase_spec s.world (connectToLocalRepo data s.world.repo) old t headObj hid hfile k
  obtain ⟨heq, -⟩ | ⟨-, hcommit⟩ := hcase
  · exact absurd heq ht
  obtain ⟨hhead', -, href', tree, hcommits, -⟩ := Repo.commit_spec hcommit
  have hname : s.world.repo.head = data.refName := by rw [h.head, h.refName data hs]
  rw [← upToDate_commit (h.commits _ hid) hup hname hcommit]
  rw [hfirst] at hset
  have hhead : getHeadRef (connectToLocalRepo data s.world.repo) w'.repo = some s.world.repo.commits.length := by
    rw [getHeadRef, show (connectToLocalRepo data s.world.repo).refName = s.world.repo.head from hname.symm]
    exact href'
  have hid' : w'.repo.refs w'.repo.head = some s.world.repo.commits.length := by rw [hhead']; exact href'
  have hmore : w'.repo.commits ≠ s.world.repo.commits := by simp [hcommits]
  by_cases hup' : UpToDate (connectToLocalRepo data s.world.repo) w'.repo s.world.repo.commits.length
  · rw [and_iff_left hup']
    obtain ⟨commit, w'', k', hsecond, hcommit', -⟩ := @second_call env w'
      (connectToLocalRepo data s.world.repo) _ _ hid' hhead hphase hup' content time k
    have hcycle := cycle_succeeded hset hret hsecond
    constructor
    · rintro ⟨data₁, o, commit₁, hd, ho, -, -, -, hw⟩ hch
      rw [hs] at hd
      cases hd
      rw [hcycle] at ho
      cases ho
      exact hmore (hw hch).1
    · exact fun hch => ⟨data, _, commit, hs, hcycle, hret, rfl, hcommit', fun hc => absurd hc hch⟩
  · refine iff_of_false ?_ fun hand => hup' hand.2
    obtain ⟨k', hsecond⟩ := @set_cases env (w'.write (connectToLocalRepo data s.world.repo).tmpFile content time)
      (connectToLocalRepo data s.world.repo) _ k hhead
    have hahead : isAhead (connectToLocalRepo (connectToLocalRepo data s.world.repo) w'.repo) w'.repo
        s.world.repo.commits.length = true := by
      rw [← Bool.not_eq_false, isAhead_eq_false]
      exact hup'
    rw [show (w'.write (connectToLocalRepo data s.world.repo).tmpFile content time).repo = w'.repo from rfl,
      if_pos hahead] at hsecond
    have hcycle := cycle_succeeded hset hret hsecond
    rintro ⟨data₁, o, commit₁, -, ho, -, hc, hne, -⟩
    rw [hcycle] at ho
    cases ho
    cases hc
    exact hne rfl

theorem works_iff (h : Inv config s) (parentKey : Key) :
    Works env s content time parentKey ↔ Fits s content time := by
  cases hs : s.handle with
  | none =>
    refine iff_of_false ?_ ?_
    · rintro ⟨data, o, commit, hd, -⟩
      exact nomatch hs.symm.trans hd
    · rintro ⟨data, headObj, hd, -⟩
      exact nomatch hs.symm.trans hd
  | some data =>
    cases href : getHeadRef data s.world.repo with
    | none =>
      have hset : elektraGitresolverSet env s.handle s.world parentKey = some (-1,
          some (connectToLocalRepo data s.world.repo), s.world,
          referenceError env (connectToLocalRepo data s.world.repo) (keySetString parentKey data.tmpFile)) := by
        have href' : getHeadRef (connectToLocalRepo data s.world.repo) s.world.repo = none := href
        rw [hs, elektraGitresolverSet, href']
      refine iff_of_false (not_works_of_failed hset) ?_
      rintro ⟨data₁, headObj, hd, hr, -⟩
      rw [hs] at hd
      cases hd
      exact nomatch href.symm.trans hr
    | some headObj =>
      rw [fits_iff hs href]
      obtain ⟨k, hset⟩ := @set_cases env s.world data headObj parentKey href
      by_cases hup : UpToDate data s.world.repo headObj
      · have hahead := (isAhead_eq_false s.world.repo).mpr hup
        rw [hahead, if_neg Bool.false_ne_true, ← hs] at hset
        rw [and_iff_right hup]
        obtain h0 | h1 := h.phase data hs
        · rw [if_pos h0] at hset
          rw [works_of_quiet h hs href hup hset (by decide), and_iff_right (Or.inl h0)]
        · rw [if_neg (by omega), if_pos h1] at hset
          have h0 : data.setPhase ≠ 0 := by omega
          rw [or_iff_right h0]
          cases hfile : s.world.files data.tmpFile with
          | none =>
            refine iff_of_false ?_ ?_
            · rintro ⟨data₁, o, commit, -, ho, -⟩
              have hgone : s.world.files (connectToLocalRepo data s.world.repo).tmpFile = none := hfile
              rw [cycle, hset, commitPhase, hgone] at ho
              cases ho
            · rintro ⟨⟨old, t, he, -⟩, -⟩
              cases he
          | some tmp =>
            obtain ⟨old, t⟩ := tmp
            by_cases ht : t = data.mtime
            · have hquiet : elektraGitresolverSet env s.handle s.world parentKey =
                  some (0, some { connectToLocalRepo data s.world.repo with setPhase := 1 }, s.world, k) := by
                have hsame : { connectToLocalRepo data s.world.repo with setPhase := 1 } =
                    connectToLocalRepo data s.world.repo := by
                  rw [← show (connectToLocalRepo data s.world.repo).setPhase = 1 from h1]
                have hthere : s.world.files (connectToLocalRepo data s.world.repo).tmpFile = some (old, t) := hfile
                rw [hset, commitPhase, hthere, hsame]
                exact if_pos ht.symm
              rw [works_of_quiet h hs href hup hquiet (by decide)]
              exact (and_iff_right ⟨old, t, rfl, Or.inl ht⟩).symm
            · rw [works_of_early h hs href hup h1 hfile ht hset]
              constructor
              · rintro ⟨hch, hobj⟩
                exact ⟨⟨old, t, rfl, Or.inr ⟨hch, hobj⟩⟩, fun hc => absurd hc hch⟩
              · rintro ⟨⟨old', t', he, hor⟩, -⟩
                cases he
                exact hor.resolve_left ht
      · have hahead : isAhead (connectToLocalRepo data s.world.repo) s.world.repo headObj = true := by
          rw [← Bool.not_eq_false, isAhead_eq_false]
          exact hup
        rw [if_pos hahead, ← hs] at hset
        exact iff_of_false (not_works_of_failed hset) fun hfits => hup hfits.1

end Cycles

/-! ## Runs -/

section Runs

variable {env : Environment} {config : Config} {moduleConfig : List Key} {s : Sys} {content : Str} {time : ℤ}

theorem inv_start {w : World} (hhead : w.repo.head = refNameOf config)
    (hcommits : ∀ id, w.repo.refs w.repo.head = some id → id < w.repo.commits.length) :
    Inv config ⟨none, w⟩ where
  head := hhead
  commits := hcommits
  refName _ hd := nomatch hd
  phase _ hd := nomatch hd

theorem trackHead_keeps (data : GitData) (headObj : ℕ) : (trackHead data headObj).refName = data.refName ∧
    (trackHead data headObj).setPhase = data.setPhase ∧
    (trackHead data headObj).tracking = data.tracking := by
  rw [trackHead]
  split_ifs <;> exact ⟨rfl, rfl, rfl⟩

theorem checkOut_keeps (data : GitData) (w : World) (time : ℤ) (parentKey : Key) :
    (checkOut env data w time parentKey).2.2.1.repo = w.repo ∧
    (checkOut env data w time parentKey).2.1.refName = data.refName ∧
    (checkOut env data w time parentKey).2.1.setPhase = data.setPhase := by
  rw [checkOut]
  cases getBlob data w.repo with
  | none => exact ⟨rfl, rfl, rfl⟩
  | some blob =>
    dsimp only
    cases data.tracking with
    | HEAD => exact ⟨rfl, rfl, rfl⟩
    | OBJECT => cases hasNewObjectCommit data blob <;> exact ⟨rfl, rfl, rfl⟩

theorem get_inv (h : Inv config s) (tv : ℕ × ℕ) (time : ℤ) (returned : List Key) (parentKey : Key) :
    Inv config ⟨(elektraGitresolverGet env config moduleConfig s.handle s.world tv time returned parentKey).2.1,
      (elektraGitresolverGet env config moduleConfig s.handle s.world tv time returned parentKey).2.2.1⟩ := by
  have hkept : ∀ (w : World) (data' : GitData), w.repo = s.world.repo → data'.refName = refNameOf config →
      data'.setPhase = 0 ∨ data'.setPhase = 1 → Inv config ⟨some data', w⟩ := by
    intro w data' hw hname hphase
    refine ⟨by rw [hw]; exact h.head, by rw [hw]; exact h.commits, ?_, ?_⟩
    · rintro _ ⟨⟩
      exact hname
    · rintro _ ⟨⟩
      exact hphase
  have hinit : ∀ data, (initData env config s.handle parentKey).1 = some data →
      data.refName = refNameOf config ∧ (data.setPhase = 0 ∨ data.setPhase = 1) := by
    intro data hdata
    unfold initData at hdata
    cases hs : s.handle with
    | some data₀ =>
      rw [hs] at hdata
      cases hdata
      exact ⟨h.refName _ hs, h.phase _ hs⟩
    | none =>
      rw [hs] at hdata
      cases hp : config.path with
      | none => rw [hp] at hdata; cases hdata
      | some path =>
        rw [hp] at hdata
        cases hdata
        exact ⟨rfl, Or.inl rfl⟩
  rw [elektraGitresolverGet]
  split_ifs
  · exact h
  · rcases hres : initData env config s.handle parentKey with ⟨found, parentKey'⟩
    cases found with
    | none => exact ⟨h.head, h.commits, nofun, nofun⟩
    | some data =>
      obtain ⟨hname, hphase⟩ := hinit data (by rw [hres])
      dsimp only
      cases getHeadRef (genCheckoutFileName (connectToLocalRepo data s.world.repo) tv) s.world.repo with
      | none => exact hkept _ _ rfl hname hphase
      | some headObj =>
        dsimp only
        split_ifs
        · exact hkept _ _ rfl hname hphase
        · obtain ⟨hw, hname', hphase'⟩ := @checkOut_keeps env
            (trackHead (genCheckoutFileName (connectToLocalRepo data s.world.repo) tv) headObj) s.world time
            (keySetString parentKey' (genCheckoutFileName (connectToLocalRepo data s.world.repo) tv).tmpFile)
          obtain ⟨hname'', hphase'', -⟩ := trackHead_keeps
            (genCheckoutFileName (connectToLocalRepo data s.world.repo) tv) headObj
          refine hkept _ _ hw ((hname'.trans hname'').trans hname) ?_
          rw [hphase', hphase'']
          exact hphase

theorem Inv.handle (h : Inv config s) {data : GitData} (hname : data.refName = refNameOf config)
    (hphase : data.setPhase = 0 ∨ data.setPhase = 1) : Inv config ⟨some data, s.world⟩ := by
  refine ⟨h.head, h.commits, ?_, ?_⟩
  · rintro _ ⟨⟩
    exact hname
  · rintro _ ⟨⟩
    exact hphase

/-- The commit moves the reference of the branch to a commit that is there. -/
theorem Inv.commitPhase_inv (h : Inv config s) {data : GitData} {headObj : ℕ} (hs : s.handle = some data)
    (href : getHeadRef data s.world.repo = some headObj) {parentKey k : Key} {ret : ℤ}
    {handle : Option GitData} {w : World} (hcommit : commitPhase (connectToLocalRepo data s.world.repo) s.world
      parentKey = some (ret, handle, w, k)) : Inv config ⟨handle, w⟩ := by
  have hid := (h.ref_head hs).symm.trans href
  cases hfile : s.world.files (connectToLocalRepo data s.world.repo).tmpFile with
  | none => rw [commitPhase, hfile] at hcommit; cases hcommit
  | some tmp =>
    obtain ⟨old, t⟩ := tmp
    obtain ⟨ret', w', he, -, -, hcase⟩ :=
      @commitPhase_spec s.world (connectToLocalRepo data s.world.repo) old t headObj hid hfile parentKey
    rw [hcommit] at he
    cases he
    have hsame := @Inv.handle config s h (connectToLocalRepo data s.world.repo) (h.refName data hs)
      (h.phase data hs)
    obtain ⟨-, rfl⟩ | ⟨-, hrepo⟩ := hcase
    · exact hsame
    · obtain ⟨hhead, -, hnew, tree, hcommits, -⟩ := Repo.commit_spec hrepo
      refine ⟨hhead.trans h.head, fun id hid' => ?_, hsame.refName, hsame.phase⟩
      rw [hhead, hnew] at hid'
      cases hid'
      simp [hcommits]

theorem set_inv (h : Inv config s) {parentKey k : Key} {ret : ℤ} {handle : Option GitData} {w : World}
    (hset : elektraGitresolverSet env s.handle s.world parentKey = some (ret, handle, w, k)) :
    Inv config ⟨handle, w⟩ := by
  cases hs : s.handle with
  | none =>
    rw [hs] at hset
    cases hset
    exact ⟨h.head, h.commits, nofun, nofun⟩
  | some data =>
    have hname := h.refName data hs
    have hphase := h.phase data hs
    rw [hs] at hset
    cases href : getHeadRef data s.world.repo with
    | none =>
      have href' : getHeadRef (connectToLocalRepo data s.world.repo) s.world.repo = none := href
      rw [elektraGitresolverSet, href'] at hset
      cases hset
      exact h.handle hname hphase
    | some headObj =>
      obtain ⟨k', he⟩ := @set_cases env s.world data headObj parentKey href
      rw [he] at hset
      split_ifs at hset with ha h0 h1
      · cases hset
        exact h.handle hname hphase
      · cases hset
        exact h.handle hname (Or.inr rfl)
      · exact h.commitPhase_inv hs href hset
      · cases hset
        exact h.handle hname hphase

theorem cycle_inv (h : Inv config s) {parentKey : Key} {o : Outcome}
    (ho : cycle env s content time parentKey = some o) : Inv config o.after := by
  rw [cycle] at ho
  cases hset : elektraGitresolverSet env s.handle s.world parentKey with
  | none => rw [hset] at ho; cases ho
  | some r =>
    obtain ⟨ret, handle, w, k⟩ := r
    have hfirst := set_inv h hset
    rw [hset] at ho
    dsimp only [Option.bind_eq_bind, Option.bind_some] at ho
    split_ifs at ho with hret
    · cases ho
      exact hfirst
    · have hstored : Inv config ⟨handle, handle.elim w fun data => w.write data.tmpFile content time⟩ := by
        cases handle with
        | none => exact hfirst
        | some data => exact ⟨hfirst.head, hfirst.commits, hfirst.refName, hfirst.phase⟩
      cases hset' : elektraGitresolverSet env handle
          (handle.elim w fun data => w.write data.tmpFile content time) k with
      | none => rw [hset'] at ho; cases ho
      | some r =>
        obtain ⟨commit, handle', w', k'⟩ := r
        have hsecond := set_inv hstored hset'
        rw [hset'] at ho
        cases ho
        exact hsecond

theorem run_inv : ∀ {es : List Event} {s s' : Sys}, Inv config s → run env config moduleConfig s es = some s' →
    Inv config s'
  | [], _, _, h, hrun => by
    cases hrun
    exact h
  | e :: es, s, s', h, hrun => by
    rw [run, List.foldlM_cons] at hrun
    obtain ⟨s₁, hstep, hrest⟩ := Option.bind_eq_some_iff.mp hrun
    refine @run_inv es _ _ ?_ hrest
    cases e with
    | get tv time returned parentKey =>
      cases hstep
      exact get_inv h tv time returned parentKey
    | set content time parentKey =>
      obtain ⟨o, ho, rfl⟩ := Option.map_eq_some_iff.mp hstep
      exact cycle_inv h ho

end Runs

section Instances

def silentEnv : Environment := ⟨fun _ k _ => k, fun _ k _ => k, fun ks _ => (false, ks)⟩

def repoConfig : Config := { path := some (str "/r/f"), branch := none, tracking := none }

def parent : Key := keyNewName (str "user/a")

/-- A repository with one commit of one file. -/
def oneCommit : World :=
  { repo :=
      { workdir := str "/r/"
        commits := [fun path => if path = str "f" then some (str "x") else none]
        refs := fun name => if name = str "refs/heads/master" then some 0 else none
        head := str "refs/heads/master"
        index := fun path => if path = str "f" then some (str "x") else none }
    files := fun _ => none }

def afterGet : Option Sys := run silentEnv repoConfig [] ⟨none, oneCommit⟩ [.get (1, 1) 1 [] parent]

def afterSet : Option Sys :=
  run silentEnv repoConfig [] ⟨none, oneCommit⟩ [.get (1, 1) 1 [] parent, .set (str "y") 2 parent]

theorem oneCommit_commits : ∀ id, oneCommit.repo.refs oneCommit.repo.head = some id →
    id < oneCommit.repo.commits.length := by
  intro id hid
  cases hid
  exact Nat.zero_lt_one

end Instances

end Elektra.Gitresolver
