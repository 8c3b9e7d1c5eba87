import Elektra.Kdb.Set
import Elektra.Search.Pieces

/-!
# The resolver for a block of a file

A get copies a tagged block of the file to a temporary file; the second call of a set puts the temporary file
in the place of the block. The handle keeps the positions of the block.

* `getBlockStart`, `getBlockEnd`, `getBlock`; `elektraBlockresolverGet`, `elektraBlockresolverSet`;
* `Block`, `getBlockStart_eq`, `getBlockEnd_eq`: a file with the block, and what is found in it;
* `cycle`, `Works`, **`set_works_iff`**: of the sets of a handle, the first one alone replaces the block.
-/

namespace Elektra.Blockresolver

open Pieces

/-! ## The code -/

def BUFSIZE_MAX : ℕ := 1024

structure BlockData where
  /-- null where the file was missing when the handle was made -/
  tmpFile : Option Str
  realFile : Str
  identifier : Str
  mtime : ℤ
  startPos : ℤ
  endPos : ℤ
  getPass : UInt16
  setPass : UInt16

/-- The configuration of the plugin, which has both keys. -/
structure Config where
  identifier : Str
  path : Str

/-- The configuration file with its time stamp, and the temporary file of the handle. The names that
`genTempFilename` makes up are new. -/
structure World where
  real : Option (Str × ℤ)
  tmp : Option Str

def moduleName : Str := str "system/elektra/modules/blockresolver"

/-- `%lu` -/
def decimal (n : ℕ) : Str := str (toString n)

/-- With the time of the day, in seconds and microseconds. -/
def genTempFilename (tv : ℕ × ℕ) : Str :=
  str "/tmp/elektra_blockresolver_" ++ decimal tv.1 ++ str ":" ++ decimal tv.2

/-- What `strcmp` and `strlen` see of a buffer. -/
def cString (buffer : Str) : Str := buffer.takeWhile (· ≠ 0)

/-- `fgets` writes what it read and a NUL over the buffer. -/
def fill (buffer piece : Str) : Str := piece ++ 0 :: buffer.drop (piece.length + 1)

/-- The loop of `getBlockStart` and `getBlockEnd`: the position behind the line with the tag and the length
of the line. The first line with the identifier ends it. -/
def search (identifier tag : Str) : Str → ℕ → List Str → Option (ℕ × ℕ)
  | _, _, [] => none
  | buffer, position, piece :: pieces =>
    let buffer := fill buffer piece
    if buffer.take identifier.length = identifier then
      if cString (buffer.drop (identifier.length + 1)) = tag then
        some (position + piece.length, (cString buffer).length)
      else none
    else search identifier tag buffer (position + piece.length) pieces

section Blocks

/-- `buffer` is what is on the stack. -/
def getBlockStart (buffer file identifier : Str) : ℤ :=
  match search identifier (str "start\n") buffer 0 (pieces 10 (BUFSIZE_MAX - 1) file) with
  | some (position, _) => position
  | none => -1

def getBlockEnd (buffer file identifier : Str) (offset : ℤ) : ℤ :=
  if offset < 0 then -1
  else
    match search identifier (str "stop\n") buffer offset.toNat
        (pieces 10 (BUFSIZE_MAX - 1) (file.drop offset.toNat)) with
    | some (position, length) => position - length
    | none => -1

/-- A negative position is no position, and the one from before, `current`, stays. -/
def getBlock (file : Str) (current : ℕ) (startPos endPos : ℤ) : Option Str :=
  let position := if startPos < 0 then current else startPos.toNat
  if endPos ≤ startPos then none
  else
    let block := (file.drop position).take (endPos - startPos).toNat
    if block.length = (endPos - startPos).toNat then some block else none

end Blocks

section Calls

variable (env : Environment) (config : Config) (moduleConfig : List Key) (buffer : Str)

/-- `initData`: whether it succeeds, and the data. -/
def initData (handle : Option BlockData) (w : World) (tv : ℕ × ℕ) : Bool × BlockData :=
  match handle, w.real with
  | some data, _ => (true, data)
  | none, some (_, st_mtime) =>
    (true,
      { tmpFile := some (genTempFilename tv)
        realFile := config.path
        identifier := config.identifier
        mtime := st_mtime
        startPos := -1
        endPos := -1
        getPass := 0
        setPass := 0 })
  | none, none =>
    (false,
      { tmpFile := none
        realFile := config.path
        identifier := config.identifier
        mtime := 0
        startPos := 0
        endPos := 0
        getPass := 0
        setPass := 0 })

/-- The part of `elektraBlockresolverGet` that reads the file. -/
def extract (data : BlockData) (w : World) (file : Str) (parentKey : Key) : ℤ × BlockData × World × Key :=
  let data := { data with startPos := getBlockStart buffer file data.identifier }
  if data.startPos = -1 then (0, data, w, parentKey)
  else
    let data := { data with endPos := getBlockEnd buffer file data.identifier data.startPos }
    if data.endPos = -1 then
      (-1, data, w, env.setError 156 parentKey (str "Couldn't find end of block " ++ data.identifier))
    else
      match getBlock file 0 data.startPos data.endPos with
      | none =>
        (-1, data, w, env.setError 155 parentKey (str "Failed to extract block " ++ data.identifier ++ str "\n"))
      | some block =>
        match data.tmpFile with
        | none => (-1, data, w, env.setError 26 parentKey (str "Couldn't open (null) for writing"))
        | some _ => (1, { data with getPass := data.getPass + 1 }, { w with tmp := some block }, parentKey)

def elektraBlockresolverGet (handle : Option BlockData) (w : World) (tv : ℕ × ℕ) (returned : List Key)
    (parentKey : Key) : ℤ × Option BlockData × World × List Key × Key :=
  if keyName parentKey = moduleName then (1, handle, w, moduleConfig.foldl ksAppendValue returned, parentKey)
  else
    match initData config handle w tv with
    | (false, data) => (-1, some data, w, returned, parentKey)
    | (true, data) =>
      let parentKey := keySetString parentKey (data.tmpFile.getD [])
      match w.real with
      | none =>
        if data.getPass > 0 then
          (-1, some data, w, returned,
            env.addWarning 29 parentKey (str "Failed to stat file " ++ data.realFile ++ str "\n"))
        else
          (0, some data, w, returned,
            env.setError 26 parentKey (str "Couldn't open " ++ data.realFile ++ str " for reading"))
      | some (file, st_mtime) =>
        if data.getPass > 0 ∧ st_mtime = data.mtime then (0, some data, w, returned, parentKey)
        else
          let (ret, data, w, parentKey) := extract env buffer data w file parentKey
          (ret, some data, w, returned, parentKey)

/-- The commit phase: the parts of the file around the temporary file. `now` is the time stamp of the new
file. -/
def merge (data : BlockData) (w : World) (file : Str) (now : ℤ) (parentKey : Key) : ℤ × World × Key :=
  match getBlock file 0 0 data.startPos with
  | none =>
    (-1, w, env.setError 155 parentKey
      (str "Failed to extract block before " ++ data.identifier ++ str "\n"))
  | some before =>
    match getBlock file file.length data.endPos file.length with
    | none =>
      (-1, w, env.setError 155 parentKey
        (str "Failed to extract block after " ++ data.identifier ++ str "\n"))
    | some after =>
      match w.tmp with
      | none =>
        (-1, w, env.setError 26 parentKey
          (str "Couldn't open " ++ data.tmpFile.getD (str "(null)") ++ str " for reading"))
      | some content => (1, { w with real := some (before ++ content ++ after, now) }, parentKey)

def elektraBlockresolverSet (handle : Option BlockData) (w : World) (now : ℤ) (parentKey : Key) :
    ℤ × Option BlockData × World × Key :=
  match handle with
  | none => (-1, none, w, parentKey)
  | some data =>
    let parentKey := keySetString parentKey (data.tmpFile.getD [])
    match w.real with
    | none =>
      (-1, some data, w,
        env.addWarning 29 parentKey (str "Failed to stat file " ++ data.realFile ++ str "\n"))
    | some (file, st_mtime) =>
      if st_mtime > data.mtime then
        (-1, some data, w, env.setError 30 parentKey (data.realFile ++ str " has been modified"))
      else if data.setPass = 0 then (1, some { data with setPass := data.setPass + 1 }, w, parentKey)
      else if data.setPass = 1 then
        let (ret, w, parentKey) := merge env data w file now parentKey
        (ret, some data, w, parentKey)
      else (-1, some data, w, parentKey)

end Calls

/-! ## Files with the block -/

/-- The file is `before`, the block, which is `body`, and `after`. The tags stand in lines of their own, and
what is read of the lines before them does not start with the identifier. -/
structure Block (identifier file before body after : Str) : Prop where
  parts : file = before ++ body ++ after
  start : ∃ text c, before = text ++ (identifier ++ c :: str "start\n") ∧ c ≠ 0 ∧ c ≠ 10 ∧ Lines 10 text ∧
    ∀ piece ∈ pieces 10 (BUFSIZE_MAX - 1) text, ¬identifier <+: piece
  stop : ∃ text c, after = identifier ++ c :: str "stop\n" ++ text ∧ c ≠ 0 ∧ c ≠ 10
  lines : Lines 10 body
  free : ∀ piece ∈ pieces 10 (BUFSIZE_MAX - 1) body, ¬identifier <+: piece
  line : 0 ∉ identifier ∧ 10 ∉ identifier
  fits : identifier.length + 7 < BUFSIZE_MAX

section Search

variable {identifier tag : Str}

theorem cString_append {s : Str} (h : 0 ∉ s) (r : Str) : cString (s ++ 0 :: r) = s := by
  rw [cString, List.takeWhile_append_of_pos fun c hc => by simpa using fun he : c = 0 => h (he ▸ hc)]
  simp

/-- The buffer starts with the identifier if and only if what was read does. -/
theorem fill_take (h0 : 0 ∉ identifier) (buffer piece : Str) :
    (fill buffer piece).take identifier.length = identifier ↔ identifier <+: piece := by
  rw [fill, ← List.prefix_iff_eq_take.trans eq_comm]
  refine ⟨fun h => ?_, fun h => h.trans (List.prefix_append _ _)⟩
  -- the NUL behind what was read is not in the identifier
  by_contra hnot
  obtain ⟨t, ht⟩ := h
  obtain ⟨u, rfl, -⟩ | ⟨u, hu, hz⟩ := List.append_eq_append_iff.mp ht
  · exact hnot (List.prefix_append _ _)
  · cases u with
    | nil => exact hnot ⟨[], by simpa using hu⟩
    | cons c u =>
      obtain ⟨rfl, -⟩ := List.cons.inj hz
      exact h0 (by simp [hu])

theorem search_skip (h0 : 0 ∉ identifier) (qs : List Str) : ∀ (ps : List Str) (buffer : Str) (position : ℕ),
    (∀ piece ∈ ps, ¬identifier <+: piece) → ∃ buffer', search identifier tag buffer position (ps ++ qs) =
      search identifier tag buffer' (position + ps.flatten.length) qs
  | [], buffer, position, _ => ⟨buffer, rfl⟩
  | p :: ps, buffer, position, h => by
    obtain ⟨buffer', hrest⟩ := search_skip h0 qs ps (fill buffer p) (position + p.length)
      fun piece hp => h piece (List.mem_cons_of_mem p hp)
    have hp : ¬(fill buffer p).take identifier.length = identifier := by
      rw [fill_take h0]
      exact h p List.mem_cons_self
    refine ⟨buffer', ?_⟩
    rw [List.cons_append, search, if_neg hp, hrest, List.flatten_cons, List.length_append, Nat.add_assoc]

theorem search_tag (h0 : 0 ∉ identifier) {c : UInt8} (hc : c ≠ 0) (ht : 0 ∉ tag) (buffer : Str) (position : ℕ)
    (ps : List Str) : search identifier tag buffer position ((identifier ++ c :: tag) :: ps) =
      some (position + (identifier ++ c :: tag).length, (identifier ++ c :: tag).length) := by
  have hline : 0 ∉ identifier ++ c :: tag := by simp [h0, hc.symm, ht]
  have hdrop : (fill buffer (identifier ++ c :: tag)).drop (identifier.length + 1) =
      tag ++ 0 :: buffer.drop ((identifier ++ c :: tag).length + 1) := by
    rw [fill, List.append_assoc, List.cons_append, ← List.drop_drop, List.drop_left]
    rfl
  rw [search, if_pos ((fill_take h0 _ _).mpr (List.prefix_append _ _)), hdrop, cString_append ht, if_pos rfl, fill,
    cString_append hline]

end Search

section Block

variable {identifier file before body after : Str}

theorem pieces_tag (hline : 10 ∉ identifier) (hfits : identifier.length + 7 < BUFSIZE_MAX) {c : UInt8} (hc : c ≠ 10)
    {word : Str} (hword : 10 ∉ word ∧ word.length ≤ 5) (rest : Str) :
    pieces 10 (BUFSIZE_MAX - 1) (identifier ++ c :: (word ++ [10]) ++ rest) =
      (identifier ++ c :: (word ++ [10])) :: pieces 10 (BUFSIZE_MAX - 1) rest := by
  have hsep : 10 ∉ identifier ++ c :: word := by simp [hline, hc.symm, hword.1]
  have hlen : (identifier ++ c :: word).length < BUFSIZE_MAX - 1 := by
    simp only [List.length_append, List.length_cons]
    omega
  have h := pieces_line hsep hlen rest
  simpa using h

theorem getBlockStart_eq (h : Block identifier file before body after) (buffer : Str) :
    getBlockStart buffer file identifier = before.length := by
  obtain ⟨text, c, hbefore, hc0, hc, hlines, hfree⟩ := h.start
  have hfile : file = text ++ (identifier ++ c :: (str "start" ++ [10]) ++ (body ++ after)) := by
    rw [h.parts, hbefore, List.append_assoc, List.append_assoc]
    rfl
  have htag : str "start" ++ [10] = str "start\n" := by decide
  obtain ⟨buffer', hskip⟩ := @search_skip identifier (str "start\n") h.line.1
    ((identifier ++ c :: (str "start" ++ [10])) :: pieces 10 (BUFSIZE_MAX - 1) (body ++ after))
    (pieces 10 (BUFSIZE_MAX - 1) text) buffer 0 hfree
  rw [getBlockStart, hfile, pieces_append hlines, pieces_tag h.line.2 h.fits hc (by decide), hskip, htag,
    search_tag h.line.1 hc0 (by decide), pieces_flatten, hbefore]
  simp

theorem getBlockEnd_eq (h : Block identifier file before body after) (buffer : Str) :
    getBlockEnd buffer file identifier before.length = before.length + body.length := by
  obtain ⟨text, c, hafter, hc0, hc⟩ := h.stop
  have hdrop : file.drop (before.length : ℤ).toNat =
      body ++ (identifier ++ c :: (str "stop" ++ [10]) ++ text) := by
    rw [h.parts, hafter, Int.toNat_natCast, List.append_assoc, List.drop_left]
    rfl
  have htag : str "stop" ++ [10] = str "stop\n" := by decide
  obtain ⟨buffer', hskip⟩ := @search_skip identifier (str "stop\n") h.line.1
    ((identifier ++ c :: (str "stop" ++ [10])) :: pieces 10 (BUFSIZE_MAX - 1) text)
    (pieces 10 (BUFSIZE_MAX - 1) body) buffer before.length h.free
  rw [getBlockEnd, if_neg (by omega), hdrop, pieces_append h.lines, pieces_tag h.line.2 h.fits hc (by decide),
    Int.toNat_natCast, hskip, htag, search_tag h.line.1 hc0 (by decide), pieces_flatten]
  simp

theorem Block.ne_nil (h : Block identifier file before body after) : before ≠ [] ∧ after ≠ [] := by
  obtain ⟨text, c, hbefore, -⟩ := h.start
  obtain ⟨text', c', hafter, -⟩ := h.stop
  rw [hbefore, hafter]
  exact ⟨by simp, by simp⟩

theorem getBlock_before (h : Block identifier file before body after) :
    getBlock file 0 0 before.length = some before := by
  have hpos := List.length_pos_iff.mpr h.ne_nil.1
  have htake : (file.drop 0).take before.length = before := by
    rw [h.parts, List.append_assoc, List.drop_zero, List.take_left]
  have hle : ¬(before.length : ℤ) ≤ 0 := by omega
  rw [getBlock, if_neg hle, if_neg (lt_irrefl 0), sub_zero, Int.toNat_natCast, Int.toNat_zero, htake, if_pos rfl]

theorem getBlock_after (h : Block identifier file before body after) :
    getBlock file file.length (before.length + body.length) file.length = some after := by
  have hpos := List.length_pos_iff.mpr h.ne_nil.2
  have hlen : file.length = before.length + body.length + after.length := by
    rw [h.parts, List.length_append, List.length_append]
  have hstart : ((before.length : ℤ) + body.length).toNat = before.length + body.length := by omega
  have hsize : ((file.length : ℤ) - (before.length + body.length)).toNat = after.length := by omega
  have hdrop : file.drop (before.length + body.length) = after := by
    rw [h.parts, ← List.length_append, List.drop_left]
  have hle : ¬(file.length : ℤ) ≤ before.length + body.length := by omega
  have hnonneg : ¬(before.length : ℤ) + body.length < 0 := by omega
  rw [getBlock, if_neg hle, if_neg hnonneg, hstart, hsize, hdrop, List.take_length, if_pos rfl]

end Block

/-! ## Cycles and runs -/

/-- A handle and its surroundings. -/
structure Sys where
  handle : Option BlockData
  world : World

/-- The return values of the two calls, the second of which there is only after a success of the first, the
files in between, and what is left. -/
structure Outcome where
  prepare : ℤ
  prepared : World
  commit : Option ℤ
  after : Sys

inductive Event
  | get (tv : ℕ × ℕ) (buffer : Str) (returned : List Key) (parentKey : Key)
  | set (content : Str) (now : ℤ) (parentKey : Key)

section Runs

variable (env : Environment) (config : Config) (moduleConfig : List Key)

/-- Prepare, write, commit. The storage plugin writes the temporary file, which the parent key names. -/
def cycle (s : Sys) (content : Str) (now : ℤ) (parentKey : Key) : Outcome :=
  let (prepare, handle, w, parentKey) := elektraBlockresolverSet env s.handle s.world now parentKey
  if prepare ≠ 1 then ⟨prepare, w, none, ⟨handle, w⟩⟩
  else
    let (commit, handle, after, _) :=
      elektraBlockresolverSet env handle { w with tmp := some content } now parentKey
    ⟨prepare, w, some commit, ⟨handle, after⟩⟩

def step (s : Sys) : Event → Sys
  | .get tv buffer returned parentKey =>
    let r := elektraBlockresolverGet env config moduleConfig buffer s.handle s.world tv returned parentKey
    ⟨r.2.1, r.2.2.1⟩
  | .set content now parentKey => (cycle env s content now parentKey).after

def run (s : Sys) (es : List Event) : Sys := es.foldl (step env config moduleConfig) s

/-- A file that is written gets a newer time stamp. -/
def Allowed (s : Sys) : Event → Prop
  | .get _ _ _ _ => True
  | .set _ now _ => ∀ file, s.world.real = some file → file.2 < now

def AllAllowed : Sys → List Event → Prop
  | _, [] => True
  | s, e :: es => Allowed s e ∧ AllAllowed (step env config moduleConfig s e) es

/-- A set without a conflict, in which the second call alone puts the content in the place of the block. -/
def Works (s : Sys) (before after content : Str) (now : ℤ) (parentKey : Key) : Prop :=
  let o := cycle env s content now parentKey
  o.prepare = 1 ∧ o.prepared = s.world ∧ o.commit = some 1 ∧
    o.after.world.real = some (before ++ content ++ after, now)

/-- A set. -/
def Event.IsSet : Event → Prop
  | .get _ _ _ _ => False
  | .set _ _ _ => True

end Runs

/-- Before the first set: the handle is for the file as it is. -/
structure Fresh (s : Sys) (identifier file before body after : Str) (mtime : ℤ) : Prop where
  block : Block identifier file before body after
  real : s.world.real = some (file, mtime)
  data : ∃ data, s.handle = some data ∧ data.identifier = identifier ∧ data.mtime = mtime ∧
    data.startPos = before.length ∧ data.endPos = before.length + body.length ∧ data.setPass = 0

/-- After a set: the file is newer than the time stamp in the handle. -/
def Stale (s : Sys) : Prop :=
  ∃ data file mtime, s.handle = some data ∧ s.world.real = some (file, mtime) ∧ data.mtime < mtime

section Steps

variable {env : Environment} {config : Config} {moduleConfig : List Key} {s : Sys}
  {identifier file before body after : Str} {mtime : ℤ}

/-- A get touches neither the file nor the time stamp and the phase in the handle. -/
theorem extract_keeps (buffer : Str) (data : BlockData) (w : World) (file : Str) (parentKey : Key) :
    let r := extract env buffer data w file parentKey
    r.2.2.1.real = w.real ∧ r.2.1.identifier = data.identifier ∧ r.2.1.mtime = data.mtime ∧
      r.2.1.setPass = data.setPass := by
  dsimp only
  unfold extract
  dsimp only
  split_ifs
  · exact ⟨rfl, rfl, rfl, rfl⟩
  · exact ⟨rfl, rfl, rfl, rfl⟩
  · split
    · exact ⟨rfl, rfl, rfl, rfl⟩
    · cases data.tmpFile <;> exact ⟨rfl, rfl, rfl, rfl⟩

/-- The positions are those of the block, also where it is empty and is not extracted. -/
theorem extract_positions {data : BlockData} (h : Block data.identifier file before body after) (buffer : Str)
    (w : World) (parentKey : Key) : let r := extract env buffer data w file parentKey
    r.2.1.startPos = before.length ∧ r.2.1.endPos = before.length + body.length := by
  dsimp only
  unfold extract
  dsimp only
  rw [getBlockStart_eq h, getBlockEnd_eq h, if_neg (by omega), if_neg (by omega)]
  split
  · exact ⟨rfl, rfl⟩
  · cases data.tmpFile <;> exact ⟨rfl, rfl⟩

theorem initData_some (data : BlockData) (w : World) (tv : ℕ × ℕ) :
    initData config (some data) w tv = (true, data) := rfl

theorem extract_fresh {data : BlockData} {w : World} (h : Block data.identifier file before body after)
    (hreal : w.real = some (file, mtime)) (hmtime : data.mtime = mtime) (hpass : data.setPass = 0) (buffer : Str)
    (parentKey : Key) : Fresh ⟨some (extract env buffer data w file parentKey).2.1,
      (extract env buffer data w file parentKey).2.2.1⟩ data.identifier file before body after mtime := by
  obtain ⟨hsame, hident, hstamp, hphase⟩ := @extract_keeps env buffer data w file parentKey
  obtain ⟨hstart, hend⟩ := @extract_positions env file before body after data h buffer w parentKey
  exact ⟨h, hsame.trans hreal, _, rfl, hident, hstamp.trans hmtime, hstart, hend, hphase.trans hpass⟩

theorem get_fresh (h : Fresh s identifier file before body after mtime) (tv : ℕ × ℕ) (buffer : Str)
    (returned : List Key) (parentKey : Key) :
    Fresh (step env config moduleConfig s (.get tv buffer returned parentKey)) identifier file before body after
      mtime := by
  obtain ⟨data, hs, rfl, hmtime, hstart, hend, hpass⟩ := h.data
  rw [step, elektraBlockresolverGet]
  split_ifs
  · exact h
  · rw [hs, initData_some, h.real]
    dsimp only
    split_ifs
    · exact ⟨h.block, h.real, data, rfl, rfl, hmtime, hstart, hend, hpass⟩
    · exact extract_fresh h.block h.real hmtime hpass buffer _

theorem merge_eq {data : BlockData} {w : World} {content : Str} (h : Block identifier file before body after)
    (hstart : data.startPos = before.length) (hend : data.endPos = before.length + body.length)
    (htmp : w.tmp = some content) (now : ℤ) (parentKey : Key) : merge env data w file now parentKey =
      (1, { w with real := some (before ++ content ++ after, now) }, parentKey) := by
  rw [merge, hstart, hend, getBlock_before h, getBlock_after h, htmp]

theorem set_works (h : Fresh s identifier file before body after mtime) (content : Str) (now : ℤ)
    (parentKey : Key) : Works env s before after content now parentKey ∧
      ∃ data, (cycle env s content now parentKey).after.handle = some data ∧ data.mtime = mtime := by
  obtain ⟨data, hs, -, hmtime, hstart, hend, hpass⟩ := h.data
  have hnot : ¬mtime > data.mtime := by rw [hmtime]; exact lt_irrefl mtime
  have hprepare : ∃ k, elektraBlockresolverSet env s.handle s.world now parentKey =
      (1, some { data with setPass := 1 }, s.world, k) := by
    rw [hs, elektraBlockresolverSet, h.real]
    dsimp only
    rw [if_neg hnot, if_pos hpass, hpass]
    exact ⟨_, rfl⟩
  obtain ⟨k, hprepare⟩ := hprepare
  have hcommit : ∃ k', elektraBlockresolverSet env (some { data with setPass := 1 })
      { s.world with tmp := some content } now k = (1, some { data with setPass := 1 },
        { s.world with tmp := some content, real := some (before ++ content ++ after, now) }, k') := by
    rw [elektraBlockresolverSet]
    dsimp only
    rw [h.real]
    dsimp only
    have hmerge := @merge_eq env identifier file before body after { data with setPass := 1 }
      ⟨some (file, mtime), some content⟩ content h.block hstart hend rfl now
    rw [if_neg hnot, if_neg (by decide), if_pos rfl, hmerge]
    exact ⟨_, rfl⟩
  obtain ⟨k', hcommit⟩ := hcommit
  have hcycle : cycle env s content now parentKey = ⟨1, s.world, some 1, ⟨some { data with setPass := 1 },
      { s.world with tmp := some content, real := some (before ++ content ++ after, now) }⟩⟩ := by
    rw [cycle, hprepare]
    dsimp only
    rw [if_neg (not_not.mpr rfl), hcommit]
  rw [Works, hcycle]
  exact ⟨⟨rfl, rfl, rfl, rfl⟩, _, rfl, hmtime⟩

theorem cycle_stale (h : Stale s) (content : Str) (now : ℤ) (parentKey : Key) :
    cycle env s content now parentKey = ⟨-1, s.world, none, s⟩ := by
  obtain ⟨data, file, mtime, hs, hreal, hlt⟩ := h
  rw [cycle, hs, elektraBlockresolverSet, hreal]
  dsimp only
  rw [if_pos hlt]
  dsimp only
  rw [if_pos (by decide), ← hs]

theorem get_stale (h : Stale s) (tv : ℕ × ℕ) (buffer : Str) (returned : List Key) (parentKey : Key) :
    Stale (step env config moduleConfig s (.get tv buffer returned parentKey)) := by
  obtain ⟨data, file, mtime, hs, hreal, hlt⟩ := h
  rw [step, elektraBlockresolverGet]
  split_ifs
  · exact ⟨data, file, mtime, hs, hreal, hlt⟩
  · rw [hs, initData_some, hreal]
    dsimp only
    split_ifs
    · exact ⟨data, file, mtime, rfl, hreal, hlt⟩
    · obtain ⟨hsame, -, hstamp, -⟩ := @extract_keeps env buffer data s.world file
        (keySetString parentKey (data.tmpFile.getD []))
      exact ⟨_, file, mtime, rfl, hsame.trans hreal, by rw [hstamp]; exact hlt⟩

theorem step_stale (h : Stale s) (e : Event) : Stale (step env config moduleConfig s e) := by
  cases e with
  | get tv buffer returned parentKey => exact get_stale h tv buffer returned parentKey
  | set content now parentKey =>
    rw [step, cycle_stale h]
    exact h

end Steps

section Runs

variable {env : Environment} {config : Config} {moduleConfig : List Key} {s : Sys}
  {identifier file before body after : Str} {mtime : ℤ}

theorem run_stale : ∀ (es : List Event) {s : Sys}, Stale s → Stale (run env config moduleConfig s es)
  | [], _, h => h
  | e :: es, _, h => run_stale es (step_stale h e)

theorem run_cases : ∀ {es : List Event} {s : Sys}, Fresh s identifier file before body after mtime →
    AllAllowed env config moduleConfig s es →
    (∀ e ∈ es, ¬e.IsSet) ∧ Fresh (run env config moduleConfig s es) identifier file before body after mtime ∨
      (∃ e ∈ es, e.IsSet) ∧ Stale (run env config moduleConfig s es)
  | [], _, h, _ => Or.inl ⟨fun _ he => absurd he List.not_mem_nil, h⟩
  | .get tv buffer returned parentKey :: es, s, h, hes => by
    refine (@run_cases es _ (get_fresh h tv buffer returned parentKey) hes.2).imp ?_ ?_
    · rintro ⟨hget, hfresh⟩
      exact ⟨List.forall_mem_cons.mpr ⟨fun hset => hset, hget⟩, hfresh⟩
    · rintro ⟨⟨e, he, hset⟩, hstale⟩
      exact ⟨⟨e, List.mem_cons_of_mem _ he, hset⟩, hstale⟩
  | .set content now parentKey :: es, s, h, hes => by
    obtain ⟨⟨-, -, -, hreal⟩, data, hdata, hmtime⟩ := @set_works env s _ _ _ _ _ _ h content now parentKey
    have hnow : mtime < now := hes.1 (file, mtime) h.real
    refine Or.inr ⟨⟨_, List.mem_cons_self, trivial⟩, ?_⟩
    exact run_stale es ⟨data, _, now, hdata, hreal, by rw [hmtime]; exact hnow⟩

end Runs

/-- **In each run of gets and sets of one handle that starts with a get, on a file with the block that nobody
else writes, a set replaces the block if no set came before, and fails with a conflict otherwise.** -/
theorem set_works_iff (env : Environment) (config : Config) (moduleConfig : List Key) (file before body after : Str)
    (mtime : ℤ) (tmp : Option Str) (hblock : Block config.identifier file before body after)
    (tv : ℕ × ℕ) (buffer : Str) (returned : List Key) (getKey : Key) (hget : keyName getKey ≠ moduleName)
    (es : List Event)
    (hes : AllAllowed env config moduleConfig
      (step env config moduleConfig ⟨none, ⟨some (file, mtime), tmp⟩⟩ (.get tv buffer returned getKey)) es)
    (content : Str) (now : ℤ) (parentKey : Key) :
    Works env (run env config moduleConfig ⟨none, ⟨some (file, mtime), tmp⟩⟩ (.get tv buffer returned getKey :: es))
      before after content now parentKey ↔ ∀ e ∈ es, ¬e.IsSet := by
  have hfirst : Fresh (step env config moduleConfig ⟨none, ⟨some (file, mtime), tmp⟩⟩
      (.get tv buffer returned getKey)) config.identifier file before body after mtime := by
    obtain ⟨data, hinit, hident, hmtime, hset, hpass⟩ : ∃ data,
        initData config none ⟨some (file, mtime), tmp⟩ tv = (true, data) ∧ data.identifier = config.identifier ∧
          data.mtime = mtime ∧ data.setPass = 0 ∧ data.getPass = 0 := ⟨_, rfl, rfl, rfl, rfl, rfl⟩
    rw [step, elektraBlockresolverGet, if_neg hget, hinit]
    dsimp only
    rw [hpass, if_neg fun hnot => absurd hnot.1 (by decide)]
    rw [← hident] at hblock ⊢
    exact extract_fresh hblock rfl hmtime hset buffer _
  obtain ⟨hes', hfresh⟩ | ⟨⟨e, he, hset⟩, hstale⟩ := run_cases hfirst hes
  · exact iff_of_true (set_works hfresh content now parentKey).1 hes'
  · refine iff_of_false (fun hworks => ?_) fun hall => hall e he hset
    have hprepare := hworks.1
    rw [run, List.foldl_cons, ← run, cycle_stale hstale] at hprepare
    have hfailed : (-1 : ℤ) = 1 := hprepare
    omega

section Instances

def silentEnv : Environment := ⟨fun _ k _ => k, fun _ k _ => k, fun ks _ => (false, ks)⟩

def blockConfig : Config := { identifier := str "id", path := str "/f" }

def parent : Key := keyNewName (str "user/a")

theorem block_one : Block (str "id") (str "x\nid start\na\nid stop\n") (str "x\nid start\n") (str "a\n")
    (str "id stop\n") where
  parts := by decide
  start := ⟨str "x\n", 32, by decide, by decide, by decide, Or.inr (by decide), by decide⟩
  stop := ⟨[], 32, by decide, by decide, by decide⟩
  lines := Or.inr (by decide)
  free := by decide
  line := by decide
  fits := by decide

/-- The first set. -/
theorem set_works_first : Works silentEnv (run silentEnv blockConfig []
    ⟨none, ⟨some (str "x\nid start\na\nid stop\n", 1), none⟩⟩ [.get (1, 1) [] [] parent]) (str "x\nid start\n") (str "id stop\n") (str "b\n") 2 parent :=
  (set_works_iff silentEnv blockConfig [] _ _ _ _ 1 none block_one (1, 1) [] [] parent (by decide +kernel) []
    trivial (str "b\n") 2 parent).mpr fun e he => absurd he List.not_mem_nil

/-- After a get and a set. -/
def afterSet : Sys := run silentEnv blockConfig [] ⟨none, ⟨some (str "x\nid start\na\nid stop\n", 1), none⟩⟩
  [.get (1, 1) [] [] parent, .set (str "b\n") 2 parent]

/-- The second set finds the file that the first one wrote, and takes it for a conflict. -/
theorem not_set_works : ¬∃ before after, Works silentEnv afterSet before after (str "c\n") 3 parent := by
  rintro ⟨before, after, hworks⟩
  have hprepare : (cycle silentEnv afterSet (str "c\n") 3 parent).prepare = -1 := by decide +kernel
  have hone := hworks.1
  rw [hprepare] at hone
  omega

end Instances

end Elektra.Blockresolver
