import Elektra.Meta.CmpOrder
import Elektra.Plugin.Line
import Elektra.Plugin.Records

/-!
# The fstab plugin

Each entry of an fstab becomes a key with six keys below it. The key is named by the mount point, by the type where
there is none, or by a number where the entry is one of swap. The writer takes a key that has not the name of one of
the six for the begin of an entry.

* `elektraFstabFsName`, `elektraFstabGet`, `elektraFstabSet`: the code;
* `Held`, `getLoop_holds`, `keys_sorted`: the keys of the entries that were read;
* `count_blocks`, `finish_blocks`: what is written of them; `throughBuffer_lt`: numbers that are cut off;
* **`fstab_roundTrip_iff`**: which entries are written as they were read.
-/

namespace Elektra.Fstab

open Ease Records

/-! ## The code -/

def MAX_NUMBER_SIZE : ℕ := 10

def KDB_MAX_PATH_LENGTH : ℕ := 4096

/-- An entry, as `getmntent` returns it. -/
structure Mntent where
  mnt_fsname : CString
  mnt_dir : CString
  mnt_type : CString
  mnt_opts : CString
  mnt_freq : ℤ
  mnt_passno : ℤ

/-- `%d` -/
def printInt (n : ℤ) : Str := (if n < 0 then [45] else []) ++ digits n.natAbs

theorem nul_printInt (n : ℤ) : 0 ∉ printInt n := by
  intro h
  obtain h | h := List.mem_append.mp h
  · split_ifs at h
    · exact absurd (List.mem_singleton.mp h) (by decide)
    · exact absurd h List.not_mem_nil
  · exact absurd (isdigit_digits _ 0 h) (by decide)

/-- `swap%02d`, of an `unsigned int` -/
def swapName (swapIndex : ℕ) : Str :=
  let number := printInt (Int.bmod swapIndex (2 ^ 32))
  str "swap" ++ List.replicate (2 - number.length) 48 ++ number

theorem nul_swapName (swapIndex : ℕ) : 0 ∉ swapName swapIndex := by
  intro h
  obtain h | h := List.mem_append.mp h
  · obtain h | h := List.mem_append.mp h
    · exact absurd h (by decide)
    · exact absurd (List.eq_of_mem_replicate h) (by decide)
  · exact nul_printInt _ h

/-- The name, and the index for the next swap. -/
def elektraFstabFsName (fstabEntry : Mntent) (swapIndex : ℕ) : CString × ℕ :=
  if fstabEntry.mnt_type.1 = str "swap" then (⟨swapName swapIndex, nul_swapName swapIndex⟩, (swapIndex + 1) % 2 ^ 32)
  else if fstabEntry.mnt_dir.1 = str "none" then (fstabEntry.mnt_type, swapIndex)
  else (fstabEntry.mnt_dir, swapIndex)

def keySetComment (key : Key) (newComment : Str) : Key :=
  (keySetMeta key (str "comment") (if newComment = [] then none else some newComment)).2

/-- The keys below that of an entry. -/
inductive Field
  | device
  | mpoint
  | type
  | options
  | dumpfreq
  | passno
  deriving DecidableEq

namespace Field

/-- In the order in which they are appended. -/
def all : List Field := [device, mpoint, type, options, dumpfreq, passno]

def name : Field → Str
  | device => str "device"
  | mpoint => str "mpoint"
  | type => str "type"
  | options => str "options"
  | dumpfreq => str "dumpfreq"
  | passno => str "passno"

/-- The numbers go through a buffer. -/
def value (fstabEntry : Mntent) : Field → Str
  | device => fstabEntry.mnt_fsname.1
  | mpoint => fstabEntry.mnt_dir.1
  | type => fstabEntry.mnt_type.1
  | options => fstabEntry.mnt_opts.1
  | dumpfreq => (printInt fstabEntry.mnt_freq).take (MAX_NUMBER_SIZE - 1)
  | passno => (printInt fstabEntry.mnt_passno).take (MAX_NUMBER_SIZE - 1)

def comment : Field → Str
  | device => str "Device or Label"
  | mpoint => str "Mount point"
  | type => str "Filesystem type."
  | options => str "Filesystem specific options"
  | dumpfreq => str "Dump frequency in days"
  | passno => str "Pass number on parallel fsck"

end Field

def dirKey (parentKey : Key) (fsname : Str) : Key :=
  keySetComment (keySetComment (keySetString (keyAddBaseName (keyDup parentKey) (some fsname)).2 []) [])
    (str "Filesystem pseudo-name")

def fieldKey (dir : Key) (fstabEntry : Mntent) (x : Field) : Key :=
  keySetComment (keySetString (keyAddBaseName (keyDup dir) (some x.name)).2 (x.value fstabEntry)) x.comment

/-- The keys that are appended for an entry. -/
def entryKeys (parentKey : Key) (fsname : Str) (fstabEntry : Mntent) : List Key :=
  dirKey parentKey fsname :: Field.all.map (fieldKey (dirKey parentKey fsname) fstabEntry)

/-- The loop of `elektraFstabGet`. There is no result where a name does not fit into `fsname`. -/
def getLoop (parentKey : Key) : ℕ → List Mntent → List Key → Option (List Key)
  | _, [], returned => some returned
  | swapIndex, fstabEntry :: rest, returned =>
    let (fsname, swapIndex) := elektraFstabFsName fstabEntry swapIndex
    if KDB_MAX_PATH_LENGTH ≤ fsname.1.length then none
    else getLoop parentKey swapIndex rest ((entryKeys parentKey fsname.1 fstabEntry).foldl ksAppendValue returned)

/-- `struct mntent`, as it is handed to `addmntent`: a string may be the null pointer. -/
structure Written where
  mnt_fsname : Option Str
  mnt_dir : Option Str
  mnt_type : Option Str
  mnt_opts : Option Str
  mnt_freq : ℤ
  mnt_passno : ℤ
  deriving DecidableEq

def Written.zero : Written := ⟨none, none, none, none, 0, 0⟩

/-- The state of the loop of `elektraFstabSet`: whether there is a root name, the entry, and what was written. -/
structure State where
  rootname : Bool
  fstabEntry : Written
  out : List Written

/-- A round, for the base name and the string of a key. -/
def setStep (s : State) (basename value : Str) : State :=
  if basename = str "device" then { s with fstabEntry := { s.fstabEntry with mnt_fsname := some value } }
  else if basename = str "mpoint" then { s with fstabEntry := { s.fstabEntry with mnt_dir := some value } }
  else if basename = str "type" then { s with fstabEntry := { s.fstabEntry with mnt_type := some value } }
  else if basename = str "options" then { s with fstabEntry := { s.fstabEntry with mnt_opts := some value } }
  else if basename = str "dumpfreq" then
    { s with fstabEntry := { s.fstabEntry with mnt_freq := Rename.atoiInt value } }
  else if basename = str "passno" then
    { s with fstabEntry := { s.fstabEntry with mnt_passno := Rename.atoiInt value } }
  -- new rootname
  else if s.rootname = false then { s with rootname := true }
  else { s with fstabEntry := .zero, out := s.out ++ [s.fstabEntry] }

def State.start : State := ⟨false, .zero, []⟩

/-- The last entry is written behind the loop. -/
def State.finish (s : State) : List Written := if s.rootname then s.out ++ [s.fstabEntry] else s.out

/-- The string at `keyValue`. -/
def keyValue (key : Key) : Str := (key.data.getD []).takeWhile (· ≠ 0)

def moduleName : Str := str "system/elektra/modules/fstab"

section Calls

variable (env : Environment) (moduleConfig : List Key)

/-- The entries of a file, unless it cannot be opened. -/
def elektraFstabGet (fstab : Except Line.Errno (List Mntent)) (returned : List Key) (parentKey : Key) :
    Option (ℤ × List Key × Key) :=
  if keyName parentKey = moduleName then some (1, moduleConfig.foldl ksAppendValue returned, parentKey)
  else
    let returned := ksAppendValue returned (keyDup parentKey)
    match fstab with
    | .error errno => some (-1, returned, env.setError (if errno.access then 109 else 110) parentKey errno.text)
    | .ok entries =>
      (getLoop parentKey 0 entries returned).map fun returned =>
        (Int.bmod (1 + 7 * entries.length) (2 ^ 32), returned, parentKey)

/-- The entries that are handed to `addmntent`. The first key is skipped. -/
def elektraFstabSet (fstab : Except Line.Errno Unit) (ks : List Key) (parentKey : Key) : ℤ × List Written × Key :=
  match fstab with
  | .error errno => (-1, [], env.setError (if errno.access then 9 else 75) parentKey errno.text)
  | .ok _ =>
    (1, (ks.tail.foldl (fun s key => setStep s (keyBaseName key) (keyValue key)) .start).finish, parentKey)

end Calls

/-! ## The keys of the entries -/

namespace Field

theorem nul_name (x : Field) : 0 ∉ x.name := by
  cases x <;> decide

/-- As a part of a path. -/
def part (x : Field) : CString := ⟨x.name, x.nul_name⟩

theorem nul_value (fstabEntry : Mntent) (x : Field) : 0 ∉ x.value fstabEntry := by
  cases x with
  | device => exact fstabEntry.mnt_fsname.2
  | mpoint => exact fstabEntry.mnt_dir.2
  | type => exact fstabEntry.mnt_type.2
  | options => exact fstabEntry.mnt_opts.2
  | dumpfreq => exact fun h => nul_printInt _ (List.mem_of_mem_take h)
  | passno => exact fun h => nul_printInt _ (List.mem_of_mem_take h)

/-- In the order in which they stand. -/
def sorted : List Field := [device, dumpfreq, mpoint, options, passno, type]

theorem sorted_perm : sorted.Perm all := by decide

theorem sorted_lt : sorted.Pairwise fun x y => compare x.name y.name = .lt := by decide

theorem mem_sorted (x : Field) : x ∈ sorted := by
  cases x <;> decide

theorem part_injective {x y : Field} (h : x.part = y.part) : x = y := by
  have hname : x.name = y.name := congrArg Subtype.val h
  revert hname
  cases x <;> cases y <;> decide

end Field

/-- The key of an entry, below that of `r`. -/
def dirRecord (r : Record) (f : CString) : Record where
  path := r.path.add f
  value := []
  metadata := fun m =>
    if m = str "comment" then some (str "Filesystem pseudo-name")
    else if m = str "binary" then none else r.metadata m

def fieldRecord (d : Record) (e : Mntent) (x : Field) : Record where
  path := d.path.add x.part
  value := x.value e
  metadata := fun m => if m = str "comment" then some x.comment else if m = str "binary" then none else d.metadata m

/-- The keys of an entry. -/
def block (r : Record) (f : CString) (e : Mntent) : List Record :=
  dirRecord r f :: Field.sorted.map (fieldRecord (dirRecord r f) e)

section Keys

variable {k parentKey : Key} {r q : Record} {f g : CString} {e e' : Mntent} {owner : Option Str} {ks : List Key}
  {acc : List (CString × Mntent)}

theorem work_comment (h : Work k r) {c : Str} (hc : c ≠ []) : Work (keySetComment k c)
    { r with metadata := fun m => if m = str "comment" then some c else r.metadata m } := by
  rw [keySetComment, if_neg hc]
  exact h.setMeta (by decide) (some c)

theorem work_dirKey (h : Is parentKey r) (f : CString) : Work (dirKey parentKey f.1) (dirRecord r f) := by
  have hstring := @Work.setString _ _ [] (h.dup.addBaseName f) List.not_mem_nil
  have hnone := @Work.setMeta _ _ (str "comment") hstring (by decide) none
  have hall := @work_comment _ _ hnone (str "Filesystem pseudo-name") (by decide)
  have hmeta : (dirRecord r f).metadata = fun m =>
      if m = str "comment" then some (str "Filesystem pseudo-name")
      else if m = str "comment" then none else if m = str "binary" then none else r.metadata m := by
    funext m
    dsimp only [dirRecord]
    by_cases hm : m = str "comment"
    · rw [if_pos hm, if_pos hm]
    · rw [if_neg hm, if_neg hm, if_neg hm]
  rw [show dirRecord r f = ⟨r.path.add f, [], (dirRecord r f).metadata⟩ from rfl, hmeta]
  exact hall

theorem work_fieldKey (h : Is k r) (e : Mntent) (x : Field) : Work (fieldKey k e x) (fieldRecord r e x) := by
  have hstring := @Work.setString _ _ (x.value e) (h.dup.addBaseName x.part) (x.nul_value e)
  exact work_comment hstring (by cases x <;> decide)

theorem path_of_block (h : q ∈ block r f e) : q.path = r.path.add f ∨ ∃ x : Field, q.path = (r.path.add f).add x.part := by
  obtain rfl | h := List.mem_cons.mp h
  · exact .inl rfl
  · obtain ⟨x, -, rfl⟩ := List.mem_map.mp h
    exact .inr ⟨x, rfl⟩

theorem uname_of_block (h : q ∈ block r f e) : ∃ rest, q.path.uname = (r.path.add f).uname ++ rest := by
  obtain hpath | ⟨x, hpath⟩ := path_of_block h
  · exact ⟨[], by rw [hpath, List.append_nil]⟩
  · exact ⟨x.part.1 ++ [0], by rw [hpath, Path.uname_add, List.append_assoc]⟩

theorem length_add (P : Path) (s : CString) : (P.add s).parts.length = P.parts.length + 1 := by
  simp [Path.add]

theorem ne_of_block (h : q ∈ block r f e) : q.path ≠ r.path := by
  intro he
  have hlen := congrArg (fun P => P.parts.length) he
  obtain hpath | ⟨x, hpath⟩ := path_of_block h
  · rw [hpath, length_add] at hlen
    omega
  · rw [hpath, length_add, length_add] at hlen
    omega

theorem ne_of_blocks {q' : Record} (hq : q ∈ block r f e) (hq' : q' ∈ block r g e') (hne : f ≠ g) : q.path ≠ q'.path := by
  intro he
  have hlen := congrArg (fun P => P.parts.length) he
  obtain h | ⟨x, h⟩ := path_of_block hq <;> obtain h' | ⟨y, h'⟩ := path_of_block hq'
  · exact hne (add_injective (h.symm.trans (he.trans h')))
  · rw [h, h', length_add, length_add, length_add] at hlen
    omega
  · rw [h, h', length_add, length_add, length_add] at hlen
    omega
  · have hadd := h.symm.trans (he.trans h')
    have hparts : (r.path.parts ++ [f]) ++ [x.part] = (r.path.parts ++ [g]) ++ [y.part] := congrArg Path.parts hadd
    have hcons := List.append_cancel_left (List.append_inj_left' hparts rfl)
    exact hne (List.singleton_inj.mp hcons)

/-- Of the entries of a name, the first in the list is that which was read last. -/
def Held (r : Record) (acc : List (CString × Mntent)) (q : Record) : Prop :=
  q = r ∨ ∃ f e, acc.lookup f = some e ∧ q ∈ block r f e

/-- **The keys of one more entry.** -/
theorem entryKeys_holds (hparent : Is parentKey r) (howner : r.metadata (str "owner") = owner)
    (h : Recorded (Held r acc) owner ks) (f : CString) (e : Mntent) :
    Recorded (Held r ((f, e) :: acc)) owner ((entryKeys parentKey f.1 e).foldl ksAppendValue ks) := by
  have hdir := work_dirKey hparent f
  have hperm : (block r f e).Perm (dirRecord r f :: Field.all.map (fieldRecord (dirRecord r f) e)) :=
    (Field.sorted_perm.map _).cons _
  have hkeys : List.Forall₂ Is (entryKeys parentKey f.1 e)
      (dirRecord r f :: Field.all.map (fieldRecord (dirRecord r f) e)) := by
    refine .cons hdir.toIs ?_
    rw [List.forall₂_map_left_iff, List.forall₂_map_right_iff, List.forall₂_same]
    exact fun x _ => (work_fieldKey hdir.toIs e x).toIs
  have howners : ∀ q ∈ dirRecord r f :: Field.all.map (fieldRecord (dirRecord r f) e),
      q.metadata (str "owner") = owner := by
    intro q hq
    obtain rfl | hq := List.mem_cons.mp hq
    · exact howner
    · obtain ⟨x, -, rfl⟩ := List.mem_map.mp hq
      exact howner
  have hpaths : (dirRecord r f :: Field.all.map (fieldRecord (dirRecord r f) e)).Pairwise
      fun q q' => q.path ≠ q'.path := by
    refine List.pairwise_cons.mpr ⟨fun q hq => ?_, List.pairwise_map.mpr ?_⟩
    · obtain ⟨x, -, rfl⟩ := List.mem_map.mp hq
      exact add_ne _ x.part
    · have hnodup : Field.all.Nodup := by decide
      exact hnodup.imp fun hne he => hne (Field.part_injective (add_injective he))
  refine (h.putAll hkeys howners hpaths).congr fun q => ?_
  constructor
  · rintro (hq | ⟨rfl | ⟨g, e', hg, hq⟩, hall⟩)
    · exact .inr ⟨f, e, List.lookup_cons_self, hperm.mem_iff.mpr hq⟩
    · exact .inl rfl
    · by_cases hgf : g = f
      · subst hgf
        exfalso
        obtain hpath | ⟨x, hpath⟩ := path_of_block hq
        · exact hall _ List.mem_cons_self hpath
        · exact hall (fieldRecord (dirRecord r g) e x)
            (hperm.mem_iff.mp (List.mem_cons_of_mem _ (List.mem_map_of_mem x.mem_sorted))) hpath
      · exact .inr ⟨g, e', by rw [List.lookup_cons, beq_eq_false_iff_ne.mpr hgf]; exact hg, hq⟩
  · rintro (rfl | ⟨g, e', hg, hq⟩)
    · exact .inr ⟨.inl rfl, fun q' hq' => (ne_of_block (hperm.mem_iff.mpr hq')).symm⟩
    · by_cases hgf : g = f
      · subst hgf
        rw [List.lookup_cons_self] at hg
        cases hg
        exact .inl (hperm.mem_iff.mp hq)
      · rw [List.lookup_cons, beq_eq_false_iff_ne.mpr hgf] at hg
        exact .inr ⟨.inr ⟨g, e', hg, hq⟩, fun q' hq' => ne_of_blocks hq (hperm.mem_iff.mpr hq') hgf⟩

/-- The entries with their names. -/
def pairs : ℕ → List Mntent → List (CString × Mntent)
  | _, [] => []
  | swapIndex, e :: rest => ((elektraFstabFsName e swapIndex).1, e) :: pairs (elektraFstabFsName e swapIndex).2 rest

theorem map_snd_pairs : ∀ (entries : List Mntent) (swapIndex : ℕ), (pairs swapIndex entries).map Prod.snd = entries
  | [], _ => rfl
  | e :: rest, swapIndex => by rw [pairs, List.map_cons, map_snd_pairs rest]

/-- **The keys of the entries that were read.** -/
theorem getLoop_holds (hparent : Is parentKey r) (howner : r.metadata (str "owner") = owner) :
    ∀ (entries : List Mntent) (swapIndex : ℕ) {acc : List (CString × Mntent)} {ks : List Key},
    Recorded (Held r acc) owner ks → (∀ p ∈ pairs swapIndex entries, p.1.1.length < KDB_MAX_PATH_LENGTH) →
    ∃ ks', getLoop parentKey swapIndex entries ks = some ks' ∧
      Recorded (Held r ((pairs swapIndex entries).reverse ++ acc)) owner ks'
  | [], _, _, ks, h, _ => ⟨ks, rfl, h⟩
  | e :: rest, swapIndex, acc, ks, h, hshort => by
    rw [pairs] at hshort
    have hput := entryKeys_holds hparent howner h (elektraFstabFsName e swapIndex).1 e
    obtain ⟨ks', hks', hrest⟩ := getLoop_holds hparent howner rest (elektraFstabFsName e swapIndex).2 hput
      fun p hp => hshort p (List.mem_cons_of_mem _ hp)
    refine ⟨ks', ?_, ?_⟩
    · rw [getLoop]
      dsimp only
      rw [if_neg (not_le.mpr (hshort _ List.mem_cons_self))]
      exact hks'
    · rw [pairs, List.reverse_cons, List.append_assoc]
      exact hrest

theorem short_of_getLoop : ∀ {entries : List Mntent} {swapIndex : ℕ} {ks ks' : List Key},
    getLoop parentKey swapIndex entries ks = some ks' →
    ∀ p ∈ pairs swapIndex entries, p.1.1.length < KDB_MAX_PATH_LENGTH
  | [], _, _, _, _, p, hp => absurd hp List.not_mem_nil
  | e :: rest, swapIndex, ks, ks', h, p, hp => by
    rw [getLoop] at h
    dsimp only at h
    split_ifs at h with hlen
    rw [pairs] at hp
    obtain rfl | hp := List.mem_cons.mp hp
    · exact not_le.mp hlen
    · exact short_of_getLoop h p hp

end Keys

/-! ## The order of the keys -/

/-- The entries by their names. -/
structure Sorted (acc last : List (CString × Mntent)) : Prop where
  pairwise : last.Pairwise fun p q => compare p.1.1 q.1.1 = .lt
  mem : ∀ f e, (f, e) ∈ last ↔ acc.lookup f = some e

theorem exists_sorted : ∀ acc : List (CString × Mntent), ∃ last, Sorted acc last
  | [] => ⟨[], .nil, fun f e => ⟨fun h => absurd h List.not_mem_nil, fun h => by cases h⟩⟩
  | (g, e) :: acc => by
    obtain ⟨last, hlast⟩ := exists_sorted acc
    refine ⟨last.filter (fun p => compare p.1.1 g.1 = .lt) ++ (g, e) :: last.filter (fun p => compare g.1 p.1.1 = .lt),
      ?_, fun f e' => ?_⟩
    · refine List.pairwise_append.mpr ⟨hlast.pairwise.filter _, List.pairwise_cons.mpr ⟨fun p hp => ?_,
        hlast.pairwise.filter _⟩, fun p hp q hq => ?_⟩
      · exact of_decide_eq_true (List.mem_filter.mp hp).2
      · have hpg : compare p.1.1 g.1 = .lt := of_decide_eq_true (List.mem_filter.mp hp).2
        obtain rfl | hq := List.mem_cons.mp hq
        · exact hpg
        · exact Std.TransCmp.lt_trans hpg (of_decide_eq_true (List.mem_filter.mp hq).2)
    · rw [List.mem_append, List.mem_cons, List.mem_filter, List.mem_filter, hlast.mem, decide_eq_true_eq,
        decide_eq_true_eq, List.lookup_cons]
      by_cases hfg : f = g
      · subst hfg
        rw [Std.ReflOrd.compare_self, beq_self_eq_true]
        constructor
        · rintro (⟨-, h⟩ | h | ⟨-, h⟩)
          · cases h
          · cases h
            rfl
          · cases h
        · intro h
          cases h
          exact .inr (.inl rfl)
      · rw [beq_eq_false_iff_ne.mpr hfg]
        have hcmp : compare f.1 g.1 = .lt ∨ compare g.1 f.1 = .lt := by
          cases hc : compare f.1 g.1 with
          | lt => exact .inl rfl
          | eq => exact absurd (Subtype.ext (Std.LawfulEqOrd.compare_eq_iff_eq.mp hc)) hfg
          | gt => exact .inr (Std.OrientedCmp.gt_iff_lt.mp hc)
        constructor
        · rintro (⟨h, -⟩ | h | ⟨h, -⟩)
          · exact h
          · exact absurd (congrArg Prod.fst h) hfg
          · exact h
        · intro h
          obtain hlt | hlt := hcmp
          · exact .inl ⟨h, hlt⟩
          · exact .inr (.inr ⟨h, hlt⟩)

section Order

variable {r : Record} {f : CString} {e : Mntent} {owner : Option Str} {ks : List Key} {acc last : List (CString × Mntent)}

theorem block_pairwise (r : Record) (f : CString) (e : Mntent) :
    (block r f e).Pairwise fun q q' => compare q.path.uname q'.path.uname = .lt := by
  refine List.pairwise_cons.mpr ⟨fun q hq => ?_, List.pairwise_map.mpr (Field.sorted_lt.imp fun hlt => ?_)⟩
  · obtain ⟨x, -, rfl⟩ := List.mem_map.mp hq
    exact compare_child (r.path.add f) x.part
  · exact (compare_siblings _ _ _).trans hlt

/-- **The keys of the entries stand behind that of the parent, in the order of their names.** -/
theorem keys_sorted (h : Recorded (Held r acc) owner ks) (hlast : Sorted acc last) :
    List.Forall₂ Is ks (r :: last.flatMap fun p => block r p.1 p.2) := by
  refine h.forall₂ (fun q => ?_) (List.pairwise_cons.mpr ⟨fun q hq => ?_, List.pairwise_flatMap.mpr ⟨?_, ?_⟩⟩)
  · rw [Held, List.mem_cons, List.mem_flatMap]
    refine or_congr_right ⟨?_, ?_⟩
    · rintro ⟨f, e, hlookup, hq⟩
      exact ⟨(f, e), (hlast.mem f e).mpr hlookup, hq⟩
    · rintro ⟨p, hp, hq⟩
      exact ⟨p.1, p.2, (hlast.mem p.1 p.2).mp hp, hq⟩
  · obtain ⟨p, -, hq⟩ := List.mem_flatMap.mp hq
    obtain ⟨rest, hrest⟩ := uname_of_block hq
    rw [hrest]
    exact compare_below r.path p.1 rest
  · exact fun p _ => block_pairwise r p.1 p.2
  · refine hlast.pairwise.imp fun {p q} hlt => fun x hx y hy => ?_
    obtain ⟨rest, hrest⟩ := uname_of_block hx
    obtain ⟨rest', hrest'⟩ := uname_of_block hy
    rw [hrest, hrest']
    exact compare_subtrees r.path hlt rest rest'

theorem Sorted.names (hlast : Sorted acc last) : (last.map Prod.fst).Nodup ∧
    ∀ f, f ∈ last.map Prod.fst ↔ f ∈ acc.map Prod.fst := by
  constructor
  · refine List.pairwise_map.mpr (hlast.pairwise.imp fun {p q} hlt he => ?_)
    rw [he, Std.ReflOrd.compare_self] at hlt
    cases hlt
  · intro f
    constructor
    · intro h
      obtain ⟨p, hp, rfl⟩ := List.mem_map.mp h
      have hlookup := (hlast.mem p.1 p.2).mp hp
      by_contra hno
      rw [List.lookup_eq_none_iff.mpr] at hlookup
      · cases hlookup
      · exact fun q hq => bne_iff_ne.mpr fun he => hno (List.mem_map.mpr ⟨q, hq, he.symm⟩)
    · intro h
      obtain ⟨p, hp, rfl⟩ := List.mem_map.mp h
      cases hlookup : acc.lookup p.1 with
      | none => exact absurd rfl (bne_iff_ne.mp (List.lookup_eq_none_iff.mp hlookup p hp))
      | some e => exact List.mem_map.mpr ⟨(p.1, e), (hlast.mem p.1 e).mpr hlookup, rfl⟩

theorem Sorted.length_le (hlast : Sorted acc last) : last.length ≤ acc.length := by
  obtain ⟨hnodup, hmem⟩ := hlast.names
  have hle := (hnodup.subperm fun f hf => (hmem f).mp hf).length_le
  rwa [List.length_map, List.length_map] at hle

theorem Sorted.nodup (hlast : Sorted acc last) (hlen : acc.length ≤ last.length) : (acc.map Prod.fst).Nodup := by
  obtain ⟨hnodup, hmem⟩ := hlast.names
  have hperm := (hnodup.subperm fun f hf => (hmem f).mp hf).perm_of_length_le
    (by rw [List.length_map, List.length_map]; exact hlen)
  exact hperm.nodup_iff.mp hnodup

theorem Sorted.perm (hlast : Sorted acc last) (hnodup : (acc.map Prod.fst).Nodup) : last.Perm acc := by
  refine (List.perm_ext_iff_of_nodup hlast.names.1.of_map hnodup.of_map).mpr fun p => ?_
  rw [show p = (p.1, p.2) from rfl, hlast.mem]
  constructor
  · intro h
    obtain ⟨l₁, l₂, rfl, -⟩ := List.lookup_eq_some_iff.mp h
    exact List.mem_append_right _ List.mem_cons_self
  · intro h
    obtain ⟨l₁, l₂, rfl⟩ := List.append_of_mem h
    refine List.lookup_eq_some_iff.mpr ⟨l₁, l₂, rfl, fun q hq => bne_iff_ne.mpr fun he => ?_⟩
    rw [List.map_append, List.map_cons] at hnodup
    exact (List.nodup_append.mp hnodup).2.2 q.1 (List.mem_map_of_mem hq) p.1 List.mem_cons_self he.symm

end Order

/-! ## What is written -/

/-- The base name of a path. -/
def baseOf (P : Path) : Str := (P.parts.getLast?.map Subtype.val).getD []

def recordStep (s : State) (q : Record) : State := setStep s (baseOf q.path) q.value

/-- The entry as it is read from its keys. -/
def reread (e : Mntent) : Written :=
  ⟨some e.mnt_fsname.1, some e.mnt_dir.1, some e.mnt_type.1, some e.mnt_opts.1,
    Rename.atoiInt (Field.value e .dumpfreq), Rename.atoiInt (Field.value e .passno)⟩

/-- How many entries are written if nothing follows. -/
def State.count (s : State) : ℕ := s.out.length + if s.rootname then 1 else 0

def Unlike (f : Str) : Prop := ∀ x : Field, f ≠ x.name

instance (f : Str) : Decidable (Unlike f) :=
  decidable_of_iff (∀ x ∈ Field.sorted, f ≠ x.name) ⟨fun h x => h x x.mem_sorted, fun h x _ => h x⟩

section Written

variable {r : Record} {f : CString} {e : Mntent} {ks : List Key} {rs : List Record} {s : State}

theorem baseOf_add (P : Path) (s : CString) : baseOf (P.add s) = s.1 := by
  simp [baseOf, Path.add]

theorem foldl_records (h : List.Forall₂ Is ks rs) : (∀ q ∈ rs, q.metadata (str "binary") = none) → ∀ s : State,
    ks.foldl (fun s key => setStep s (keyBaseName key) (keyValue key)) s = rs.foldl recordStep s := by
  induction h with
  | nil => exact fun _ _ => rfl
  | @cons k q ks rs his _ ih =>
    intro hbinary s
    have hvalue : keyValue k = q.value := by
      rw [← his.value, keyString, his.metadata, hbinary q List.mem_cons_self, keyValue]
      cases k.data <;> rfl
    rw [List.foldl_cons, List.foldl_cons, keyBaseName_eq his.name, hvalue]
    exact ih (fun q' hq' => hbinary q' (List.mem_cons_of_mem q hq')) _

theorem setStep_field (s : State) (x : Field) (value : Str) : ∃ w, setStep s x.name value = { s with fstabEntry := w } := by
  cases x <;> exact ⟨_, rfl⟩

theorem setStep_unlike {b : Str} (hb : Unlike b) (s : State) (value : Str) : setStep s b value =
    if s.rootname = false then { s with rootname := true }
    else { s with fstabEntry := .zero, out := s.out ++ [s.fstabEntry] } := by
  have hne : b ≠ str "device" ∧ b ≠ str "mpoint" ∧ b ≠ str "type" ∧ b ≠ str "options" ∧ b ≠ str "dumpfreq" ∧
      b ≠ str "passno" := ⟨hb .device, hb .mpoint, hb .type, hb .options, hb .dumpfreq, hb .passno⟩
  rw [setStep, if_neg hne.1, if_neg hne.2.1, if_neg hne.2.2.1, if_neg hne.2.2.2.1, if_neg hne.2.2.2.2.1,
    if_neg hne.2.2.2.2.2]

theorem count_setStep (s : State) (b value : Str) : (setStep s b value).count = s.count + if Unlike b then 1 else 0 := by
  by_cases hb : Unlike b
  · rw [if_pos hb, setStep_unlike hb]
    cases hroot : s.rootname with
    | false =>
      rw [if_pos rfl, State.count, State.count, hroot]
      rfl
    | true =>
      rw [if_neg (by decide), State.count, State.count, hroot, List.length_append]
      rfl
  · obtain ⟨x, hx⟩ := not_forall.mp hb
    obtain rfl := not_not.mp hx
    obtain ⟨w, hw⟩ := setStep_field s x value
    rw [hw, if_neg hb]
    rfl

theorem count_fields (d : Record) (e : Mntent) : ∀ (l : List Field) (s : State),
    ((l.map (fieldRecord d e)).foldl recordStep s).count = s.count
  | [], _ => rfl
  | x :: l, s => by
    obtain ⟨w, hw⟩ := setStep_field s x (x.value e)
    have hstep : recordStep s (fieldRecord d e x) = { s with fstabEntry := w } := by
      rw [recordStep, fieldRecord, baseOf_add]
      exact hw
    rw [List.map_cons, List.foldl_cons, count_fields d e l, hstep]
    rfl

/-- **An entry is counted if its name is not that of a field.** -/
theorem count_blocks (r : Record) : ∀ (last : List (CString × Mntent)) (s : State),
    ((last.flatMap fun p => block r p.1 p.2).foldl recordStep s).count =
      s.count + last.countP fun p => Unlike p.1.1
  | [], _ => rfl
  | p :: last, s => by
    rw [List.flatMap_cons, List.foldl_append, count_blocks r last, block, List.foldl_cons, count_fields, recordStep,
      dirRecord, baseOf_add, count_setStep, List.countP_cons, Nat.add_assoc]
    congr 1
    rw [Nat.add_comm]
    by_cases hp : Unlike p.1.1
    · rw [if_pos hp, if_pos (decide_eq_true hp)]
    · rw [if_neg hp, if_neg fun h => hp (of_decide_eq_true h)]

theorem length_finish (s : State) : s.finish.length = s.count := by
  rw [State.finish, State.count]
  split_ifs
  · rw [List.length_append, List.length_singleton]
  · rfl

theorem foldl_block (hf : Unlike f.1) (r : Record) (e : Mntent) (s : State) :
    (block r f e).foldl recordStep s = ⟨true, reread e, s.finish⟩ := by
  have hdir : recordStep s (dirRecord r f) =
      if s.rootname = false then { s with rootname := true }
      else { s with fstabEntry := .zero, out := s.out ++ [s.fstabEntry] } := by
    rw [recordStep, dirRecord, baseOf_add, setStep_unlike hf]
  have hfields : ∀ s : State, (Field.sorted.map (fieldRecord (dirRecord r f) e)).foldl recordStep s =
      { s with fstabEntry := reread e } := by
    intro s
    have hstep : ∀ (s : State) (x : Field), recordStep s (fieldRecord (dirRecord r f) e x) = setStep s x.name (x.value e) :=
      fun s x => by rw [recordStep, fieldRecord, baseOf_add]; rfl
    simp only [Field.sorted, List.map_cons, List.map_nil, List.foldl_cons, List.foldl_nil, hstep]
    rfl
  rw [block, List.foldl_cons, hfields, hdir, State.finish]
  cases hroot : s.rootname <;> rfl

/-- **Every entry is written behind the one before.** -/
theorem finish_blocks (r : Record) : ∀ (last : List (CString × Mntent)) (s : State), (∀ p ∈ last, Unlike p.1.1) →
    ((last.flatMap fun p => block r p.1 p.2).foldl recordStep s).finish = s.finish ++ last.map fun p => reread p.2
  | [], s, _ => (List.append_nil _).symm
  | p :: last, s, h => by
    rw [List.flatMap_cons, List.foldl_append, foldl_block (h p List.mem_cons_self),
      finish_blocks r last _ fun q hq => h q (List.mem_cons_of_mem p hq), List.map_cons]
    exact (List.append_cons s.finish (reread p.2) _).symm

end Written

/-! ## Numbers -/

section Numbers

variable {ds : Str} {n : ℤ}

theorem atoiSigned_of_digits (h : IsDigits ds) (hne : ds ≠ []) : Rename.atoiSigned ds = value ds := by
  obtain ⟨d, ds, rfl⟩ := List.exists_cons_of_ne_nil hne
  have hdigit := isdigit_iff.mp (h d List.mem_cons_self)
  have hskip : (d :: ds).dropWhile (fun c => c = 32 || (9 ≤ c && c ≤ 13)) = d :: ds := by
    refine List.dropWhile_cons_of_neg fun hd => ?_
    rw [Bool.or_eq_true, Bool.and_eq_true, decide_eq_true_eq, decide_eq_true_eq, decide_eq_true_eq] at hd
    obtain rfl | ⟨-, hd⟩ := hd
    · exact absurd hdigit (by decide)
    · have : d.toNat ≤ 13 := hd
      omega
  have hatoi : (atoi (d :: ds) : ℤ) = value (d :: ds) := by
    rw [atoi_eq, List.takeWhile_eq_self_iff.mpr h]
  rw [Rename.atoiSigned, hskip]
  split
  · next he =>
    obtain rfl := (List.cons.inj he).1
    exact absurd hdigit (by decide)
  · next he =>
    obtain rfl := (List.cons.inj he).1
    exact absurd hdigit (by decide)
  · exact hatoi

theorem atoiSigned_minus (h : IsDigits ds) : Rename.atoiSigned (45 :: ds) = -(value ds : ℤ) := by
  rw [Rename.atoiSigned, List.dropWhile_cons_of_neg (by decide)]
  change -(atoi ds : ℤ) = _
  rw [atoi_eq, List.takeWhile_eq_self_iff.mpr h]

theorem atoiInt_of_lt {s : Str} (h : (Rename.atoiSigned s).natAbs < 10 ^ 9) : Rename.atoiInt s = Rename.atoiSigned s := by
  have hmin : max (-2 ^ 63) (min (2 ^ 63 - 1) (Rename.atoiSigned s)) = Rename.atoiSigned s := by omega
  rw [Rename.atoiInt, hmin]
  exact Int.bmod_eq_of_le (by omega) (by omega)

/-- The number takes no more than the nine characters of the buffer. -/
def InBuffer (n : ℤ) : Prop := -10 ^ 8 < n ∧ n < 10 ^ 9

instance (n : ℤ) : Decidable (InBuffer n) := inferInstanceAs (Decidable (_ ∧ _))

/-- What is read of the number in the buffer. -/
def throughBuffer (n : ℤ) : ℤ := Rename.atoiInt ((printInt n).take (MAX_NUMBER_SIZE - 1))

theorem throughBuffer_cases (n : ℤ) : ∃ k, 0 < k ∧ (InBuffer n ↔ n.natAbs < 10 ^ k) ∧
    throughBuffer n = (if n < 0 then -1 else 1) * (value ((digits n.natAbs).take k) : ℤ) := by
  have hdigits : ∀ k, IsDigits ((digits n.natAbs).take k) := fun k d hd => isdigit_digits _ d (List.mem_of_mem_take hd)
  have hlt : ∀ k, k ≤ 9 → value ((digits n.natAbs).take k) < 10 ^ 9 := by
    intro k hk
    refine lt_of_lt_of_le (value_lt (hdigits k)) (Nat.pow_le_pow_right (by decide) ?_)
    exact (List.length_take_le _ _).trans hk
  by_cases hn : n < 0
  · have hprint : (printInt n).take (MAX_NUMBER_SIZE - 1) = 45 :: (digits n.natAbs).take 8 := by
      rw [printInt, if_pos hn]
      rfl
    have hvalue := atoiSigned_minus (hdigits 8)
    have hint := @atoiInt_of_lt (45 :: (digits n.natAbs).take 8)
      (by rw [hvalue, Int.natAbs_neg, Int.natAbs_natCast]; exact hlt 8 (by decide))
    refine ⟨8, by decide, ?_, ?_⟩
    · rw [InBuffer]
      omega
    · rw [throughBuffer, hprint, hint, hvalue, if_pos hn, Int.neg_one_mul]
  · have hprint : (printInt n).take (MAX_NUMBER_SIZE - 1) = (digits n.natAbs).take 9 := by
      rw [printInt, if_neg hn]
      rfl
    have hne : (digits n.natAbs).take 9 ≠ [] := by
      have hpos := digits_length_pos n.natAbs
      refine List.ne_nil_of_length_pos ?_
      rw [List.length_take]
      omega
    have hvalue := atoiSigned_of_digits (hdigits 9) hne
    have hint := @atoiInt_of_lt ((digits n.natAbs).take 9)
      (by rw [hvalue, Int.natAbs_natCast]; exact hlt 9 le_rfl)
    refine ⟨9, by decide, ?_, ?_⟩
    · rw [InBuffer]
      omega
    · rw [throughBuffer, hprint, hint, hvalue, if_neg hn, Int.one_mul]

/-- **A number that does not fit into the buffer becomes a smaller one.** -/
theorem throughBuffer_lt (h : ¬ InBuffer n) : (throughBuffer n).natAbs < n.natAbs := by
  obtain ⟨k, -, hiff, heq⟩ := throughBuffer_cases n
  have hle : 10 ^ k ≤ n.natAbs := not_lt.mp fun hlt => h (hiff.mpr hlt)
  have hvalue : value ((digits n.natAbs).take k) < 10 ^ k := by
    refine lt_of_lt_of_le (value_lt fun d hd => isdigit_digits _ d (List.mem_of_mem_take hd)) ?_
    exact Nat.pow_le_pow_right (by decide) (List.length_take_le _ _)
  rw [heq]
  split_ifs <;> omega

theorem throughBuffer_eq (h : InBuffer n) : throughBuffer n = n := by
  obtain ⟨k, hk, hiff, heq⟩ := throughBuffer_cases n
  have htake : (digits n.natAbs).take k = digits n.natAbs :=
    List.take_of_length_le ((digits_length_le hk).mpr (hiff.mp h))
  rw [heq, htake, value_digits]
  split_ifs <;> omega

end Numbers

/-! ## Reading and writing -/

/-- The entry as it was. -/
def Mntent.written (e : Mntent) : Written :=
  ⟨some e.mnt_fsname.1, some e.mnt_dir.1, some e.mnt_type.1, some e.mnt_opts.1, e.mnt_freq, e.mnt_passno⟩

/-- The entries that were read are written, in some order. -/
def RoundTrip (env : Environment) (moduleConfig : List Key) (parentKey : Key) (entries : List Mntent) : Prop :=
  ∃ ret keys parentKey', elektraFstabGet env moduleConfig (.ok entries) [] parentKey = some (ret, keys, parentKey') ∧
    (elektraFstabSet env (.ok ()) keys parentKey).2.1.Perm (entries.map Mntent.written)

/-- The names of the entries. -/
def fsNames (entries : List Mntent) : List CString := (pairs 0 entries).map Prod.fst

/-- The names fit into their buffer, are different from each other and from those of the fields, and the numbers fit
into their buffer. -/
structure Distinguished (entries : List Mntent) : Prop where
  short : ∀ f ∈ fsNames entries, f.1.length < KDB_MAX_PATH_LENGTH
  nodup : (fsNames entries).Nodup
  unlike : ∀ f ∈ fsNames entries, Unlike f.1
  numbers : ∀ e ∈ entries, InBuffer e.mnt_freq ∧ InBuffer e.mnt_passno

section Claim

variable {env : Environment} {moduleConfig : List Key} {parentKey : Key} {P : Path} {entries : List Mntent}

def parentRecord (parentKey : Key) (P : Path) : Record := ⟨P, keyString parentKey, keyGetMeta parentKey⟩

theorem reread_eq {e : Mntent} (h : InBuffer e.mnt_freq ∧ InBuffer e.mnt_passno) : reread e = e.written := by
  have hfreq : Rename.atoiInt (Field.value e .dumpfreq) = e.mnt_freq := throughBuffer_eq h.1
  have hpassno : Rename.atoiInt (Field.value e .passno) = e.mnt_passno := throughBuffer_eq h.2
  rw [reread, Mntent.written, hfreq, hpassno]

/-- The size of the numbers of an entry. -/
def size (w : Written) : ℕ := w.mnt_freq.natAbs + w.mnt_passno.natAbs

theorem size_reread_le (e : Mntent) : size (reread e) ≤ size e.written ∧
    (¬ (InBuffer e.mnt_freq ∧ InBuffer e.mnt_passno) → size (reread e) < size e.written) := by
  have hle : ∀ n, (throughBuffer n).natAbs ≤ n.natAbs ∧ (¬ InBuffer n → (throughBuffer n).natAbs < n.natAbs) := by
    intro n
    by_cases hn : InBuffer n
    · exact ⟨(congrArg Int.natAbs (throughBuffer_eq hn)).le, fun h => absurd hn h⟩
    · exact ⟨(throughBuffer_lt hn).le, fun _ => throughBuffer_lt hn⟩
  have hsize : size (reread e) = (throughBuffer e.mnt_freq).natAbs + (throughBuffer e.mnt_passno).natAbs := rfl
  obtain ⟨h₁, h₁'⟩ := hle e.mnt_freq
  obtain ⟨h₂, h₂'⟩ := hle e.mnt_passno
  rw [hsize, size, Mntent.written]
  refine ⟨Nat.add_le_add h₁ h₂, fun h => ?_⟩
  by_cases hfreq : InBuffer e.mnt_freq
  · exact Nat.add_lt_add_of_le_of_lt h₁ (h₂' fun hpassno => h ⟨hfreq, hpassno⟩)
  · exact Nat.add_lt_add_of_lt_of_le (h₁' hfreq) h₂

theorem numbers_of_perm (h : (entries.map reread).Perm (entries.map Mntent.written)) :
    ∀ e ∈ entries, InBuffer e.mnt_freq ∧ InBuffer e.mnt_passno := by
  by_contra hno
  obtain ⟨e, he⟩ := not_forall.mp hno
  obtain ⟨hmem, hnum⟩ := Classical.not_imp.mp he
  have hlt := List.sum_lt_sum (fun e => size (reread e)) (fun e : Mntent => size e.written)
    (fun e _ => (size_reread_le e).1) ⟨e, hmem, (size_reread_le e).2 hnum⟩
  have heq := (h.map size).sum_eq
  rw [List.map_map, List.map_map] at heq
  exact hlt.ne heq

theorem start_holds (hparent : HasName parentKey P) : Is parentKey (parentRecord parentKey P) ∧
    Recorded (Held (parentRecord parentKey P) []) (keyGetMeta parentKey (str "owner"))
      (ksAppendValue [] (keyDup parentKey)) := by
  have his : Is parentKey (parentRecord parentKey P) := ⟨hparent, rfl, fun _ => rfl⟩
  refine ⟨his, (recorded_singleton his.dup.toIs).congr fun q => ⟨.inl, fun hq => hq.resolve_right ?_⟩⟩
  rintro ⟨f, e, hlookup, -⟩
  cases hlookup

theorem get_set (hparent : HasName parentKey P) (hname : keyName parentKey ≠ moduleName)
    {ret : ℤ} {keys : List Key} {parentKey' : Key}
    (hget : elektraFstabGet env moduleConfig (.ok entries) [] parentKey = some (ret, keys, parentKey')) :
    (∀ f ∈ fsNames entries, f.1.length < KDB_MAX_PATH_LENGTH) ∧ ∃ last, Sorted (pairs 0 entries).reverse last ∧
      (elektraFstabSet env (.ok ()) keys parentKey).2.1 = ((last.flatMap fun p =>
        block (parentRecord parentKey P) p.1 p.2).foldl recordStep .start).finish := by
  rw [elektraFstabGet, if_neg hname] at hget
  obtain ⟨keys', hloop, he⟩ := Option.map_eq_some_iff.mp hget
  obtain ⟨rfl, -⟩ := Prod.mk.inj (Prod.mk.inj he).2
  have hshort := short_of_getLoop hloop
  obtain ⟨his, hstart⟩ := start_holds hparent
  obtain ⟨keys', hloop', hholds⟩ := getLoop_holds his rfl entries 0 hstart hshort
  cases hloop.symm.trans hloop'
  rw [List.append_nil] at hholds
  obtain ⟨last, hlast⟩ := exists_sorted (pairs 0 entries).reverse
  refine ⟨fun f hf => ?_, last, hlast, ?_⟩
  · obtain ⟨p, hp, rfl⟩ := List.mem_map.mp hf
    exact hshort p hp
  · have hkeys := keys_sorted hholds hlast
    cases hkeys with
    | cons _ htail =>
      refine congrArg State.finish (foldl_records htail (fun q hq => ?_) .start)
      obtain ⟨p, -, hq⟩ := List.mem_flatMap.mp hq
      obtain rfl | hq := List.mem_cons.mp hq
      · rfl
      · obtain ⟨x, -, rfl⟩ := List.mem_map.mp hq
        rfl

theorem exists_get (hparent : HasName parentKey P) (hname : keyName parentKey ≠ moduleName)
    (hshort : ∀ f ∈ fsNames entries, f.1.length < KDB_MAX_PATH_LENGTH) :
    ∃ ret keys parentKey', elektraFstabGet env moduleConfig (.ok entries) [] parentKey = some (ret, keys, parentKey') := by
  obtain ⟨his, hstart⟩ := start_holds hparent
  obtain ⟨keys, hloop, -⟩ := getLoop_holds his rfl entries 0 hstart
    fun p hp => hshort p.1 (List.mem_map_of_mem hp)
  refine ⟨Int.bmod (1 + 7 * entries.length) (2 ^ 32), keys, parentKey, ?_⟩
  rw [elektraFstabGet, if_neg hname]
  dsimp only
  rw [hloop]
  rfl

/-- **The entries are written as they were read exactly when they are distinguished.** -/
theorem fstab_roundTrip_iff (hparent : HasName parentKey P) (hname : keyName parentKey ≠ moduleName) :
    RoundTrip env moduleConfig parentKey entries ↔ Distinguished entries := by
  have hsnd : ∀ last : List (CString × Mntent), last.Perm (pairs 0 entries).reverse → (last.map fun p => reread p.2).Perm (entries.map reread) := by
    intro last hperm
    have hmap := (hperm.trans (List.reverse_perm _)).map fun p => reread p.2
    have hcomp := @List.map_map _ _ _ reread Prod.snd (pairs 0 entries)
    rw [map_snd_pairs] at hcomp
    rw [hcomp]
    exact hmap
  have hfst : ∀ f, f ∈ (pairs 0 entries).reverse.map Prod.fst ↔ f ∈ fsNames entries := fun f => by
    rw [List.map_reverse, List.mem_reverse, fsNames]
  constructor
  · rintro ⟨ret, keys, parentKey', hget, hperm⟩
    obtain ⟨hshort, last, hlast, hset⟩ := get_set hparent hname hget
    rw [hset] at hperm
    have hlen := hperm.length_eq
    rw [length_finish, count_blocks, List.length_map] at hlen
    have hstart : State.start.count = 0 := rfl
    have hpairs : (pairs 0 entries).reverse.length = entries.length := by
      rw [List.length_reverse, ← List.length_map (f := Prod.snd), map_snd_pairs]
    have hcount := List.countP_le_length (p := fun p => decide (Unlike p.1.1)) (l := last)
    have hle := hlast.length_le
    have hnodup := hlast.nodup (by omega)
    have hunlike : ∀ p ∈ last, Unlike p.1.1 := by
      intro p hp
      have hall := List.countP_eq_length.mp (show last.countP (fun p => decide (Unlike p.1.1)) = last.length by omega)
      exact of_decide_eq_true (hall p hp)
    rw [finish_blocks _ _ _ hunlike] at hperm
    have hentries := (hsnd last (hlast.perm hnodup)).symm.trans hperm
    refine ⟨hshort, ?_, fun f hf => ?_, numbers_of_perm hentries⟩
    · rw [List.map_reverse, List.nodup_reverse] at hnodup
      exact hnodup
    · obtain ⟨p, hp, rfl⟩ := List.mem_map.mp ((hlast.names.2 f).mpr ((hfst f).mpr hf))
      exact hunlike p hp
  · intro h
    obtain ⟨ret, keys, parentKey', hget⟩ := @exists_get env moduleConfig _ _ _ hparent hname h.short
    obtain ⟨-, last, hlast, hset⟩ := get_set hparent hname hget
    refine ⟨ret, keys, parentKey', hget, ?_⟩
    have hunlike : ∀ p ∈ last, Unlike p.1.1 := fun p hp =>
      h.unlike p.1 ((hfst p.1).mp ((hlast.names.2 p.1).mp (List.mem_map_of_mem hp)))
    have hnodup : ((pairs 0 entries).reverse.map Prod.fst).Nodup := by
      rw [List.map_reverse, List.nodup_reverse]
      exact h.nodup
    rw [hset, finish_blocks _ _ _ hunlike]
    have heq : entries.map reread = entries.map Mntent.written :=
      List.map_congr_left fun e he => reread_eq (h.numbers e he)
    rw [← heq]
    exact hsnd last (hlast.perm hnodup)

end Claim

/-! ## Two files -/

theorem nul_none : 0 ∉ str "none" := by decide

theorem nul_swap : 0 ∉ str "swap" := by decide

/-- An entry of swap. -/
def swapEntry : Mntent := ⟨⟨str "none", nul_none⟩, ⟨str "none", nul_none⟩, ⟨str "swap", nul_swap⟩, ⟨str "none", nul_none⟩, 0, 0⟩

/-- An entry that is not mounted. -/
def noneEntry : Mntent := ⟨⟨str "swap", nul_swap⟩, ⟨str "none", nul_none⟩, ⟨str "none", nul_none⟩, ⟨str "none", nul_none⟩, 0, 0⟩

/-- Two entries of swap. -/
theorem fstab_roundTrip_swap : RoundTrip Line.unreported [] Line.userKey [swapEntry, swapEntry] :=
  (fstab_roundTrip_iff Line.parentKey_userKey.name (by decide)).mpr
    ⟨by decide, by decide, by decide, by decide⟩

/-- Two entries that are not mounted, of one type: the first is lost. -/
theorem not_fstab_roundTrip : ¬ RoundTrip Line.unreported [] Line.userKey [noneEntry, noneEntry] := by
  rintro ⟨ret, keys, parentKey', hget, hperm⟩
  have hlen : (elektraFstabGet Line.unreported [] (.ok [noneEntry, noneEntry]) [] Line.userKey).map
      (fun r => (elektraFstabSet Line.unreported (.ok ()) r.2.1 Line.userKey).2.1.length) = some 1 := by decide +kernel
  rw [hget] at hlen
  cases hperm.length_eq.symm.trans (Option.some.inj hlen)

end Elektra.Fstab
