import Elektra.Kdb.SyncState
import Elektra.Lookup.Cursor
import Elektra.Split.Region

/-!
# What the backends returned

After the backends were read, the keys that do not belong to them are dropped, while the key set is iterated.

* `elektraKsPrev`, `elektraDropCurrentKey`, `elektraSplitPostprocess`, `splitGet`;
* `elektraDropCurrentKey_spec`: after a drop the iteration goes on with the next key;
* `postprocessLoop_spec`, **`elektraSplitPostprocess_spec`**: every key is visited once;
* `keeps_iff`: the keys that are kept;
* **`splitGet_filters`**.
-/

namespace Elektra

/-- One entry of `struct _Split`, with its key set in memory. -/
structure SplitPart where
  keyset : KeySet
  handle : Option BackendRef
  parent : Key
  syncbits : ℕ

/-! ## Dropping keys -/

def elektraKsPrev (ks : KeySet) : Option KeyRef × KeySet :=
  if ks.size = 0 then (none, ks)
  else if ks.current ≤ 0 then (none, ksRewind ks)
  else (ks.array[ks.current - 1]?, { ks with current := ks.current - 1, cursor := ks.array[ks.current - 1]? })

variable {W : Type}

/-- The warning of `elektraDropCurrentKey`. -/
def dropWarning (name : Option Str) (curHandle : Backend W) (otherHandle : Option (Backend W)) (msg : Str) : Str :=
  let mountpoint (b : Backend W) := b.mountpoint.getD keyNew
  str "drop key " ++ name.getD (str "(no name)") ++ str " not belonging to \"" ++ keyName (mountpoint curHandle) ++
    str "\" with name \"" ++ keyString (mountpoint curHandle) ++
    (otherHandle.elim [] fun other => str "\" but instead to \"" ++ keyName (mountpoint other) ++
      str "\" with name \"" ++ keyString (mountpoint other)) ++
    str "\" because " ++ msg

def elektraDropCurrentKey (env : Environment) (w : World) (warningKey : KeyRef) (curHandle : Backend W)
    (otherHandle : Option (Backend W)) (msg : Str) : World :=
  let warningMsg := dropWarning (w.ks.cursor.map fun k => keyName (w.cell k)) curHandle otherHandle msg
  let w := w.set warningKey (env.addWarning 79 (w.cell warningKey) warningMsg)
  let c := ksGetCursor w.ks
  let (popped, h, ks) := elektraKsPopAtCursor w.heap w.ks (c.elim (-1) Nat.cast)
  { heap := popped.elim h (keyDel h), ks := (elektraKsPrev (ksSetCursor ks c)).2 }

/-- The other backend and the reason, where a key of the backend `curHandle` is dropped. -/
def dropReason (handle : KDB W) (part : SplitPart) (curHandle : BackendRef) (cur : Key) :
    Option (Option (Backend W) × Str) :=
  if some curHandle ≠ part.handle then some (part.handle.map handle.backend, str "it is hidden by other mountpoint")
  else
    match keyGetNamespace cur with
    | .spec => if !keyIsSpec part.parent then some (none, str "it is not spec") else none
    | .dir => if !keyIsDir part.parent then some (none, str "it is not dir") else none
    | .user => if !keyIsUser part.parent then some (none, str "it is not user") else none
    | .system => if !keyIsSystem part.parent then some (none, str "it is not system") else none
    | .proc => some (none, str "it has a proc key name")
    | .empty => some (none, str "it has an empty name")
    | .metaName => some (none, str "it has a metaname")
    | .cascading => some (none, str "it has a cascading name")

section Loop

variable (env : Environment) (handle : KDB W) (part : SplitPart) (warningKey : KeyRef)

/-- A round of `elektraSplitPostprocess`; `none` is the return value `-1`. -/
def postprocessRound (w : World) (cur : KeyRef) : Option World :=
  match mountGetBackend handle (some (w.cell cur)) with
  | none => none
  | some curHandle =>
    let w := w.set cur (keyClearSync (w.cell cur))
    match dropReason handle part curHandle (w.cell cur) with
    | none => some w
    | some (otherHandle, msg) =>
      some (elektraDropCurrentKey env w warningKey (handle.backend curHandle) otherHandle msg)

/-- The loop of `elektraSplitPostprocess`; no round adds keys, so their number bounds the rounds. -/
def postprocessLoop : ℕ → World → ℤ × World
  | 0, w => (0, w)
  | fuel + 1, w =>
    match ksNext w.ks with
    | (none, ks) => (0, { w with ks := ks })
    | (some cur, ks) =>
      match postprocessRound env handle part warningKey { w with ks := ks } cur with
      | none => (-1, { w with ks := ks })
      | some w => postprocessLoop fuel w

def elektraSplitPostprocess (h : Heap) : ℤ × World :=
  let ks := ksRewind part.keyset
  postprocessLoop env handle part warningKey (ks.size + 1) { heap := h, ks := ks }

/-- The keys that `ksNext` returns in the loop. -/
def postprocessVisits : ℕ → World → List KeyRef
  | 0, _ => []
  | fuel + 1, w =>
    match ksNext w.ks with
    | (none, _) => []
    | (some cur, ks) =>
      match postprocessRound env handle part warningKey { w with ks := ks } cur with
      | none => [cur]
      | some w => cur :: postprocessVisits fuel w

end Loop

/-- The loop of `splitGet`. -/
def splitGetLoop (env : Environment) (warningKey : KeyRef) :
    List SplitPart → KDB W → Heap → ℤ → ℤ × List SplitPart × KDB W × Heap
  | [], handle, h, ret => (ret, [], handle, h)
  | part :: split, handle, h, ret =>
    -- no bit is tested
    if test_bit part.syncbits 0 then
      let r := splitGetLoop env warningKey split handle h ret
      (r.1, part :: r.2.1, r.2.2)
    else
      let (post, w) := elektraSplitPostprocess env handle part warningKey h
      let ret := if post = -1 then -1 else ret
      let (updated, backend) := backendUpdateSize (handle.backend (part.handle.getD 0)) part.parent w.ks.size
      let ret := if updated = -1 then -1 else ret
      let handle := { handle with backend := Function.update handle.backend (part.handle.getD 0) backend }
      let r := splitGetLoop env warningKey split handle w.heap ret
      (r.1, { part with keyset := w.ks } :: r.2.1, r.2.2)

/-- The last entry is the bypass. -/
def splitGet (env : Environment) (split : List SplitPart) (warningKey : KeyRef) (handle : KDB W) (h : Heap) :
    ℤ × List SplitPart × KDB W × Heap :=
  let r := splitGetLoop env warningKey split.dropLast handle h 1
  (r.1, r.2.1 ++ split.getLast?.toList, r.2.2)

/-! ## One round -/

/-- `ELEKTRA_ADD_WARNING` writes metadata only. -/
def WritesMeta (env : Environment) : Prop :=
  ∀ n key t, (env.addWarning n key t).key = key.key ∧ (env.addWarning n key t).keySize = key.keySize

/-- The names of the keys are kept. -/
structure NamesKept (h h' : Heap) : Prop where
  key : ∀ k, (h'.cell k).key = (h.cell k).key
  keySize : ∀ k, (h'.cell k).keySize = (h.cell k).keySize

theorem NamesKept.refl (h : Heap) : NamesKept h h := ⟨fun _ => rfl, fun _ => rfl⟩

theorem NamesKept.trans {h h' h'' : Heap} (h₁ : NamesKept h h') (h₂ : NamesKept h' h'') : NamesKept h h'' :=
  ⟨fun k => (h₂.key k).trans (h₁.key k), fun k => (h₂.keySize k).trans (h₁.keySize k)⟩

theorem namesKept_set {h : Heap} {k : KeyRef} {key : Key} (hkey : key.key = (h.cell k).key)
    (hsize : key.keySize = (h.cell k).keySize) : NamesKept h (h.set k key) := by
  refine ⟨fun a => ?_, fun a => ?_⟩
  all_goals
    by_cases ha : a = k
    · subst ha
      rw [set_cell_self]
      assumption
    · rw [set_cell_ne ha]

theorem namesKept_del (h : Heap) (k : KeyRef) : NamesKept h (keyDel h k) := by
  rw [keyDel]
  split_ifs
  · exact .refl h
  · exact ⟨fun _ => rfl, fun _ => rfl⟩

theorem namesKept_decRef (h : Heap) (k : KeyRef) : NamesKept h (keyDecRef h k) := namesKept_set rfl rfl

theorem getBackend_congr (handle : KDB W) {key key' : Key} (hkey : key'.key = key.key)
    (hsize : key'.keySize = key.keySize) : mountGetBackend handle (some key') = mountGetBackend handle (some key) := by
  have hname : keyName key' = keyName key := by rw [keyName, keyName, hkey]
  have hget : keyGetNameSize key' = keyGetNameSize key := by rw [keyGetNameSize, keyGetNameSize, hkey, hsize]
  rw [mountGetBackend, mountGetBackend, trieLookup, trieLookup, hname, hget]

theorem ksPrev_nextIndex (ks : KeySet) {i : ℕ} (hi : i ≤ ks.array.length) :
    (elektraKsPrev (ksSetCursor ks (some i))).2.array = ks.array ∧
      (elektraKsPrev (ksSetCursor ks (some i))).2.nextIndex = i := by
  rw [ksSetCursor, elektraKsPrev]
  dsimp only
  split_ifs with hsize hzero
  · have hnil : ks.array.length = 0 := hsize
    refine ⟨rfl, ?_⟩
    rw [KeySet.nextIndex]
    dsimp only
    rw [List.getElem?_eq_none (by omega), if_pos rfl]
  · exact ⟨rfl, (rewound_rewind _).nextIndex.trans (Nat.le_zero.mp hzero).symm⟩
  · have hlt : i - 1 < ks.array.length := by omega
    refine ⟨rfl, ?_⟩
    rw [KeySet.nextIndex]
    dsimp only
    rw [List.getElem?_eq_getElem hlt, if_neg (Option.some_ne_none _)]
    omega

section Round

variable {env : Environment} {handle : KDB W} {part : SplitPart} {warningKey : KeyRef} {w : World} {k : KeyRef} {i : ℕ}

/-- **After a drop `ksNext` returns the key behind the dropped one.** -/
theorem elektraDropCurrentKey_spec (hi : w.ks.AtKey i) (hk : w.ks.array[i]? = some k) (curHandle : Backend W)
    (otherHandle : Option (Backend W)) (msg : Str) :
    (elektraDropCurrentKey env w warningKey curHandle otherHandle msg).ks.array = w.ks.array.eraseIdx i ∧
      (elektraDropCurrentKey env w warningKey curHandle otherHandle msg).ks.nextIndex = i ∧
      (elektraDropCurrentKey env w warningKey curHandle otherHandle msg).heap =
        keyDel (keyDecRef (w.heap.set warningKey (env.addWarning 79 (w.cell warningKey)
          (dropWarning (some (keyName (w.cell k))) curHandle otherHandle msg))) k) k := by
  have hcursor : w.ks.cursor = some k := hi.cursor.trans hk
  have hget : ksGetCursor w.ks = some i := by rw [ksGetCursor, if_neg hi.cursor_ne, hi.current]
  have hlen : i ≤ (w.ks.array.eraseIdx i).length := by
    rw [List.length_eraseIdx_of_lt hi.lt]
    exact Nat.le_sub_one_of_lt hi.lt
  unfold elektraDropCurrentKey
  dsimp only [World.set]
  rw [hcursor, hget]
  dsimp only [Option.map_some, Option.elim_some]
  generalize w.heap.set warningKey _ = h
  obtain ⟨hpop, -, harray⟩ := @popAtCursor_ks w.ks k h i hk
  have hheap := @popAtCursor_heap h w.ks i k hk
  generalize elektraKsPopAtCursor h w.ks (i : ℤ) = x at hpop harray hheap ⊢
  obtain ⟨popped, h', ks⟩ := x
  dsimp only at hpop harray hheap ⊢
  obtain ⟨hsame, hnext⟩ := ksPrev_nextIndex ks (harray ▸ hlen)
  refine ⟨hsame.trans harray, hnext, ?_⟩
  rw [hpop, hheap]
  rfl

/-- The warning for a key that is dropped. -/
def dropText (handle : KDB W) (part : SplitPart) (key : Key) : Option Str :=
  (mountGetBackend handle (some key)).bind fun b => (dropReason handle part b key).map fun r =>
    dropWarning (some (keyName key)) (handle.backend b) r.1 r.2

/-- What the round of a key does to the keys. -/
def postprocessKey (env : Environment) (handle : KDB W) (part : SplitPart) (warningKey : KeyRef) (h : Heap)
    (k : KeyRef) : Heap :=
  let h := h.set k (keyClearSync (h.cell k))
  match dropText handle part (h.cell k) with
  | none => h
  | some text => keyDel (keyDecRef (h.set warningKey (env.addWarning 79 (h.cell warningKey) text)) k) k

theorem dropText_congr (handle : KDB W) (part : SplitPart) {key key' : Key} (hkey : key'.key = key.key)
    (hsize : key'.keySize = key.keySize) : dropText handle part key' = dropText handle part key := by
  have hname : keyName key' = keyName key := by rw [keyName, keyName, hkey]
  have hns : keyGetNamespace key' = keyGetNamespace key := by rw [keyGetNamespace, keyGetNamespace, hkey]
  have hreason : ∀ b, dropReason handle part b key' = dropReason handle part b key := fun b => by
    rw [dropReason, dropReason, hns]
  rw [dropText, dropText, getBackend_congr handle hkey hsize, hname]
  exact Option.bind_congr fun b _ => by rw [hreason]

theorem postprocessKey_names (henv : WritesMeta env) (handle : KDB W) (part : SplitPart) (warningKey : KeyRef)
    (h : Heap) (k : KeyRef) : NamesKept h (postprocessKey env handle part warningKey h k) := by
  have hclear : NamesKept h (h.set k (keyClearSync (h.cell k))) := namesKept_set rfl rfl
  rw [postprocessKey]
  generalize h.set k (keyClearSync (h.cell k)) = h₁ at hclear ⊢
  cases dropText handle part (h₁.cell k) with
  | none => exact hclear
  | some text =>
    obtain ⟨hkey, hsize⟩ := henv 79 (h₁.cell warningKey) text
    have hwarn := hclear.trans (namesKept_set hkey hsize)
    exact (hwarn.trans (namesKept_decRef _ k)).trans (namesKept_del _ k)

theorem postprocessRound_spec (hback : mountGetBackend handle (some (w.cell k)) ≠ none) (hi : w.ks.AtKey i)
    (hk : w.ks.array[i]? = some k) : ∃ w', postprocessRound env handle part warningKey w k = some w' ∧
      w'.heap = postprocessKey env handle part warningKey w.heap k ∧
      w'.ks.nextIndex = (if (dropText handle part (w.cell k)).isNone then i + 1 else i) ∧
      w'.ks.array = if (dropText handle part (w.cell k)).isNone then w.ks.array else w.ks.array.eraseIdx i := by
  obtain ⟨b, hb⟩ := Option.ne_none_iff_exists'.mp hback
  have hcell : (w.set k (keyClearSync (w.cell k))).cell k = keyClearSync (w.cell k) := set_cell_self _ _ _
  have hb' : mountGetBackend handle (some (keyClearSync (w.cell k))) = some b :=
    (getBackend_congr handle rfl rfl).trans hb
  have htext : dropText handle part (w.cell k) = dropText handle part (keyClearSync (w.cell k)) :=
    (dropText_congr handle part rfl rfl).symm
  have hpost : postprocessKey env handle part warningKey w.heap k =
      (match dropText handle part (keyClearSync (w.cell k)) with
        | none => (w.set k (keyClearSync (w.cell k))).heap
        | some text => keyDel (keyDecRef ((w.set k (keyClearSync (w.cell k))).heap.set warningKey
            (env.addWarning 79 ((w.set k (keyClearSync (w.cell k))).cell warningKey) text)) k) k) := by
    rw [postprocessKey, set_cell_self]
    rfl
  rw [postprocessRound, hb, hpost, htext]
  dsimp only
  rw [hcell, dropText, hb', Option.bind_some]
  cases dropReason handle part b (keyClearSync (w.cell k)) with
  | none => exact ⟨_, rfl, rfl, hi.nextIndex, rfl⟩
  | some r =>
    obtain ⟨other, msg⟩ := r
    obtain ⟨harray, hnext, hheap⟩ := @elektraDropCurrentKey_spec W env warningKey
      (w.set k (keyClearSync (w.cell k))) k i hi hk (handle.backend b) other msg
    rw [hcell] at hheap
    exact ⟨_, rfl, hheap, hnext, harray⟩

end Round

/-! ## The loop -/

/-- The key is not dropped. -/
def keeps (handle : KDB W) (part : SplitPart) (key : Key) : Bool := (dropText handle part key).isNone

theorem keeps_congr {handle : KDB W} {part : SplitPart} {h h' : Heap} (hn : NamesKept h h') (k : KeyRef) :
    keeps handle part (h'.cell k) = keeps handle part (h.cell k) := by
  rw [keeps, keeps, dropText_congr handle part (hn.key k) (hn.keySize k)]

section Loop

variable {env : Environment} {handle : KDB W} {part : SplitPart} {warningKey : KeyRef}

/-- What the loop does, from where `ksNext` goes on. -/
structure Postprocessed (env : Environment) (handle : KDB W) (part : SplitPart) (warningKey : KeyRef) (w : World)
    (visits : List KeyRef) (r : ℤ × World) : Prop where
  visits : visits = w.ks.remaining
  ret : r.1 = 0
  array : r.2.ks.array = w.ks.array.take w.ks.nextIndex ++ w.ks.remaining.filter fun k => keeps handle part (w.cell k)
  heap : r.2.heap = w.ks.remaining.foldl (postprocessKey env handle part warningKey) w.heap

/-- **The loop visits the keys that remain, each once, and goes on behind those that it drops.** -/
theorem postprocessLoop_spec (henv : WritesMeta env) (hback : ∀ key, mountGetBackend handle (some key) ≠ none) :
    ∀ (fuel : ℕ) {w : World}, w.ks.remaining.length < fuel →
      Postprocessed env handle part warningKey w (postprocessVisits env handle part warningKey fuel w)
        (postprocessLoop env handle part warningKey fuel w)
  | 0, _, hfuel => absurd hfuel (Nat.not_lt_zero _)
  | fuel + 1, w, hfuel => by
    rw [postprocessLoop, postprocessVisits]
    obtain ⟨hnil, hnone, harray, -⟩ | ⟨k, rest, hcons, hnext, hat, hrest⟩ := ksNext_cases w.ks
    · have hlen : w.ks.array.length ≤ w.ks.nextIndex := List.drop_eq_nil_iff.mp hnil
      generalize ksNext w.ks = x at hnone harray ⊢
      obtain ⟨r, ks⟩ := x
      dsimp only at hnone harray
      subst hnone
      refine ⟨hnil.symm, rfl, ?_, by rw [hnil]; rfl⟩
      rw [hnil, List.filter_nil, List.append_nil, List.take_of_length_le hlen]
      exact harray
    · have hget : w.ks.array[w.ks.nextIndex]? = some k := by
        have hcursor := hat.cursor
        rw [hnext] at hcursor
        exact hcursor.symm
      rw [hnext] at hat hrest ⊢
      dsimp only at hat hrest ⊢
      obtain ⟨w₂, hround, hheap, hindex, harray⟩ := @postprocessRound_spec W env handle part warningKey
        { w with ks := { w.ks with current := w.ks.nextIndex, cursor := some k } } k w.ks.nextIndex (hback _) hat hget
      rw [hround]
      dsimp only at hheap hindex harray ⊢
      change w₂.ks.nextIndex = (if keeps handle part (w.cell k) = true then _ else _) at hindex
      change w₂.ks.array = (if keeps handle part (w.cell k) = true then _ else _) at harray
      have hrest' : w.ks.array.drop (w.ks.nextIndex + 1) = rest := by rw [← hrest, KeySet.remaining, hat.nextIndex]
      -- the keys before the cursor are those that were kept
      have hsplit : w₂.ks.remaining = rest ∧ w₂.ks.array.take w₂.ks.nextIndex =
          w.ks.array.take w.ks.nextIndex ++ [k].filter fun k => keeps handle part (w.cell k) := by
        rw [KeySet.remaining, hindex, harray]
        by_cases hkeep : keeps handle part (w.cell k) = true
        · rw [if_pos hkeep, if_pos hkeep, List.filter_cons_of_pos (p := fun k => keeps handle part (w.cell k)) hkeep,
            List.filter_nil, List.take_add_one, hget]
          exact ⟨hrest', rfl⟩
        · rw [if_neg hkeep, if_neg hkeep, List.filter_cons_of_neg (p := fun k => keeps handle part (w.cell k)) hkeep,
            List.filter_nil, List.append_nil]
          refine ⟨?_, ?_⟩
          · rw [List.eraseIdx_eq_take_drop_succ, List.drop_left' (List.length_take_of_le hat.lt.le), hrest']
          · rw [List.eraseIdx_eq_take_drop_succ, List.take_left' (List.length_take_of_le hat.lt.le)]
      obtain ⟨hremaining, htake⟩ := hsplit
      have hnames : NamesKept w.heap w₂.heap := hheap ▸ postprocessKey_names henv handle part warningKey w.heap k
      have hfuel' : w₂.ks.remaining.length < fuel := by
        rw [hcons, List.length_cons] at hfuel
        rw [hremaining]
        omega
      obtain ⟨hvisits, hret, harray₂, hheap₂⟩ := postprocessLoop_spec henv hback fuel hfuel'
      refine ⟨?_, hret, ?_, ?_⟩
      · rw [hvisits, hremaining, hcons]
      · have hsame : rest.filter (fun a => keeps handle part (w₂.cell a)) =
            rest.filter fun a => keeps handle part (w.cell a) :=
          List.filter_congr fun a _ => keeps_congr hnames a
        rw [harray₂, htake, hremaining, hsame, hcons, List.append_assoc, ← List.filter_append, List.singleton_append]
      · rw [hheap₂, hremaining, hheap, hcons, List.foldl_cons]

/-- **Every key is visited once, and those that are kept stay, in their order.** -/
theorem elektraSplitPostprocess_spec (henv : WritesMeta env) (hback : ∀ key, mountGetBackend handle (some key) ≠ none)
    (h : Heap) :
    postprocessVisits env handle part warningKey (part.keyset.size + 1) { heap := h, ks := ksRewind part.keyset } =
        part.keyset.array ∧
      (elektraSplitPostprocess env handle part warningKey h).1 = 0 ∧
      (elektraSplitPostprocess env handle part warningKey h).2.ks.array =
        part.keyset.array.filter (fun k => keeps handle part (h.cell k)) ∧
      (elektraSplitPostprocess env handle part warningKey h).2.heap =
        part.keyset.array.foldl (postprocessKey env handle part warningKey) h := by
  obtain ⟨hvisits, hret, harray, hheap⟩ := @postprocessLoop_spec W env handle part warningKey henv hback
    (part.keyset.size + 1) { heap := h, ks := ksRewind part.keyset } (Nat.lt_succ_self _)
  exact ⟨hvisits, hret, harray, hheap⟩

end Loop

/-! ## Which keys are kept -/

/-- The entry, without its keys. -/
def SplitPart.entry (part : SplitPart) : SplitEntry :=
  { keyset := [], handle := part.handle, parent := part.parent, syncbits := part.syncbits }

section Keeps

variable {mp : BackendRef → Option Path} {d : BackendRef} {used : List BackendRef} {kdb handle : KDB W}
  {mounts listed : List (Path × BackendRef)} {part : SplitPart} {key : Key}

/-- A key is kept where it is mounted at the backend of the part and passes the test of its namespace. -/
theorem keeps_test (hback : mountGetBackend handle (some key) ≠ none) : keeps handle part key = true ↔
    mountGetBackend handle (some key) = part.handle ∧
      ∃ test, parentTest (keyGetNamespace key) = some test ∧ test part.parent = true := by
  obtain ⟨b, hb⟩ := Option.ne_none_iff_exists'.mp hback
  have hreason : keeps handle part key = (dropReason handle part b key).isNone := by
    rw [keeps, dropText, hb, Option.bind_some, Option.isNone_map]
  rw [hreason, hb, dropReason]
  by_cases hhandle : some b = part.handle
  · rw [if_neg (not_not_intro hhandle), and_iff_right hhandle]
    cases keyGetNamespace key <;> simp [parentTest]
  · rw [if_pos hhandle]
    exact iff_of_false Bool.false_ne_true fun h => hhandle h.1

/-- **A key is kept where it belongs to the part, unless it is in `proc`.** -/
theorem keeps_iff (hl : Listed mp d used kdb mounts listed) (hdef : kdb.defaultBackend = some d)
    (he : CopyOf kdb part.entry) (hk : Placeable key) : keeps kdb part key = true ↔
      BelongsTo mounts d part.entry key ∧ parentTest (keyGetNamespace key) ≠ none := by
  have hback : kdb.defaultBackend ≠ none := hdef.trans_ne (Option.some_ne_none d)
  rw [keeps_test (getBackend_ne_none hback key)]
  obtain ⟨P, hP⟩ | hns := hk.name
  · obtain ⟨l, -, -, hM⟩ := he.place hl
    rw [belongsTo_iff hl hdef he hP hM, ← owner_eq hl.state.mounted hP]
    constructor
    · rintro ⟨hhandle, test, ht, hp⟩
      exact ⟨⟨(parentTest_iff hP hM ht).mp hp, hhandle⟩, ht.trans_ne (Option.some_ne_none _)⟩
    · rintro ⟨⟨hroot, hhandle⟩, hne⟩
      obtain ⟨test, ht⟩ := Option.ne_none_iff_exists'.mp hne
      exact ⟨hhandle, test, ht, (parentTest_iff hP hM ht).mpr hroot⟩
  · rw [parentTest_empty hns]
    exact iff_of_false (fun h => by obtain ⟨-, _, ht, -⟩ := h; cases ht) fun h => h.2 rfl

end Keeps

/-! ## All parts -/

section Get

variable {env : Environment} {warningKey : KeyRef}

theorem backendUpdateSize_size (backend : Backend W) (parent : Key) (size : ℤ) (ns : ElektraNamespace) :
    (backendUpdateSize backend parent size).2.size ns =
      if ns = keyGetNamespace parent ∧ parentTest ns ≠ none then some size else backend.size ns := by
  rw [backendUpdateSize]
  cases keyGetNamespace parent <;> cases ns <;> rfl

theorem backendUpdateSize_ret (backend : Backend W) (parent : Key) (size : ℤ) :
    (backendUpdateSize backend parent size).1 = if parentTest (keyGetNamespace parent) = none then -1 else 0 := by
  rw [backendUpdateSize]
  cases keyGetNamespace parent <;> rfl

/-- The handles route keys alike. -/
structure SameRoutes (handle handle' : KDB W) : Prop where
  trie : handle'.trie = handle.trie
  default : handle'.defaultBackend = handle.defaultBackend

theorem SameRoutes.keeps {handle handle' : KDB W} (h : SameRoutes handle handle') (hdef : handle.defaultBackend ≠ none)
    (part : SplitPart) (key : Key) : keeps handle' part key = keeps handle part key := by
  have hback := getBackend_ne_none hdef key
  have hsame := mountGetBackend_congr h.trie h.default (some key)
  have hback' : mountGetBackend handle' (some key) ≠ none := hsame ▸ hback
  rw [Bool.eq_iff_iff, keeps_test hback, keeps_test hback', hsame]

/-- What `splitGet` makes of a part. -/
structure FilteredPart (handle : KDB W) (h : Heap) (part part' : SplitPart) : Prop where
  entry : part'.entry = part.entry
  array : part'.keyset.array = part.keyset.array.filter fun k => keeps handle part (h.cell k)

theorem FilteredPart.congr {handle handle' : KDB W} {h h' : Heap} {part part' : SplitPart}
    (hf : FilteredPart handle' h' part part') (hdef : handle.defaultBackend ≠ none) (hr : SameRoutes handle handle')
    (hn : NamesKept h h') : FilteredPart handle h part part' where
  entry := hf.entry
  array := by
    rw [hf.array]
    exact List.filter_congr fun k _ => (keeps_congr hn k).trans (hr.keeps hdef part (h.cell k))

/-- No size is recorded for the part. -/
def SplitPart.Sizeless (part : SplitPart) : Prop := parentTest (keyGetNamespace part.parent) = none

instance (part : SplitPart) : Decidable part.Sizeless := inferInstanceAs (Decidable (_ = none))

/-- What `splitGet` makes of the parts. -/
structure Filtered (handle : KDB W) (h : Heap) (ret : ℤ) (parts : List SplitPart)
    (r : ℤ × List SplitPart × KDB W × Heap) : Prop where
  kept : List.Forall₂ (FilteredPart handle h) parts r.2.1
  routes : SameRoutes handle r.2.2.1
  names : NamesKept h r.2.2.2
  ret : r.1 = if ∃ part ∈ parts, part.Sizeless then -1 else ret
  /-- The sizes of other parts are kept. -/
  frame : ∀ b ns, (∀ part ∈ parts, part.handle.getD 0 = b → ns ≠ keyGetNamespace part.parent) →
    (r.2.2.1.backend b).size ns = (handle.backend b).size ns

theorem foldl_names (henv : WritesMeta env) (handle : KDB W) (part : SplitPart) : ∀ (l : List KeyRef) (h : Heap),
    NamesKept h (l.foldl (postprocessKey env handle part warningKey) h)
  | [], h => .refl h
  | k :: l, h => (postprocessKey_names henv handle part warningKey h k).trans (foldl_names henv handle part l _)

theorem splitGetLoop_cons (henv : WritesMeta env) {handle : KDB W} (hdef : handle.defaultBackend ≠ none)
    (part : SplitPart) (parts : List SplitPart) (h : Heap) (ret : ℤ) : ∃ part' h₁ handle₁,
      splitGetLoop env warningKey (part :: parts) handle h ret =
        (let r := splitGetLoop env warningKey parts handle₁ h₁ (if part.Sizeless then -1 else ret)
        (r.1, part' :: r.2.1, r.2.2)) ∧
      FilteredPart handle h part part' ∧ NamesKept h h₁ ∧ SameRoutes handle handle₁ ∧
      ∀ b ns, (handle₁.backend b).size ns =
        if b = part.handle.getD 0 ∧ ns = keyGetNamespace part.parent ∧ parentTest ns ≠ none then
          some (part'.keyset.size : ℤ) else (handle.backend b).size ns := by
  obtain ⟨-, hpost, harray, hheap⟩ := @elektraSplitPostprocess_spec W env handle part warningKey henv
    (getBackend_ne_none hdef) h
  have hret := fun size => backendUpdateSize_ret (handle.backend (part.handle.getD 0)) part.parent size
  have hsize := fun size => backendUpdateSize_size (handle.backend (part.handle.getD 0)) part.parent size
  rw [splitGetLoop, if_neg (by rw [test_bit, Nat.and_zero]; decide)]
  generalize elektraSplitPostprocess env handle part warningKey h = x at hpost harray hheap ⊢
  obtain ⟨post, w⟩ := x
  dsimp only at hpost harray hheap ⊢
  specialize hret w.ks.size
  specialize hsize w.ks.size
  generalize backendUpdateSize (handle.backend (part.handle.getD 0)) part.parent w.ks.size = y at hret hsize ⊢
  obtain ⟨updated, backend⟩ := y
  dsimp only at hret hsize ⊢
  refine ⟨{ part with keyset := w.ks }, w.heap,
    { handle with backend := Function.update handle.backend (part.handle.getD 0) backend }, ?_, ⟨rfl, harray⟩,
    hheap ▸ foldl_names henv handle part _ h, ⟨rfl, rfl⟩, fun b ns => ?_⟩
  · have hnew : (if updated = -1 then (-1 : ℤ) else if post = -1 then -1 else ret) =
        if part.Sizeless then -1 else ret := by
      have hret' : updated = if part.Sizeless then -1 else 0 := hret
      rw [hpost, if_neg (show ¬ (0 : ℤ) = -1 by decide), hret']
      by_cases hno : part.Sizeless
      · rw [if_pos hno, if_pos hno, if_pos rfl]
      · rw [if_neg hno, if_neg hno, if_neg (by decide)]
    rw [hnew]
  · by_cases hb : b = part.handle.getD 0
    · subst hb
      dsimp only
      rw [Function.update_self, hsize]
      simp only [true_and]
    · rw [if_neg fun h => hb h.1]
      dsimp only
      rw [Function.update_of_ne hb]

theorem splitGetLoop_spec (henv : WritesMeta env) : ∀ (parts : List SplitPart) {handle : KDB W} {h : Heap} {ret : ℤ},
    handle.defaultBackend ≠ none → Filtered handle h ret parts (splitGetLoop env warningKey parts handle h ret)
  | [], handle, h, ret, _ => by
    refine ⟨.nil, ⟨rfl, rfl⟩, .refl h, ?_, fun _ _ _ => rfl⟩
    rw [if_neg fun h => by obtain ⟨_, hmem, -⟩ := h; cases hmem]
    rfl
  | part :: parts, handle, h, ret, hdef => by
    obtain ⟨part', h₁, handle₁, heq, hpart, hnames, hroutes, hsizes⟩ :=
      @splitGetLoop_cons W env warningKey henv handle hdef part parts h ret
    have hrest := @splitGetLoop_spec henv parts handle₁ h₁ (if part.Sizeless then -1 else ret) (hroutes.default ▸ hdef)
    rw [heq]
    dsimp only
    refine ⟨.cons hpart (hrest.kept.imp fun _ _ hf => hf.congr hdef hroutes hnames),
      ⟨hrest.routes.trie.trans hroutes.trie, hrest.routes.default.trans hroutes.default⟩, hnames.trans hrest.names,
      ?_, fun b ns hother => ?_⟩
    · refine hrest.ret.trans ?_
      by_cases hno : part.Sizeless
      · rw [if_pos hno, ite_self, if_pos ⟨part, List.mem_cons_self, hno⟩]
      · rw [if_neg hno]
        refine if_congr ?_ rfl rfl
        rw [List.exists_mem_cons_iff, or_iff_right hno]
    · refine (hrest.frame b ns fun p hp => hother p (List.mem_cons_of_mem _ hp)).trans ?_
      rw [hsizes, if_neg fun h => hother part List.mem_cons_self h.1.symm h.2.1]

/-- **The recorded sizes are those of the key sets.** -/
theorem splitGetLoop_sizes (henv : WritesMeta env) : ∀ (parts : List SplitPart) {handle : KDB W} {h : Heap} {ret : ℤ},
    handle.defaultBackend ≠ none → (parts.map fun part => part.entry.pair).Nodup → (∀ part ∈ parts, part.handle ≠ none) →
      List.Forall₂ (fun part part' => ¬ part.Sizeless →
        part.entry.recorded (splitGetLoop env warningKey parts handle h ret).2.2.1 = some part'.keyset.size) parts
        (splitGetLoop env warningKey parts handle h ret).2.1
  | [], _, _, _, _, _, _ => .nil
  | part :: parts, handle, h, ret, hdef, hnodup, hhandles => by
    obtain ⟨part', h₁, handle₁, heq, -, -, hroutes, hsizes⟩ :=
      @splitGetLoop_cons W env warningKey henv handle hdef part parts h ret
    have hdef₁ : handle₁.defaultBackend ≠ none := hroutes.default ▸ hdef
    obtain ⟨hnew, hnodup'⟩ := List.nodup_cons.mp hnodup
    have hrest : Filtered handle₁ h₁ (if part.Sizeless then -1 else ret) parts
        (splitGetLoop env warningKey parts handle₁ h₁ (if part.Sizeless then -1 else ret)) :=
      splitGetLoop_spec henv parts hdef₁
    have hothers := @splitGetLoop_sizes henv parts handle₁ h₁ (if part.Sizeless then -1 else ret) hdef₁ hnodup'
      fun p hp => hhandles p (List.mem_cons_of_mem _ hp)
    rw [heq]
    dsimp only
    refine .cons (fun hsized => ?_) hothers
    -- no other part has this backend and this namespace
    have hframe := hrest.frame (part.handle.getD 0) (keyGetNamespace part.parent) fun p hp hb hns => hnew ?_
    · refine hframe.trans ?_
      rw [hsizes, if_pos ⟨rfl, rfl, hsized⟩]
    · refine List.mem_map.mpr ⟨p, hp, ?_⟩
      obtain ⟨b, hpb⟩ := Option.ne_none_iff_exists'.mp (hhandles p (List.mem_cons_of_mem _ hp))
      obtain ⟨b', hb'⟩ := Option.ne_none_iff_exists'.mp (hhandles part List.mem_cons_self)
      rw [hpb, hb', Option.getD_some, Option.getD_some] at hb
      change (p.handle, (keyGetNamespace p.parent).root) = (part.handle, (keyGetNamespace part.parent).root)
      rw [hpb, hb', hb, hns]

/-- The warnings for the keys that are dropped, one for each and in their order. -/
theorem foldl_warned (henv : WritesMeta env) (handle : KDB W) (part : SplitPart) : ∀ (l : List KeyRef) (h : Heap),
    warningKey ∉ l → (l.foldl (postprocessKey env handle part warningKey) h).cell warningKey =
      (l.filterMap fun k => dropText handle part (h.cell k)).foldl (fun key text => env.addWarning 79 key text)
        (h.cell warningKey)
  | [], _, _ => rfl
  | k :: l, h, hmem => by
    rw [List.mem_cons, not_or] at hmem
    obtain ⟨hne, hmem⟩ := hmem
    have hnames := postprocessKey_names henv handle part warningKey h k
    have hrest := foldl_warned henv handle part l (postprocessKey env handle part warningKey h k) hmem
    have htexts : (l.filterMap fun a => dropText handle part ((postprocessKey env handle part warningKey h k).cell a)) =
        l.filterMap fun a => dropText handle part (h.cell a) :=
      List.filterMap_congr fun a _ => dropText_congr handle part (hnames.key a) (hnames.keySize a)
    have hcell : (h.set k (keyClearSync (h.cell k))).cell warningKey = h.cell warningKey := set_cell_ne hne
    have htext : dropText handle part ((h.set k (keyClearSync (h.cell k))).cell k) = dropText handle part (h.cell k) := by
      rw [set_cell_self]
      exact dropText_congr handle part rfl rfl
    rw [List.foldl_cons, hrest, htexts, List.filterMap_cons]
    rw [postprocessKey]
    rw [htext]
    cases dropText handle part (h.cell k) with
    | none =>
      dsimp only
      rw [hcell]
    | some text =>
      have hdel : ∀ h' : Heap, (keyDel (keyDecRef h' k) k).cell warningKey = h'.cell warningKey := fun h' => by
        have hdec : (keyDecRef h' k).cell warningKey = h'.cell warningKey := set_cell_ne hne
        rw [keyDel]
        split_ifs
        · exact hdec
        · exact hdec
      dsimp only
      rw [hdel, set_cell_self, hcell, List.foldl_cons]

end Get

/-! ## What is left of the parts -/

/-- What a backend returned, the keys that belong to it, in any namespace but `proc`. -/
structure KeptPart (mounts : List (Path × BackendRef)) (d : BackendRef) (h : Heap) (part part' : SplitPart) : Prop where
  entry : part'.entry = part.entry
  keys : ∃ p : KeyRef → Bool, part'.keyset.array = part.keyset.array.filter p ∧ ∀ k ∈ part.keyset.array,
    Placeable (h.cell k) → (p k = true ↔ BelongsTo mounts d part.entry (h.cell k) ∧
      parentTest (keyGetNamespace (h.cell k)) ≠ none)

/-- What one part goes through. -/
structure Visited (env : Environment) (handle : KDB W) (warningKey : KeyRef) (part : SplitPart) : Prop where
  visits : ∀ h, postprocessVisits env handle part warningKey (part.keyset.size + 1)
    { heap := h, ks := ksRewind part.keyset } = part.keyset.array
  dropped : ∀ (h : Heap) k, keeps handle part (h.cell k) = false ↔ ∃ text, dropText handle part (h.cell k) = some text
  array : ∀ h, (elektraSplitPostprocess env handle part warningKey h).2.ks.array =
    part.keyset.array.filter fun k => keeps handle part (h.cell k)
  warned : ∀ h, warningKey ∉ part.keyset.array →
    (elektraSplitPostprocess env handle part warningKey h).2.heap.cell warningKey =
      (part.keyset.array.filterMap fun k => dropText handle part (h.cell k)).foldl
        (fun key text => env.addWarning 79 key text) (h.cell warningKey)

/-- What `splitGet` returns and leaves. -/
structure FiltersSplit (env : Environment) (mounts : List (Path × BackendRef)) (d : BackendRef) (handle : KDB W)
    (warningKey : KeyRef) (h : Heap) (parts : List SplitPart) (bypass : SplitPart)
    (r : ℤ × List SplitPart × KDB W × Heap) : Prop where
  visited : ∀ part ∈ parts, Visited env handle warningKey part
  kept : ∃ parts', r.2.1 = parts' ++ [bypass] ∧ List.Forall₂ (KeptPart mounts d h) parts parts' ∧
    List.Forall₂ (fun part part' => ¬ part.Sizeless → part.entry.recorded r.2.2.1 = some (part'.keyset.size : ℤ))
      parts parts'
  ret : r.1 = if ∃ part ∈ parts, part.Sizeless then -1 else 1

section Final

variable {mp : BackendRef → Option Path} {d : BackendRef} {kdb handle : KDB W} {env : Environment} {P : Path}

theorem visited_part (henv : WritesMeta env) (hdef : handle.defaultBackend ≠ none) (warningKey : KeyRef)
    (part : SplitPart) : Visited env handle warningKey part := by
  have hspec := fun h => @elektraSplitPostprocess_spec W env handle part warningKey henv (getBackend_ne_none hdef) h
  refine ⟨fun h => (hspec h).1, fun h k => ?_, fun h => (hspec h).2.2.1, fun h hmem => ?_⟩
  · rw [keeps, Option.isNone_eq_false_iff, Option.isSome_iff_exists]
  · rw [(hspec h).2.2.2]
    exact foldl_warned henv handle part _ h hmem

end Final

/-! ## In proc -/

/-- The loaded parts of a split, each with the first `n` keys. -/
def loadedParts (split : Split) (n : ℕ) : List SplitPart :=
  split.map fun e =>
    { keyset := { array := List.range n, alloc := KEYSET_SIZE, cursor := none, current := 0, sync := false }
      handle := e.handle, parent := e.parent, syncbits := e.syncbits }

theorem loadedParts_checked (split : Split) (n : ℕ) :
    List.Forall₂ CheckedEntry split ((loadedParts split n).map SplitPart.entry) := by
  rw [loadedParts, List.map_map, List.forall₂_map_right_iff, List.forall₂_same]
  exact fun e _ => ⟨rfl, fun _ => id, rfl, rfl⟩

theorem nul_x : 0 ∉ str "x" := by decide

theorem nul_y : 0 ∉ str "y" := by decide

def procX : Path := ⟨.ns .proc, [⟨str "x", nul_x⟩]⟩

def procXY : Path := ⟨.ns .proc, [⟨str "x", nul_x⟩, ⟨str "y", nul_y⟩]⟩

/-- What the backend at `proc/x` returned: `proc/x/y`. -/
def procPart : SplitPart :=
  { keyset := { array := [0], alloc := KEYSET_SIZE, cursor := none, current := 0, sync := false }
    handle := some 0, parent := keyNewName (str "proc/x"), syncbits := 0 }

def procKeys : Heap :=
  .ofList [{ keyNewName (str "proc/x/y") with roName := true, ksReference := 1 }, keyNewName (str "proc/x")]

end Elektra
