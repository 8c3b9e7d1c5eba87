import Elektra.KeySet.Cursor
import Elektra.KeySet.CutExact
import Elektra.Search.Kept

/-!
# The cursor and the cutpoint of ksCut

Whatever is cut out, in whatever rounds, the cursor is at the last key that is left of those at its old
place and before it. A cascading cutpoint carries other names while it cuts, and is marked as changed.

* `Before`, `Trimmed`: the position of a cursor, and how it moves with what is cut out;
* **`cutCursor_before`**, `ksCut_trimmed`: one cut, and all of them;
* `CursorKept`: where the cursor is to be;
* `CutpointKept`, `ksCut_cutpoint`: what is left of the cutpoint;
* **`ksCut_frame_iff`**.
-/

namespace Elektra

open Run

/-! ## Positions -/

/-- The cursor is behind `n` keys: at the last of them, or before the first key. -/
def KeySet.Before (ks : KeySet) : ℕ → Prop
  | 0 => ks.Rewound
  | i + 1 => ks.AtKey i

/-- Some keys are cut out of `ks₀`, and the cursor moves with those before it. -/
def Trimmed (ks₀ ks : KeySet) : Prop :=
  ∃ p : KeyRef → Bool, ks.array = ks₀.array.filter p ∧ ∀ n, ks₀.Before n → ks.Before (Kept.kept p ks₀.array n)

section Position

variable {ks₀ ks ks' : KeySet} {n : ℕ}

theorem KeySet.Before.le (h : ks.Before n) : n ≤ ks.array.length := by
  cases n with
  | zero => exact Nat.zero_le _
  | succ i => exact h.lt

theorem KeySet.Before.index : ∀ {n : ℕ}, ks.Before n → ks.nextIndex = n
  | 0, h => h.nextIndex
  | _ + 1, h => h.nextIndex

theorem KeySet.Before.next_none (h : ks.Before n) (hlen : ks.array.length = n) : (ksNext ks).1 = none := by
  have hnil : ks.remaining = [] := by rw [KeySet.remaining, h.index, ← hlen, List.drop_length]
  obtain ⟨-, hnone, -⟩ | ⟨k, rest, hrest, -⟩ := ksNext_cases ks
  · exact hnone
  · rw [hnil] at hrest
    cases hrest

theorem KeySet.Before.next_some {pre post : List KeyRef} {k : KeyRef} (h : ks.Before pre.length)
    (harray : ks.array = pre ++ k :: post) :
    ∃ ks', ksNext ks = (some k, ks') ∧ ks'.array = ks.array ∧ ks'.alloc = ks.alloc ∧ ks'.Before (pre.length + 1) := by
  have hremaining : ks.remaining = k :: post := by rw [KeySet.remaining, h.index, harray, List.drop_left]
  obtain ⟨hnil, -⟩ | ⟨k', rest, hrest, hnext, hat, -⟩ := ksNext_cases ks
  · rw [hremaining] at hnil
    cases hnil
  · rw [hremaining] at hrest
    cases hrest
    rw [h.index, hnext] at hat
    exact ⟨_, hnext, rfl, rfl, hat⟩

theorem Trimmed.refl (ks : KeySet) : Trimmed ks ks := by
  refine ⟨fun _ => true, (List.filter_true _).symm, fun n hn => ?_⟩
  rw [Kept.kept_all (fun _ _ => rfl) hn.le]
  exact hn

theorem Trimmed.trans (h : Trimmed ks₀ ks) (h' : Trimmed ks ks') : Trimmed ks₀ ks' := by
  obtain ⟨p, harray, hcursor⟩ := h
  obtain ⟨q, harray', hcursor'⟩ := h'
  refine ⟨fun k => p k && q k, ?_, fun n hn => ?_⟩
  · rw [harray', harray, List.filter_filter]
    exact List.filter_congr fun k _ => Bool.and_comm _ _
  · have hmove := hcursor' _ (hcursor n hn)
    rwa [harray, Kept.kept_filter] at hmove

theorem Trimmed.nodup (h : Trimmed ks₀ ks) (hnodup : ks₀.array.Nodup) : ks.array.Nodup := by
  obtain ⟨p, harray, -⟩ := h
  exact harray ▸ hnodup.filter p

/-! The three corrections of the cursor. -/

/-- The keys besides those from `found` to `it`. -/
def cutArray (ks : KeySet) (found it : ℕ) : List KeyRef := ks.array.take found ++ ks.array.drop it

variable {found it : ℕ}

theorem cutCursor_lt (h : ks.current < found) (hit : found ≤ it) :
    cutCursor ks found it = { ks with array := cutArray ks found it } := by
  simp only [cutCursor, if_neg fun hin : found ≤ ks.current ∧ ks.current < it => not_le.mpr h hin.1,
    if_neg (not_le.mpr (h.trans_le hit)), Bool.false_eq_true, if_false, cutArray]

theorem cutCursor_first (h : ks.current < it) (hfound : found = 0) :
    cutCursor ks found it = { ksRewind ks with array := cutArray ks found it } := by
  subst hfound
  have hit : ¬ it ≤ 0 := by omega
  simp only [cutCursor, Nat.zero_le, true_and, if_pos h, if_true, if_neg hit, Bool.false_eq_true, if_false,
    cutArray, ksRewind]

theorem cutCursor_inside (hfound : found ≠ 0) (hle : found ≤ ks.current) (h : ks.current < it) :
    cutCursor ks found it = { ks with
      array := cutArray ks found it, current := found - 1, cursor := (cutArray ks found it)[found - 1]? } := by
  have hit : ¬ it ≤ found - 1 := by omega
  simp only [cutCursor, if_pos (And.intro hle h), if_neg hfound, if_neg hit, if_true, cutArray]

theorem cutCursor_behind (hle : it ≤ ks.current) (h : ks.current < ks.size) :
    cutCursor ks found it = { ks with
      array := cutArray ks found it, current := found + ks.current - it
      cursor := (cutArray ks found it)[found + ks.current - it]? } := by
  simp only [cutCursor, if_neg fun hin : found ≤ ks.current ∧ ks.current < it => not_lt.mpr hle hin.2,
    if_pos hle, if_neg (not_le.mpr (hle.trans_lt h)), if_true, cutArray]

/-- **The cursor is behind the keys that are left of those before it.** -/
theorem cutCursor_before {pre run post : List KeyRef} (harray : ks.array = pre ++ (run ++ post))
    (hrun : run ≠ []) (h : ks.Before n) :
    (cutCursor ks pre.length (pre.length + run.length)).Before
      (min n pre.length + (n - (pre.length + run.length))) := by
  have hpos : 0 < run.length := List.length_pos_iff.mpr hrun
  have hsize : ks.size = pre.length + (run.length + post.length) := by
    rw [KeySet.size, harray, List.length_append, List.length_append]
  have hrest : cutArray ks pre.length (pre.length + run.length) = pre ++ post := by
    rw [cutArray, harray, List.take_left, ← List.drop_drop, List.drop_left, List.drop_left]
  cases n with
  | zero =>
    have hcurrent : ks.current = 0 := h.current
    rw [Nat.zero_min, Nat.zero_sub, Nat.add_zero]
    by_cases hfirst : pre.length = 0
    · rw [cutCursor_first (by omega) hfirst]
      exact ⟨rfl, rfl⟩
    · rw [cutCursor_lt (by omega) (by omega)]
      exact ⟨hcurrent, h.cursor⟩
  | succ i =>
    have hcurrent : ks.current = i := h.current
    have hlt : i < ks.size := h.lt
    by_cases hbefore : i < pre.length
    · have hplace : min (i + 1) pre.length + (i + 1 - (pre.length + run.length)) = i + 1 := by omega
      rw [hplace, cutCursor_lt (by omega) (by omega), hrest]
      refine ⟨hcurrent, ?_, ?_⟩
      · rw [h.cursor, harray, List.getElem?_append_left hbefore]
        exact (List.getElem?_append_left hbefore).symm
      · rw [List.length_append]
        omega
    by_cases hinside : i < pre.length + run.length
    · have hplace : min (i + 1) pre.length + (i + 1 - (pre.length + run.length)) = pre.length := by omega
      rw [hplace]
      by_cases hfirst : pre.length = 0
      · rw [cutCursor_first (by omega) hfirst, hfirst]
        exact ⟨rfl, rfl⟩
      · rw [cutCursor_inside hfirst (by omega) (by omega), hrest]
        obtain ⟨j, hj⟩ := Nat.exists_eq_succ_of_ne_zero hfirst
        rw [hj]
        refine ⟨rfl, rfl, ?_⟩
        rw [List.length_append]
        omega
    · have hplace : min (i + 1) pre.length + (i + 1 - (pre.length + run.length)) =
          pre.length + i - (pre.length + run.length) + 1 := by omega
      rw [hplace, cutCursor_behind (by omega) (by omega), hrest, hcurrent]
      refine ⟨rfl, rfl, ?_⟩
      rw [List.length_append]
      omega

theorem cutCursor_trimmed {pre run post : List KeyRef} (harray : ks.array = pre ++ (run ++ post))
    (hrun : run ≠ []) (hnodup : ks.array.Nodup) :
    Trimmed ks (cutCursor ks pre.length (pre.length + run.length)) := by
  refine ⟨fun k => k ∉ run, ?_, fun n hn => ?_⟩
  · rw [(cutCursor_array ks _ _).1, harray, Kept.filter_run (harray ▸ hnodup), List.take_left, ← List.drop_drop,
      List.drop_left, List.drop_left]
  · have hmove := cutCursor_before harray hrun hn
    have hle := hn.le
    rw [harray] at hle hnodup ⊢
    rwa [Kept.kept_run hnodup hle]

theorem firstRun_ne_nil {p : KeyRef → Bool} {l : List KeyRef} (h : (l.takeWhile fun k => !p k).length ≠ l.length) :
    firstRun p l ≠ [] := by
  intro hnil
  refine h ?_
  cases hrest : l.dropWhile fun k => !p k with
  | nil =>
    have hdrop := drop_takeWhile (fun k => !p k) l
    rw [hrest, List.drop_eq_nil_iff] at hdrop
    exact le_antisymm (List.takeWhile_sublist _).length_le hdrop
  | cons k rest =>
    -- what is not passed over starts a run
    have hhead := @List.head?_dropWhile_not _ (fun k => !p k) l
    rw [hrest, List.head?_cons] at hhead
    have hk : p k = true := by simpa using hhead
    rw [firstRun, hrest, List.takeWhile_cons_of_pos hk] at hnil
    cases hnil

theorem ksCutBelow_trimmed (h : Heap) {ks : KeySet} (hnodup : ks.array.Nodup) (cutpoint : KeyRef) :
    Trimmed ks (ksCutBelow h ks cutpoint).2.1 := by
  have hdrop := drop_takeWhile (fun k => !cutTest h cutpoint k) ks.array
  unfold ksCutBelow
  dsimp only
  split_ifs with hall
  · exact .refl ks
  · rw [hdrop, ← firstRun]
    exact cutCursor_trimmed (@run_append _ (cutTest h cutpoint) ks.array) (firstRun_ne_nil hall) hnodup

/-- **A cut at the key that the cursor is at**, where the run begins with that key. -/
theorem ksCutBelow_at {h : Heap} {k : KeyRef} {pre post : List KeyRef} (harray : ks.array = pre ++ k :: post)
    (hnodup : ks.array.Nodup) (hpre : ∀ a ∈ pre, cutTest h k a = false) (hself : cutTest h k k = true)
    (hbefore : ks.Before (pre.length + 1)) :
    (ksCutBelow h ks k).2.1.array = pre ++ post.dropWhile (cutTest h k) ∧
      (ksCutBelow h ks k).2.2.array = k :: post.takeWhile (cutTest h k) ∧
      (ksCutBelow h ks k).2.1.Before pre.length := by
  obtain ⟨-, hrest, -, hcut, -, -⟩ := ksCutBelow_spec h ks k
  have hdrop : ks.array.dropWhile (fun a => !cutTest h k a) = k :: post := by
    rw [harray, List.dropWhile_append_of_pos fun a ha => by rw [hpre a ha]; rfl]
    exact List.dropWhile_cons_of_neg (by simp [hself])
  have htake : ks.array.takeWhile (fun a => !cutTest h k a) = pre := by
    have hsplit := List.takeWhile_append_dropWhile (p := fun a => !cutTest h k a) (l := ks.array)
    rw [hdrop] at hsplit
    exact List.append_cancel_right (hsplit.trans harray)
  rw [firstRun, hdrop, List.takeWhile_cons_of_pos hself] at hcut
  rw [besides, hdrop, htake, List.dropWhile_cons_of_pos hself] at hrest
  refine ⟨hrest, hcut, ?_⟩
  obtain ⟨p, hfilter, hcursor⟩ := ksCutBelow_trimmed h hnodup k
  have hplace := hcursor _ hbefore
  -- the keys before stay, and the key does not
  have hp : ∀ a ∈ pre, p a = true := fun a ha => by
    have hin : a ∈ ks.array.filter p := hfilter ▸ hrest ▸ List.mem_append_left _ ha
    exact (List.mem_filter.mp hin).2
  have hk : ¬ p k = true := fun hk => by
    have hin : k ∈ ks.array.filter p := List.mem_filter.mpr ⟨by rw [harray]; simp, hk⟩
    rw [← hfilter, hrest] at hin
    rw [harray] at hnodup
    obtain ⟨-, hpost, hdisj⟩ := List.nodup_append.mp hnodup
    obtain hin | hin := List.mem_append.mp hin
    · exact hdisj k hin k List.mem_cons_self rfl
    · exact (List.nodup_cons.mp hpost).1 ((List.dropWhile_sublist _).subset hin)
  have hkept : Kept.kept p ks.array (pre.length + 1) = pre.length := by
    have hfirst : (pre ++ k :: post).take (pre.length + 1) = pre ++ [k] := by
      rw [List.take_length_add_append]
      rfl
    rw [Kept.kept, harray, hfirst, List.filter_append, List.filter_eq_self.mpr hp,
      List.filter_cons_of_neg hk, List.filter_nil, List.append_nil]
  rwa [hkept] at hplace

theorem cutRounds_trimmed (cutpoint : KeyRef) (name : Str) : ∀ (l : List Namespace)
    (st : Heap × KeySet × KeySet), st.2.1.array.Nodup →
    Trimmed st.2.1 (l.foldl (cutRound cutpoint name) st).2.1
  | [], st, _ => .refl st.2.1
  | ns :: l, (h, ks, ret), hnodup => by
    have hround : Trimmed ks (cutRound cutpoint name (h, ks, ret) ns).2.1 := ksCutBelow_trimmed _ hnodup cutpoint
    exact hround.trans (cutRounds_trimmed cutpoint name l _ (hround.nodup hnodup))

/-- **Whatever is cut out, the cursor moves with what is left before it.** -/
theorem ksCut_trimmed (h : Heap) {ks : KeySet} (hnodup : ks.array.Nodup) (cutpoint : KeyRef) :
    Trimmed ks (ksCut h ks cutpoint).2.1 := by
  cases hn : (h.cell cutpoint).key with
  | none =>
    rw [ksCut, hn]
    exact .refl ks
  | some name =>
    by_cases hc : name.head? = some pathSeparator
    · have hrounds := cutRounds_trimmed cutpoint name namespaces (cutStart h ks) hnodup
      rw [ksCut_cascading hn hc]
      generalize namespaces.foldl (cutRound cutpoint name) (cutStart h ks) = st at hrounds ⊢
      exact hrounds
    · rw [ksCut_below hn hc]
      exact ksCutBelow_trimmed h hnodup cutpoint

end Position

/-! ## Where the cursor is -/

/-- The cursor is at the key, or before the first one. -/
def KeySet.At (ks : KeySet) : Option KeyRef → Prop
  | none => ks.Rewound
  | some k => ∃ i, ks.AtKey i ∧ ks.array[i]? = some k

/-- The cursor of `ks`, of which `rest` is left: at the key where it was, or, where that key is cut out, at
the last key left before it. -/
structure CursorKept (ks rest : KeySet) : Prop where
  stays : ∀ i k, ks.AtKey i → ks.array[i]? = some k → k ∈ rest.array → rest.At (some k)
  leaves : ∀ i k, ks.AtKey i → ks.array[i]? = some k → k ∉ rest.array →
    rest.At ((ks.array.take i).filter (· ∈ rest.array)).getLast?
  rewound : ks.Rewound → rest.Rewound

theorem KeySet.Before.at {ks₀ ks : KeySet} {p : KeyRef → Bool} {n : ℕ} (harray : ks.array = ks₀.array.filter p)
    (h : ks.Before (Kept.kept p ks₀.array n)) : ks.At ((ks₀.array.take n).filter p).getLast? := by
  cases hn : Kept.kept p ks₀.array n with
  | zero =>
    rw [hn] at h
    rw [Kept.kept, List.length_eq_zero_iff] at hn
    rw [hn]
    exact h
  | succ j =>
    rw [hn] at h
    have hget := Kept.getElem?_kept hn
    rw [← harray] at hget
    rw [← hget, List.getElem?_eq_getElem h.lt]
    exact ⟨j, h, List.getElem?_eq_getElem h.lt⟩

theorem Trimmed.cursorKept {ks₀ ks : KeySet} (h : Trimmed ks₀ ks) : CursorKept ks₀ ks := by
  obtain ⟨p, harray, hcursor⟩ := h
  have hmem : ∀ k ∈ ks₀.array, p k = decide (k ∈ ks.array) := fun k hk => by
    rw [Bool.eq_iff_iff, decide_eq_true_iff, harray, List.mem_filter]
    exact (and_iff_right hk).symm
  have hat : ∀ i, ks₀.AtKey i → ks.At ((ks₀.array.take (i + 1)).filter p).getLast? := fun i hi =>
    (hcursor (i + 1) hi).at harray
  refine ⟨fun i k hi hk hin => ?_, fun i k hi hk hout => ?_, fun hr => hcursor 0 hr⟩
  · obtain ⟨hlt, rfl⟩ := List.getElem?_eq_some_iff.mp hk
    have hp : p ks₀.array[i] = true := (hmem _ (List.getElem_mem hlt)).trans (decide_eq_true hin)
    have hlast := hat i hi
    rwa [Kept.getLast?_kept hlt hp] at hlast
  · obtain ⟨hlt, rfl⟩ := List.getElem?_eq_some_iff.mp hk
    have hp : ¬ p ks₀.array[i] = true := fun hp =>
      hout (decide_eq_true_iff.mp ((hmem _ (List.getElem_mem hlt)).symm.trans hp))
    have hlast := hat i hi
    rw [List.take_succ_eq_append_getElem hlt, List.filter_append, List.filter_cons_of_neg hp, List.filter_nil,
      List.append_nil] at hlast
    rwa [List.filter_congr fun k hk => hmem k (List.mem_of_mem_take hk)] at hlast

/-! ## The cutpoint -/

structure SameFlags (source dest : Key) : Prop where
  sync : dest.sync = source.sync
  roName : dest.roName = source.roName
  roValue : dest.roValue = source.roValue
  roMeta : dest.roMeta = source.roMeta

/-- The key has the name, the unescaped name, the sizes and the flags that it had. -/
structure CutpointKept (source dest : Key) : Prop extends SameFlags source dest where
  key : dest.key = source.key
  ukey : dest.ukey = source.ukey
  keySize : dest.keySize = source.keySize
  keyUSize : dest.keyUSize = source.keyUSize

section Flags

variable {h : Heap} {c k : KeyRef}

theorem SameFlags.refl (key : Key) : SameFlags key key := ⟨rfl, rfl, rfl, rfl⟩

theorem SameFlags.trans {a b d : Key} (h : SameFlags a b) (h' : SameFlags b d) : SameFlags a d :=
  ⟨h'.sync.trans h.sync, h'.roName.trans h.roName, h'.roValue.trans h.roValue, h'.roMeta.trans h.roMeta⟩

theorem flags_set {key : Key} (hk : SameFlags (h.cell k) key) : SameFlags (h.cell c) ((h.set k key).cell c) := by
  by_cases hc : c = k
  · subst hc
    rw [set_cell_self]
    exact hk
  · rw [set_cell_ne hc]
    exact .refl _

theorem flags_del (h : Heap) (c k : KeyRef) : SameFlags (h.cell c) ((keyDel h k).cell c) := by
  rw [keyDel]
  split_ifs
  · exact .refl _
  · exact .refl _

theorem flags_incRef (h : Heap) (c k : KeyRef) : SameFlags (h.cell c) ((keyIncRef h k).cell c) :=
  flags_set ⟨rfl, rfl, rfl, rfl⟩

theorem flags_decRef (h : Heap) (c k : KeyRef) : SameFlags (h.cell c) ((keyDecRef h k).cell c) :=
  flags_set ⟨rfl, rfl, rfl, rfl⟩

theorem flags_lock (hc : (h.cell c).roName = true ∨ c ≠ k) :
    SameFlags (h.cell c) ((elektraKeyLock h k).cell c) := by
  by_cases hck : c = k
  · subst hck
    have hlocked := hc.resolve_right (not_not_intro rfl)
    exact flags_set ⟨rfl, hlocked.symm, rfl, rfl⟩
  · rw [elektraKeyLock, set_cell_ne hck]
    exact .refl _

theorem flags_appendKey (ks : KeySet) (hc : (h.cell c).roName = true ∨ c ≠ k) :
    SameFlags (h.cell c) ((ksAppendKey h ks k).2.1.cell c) := by
  have hlock := flags_lock hc
  unfold ksAppendKey
  dsimp only
  split_ifs
  · exact flags_del h c k
  · exact hlock
  · exact ((hlock.trans (flags_decRef _ _ _)).trans (flags_del _ _ _)).trans (flags_incRef _ _ _)
  · exact hlock.trans (flags_incRef _ _ _)
  · exact hlock.trans (flags_incRef _ _ _)

theorem flags_appendLoop : ∀ (l : List KeyRef) {h : Heap} (ks : KeySet), (h.cell c).roName = true ∨ c ∉ l →
    SameFlags (h.cell c) ((ksAppendLoop h ks l).1.cell c)
  | [], _, _, _ => .refl _
  | k :: l, h, ks, hc => by
    have hkey := flags_appendKey ks (hc.imp_right fun hc => (List.ne_of_not_mem_cons hc))
    exact hkey.trans (flags_appendLoop l _ (hc.imp hkey.roName.trans fun hc => List.not_mem_of_not_mem_cons hc))

theorem flags_append (ks toAppend : KeySet) (hc : (h.cell c).roName = true ∨ c ∉ toAppend.array) :
    SameFlags (h.cell c) ((ksAppend h ks toAppend).2.1.cell c) := by
  unfold ksAppend
  split_ifs
  · exact .refl _
  · exact flags_appendLoop _ _ hc

theorem flags_close (c : KeyRef) : ∀ (l : List KeyRef) (h : Heap), SameFlags (h.cell c) ((closeLoop h l).cell c)
  | [], _ => .refl _
  | k :: l, h => ((flags_decRef h c k).trans (flags_del _ c k)).trans (flags_close c l _)

/-- A round marks the cutpoint as changed, and touches no other flag of it. -/
theorem cutRound_flags (name : Str) {st : Heap × KeySet × KeySet} (ns : Namespace)
    (hc : (st.1.cell c).roName = true ∨ c ∉ st.2.1.array) :
    SameFlags { st.1.cell c with sync := true } ((cutRound c name st ns).1.cell c) := by
  obtain ⟨h, ks, ret⟩ := st
  unfold cutRound
  dsimp only at hc ⊢
  have hname : SameFlags { h.cell c with sync := true } ((h.set c (elektraFinalizeName (h.cell c) (cutName ns name))).cell c) := by
    rw [set_cell_self]
    exact ⟨rfl, rfl, rfl, rfl⟩
  generalize h.set c (elektraFinalizeName (h.cell c) (cutName ns name)) = h1 at hname ⊢
  obtain ⟨hheap, -, -, hrun, -, -⟩ := ksCutBelow_spec h1 ks c
  generalize ksCutBelow h1 ks c = cut at hheap hrun ⊢
  obtain ⟨h2, ks', n⟩ := cut
  subst hheap
  dsimp only at hrun ⊢
  refine (hname.trans (flags_append ret n (hc.imp hname.roName.trans fun hc hn => hc ?_))).trans (flags_close c _ _)
  rw [hrun] at hn
  exact (firstRun_sublist _).subset hn

theorem cutRounds_flags (name : Str) : ∀ (l : List Namespace) {st : Heap × KeySet × KeySet},
    (st.1.cell c).sync = true → (st.1.cell c).roName = true ∨ c ∉ st.2.1.array →
    SameFlags (st.1.cell c) ((l.foldl (cutRound c name) st).1.cell c)
  | [], _, _, _ => .refl _
  | ns :: l, st, hsync, hc => by
    have hround := cutRound_flags name ns hc
    have hflags : SameFlags (st.1.cell c) ((cutRound c name st ns).1.cell c) :=
      ⟨hround.sync.trans hsync.symm, hround.roName, hround.roValue, hround.roMeta⟩
    have hsub := cutRounds_sublist c name [ns] st
    exact hflags.trans (cutRounds_flags name l hround.sync (hc.imp hround.roName.trans fun hc hn => hc (hsub.subset hn)))

end Flags

section Frame

variable {h : Heap} {ks : KeySet} {m : Ident → Option KeyRef} {cutpoint : KeyRef}

theorem ksCut_cutpoint (hks : ks.Holds h m) (hc : Cascading (h.cell cutpoint)) :
    CutpointKept { h.cell cutpoint with sync := true } ((ksCut h ks cutpoint).1.cell cutpoint) := by
  have hlocked : (h.cell cutpoint).roName = true ∨ cutpoint ∉ ks.array :=
    or_iff_not_imp_right.mpr fun hin => hks.locked cutpoint (not_not.mp hin)
  rw [Cascading, keyName] at hc
  cases hn : (h.cell cutpoint).key with
  | none =>
    rw [hn] at hc
    cases hc
  | some name =>
    rw [hn, Option.getD_some] at hc
    have hfirst := @cutRound_flags cutpoint name (cutStart h ks) .spec hlocked
    have hsub := cutRounds_sublist cutpoint name [.spec] (cutStart h ks)
    have hrounds := cutRounds_flags name laterNamespaces hfirst.sync
      (hlocked.imp hfirst.roName.trans fun hc hin => hc (hsub.subset hin))
    rw [← List.foldl_cons, ← namespaces_eq] at hrounds
    rw [ksCut_cascading hn hc]
    generalize namespaces.foldl (cutRound cutpoint name) (cutStart h ks) = st at hrounds ⊢
    have hflags := hfirst.trans hrounds
    dsimp only
    rw [set_cell_self]
    exact ⟨⟨hflags.sync, hflags.roName, hflags.roValue, hflags.roMeta⟩, rfl, rfl, rfl, rfl⟩

theorem ksCut_heap (hc : ¬ Cascading (h.cell cutpoint)) : (ksCut h ks cutpoint).1 = h := by
  rw [Cascading, keyName] at hc
  cases hn : (h.cell cutpoint).key with
  | none => rw [ksCut, hn]
  | some name =>
    rw [hn, Option.getD_some] at hc
    rw [ksCut_below hn hc]
    exact (ksCutBelow_spec h ks cutpoint).1

end Frame

/-- `user/a`; the key `1` is `/a`, not changed since it was read. -/
def readSet : Heap × KeySet :=
  ksNew (.ofList [keyNewName (str "user/a"), { keyNewName (str "/a") with sync := false }]) 1 [0]

end Elektra
