import Mathlib.Data.List.TakeWhile
import Elektra.Name.Key

/-!
# Canonical names

The name functions keep a key at a path: whatever they write is the name of a `Path`, and the bytes
behind it are its unescaped name.

* `HasName`, **`hasName_finalize`**;
* `addLevel_buffer`, **`foldl_addLevel`**: the loop of `keyAddName` computes `pathReduce`;
* `closed_of_validate`: what the validation ensures, and where it does not look;
* `keyAddName_spec`, `keySetName_spec`, `keyAddBaseName_spec`, `keySetBaseName_spec`.
-/

namespace Elektra

/-- `k` carries the name of `P`. -/
structure HasName (k : Key) (P : Path) : Prop where
  key : k.key = some P.name
  keySize : k.keySize = P.name.length + 1
  ukey : k.ukey = P.uname
  keyUSize : k.keyUSize = P.uname.length

theorem hasName_finalize (key : Key) (P : Path) : HasName (elektraFinalizeName key P.name) P :=
  ⟨rfl, rfl, P.unescapeKeyName_name, congrArg List.length P.unescapeKeyName_name⟩

theorem HasName.unique {key : Key} {P Q : Path} (hP : HasName key P) (hQ : HasName key Q) : P = Q :=
  Path.name_injective (Option.some.inj (hP.key.symm.trans hQ.key))

/-! ## The loop over the levels -/

/-- The buffer of a path: only the cascading root ends in a separator. -/
def Path.buffer (P : Path) : NameBuffer := ⟨P.name, decide (P.stem = [])⟩

theorem Path.name_of_stem {P : Path} (h : P.stem ≠ []) : P.name = P.stem := if_neg h

theorem Path.name_of_root {P : Path} (h : P.stem = []) : P.name = [pathSeparator] := if_pos h

theorem Path.stem_add_ne (P : Path) (s : CString) : (P.add s).stem ≠ [] := by
  simp [stem_add]

theorem Path.cases_parts (P : Path) : P.parts = [] ∨ ∃ (Q : Path) (s : CString), P = Q.add s := by
  obtain ⟨r, ps⟩ := P
  rcases List.eq_nil_or_concat ps with rfl | ⟨qs, s, rfl⟩
  · exact Or.inl rfl
  · exact Or.inr ⟨⟨r, qs⟩, s, by simp [add]⟩

theorem Path.levels_ne_nil {P : Path} (h : P.stem ≠ []) : levels P.name ≠ [] := by
  rw [levels_name]
  intro he
  obtain ⟨h1, h2⟩ := List.append_eq_nil_iff.mp he
  refine h (stem_eq_nil.mpr ⟨?_, ?_⟩)
  · by_contra hr
    simp [hr] at h1
  · exact List.map_eq_nil_iff.mp h2

theorem Path.levels_add (P : Path) (s : CString) :
    levels (P.add s).name = levels P.name ++ [elektraEscapeKeyNamePart s.1] := by
  rw [levels_name, levels_name, escaped_add, ← List.append_assoc]
  rfl

theorem removeOneLevel_mk (bytes : Str) (avoidSlash : Bool) :
    elektraRemoveOneLevel ⟨bytes, avoidSlash⟩ =
      if 1 < (levels bytes).length then
        ⟨bytes.take (bytes.length - (((levels bytes).getLastD []).length + 1)), avoidSlash⟩
      else if bytes.head? = some pathSeparator then ⟨bytes.take 1, true⟩
      else ⟨bytes, avoidSlash⟩ := rfl

theorem removeOneLevel_buffer (P : Path) : elektraRemoveOneLevel P.buffer = P.parent.buffer := by
  rw [Path.buffer, removeOneLevel_mk]
  obtain h | ⟨Q, s, rfl⟩ := P.cases_parts
  · have hparent : P.parent = P := by
      obtain ⟨r, ps⟩ := P
      obtain rfl : ps = [] := h
      rfl
    have hlen : ¬ 1 < (levels P.name).length := by
      rw [Path.levels_name]
      simp only [Path.escaped, h, List.map_nil, List.append_nil]
      split_ifs <;> simp
    rw [hparent, Path.buffer, if_neg hlen]
    split_ifs with hc
    · have hs : P.stem = [] := Path.stem_eq_nil.mpr ⟨P.head_name.mp hc, h⟩
      simp [Path.name_of_root hs, hs]
    · rfl
  · have hparent : (Q.add s).parent = Q := by simp [Path.parent, Path.add]
    rw [hparent, Path.buffer, Path.levels_add, List.getLastD_concat, List.length_append,
      List.length_singleton]
    by_cases hs : Q.stem = []
    · obtain ⟨hr, hp⟩ := Path.stem_eq_nil.mp hs
      have hl : (levels Q.name).length = 0 := by
        rw [Path.levels_name]; simp [hr, hp, Path.escaped]
      rw [if_neg (by omega), if_pos ((Q.add s).head_name.mpr hr), Path.name_of_root hs, Path.name_add,
        hs]
      rfl
    · have hl := List.length_pos_of_ne_nil (Path.levels_ne_nil hs)
      rw [if_pos (by omega), Path.name_of_stem hs, Path.name_add]
      simp [hs, Path.stem_add_ne]

/-- One round of the loop of `keyAddName` keeps the buffer that of a path. -/
theorem addLevel_buffer (P : Path) {l : Str} (hl : IsLevel l) (hc : Closed l) (h0 : 0 ∉ l) :
    ∃ Q : Path, addLevel P.buffer l = Q.buffer ∧ Q.root = P.root ∧
      Q.escaped = pathStep P.escaped l := by
  by_cases h1 : l = str "."
  · exact ⟨P, by rw [addLevel, if_pos h1], rfl, by rw [pathStep, if_pos h1]⟩
  by_cases h2 : l = str ".."
  · refine ⟨P.parent, ?_, rfl, ?_⟩
    · rw [addLevel, if_neg h1, if_pos h2, removeOneLevel_buffer]
    · rw [pathStep, if_neg h1, if_pos h2, Path.escaped_parent]
  · have he : elektraEscapeKeyNamePart (unescapeLevel l) = l :=
      escape_unescape ⟨hl, hc, h1, h2⟩
    refine ⟨P.add ⟨unescapeLevel l, nul_unescapeLevel h0⟩, ?_, rfl, ?_⟩
    · rw [addLevel, if_neg h1, if_neg h2]
      simp only [Path.buffer, Path.name_add, Path.stem_add_ne, decide_false, he]
      by_cases hs : P.stem = []
      · simp [hs, Path.name_of_root hs]
      · simp [hs, Path.name_of_stem hs]
    · rw [pathStep, if_neg h1, if_neg h2, Path.escaped_add, he]

/-- **The loop of `keyAddName` reads its levels as a file system path.** -/
theorem foldl_addLevel : ∀ (ls : List Str) (P : Path),
    (∀ l ∈ ls, IsLevel l ∧ Closed l ∧ 0 ∉ l) →
    ∃ Q : Path, ls.foldl addLevel P.buffer = Q.buffer ∧ Q.root = P.root ∧
      Q.escaped = pathReduce P.escaped ls
  | [], P, _ => ⟨P, rfl, rfl, rfl⟩
  | l :: ls, P, h => by
    obtain ⟨hl, hc, h0⟩ := h l List.mem_cons_self
    obtain ⟨Q, hQ, hr, he⟩ := addLevel_buffer P hl hc h0
    obtain ⟨Q', hQ', hr', he'⟩ := foldl_addLevel ls Q fun l hl => h l (List.mem_cons_of_mem _ hl)
    refine ⟨Q', ?_, hr'.trans hr, ?_⟩
    · rw [List.foldl_cons, hQ, hQ']
    · rw [he', he, pathReduce, pathReduce, List.foldl_cons]

theorem pathReduce_parts (ps qs : List Str) (h : ∀ p ∈ qs, IsPart p) :
    pathReduce ps qs = ps ++ qs := by
  induction qs generalizing ps with
  | nil => simp [pathReduce]
  | cons q qs ih =>
    have hq := h q List.mem_cons_self
    have hstep : pathStep ps q = ps ++ [q] := by
      rw [pathStep, if_neg hq.ne_dot, if_neg hq.ne_dots]
    have ih' := ih (ps ++ [q]) fun p hp => h p (List.mem_cons_of_mem _ hp)
    rw [pathReduce, List.foldl_cons, hstep]
    simpa [pathReduce] using ih'

/-! ## Validation -/

/-- `s` consists of backslashes only. -/
def AllBackslashes (s : Str) : Prop := s = elektraWriteBackslashes s.length

instance (s : Str) : Decidable (AllBackslashes s) := inferInstanceAs (Decidable (_ = _))

theorem allBackslashes_concat {s : Str} {c : UInt8} :
    AllBackslashes (s ++ [c]) ↔ AllBackslashes s ∧ c = pathEscape := by
  rw [AllBackslashes, List.length_append, List.length_singleton, backslashes_add]
  constructor
  · intro h
    have := List.append_inj h (by simp [elektraWriteBackslashes])
    exact ⟨this.1, (List.cons.inj this.2).1⟩
  · rintro ⟨h, rfl⟩
    exact congrArg (· ++ [pathEscape]) h

/-- The count of the validation, where the string is not backslashes alone. -/
theorem validateLoop_eq {name : Str} : ∀ (size n : ℕ), size < name.length →
    validateLoop name size n = n + if AllBackslashes (name.take (size + 1)) then size
      else escAfter 0 (name.take (size + 1))
  | 0, n, h => by
    obtain ⟨c, s, rfl⟩ := List.exists_cons_of_length_pos h
    by_cases hc : c = pathEscape
    · simp [validateLoop, AllBackslashes, elektraWriteBackslashes, hc]
    · simp [validateLoop, AllBackslashes, elektraWriteBackslashes, hc, escAfter]
  | size + 1, n, h => by
    have htake : name.take (size + 1 + 1) = name.take (size + 1) ++ [name[size + 1]] := by
      rw [List.take_append_getElem]
    rw [validateLoop, htake, List.getElem?_eq_getElem h]
    simp only [Option.some.injEq, allBackslashes_concat, escAfter_append, escAfter]
    split_ifs with hc hall hall
    · rw [validateLoop_eq size (n + 1) (by omega), if_pos hall.1]; omega
    · have : ¬ AllBackslashes (name.take (size + 1)) := fun ha => hall ⟨ha, hc⟩
      rw [validateLoop_eq size (n + 1) (by omega), if_neg this]; omega
    · exact absurd hall.2 hc
    · rfl

theorem escAfter_all {s : Str} (h : AllBackslashes s) : escAfter 0 s = s.length := by
  rw [AllBackslashes] at h
  rw [h, escAfter_backslashes]
  simp [elektraWriteBackslashes]

/-- Where there is something else than backslashes, the validation finds an odd run at the end. -/
theorem validate_iff {s : Str} (h0 : s ≠ []) (h : ¬ AllBackslashes s) :
    elektraValidateKeyName s (s.length + 1) = true ↔ Closed s := by
  have hpos := List.length_pos_of_ne_nil h0
  have hsize : s.length + 1 - 2 + 1 = s.length := by omega
  rw [elektraValidateKeyName, validateLoop_eq _ _ (by omega), hsize, List.take_length, if_neg h]
  simp [Closed]

theorem validate_all {s : Str} (h0 : s ≠ []) (h : AllBackslashes s) :
    elektraValidateKeyName s (s.length + 1) = true ↔ ¬ Closed s := by
  have hpos := List.length_pos_of_ne_nil h0
  have hsize : s.length + 1 - 2 + 1 = s.length := by omega
  rw [elektraValidateKeyName, validateLoop_eq _ _ (by omega), hsize, List.take_length, if_pos h,
    Closed, escAfter_all h]
  simp only [Nat.zero_add, decide_eq_true_eq]
  omega

/-- `s` is an odd number of backslashes: it dangles, and the validation does not see it. -/
def OddRun (s : Str) : Prop := AllBackslashes s ∧ s.length % 2 = 1

theorem closed_of_validate {s : Str} (h0 : s ≠ []) (hv : elektraValidateKeyName s (s.length + 1) = true)
    (hodd : ¬ OddRun s) : Closed s := by
  by_cases h : AllBackslashes s
  · have := (validate_all h0 h).mp hv
    rw [Closed, escAfter_all h] at this
    exact absurd ⟨h, by omega⟩ hodd
  · exact (validate_iff h0 h).mp hv

/-! ## keyAddName -/

theorem level_of_mem {s l : Str} (h0 : 0 ∉ s) (hc : Closed s) (hl : l ∈ levels s) :
    IsLevel l ∧ Closed l ∧ 0 ∉ l :=
  ⟨isLevel_of_mem hl, closed_of_mem hc hl, fun h => h0 (subset_of_mem hl h)⟩

/-- The start of the loop of `keyAddName` is the buffer of the path of the key. -/
theorem buffer_of_size {P : Path} {keySize : ℕ} (h : keySize = P.name.length + 1) :
    (⟨P.name, P.name.head? = some pathSeparator && keySize = 2⟩ : NameBuffer) = P.buffer := by
  rw [Path.buffer, NameBuffer.mk.injEq]
  refine ⟨rfl, ?_⟩
  by_cases hs : P.stem = []
  · simp [hs, h, Path.name_of_root hs]
  · have : ¬ (P.name.head? = some pathSeparator ∧ keySize = 2) := by
      rintro ⟨hh, h2⟩
      obtain hp | ⟨Q, s, rfl⟩ := P.cases_parts
      · exact hs (Path.stem_eq_nil.mpr ⟨P.head_name.mp hh, hp⟩)
      · have hne := (isPart_escape s.1).ne_nil
        have := List.length_pos_of_ne_nil hne
        rw [h, Path.name_add, List.length_append, List.length_cons] at h2
        omega
    simpa [hs] using this

theorem keyAddName_eq {key : Key} {P : Path} (hkey : key.key = some P.name)
    (hsize : key.keySize = P.name.length + 1) (hro : key.roName = false) {n : Str} (hn : n ≠ []) :
    keyAddName key (some n) =
      if elektraValidateKeyName n (n.length + 1) then
        let key' := elektraFinalizeName key ((levels n).foldl addLevel P.buffer).bytes
        ((if key.keySize = key'.keySize then 0 else key'.keySize : ℤ), key')
      else (-1, key) := by
  obtain ⟨c, t, hname⟩ := List.exists_cons_of_ne_nil P.name_ne_nil
  have hlen : ¬ n.length + 1 < 2 := by
    have := List.length_pos_of_ne_nil hn
    omega
  have hb := buffer_of_size hsize
  rw [hname] at hkey hb
  simp only [keyAddName, hro, hkey, Bool.false_eq_true, if_false, hlen, hb]
  cases elektraValidateKeyName n (n.length + 1) <;> rfl

/-- **What `keyAddName` does to a key at a path.** -/
theorem keyAddName_spec {key : Key} {P : Path} (hkey : key.key = some P.name)
    (hsize : key.keySize = P.name.length + 1) (hro : key.roName = false) {n : Str} (hn : n ≠ [])
    (h0 : 0 ∉ n) (hodd : ¬ OddRun n) :
    ((keyAddName key (some n)).1 = -1 ∧ ¬ elektraValidateKeyName n (n.length + 1)) ∨
    (elektraValidateKeyName n (n.length + 1) ∧ (keyAddName key (some n)).1 ≠ -1 ∧
      (keyAddName key (some n)).2.roName = false ∧ ∃ Q : Path, HasName (keyAddName key (some n)).2 Q ∧
        Q.root = P.root ∧ Q.escaped = pathReduce P.escaped (levels n)) := by
  rw [keyAddName_eq hkey hsize hro hn]
  by_cases hv : elektraValidateKeyName n (n.length + 1) = true
  · right
    obtain ⟨Q, hQ, hr, he⟩ := foldl_addLevel (levels n) P fun l hl =>
      level_of_mem h0 (closed_of_validate hn hv hodd) hl
    rw [if_pos hv, hQ]
    refine ⟨hv, ?_, hro, Q, hasName_finalize key Q, hr, he⟩
    dsimp only
    split_ifs <;> omega
  · left
    rw [if_neg hv]
    exact ⟨rfl, hv⟩

/-! ## keySetName -/

/-- The path in the argument of `keySetName`: what follows its first level, or its separator. -/
def pathArgument (newName : Str) : Str :=
  if newName.head? = some pathSeparator then newName.drop 1
  else newName.drop (levelSize 0 newName + 1)

/-- The sizes that `elektraKeySetName` has determined before it reads the path: `R` is the root of
`n`, which may be followed by an owner. -/
structure Start (key : Key) (n : Str) (R : Root) : Prop where
  root : n.take (key.keySize - 1) = (Path.mk R []).name
  size : key.keySize = (Path.mk R []).name.length + 1
  argument : n.drop key.keyUSize = pathArgument n
  slash : n.drop (key.keyUSize - 1) = [] ∨ ∃ t, n.drop (key.keyUSize - 1) = pathSeparator :: t
  pos : 1 ≤ key.keyUSize
  whole : n.length + 1 = key.keySize → n.length ≤ key.keyUSize

theorem Path.escaped_nil (R : Root) : (Path.mk R []).escaped = [] := rfl

theorem levels_onlySlashes {s : Str} (h : elektraOnlySlashes s = true) : levels s = [] := by
  apply levels_separators
  exact List.dropWhile_eq_nil_iff.mpr (List.all_eq_true.mp h)

theorem validateLoop_slash {s : Str} (h : pathEscape ∉ s) (size : ℕ) : validateLoop s size 0 = 0 := by
  cases size with
  | zero => rfl
  | succ size =>
    rw [validateLoop, if_neg]
    exact fun he => h (List.mem_of_getElem? he)

theorem validate_onlySlashes {s : Str} (h : elektraOnlySlashes s = true) (size : ℕ) :
    elektraValidateKeyName s size = true := by
  have hnot : pathEscape ∉ s := fun he =>
    absurd (List.all_eq_true.mp h _ he) (by decide)
  rw [elektraValidateKeyName, validateLoop_slash hnot]
  rfl

theorem drop_pred {s : Str} {k : ℕ} (hk : 1 ≤ k) : s.drop k = (s.drop (k - 1)).drop 1 := by
  rw [List.drop_drop]
  congr 1
  omega

/-- Without path, or with separators only, the name is the root; else the path is added to it. -/
theorem keySetNameBelow_eq {key : Key} {n : Str} {R : Root} (h : Start key n R) :
    (elektraOnlySlashes (pathArgument n) = true ∧ (elektraKeySetNameBelow key n).1 ≠ -1 ∧
      (elektraKeySetNameBelow key n).2 = elektraFinalizeName key (Path.mk R []).name) ∨
    (elektraOnlySlashes (pathArgument n) = false ∧
      elektraKeySetNameBelow key n =
        let r := keyAddName { key with key := some (Path.mk R []).name } (some (pathArgument n))
        if r.1 = -1 then (r.1, elektraRemoveKeyName r.2) else ((r.2.keySize : ℤ), r.2)) := by
  by_cases h1 : n.length + 1 = key.keyUSize ∨ n.length + 1 = key.keySize
  · -- the root is all of the name
    have hnil : pathArgument n = [] := by
      rw [← h.argument, List.drop_eq_nil_of_le]
      rcases h1 with h1 | h1
      · omega
      · exact h.whole h1
    left
    rw [elektraKeySetNameBelow, if_pos h1, hnil, h.root]
    exact ⟨rfl, by dsimp only; omega, rfl⟩
  by_cases h2 : elektraOnlySlashes (n.drop (key.keyUSize - 1)) = true
  · -- nothing but separators follows
    have hslashes : elektraOnlySlashes (pathArgument n) = true := by
      rw [← h.argument, drop_pred h.pos]
      exact List.all_eq_true.mpr fun c hc => List.all_eq_true.mp h2 c (List.mem_of_mem_drop hc)
    left
    rw [elektraKeySetNameBelow, if_neg h1, if_pos h2, h.root]
    exact ⟨hslashes, by dsimp only; omega, rfl⟩
  · right
    refine ⟨Bool.eq_false_iff.mpr fun hs => h2 ?_, ?_⟩
    · rw [← h.argument, drop_pred h.pos] at hs
      obtain hd | ⟨t, hd⟩ := h.slash
      · rw [hd]
        rfl
      · rw [hd] at hs ⊢
        rw [List.drop_one, List.tail_cons] at hs
        simpa [elektraOnlySlashes] using hs
    · rw [← h.root, ← h.argument]
      exact (if_neg h1).trans (if_neg h2)

theorem keySetNameBelow_spec {key : Key} {n : Str} {R : Root} (h : Start key n R)
    (hro : key.roName = false) (h0 : 0 ∉ n) (hodd : ¬ OddRun (pathArgument n)) :
    ((elektraKeySetNameBelow key n).1 = -1 ∧
      ¬ elektraValidateKeyName (pathArgument n) ((pathArgument n).length + 1)) ∨
    (elektraValidateKeyName (pathArgument n) ((pathArgument n).length + 1) ∧
      (elektraKeySetNameBelow key n).1 ≠ -1 ∧ (elektraKeySetNameBelow key n).2.roName = false ∧
      ∃ Q : Path, HasName (elektraKeySetNameBelow key n).2 Q ∧ Q.root = R ∧
        Q.escaped = pathReduce [] (levels (pathArgument n))) := by
  obtain ⟨hslashes, hret, hroot⟩ | ⟨hslashes, hrun⟩ := keySetNameBelow_eq h
  · right
    rw [hroot, levels_onlySlashes hslashes]
    exact ⟨validate_onlySlashes hslashes _, hret, hro, _, hasName_finalize key _, rfl, rfl⟩
  · have hne : pathArgument n ≠ [] := by
      intro he
      rw [he] at hslashes
      cases hslashes
    have hnul : 0 ∉ pathArgument n := by
      rw [← h.argument]
      exact fun hm => h0 (List.mem_of_mem_drop hm)
    rw [hrun]
    obtain ⟨hret, hv⟩ | ⟨hv, hret, hro', Q, hQ, hr, he⟩ := @keyAddName_spec
      { key with key := some (Path.mk R []).name } (Path.mk R []) rfl h.size hro _ hne hnul hodd
    · left
      dsimp only
      rw [if_pos hret]
      exact ⟨hret, hv⟩
    · right
      dsimp only
      rw [if_neg hret]
      exact ⟨hv, by dsimp only; omega, hro', Q, hQ, hr, he⟩

/-! ### The start of the path -/

@[simp] theorem keySetMeta_roName (key : Key) (m : Str) (v : Option Str) :
    (keySetMeta key m v).2.roName = key.roName := by
  rw [keySetMeta]
  split_ifs
  · rfl
  · cases v <;> rfl

@[simp] theorem keySetOwner_roName (key : Key) (o : Option Str) :
    (keySetOwner key o).roName = key.roName := by
  unfold keySetOwner
  split <;> exact keySetMeta_roName _ _ _

@[simp] theorem keySetMeta_sizes (key : Key) (m : Str) (v : Option Str) :
    (keySetMeta key m v).2.keySize = key.keySize ∧
      (keySetMeta key m v).2.keyUSize = key.keyUSize := by
  rw [keySetMeta]
  split_ifs
  · exact ⟨rfl, rfl⟩
  · cases v <;> exact ⟨rfl, rfl⟩

@[simp] theorem keySetOwner_sizes (key : Key) (o : Option Str) :
    (keySetOwner key o).keySize = key.keySize ∧ (keySetOwner key o).keyUSize = key.keyUSize := by
  unfold keySetOwner
  split <;> exact keySetMeta_sizes _ _ _

theorem keyNameIs_iff {ns name : Str} : keyNameIs ns name = true ↔
    name = ns ∨ ∃ t, name = ns ++ pathSeparator :: t := by
  rw [keyNameIs, Bool.or_eq_true, decide_eq_true_iff, List.isPrefixOf_iff_prefix]
  constructor
  · rintro (rfl | ⟨t, ht⟩)
    · exact Or.inl rfl
    · exact Or.inr ⟨t, by rw [← ht]; simp⟩
  · rintro (rfl | ⟨t, rfl⟩)
    · exact Or.inl rfl
    · exact Or.inr ⟨t, by simp⟩

theorem start_cascading {key : Key} {n : Str} (hn : n.head? = some pathSeparator) :
    Start { key with keyUSize := 1, keySize := 2 } n .cascading := by
  obtain ⟨t, rfl⟩ : ∃ t, n = pathSeparator :: t := List.head?_eq_some_iff.mp hn
  refine ⟨rfl, rfl, ?_, Or.inr ⟨t, rfl⟩, le_rfl, fun h => ?_⟩
  · simp [pathArgument]
  · simpa using h

theorem levelSize_root (m : Namespace) (t : Str) :
    levelSize 0 (m.name ++ pathSeparator :: t) = m.name.length := by
  rw [levelSize_append m.isLevel.unbroken]
  have := m.closed
  rw [Closed] at this
  simp [levelSize, separator_ne_escape, this]

theorem levelSize_root_nil (m : Namespace) : levelSize 0 m.name = m.name.length := by
  have := levelSize_append (t := []) m.isLevel.unbroken
  simpa [levelSize] using this

theorem Namespace.head_ne (m : Namespace) (t : Str) : (m.name ++ t).head? ≠ some pathSeparator := by
  cases m <;> simp [name, str, pathSeparator]

theorem start_namespace {key : Key} {n : Str} {m : Namespace} (hn : keyNameIs m.name n = true) :
    Start { key with keyUSize := m.name.length + 1, keySize := m.name.length + 1 } n (.ns m) := by
  have hroot : (Path.mk (.ns m) []).name = m.name := by
    simp [Path.name, Path.stem, Path.escaped, Root.level, m.name_ne_nil]
  obtain rfl | ⟨t, rfl⟩ := keyNameIs_iff.mp hn
  · have hhead := m.head_ne []
    rw [List.append_nil] at hhead
    refine ⟨by simp [hroot], by rw [hroot], ?_, Or.inl (by simp), by simp, fun _ => by simp⟩
    rw [pathArgument, if_neg hhead, levelSize_root_nil]
  · refine ⟨by simp [hroot], by rw [hroot], ?_, Or.inr ⟨t, by simp⟩, by simp, fun h => ?_⟩
    · rw [pathArgument, if_neg (m.head_ne _), levelSize_root]
    · simp at h

theorem handleUserName_roName (key : Key) (n : Str) :
    (elektraHandleUserName key n).roName = key.roName := by
  simp only [elektraHandleUserName]
  split
  · rfl
  · split_ifs
    · rfl
    · exact keySetOwner_roName _ _

theorem start_user {key : Key} {n : Str} (hn : keyNameIsUser n = true) :
    Start (elektraHandleUserName key n) n (.ns .user) := by
  by_cases huser : keyNameIs (str "user") n = true
  · have hkey : elektraHandleUserName key n = { key with keyUSize := 5, keySize := 5 } := by
      obtain rfl | ⟨t, rfl⟩ := keyNameIs_iff.mp huser
      · rfl
      · rfl
    rw [hkey]
    exact start_namespace (m := .user) huser
  · rw [keyNameIsUser, Bool.or_eq_true, or_iff_right huser, List.isPrefixOf_iff_prefix] at hn
    obtain ⟨t, rfl⟩ := hn
    have hsize : 5 ≤ levelSize 0 (str "user:" ++ t) := by
      have hu : Unbroken 0 (str "user:") := by
        simp [str, Unbroken, pathEscape, pathSeparator]
      rw [levelSize_append hu]
      simp [str]
    have hone : (keyNameGetOneLevel (str "user:" ++ t)).2 = levelSize 0 (str "user:" ++ t) := rfl
    have hkeySize : (elektraHandleUserName key (str "user:" ++ t)).keySize = 5 :=
      (keySetOwner_sizes _ _).1
    have hkeyUSize : (elektraHandleUserName key (str "user:" ++ t)).keyUSize =
        levelSize 0 (str "user:" ++ t) + 1 := (keySetOwner_sizes _ _).2
    refine ⟨by rw [hkeySize]; rfl, hkeySize, ?_, ?_, by omega, fun h => ?_⟩
    · rw [hkeyUSize, pathArgument, if_neg]
      simp [str, pathSeparator]
    · rw [hkeyUSize, Nat.add_sub_cancel]
      exact (drop_levelSize _ 0).imp id fun h => h.imp fun u hu => hu.1
    · rw [hkeySize, List.length_append] at h
      have : (str "user:").length = 5 := rfl
      omega

/-- The namespace of a name, as a root. -/
def ElektraNamespace.root : ElektraNamespace → Option Root
  | empty | metaName => none
  | cascading => some .cascading
  | spec => some (.ns .spec)
  | proc => some (.ns .proc)
  | dir => some (.ns .dir)
  | user => some (.ns .user)
  | system => some (.ns .system)

theorem namespace_spec (n : Str) :
    match keyGetNameNamespace (some n) with
    | .empty => n = []
    | .metaName => True
    | .cascading => n.head? = some pathSeparator
    | .spec => keyNameIsSpec n = true
    | .proc => keyNameIsProc n = true
    | .dir => keyNameIsDir n = true
    | .user => keyNameIsUser n = true
    | .system => keyNameIsSystem n = true := by
  cases n with
  | nil => rfl
  | cons c s =>
    by_cases h0 : c = pathSeparator
    · simp [keyGetNameNamespace, h0]
    by_cases h1 : keyNameIsSpec (c :: s) = true
    · simp [keyGetNameNamespace, h0, h1]
    by_cases h2 : keyNameIsProc (c :: s) = true
    · simp [keyGetNameNamespace, h0, h1, h2]
    by_cases h3 : keyNameIsDir (c :: s) = true
    · simp [keyGetNameNamespace, h0, h1, h2, h3]
    by_cases h4 : keyNameIsUser (c :: s) = true
    · simp [keyGetNameNamespace, h0, h1, h2, h3, h4]
    by_cases h5 : keyNameIsSystem (c :: s) = true
    · simp [keyGetNameNamespace, h0, h1, h2, h3, h4, h5]
    · simp [keyGetNameNamespace, h0, h1, h2, h3, h4, h5]

theorem keySetName_eq {key : Key} (hro : key.roName = false) (n : Str) :
    keySetName key (some n) = match keyGetNameNamespace (some n) with
      | .empty => (0, elektraFinalizeEmptyName (keySetOwner (elektraRemoveKeyName key) none))
      | .cascading => elektraKeySetNameBelow
          { keySetOwner (elektraRemoveKeyName key) none with keyUSize := 1, keySize := 2 } n
      | .spec => elektraKeySetNameBelow
          { keySetOwner (elektraRemoveKeyName key) none with keyUSize := 5, keySize := 5 } n
      | .proc => elektraKeySetNameBelow
          { keySetOwner (elektraRemoveKeyName key) none with keyUSize := 5, keySize := 5 } n
      | .dir => elektraKeySetNameBelow
          { keySetOwner (elektraRemoveKeyName key) none with keyUSize := 4, keySize := 4 } n
      | .user => elektraKeySetNameBelow
          (elektraHandleUserName (keySetOwner (elektraRemoveKeyName key) none) n) n
      | .system => elektraKeySetNameBelow
          { keySetOwner (elektraRemoveKeyName key) none with keyUSize := 7, keySize := 7 } n
      | .metaName => (-1, keySetOwner (elektraRemoveKeyName key) none) := by
  unfold keySetName elektraKeySetName
  rw [hro]
  cases keyGetNameNamespace (some n) <;> rfl

/-- `keySetName` rejects a name without valid namespace, and reads the path of any other. -/
theorem keySetName_start {key : Key} {n : Str} (hn : n ≠ []) (hro : key.roName = false) :
    ((keyGetNameNamespace (some n)).root = none ∧ (keySetName key (some n)).1 = -1) ∨
    ∃ key' R, (keyGetNameNamespace (some n)).root = some R ∧ Start key' n R ∧
      key'.roName = false ∧ keySetName key (some n) = elektraKeySetNameBelow key' n := by
  have hbro : (keySetOwner (elektraRemoveKeyName key) none).roName = false :=
    (keySetOwner_roName _ _).trans hro
  have hset := keySetName_eq hro n
  have hspec := namespace_spec n
  cases hns : keyGetNameNamespace (some n) <;> rw [hns] at hset hspec
  case empty => exact absurd hspec hn
  case metaName => exact Or.inl ⟨rfl, by rw [hset]⟩
  case cascading => exact Or.inr ⟨_, _, rfl, start_cascading hspec, hbro, hset⟩
  case spec => exact Or.inr ⟨_, _, rfl, start_namespace (m := .spec) hspec, hbro, hset⟩
  case proc => exact Or.inr ⟨_, _, rfl, start_namespace (m := .proc) hspec, hbro, hset⟩
  case dir => exact Or.inr ⟨_, _, rfl, start_namespace (m := .dir) hspec, hbro, hset⟩
  case system => exact Or.inr ⟨_, _, rfl, start_namespace (m := .system) hspec, hbro, hset⟩
  case user =>
    exact Or.inr ⟨_, _, rfl, start_user hspec, (handleUserName_roName _ _).trans hbro, hset⟩

/-- **What `keySetName` does to a name that is not empty.** -/
theorem keySetName_spec {key : Key} (hro : key.roName = false) {n : Str} (hn : n ≠ [])
    (h0 : 0 ∉ n) (hodd : ¬ OddRun (pathArgument n)) :
    ((keySetName key (some n)).1 = -1 ∧ ((keyGetNameNamespace (some n)).root = none ∨
      ¬ elektraValidateKeyName (pathArgument n) ((pathArgument n).length + 1))) ∨
    (elektraValidateKeyName (pathArgument n) ((pathArgument n).length + 1) ∧
      (keySetName key (some n)).1 ≠ -1 ∧ (keySetName key (some n)).2.roName = false ∧
      ∃ Q : Path, HasName (keySetName key (some n)).2 Q ∧
        (keyGetNameNamespace (some n)).root = some Q.root ∧
        Q.escaped = pathReduce [] (levels (pathArgument n))) := by
  obtain ⟨hroot, h⟩ | ⟨key', R, hR, hstart, hro', h⟩ := keySetName_start hn hro
  · exact Or.inl ⟨h, Or.inl hroot⟩
  · rw [h]
    obtain ⟨hret, hv⟩ | ⟨hv, hret, hro'', Q, hQ, rfl, he⟩ := keySetNameBelow_spec hstart hro' h0 hodd
    · exact Or.inl ⟨hret, Or.inr hv⟩
    · exact Or.inr ⟨hv, hret, hro'', Q, hQ, hR, he⟩

/-! ## Reading a name back -/

theorem pathArgument_name (P : Path) : pathArgument P.name = (join P.escaped).drop 1 := by
  obtain ⟨r, ps⟩ := P
  cases r with
  | cascading =>
    rw [pathArgument, if_pos ((Path.head_name _).mpr rfl)]
    by_cases hs : (Path.mk .cascading ps).stem = []
    · rw [Path.name_of_root hs]
      have : join (Path.mk .cascading ps).escaped = [] := hs
      rw [this]
      rfl
    · rw [Path.name_of_stem hs]
      rfl
  | ns m =>
    have hs : (Path.mk (.ns m) ps).stem ≠ [] := fun h => by
      cases (Path.stem_eq_nil.mp h).1
    have hhead : (Path.mk (.ns m) ps).name.head? ≠ some pathSeparator := fun h => by
      cases (Path.head_name _).mp h
    rw [pathArgument, if_neg hhead, Path.name_of_stem hs, Path.stem, Root.level]
    obtain h | ⟨t, h⟩ := join_cases (Path.mk (.ns m) ps).escaped
    · rw [h, List.append_nil, levelSize_root_nil]
      simp
    · rw [h, levelSize_root]
      simp

theorem root_name (P : Path) : (keyGetNameNamespace (some P.name)).root = some P.root := by
  obtain ⟨r, ps⟩ := P
  cases r with
  | cascading =>
    obtain ⟨t, ht⟩ := List.head?_eq_some_iff.mp ((Path.mk .cascading ps).head_name.mpr rfl)
    rw [ht]
    rfl
  | ns m =>
    have hs : (Path.mk (.ns m) ps).stem ≠ [] := fun h => by
      cases (Path.stem_eq_nil.mp h).1
    rw [Path.name_of_stem hs, Path.stem, Root.level]
    obtain h | ⟨t, h⟩ := join_cases (Path.mk (.ns m) ps).escaped <;> rw [h] <;> cases m <;> rfl

theorem closed_join {ps : List Str} (h : ∀ p ∈ ps, Closed p) : Closed (join ps) := by
  induction ps with
  | nil => rfl
  | cons p ps ih =>
    have hp := h p List.mem_cons_self
    have hps := ih fun q hq => h q (List.mem_cons_of_mem _ hq)
    rw [join_cons, Closed, List.cons_append, escAfter, if_neg separator_ne_escape, escAfter_append]
    obtain hj | ⟨t, hj⟩ := join_cases ps
    · rw [hj]; exact hp
    · rw [hj, escAfter, if_neg separator_ne_escape]
      rwa [hj, Closed, escAfter, if_neg separator_ne_escape] at hps

/-- The path is a single part, made of backslashes only. -/
def BackslashPart : List Str → Prop
  | [p] => AllBackslashes p
  | _ => False

instance : DecidablePred BackslashPart
  | [] => inferInstanceAs (Decidable False)
  | [p] => inferInstanceAs (Decidable (AllBackslashes p))
  | _ :: _ :: _ => inferInstanceAs (Decidable False)

/-- The path of a name is backslashes only where it is a single such part. -/
theorem allBackslashes_path {P : Path} (hne : P.escaped ≠ []) :
    AllBackslashes ((join P.escaped).drop 1) ↔ BackslashPart P.escaped := by
  obtain ⟨p, ps, h⟩ := List.exists_cons_of_ne_nil hne
  rw [h, join_cons, List.cons_append, List.drop_one, List.tail_cons]
  cases ps with
  | nil => rw [join_nil, List.append_nil]; rfl
  | cons q ps =>
    refine ⟨fun hall => ?_, False.elim⟩
    have hmem : pathSeparator ∈ p ++ join (q :: ps) := by simp
    rw [hall] at hmem
    exact absurd (List.eq_of_mem_replicate hmem) separator_ne_escape

theorem closed_path (P : Path) : Closed ((join P.escaped).drop 1) := by
  have h := closed_join fun p hp => (Path.isPart_of_mem (P := P) hp).closed
  obtain hj | ⟨t, hj⟩ := join_cases P.escaped
  · rw [hj]; rfl
  · rw [hj] at h ⊢
    rwa [Closed, escAfter, if_neg separator_ne_escape] at h

theorem levels_path (P : Path) : levels ((join P.escaped).drop 1) = P.escaped := by
  have h := @levels_join P.escaped fun p hp =>
    ⟨(Path.isPart_of_mem hp).toIsLevel, (Path.isPart_of_mem hp).closed⟩
  obtain hj | ⟨t, hj⟩ := join_cases P.escaped
  · rw [hj] at h ⊢; exact h
  · rw [hj, levels_separator] at h
    rw [hj]; exact h

/-- The validation accepts the name of a path, but for a single part made of backslashes. -/
theorem validate_path (P : Path) : elektraValidateKeyName (pathArgument P.name)
    ((pathArgument P.name).length + 1) = true ↔ ¬ BackslashPart P.escaped := by
  rw [pathArgument_name]
  by_cases he : P.escaped = []
  · rw [he]
    exact ⟨fun _ h => h, fun _ => rfl⟩
  · have hne : (join P.escaped).drop 1 ≠ [] := fun h => he <| by
      rw [← levels_path P, h, levels_nil]
    rw [← allBackslashes_path he]
    by_cases hall : AllBackslashes ((join P.escaped).drop 1)
    · rw [validate_all hne hall]
      exact ⟨fun h => absurd (closed_path P) h, fun h => absurd hall h⟩
    · rw [validate_iff hne hall]
      exact ⟨fun _ => hall, fun _ => closed_path P⟩

theorem not_oddRun_path (P : Path) : ¬ OddRun (pathArgument P.name) := by
  rw [pathArgument_name]
  rintro ⟨hall, hodd⟩
  have := closed_path P
  rw [Closed, escAfter_all hall] at this
  omega

/-- **Setting the name of a path gives the path back, but for a single part made of backslashes,
which is rejected.** -/
theorem keySetName_name {key : Key} (hro : key.roName = false) (P : Path) :
    ((keySetName key (some P.name)).1 = -1 ∧ BackslashPart P.escaped) ∨
    ((keySetName key (some P.name)).1 ≠ -1 ∧ ¬ BackslashPart P.escaped ∧
      HasName (keySetName key (some P.name)).2 P) := by
  obtain ⟨hret, h⟩ | ⟨hv, hret, -, Q, hQ, hr, he⟩ :=
    keySetName_spec hro P.name_ne_nil P.nul_name (not_oddRun_path P)
  · left
    rw [root_name, validate_path, not_not] at h
    exact ⟨hret, h.resolve_left nofun⟩
  · right
    rw [pathArgument_name, levels_path,
      pathReduce_parts _ _ fun p hp => Path.isPart_of_mem hp, List.nil_append] at he
    rw [root_name] at hr
    obtain rfl := P.ext_escaped (Option.some.inj hr) he.symm
    exact ⟨hret, (validate_path P).mp hv, hQ⟩

end Elektra
