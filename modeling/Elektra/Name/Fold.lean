import Elektra.Name.Checked

/-!
# Paths as folds

What a path does to the parts of a key, said level by level.

* `segments`: what stands between the separators that are not escaped;
* `partStep`, `foldPath`: the effect of a level, and of a path, on a list of parts;
* `FoldsTo`: name, unescaped name and sizes of a root and a list of parts;
* `levels_eq_segments`, `foldPath_of_reduce`: the loop of `keyAddName` is that fold;
* `Mends`, `addName_mends`: what becomes of the parts of a key whose name has an open end;
* **`path_fold`**.
-/

namespace Elektra

/-! ## Segments -/

/-- The strings between the separators that are not escaped, after `n` backslashes. -/
def segments : ℕ → Str → List Str
  | _, [] => [[]]
  | n, c :: s =>
    if c = pathSeparator ∧ n % 2 = 0 then [] :: segments 0 s
    else (segments (if c = pathEscape then n + 1 else 0) s).modifyHead (c :: ·)

example : segments 0 [pathSeparator] = [[], []] := by
  rw [segments, if_pos ⟨rfl, rfl⟩, segments]

/-- What a level does to the parts. -/
def partStep (parts : List Str) (level : Str) : List Str :=
  if level = [] ∨ level = str "." then parts
  else if level = str ".." then parts.dropLast
  else if level = str "%" then parts ++ [[]]
  else parts ++ [unescapeLevel level]

def foldPath (parts : List Str) (path : Str) : List Str := (segments 0 path).foldl partStep parts

section Segments

theorem segments_ne_nil : ∀ (s : Str) (n : ℕ), segments n s ≠ []
  | [], _ => by simp [segments]
  | c :: s, n => by
    rw [segments]
    split_ifs
    · simp
    all_goals
      intro h
      have hlen := congrArg List.length h
      rw [List.length_modifyHead, List.length_nil, List.length_eq_zero_iff] at hlen
      exact segments_ne_nil s _ hlen

theorem segments_append (s : Str) : ∀ (p : Str) (n : ℕ), Unbroken n p →
    segments n (p ++ s) = (segments (escAfter n p) s).modifyHead (p ++ ·)
  | [], n, _ => by
    obtain ⟨q, qs, hq⟩ := List.exists_cons_of_ne_nil (segments_ne_nil s n)
    rw [List.nil_append, escAfter_nil, hq]
    rfl
  | c :: p, n, h => by
    have hmod : ∀ l : List Str, (l.modifyHead (p ++ ·)).modifyHead (c :: ·) = l.modifyHead (c :: p ++ ·) := by
      intro l
      cases l <;> rfl
    rw [Unbroken] at h
    rw [List.cons_append, segments, escAfter]
    by_cases hc : c = pathEscape
    · have hs : ¬ (c = pathSeparator ∧ n % 2 = 0) := fun hs => separator_ne_escape (hs.1.symm.trans hc)
      simp only [if_pos hc] at h ⊢
      rw [if_neg hs, segments_append s p (n + 1) h, hmod]
    · simp only [if_neg hc] at h ⊢
      have hs : ¬ (c = pathSeparator ∧ n % 2 = 0) := fun hs => by
        have := h.1 hs.1
        omega
      rw [if_neg hs, segments_append s p 0 h.2, hmod]

theorem segments_level {p : Str} (hp : Unbroken 0 p) : segments 0 p = [p] := by
  have happ := segments_append [] p 0 hp
  rwa [List.append_nil, segments, List.modifyHead_cons, List.append_nil] at happ

theorem segments_separator {p : Str} (t : Str) (hp : Unbroken 0 p) (hc : escAfter 0 p % 2 = 0) :
    segments 0 (p ++ pathSeparator :: t) = p :: segments 0 t := by
  rw [segments_append _ p 0 hp, segments, if_pos ⟨rfl, hc⟩, List.modifyHead_cons, List.append_nil]

/-- **The levels are the segments that are not empty.** -/
theorem levels_eq_segments (s : Str) : levels s = (segments 0 s).filter (· ≠ []) := by
  induction s using levels_induction with
  | nil => rfl
  | sep s ih => rw [levels_separator, ih, segments, if_pos ⟨rfl, rfl⟩, List.filter_cons_of_neg (by simp)]
  | level p s hp hs ih =>
    rw [levels_cons hp hs, ih]
    obtain rfl | ⟨hc, t, rfl⟩ := hs
    · rw [List.append_nil, segments_level hp.unbroken]
      simp [segments, hp.ne_nil]
    · have hsep : segments 0 (pathSeparator :: t) = [] :: segments 0 t := by rw [segments, if_pos ⟨rfl, rfl⟩]
      rw [hsep, List.filter_cons_of_neg (by simp), segments_separator t hp.unbroken hc,
        List.filter_cons_of_pos (by simpa using hp.ne_nil)]

theorem segments_argument (n : Str) :
    (segments 0 n).tail.filter (· ≠ []) = levels (pathArgument n) := by
  rw [pathArgument]
  split_ifs with hh
  · obtain ⟨t, rfl⟩ : ∃ t, n = pathSeparator :: t := by
      cases n with
      | nil => cases hh
      | cons c t => exact ⟨t, by rw [Option.some.inj hh]⟩
    rw [segments, if_pos ⟨rfl, rfl⟩, List.drop_one, List.tail_cons, List.tail_cons, levels_eq_segments]
  · have hsplit := List.take_append_drop (levelSize 0 n) n
    have hunbroken := unbroken_take n 0
    obtain hd | ⟨t, hd, hc⟩ := drop_levelSize n 0
    · rw [hd, List.append_nil] at hsplit
      rw [hsplit] at hunbroken
      have hnil : n.drop (levelSize 0 n + 1) = [] := by rw [← List.drop_drop, hd, List.drop_nil]
      rw [segments_level hunbroken, hnil]
      rfl
    · have ht : n.drop (levelSize 0 n + 1) = t := by rw [← List.drop_drop, hd, List.drop_one, List.tail_cons]
      have hseg := segments_separator t hunbroken hc
      rw [← hd, hsplit] at hseg
      rw [hseg, ht, List.tail_cons, levels_eq_segments]

end Segments

/-! ## The fold -/

section Fold

variable {P Q : Path}

theorem foldl_partStep_filter : ∀ (ls parts : List Str),
    (ls.filter (· ≠ [])).foldl partStep parts = ls.foldl partStep parts
  | [], _ => rfl
  | [] :: ls, parts => by
    rw [List.filter_cons_of_neg (by simp), foldl_partStep_filter ls, List.foldl_cons, partStep, if_pos (.inl rfl)]
  | (c :: l) :: ls, parts => by
    rw [List.filter_cons_of_pos (by simp), List.foldl_cons, List.foldl_cons, foldl_partStep_filter ls]

theorem foldPath_eq (parts : List Str) (path : Str) : foldPath parts path = (levels path).foldl partStep parts := by
  rw [foldPath, levels_eq_segments, foldl_partStep_filter]

theorem partStep_unescape (ps : List Str) {l : Str} (hl : l ≠ []) :
    (pathStep ps l).map unescapeLevel = partStep (ps.map unescapeLevel) l := by
  rw [pathStep, partStep]
  by_cases h1 : l = str "."
  · rw [if_pos h1, if_pos (.inr h1)]
  by_cases h2 : l = str ".."
  · rw [if_neg h1, if_pos h2, if_neg (by simp [hl, h1]), if_pos h2, List.map_dropLast]
  · rw [if_neg h1, if_neg h2, if_neg (by simp [hl, h1]), if_neg h2, List.map_append, List.map_singleton]
    split_ifs with h3
    · rw [h3]
      rfl
    · rfl

theorem map_pathReduce : ∀ (ls ps : List Str), (∀ l ∈ ls, l ≠ []) →
    (pathReduce ps ls).map unescapeLevel = ls.foldl partStep (ps.map unescapeLevel)
  | [], _, _ => rfl
  | l :: ls, ps, h => by
    rw [List.foldl_cons, ← partStep_unescape ps (h l List.mem_cons_self),
      ← map_pathReduce ls _ fun x hx => h x (List.mem_cons_of_mem l hx)]
    rfl

theorem map_escaped (P : Path) : P.escaped.map unescapeLevel = P.parts.map Subtype.val := by
  rw [Path.escaped, List.map_map]
  exact List.map_congr_left fun s _ => unescape_escape s.1

/-- **The loop of `keyAddName` folds the parts.** -/
theorem foldPath_of_reduce {n : Str} (h : Q.escaped = pathReduce P.escaped (levels n)) :
    Q.parts.map Subtype.val = foldPath (P.parts.map Subtype.val) n := by
  rw [← map_escaped, h, map_pathReduce _ _ fun l hl => (isLevel_of_mem hl).ne_nil, map_escaped, foldPath_eq]

end Fold

/-! ## Keys -/

/-- The key has the parts: they are its unescaped name, their escaped forms its name, and the sizes are
those of the two. -/
structure FoldsTo (key : Key) (R : Root) (parts : List Str) : Prop where
  ukey : key.ukey = R.level ++ [0] ++ parts.flatMap fun s => s ++ [0]
  name : keyName key = if R = .cascading ∧ parts = [] then [pathSeparator]
    else R.level ++ join (parts.map elektraEscapeKeyNamePart)
  keySize : key.keySize = (keyName key).length + 1
  keyUSize : key.keyUSize = key.ukey.length

section Keys

variable {key : Key} {P : Path} {d : Str} {R : Root} {parts : List Str}

theorem foldsTo_path (h : HasName key P) : FoldsTo key P.root (P.parts.map Subtype.val) where
  ukey := by
    rw [h.ukey, Path.uname, List.flatMap_map]
  name := by
    have hjoin : P.stem = P.root.level ++ join ((P.parts.map Subtype.val).map elektraEscapeKeyNamePart) := by
      rw [List.map_map]
      rfl
    rw [h.keyName_eq, Path.name, hjoin.symm]
    exact if_congr (by rw [Path.stem_eq_nil, List.map_eq_nil_iff]) rfl rfl
  keySize := by rw [h.keyName_eq, h.keySize]
  keyUSize := by rw [h.keyUSize, h.ukey]

theorem foldsTo_path_iff (h : HasName key P) (hnul : ∀ s ∈ parts, 0 ∉ s) :
    FoldsTo key P.root parts ↔ parts = P.parts.map Subtype.val := by
  refine ⟨fun hf => ?_, fun he => he ▸ foldsTo_path h⟩
  have hlist : ∃ ps : List CString, parts = ps.map Subtype.val := by
    refine ⟨parts.attach.map fun s => ⟨s.1, hnul s.1 s.2⟩, ?_⟩
    rw [List.map_map]
    exact (List.attach_map_subtype_val parts).symm
  obtain ⟨ps, rfl⟩ := hlist
  have hu := hf.ukey
  rw [h.ukey, List.flatMap_map] at hu
  have hpath : P = ⟨P.root, ps⟩ := Path.uname_injective hu
  exact congrArg (fun Q => Q.parts.map Subtype.val) hpath.symm

theorem not_foldsTo_dangling (h : Dangling key P d) : ¬ FoldsTo key R parts := by
  intro hf
  have hopen : ¬ Closed (danglingName P d) := fun hc => h.level.isOpen (closed_extend.mp hc)
  have hname := hf.name
  rw [h.keyName_eq] at hname
  rw [hname] at hopen
  refine hopen ?_
  split_ifs
  · rfl
  · have hjoin : Closed (join (parts.map elektraEscapeKeyNamePart)) := closed_join fun p hp => by
      obtain ⟨s, -, rfl⟩ := List.mem_map.mp hp
      exact (isPart_escape s).closed
    have hroot : Closed R.level := by
      cases R with
      | cascading => rfl
      | ns m => exact m.closed
    rw [Closed, escAfter_append]
    obtain hj | ⟨t, hj⟩ := join_cases (parts.map elektraEscapeKeyNamePart)
    · rwa [hj]
    · rw [hj] at hjoin ⊢
      simpa [Closed, escAfter, separator_ne_escape] using hjoin

/-! ### Keys with an open end -/

/-- All parts go. -/
def Empties (parts : List Str) (ls : List Str) : Prop := ∃ pre, pre <+: ls ∧ pre.foldl partStep parts = []

/-- The open end goes, or all parts do. -/
def Mends (parts : List Str) (ls : List Str) : Prop :=
  ls.find? (· ≠ str ".") = some (str "..") ∨ Empties parts ls

theorem empties_nil : Empties parts [] ↔ parts = [] := by
  refine ⟨?_, fun h => ⟨[], List.prefix_rfl, h⟩⟩
  rintro ⟨pre, hpre, h⟩
  rw [List.prefix_nil.mp hpre] at h
  exact h

theorem empties_cons {l : Str} {ls : List Str} :
    Empties parts (l :: ls) ↔ parts = [] ∨ Empties (partStep parts l) ls := by
  constructor
  · rintro ⟨pre, hpre, h⟩
    cases pre with
    | nil => exact .inl h
    | cons x pre =>
      obtain ⟨rfl, htail⟩ := List.cons_prefix_cons.mp hpre
      exact .inr ⟨pre, htail, h⟩
  · rintro (h | ⟨pre, hpre, h⟩)
    · exact ⟨[], List.nil_prefix, h⟩
    · exact ⟨l :: pre, List.cons_prefix_cons.mpr ⟨rfl, hpre⟩, h⟩

theorem partStep_dot (parts : List Str) : partStep parts (str ".") = parts := if_pos (.inr rfl)

theorem partStep_dots (parts : List Str) : partStep parts (str "..") = parts.dropLast := by
  rw [partStep, if_neg (by decide), if_pos rfl]

theorem empties_dots {ls : List Str} (hne : parts ≠ []) : ∀ pre : List Str, (∀ x ∈ pre, x = str ".") →
    (Empties parts (pre ++ ls) ↔ Empties parts ls)
  | [], _ => Iff.rfl
  | x :: pre, h => by
    rw [List.cons_append, empties_cons, h x List.mem_cons_self, partStep_dot,
      empties_dots hne pre fun y hy => h y (List.mem_cons_of_mem x hy)]
    exact or_iff_right hne

theorem foldl_dots : ∀ pre : List Str, (∀ x ∈ pre, x = str ".") → pre.foldl partStep parts = parts
  | [], _ => rfl
  | x :: pre, h => by
    rw [List.foldl_cons, h x List.mem_cons_self, partStep_dot]
    exact foldl_dots pre fun y hy => h y (List.mem_cons_of_mem x hy)

theorem length_partStep (parts : List Str) {l : Str} (h : l ≠ str "..") :
    (partStep parts l).length = parts.length + if l = [] ∨ l = str "." then 0 else 1 := by
  rw [partStep]
  split_ifs <;> simp

/-- Two lists of which one has a part more: they become the same only where all parts go. -/
theorem foldl_longer : ∀ (ls c s : List Str), s.length = c.length + 1 →
    (ls.foldl partStep c = ls.foldl partStep s ↔ Empties s ls)
  | [], c, s, h => by
    rw [empties_nil]
    refine ⟨fun he => ?_, fun he => ?_⟩
    · have hlen := congrArg List.length he
      simp only [List.foldl_nil] at hlen
      omega
    · rw [he] at h
      simp at h
  | l :: ls, c, s, h => by
    have hne : s ≠ [] := fun he => by simp [he] at h
    rw [List.foldl_cons, List.foldl_cons, empties_cons, or_iff_right hne]
    by_cases hl : l = str ".."
    · rw [hl, partStep_dots, partStep_dots]
      by_cases hc : c = []
      · -- both are empty now
        have hs : s.dropLast = [] := by
          rw [← List.length_eq_zero_iff, List.length_dropLast, h, hc]
          rfl
        rw [hc, hs, List.dropLast_nil]
        exact ⟨fun _ => ⟨[], List.nil_prefix, rfl⟩, fun _ => rfl⟩
      · refine foldl_longer ls _ _ ?_
        have hpos := List.length_pos_of_ne_nil hc
        rw [List.length_dropLast, List.length_dropLast]
        omega
    · refine foldl_longer ls _ _ ?_
      rw [length_partStep s hl, length_partStep c hl]
      omega

theorem nul_partStep {l : Str} (hl : 0 ∉ l) (h : ∀ s ∈ parts, 0 ∉ s) : ∀ s ∈ partStep parts l, 0 ∉ s := by
  rw [partStep]
  split_ifs
  · exact h
  · exact fun s hs => h s (List.mem_of_mem_dropLast hs)
  · intro s hs
    obtain hs | hs := List.mem_append.mp hs
    · exact h s hs
    · rw [List.mem_singleton.mp hs]
      exact List.not_mem_nil
  · intro s hs
    obtain hs | hs := List.mem_append.mp hs
    · exact h s hs
    · rw [List.mem_singleton.mp hs]
      exact nul_unescapeLevel hl

theorem nul_foldl : ∀ (ls parts : List Str), (∀ l ∈ ls, 0 ∉ l) → (∀ s ∈ parts, 0 ∉ s) →
    ∀ s ∈ ls.foldl partStep parts, 0 ∉ s
  | [], _, _, h => h
  | l :: ls, _, hls, h =>
    nul_foldl ls _ (fun x hx => hls x (List.mem_cons_of_mem l hx)) (nul_partStep (hls l List.mem_cons_self) h)

theorem find_dots {l : Str} {rest : List Str} (hl : l ≠ str ".") : ∀ pre : List Str, (∀ x ∈ pre, x = str ".") →
    (pre ++ l :: rest).find? (· ≠ str ".") = some l
  | [], _ => List.find?_cons_of_pos (by simpa using hl)
  | x :: pre, h => by
    rw [List.cons_append, List.find?_cons_of_neg (by simpa using h x List.mem_cons_self)]
    exact find_dots hl pre fun y hy => h y (List.mem_cons_of_mem x hy)

/-- What is left of a key with an open end is the fold where the end goes, or all parts. -/
theorem addName_mends {Q : Path} {n : Str} {u : CString} (h0 : 0 ∉ n)
    {pre rest : List Str} {l : Str} (hsplit : levels n = pre ++ l :: rest) (hpre : ∀ x ∈ pre, x = str ".")
    (hl : l ≠ str ".") (hQ : HasName key Q) (hroot : Q.root = P.root)
    (he : Q.escaped =
      pathReduce (if l = str ".." then P.escaped else P.escaped ++ [d ++ pathSeparator :: l]) rest) :
    FoldsTo key P.root (foldPath ((P.add u).parts.map Subtype.val) n) ↔
      Mends ((P.add u).parts.map Subtype.val) (levels n) := by
  have hlevel : ∀ x ∈ levels n, x ≠ [] ∧ 0 ∉ x := fun x hx =>
    ⟨(isLevel_of_mem hx).ne_nil, fun hm => h0 (subset_of_mem hx hm)⟩
  have hnul : ∀ s ∈ foldPath ((P.add u).parts.map Subtype.val) n, 0 ∉ s := by
    rw [foldPath_eq]
    refine nul_foldl _ _ (fun x hx => (hlevel x hx).2) fun s hs => ?_
    obtain ⟨t, -, rfl⟩ := List.mem_map.mp hs
    exact t.2
  have hrest : ∀ x ∈ rest, x ≠ [] := fun x hx =>
    (hlevel x (by rw [hsplit]; exact List.mem_append_right _ (List.mem_cons_of_mem l hx))).1
  have hlne : l ≠ [] := (hlevel l (by rw [hsplit]; simp)).1
  have hparts : (P.add u).parts.map Subtype.val = P.parts.map Subtype.val ++ [u.1] := by simp [Path.add]
  have hne : (P.add u).parts.map Subtype.val ≠ [] := by simp [hparts]
  rw [← hroot, foldsTo_path_iff hQ hnul, ← map_escaped Q, he, map_pathReduce _ _ hrest, foldPath_eq, Mends,
    hsplit, find_dots hl pre hpre, List.foldl_append, foldl_dots pre hpre, List.foldl_cons,
    empties_dots hne pre hpre, empties_cons, or_iff_right hne]
  by_cases h2 : l = str ".."
  · rw [if_pos h2, map_escaped, h2, partStep_dots, hparts, List.dropLast_concat]
    exact ⟨fun _ => .inl rfl, fun _ => rfl⟩
  · rw [if_neg h2, eq_comm, foldl_longer]
    · exact ⟨.inr, fun h => h.resolve_left fun hs => h2 (Option.some.inj hs)⟩
    · rw [length_partStep _ h2, if_neg (by simp [hlne, hl]), hparts]
      simp [Path.escaped]

theorem addName_folds_path (h : HasName key P) (hro : key.roName = false) (n : CString) :
    ((keyAddName key (some n.1)).1 ≠ -1 →
        FoldsTo (keyAddName key (some n.1)).2 P.root (foldPath (P.parts.map Subtype.val) n.1)) ↔ ¬ OddRun n.1 := by
  by_cases hn : n.1 = []
  · rw [hn, keyAddName_nil (by rw [h.keyName_eq]; exact P.name_ne_nil) hro]
    exact ⟨fun _ h => absurd h.2 (by decide), fun _ _ => foldsTo_path h⟩
  have heq := keyAddName_eq h.key h.keySize hro hn
  by_cases hv : elektraValidateKeyName n.1 (n.1.length + 1) = true
  · have hret : (keyAddName key (some n.1)).1 ≠ -1 := by
      rw [heq, if_pos hv]
      dsimp only
      split_ifs <;> omega
    obtain ⟨hodd, hd⟩ | ⟨hodd, Q, hQ, hr, he⟩ := keyAddName_shape h.key h.keySize hro hn n.2 hv
    · exact ⟨fun h => absurd (h hret) (not_foldsTo_dangling hd), fun h => absurd hodd h⟩
    · refine ⟨fun _ => hodd, fun _ _ => ?_⟩
      rw [← hr, ← foldPath_of_reduce he]
      exact foldsTo_path hQ
  · rw [heq, if_neg hv]
    exact ⟨fun _ hodd => hv (validate_odd hodd), fun _ hret => absurd rfl hret⟩

theorem addName_folds_dangling (h : Dangling key P d) (hro : key.roName = false) (u n : CString) :
    ((keyAddName key (some n.1)).1 ≠ -1 →
        FoldsTo (keyAddName key (some n.1)).2 P.root (foldPath ((P.add u).parts.map Subtype.val) n.1)) ↔
      n.1 ≠ [] ∧ elektraValidateKeyName n.1 (n.1.length + 1) = false ∨
        ¬ OddRun n.1 ∧ Mends ((P.add u).parts.map Subtype.val) (levels n.1) := by
  have hne : (P.add u).parts.map Subtype.val ≠ [] := by simp [Path.add]
  have hdots : ∀ {ls : List Str}, (∀ l ∈ ls, l = str ".") → ¬ Mends ((P.add u).parts.map Subtype.val) ls := by
    rintro ls hall (hfind | ⟨pre, hpre, he⟩)
    · exact absurd (hall _ (List.mem_of_find?_eq_some hfind)) (by decide)
    · rw [foldl_dots pre fun x hx => hall x (hpre.subset hx)] at he
      exact hne he
  by_cases hn : n.1 = []
  · rw [hn, keyAddName_nil (by rw [h.keyName_eq]; simp [danglingName]) hro]
    refine ⟨fun hu => absurd (hu (show (0 : ℤ) ≠ -1 by decide)) (not_foldsTo_dangling h), ?_⟩
    rintro (⟨hnil, -⟩ | ⟨-, hm⟩)
    · exact absurd rfl hnil
    · exact absurd hm (hdots fun l hl => by cases hl)
  have heq := keyAddName_dangling h hro hn
  by_cases hv : elektraValidateKeyName n.1 (n.1.length + 1) = true
  · have hret : (keyAddName key (some n.1)).1 ≠ -1 := by
      rw [heq, if_pos hv]
      dsimp only
      split_ifs <;> omega
    rw [hv, or_iff_right fun h => by cases h.2]
    obtain ⟨hodd, hd⟩ | ⟨hodd, ⟨hall, hd⟩ | ⟨pre, l, rest, hsplit, hpre, hl, Q, hQ, hr, he⟩⟩ :=
      keyAddName_dangling_shape h hro hn n.2 hv
    · exact ⟨fun h => absurd (h hret) (not_foldsTo_dangling hd), fun h => absurd hodd h.1⟩
    · exact ⟨fun h => absurd (h hret) (not_foldsTo_dangling hd), fun h => absurd h.2 (hdots hall)⟩
    · have hiff := addName_mends (u := u) n.2 hsplit hpre hl hQ hr he
      exact ⟨fun h => ⟨hodd, hiff.mp (h hret)⟩, fun h _ => hiff.mpr h.2⟩
  · rw [heq, if_neg hv]
    exact ⟨fun _ => .inl ⟨hn, Bool.eq_false_iff.mpr hv⟩, fun _ hret => absurd rfl hret⟩

theorem addName_folds {ps : List CString} (h : Shape key) (hparts : key.ukey = (Path.mk R ps).uname) (n : CString) :
    ((keyAddName key (some n.1)).1 ≠ -1 →
        FoldsTo (keyAddName key (some n.1)).2 R (foldPath (ps.map Subtype.val) n.1)) ↔
      key.roName = true ∨ keyName key = [] ∨ n.1 ≠ [] ∧ elektraValidateKeyName n.1 (n.1.length + 1) = false ∨
        ¬ OddRun n.1 ∧
          (trailingEscapes (keyName key) % 2 = 0 ∨ Mends (ps.map Subtype.val) (levels n.1)) := by
  by_cases hro : key.roName = true
  · have hkeep : keyAddName key (some n.1) = (-1, key) := by simp [keyAddName, hro]
    rw [hkeep]
    exact ⟨fun _ => .inl hro, fun _ h => absurd rfl h⟩
  have hro : key.roName = false := Bool.eq_false_iff.mpr hro
  rw [hro, ← escAfter_eq_trailing, or_iff_right Bool.false_ne_true]
  cases h with
  | unnamed h =>
    have hrun : keyAddName key (some n.1) = (-1, key) := by simp [keyAddName, hro, h]
    rw [hrun]
    exact ⟨fun _ => .inl (by simp [keyName, h]), fun _ h => absurd rfl h⟩
  | empty h =>
    have hrun : keyAddName key (some n.1) = (-1, key) := by simp [keyAddName, hro, h]
    rw [hrun]
    exact ⟨fun _ => .inl (by simp [keyName, h]), fun _ h => absurd rfl h⟩
  | path P h =>
    have hclosed : escAfter 0 P.name % 2 = 0 := closed_name P
    obtain rfl := Path.uname_injective (h.ukey.symm.trans hparts)
    rw [addName_folds_path h hro n, h.keyName_eq, or_iff_right (Path.name_ne_nil _)]
    refine ⟨fun hodd => .inr ⟨hodd, .inl hclosed⟩, ?_⟩
    rintro (⟨-, hv⟩ | ⟨hodd, -⟩)
    · intro hodd
      rw [validate_odd hodd] at hv
      cases hv
    · exact hodd
  | dangling P d h =>
    have hopen : ¬ escAfter 0 (danglingName P d) % 2 = 0 := fun hc => h.level.isOpen (closed_extend.mp hc)
    have hne : danglingName P d ≠ [] := by simp [danglingName]
    have hu : key.ukey = (P.add ⟨unescapeLevel d, nul_unescapeLevel h.level.nul⟩).uname := by
      rw [h.ukey, Path.uname_add]
    have hpath := Path.uname_injective (hu.symm.trans hparts)
    obtain rfl : P.root = R := congrArg Path.root hpath
    obtain rfl : (P.add ⟨unescapeLevel d, nul_unescapeLevel h.level.nul⟩).parts = ps := congrArg Path.parts hpath
    rw [addName_folds_dangling h hro _ n, h.keyName_eq, or_iff_right hne, or_iff_right hopen]

theorem setName_folds {n : CString} (hn : n.1 ≠ []) :
    ((keySetName key (some n.1)).1 ≠ -1 → ∃ R, (keyGetNameNamespace (some n.1)).root = some R ∧
        FoldsTo (keySetName key (some n.1)).2 R ((segments 0 n.1).tail.foldl partStep [])) ↔
      key.roName = true ∨ (keyGetNameNamespace (some n.1)).root = none ∨ ¬ OddRun (pathArgument n.1) := by
  by_cases hro : key.roName = true
  · have hkeep : keySetName key (some n.1) = (-1, key) := by simp [keySetName, elektraKeySetName, hro]
    rw [hkeep]
    exact ⟨fun _ => .inl hro, fun _ h => absurd rfl h⟩
  have hro : key.roName = false := Bool.eq_false_iff.mpr hro
  rw [hro, or_iff_right Bool.false_ne_true, ← foldl_partStep_filter, segments_argument]
  obtain ⟨hret, -, hcond⟩ | ⟨hret, R, hR, ⟨hodd, hd⟩ | ⟨hodd, Q, hQ, rfl, he⟩⟩ := keySetName_shape hn n.2 hro
  · exact ⟨fun _ => hcond, fun _ h => absurd hret h⟩
  · refine ⟨fun h => ?_, ?_⟩
    · obtain ⟨R', -, hf⟩ := h hret
      exact absurd hf (not_foldsTo_dangling hd)
    · rintro (h | h)
      · rw [hR] at h
        cases h
      · exact absurd hodd h
  · refine ⟨fun _ => .inr hodd, fun _ _ => ⟨Q.root, hR, ?_⟩⟩
    have hfold : Q.parts.map Subtype.val = foldPath [] (pathArgument n.1) :=
      foldPath_of_reduce (P := ⟨Q.root, []⟩) he
    rw [← foldPath_eq, ← hfold]
    exact foldsTo_path hQ

end Keys

/-- **An accepted path folds the parts of the key, but where it is an odd number of backslashes, or where
the name of the key ends in an odd run of them that stays.** -/
theorem path_fold {key : Key} (h : Made key) (n : CString) :
    (∀ (R : Root) (ps : List CString), key.ukey = (Path.mk R ps).uname →
      (((keyAddName key (some n.1)).1 ≠ -1 →
          FoldsTo (keyAddName key (some n.1)).2 R (foldPath (ps.map Subtype.val) n.1)) ↔
        key.roName = true ∨ keyName key = [] ∨ n.1 ≠ [] ∧ elektraValidateKeyName n.1 (n.1.length + 1) = false ∨
          ¬ OddRun n.1 ∧
            (trailingEscapes (keyName key) % 2 = 0 ∨ Mends (ps.map Subtype.val) (levels n.1)))) ∧
    (n.1 ≠ [] →
      (((keySetName key (some n.1)).1 ≠ -1 → ∃ R, (keyGetNameNamespace (some n.1)).root = some R ∧
          FoldsTo (keySetName key (some n.1)).2 R ((segments 0 n.1).tail.foldl partStep [])) ↔
        key.roName = true ∨ (keyGetNameNamespace (some n.1)).root = none ∨ ¬ OddRun (pathArgument n.1))) :=
  ⟨fun _ _ hparts => addName_folds (shape_of_made h) hparts n, setName_folds⟩

/-- `user/a` and the path `./../b` -/
theorem path_fold_userA : FoldsTo (keyAddName (keySetName keyNew (some (str "user/a"))).2 (some (str "./../b"))).2
    (.ns .user) [str "b"] :=
  ((path_fold made_userA ⟨str "./../b", by decide⟩).1 (.ns .user) userA.parts rfl).mpr
    (.inr (.inr (.inr ⟨fun h => absurd h.1 (by decide), .inl (by decide +kernel)⟩))) (by decide +kernel)

/-- **The part that one backslash pushes is unescaped to the empty part, whose escape is `%`.** -/
theorem not_path_fold : (keyAddName (keySetName keyNew (some (str "user/a"))).2 (some (str "\\"))).1 ≠ -1 ∧
    foldPath [str "a"] (str "\\") = [str "a", []] ∧
    keyName (keyAddName (keySetName keyNew (some (str "user/a"))).2 (some (str "\\"))).2 = str "user/a/\\" ∧
    str "user" ++ join ([str "a", []].map elektraEscapeKeyNamePart) = str "user/a/%" := by
  decide +kernel

end Elektra
