import Elektra.Lookup.Pop
import Elektra.Plugin.CsvRead

/-!
# csvWrite

* `writeColumns_row`: the columns of a row by their numbers;
* `OfRow`: the keys that the cut at a row takes;
* **`writeRows_rows`**: the loop, from where the cursor is; `writeRows_skip`: the row that is passed over.
-/

namespace Elektra.Csvstorage

open Ease

/-! ## The columns of a row -/

section Columns

variable {delim : UInt8} {ks : List Key} {row : List Str}

theorem joined_flatMap (delim : UInt8) (x : Str) : ∀ row : List Str,
    joined delim (x :: row) = x ++ row.flatMap (delim :: ·)
  | [] => by rw [joined, List.intercalate_singleton, List.flatMap_nil, List.append_nil]
  | y :: row => by
    rw [joined_cons (List.cons_ne_nil y row), joined_flatMap delim y row, List.flatMap_cons]
    rfl

theorem writeColumns_rest (h : Numbered ks row.length fun j k => row[j]? = some (keyString k)) (hlen : row.length < 10 ^ 13) :
    ∀ {fuel j : ℕ} {out : Str}, j ≠ 0 → j ≤ row.length → row.length < j + fuel →
    writeColumns delim ks fuel j out = (out ++ (row.drop j).flatMap (delim :: ·), row.length)
  | 0, j, _, _, hle, hfuel => absurd hfuel (by omega)
  | fuel + 1, j, out, hj, hle, hfuel => by
    obtain ⟨hfind, hend⟩ := h.find hlen.le
    obtain hlt | rfl := hle.lt_or_eq
    · obtain ⟨k, -, hk, hvalue⟩ := hfind j hlt
      obtain ⟨_, hget⟩ := List.getElem?_eq_some_iff.mp hvalue
      rw [writeColumns, hk]
      dsimp only
      rw [if_neg hj, writeColumns_rest h hlen (Nat.succ_ne_zero j) hlt (by omega), List.drop_eq_getElem_cons hlt, hget,
        List.flatMap_cons, List.append_assoc, List.append_assoc]
      rfl
    · rw [writeColumns, hend hlen, List.drop_length, List.flatMap_nil, List.append_nil]

/-- **The columns of a row are written.** -/
theorem writeColumns_row (h : Numbered ks row.length fun j k => row[j]? = some (keyString k)) (hlen : row.length < 10 ^ 13)
    (hne : row ≠ []) {fuel : ℕ} (hfuel : row.length < fuel) (out : Str) :
    writeColumns delim ks fuel 0 out = (out ++ joined delim row, row.length) := by
  obtain ⟨x, rest, rfl⟩ := List.exists_cons_of_ne_nil hne
  obtain ⟨fuel, rfl⟩ : ∃ n, fuel = n + 1 := ⟨fuel - 1, by omega⟩
  obtain ⟨k, -, hk, hvalue⟩ := (h.find hlen.le).1 0 (List.length_pos_of_ne_nil hne)
  have hx : keyString k = x := (Option.some.inj hvalue).symm
  rw [writeColumns, hk]
  dsimp only
  rw [if_pos rfl, hx, writeColumns_rest h hlen Nat.one_ne_zero (List.length_pos_of_ne_nil hne) (by omega),
    joined_flatMap, List.drop_one, List.tail_cons, List.append_assoc]

theorem Numbered.length_le {c : ℕ} {Q : ℕ → Key → Prop} (h : Numbered ks c Q) (hc : c ≤ 10 ^ 13) : c ≤ ks.length := by
  have hnodup : ((List.range c).map fun j => some (itostr j)).Nodup := by
    refine List.Nodup.map_on (fun i hi j hj he => ?_) List.nodup_range
    exact itostr_injective ((List.mem_range.mp hi).trans_le hc) ((List.mem_range.mp hj).trans_le hc) (Option.some.inj he)
  have hsubset : (List.range c).map (fun j => some (itostr j)) ⊆ ks.map (keyGetMeta · csvOrder) := fun order horder => by
    obtain ⟨j, hj, rfl⟩ := List.mem_map.mp horder
    obtain ⟨k, hk, he, -⟩ := h.key j (List.mem_range.mp hj)
    exact List.mem_map.mpr ⟨k, hk, he⟩
  have hle := (List.subperm_of_subset hnodup hsubset).length_le
  rwa [List.length_map, List.length_range, List.length_map] at hle

variable {P : Path} {owner : Option Str} {name : ℕ → CString} {i : ℕ} {rowKey : Key} {cells : List Key}

theorem Segment.numbered (h : Segment P owner name i row rowKey cells) :
    Numbered (rowKey :: cells) row.length fun j k => row[j]? = some (keyString k) := by
  refine ⟨fun k hk => ?_, fun j hj => ?_⟩
  · obtain rfl | hk := List.mem_cons.mp hk
    · obtain ⟨value, hrow⟩ := h.element
      exact .inr hrow.order
    · obtain ⟨j, value, hget, hcell⟩ := h.cell k hk
      exact .inl ⟨j, (List.getElem?_eq_some_iff.mp hget).1, hcell.order, by rw [hcell.value]; exact hget⟩
  · obtain ⟨k, hk, hcell⟩ := h.column j _ (List.getElem?_eq_getElem hj)
    exact ⟨k, List.mem_cons_of_mem _ hk, hcell.order, by rw [hcell.value]; exact List.getElem?_eq_getElem hj⟩

end Columns

/-! ## The keys of a row -/

section OfRow

variable {P : Path} {owner : Option Str} {name : ℕ → CString} {i j : ℕ} {row : List Str} {rows : List (List Str)}
  {key rowKey k : Key} {cells ks : List Key}

/-- The element `i`, or a key directly below it. -/
def OfRow (P : Path) (i : ℕ) (k : Key) : Prop :=
  HasName k (P.add (arrayName i)) ∨ ∃ s, HasName k ((P.add (arrayName i)).add s)

theorem Segment.ofRow (h : Segment P owner name i row rowKey cells) : ∀ k ∈ rowKey :: cells, OfRow P i k := fun k hk => by
  obtain rfl | hk := List.mem_cons.mp hk
  · obtain ⟨value, hrow⟩ := h.element
    exact .inl hrow.name
  · obtain ⟨j, value, -, hcell⟩ := h.cell k hk
    exact .inr ⟨_, hcell.name⟩

theorem Rows.ofRow (h : Rows P owner name i rows ks) : ∀ k ∈ ks, ∃ j, i ≤ j ∧ OfRow P j k := by
  induction h with
  | nil => exact fun k hk => absurd hk List.not_mem_nil
  | cons hsegment _ ih =>
    intro k hk
    obtain hk | hk := List.mem_append.mp hk
    · exact ⟨_, le_rfl, hsegment.ofRow k hk⟩
    · obtain ⟨j, hj, hrow⟩ := ih k hk
      exact ⟨j, (Nat.le_succ _).trans hj, hrow⟩

/-- **The cut at a row takes its keys and no others.** -/
theorem OfRow.below (hkey : HasName key (P.add (arrayName i))) (h : OfRow P j k) :
    keyIsBelowOrSame key k = decide (i = j) := by
  have hparts : ∀ Q : Path, Q.root = P.root → (P.parts ++ [arrayName j]) <+: Q.parts →
      ((P.add (arrayName i)).Above Q ∨ P.add (arrayName i) = Q → i = j) := by
    intro Q hQ hprefix habove
    have hi : P.parts ++ [arrayName i] <+: Q.parts := by
      obtain ⟨-, hle, -⟩ | rfl := habove
      · exact hle
      · exact List.prefix_rfl
    have hlen : (P.parts ++ [arrayName i]).length = (P.parts ++ [arrayName j]).length := by
      rw [List.length_append, List.length_append]
      rfl
    have he := (List.prefix_of_prefix_length_le hi hprefix hlen.le).eq_of_length hlen
    exact arrayName_injective (List.singleton_inj.mp (List.append_cancel_left he))
  rw [Bool.eq_iff_iff, decide_eq_true_iff]
  obtain hk | ⟨s, hk⟩ := h
  · rw [keyIsBelowOrSame_iff hkey hk]
    refine ⟨hparts _ rfl List.prefix_rfl, ?_⟩
    rintro rfl
    exact .inr rfl
  · rw [keyIsBelowOrSame_iff hkey hk]
    refine ⟨hparts _ rfl (List.prefix_append _ _), ?_⟩
    rintro rfl
    refine .inl ⟨.inl rfl, List.prefix_append _ _, fun he => ?_⟩
    have hlen := congrArg List.length he
    simp [Path.add] at hlen

theorem not_crossed (hroot : P.root ≠ .cascading) {Q : Path} (hQ : Q.root = P.root) : ¬ P.Crossed Q := fun h =>
  hroot (hQ.symm.trans h.2.1)

theorem keyRel_row (hroot : P.root ≠ .cascading) (hkey : HasName key P) (hk : HasName k (P.add (arrayName i))) :
    keyRel key k = some 1 := by
  have hne := add_ne P (arrayName i)
  have hdirect : P.DirectlyAbove (P.add (arrayName i)) := by
    refine ⟨⟨.inl rfl, List.prefix_append _ _, fun he => hne ?_⟩, ?_⟩
    · obtain ⟨root, parts⟩ := P
      exact congrArg (Path.mk root) he
    · rw [Path.add, List.length_append]
      rfl
  rw [keyRel_eq hkey hk (not_crossed hroot rfl), Path.relation, if_neg fun h => hne h.1, if_pos hdirect]

theorem keyRel_cell (hroot : P.root ≠ .cascading) (hkey : HasName key P) {s : CString}
    (hk : HasName k ((P.add (arrayName i)).add s)) : ∃ rel, keyRel key k = some rel ∧ rel ≠ 1 := by
  have hlen : ((P.add (arrayName i)).add s).parts.length = P.parts.length + 2 := by
    rw [Path.add, Path.add, List.length_append, List.length_append]
    rfl
  have hdirect : ¬ P.DirectlyAbove ((P.add (arrayName i)).add s) := fun h => by
    have := h.2
    omega
  refine ⟨_, keyRel_eq hkey hk (not_crossed hroot rfl), ?_⟩
  rw [Path.relation, if_neg hdirect]
  split_ifs <;> decide

end OfRow

/-! ## The loop -/

section Loop

variable {env : Environment} {delim : UInt8} {P : Path} {owner : Option Str} {name : ℕ → CString} {cell : KeyRef → Key}
  {p : KeyRef} {w : World} {pre post : List KeyRef}

/-- The cursor is behind `pre`, and `post` is still to be visited. -/
structure Writing (cell : KeyRef → Key) (p : KeyRef) (w : World) (pre post : List KeyRef) : Prop where
  array : w.ks.array = pre ++ post
  before : w.ks.Before pre.length
  nodup : (pre ++ post).Nodup
  apart : p ∉ pre ++ post
  cells : ∀ k, k = p ∨ k ∈ pre ++ post → w.cell k = cell k

theorem Writing.done (h : Writing cell p w pre []) : (ksNext w.ks).1 = none :=
  h.before.next_none (by rw [h.array, List.append_nil])

theorem Writing.next {k : KeyRef} (h : Writing cell p w pre (k :: post)) :
    ∃ ks', ksNext w.ks = (some k, ks') ∧ Writing cell p { w with ks := ks' } (pre ++ [k]) post := by
  obtain ⟨ks', hnext, harray, -, hbefore⟩ := h.before.next_some h.array
  have hsplit : pre ++ [k] ++ post = pre ++ k :: post := by rw [List.append_assoc]; rfl
  refine ⟨ks', hnext, harray.trans (h.array.trans hsplit.symm), ?_, hsplit ▸ h.nodup, hsplit ▸ h.apart, hsplit ▸ h.cells⟩
  rw [List.length_append, List.length_singleton]
  exact hbefore

theorem Writing.cut (hroot : P.root ≠ .cascading) {i : ℕ} {k : KeyRef} {run : List KeyRef}
    (h : Writing cell p w (pre ++ [k]) (run ++ post)) (hk : HasName (cell k) (P.add (arrayName i)))
    (hpre : ∀ a ∈ pre, ∃ j < i, OfRow P j (cell a)) (hrun : ∀ a ∈ run, OfRow P i (cell a))
    (hpost : ∀ a ∈ post, ∃ j, i < j ∧ OfRow P j (cell a)) :
    ∃ ks' toWriteKS, ksCut w.heap w.ks k = (w.heap, ks', some toWriteKS) ∧ toWriteKS.array = k :: run ∧
      Writing cell p { heap := ksDel w.heap toWriteKS, ks := ks' } pre post := by
  have hsplit : pre ++ [k] ++ (run ++ post) = pre ++ k :: (run ++ post) := by rw [List.append_assoc]; rfl
  obtain ⟨harray, hbefore, hnodup, hapart, hcells⟩ := h
  rw [hsplit] at harray hnodup hapart hcells
  have hcell : ∀ a ∈ pre ++ k :: (run ++ post), w.heap.cell a = cell a := fun a ha => hcells a (.inr ha)
  have hcellk := hcell k (by simp)
  have hnamek : HasName (w.heap.cell k) (P.add (arrayName i)) := hcellk.symm ▸ hk
  have htest : ∀ a ∈ pre ++ k :: (run ++ post), ∀ j, OfRow P j (cell a) → cutTest w.heap k a = decide (i = j) :=
    fun a ha j hrow => OfRow.below hnamek ((hcell a ha).symm ▸ hrow)
  have hpre' : ∀ a ∈ pre, cutTest w.heap k a = false := fun a ha => by
    obtain ⟨j, hj, hrow⟩ := hpre a ha
    rw [htest a (List.mem_append_left _ ha) j hrow, decide_eq_false (Nat.ne_of_gt hj)]
  have hself : cutTest w.heap k k = true := by rw [htest k (by simp) i (.inl hk), decide_eq_true rfl]
  have hrun' : ∀ a ∈ run, cutTest w.heap k a = true := fun a ha => by
    rw [htest a (by simp [ha]) i (hrun a ha), decide_eq_true rfl]
  have hpost' : ∀ a ∈ post, ¬ cutTest w.heap k a = true := fun a ha => by
    obtain ⟨j, hj, hrow⟩ := hpost a ha
    rw [htest a (by simp [ha]) j hrow, decide_eq_false (Nat.ne_of_lt hj)]
    exact Bool.false_ne_true
  rw [List.length_append, List.length_singleton] at hbefore
  obtain ⟨hrest, hcut, hplace⟩ := ksCutBelow_at harray (harray ▸ hnodup) hpre' hself hbefore
  have htake : post.takeWhile (cutTest w.heap k) = [] ∧ post.dropWhile (cutTest w.heap k) = post := by
    cases post with
    | nil => exact ⟨rfl, rfl⟩
    | cons a post =>
      have ha := hpost' a List.mem_cons_self
      exact ⟨List.takeWhile_cons_of_neg ha, List.dropWhile_cons_of_neg ha⟩
  rw [List.takeWhile_append_of_pos hrun', htake.1, List.append_nil] at hcut
  rw [List.dropWhile_append_of_pos hrun', htake.2] at hrest
  have hhead : (P.add (arrayName i)).name.head? ≠ some pathSeparator := fun hhead =>
    hroot ((P.add (arrayName i)).head_name.mp hhead)
  have hsub : (pre ++ post).Sublist (pre ++ k :: (run ++ post)) :=
    ((List.sublist_append_right run post).trans (List.sublist_cons_self k _)).append_left pre
  refine ⟨_, _, ?_, hcut, hrest, hplace, hnodup.sublist hsub, fun hp => hapart (hsub.subset hp), fun a ha => ?_⟩
  · rw [ksCut_below hnamek.key hhead, (ksCutBelow_spec w.heap w.ks k).1]
  · have hout : a ∉ (ksCutBelow w.heap w.ks k).2.2.array := fun hin => by
      rw [hcut] at hin
      obtain rfl | ha := ha
      · exact hapart (List.mem_append_right _ (List.mem_cons.mpr
          ((List.mem_cons.mp hin).imp id fun h => List.mem_append_left _ h)))
      · have hdisjoint : ∀ b ∈ k :: run, b ∉ pre ++ post := by
          have hperm : (pre ++ k :: (run ++ post)).Perm ((k :: run) ++ (pre ++ post)) := by
            rw [← List.cons_append, ← List.append_assoc, ← List.append_assoc]
            exact List.perm_append_comm.append_right post
          have hall := List.nodup_append.mp (hperm.nodup_iff.mp hnodup)
          exact fun b hb hb' => hall.2.2 b hb b hb' rfl
        exact hdisjoint a hin ha
    have hclose : (ksDel w.heap (ksCutBelow w.heap w.ks k).2.2).cell a = w.heap.cell a := closeLoop_cell _ _ hout
    refine hclose.trans (hcells a (ha.imp id fun ha => hsub.subset ha))

theorem writeRows_nil (h : Writing cell p w pre []) (useHeader : Bool) (fuel columns lineCounter : ℕ) (out : Str) :
    ∃ w', writeRows env delim p (fuel + 1) w useHeader columns lineCounter out = some (1, out, w') := by
  have hdone := h.done
  rw [writeRows]
  rcases hnext : ksNext w.ks with ⟨k, ks'⟩
  rw [hnext] at hdone
  dsimp only at hdone
  rw [hdone]
  exact ⟨_, rfl⟩

/-- **The loop writes the rows that are left.** -/
theorem writeRows_rows {c : ℕ} (hroot : P.root ≠ .cascading) (hp : HasName (cell p) P) (hc : c < 10 ^ 13) {i : ℕ}
    {rows : List (List Str)} {ks : List Key} (h : Rows P owner name i rows ks) : ∀ {w : World} {post : List KeyRef}
    {fuel columns lineCounter : ℕ} {out : Str}, post.map cell = ks → (∀ row ∈ rows, row.length = c ∧ row ≠ []) →
    Writing cell p w pre post → (∀ a ∈ pre, ∃ j < i, OfRow P j (cell a)) → post.length < fuel →
    columns = 0 ∨ columns = c →
    ∃ w', writeRows env delim p fuel w false columns lineCounter out = some (1, out ++ rows.flatMap (rowLine delim), w') := by
  induction h with
  | nil i =>
    intro w post fuel columns lineCounter out hpost _ hw _ hfuel _
    obtain rfl := List.map_eq_nil_iff.mp hpost
    obtain ⟨fuel, rfl⟩ : ∃ n, fuel = n + 1 := ⟨fuel - 1, by omega⟩
    rw [List.flatMap_nil, List.append_nil]
    exact writeRows_nil hw false fuel columns lineCounter out
  | @cons i row rows rowKey cells ks hsegment hrest ih =>
    intro w post fuel columns lineCounter out hpost hrows hw hpre hfuel hcolumns
    obtain ⟨first, rest, rfl, hfirst, rfl⟩ := List.map_eq_append_iff.mp hpost
    obtain ⟨r, run, rfl, hr, hrun⟩ := List.map_eq_cons_iff.mp hfirst
    rw [List.length_append, List.length_cons] at hfuel
    obtain ⟨fuel, rfl⟩ : ∃ n, fuel = n + 1 := ⟨fuel - 1, by omega⟩
    obtain ⟨hlen, hne⟩ := hrows row List.mem_cons_self
    obtain ⟨value, helement⟩ := hsegment.element
    obtain ⟨ks', hnext, hw'⟩ := hw.next
    have hcellp : w.cell p = cell p := hw.cells p (.inl rfl)
    have hcellr : w.cell r = cell r := hw.cells r (.inr (by simp))
    have hkey : HasName (cell r) (P.add (arrayName i)) := hr.symm ▸ helement.name
    obtain ⟨ks'', toWriteKS, hcut, harray, hw''⟩ := hw'.cut hroot hkey hpre
      (fun a ha => hsegment.ofRow _ (List.mem_cons_of_mem _ (hrun ▸ List.mem_map_of_mem ha)))
      fun a ha => by
        obtain ⟨j, hj, hrow⟩ := hrest.ofRow _ (List.mem_map_of_mem ha)
        exact ⟨j, hj, hrow⟩
    have hkeys : toWriteKS.array.map w.heap.cell = rowKey :: cells := by
      rw [harray, ← hfirst]
      refine List.map_congr_left fun a ha => hw.cells a (.inr ?_)
      exact List.mem_append_right _ (List.mem_append_left _ ha)
    have hsize : row.length < toWriteKS.size + 1 := by
      have hle := hsegment.numbered.length_le (hlen ▸ hc.le)
      have hcount := congrArg List.length hkeys
      rw [List.length_map] at hcount
      rw [← hcount] at hle
      exact Nat.lt_succ_of_le hle
    have hwrite := @writeColumns_row delim _ row hsegment.numbered (hlen ▸ hc) hne _ hsize out
    have hequal : (if columns = 0 then row.length else columns) = row.length := by
      obtain rfl | rfl := hcolumns
      · exact if_pos rfl
      · rw [hlen]
        split_ifs with h0
        · rfl
        · rfl
    obtain ⟨w', hloop⟩ := @ih _ rest fuel row.length (lineCounter + 1) (out ++ joined delim row ++ [newline]) rfl
      (fun row' hrow' => hrows row' (List.mem_cons_of_mem row hrow')) hw''
      (fun a ha => by
        obtain ⟨j, hj, hrow⟩ := hpre a ha
        exact ⟨j, Nat.lt_succ_of_lt hj, hrow⟩) (by omega) (.inr hlen)
    refine ⟨w', ?_⟩
    rw [writeRows, hnext]
    dsimp only
    rw [hcellp, hcellr, keyRel_row hroot hp hkey]
    dsimp only
    rw [if_neg (not_not_intro rfl), if_neg Bool.false_ne_true, hcut]
    dsimp only
    rw [hkeys, hwrite]
    dsimp only
    have hline : rowLine delim row = joined delim row ++ [newline] := rfl
    rw [hequal, if_neg (not_not_intro rfl), hloop, List.flatMap_cons, hline, List.append_assoc out, List.append_assoc out]

theorem writeRows_cells (hroot : P.root ≠ .cascading) (hp : HasName (cell p) P) {fuel i columns lineCounter : ℕ}
    {out : Str} : ∀ {run pre : List KeyRef} {w : World},
    (∀ a ∈ run, ∃ s, HasName (cell a) ((P.add (arrayName i)).add s)) → Writing cell p w pre (run ++ post) →
    ∃ w', Writing cell p w' (pre ++ run) post ∧
      writeRows env delim p (fuel + run.length) w false columns lineCounter out =
        writeRows env delim p fuel w' false columns lineCounter out
  | [], pre, w, _, hw => ⟨w, by rwa [List.append_nil], rfl⟩
  | k :: run, pre, w, hrun, hw => by
    obtain ⟨ks', hnext, hw'⟩ := hw.next
    obtain ⟨s, hk⟩ := hrun k List.mem_cons_self
    obtain ⟨rel, hrel, hne⟩ := keyRel_cell hroot hp hk
    have hcellp : w.cell p = cell p := hw.cells p (.inl rfl)
    have hcellk : w.cell k = cell k := hw.cells k (.inr (by simp))
    obtain ⟨w', hdone, hloop⟩ := writeRows_cells hroot hp (fun a ha => hrun a (List.mem_cons_of_mem k ha)) hw'
    refine ⟨w', by rwa [List.append_assoc] at hdone, ?_⟩
    rw [List.length_cons, ← Nat.add_assoc, writeRows, hnext]
    dsimp only
    rw [hcellp, hcellk, hrel]
    dsimp only
    rw [if_pos hne, hloop]

/-- **The first row is passed over** where the header is skipped. -/
theorem writeRows_skip {c : ℕ} (hroot : P.root ≠ .cascading) (hp : HasName (cell p) P) (hc : c < 10 ^ 13) {row : List Str}
    {rows : List (List Str)} {ks : List Key} (h : Rows P owner name 0 (row :: rows) ks) {w : World} {array : List KeyRef}
    {fuel : ℕ} {out : Str} (harray : array.map cell = ks) (hrows : ∀ row' ∈ rows, row'.length = c ∧ row' ≠ [])
    (hw : Writing cell p w [] array) (hfuel : array.length < fuel) :
    ∃ w', writeRows env delim p fuel w true 0 0 out = some (1, out ++ rows.flatMap (rowLine delim), w') := by
  obtain _ | @⟨_, _, _, rowKey, cells, ks, hsegment, hrest⟩ := h
  obtain ⟨first, rest, rfl, hfirst, rfl⟩ := List.map_eq_append_iff.mp harray
  obtain ⟨r, run, rfl, hr, hrun⟩ := List.map_eq_cons_iff.mp hfirst
  rw [List.length_append, List.length_cons] at hfuel
  obtain ⟨value, helement⟩ := hsegment.element
  have hkey : HasName (cell r) (P.add (arrayName 0)) := hr.symm ▸ helement.name
  obtain ⟨ks', hnext, hw'⟩ := hw.next
  have hcellp : w.cell p = cell p := hw.cells p (.inl rfl)
  have hcellr : w.cell r = cell r := hw.cells r (.inr (by simp))
  obtain ⟨fuel, rfl⟩ : ∃ n, fuel = n + run.length + 1 := ⟨fuel - run.length - 1, by omega⟩
  have hcells : ∀ a ∈ run, ∃ s, HasName (cell a) ((P.add (arrayName 0)).add s) := fun a ha => by
    obtain ⟨j, value, -, hcell⟩ := hsegment.cell (cell a) (hrun ▸ List.mem_map_of_mem ha)
    exact ⟨_, hcell.name⟩
  obtain ⟨w₁, hw₁, hskip⟩ := @writeRows_cells env delim P cell p rest hroot hp fuel 0 0 0 out run _ _ hcells hw'
  obtain ⟨w', hloop⟩ := @writeRows_rows env delim P owner name cell p _ c hroot hp hc 1 rows _ hrest w₁ rest fuel 0 0 out rfl
    hrows hw₁ (fun a ha => ⟨0, Nat.zero_lt_one, by
      obtain ha | ha := List.mem_append.mp ha
      · exact .inl (List.mem_singleton.mp ha ▸ hkey)
      · exact .inr (hcells a ha)⟩) (by omega) (.inl rfl)
  refine ⟨w', ?_⟩
  rw [writeRows, hnext]
  dsimp only
  rw [hcellp, hcellr, keyRel_row hroot hp hkey]
  dsimp only
  rw [if_neg (not_not_intro rfl), if_pos rfl, hskip, hloop]

end Loop

/-! ## The parent key -/

section Handed

variable {env : Environment} {cb : Callback} {delim : UInt8} {P : Path} {owner : Option Str} {name : ℕ → CString} {w : World}
  {p : KeyRef} {first : Key} {ks : List Key} {rows : List (List Str)}

/-- The keys are handed to the plugin, with a parent key of its own. -/
structure Handed (w : World) (p : KeyRef) (P : Path) (keys : List Key) : Prop where
  keys : w.ks.array.map w.cell = keys
  apart : p ∉ w.ks.array
  parent : HasName (w.cell p) P
  callback : callbackPointer (w.cell p) = none

theorem ksLookup_named (hroot : P.root ≠ .cascading) (h : HasName (w.cell p) P) (fuel : ℕ) :
    ksLookup cb (fuel + 1) w p { pop := true } = .ok (elektraLookupSearch cb w p { pop := true }) := by
  refine @ksLookup_search w p { pop := true } cb fuel P.name rfl rfl rfl rfl h.key ?_
  have hhead : P.name.head? ≠ some pathSeparator := fun hhead => hroot (P.head_name.mp hhead)
  simpa [direct] using hhead

theorem elektraLookupBinarySearch_eq {found : ℕ}
    (h : Bisect.halfOpen (fun i : ℕ => ((w.ks.array.map w.cell)[i]?).elim .lt (keyCompareByName (w.cell p)))
      (w.ks.array.map w.cell).length = some found) :
    elektraLookupBinarySearch w p { pop := true } =
      ((elektraKsPopAtCursor w.heap w.ks found).1,
        ⟨(elektraKsPopAtCursor w.heap w.ks found).2.1, (elektraKsPopAtCursor w.heap w.ks found).2.2⟩) := by
  have hsearch : bsearch w p (lookupCompare { pop := true }) = some found := by
    rw [← h, bsearch, List.length_map]
    have horder : (fun i : ℕ => (w.ks.array[i]?).elim .lt fun k => lookupCompare { pop := true } (w.cell p) (w.cell k)) =
        fun i : ℕ => ((w.ks.array.map w.cell)[i]?).elim .lt (keyCompareByName (w.cell p)) := by
      funext i
      rw [List.getElem?_map]
      cases w.ks.array[i]? <;> rfl
    rw [horder]
    rfl
  rw [elektraLookupBinarySearch, hsearch]
  rfl

/-- **The key of the parent key is taken out.** -/
theorem ksLookup_parent (hroot : P.root ≠ .cascading) (h : Handed w p P (first :: ks)) (hvalid : ValidKeys (first :: ks))
    (hfirst : HasName first P) (hks : ∀ k ∈ ks, k.ukey ≠ P.uname) (fuel : ℕ) :
    ∃ f rest w', w.ks.array = f :: rest ∧ rest.map w.cell = ks ∧
      ksLookup cb (fuel + 1) w p { pop := true } = .ok (some f, w') ∧ Writing w.cell p (w'.del f) [] rest := by
  obtain ⟨hkeys, hapart, hparent, hcallback⟩ := h
  obtain ⟨f, rest, harray, hf, hrest⟩ := List.map_eq_cons_iff.mp hkeys
  have hfound : Bisect.halfOpen (fun i => ((w.ks.array.map w.cell)[i]?).elim .lt (keyCompareByName (w.cell p)))
      (w.ks.array.map w.cell).length = some 0 := by
    rw [hkeys]
    refine hvalid.halfOpen_name hparent rfl hfirst fun k hk hu => ?_
    obtain rfl | hk := List.mem_cons.mp hk
    · rfl
    · exact absurd hu (hks k hk)
  have hnodup : (f :: rest).Nodup := by
    have hsorted := hvalid.sorted.nodup
    rw [← hkeys, harray] at hsorted
    exact hsorted.of_map
  have hget : w.ks.array[0]? = some f := by rw [harray]; rfl
  obtain ⟨hpop, hrewound, hleft⟩ := @popAtCursor_ks w.ks f w.heap 0 hget
  have hheap := @popAtCursor_heap w.heap w.ks 0 f hget
  have hsearch := elektraLookupBinarySearch_eq hfound
  rw [harray] at hapart hleft
  have hne : p ≠ f := fun he => hapart (he ▸ List.mem_cons_self)
  have hcell : ∀ k, k ≠ f → (keyDecRef w.heap f).cell k = w.heap.cell k := fun k hk => set_cell_ne hk
  have hlookup := @ksLookup_named cb P w p hroot hparent fuel
  rw [Nat.cast_zero] at hpop hrewound hleft hheap
  refine ⟨f, rest, ⟨(elektraKsPopAtCursor w.heap w.ks 0).2.1, (elektraKsPopAtCursor w.heap w.ks 0).2.2⟩, harray, hrest, ?_, ?_⟩
  · have hnone : callbackPointer ((elektraKsPopAtCursor w.heap w.ks 0).2.1.cell p) = none := by
      rw [hheap, hcell p hne]
      exact hcallback
    rw [hlookup, elektraLookupSearch, hsearch]
    dsimp only
    rw [World.cell, Nat.cast_zero, hnone, hpop]
  · refine ⟨hleft, hrewound, (List.nodup_cons.mp hnodup).2, fun hin => hapart (List.mem_cons_of_mem f hin), fun k hk => ?_⟩
    have hkf : k ≠ f := by
      obtain rfl | hk := hk
      · exact hne
      · exact fun he => (List.nodup_cons.mp hnodup).1 (he ▸ hk)
    have hdel : (keyDel (elektraKsPopAtCursor w.heap w.ks 0).2.1 f).cell k =
        (elektraKsPopAtCursor w.heap w.ks 0).2.1.cell k := by
      rw [keyDel]
      split_ifs <;> rfl
    exact hdel.trans (by rw [hheap]; exact hcell k hkf)

/-- What the code writes. -/
def written (useHeader : Bool) (rows : List (List Str)) : List (List Str) := if useHeader then rows.tail else rows

/-- **The rows are written**, where the header is skipped without the first one. -/
theorem csvWrite_rows {c : ℕ} {useHeader : Bool} {value : Str} (hroot : P.root ≠ .cascading) (hc : c < 10 ^ 13)
    (hvalid : ValidKeys (first :: ks)) (hfirst : Entry first P owner none value) (h : Rows P owner name 0 rows ks)
    (hrows : ∀ row ∈ rows, row.length = c ∧ row ≠ []) (hw : Handed w p P (first :: ks)) (fuel : ℕ) :
    ∃ w', csvWrite env cb (fuel + 1) (.ok ()) w p delim useHeader =
      some (1, (written useHeader rows).flatMap (rowLine delim), w') := by
  have hks : ∀ k ∈ ks, k.ukey ≠ P.uname := fun k hk he => by
    obtain ⟨j, -, hrow⟩ := h.ofRow k hk
    obtain hname | ⟨s, hname⟩ := hrow
    · exact add_ne P _ (Path.uname_injective (he.symm.trans hname.ukey))
    · have hparts := congrArg (fun Q : Path => Q.parts.length) (Path.uname_injective (he.symm.trans hname.ukey))
      simp [Path.add] at hparts
  obtain ⟨f, rest, w₁, harray, hrest, hlookup, hwriting⟩ :=
    @ksLookup_parent cb P w p first ks hroot hw hvalid hfirst.name hks fuel
  have hfuel : rest.length < (w₁.del f).ks.size + 1 := by
    rw [KeySet.size, hwriting.array]
    exact Nat.lt_succ_self _
  rw [csvWrite, hlookup]
  dsimp only [Option.elim_some]
  cases useHeader with
  | false =>
    obtain ⟨w', hloop⟩ := @writeRows_rows env delim P owner name w.cell p [] c hroot hw.parent hc 0 rows ks h (w₁.del f) rest
      _ 0 0 [] hrest hrows hwriting (fun a ha => absurd ha List.not_mem_nil) hfuel (.inl rfl)
    exact ⟨w', hloop⟩
  | true =>
    cases rows with
    | nil =>
      cases h
      obtain rfl := List.map_eq_nil_iff.mp hrest
      exact writeRows_nil hwriting true _ 0 0 []
    | cons row rows =>
      obtain ⟨w', hloop⟩ := @writeRows_skip env delim P owner name w.cell p c hroot hw.parent hc row rows ks h (w₁.del f) rest
        _ [] hrest (fun row' hrow' => hrows row' (List.mem_cons_of_mem row hrow')) hwriting hfuel
      exact ⟨w', hloop⟩

theorem csvWrite_nil (hroot : P.root ≠ .cascading) (h : Handed w p P []) (useHeader : Bool) (fuel : ℕ) :
    ∃ w', csvWrite env cb (fuel + 1) (.ok ()) w p delim useHeader = some (1, [], w') := by
  obtain ⟨hkeys, -, hparent, hcallback⟩ := h
  have harray := List.map_eq_nil_iff.mp hkeys
  have hsearch : elektraLookupSearch cb w p { pop := true } =
      (none, { w with ks := ksSetCursor w.ks (ksGetCursor w.ks) }) := by
    have hnone : bsearch w p (lookupCompare { pop := true }) = none := by
      rw [bsearch, KeySet.size, harray]
      rfl
    have hcell : callbackPointer (World.cell { w with ks := ksSetCursor w.ks (ksGetCursor w.ks) } p) = none := hcallback
    rw [elektraLookupSearch, elektraLookupBinarySearch, hnone]
    dsimp only
    rw [hcell]
  have hnext : ksNext (ksSetCursor w.ks (ksGetCursor w.ks)) = (none, ksSetCursor w.ks (ksGetCursor w.ks)) := by
    rw [ksNext_eq, if_pos]
    rw [KeySet.size, setCursor_array, harray]
    rfl
  rw [csvWrite, ksLookup_named hroot hparent, hsearch]
  dsimp only [Option.elim_none]
  rw [writeRows]
  dsimp only
  rw [hnext]
  exact ⟨_, rfl⟩

end Handed

end Elektra.Csvstorage
