import Elektra.Plugin.CsvWrite

/-!
# Tables through the csvstorage plugin

A file is read into one key for each cell where its last line ends with a newline: else the byte behind it is
read, or its last cell is not. What was read is written again but for the first row where the header is
skipped, although that was not read.

* `content`, `ReadsTable`: the file of a table, and its keys;
* **`csv_roundTrip_iff`**.
-/

namespace Elektra.Csvstorage

open Ease

/-! ## Tables -/

/-- The file of a table. -/
def content (delim : UInt8) (rows : List (List Str)) (final : Bool) : Str :=
  if final then rows.flatMap (rowLine delim) else joined newline (rows.map (joined delim))

/-- The rows that belong to the table, by what is configured as `/header`. -/
def tableRows (header : Option Str) (rows : List (List Str)) : List (List Str) :=
  if header = some (str "skip") then rows.tail else rows

/-- The cell of the row `i` and the column `j`. -/
def CellAt (rows : List (List Str)) (i j : ℕ) (value : Str) : Prop := ∃ row, rows[i]? = some row ∧ row[j]? = some value

/-- **One key for each cell, and no others** but those of the rows and the parent key. -/
structure ReadsTable (P : Path) (name : ℕ → CString) (rows : List (List Str)) (keys : List Key) : Prop where
  cell : ∀ i j value, CellAt rows i j value → ∃ k ∈ keys, HasName k ((P.add (arrayName i)).add (name j)) ∧
    keyString k = value ∧ ∀ k' ∈ keys, HasName k' ((P.add (arrayName i)).add (name j)) → k' = k
  only : ∀ k ∈ keys, HasName k P ∨ (∃ i < rows.length, HasName k (P.add (arrayName i))) ∨
    ∃ i j value, CellAt rows i j value ∧ HasName k ((P.add (arrayName i)).add (name j))

section Tables

variable {env : Environment} {delim : UInt8} {P : Path} {owner : Option Str} {name : ℕ → CString} {header : Option Str}
  {rows : List (List Str)} {parentKey first : Key} {ks keys : List Key} {columns fixColumnCount : ℕ} {value : Str}

theorem content_nil (final : Bool) : content delim [] final = [] := by
  cases final <;> rfl

theorem content_open (delim : UInt8) (last : List Str) : ∀ init : List (List Str),
    content delim (init ++ [last]) false = init.flatMap (rowLine delim) ++ joined delim last
  | [] => by
    rw [content, if_neg Bool.false_ne_true, List.nil_append, List.map_singleton, joined, List.intercalate_singleton]
    rfl
  | row :: init => by
    have ih := content_open delim last init
    have hne : (init ++ [last]).map (joined delim) ≠ [] := by simp
    rw [content, if_neg Bool.false_ne_true] at ih ⊢
    rw [List.cons_append, List.map_cons, joined_cons hne, ih, List.flatMap_cons, rowLine, List.append_assoc,
      List.append_assoc]
    rfl

theorem dataRows_eq (header : Option Str) (rows : List (List Str)) :
    dataRows (getUseHeader header) rows = tableRows header rows := by
  rw [dataRows, tableRows, getUseHeader]
  by_cases hcolname : header = some (str "colname")
  · rw [if_pos hcolname, if_pos (.inl rfl), if_neg (by rw [hcolname]; decide)]
  · rw [if_neg hcolname]
    by_cases hskip : header = some (str "skip")
    · rw [if_pos hskip, if_pos hskip, if_neg (by decide)]
    · rw [if_neg hskip, if_neg hskip, if_pos (.inr rfl)]

theorem setUseHeader_eq (header : Option Str) : setUseHeader header = decide (header = some (str "skip")) := by
  rw [setUseHeader]
  cases header with
  | none => decide
  | some s => exact decide_eq_decide.mpr (by rw [Option.getD_some, Option.some_inj])

/-! ## The keys of the rows -/

theorem Rows.cellKey {i : ℕ} (h : Rows P owner name i rows ks) : ∀ {n j : ℕ} {value : Str}, CellAt rows n j value →
    ∃ k ∈ ks, Entry k ((P.add (arrayName (i + n))).add (name j)) owner (some (itostr j)) value := by
  induction h with
  | nil =>
    rintro n j value ⟨row, hrow, -⟩
    cases hrow
  | @cons i row rows rowKey cells ks hsegment _ ih =>
    rintro n j value ⟨row', hrow, hget⟩
    obtain _ | n := n
    · cases hrow
      obtain ⟨k, hk, hcell⟩ := hsegment.column j value hget
      exact ⟨k, List.mem_append_left _ (List.mem_cons_of_mem _ hk), hcell⟩
    · obtain ⟨k, hk, hcell⟩ := ih ⟨row', hrow, hget⟩
      rw [Nat.add_assoc, Nat.add_comm 1] at hcell
      exact ⟨k, List.mem_append_right _ hk, hcell⟩

theorem Rows.only {i : ℕ} (h : Rows P owner name i rows ks) : ∀ k ∈ ks, keyGetMeta k (str "owner") = owner ∧
    ((∃ n < rows.length, HasName k (P.add (arrayName (i + n)))) ∨
      ∃ n j value, CellAt rows n j value ∧ HasName k ((P.add (arrayName (i + n))).add (name j))) := by
  induction h with
  | nil => exact fun k hk => absurd hk List.not_mem_nil
  | @cons i row rows rowKey cells ks hsegment _ ih =>
    intro k hk
    obtain hk | hk := List.mem_append.mp hk
    · obtain rfl | hk := List.mem_cons.mp hk
      · obtain ⟨value, hrow⟩ := hsegment.element
        exact ⟨hrow.owner, .inl ⟨0, Nat.succ_pos _, hrow.name⟩⟩
      · obtain ⟨j, value, hget, hcell⟩ := hsegment.cell k hk
        exact ⟨hcell.owner, .inr ⟨0, j, value, ⟨row, rfl, hget⟩, hcell.name⟩⟩
    · obtain ⟨howner, ⟨n, hn, hname⟩ | ⟨n, j, value, ⟨row', hrow, hget⟩, hname⟩⟩ := ih k hk
      · refine ⟨howner, .inl ⟨n + 1, Nat.succ_lt_succ hn, ?_⟩⟩
        rwa [Nat.add_comm n, ← Nat.add_assoc]
      · refine ⟨howner, .inr ⟨n + 1, j, value, ⟨row', hrow, hget⟩, ?_⟩⟩
        rwa [Nat.add_comm n, ← Nat.add_assoc]

/-- **The keys of the rows are those of the cells.** -/
theorem Rows.readsTable (h : Rows P owner name 0 rows ks) (hfirst : Entry first P owner none value)
    (hvalid : ValidKeys (first :: ks)) : ReadsTable P name rows (first :: ks) := by
  refine ⟨fun i j value hcell => ?_, fun k hk => ?_⟩
  · obtain ⟨k, hk, hentry⟩ := h.cellKey hcell
    rw [Nat.zero_add] at hentry
    refine ⟨k, List.mem_cons_of_mem _ hk, hentry.name, hentry.value, fun k' hk' hname => ?_⟩
    have howner : keyGetMeta k' (str "owner") = owner := by
      obtain rfl | hk' := List.mem_cons.mp hk'
      · exact hfirst.owner
      · exact (h.only k' hk').1
    refine hvalid.sorted.unique hk' (List.mem_cons_of_mem _ hk) ?_
    rw [hentry.ident, ident, hname.ukey, howner]
  · obtain rfl | hk := List.mem_cons.mp hk
    · exact .inl hfirst.name
    · obtain ⟨-, ⟨n, hn, hname⟩ | ⟨n, j, value, hcell, hname⟩⟩ := h.only k hk
      · rw [Nat.zero_add] at hname
        exact .inr (.inl ⟨n, hn, hname⟩)
      · rw [Nat.zero_add] at hname
        exact .inr (.inr ⟨n, j, value, hcell, hname⟩)

theorem readsTable_nil (h : ∀ k ∈ keys, HasName k P) : ReadsTable P name [] keys :=
  ⟨fun _ _ _ ⟨_, hrow, _⟩ => (by cases hrow), fun k hk => .inl (h k hk)⟩

theorem exists_handed (P : Path) (keys : List Key) : ∃ w p, Handed w p P keys := by
  have hcell : ∀ i (hi : i < keys.length),
      (Heap.ofList (keys ++ [elektraFinalizeName keyNew P.name])).cell i = keys[i] := fun i hi => by
    simp [Heap.ofList, List.getD_eq_getElem?_getD, List.getElem?_append_left hi, hi]
  have hparent : (Heap.ofList (keys ++ [elektraFinalizeName keyNew P.name])).cell keys.length =
      elektraFinalizeName keyNew P.name := by
    simp [Heap.ofList, List.getD_eq_getElem?_getD]
  refine ⟨⟨Heap.ofList (keys ++ [elektraFinalizeName keyNew P.name]), ⟨List.range keys.length, 0, none, 0, false⟩⟩,
    keys.length, ?_, fun h => ?_, ?_, ?_⟩
  · refine List.ext_getElem (by simp) fun i hi hi' => ?_
    rw [List.getElem_map, List.getElem_range]
    exact hcell i hi'
  · exact lt_irrefl _ (List.mem_range.mp h)
  · rw [World.cell, hparent]
    exact hasName_finalize keyNew P
  · rw [World.cell, hparent]
    rfl

/-! ## The round trip -/

variable (env delim P parentKey header fixColumnCount) in
/-- **The table is read, and what was read is written.** -/
def RoundTrip (rows : List (List Str)) (final : Bool) : Prop :=
  ∃ ret keys parentKey', csvRead env (some (content delim rows final)) [] parentKey delim (getUseHeader header)
      fixColumnCount none = some (ret, keys, parentKey') ∧ ret ≠ -1 ∧
    ReadsTable P (columnTitle (getUseHeader header) rows) (tableRows header rows) keys ∧
    ∀ w p, Handed w p P keys → ∃ w', csvWrite env noCallback 1 (.ok ()) w p delim (setUseHeader header) =
      some (1, (tableRows header rows).flatMap (rowLine delim), w')

theorem flatMap_tail_ne {row : List Str} : (rows.flatMap (rowLine delim)) ≠ (row :: rows).flatMap (rowLine delim) :=
  fun he => by
    have hlen := congrArg List.length he
    have hpos := rowLine_pos delim row
    rw [List.flatMap_cons, List.length_append] at hlen
    omega

theorem roundTrip_nil {ret : ℤ} {parentKey' : Key} {final : Bool} (hroot : P.root ≠ .cascading)
    (hdata : tableRows header rows = []) (hread : csvRead env (some (content delim rows final)) [] parentKey delim
      (getUseHeader header) fixColumnCount none = some (ret, keys, parentKey')) (hret : ret ≠ -1)
    (hkeys : keys = [] ∨ ∃ first value, keys = [first] ∧ Entry first P owner none value ∧ ValidKeys [first]) :
    RoundTrip env delim P header parentKey fixColumnCount rows final := by
  refine ⟨ret, keys, parentKey', hread, hret, ?_, fun w p hw => ?_⟩
  · rw [hdata]
    refine readsTable_nil fun k hk => ?_
    obtain rfl | ⟨first, value, rfl, hfirst, -⟩ := hkeys
    · cases hk
    · exact List.mem_singleton.mp hk ▸ hfirst.name
  · rw [hdata]
    obtain rfl | ⟨first, value, rfl, hfirst, hvalid⟩ := hkeys
    · exact csvWrite_nil hroot hw _ 0
    · obtain ⟨w', hwrite⟩ := @csvWrite_rows env noCallback delim P owner (columnTitle 0 []) w p first [] [] 0
        (setUseHeader header) value hroot (by decide) hvalid hfirst (.nil 0) (fun row hrow => absurd hrow List.not_mem_nil)
        hw 0
      refine ⟨w', ?_⟩
      rw [hwrite, written]
      split_ifs <;> rfl

theorem getUseHeader_skip : getUseHeader (some (str "skip")) = -1 := by decide

theorem roundTrip_empty (h : Table delim columns (getUseHeader header) rows) (hparent : Parent P parentKey)
    (hroot : P.root ≠ .cascading) (hfix : fixColumnCount = 0 ∨ fixColumnCount = columns) {final : Bool}
    (hfits : Fits (content delim rows final)) (hdata : tableRows header rows = []) :
    RoundTrip env delim P header parentKey fixColumnCount rows final := by
  have hnil : content delim rows final = [] → RoundTrip env delim P header parentKey fixColumnCount rows final :=
    fun hcontent => @roundTrip_nil env delim P none header rows parentKey [] fixColumnCount (-2) _ final hroot hdata
      (by rw [hcontent]; exact csvRead_nil) (by decide) (.inl rfl)
  obtain _ | ⟨row, rows⟩ := rows
  · exact hnil (content_nil final)
  · have hskip : header = some (str "skip") := by
      by_contra hskip
      rw [tableRows, if_neg hskip] at hdata
      cases hdata
    have hrows : rows = [] := by rwa [tableRows, if_pos hskip] at hdata
    subst hskip hrows
    cases final with
    | true =>
      obtain ⟨first, ks, value, hread, hfirst, hvalid, hks⟩ := @csvRead_lines env delim P parentKey _ columns fixColumnCount
        row [] h hparent hfix hfits
      rw [dataRows_eq, hdata] at hks
      cases hks
      exact roundTrip_nil hroot hdata hread (by decide) (.inr ⟨first, value, rfl, hfirst, hvalid⟩)
    | false =>
      have hcontent : content delim [row] false = joined delim row := content_open delim row []
      by_cases hne : joined delim row = []
      · exact hnil (hcontent.trans hne)
      · rw [hcontent] at hfits
        obtain ⟨first, value, hread, hfirst, hvalid⟩ := @csvRead_skipped env delim P parentKey _ columns fixColumnCount row h
          hparent hfix hfits hne (by rw [getUseHeader_skip]; decide)
        exact roundTrip_nil hroot hdata (by rw [hcontent]; exact hread) (by decide)
          (.inr ⟨first, value, rfl, hfirst, hvalid⟩)

theorem columns_lt {row : List Str} (h : Table delim columns (getUseHeader header) (row :: rows))
    (hfits : Fits ((row :: rows).flatMap (rowLine delim))) : columns < 10 ^ 13 := by
  have hrow := h.row row List.mem_cons_self
  have hlen := length_joined delim hrow.ne
  have hle := hfits.1
  have hmax : INT_MAX + 1 < 10 ^ 13 := by decide
  rw [hrow.length] at hlen
  rw [List.flatMap_cons, List.length_append, rowLine, List.length_append, List.length_singleton] at hle
  omega

theorem roundTrip_lines (h : Table delim columns (getUseHeader header) rows) (hparent : Parent P parentKey)
    (hroot : P.root ≠ .cascading) (hfix : fixColumnCount = 0 ∨ fixColumnCount = columns)
    (hfits : Fits (content delim rows true)) (hne : rows ≠ []) (hskip : header ≠ some (str "skip")) :
    RoundTrip env delim P header parentKey fixColumnCount rows true := by
  obtain ⟨row, rows, rfl⟩ := List.exists_cons_of_ne_nil hne
  obtain ⟨first, ks, value, hread, hfirst, hvalid, hks⟩ := @csvRead_lines env delim P parentKey _ columns fixColumnCount
    row rows h hparent hfix hfits
  have hrows : tableRows header (row :: rows) = row :: rows := if_neg hskip
  rw [dataRows_eq, hrows] at hks
  refine ⟨1, first :: ks, parentKey, hread, by decide, ?_, fun w p hw => ?_⟩
  · rw [hrows]
    exact hks.readsTable hfirst hvalid
  · obtain ⟨w', hwrite⟩ := @csvWrite_rows env noCallback delim P _ _ w p first ks (row :: rows) columns
      (setUseHeader header) value hroot (columns_lt h hfits) hvalid hfirst hks
      (fun row' hrow' => ⟨(h.row row' hrow').length, (h.row row' hrow').ne⟩) hw 0
    refine ⟨w', ?_⟩
    rw [hwrite, setUseHeader_eq, decide_eq_false hskip, hrows]
    rfl

/-- **The last line needs its newline.** -/
theorem not_roundTrip_open (h : Table delim columns (getUseHeader header) rows) (hparent : Parent P parentKey)
    (hfix : fixColumnCount = 0 ∨ fixColumnCount = columns) (hdata : tableRows header rows ≠ []) :
    ¬ RoundTrip env delim P header parentKey fixColumnCount rows false := by
  rintro ⟨ret, keys, parentKey', hread, hret, hkeys, -⟩
  obtain rfl | ⟨init, last, rfl⟩ := List.eq_nil_or_concat' rows
  · rw [tableRows] at hdata
    split_ifs at hdata <;> exact hdata rfl
  · rw [content_open] at hread
    rw [← dataRows_eq] at hdata hkeys
    obtain ⟨hlast, hmissing⟩ := csvRead_open h hparent hfix hdata hread hret
    have hlen := (h.row last (List.mem_append_right _ List.mem_cons_self)).length
    have hcell : CellAt (dataRows (getUseHeader header) (init ++ [last]))
        ((dataRows (getUseHeader header) (init ++ [last])).length - 1) (columns - 1) [] := by
      refine ⟨last, ?_, ?_⟩
      · rw [← List.getLast?_eq_getElem?, dataRows]
        rw [dataRows] at hdata
        split_ifs with hheader
        · exact List.getLast?_concat
        · rw [if_neg hheader] at hdata
          rw [List.getLast?_tail, if_neg, List.getLast?_concat]
          intro hone
          exact hdata (List.length_eq_zero_iff.mp (by rw [List.length_tail]; omega))
      · rw [← hlen, ← List.getLast?_eq_getElem?]
        exact hlast
    obtain ⟨k, hk, hname, hvalue, -⟩ := hkeys.cell _ _ _ hcell
    exact hmissing k hk hname hvalue

/-- **The first row is lost** where the header is skipped. -/
theorem not_roundTrip_skip (h : Table delim columns (getUseHeader (some (str "skip"))) rows) (hparent : Parent P parentKey)
    (hroot : P.root ≠ .cascading) (hfix : fixColumnCount = 0 ∨ fixColumnCount = columns)
    (hdata : tableRows (some (str "skip")) rows ≠ []) :
    ¬ RoundTrip env delim P (some (str "skip")) parentKey fixColumnCount rows true := by
  rintro ⟨ret, keys, parentKey', hread, hret, -, hwritten⟩
  have hfits := csvRead_fits hread hret
  obtain _ | ⟨row, rows⟩ := rows
  · exact hdata rfl
  obtain ⟨first, ks, value, hlines, hfirst, hvalid, hks⟩ := @csvRead_lines env delim P parentKey _ columns fixColumnCount
    row rows h hparent hfix hfits
  have hcontent : content delim (row :: rows) true = (row :: rows).flatMap (rowLine delim) := rfl
  rw [hcontent, hlines] at hread
  cases hread
  obtain ⟨row', rows', hrows⟩ := List.exists_cons_of_ne_nil hdata
  rw [dataRows_eq] at hks
  obtain ⟨w, p, hw⟩ := exists_handed P (first :: ks)
  have hall : ∀ r ∈ tableRows (some (str "skip")) (row :: rows), r.length = columns ∧ r ≠ [] := fun r hr => by
    have hr' := h.row r (List.mem_of_mem_tail (by rwa [tableRows, if_pos rfl] at hr))
    exact ⟨hr'.length, hr'.ne⟩
  obtain ⟨w₁, hwrite⟩ := @csvWrite_rows env noCallback delim P _ _ w p first ks _ columns (setUseHeader (some (str "skip")))
    value hroot (columns_lt h hfits) hvalid hfirst hks hall hw 0
  obtain ⟨w₂, hwrite'⟩ := hwritten w p hw
  rw [hwrite, hrows, setUseHeader_eq, decide_eq_true rfl, written, if_pos rfl, List.tail_cons] at hwrite'
  exact flatMap_tail_ne (Prod.ext_iff.mp (Prod.ext_iff.mp (Option.some.inj hwrite')).2).1

/-- **Exactly when a table goes through the plugin.** -/
theorem csv_roundTrip_iff (h : Table delim columns (getUseHeader header) rows) (hparent : Parent P parentKey)
    (hroot : P.root ≠ .cascading) (hfix : fixColumnCount = 0 ∨ fixColumnCount = columns) (final : Bool) :
    RoundTrip env delim P header parentKey fixColumnCount rows final ↔ Fits (content delim rows final) ∧
        (tableRows header rows = [] ∨ final = true ∧ header ≠ some (str "skip")) := by
  constructor
  · intro hround
    obtain ⟨ret, keys, parentKey', hread, hret, -⟩ := id hround
    refine ⟨csvRead_fits hread hret, or_iff_not_imp_left.mpr fun hdata => ?_⟩
    have hfinal : final = true := by
      by_contra hopen
      obtain rfl := Bool.eq_false_of_not_eq_true hopen
      exact not_roundTrip_open h hparent hfix hdata hround
    subst hfinal
    refine ⟨rfl, fun hskip => ?_⟩
    subst hskip
    exact not_roundTrip_skip h hparent hroot hfix hdata hround
  · rintro ⟨hfits, hcase⟩
    by_cases hdata : tableRows header rows = []
    · exact roundTrip_empty h hparent hroot hfix hfits hdata
    · obtain ⟨rfl, hskip⟩ := hcase.resolve_left hdata
      refine roundTrip_lines h hparent hroot hfix hfits (fun hnil => hdata ?_) hskip
      rw [hnil, tableRows, if_neg hskip]

end Tables

/-! ## One row -/

def oneRow : List (List Str) := [[str "a", str "b"]]

theorem isCell_letter {x : Str} (h : x = str "a" ∨ x = str "b") : IsCell 44 x := by
  obtain rfl | rfl := h <;> exact ⟨by decide, by decide, by decide⟩

theorem table_oneRow (header : Option Str) : Table 44 2 (getUseHeader header) oneRow where
  nul := by decide
  line := by decide
  row row h := by
    obtain rfl := List.mem_singleton.mp h
    exact ⟨fun x hx => isCell_letter (by simpa using hx), rfl, List.cons_ne_nil _ _⟩
  named _ row h := by
    cases h
    exact ⟨by decide, by decide⟩

theorem csv_roundTrip_oneRow : RoundTrip Line.unreported 44 Line.userLine (some (str "colname")) Line.userKey 2 oneRow true :=
  (csv_roundTrip_iff (table_oneRow _) ⟨hasName_finalize keyNew Line.userLine, by decide⟩ (Root.ns_ne _) (.inr rfl)
    true).mpr ⟨⟨by decide +kernel, by decide +kernel⟩, .inr ⟨rfl, by decide⟩⟩

/-- Without the newline, the byte behind the line is read. -/
theorem not_csv_roundTrip : ¬ RoundTrip Line.unreported 44 Line.userLine none Line.userKey 0 oneRow false := by
  rintro ⟨ret, keys, parentKey', hread, -⟩
  have hnone : (csvRead Line.unreported (some (content 44 oneRow false)) [] Line.userKey 44 (getUseHeader none) 0
      none).isNone = true := by decide +kernel
  rw [hread] at hnone
  cases hnone

end Elektra.Csvstorage
