import Elektra.KeySet.CutCursor
import Elektra.Lookup.Cursor
import Elektra.Plugin.Csvstorage

/-!
# Tables of the csvstorage plugin

* `Dir`, `Entry`: the keys that the code goes on with, and those in the key set;
* `Header`: the columns are found by their numbers;
* `Segment`, `Rows`: the keys of a row and of several;
-/

namespace Elektra.Csvstorage

open Ease

/-! ## Keys -/

/-- A key that the code works with; `owner` is that of the parent key. -/
structure Dir (key : Key) (Q : Path) (owner order : Option Str) : Prop where
  name : HasName key Q
  roName : key.roName = false
  unlocked : Unlocked key
  owner : keyGetMeta key (str "owner") = owner
  order : keyGetMeta key csvOrder = order

/-- A key in a key set. -/
structure Entry (key : Key) (Q : Path) (owner order : Option Str) (value : Str) : Prop where
  name : HasName key Q
  locked : key.roName = true
  owner : keyGetMeta key (str "owner") = owner
  order : keyGetMeta key csvOrder = order
  value : keyString key = value

section Keys

variable {key : Key} {P Q : Path} {owner order : Option Str} {value : Str}

theorem Entry.ident (h : Entry key Q owner order value) : ident key = (Q.uname, owner) := by
  rw [Elektra.ident, h.name.ukey, h.owner]

theorem Entry.valid (h : Entry key Q owner order value) : ValidKey key :=
  ⟨h.name.sized, by rw [h.name.key]; exact Option.some_ne_none _, h.locked⟩

theorem Dir.dup (h : Dir key Q owner order) : Dir (keyDup key) Q owner order :=
  ⟨hasName_keyDup h.name, rfl, unlocked_keyDup key, h.owner, h.order⟩

theorem Dir.renamed {key' : Key} (h : Dir key P owner order) (hname : HasName key' Q) (hro : key'.roName = false)
    (hmeta : key'.metaKeys = key.metaKeys) (hroMeta : key'.roMeta = key.roMeta)
    (hroValue : key'.roValue = key.roValue) : Dir key' Q owner order where
  name := hname
  roName := hro
  unlocked := ⟨hroValue.trans h.unlocked.value, hroMeta.trans h.unlocked.metadata⟩
  owner := (congrArg (List.lookup (str "owner")) hmeta).trans h.owner
  order := (congrArg (List.lookup csvOrder) hmeta).trans h.order

theorem Dir.addBaseName (h : Dir key P owner order) (s : CString) : Dir (keyAddBaseName key (some s.1)).2 (P.add s) owner order := by
  obtain ⟨-, hro, hname⟩ := keyAddBaseName_spec h.name h.roName s
  have hfields : ∃ name, (keyAddBaseName key (some s.1)).2 = elektraFinalizeName key name := by
    simp only [keyAddBaseName, h.roName, h.name.key, Bool.false_eq_true, if_false]
    exact ⟨_, rfl⟩
  obtain ⟨name, hfields⟩ := hfields
  refine h.renamed hname hro ?_ ?_ ?_ <;> rw [hfields] <;> rfl

theorem Dir.addHash (h : Dir key P owner order) : Dir (keyAddName key (some (str "#"))).2 (P.add Line.hash) owner order := by
  have hname := Line.keyAddName_hash h.name h.roName
  obtain he | ⟨name, he⟩ := keyAddName_cases key (some (str "#"))
  · rw [he] at hname ⊢
    exact h.renamed hname h.roName rfl rfl rfl
  · rw [he] at hname ⊢
    exact h.renamed hname h.roName rfl rfl rfl

theorem Dir.incName {t : CString} {n : ℕ} (h : Dir key (P.add t) owner order)
    (hinc : incBaseName t.1 = some (some (elektraWriteArrayNumber n))) :
    ∃ key', Ease.elektraArrayIncName key = some (0, key') ∧ Dir key' (P.add (arrayName n)) owner order := by
  obtain ⟨-, hro, hname⟩ := keySetBaseName_spec h.name h.roName (arrayName n)
  obtain ⟨hmeta, hroMeta, hroValue⟩ := keySetBaseName_fields key (some (arrayName n).1)
  refine ⟨(keySetBaseName key (some (arrayName n).1)).2, ?_, h.renamed hname hro hmeta hroMeta hroValue⟩
  rw [Ease.elektraArrayIncName, keyBaseName_add h.name, hinc]
  rfl

theorem Dir.setString (h : Dir key Q owner order) (s : Str) : Dir (keySetString key s) Q owner order := by
  obtain ⟨-, -, -, hunlocked, -, hmeta⟩ := keySetString_spec h.unlocked s
  exact ⟨hasName_keySetString h.name s, (keySetString_roName key s).trans h.roName, hunlocked,
    (hmeta (str "owner") (by decide)).trans h.owner, (hmeta csvOrder (by decide)).trans h.order⟩

theorem Dir.entry (h : Dir key Q owner order) (h0 : 0 ∉ value) :
    Entry { keySetString key value with roName := true } Q owner order value := by
  obtain ⟨-, -, hdata, -, hbinary, -⟩ := keySetString_spec h.unlocked value
  have hset := h.setString value
  exact ⟨⟨hset.name.key, hset.name.keySize, hset.name.ukey, hset.name.keyUSize⟩, rfl, hset.owner, hset.order,
    keyString_of_data hbinary h0 hdata⟩

theorem Dir.ordered (h : Dir key Q owner order) (h0 : 0 ∉ value) (hdata : key.data = stringData value)
    (hbinary : keyIsBinary key = false) (n : Str) :
    Entry { (keySetMeta key csvOrder (some n)).2 with roName := true } Q owner (some n) value := by
  obtain ⟨l, b, he⟩ := keySetMeta_fields key csvOrder (some n)
  have hget := keyGetMeta_keySetMeta h.unlocked.metadata csvOrder (some n)
  rw [he] at hget
  rw [he]
  refine ⟨⟨h.name.key, h.name.keySize, h.name.ukey, h.name.keyUSize⟩, rfl, ?_, ?_, ?_⟩
  · exact (hget (str "owner")).trans h.owner
  · exact hget csvOrder
  · refine keyString_of_data ?_ h0 hdata
    exact (congrArg Option.isSome (hget (str "binary"))).trans hbinary

end Keys

/-! ## Numbers -/

theorem itostr_of_lt {n : ℕ} (h : n < 10 ^ 13) : itostr n = digits n :=
  List.take_of_length_le ((digits_length_le (by decide)).mpr h)

theorem itostr_injective {m n : ℕ} (hm : m < 10 ^ 13) (hn : n < 10 ^ 13) (h : itostr m = itostr n) : m = n := by
  rw [itostr_of_lt hm, itostr_of_lt hn] at h
  rw [← atoi_digits m, h, atoi_digits]

theorem itostr_ne_null (n : ℕ) : str "(null)" ≠ itostr n := by
  intro h
  have hmem : (40 : UInt8) ∈ itostr n := h ▸ List.mem_cons_self
  exact absurd (isdigit_digits n 40 (List.take_subset _ _ hmem)) (by decide)

section Columns

variable {name : ℕ → CString} {c : ℕ}

/-- Every key has the number of a column, and every column a key. -/
structure Numbered (ks : List Key) (c : ℕ) (Q : ℕ → Key → Prop) : Prop where
  number : ∀ k ∈ ks, (∃ j < c, keyGetMeta k csvOrder = some (itostr j) ∧ Q j k) ∨ keyGetMeta k csvOrder = none
  key : ∀ j < c, ∃ k ∈ ks, keyGetMeta k csvOrder = some (itostr j) ∧ Q j k

/-- **The key of a column is found by its number.** -/
theorem Numbered.find {ks : List Key} {Q : ℕ → Key → Prop} (h : Numbered ks c Q) (hc : c ≤ 10 ^ 13) :
    (∀ j < c, ∃ k ∈ ks, getKeyByOrderNr ks j = some k ∧ Q j k) ∧ (c < 10 ^ 13 → getKeyByOrderNr ks c = none) := by
  have hhit : ∀ j < 10 ^ 13, ∀ k ∈ ks, (keyGetMeta k csvOrder).getD (str "(null)") = itostr j → j < c ∧ Q j k := by
    intro j hj k hk he
    obtain ⟨i, hi, horder, hQ⟩ | hnone := h.number k hk
    · rw [horder, Option.getD_some] at he
      obtain rfl := itostr_injective (hi.trans_le hc) hj he
      exact ⟨hi, hQ⟩
    · rw [hnone, Option.getD_none] at he
      exact absurd he (itostr_ne_null j)
  constructor
  · intro j hj
    obtain ⟨k, hk, horder, -⟩ := h.key j hj
    have hsome : (getKeyByOrderNr ks j).isSome := by
      have hfound : (keyGetMeta k csvOrder).getD (str "(null)") = itostr j := by rw [horder, Option.getD_some]
      rw [getKeyByOrderNr, List.find?_isSome]
      exact ⟨k, hk, decide_eq_true hfound⟩
    obtain ⟨k', hk'⟩ := Option.isSome_iff_exists.mp hsome
    have hfind := hk'
    rw [getKeyByOrderNr] at hfind
    have hmem := List.mem_of_find?_eq_some hfind
    have hcond := List.find?_some hfind
    exact ⟨k', hmem, hk', (hhit j (hj.trans_le hc) k' hmem (of_decide_eq_true hcond)).2⟩
  · intro hlt
    rw [getKeyByOrderNr, List.find?_eq_none]
    intro k hk he
    exact lt_irrefl c (hhit c hlt k hk (of_decide_eq_true he)).1

end Columns

/-! ## Rows -/

/-- A key at or below the element `i`. -/
def InRow (P : Path) (owner : Option Str) (i : ℕ) (k : Key) : Prop :=
  ∃ r, ident k = ((P.add (arrayName i)).uname ++ r, owner)

/-- The keys of the row `i`. -/
structure Segment (P : Path) (owner : Option Str) (name : ℕ → CString) (i : ℕ) (row : List Str) (rowKey : Key)
    (cells : List Key) : Prop where
  element : ∃ value, Entry rowKey (P.add (arrayName i)) owner none value
  cell : ∀ k ∈ cells, ∃ j value, row[j]? = some value ∧
    Entry k ((P.add (arrayName i)).add (name j)) owner (some (itostr j)) value
  column : ∀ j value, row[j]? = some value → ∃ k ∈ cells,
    Entry k ((P.add (arrayName i)).add (name j)) owner (some (itostr j)) value

/-- The keys of rows from `i` on. -/
inductive Rows (P : Path) (owner : Option Str) (name : ℕ → CString) : ℕ → List (List Str) → List Key → Prop
  | nil (i : ℕ) : Rows P owner name i [] []
  | cons {i : ℕ} {row : List Str} {rows : List (List Str)} {rowKey : Key} {cells ks : List Key} :
      Segment P owner name i row rowKey cells → Rows P owner name (i + 1) rows ks →
      Rows P owner name i (row :: rows) (rowKey :: cells ++ ks)

section Rows

variable {P : Path} {owner : Option Str} {name : ℕ → CString} {i j : ℕ} {row : List Str} {rows : List (List Str)}
  {rowKey k k' : Key} {cells ks : List Key}

theorem compare_rows (P : Path) (hij : i < j) (r r' : Str) :
    compare ((P.add (arrayName i)).uname ++ r) ((P.add (arrayName j)).uname ++ r') = .lt :=
  compare_subtrees P ((compare_write i j).trans (Nat.compare_eq_lt.mpr hij)) r r'

theorem inRow_lt (hij : i < j) (hk : InRow P owner i k) (hk' : InRow P owner j k') :
    identCmp (ident k) (ident k') = .lt := by
  obtain ⟨r, hr⟩ := hk
  obtain ⟨r', hr'⟩ := hk'
  rw [hr, hr', identCmp_eq, compare_rows P hij]
  rfl

theorem not_hasName_of_inRow (hij : i < j) (hk : InRow P owner i k) (s : CString) :
    ¬ HasName k ((P.add (arrayName j)).add s) := fun hname => by
  obtain ⟨r, hr⟩ := hk
  have hcompare := compare_rows P hij r (s.1 ++ [0])
  have huname : k.ukey = (P.add (arrayName i)).uname ++ r := congrArg Prod.fst hr
  rw [← List.append_assoc, ← Path.uname_add, ← huname, hname.ukey, Std.ReflOrd.compare_self] at hcompare
  cases hcompare

theorem Segment.rowKey_inRow (h : Segment P owner name i row rowKey cells) : InRow P owner i rowKey := by
  obtain ⟨value, hrow⟩ := h.element
  exact ⟨[], by rw [hrow.ident, List.append_nil]⟩

theorem inRow_cell {order : Option Str} {value : Str} {s : CString}
    (h : Entry k ((P.add (arrayName i)).add s) owner order value) : InRow P owner i k :=
  ⟨s.1 ++ [0], by rw [h.ident, Path.uname_add, List.append_assoc]⟩

theorem Segment.inRow (h : Segment P owner name i row rowKey cells) : ∀ k ∈ rowKey :: cells, InRow P owner i k := by
  intro k hk
  obtain rfl | hk := List.mem_cons.mp hk
  · exact h.rowKey_inRow
  · obtain ⟨j, value, -, hentry⟩ := h.cell k hk
    exact inRow_cell hentry

theorem Segment.valid (h : Segment P owner name i row rowKey cells) : ∀ k ∈ rowKey :: cells, ValidKey k := by
  intro k hk
  obtain rfl | hk := List.mem_cons.mp hk
  · obtain ⟨value, hrow⟩ := h.element
    exact hrow.valid
  · obtain ⟨j, value, -, hentry⟩ := h.cell k hk
    exact hentry.valid

theorem Segment.lt (h : Segment P owner name i row rowKey cells) (hk : k ∈ cells) :
    identCmp (ident rowKey) (ident k) = .lt := by
  obtain ⟨value, hrow⟩ := h.element
  obtain ⟨j, value', -, hcell⟩ := h.cell k hk
  rw [hrow.ident, hcell.ident, identCmp_eq, compare_child]
  rfl

theorem ident_ne_of_lt (h : identCmp (ident k) (ident k') = .lt) : ident k ≠ ident k' := fun he => by
  rw [identCmp_eq_iff.mpr he] at h
  cases h

theorem Segment.append (h : Segment P owner name i row rowKey cells) (hcells : ValidKeys cells) (hks : ValidKeys ks)
    (hbefore : ∀ k ∈ ks, ∃ j < i, InRow P owner j k) : ValidKeys (ks ++ rowKey :: cells) := by
  have hlt : ∀ k ∈ ks, ∀ k' ∈ rowKey :: cells, identCmp (ident k) (ident k') = .lt := fun k hk k' hk' => by
    obtain ⟨j, hj, hrow⟩ := hbefore k hk
    exact inRow_lt hj hrow (h.inRow k' hk')
  refine .of_valid ?_ fun k hk => ?_
  · exact List.pairwise_append.mpr ⟨hks.sorted, List.pairwise_cons.mpr ⟨fun k hk => h.lt hk, hcells.sorted⟩, hlt⟩
  · obtain hk | hk := List.mem_append.mp hk
    · exact hks.valid hk
    · exact h.valid k hk

theorem Segment.not_hasName {c : ℕ} (h : Segment P owner name i row rowKey cells)
    (hname : ∀ j < c, ∀ j' < c, name j = name j' → j = j') (hlen : row.length + 1 = c) :
    ∀ k ∈ rowKey :: cells, ¬ HasName k ((P.add (arrayName i)).add (name (c - 1))) := fun k hk hlast => by
  obtain rfl | hk := List.mem_cons.mp hk
  · obtain ⟨value, hrow⟩ := h.element
    exact add_ne _ _ (hrow.name.unique hlast)
  · obtain ⟨j, value, hget, hcell⟩ := h.cell k hk
    have hj : j < row.length := (List.getElem?_eq_some_iff.mp hget).1
    have he := hname j (by omega) (c - 1) (by omega) (add_injective (hcell.name.unique hlast))
    omega

/-! ### One row is read -/

/-- A cell, as it is in the key set. -/
def cellKey (dirKey : Key) (name : ℕ → CString) (j : ℕ) (col : Str) : Key :=
  { (keySetMeta (keySetString (keyAddBaseName (keyDup dirKey) (some (name j).1)).2 col) csvOrder
      (some (itostr j))).2 with roName := true }

theorem entry_cellKey {dirKey : Key} {Q : Path} (h : Dir dirKey Q owner none) {col : Str} (h0 : 0 ∉ col) :
    Entry (cellKey dirKey name j col) (Q.add (name j)) owner (some (itostr j)) col := by
  have hadd := h.dup.addBaseName (name j)
  obtain ⟨-, -, hdata, -, hbinary, -⟩ := keySetString_spec hadd.unlocked col
  exact (hadd.setString col).ordered h0 hdata hbinary (itostr j)

/-- The columns are found, and have these names. -/
def Header (useHeader : ℤ) (header : List Key) (name : ℕ → CString) (c : ℕ) : Prop :=
  ∀ j < c, ∃ cur, getKeyByOrderNr header j = some cur ∧
    (if useHeader ≠ 1 then keyString cur else keyBaseName cur) = (name j).1

theorem rowBody_eq {useHeader : ℤ} {header : List Key} {c : ℕ} {dirKey parentKey : Key} {Q : Path}
    (hheader : Header useHeader header name c) (hj : j < c) (h : Dir dirKey Q owner none) {col last : Str} (h0 : 0 ∉ col) :
    rowBody useHeader header dirKey col j parentKey (ks, last) =
      some (ksAppendValue ks (cellKey dirKey name j col), (name j).1) := by
  obtain ⟨cur, hcur, hname⟩ := hheader j hj
  have hname' : (if useHeader ≠ 1 then some ((some cur).elim (str "(null)") keyString)
      else (some cur).map keyBaseName) = some (name j).1 := by
    rw [← hname]
    split_ifs <;> rfl
  have hentry := (@entry_cellKey owner name j dirKey Q h col h0).name
  rw [rowBody, hcur]
  dsimp only
  rw [hname']
  have hbase : keyBaseName (keySetMeta (keySetString (keyAddBaseName (keyDup dirKey) (some (name j).1)).2 col)
      csvOrder (some (itostr j))).2 = (name j).1 :=
    @keyBaseName_add _ Q (name j) ⟨hentry.key, hentry.keySize, hentry.ukey, hentry.keyUSize⟩
  rw [hbase]
  rfl

/-- **The loop over the columns of a row.** -/
theorem stepAll_row {useHeader : ℤ} {header : List Key} {c : ℕ} {dirKey parentKey : Key} {Q : Path}
    (hheader : Header useHeader header name c) (h : Dir dirKey Q owner none) : ∀ {cells : List Str} {j : ℕ} {ks : List Key}
    {last : Str}, (∀ x ∈ cells, 0 ∉ x) → j + cells.length ≤ c → 0 ∉ last →
    ∃ last', 0 ∉ last' ∧ stepAll (rowBody useHeader header dirKey) parentKey j cells (ks, last) =
      some ((cells.mapIdx fun i x => cellKey dirKey name (j + i) x).foldl ksAppendValue ks, last')
  | [], _, _, last, _, _, hlast => ⟨last, hlast, rfl⟩
  | x :: cells, j, ks, last, h0, hlen, _ => by
    rw [List.length_cons] at hlen
    obtain ⟨last', hlast', hrest⟩ := @stepAll_row useHeader header c dirKey parentKey Q hheader h cells (j + 1)
      (ksAppendValue ks (cellKey dirKey name j x)) (name j).1 (fun y hy => h0 y (List.mem_cons_of_mem x hy))
      (by omega) (name j).2
    refine ⟨last', hlast', ?_⟩
    have hindex : (fun i x => cellKey dirKey name (j + (i + 1)) x) = fun i x => cellKey dirKey name (j + 1 + i) x := by
      funext i x
      rw [Nat.add_assoc, Nat.add_comm 1]
    rw [stepAll, rowBody_eq hheader (by omega) h (h0 x List.mem_cons_self), Option.bind_some, hrest,
      List.mapIdx_cons, List.foldl_cons, hindex]
    rfl

/-- **The keys of a row that is read** are behind those before. -/
theorem read_segment {dirKey : Key} {c : ℕ} {last : Str} (hdir : Dir dirKey (P.add (arrayName i)) owner none)
    (hname : ∀ j < c, ∀ j' < c, name j = name j' → j = j') (h0 : ∀ x ∈ row, 0 ∉ x) (hlen : row.length ≤ c)
    (hlast : 0 ∉ last) (hks : ValidKeys ks) (hbefore : ∀ k ∈ ks, ∃ j < i, InRow P owner j k) :
    ∃ rowKey cells, ksAppendValue ((row.mapIdx fun j x => cellKey dirKey name j x).foldl ksAppendValue ks)
        (keyDup (keySetString dirKey last)) = ks ++ rowKey :: cells ∧
      Segment P owner name i row rowKey cells ∧ ValidKeys (ks ++ rowKey :: cells) := by
  set keys := row.mapIdx fun j x => cellKey dirKey name j x with hkeys
  have hmem : ∀ k, k ∈ keys ↔ ∃ j, ∃ value, row[j]? = some value ∧ k = cellKey dirKey name j value := by
    intro k
    rw [hkeys, List.mem_mapIdx]
    constructor
    · rintro ⟨j, hj, rfl⟩
      exact ⟨j, row[j], List.getElem?_eq_getElem hj, rfl⟩
    · rintro ⟨j, value, hget, rfl⟩
      obtain ⟨hj, rfl⟩ := List.getElem?_eq_some_iff.mp hget
      exact ⟨j, hj, rfl⟩
  have hentry : ∀ j value, row[j]? = some value →
      Entry (cellKey dirKey name j value) ((P.add (arrayName i)).add (name j)) owner (some (itostr j)) value :=
    fun j value hget => entry_cellKey hdir (h0 value (List.mem_of_getElem? hget))
  have hlt : ∀ j value, row[j]? = some value → j < c := fun j value hget =>
    (List.getElem?_eq_some_iff.mp hget).1.trans_le hlen
  have hvalid : ∀ key ∈ keys, ValidKey key := fun key hkey => by
    obtain ⟨j, value, hget, rfl⟩ := (hmem key).mp hkey
    exact (hentry j value hget).valid
  -- the cells have different names
  have hagree : Agree keys keys := fun key hkey key' hkey' he => by
    obtain ⟨j, value, hget, rfl⟩ := (hmem key).mp hkey
    obtain ⟨j', value', hget', rfl⟩ := (hmem key').mp hkey'
    rw [(hentry j value hget).ident, (hentry j' value' hget').ident] at he
    have hcompare := congrArg (compare ((P.add (arrayName i)).add (name j)).uname) (Prod.ext_iff.mp he).1
    rw [Std.ReflOrd.compare_self, compare_siblings, eq_comm, Std.LawfulEqOrd.compare_eq_iff_eq] at hcompare
    obtain rfl := hname j (hlt j value hget) j' (hlt j' value' hget') (Subtype.ext hcompare)
    rw [hget] at hget'
    cases hget'
    rfl
  have hrow : ∀ key ∈ keys, InRow P owner i key := fun key hkey => by
    obtain ⟨j, value, hget, rfl⟩ := (hmem key).mp hkey
    exact inRow_cell (hentry j value hget)
  have hfresh : Agree ks keys := fun key hkey key' hkey' he => by
    obtain ⟨j, hj, hin⟩ := hbefore key hkey
    exact absurd he (ident_ne_of_lt (inRow_lt hj hin (hrow key' hkey')))
  obtain ⟨hcells, hcellsmem⟩ := foldl_append_spec validKeys_nil hvalid hagree fun key hkey => absurd hkey List.not_mem_nil
  obtain ⟨hall, hallmem⟩ := foldl_append_spec hks hvalid hagree hfresh
  have hrowEntry := (hdir.entry hlast : Entry _ (P.add (arrayName i)) owner none last)
  have hdup : Entry { keyDup (keySetString dirKey last) with roName := true } (P.add (arrayName i)) owner none last :=
    ⟨⟨hrowEntry.name.key, hrowEntry.name.keySize, hrowEntry.name.ukey, hrowEntry.name.keyUSize⟩, rfl,
      hrowEntry.owner, hrowEntry.order, hrowEntry.value⟩
  have hsegment : Segment P owner name i row { keyDup (keySetString dirKey last) with roName := true }
      (keys.foldl ksAppendValue []) := by
    refine ⟨⟨last, hdup⟩, fun k hk => ?_, fun j value hget => ?_⟩
    · obtain hk | hk := (hcellsmem k).mp hk
      · cases hk
      · obtain ⟨j, value, hget, rfl⟩ := (hmem k).mp hk
        exact ⟨j, value, hget, hentry j value hget⟩
    · exact ⟨_, (hcellsmem _).mpr (.inr ((hmem _).mpr ⟨j, value, hget, rfl⟩)), hentry j value hget⟩
  have hresult := hsegment.append hcells hks hbefore
  refine ⟨_, _, ?_, hsegment, hresult⟩
  have hnamed : (keyDup (keySetString dirKey last)).key ≠ none := hdup.valid.named
  have hsized : Sized (keyDup (keySetString dirKey last)) := hdup.valid.sized
  obtain ⟨hput, hputmem⟩ := ksAppendValue_put hall hsized hnamed
  refine hput.eq_of_mem hresult fun k => ?_
  rw [hputmem, hallmem, List.mem_append, List.mem_cons, hcellsmem]
  have hne : k ∈ ks ∨ k ∈ keys → ident k ≠ ident (keyDup (keySetString dirKey last)) := by
    have hident : ident (keyDup (keySetString dirKey last)) = ident { keyDup (keySetString dirKey last) with roName := true } := rfl
    rw [hident]
    rintro (hk | hk)
    · obtain ⟨j, hj, hin⟩ := hbefore k hk
      exact ident_ne_of_lt (inRow_lt hj hin hsegment.rowKey_inRow)
    · exact (ident_ne_of_lt (hsegment.lt ((hcellsmem k).mpr (.inr hk)))).symm
  have hnil : k ∉ ([] : List Key) := List.not_mem_nil
  tauto

end Rows

/-! ## Files -/

section Files

variable {env : Environment} {delim : UInt8} {P : Path} {owner : Option Str} {name : ℕ → CString} {useHeader : ℤ}
  {header : List Key} {content : Str} {columns fixColumnCount : ℕ}

/-- A row of the table. -/
structure IsRow (delim : UInt8) (columns : ℕ) (row : List Str) : Prop where
  cells : ∀ x ∈ row, IsCell delim x
  length : row.length = columns
  ne : row ≠ []

/-- A row as a line. -/
def rowLine (delim : UInt8) (row : List Str) : Str := joined delim row ++ [newline]

/-- The loop is at the row `i`. -/
structure Reading (P : Path) (owner : Option Str) (i : ℕ) (dirKey : Key) (ks : List Key) : Prop where
  valid : ValidKeys ks
  before : ∀ k ∈ ks, ∃ j < i, InRow P owner j k
  dir : ∃ t : CString, Dir dirKey (P.add t) owner none ∧ incBaseName t.1 = some (some (elektraWriteArrayNumber i))

theorem getLineLength_line {l t : Str} {pos : ℕ} (hcontent : content.drop pos = l ++ newline :: t)
    (hfits : content.length ≤ INT_MAX) (hline : l.length + 1 < INT_MAX) (hnl : newline ∉ l) (h0 : 0 ∉ l) :
    getLineLength content pos = some (l.length + 2) := by
  have hlen := congrArg List.length hcontent
  rw [List.length_drop, List.length_append, List.length_cons] at hlen
  rw [getLineLength, hcontent, lineFrom_line hnl h0, List.length_append, List.length_singleton]
  rw [if_neg (by omega), if_neg (by omega), if_neg (by omega)]

/-- **One row.** -/
theorem readRows_row {pos lineCounter fuel i : ℕ} {dirKey parentKey : Key} {ks : List Key} {row : List Str} {t : Str}
    (hdelim : delim ≠ 0) (hnl : delim ≠ newline) (hheader : Header useHeader header name columns)
    (hname : ∀ j < columns, ∀ j' < columns, name j = name j' → j = j')
    (hrow : IsRow delim columns row) (hcontent : content.drop pos = rowLine delim row ++ t)
    (hfits : content.length ≤ INT_MAX) (hline : (rowLine delim row).length < INT_MAX) (hi : i + 1 < 10 ^ 10)
    (h : Reading P owner i dirKey ks) :
    ∃ rowKey cells dirKey', Segment P owner name i row rowKey cells ∧
      Reading P owner (i + 1) dirKey' (ks ++ rowKey :: cells) ∧
      readRows env delim useHeader header content columns fixColumnCount (fuel + 1) pos lineCounter dirKey parentKey ks =
        readRows env delim useHeader header content columns fixColumnCount fuel (pos + (rowLine delim row).length)
          (lineCounter + 1) dirKey' parentKey (ks ++ rowKey :: cells) := by
  obtain ⟨u, hdir, hinc⟩ := h.dir
  obtain ⟨dirKey₁, hnext, hdir₁⟩ := hdir.incName hinc
  obtain ⟨hnewline, h0⟩ := isCell_joined hnl hrow.cells hdelim
  have h0s : ∀ x ∈ row, 0 ∉ x := fun x hx => (hrow.cells x hx).nul
  have hbytes : (joined delim row).length + 1 < INT_MAX := by
    rwa [rowLine, List.length_append, List.length_singleton] at hline
  have hdrop : content.drop pos = joined delim row ++ newline :: t := by
    rw [hcontent, rowLine, List.append_assoc]
    rfl
  have hcount : row.length < (rowLine delim row).length + 2 := by
    have := length_joined delim hrow.ne
    rw [rowLine, List.length_append, List.length_singleton]
    omega
  obtain ⟨last, hlast, hstep⟩ := @stepAll_row owner name useHeader header columns dirKey₁ parentKey _ hheader hdir₁
    row 0 ks (str "#0") h0s (by rw [hrow.length, Nat.zero_add]) (by decide)
  have heach := @eachColumn_line env delim parentKey lineCounter (List Key × Str)
    (rowBody useHeader header dirKey₁) hdelim hnl row [] 0 ((rowLine delim row).length + 2) (ks, str "#0")
    hrow.ne hrow.cells hcount
  simp only [Nat.zero_add] at hstep
  rw [hstep, List.nil_append, List.length_nil, Option.map_some, Nat.zero_add, hrow.length, ← rowLine] at heach
  obtain ⟨rowKey, cells, hks, hsegment, hvalid⟩ :=
    read_segment hdir₁ hname h0s hrow.length.le hlast h.valid h.before
  refine ⟨rowKey, cells, keySetString dirKey₁ last, hsegment, ⟨hvalid, fun k hk => ?_, ?_⟩, ?_⟩
  · obtain hk | hk := List.mem_append.mp hk
    · obtain ⟨j, hj, hin⟩ := h.before k hk
      exact ⟨j, Nat.lt_succ_of_lt hj, hin⟩
    · exact ⟨i, Nat.lt_succ_self i, hsegment.inRow k hk⟩
  · have hnext' := incBaseName_write (Nat.lt_of_succ_lt hi)
    rw [if_pos hi] at hnext'
    exact ⟨arrayName i, hdir₁.setString last, hnext'⟩
  · rw [readRows, getLineLength_line hdrop hfits hbytes hnewline h0, hnext, hdrop]
    dsimp only
    rw [if_neg (by omega), if_neg (by decide), fgets_line hnewline, ← rowLine, heach]
    dsimp only
    rw [if_neg fun hne => hne.1 rfl, if_neg (not_not_intro rfl), hks]

theorem rowLine_pos (delim : UInt8) (row : List Str) : 0 < (rowLine delim row).length := by
  rw [rowLine, List.length_append]
  exact Nat.lt_add_left _ Nat.one_pos

/-- **The rows of the lines that end with a newline.** -/
theorem readRows_lines (hdelim : delim ≠ 0) (hnl : delim ≠ newline) (hheader : Header useHeader header name columns)
    (hname : ∀ j < columns, ∀ j' < columns, name j = name j' → j = j') (hfits : content.length ≤ INT_MAX)
    {parentKey : Key} : ∀ {rows : List (List Str)} {pos lineCounter fuel i : ℕ} {dirKey : Key} {ks : List Key} {t : Str},
    (∀ row ∈ rows, IsRow delim columns row ∧ (rowLine delim row).length < INT_MAX) →
    content.drop pos = rows.flatMap (rowLine delim) ++ t → i + rows.length < 10 ^ 10 → Reading P owner i dirKey ks →
    ∃ ks' dirKey', Rows P owner name i rows ks' ∧ Reading P owner (i + rows.length) dirKey' (ks ++ ks') ∧
      readRows env delim useHeader header content columns fixColumnCount (fuel + rows.length) pos lineCounter dirKey
          parentKey ks =
        readRows env delim useHeader header content columns fixColumnCount fuel
          (pos + (rows.flatMap (rowLine delim)).length) (lineCounter + rows.length) dirKey' parentKey (ks ++ ks')
  | [], pos, lineCounter, fuel, i, dirKey, ks, t, _, _, _, h =>
    ⟨[], dirKey, .nil i, by rwa [List.append_nil], by rw [List.append_nil]; rfl⟩
  | row :: rows, pos, lineCounter, fuel, i, dirKey, ks, t, hrows, hcontent, hi, h => by
    obtain ⟨hrow, hline⟩ := hrows row List.mem_cons_self
    rw [List.length_cons] at hi
    rw [List.flatMap_cons, List.append_assoc] at hcontent
    obtain ⟨rowKey, cells, dirKey₁, hsegment, hreading, hread⟩ := @readRows_row env delim P owner name useHeader header
      content columns fixColumnCount pos lineCounter (fuel + rows.length) i dirKey parentKey ks row _ hdelim hnl hheader
      hname hrow hcontent hfits hline (by omega) h
    have hrest : content.drop (pos + (rowLine delim row).length) = rows.flatMap (rowLine delim) ++ t := by
      rw [← List.drop_drop, hcontent, List.drop_left]
    obtain ⟨ks', dirKey', hks', hreading', hread'⟩ := @readRows_lines hdelim hnl hheader hname hfits parentKey rows
      (pos + (rowLine delim row).length) (lineCounter + 1) fuel (i + 1) dirKey₁ (ks ++ rowKey :: cells) t
      (fun row' hrow' => hrows row' (List.mem_cons_of_mem row hrow')) hrest (by omega) hreading
    refine ⟨rowKey :: cells ++ ks', dirKey', .cons hsegment hks', ?_, ?_⟩
    · rw [List.length_cons, Nat.add_comm rows.length, ← Nat.add_assoc, ← List.append_assoc]
      exact hreading'
    · rw [List.length_cons, ← Nat.add_assoc, hread, hread', List.flatMap_cons, List.length_append, ← List.append_assoc,
        Nat.add_assoc, Nat.add_assoc lineCounter, Nat.add_comm 1]

theorem readRows_end {pos lineCounter fuel : ℕ} {dirKey parentKey : Key} {ks : List Key} (hcontent : content.drop pos = [])
    (hpos : pos ≤ INT_MAX) :
    readRows env delim useHeader header content columns fixColumnCount (fuel + 1) pos lineCounter dirKey parentKey ks =
      some (1, ks, parentKey, dirKey) := by
  have hlength : getLineLength content pos = some 0 := by
    have hnil : lineFrom [] = [] := rfl
    rw [getLineLength, hcontent, hnil, List.length_nil, Nat.add_zero, if_neg (not_lt.mpr hpos), if_pos rfl]
  rw [readRows, hlength]
  rfl

theorem readRows_fits : ∀ {fuel pos lineCounter : ℕ} {dirKey parentKey dirKey' parentKey' : Key} {ks ks' : List Key} {ret : ℤ},
    readRows env delim useHeader header content columns fixColumnCount fuel pos lineCounter dirKey parentKey ks =
      some (ret, ks', parentKey', dirKey') → ret ≠ -1 → pos ≤ content.length → content.length ≤ INT_MAX
  | 0, _, _, _, _, _, _, _, _, _, h, _, _ => by cases h
  | fuel + 1, pos, lineCounter, dirKey, parentKey, dirKey', parentKey', ks, ks', ret, h, hret, hpos => by
    rw [readRows] at h
    cases hlength : getLineLength content pos with
    | none =>
      rw [hlength] at h
      cases h
    | some length =>
      rw [hlength] at h
      dsimp only at h
      split_ifs at h with hzero
      · obtain ⟨hmax, hnil⟩ := getLineLength_zero (hzero ▸ hlength)
        exact (List.drop_eq_nil_iff.mp hnil).trans hmax
      · have hle : pos + (fgets (content.drop pos) length).length ≤ content.length := by
          have := fgets_length_le (content.drop pos) length
          rw [List.length_drop] at this
          omega
        split at h
        · cases h
        · split_ifs at h with hone
          · cases h
            exact absurd rfl hret
          · split at h
            · cases h
            · split_ifs at h
              · cases h
                exact absurd rfl hret
              · exact readRows_fits h hret hle
              · exact readRows_fits h hret hle

theorem joined_eq_nil : ∀ {row : List Str}, row ≠ [] → joined delim row = [] → row = [[]]
  | [], h, _ => absurd rfl h
  | [x], _, h => by rwa [joined, List.intercalate_singleton, ← List.singleton_inj] at h
  | x :: y :: row, _, h => by
    rw [joined_cons (List.cons_ne_nil y row)] at h
    cases (List.append_eq_nil_iff.mp h).2

/-- What is missing: the last cell of the row `i`, which is empty. -/
structure Unread (P : Path) (name : ℕ → CString) (i columns : ℕ) (row : List Str) (ks : List Key) (dirKey : Key) :
    Prop where
  last : row.getLast? = some []
  missing : ∀ k ∈ ks, ¬ HasName k ((P.add (arrayName i)).add (name (columns - 1)))
  dir : ∃ t : CString, t.1 ≠ [] ∧ HasName dirKey (P.add t)

/-- **A line that does not end with a newline**: the byte behind it is read, or its last cell is not. -/
theorem readRows_unterminated {pos lineCounter fuel i : ℕ} {dirKey parentKey dirKey' parentKey' : Key} {ks ks' : List Key}
    {row : List Str} {ret : ℤ} (hdelim : delim ≠ 0) (hnl : delim ≠ newline)
    (hheader : Header useHeader header name columns)
    (hname : ∀ j < columns, ∀ j' < columns, name j = name j' → j = j') (hrow : IsRow delim columns row)
    (hcontent : content.drop pos = joined delim row) (h : Reading P owner i dirKey ks)
    (hread : readRows env delim useHeader header content columns fixColumnCount fuel pos lineCounter dirKey parentKey ks =
      some (ret, ks', parentKey', dirKey')) (hret : ret ≠ -1) :
    Unread P name i columns row ks' dirKey' := by
  have hbefore : ∀ k ∈ ks, ¬ HasName k ((P.add (arrayName i)).add (name (columns - 1))) := fun k hk => by
    obtain ⟨j, hj, hin⟩ := h.before k hk
    exact not_hasName_of_inRow hj hin _
  obtain ⟨hnewline, h0⟩ := isCell_joined hnl hrow.cells hdelim
  obtain ⟨u, hdir, hinc⟩ := h.dir
  obtain ⟨dirKey₁, hnext, hdir₁⟩ := hdir.incName hinc
  obtain _ | fuel := fuel
  · cases hread
  rw [readRows] at hread
  cases hlength : getLineLength content pos with
  | none =>
    rw [hlength] at hread
    cases hread
  | some length =>
    rw [hlength, hnext] at hread
    dsimp only at hread
    by_cases hzero : length = 0
    · rw [if_pos hzero] at hread
      cases hread
      have hnil := (getLineLength_zero (hzero ▸ hlength)).2
      refine ⟨?_, hbefore, u, fun he => ?_, hdir.name⟩
      · rw [joined_eq_nil hrow.ne (hcontent.symm.trans hnil)]
        rfl
      · rw [he] at hinc
        cases hinc
    · have hsize : length = (joined delim row).length + 1 := by
        rw [getLineLength, hcontent, lineFrom_open hnewline h0] at hlength
        split_ifs at hlength
        · exact absurd (Option.some.inj hlength).symm hzero
        · exact (Option.some.inj hlength).symm
      rw [if_neg hzero, if_neg (by decide), hcontent, hsize, fgets_open hnewline] at hread
      obtain ⟨init, x, hsplit⟩ : ∃ init x, row = init ++ [x] :=
        ⟨_, _, (List.dropLast_append_getLast hrow.ne).symm⟩
      by_cases hx : x = []
      · subst hx
        have hinit : init ≠ [] := fun hnil => by
          rw [hnil, List.nil_append] at hsplit
          rw [hsplit, joined, List.intercalate_singleton] at hcontent
          have hzero' : getLineLength content pos = some 0 ∨ getLineLength content pos = none := by
            have hnil : lineFrom [] = [] := rfl
            rw [getLineLength, hcontent, hnil, List.length_nil, Nat.add_zero]
            by_cases hmax : INT_MAX < pos
            · exact .inr (if_pos hmax)
            · rw [if_neg hmax, if_pos rfl]
              exact .inl rfl
          rw [hlength] at hzero'
          obtain he | he := hzero'
          · exact hzero (Option.some.inj he)
          · cases he
        have hcount : init.length + 1 = columns := by
          rw [← hrow.length, hsplit, List.length_append, List.length_singleton]
        have hcells : ∀ y ∈ init, IsCell delim y := fun y hy => hrow.cells y (hsplit ▸ List.mem_append_left _ hy)
        have hfuel : init.length < (joined delim row).length + 2 := by
          have := length_joined delim hrow.ne
          rw [hrow.length] at this
          omega
        obtain ⟨last, hlast, hstep⟩ := @stepAll_row owner name useHeader header columns dirKey₁ parentKey _ hheader
          hdir₁ init 0 ks (str "#0") (fun y hy => (hcells y hy).nul) (by omega) (by decide)
        have hcut := @eachColumn_cut env delim parentKey lineCounter (List Key × Str)
          (rowBody useHeader header dirKey₁) hdelim hnl init [] 0 ((joined delim row).length + 2) (ks, str "#0") hcells hfuel
        simp only [Nat.zero_add] at hstep
        rw [hstep, ← hsplit, List.nil_append, List.length_nil, Option.map_some, Nat.zero_add] at hcut
        obtain ⟨rowKey, cells, hks, hsegment, hvalid⟩ :=
          read_segment hdir₁ hname (fun y hy => (hcells y hy).nul) (by omega) hlast h.valid h.before
        rw [hcut] at hread
        dsimp only at hread
        split_ifs at hread with hfix
        · cases hread
          exact absurd rfl hret
        all_goals
          rw [hks] at hread
          have hdrop := congrArg List.length hcontent
          rw [List.length_drop] at hdrop
          have hpos : pos + (joined delim row).length ≤ content.length := by
            have := length_joined delim hrow.ne
            rw [hrow.length] at this
            have := List.length_pos_of_ne_nil hinit
            omega
          have hmax := readRows_fits hread hret hpos
          have hend : content.drop (pos + (joined delim row).length) = [] := by
            rw [← List.drop_drop, hcontent, List.drop_length]
          obtain _ | fuel := fuel
          · cases hread
          rw [readRows_end hend (hpos.trans hmax)] at hread
          cases hread
          refine ⟨by rw [hsplit, List.getLast?_concat], fun k hk => ?_, arrayName i, List.cons_ne_nil _ _,
            (hdir₁.setString last).name⟩
          obtain hk | hk := List.mem_append.mp hk
          · exact hbefore k hk
          · exact hsegment.not_hasName hname hcount k hk
      · have hopen := @eachColumn_open env delim lineCounter (List Key × Str) (rowBody useHeader header dirKey₁) hdelim hnl
          row [] 0 ((joined delim row).length + 2) (ks, str "#0") parentKey hrow.cells
          ⟨x, by rw [hsplit, List.getLast?_concat], hx⟩
        rw [List.nil_append, List.length_nil] at hopen
        rw [hopen] at hread
        cases hread

end Files

end Elektra.Csvstorage
