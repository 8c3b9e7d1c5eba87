import Elektra.Plugin.CsvTable

/-!
# csvRead

* `Titles`: the keys of the header, from `arrayHeader` or from the first line;
* `csvRead_lines`: a file whose lines end with a newline;
* `csvRead_open`: one whose last line does not; `csvRead_fits`: one that is read at all.
-/

namespace Elektra.Csvstorage

open Ease

/-! ## The header -/

section Header

variable {env : Environment} {delim : UInt8} {P : Path} {owner : Option Str} {name : ℕ → CString} {useHeader : ℤ}
  {header : List Key} {key parentKey : Key} {c : ℕ}

/-- The key of the column `j`. -/
structure Title (P : Path) (owner : Option Str) (useHeader : ℤ) (name : ℕ → CString) (j : ℕ) (k : Key) : Prop where
  ident : ident k = ((P.add (name j)).uname, owner)
  order : keyGetMeta k csvOrder = some (itostr j)
  name : (if useHeader ≠ 1 then keyString k else keyBaseName k) = (name j).1

/-- The keys of the columns up to `c`. -/
structure Titles (P : Path) (owner : Option Str) (useHeader : ℤ) (name : ℕ → CString) (header : List Key) (c : ℕ) :
    Prop where
  valid : ValidKeys header
  title : ∀ k ∈ header, ∃ j < c, Title P owner useHeader name j k
  key : ∀ j < c, ∃ k ∈ header, Title P owner useHeader name j k

theorem titles_nil : Titles P owner useHeader name [] 0 :=
  ⟨validKeys_nil, fun _ hk => absurd hk List.not_mem_nil, fun j hj => absurd hj (Nat.not_lt_zero j)⟩

/-- **One column more.** -/
theorem Titles.put (h : Titles P owner useHeader name header c)
    (hkey : Title P owner useHeader name c { key with roName := true }) (hsized : Sized key) (hnamed : key.key ≠ none)
    (hname : ∀ j < c, name j ≠ name c) : Titles P owner useHeader name (ksAppendValue header key) (c + 1) := by
  obtain ⟨hvalid, hmem⟩ := ksAppendValue_put h.valid hsized hnamed
  refine ⟨hvalid, fun k hk => ?_, fun j hj => ?_⟩
  · obtain rfl | ⟨hk, -⟩ := (hmem k).mp hk
    · exact ⟨c, Nat.lt_succ_self c, hkey⟩
    · obtain ⟨j, hj, htitle⟩ := h.title k hk
      exact ⟨j, Nat.lt_succ_of_lt hj, htitle⟩
  · obtain hj | rfl := Nat.lt_succ_iff_lt_or_eq.mp hj
    · obtain ⟨k, hk, htitle⟩ := h.key j hj
      refine ⟨k, (hmem k).mpr (.inr ⟨hk, fun he => ?_⟩), htitle⟩
      have hident : ident key = ((P.add (name c)).uname, owner) := hkey.ident
      rw [htitle.ident, hident, Prod.mk.injEq, Path.uname_injective.eq_iff] at he
      exact hname j hj (add_injective he.1)
    · exact ⟨_, (hmem _).mpr (.inl rfl), hkey⟩

theorem Titles.found (h : Titles P owner useHeader name header c) (hc : c ≤ 10 ^ 13) :
    Header useHeader header name c := by
  have hnumbered : Numbered header c fun j k =>
      (if useHeader ≠ 1 then keyString k else keyBaseName k) = (name j).1 := by
    refine ⟨fun k hk => .inl ?_, fun j hj => ?_⟩
    · obtain ⟨j, hj, htitle⟩ := h.title k hk
      exact ⟨j, hj, htitle.order, htitle.name⟩
    · obtain ⟨k, hk, htitle⟩ := h.key j hj
      exact ⟨k, hk, htitle.order, htitle.name⟩
  intro j hj
  obtain ⟨k, -, hfind, hk⟩ := (hnumbered.find hc).1 j hj
  exact ⟨k, hfind, hk⟩

theorem Dir.numbered {Q : Path} {order : Option Str} (h : Dir key Q owner order) (n : Str) :
    Dir (keySetMeta key csvOrder (some n)).2 Q owner (some n) := by
  obtain ⟨l, b, he⟩ := keySetMeta_fields key csvOrder (some n)
  have hget := keyGetMeta_keySetMeta h.unlocked.metadata csvOrder (some n)
  rw [he] at hget
  rw [he]
  exact ⟨⟨h.name.key, h.name.keySize, h.name.ukey, h.name.keyUSize⟩, h.roName, ⟨h.unlocked.value, h.unlocked.metadata⟩,
    (hget (str "owner")).trans h.owner, hget csvOrder⟩

theorem Dir.sized {Q : Path} {order : Option Str} (h : Dir key Q owner order) : Sized key := h.name.sized

theorem Dir.named {Q : Path} {order : Option Str} (h : Dir key Q owner order) : key.key ≠ none := by
  rw [h.name.key]
  exact Option.some_ne_none _

theorem arrayName_injective {m n : ℕ} (h : arrayName m = arrayName n) : m = n := by
  have hcompare : compare m n = .eq := by
    rw [← compare_write, Std.LawfulEqOrd.compare_eq_iff_eq]
    exact congrArg Subtype.val h
  exact Nat.compare_eq_eq.mp hcompare

/-- **The columns without a header line.** -/
theorem arrayHeader_titles (hheader : useHeader ≠ 1) : ∀ {n j : ℕ} {key : Key} {header : List Key} {order : Option Str},
    (∃ t : CString, Dir key (P.add t) owner order ∧ incBaseName t.1 = some (some (elektraWriteArrayNumber j))) →
    j + n < 10 ^ 10 → Titles P owner useHeader arrayName header j →
    ∃ header', arrayHeader none n j key header = some (some header') ∧
      Titles P owner useHeader arrayName header' (j + n)
  | 0, _, _, header, _, _, _, h => ⟨header, rfl, h⟩
  | n + 1, j, key, header, order, hkey, hn, h => by
    obtain ⟨t, hdir, hinc⟩ := hkey
    obtain ⟨key', hnext, hdir'⟩ := hdir.incName hinc
    have hnumbered := hdir'.numbered (itostr j)
    have hbase := keyBaseName_add hnumbered.name
    have hset := hnumbered.setString (arrayName j).1
    have hentry := hnumbered.entry (arrayName j).2
    have htitle : Title P owner useHeader arrayName j
        { keyDup (keySetString (keySetMeta key' csvOrder (some (itostr j))).2 (arrayName j).1) with roName := true } :=
      ⟨hentry.ident, hentry.order, by rw [if_pos hheader]; exact hentry.value⟩
    have hput := h.put htitle hset.dup.sized hset.dup.named fun i hi he =>
      absurd (arrayName_injective he) (Nat.ne_of_lt hi)
    have hstep := @incBaseName_write j (by omega)
    rw [if_pos (by omega)] at hstep
    obtain ⟨header', hrest, htitles⟩ := @arrayHeader_titles hheader n (j + 1) _ _ _ ⟨arrayName j, hset, hstep⟩
      (by omega) hput
    refine ⟨header', ?_, by rwa [Nat.add_right_comm] at htitles⟩
    rw [arrayHeader, hnext]
    dsimp only
    rw [if_neg (by decide), hbase]
    exact hrest

/-- **The columns of a header line.** -/
theorem headerBody_titles (hdir : Dir (keyDup parentKey) P owner none) :
    ∀ {cells : List Str} {j : ℕ} {header : List Key}, (∀ i x, cells[i]? = some x → (name (j + i)).1 = x) →
    (∀ i < j + cells.length, ∀ i' < j + cells.length, name i = name i' → i = i') →
    Titles P owner 1 name header j →
    ∃ header', stepAll (headerBody none) parentKey j cells header = some header' ∧
      Titles P owner 1 name header' (j + cells.length)
  | [], _, header, _, _, h => ⟨header, rfl, h⟩
  | x :: cells, j, header, hcells, hname, h => by
    have hx : (name j).1 = x := hcells 0 x rfl
    have hnumbered := (hdir.addBaseName (name j)).numbered (itostr j)
    rw [hx] at hnumbered
    have htitle : Title P owner 1 name j
        { (keySetMeta (keyAddBaseName (keyDup parentKey) (some x)).2 csvOrder (some (itostr j))).2 with
          roName := true } := by
      have hident : ident (keySetMeta (keyAddBaseName (keyDup parentKey) (some x)).2 csvOrder (some (itostr j))).2 =
          ((P.add (name j)).uname, owner) := by
        rw [ident, hnumbered.name.ukey, hnumbered.owner]
      have hlocked : HasName { (keySetMeta (keyAddBaseName (keyDup parentKey) (some x)).2 csvOrder
          (some (itostr j))).2 with roName := true } (P.add (name j)) :=
        ⟨hnumbered.name.key, hnumbered.name.keySize, hnumbered.name.ukey, hnumbered.name.keyUSize⟩
      exact ⟨hident, hnumbered.order, keyBaseName_add hlocked⟩
    have hlen : j + 1 + cells.length = j + (x :: cells).length := by
      rw [List.length_cons]
      omega
    have hput := h.put htitle hnumbered.sized hnumbered.named fun i hi he =>
      absurd (hname i (by omega) j (by omega) he) (Nat.ne_of_lt hi)
    obtain ⟨header', hrest, htitles⟩ := @headerBody_titles hdir cells (j + 1) _
      (fun i y hy => by rw [Nat.add_assoc, Nat.add_comm 1]; exact hcells (i + 1) y hy) (by rwa [hlen]) hput
    refine ⟨header', ?_, by rwa [hlen] at htitles⟩
    rw [stepAll]
    exact hrest

end Header

/-! ## Files -/

section Files

variable {env : Environment} {delim : UInt8} {P : Path} {parentKey : Key} {useHeader : ℤ} {content : Str}
  {columns fixColumnCount : ℕ} {row : List Str} {rows : List (List Str)}

/-- A byte string up to a NUL. -/
def cut (s : Str) : CString :=
  ⟨s.takeWhile (· ≠ 0), fun h => by simpa using List.mem_takeWhile_imp h⟩

theorem cut_val {s : Str} (h : 0 ∉ s) : (cut s).1 = s :=
  List.takeWhile_eq_self_iff.mpr fun _ hc => decide_eq_true fun he => h (he ▸ hc)

/-- The name of a column. -/
def columnTitle (useHeader : ℤ) (rows : List (List Str)) (j : ℕ) : CString :=
  if useHeader = 1 then cut (((rows.head?.getD [])[j]?).getD []) else arrayName j

/-- The keys before that of the parent key is appended. -/
structure Parent (P : Path) (parentKey : Key) : Prop where
  name : HasName parentKey P
  order : keyGetMeta parentKey csvOrder = none

theorem Parent.dir (h : Parent P parentKey) :
    Dir (keyDup parentKey) P (keyGetMeta parentKey (str "owner")) none :=
  ⟨hasName_keyDup h.name, rfl, unlocked_keyDup parentKey, rfl, h.order⟩

/-- The file and its lines fit. -/
def Fits (content : Str) : Prop := content.length ≤ INT_MAX ∧ (lineFrom content).length < INT_MAX

theorem getLineLength_eq (h : Fits content) (hne : content ≠ []) :
    getLineLength content 0 = some ((lineFrom content).length + 1) := by
  have hpos : (lineFrom content).length ≠ 0 := fun h0 => hne (lineFrom_eq_nil (List.length_eq_zero_iff.mp h0))
  have hlt := h.2
  rw [getLineLength, List.drop_zero, if_neg (by omega), if_neg hpos, if_neg (by omega)]

theorem count_joined (hdelim : delim ≠ newline) : ∀ {row : List Str}, row ≠ [] → (∀ x ∈ row, IsCell delim x) →
    (joined delim row).count delim + 1 = row.length
  | [], h, _ => absurd rfl h
  | [x], _, h => by
    rw [joined, List.intercalate_singleton, List.count_eq_zero.mpr (h x List.mem_cons_self).delim]
    rfl
  | x :: y :: row, _, h => by
    have ih := count_joined hdelim (List.cons_ne_nil y row) fun z hz => h z (List.mem_cons_of_mem x hz)
    rw [joined_cons (List.cons_ne_nil y row), List.count_append, List.count_cons_self,
      List.count_eq_zero.mpr (h x List.mem_cons_self).delim, @List.length_cons _ x, ← ih]
    omega

theorem getColumnCount_row (hdelim : delim ≠ 0) (hnl : delim ≠ newline) (hrow : IsRow delim columns row) :
    getColumnCount (joined delim row) delim = columns ∧ getColumnCount (rowLine delim row) delim = columns := by
  obtain ⟨-, h0⟩ := isCell_joined hnl hrow.cells hdelim
  have hcount := count_joined hnl hrow.ne hrow.cells
  have hstop : (joined delim row).takeWhile (· ≠ 0) = joined delim row := cut_val h0
  have h0' : 0 ∉ rowLine delim row := by
    rw [rowLine, List.mem_append, not_or, List.mem_singleton]
    exact ⟨h0, by decide⟩
  have hstop' : (rowLine delim row).takeWhile (· ≠ 0) = rowLine delim row := cut_val h0'
  have hnone : [newline].count delim = 0 := List.count_eq_zero.mpr fun h => hnl (List.mem_singleton.mp h)
  constructor
  · rw [getColumnCount, hstop, hcount, hrow.length]
  · rw [getColumnCount, hstop', rowLine, List.count_append, hnone, Nat.add_zero, hcount, hrow.length]

/-- What is asked of the names in the first row. -/
def Named (useHeader : ℤ) (rows : List (List Str)) : Prop :=
  useHeader = 1 → ∀ row, rows.head? = some row → row.Nodup ∧ [] ∉ row

theorem columnTitle_injective (hnamed : Named useHeader (row :: rows)) (hrow : IsRow delim columns row) :
    ∀ j < columns, ∀ j' < columns, columnTitle useHeader (row :: rows) j = columnTitle useHeader (row :: rows) j' →
      j = j' := by
  intro j hj j' hj' he
  rw [columnTitle, columnTitle] at he
  by_cases hheader : useHeader = 1
  · obtain ⟨hnodup, -⟩ := hnamed hheader row rfl
    rw [← hrow.length] at hj hj'
    have he' := congrArg Subtype.val ((if_pos hheader).symm.trans (he.trans (if_pos hheader)))
    rw [List.head?_cons, Option.getD_some, List.getElem?_eq_getElem hj, List.getElem?_eq_getElem hj', Option.getD_some,
      Option.getD_some, cut_val (hrow.cells _ (List.getElem_mem hj)).nul,
      cut_val (hrow.cells _ (List.getElem_mem hj')).nul] at he'
    exact (List.Nodup.getElem_inj_iff hnodup).mp he'
  · rw [if_neg hheader, if_neg hheader] at he
    exact arrayName_injective he

theorem readHeader_array (hparent : Parent P parentKey) (hheader : useHeader ≠ 1) (hcolumns : columns < 10 ^ 10)
    (rows : List (List Str)) (lineBuffer : Str) :
    ∃ header, readHeader env delim none useHeader lineBuffer columns parentKey = some (some (header, parentKey)) ∧
      Header useHeader header (columnTitle useHeader rows) columns := by
  obtain ⟨header, heq, htitles⟩ := @arrayHeader_titles P (keyGetMeta parentKey (str "owner")) useHeader hheader columns
    0 _ [] none ⟨Line.hash, hparent.dir.addHash, incBaseName_start⟩ (by omega) titles_nil
  have hname : columnTitle useHeader rows = arrayName := by
    funext j
    exact if_neg hheader
  refine ⟨header, ?_, ?_⟩
  · rw [readHeader, if_neg hheader, heq]
    rfl
  · rw [hname]
    rw [Nat.zero_add] at htitles
    exact htitles.found (by omega)

theorem readHeader_line (hdelim : delim ≠ 0) (hnl : delim ≠ newline) (hparent : Parent P parentKey)
    (hrow : IsRow delim columns row) (hnamed : Named useHeader (row :: rows)) (hcolumns : columns < 10 ^ 10) :
    ∃ header, readHeader env delim none useHeader (rowLine delim row) columns parentKey =
        some (some (header, parentKey)) ∧
      Header useHeader header (columnTitle useHeader (row :: rows)) columns := by
  by_cases hheader : useHeader = 1
  · have hinj := columnTitle_injective hnamed hrow
    have hcells : ∀ i x, row[i]? = some x → (columnTitle useHeader (row :: rows) (0 + i)).1 = x := fun i x hx => by
      rw [columnTitle, if_pos hheader, List.head?_cons, Option.getD_some, Nat.zero_add, hx, Option.getD_some]
      exact cut_val (hrow.cells x (List.mem_of_getElem? hx)).nul
    obtain ⟨header, heq, htitles⟩ := @headerBody_titles P (keyGetMeta parentKey (str "owner")) _ parentKey hparent.dir
      row 0 [] hcells (by rw [Nat.zero_add, hrow.length]; exact hinj) titles_nil
    have hcount : row.length < (rowLine delim row).length + 2 := by
      have := length_joined delim hrow.ne
      rw [rowLine, List.length_append, List.length_singleton]
      omega
    have heach := @eachColumn_line env delim parentKey 0 (List Key) (headerBody none) hdelim hnl row [] 0
      ((rowLine delim row).length + 2) [] hrow.ne hrow.cells hcount
    rw [heq, List.nil_append, List.length_nil, Option.map_some, ← rowLine] at heach
    refine ⟨header, ?_, ?_⟩
    · rw [readHeader, if_pos hheader, heach]
      rfl
    · rw [Nat.zero_add, hrow.length] at htitles
      rw [hheader] at htitles ⊢
      exact htitles.found (by omega)
  · exact readHeader_array hparent hheader hcolumns _ _

/-! ### The rows -/

/-- The rows that are read. -/
def dataRows (useHeader : ℤ) (rows : List (List Str)) : List (List Str) :=
  if useHeader = 1 ∨ useHeader = 0 then rows else rows.tail

/-- Where the first of them begins. -/
def dataPos (useHeader : ℤ) (lineBuffer : Str) : ℕ :=
  if useHeader = 1 ∨ useHeader = 0 then 0 else lineBuffer.length

/-- The key of the last row, before the first one. -/
def startKey (parentKey : Key) : Key := (keyAddName (keyDup parentKey) (some (str "#"))).2

theorem Parent.reading (h : Parent P parentKey) :
    Reading P (keyGetMeta parentKey (str "owner")) 0 (startKey parentKey) [] :=
  ⟨validKeys_nil, fun _ hk => absurd hk List.not_mem_nil, Line.hash, h.dir.addHash, incBaseName_start⟩

/-- What the loop over the rows gives is the result, with the parent key. -/
def readResult (r : ℤ × List Key × Key × Key) : ℤ × List Key × Key :=
  if r.1 = -1 then (-1, r.2.1, r.2.2.1)
  else (1, ksAppendValue r.2.1 (keySetString (keyDup r.2.2.1) (keyBaseName r.2.2.2)), r.2.2.1)

theorem csvRead_header {header : List Key} (hfits : Fits content) (hne : content ≠ [])
    (hcount : getColumnCount (fgets content ((lineFrom content).length + 1)) delim = columns)
    (hfix : fixColumnCount = 0 ∨ fixColumnCount = columns) :
    (readHeader env delim none useHeader (fgets content ((lineFrom content).length + 1)) columns parentKey =
        some (some (header, parentKey)) →
      csvRead env (some content) [] parentKey delim useHeader fixColumnCount none =
        (readRows env delim useHeader header content columns fixColumnCount (content.length + 1)
          (dataPos useHeader (fgets content ((lineFrom content).length + 1))) 0 (startKey parentKey) parentKey []).map
            readResult) ∧
    (readHeader env delim none useHeader (fgets content ((lineFrom content).length + 1)) columns parentKey = none →
      csvRead env (some content) [] parentKey delim useHeader fixColumnCount none = none) := by
  have hfix' : ¬ (fixColumnCount ≠ 0 ∧ columns ≠ fixColumnCount) := fun ⟨h0, hne⟩ => by
    obtain h | h := hfix
    · exact h0 h
    · exact hne h.symm
  rw [csvRead, getLineLength_eq hfits hne]
  dsimp only
  rw [if_neg (Nat.succ_ne_zero _), hcount, if_neg hfix']
  constructor
  · intro hheader
    rw [hheader]
    dsimp only
    rw [dataPos, startKey]
    cases readRows env delim useHeader header content columns fixColumnCount (content.length + 1)
      (if useHeader = 1 ∨ useHeader = 0 then 0 else (fgets content ((lineFrom content).length + 1)).length) 0
      (keyAddName (keyDup parentKey) (some (str "#"))).2 parentKey [] with
    | none => rfl
    | some r =>
      rw [Option.map_some, readResult]
      dsimp only
      split_ifs <;> rfl
  · intro hheader
    rw [hheader]

theorem csvRead_fits {ret : ℤ} {keys : List Key} {parentKey' : Key}
    (h : csvRead env (some content) [] parentKey delim useHeader fixColumnCount none = some (ret, keys, parentKey'))
    (hret : ret ≠ -1) : Fits content := by
  rw [csvRead] at h
  cases hlength : getLineLength content 0 with
  | none =>
    rw [hlength] at h
    cases h
  | some length =>
    rw [hlength] at h
    dsimp only at h
    have hline : length ≠ 0 → (lineFrom content).length < INT_MAX := fun hne => by
      rw [getLineLength, List.drop_zero] at hlength
      split_ifs at hlength with hmax hzero hlast
      · exact absurd (Option.some.inj hlength).symm hne
      · omega
    have hpos : (if useHeader = 1 ∨ useHeader = 0 then 0 else (fgets content length).length) ≤ content.length := by
      split_ifs
      · exact Nat.zero_le _
      · exact fgets_length_le _ _
    generalize (if useHeader = 1 ∨ useHeader = 0 then 0 else (fgets content length).length) = pos at h hpos
    split_ifs at h with hzero hcolumns
    · have hnil := (getLineLength_zero (hzero ▸ hlength)).2
      rw [List.drop_zero] at hnil
      rw [hnil]
      exact ⟨by decide, by decide⟩
    · cases h
      exact absurd rfl hret
    · refine ⟨?_, hline hzero⟩
      split at h
      · cases h
      · cases h
        exact absurd rfl hret
      · split at h
        · cases h
        · rename_i hread
          split_ifs at h with hone
          · cases h
            exact absurd rfl hret
          · exact readRows_fits hread hone hpos

/-! ### Files that are read -/

/-- **The parent key comes first.** -/
theorem readResult_parent {i : ℕ} {dirKey : Key} {ks : List Key} (hparent : Parent P parentKey)
    (h : Reading P (keyGetMeta parentKey (str "owner")) i dirKey ks) :
    ∃ first value, readResult (1, ks, parentKey, dirKey) = (1, first :: ks, parentKey) ∧
      Entry first P (keyGetMeta parentKey (str "owner")) none value ∧ ValidKeys (first :: ks) := by
  obtain ⟨t, hdir, -⟩ := h.dir
  have hbase := keyBaseName_add hdir.name
  have hset := hparent.dir.setString t.1
  have hentry := hparent.dir.entry t.2
  have hlt : ∀ k ∈ ks, identCmp (ident (keySetString (keyDup parentKey) t.1)) (ident k) = .lt := fun k hk => by
    obtain ⟨j, -, r, hr⟩ := h.before k hk
    have hident : ident (keySetString (keyDup parentKey) t.1) = (P.uname, keyGetMeta parentKey (str "owner")) :=
      hentry.ident
    rw [hr, hident, identCmp_eq, compare_below]
    rfl
  have hvalid : ValidKeys ({ keySetString (keyDup parentKey) t.1 with roName := true } :: ks) := by
    refine .of_valid (List.pairwise_cons.mpr ⟨hlt, h.valid.sorted⟩) fun k hk => ?_
    obtain rfl | hk := List.mem_cons.mp hk
    · exact hentry.valid
    · exact h.valid.valid hk
  refine ⟨_, t.1, ?_, hentry, hvalid⟩
  rw [readResult, if_neg (show ¬ (1 : ℤ) = -1 by decide)]
  dsimp only
  rw [hbase]
  obtain ⟨hput, hmem⟩ := ksAppendValue_put h.valid hset.sized hset.named
  have heq := hput.eq_of_mem hvalid fun k => by
    rw [hmem, List.mem_cons]
    have hne : k ∈ ks → ident k ≠ ident (keySetString (keyDup parentKey) t.1) := fun hk =>
      (ident_ne_of_lt (hlt k hk)).symm
    tauto
  rw [heq]

theorem length_rows (delim : UInt8) (rows : List (List Str)) : rows.length ≤ (rows.flatMap (rowLine delim)).length := by
  induction rows with
  | nil => exact le_rfl
  | cons row rows ih =>
    have := rowLine_pos delim row
    rw [List.flatMap_cons, List.length_append, List.length_cons]
    omega

theorem rowLine_lt (hrow : row ∈ rows) (t : Str) : (rowLine delim row).length ≤ (rows.flatMap (rowLine delim) ++ t).length := by
  obtain ⟨before, after, rfl⟩ := List.append_of_mem hrow
  simp only [List.flatMap_append, List.flatMap_cons, List.length_append]
  omega

theorem firstLine (hdelim : delim ≠ 0) (hnl : delim ≠ newline) (hrow : IsRow delim columns row) (t : Str) :
    lineFrom (rowLine delim row ++ t) = rowLine delim row ∧
      fgets (rowLine delim row ++ t) ((rowLine delim row).length + 1) = rowLine delim row := by
  obtain ⟨hnewline, h0⟩ := isCell_joined hnl hrow.cells hdelim
  have hline : rowLine delim row ++ t = joined delim row ++ newline :: t := by
    rw [rowLine, List.append_assoc]
    rfl
  rw [hline]
  refine ⟨lineFrom_line hnewline h0 t, ?_⟩
  rw [rowLine, List.length_append, List.length_singleton]
  exact fgets_line hnewline t

/-- What is asked of a table. -/
structure Table (delim : UInt8) (columns : ℕ) (useHeader : ℤ) (rows : List (List Str)) : Prop where
  nul : delim ≠ 0
  line : delim ≠ newline
  row : ∀ row ∈ rows, IsRow delim columns row
  named : Named useHeader rows

/-- **The lines of a file, each with its newline.** -/
theorem csvRead_start (h : Table delim columns useHeader (row :: rows)) (hparent : Parent P parentKey)
    (hfix : fixColumnCount = 0 ∨ fixColumnCount = columns) {t : Str}
    (hfits : Fits ((row :: rows).flatMap (rowLine delim) ++ t)) :
    ∃ header, Header useHeader header (columnTitle useHeader (row :: rows)) columns ∧
      csvRead env (some ((row :: rows).flatMap (rowLine delim) ++ t)) [] parentKey delim useHeader fixColumnCount none =
        (readRows env delim useHeader header ((row :: rows).flatMap (rowLine delim) ++ t) columns fixColumnCount
          (((row :: rows).flatMap (rowLine delim) ++ t).length + 1) (dataPos useHeader (rowLine delim row)) 0
          (startKey parentKey) parentKey []).map readResult := by
  have hrow := h.row row List.mem_cons_self
  obtain ⟨hline, hbuffer⟩ := firstLine h.nul h.line hrow (rows.flatMap (rowLine delim) ++ t)
  rw [List.flatMap_cons, List.append_assoc] at hfits ⊢
  have hcolumns : columns < 10 ^ 10 := by
    have hlen := length_joined delim hrow.ne
    have hlt := hfits.2
    rw [hline, rowLine, List.length_append, List.length_singleton] at hlt
    rw [hrow.length] at hlen
    have hmax : INT_MAX < 10 ^ 10 := by decide
    omega
  obtain ⟨header, hread, hheader⟩ := @readHeader_line env delim P parentKey useHeader columns row rows h.nul h.line
    hparent hrow h.named hcolumns
  refine ⟨header, hheader, ?_⟩
  have hne : rowLine delim row ++ (rows.flatMap (rowLine delim) ++ t) ≠ [] :=
    List.append_ne_nil_of_left_ne_nil (List.ne_nil_of_length_pos (rowLine_pos delim row)) _
  have hcount := (getColumnCount_row h.nul h.line hrow).2
  have hmain := (@csvRead_header env delim parentKey useHeader _ columns fixColumnCount header hfits hne
    (by rw [hline, hbuffer]; exact hcount) hfix).1
  rw [hline, hbuffer] at hmain
  exact hmain hread

theorem mem_dataRows {row' : List Str} (h : row' ∈ dataRows useHeader rows) : row' ∈ rows := by
  rw [dataRows] at h
  split_ifs at h
  · exact h
  · exact List.mem_of_mem_tail h

theorem Table.line_lt (h : Table delim columns useHeader (row :: rows)) {t : Str}
    (hfits : Fits ((row :: rows).flatMap (rowLine delim) ++ t)) :
    ∀ row' ∈ row :: rows, (rowLine delim row').length < INT_MAX := by
  have hrow := h.row row List.mem_cons_self
  obtain ⟨hline, -⟩ := firstLine h.nul h.line hrow (rows.flatMap (rowLine delim) ++ t)
  obtain ⟨hmax, hlt⟩ := hfits
  rw [List.flatMap_cons, List.append_assoc] at hmax hlt
  rw [hline] at hlt
  intro row' hrow'
  obtain rfl | hrow' := List.mem_cons.mp hrow'
  · exact hlt
  · have := @rowLine_lt delim row' rows hrow' t
    have := rowLine_pos delim row
    rw [List.length_append] at hmax
    omega

/-- **The rows of the lines that end with a newline**, from the start. -/
theorem csvRead_rows (h : Table delim columns useHeader (row :: rows)) (hparent : Parent P parentKey)
    (hfix : fixColumnCount = 0 ∨ fixColumnCount = columns) {t : Str}
    (hfits : Fits ((row :: rows).flatMap (rowLine delim) ++ t)) :
    ∃ header pos lineCounter fuel dirKey ks, Header useHeader header (columnTitle useHeader (row :: rows)) columns ∧
      ((row :: rows).flatMap (rowLine delim) ++ t).drop pos = t ∧
      pos ≤ ((row :: rows).flatMap (rowLine delim) ++ t).length ∧
      Rows P (keyGetMeta parentKey (str "owner")) (columnTitle useHeader (row :: rows)) 0
        (dataRows useHeader (row :: rows)) ks ∧
      Reading P (keyGetMeta parentKey (str "owner")) (dataRows useHeader (row :: rows)).length dirKey ks ∧
      csvRead env (some ((row :: rows).flatMap (rowLine delim) ++ t)) [] parentKey delim useHeader fixColumnCount none =
        (readRows env delim useHeader header ((row :: rows).flatMap (rowLine delim) ++ t) columns fixColumnCount (fuel + 1)
          pos lineCounter dirKey parentKey ks).map readResult := by
  obtain ⟨header, hheader, hread⟩ := @csvRead_start env delim P parentKey useHeader columns fixColumnCount row rows h
    hparent hfix t hfits
  have hline := h.line_lt hfits
  have hdrop : ((row :: rows).flatMap (rowLine delim) ++ t).drop (dataPos useHeader (rowLine delim row)) =
      (dataRows useHeader (row :: rows)).flatMap (rowLine delim) ++ t := by
    rw [dataPos, dataRows]
    split_ifs
    · rw [List.drop_zero]
    · rw [List.flatMap_cons, List.append_assoc, List.drop_left, List.tail_cons]
  have hlen : (dataRows useHeader (row :: rows)).length ≤ ((row :: rows).flatMap (rowLine delim) ++ t).length := by
    have := length_rows delim (dataRows useHeader (row :: rows))
    have hle := congrArg List.length hdrop
    rw [List.length_drop, @List.length_append _ ((dataRows useHeader (row :: rows)).flatMap (rowLine delim))] at hle
    omega
  have hmax : INT_MAX < 10 ^ 10 := by decide
  obtain ⟨hle, -⟩ := id hfits
  obtain ⟨fuel, hfuel⟩ := Nat.exists_eq_add_of_le' hlen
  obtain ⟨ks, dirKey, hrows, hreading, hlines⟩ := @readRows_lines env delim P (keyGetMeta parentKey (str "owner"))
    (columnTitle useHeader (row :: rows)) useHeader header _ columns fixColumnCount h.nul h.line hheader
    (columnTitle_injective h.named (h.row row List.mem_cons_self)) hle parentKey (dataRows useHeader (row :: rows))
    (dataPos useHeader (rowLine delim row)) 0 (fuel + 1) 0 (startKey parentKey) [] t
    (fun row' hrow' => ⟨h.row row' (mem_dataRows hrow'), hline row' (mem_dataRows hrow')⟩) hdrop (by omega) hparent.reading
  rw [Nat.zero_add] at hreading
  rw [hfuel, Nat.add_right_comm fuel, hlines] at hread
  refine ⟨header, _, _, fuel, dirKey, ks, hheader, ?_, ?_, hrows, hreading, hread⟩
  · rw [← List.drop_drop, hdrop, List.drop_left]
  · have hall := congrArg List.length hdrop
    rw [List.length_drop, @List.length_append _ ((dataRows useHeader (row :: rows)).flatMap (rowLine delim))] at hall
    have hfirst : dataPos useHeader (rowLine delim row) ≤ ((row :: rows).flatMap (rowLine delim) ++ t).length := by
      rw [dataPos]
      split_ifs
      · exact Nat.zero_le _
      · exact rowLine_lt List.mem_cons_self t
    omega

/-- **A file whose lines end with a newline is read.** -/
theorem csvRead_lines (h : Table delim columns useHeader (row :: rows)) (hparent : Parent P parentKey)
    (hfix : fixColumnCount = 0 ∨ fixColumnCount = columns) (hfits : Fits ((row :: rows).flatMap (rowLine delim))) :
    ∃ first ks value, csvRead env (some ((row :: rows).flatMap (rowLine delim))) [] parentKey delim useHeader
        fixColumnCount none = some (1, first :: ks, parentKey) ∧
      Entry first P (keyGetMeta parentKey (str "owner")) none value ∧ ValidKeys (first :: ks) ∧
      Rows P (keyGetMeta parentKey (str "owner")) (columnTitle useHeader (row :: rows)) 0
        (dataRows useHeader (row :: rows)) ks := by
  rw [← List.append_nil ((row :: rows).flatMap (rowLine delim))] at hfits ⊢
  obtain ⟨header, pos, lineCounter, fuel, dirKey, ks, -, hdrop, hpos, hrows, hreading, hread⟩ :=
    @csvRead_rows env delim P parentKey useHeader columns fixColumnCount row rows h hparent hfix [] hfits
  obtain ⟨first, value, hresult, hfirst, hvalid⟩ := readResult_parent hparent hreading
  refine ⟨first, ks, value, ?_, hfirst, hvalid, hrows⟩
  rw [hread, readRows_end hdrop (hpos.trans hfits.1), Option.map_some, hresult]

/-! ### A last line without a newline -/

theorem csvRead_nil : csvRead env (some []) [] parentKey delim useHeader fixColumnCount none =
    some (-2, [], env.addWarning 118 parentKey (str "Empty file")) := rfl

theorem mem_ksAppendValue {ks : List Key} {key k : Key} (h : k ∈ ksAppendValue ks key) :
    k ∈ ks ∨ k = { key with roName := true } := by
  rw [ksAppendValue] at h
  dsimp only at h
  split_ifs at h
  · exact .inl h
  · exact List.mem_or_eq_of_mem_set h
  · exact (SortedArray.mem_gap.mp h).symm

/-- The last cell of the last row is empty, and no key is like it. -/
def LastUnread (P : Path) (name : ℕ → CString) (i columns : ℕ) (row : List Str) (keys : List Key) : Prop :=
  row.getLast? = some [] ∧ ∀ k ∈ keys, HasName k ((P.add (arrayName i)).add (name (columns - 1))) → keyString k ≠ []

theorem Unread.result {name : ℕ → CString} {i : ℕ} {ret ret' : ℤ} {ks keys : List Key} {dirKey parentKey' : Key}
    (h : Unread P name i columns row ks dirKey)
    (hresult : readResult (ret', ks, parentKey, dirKey) = (ret, keys, parentKey')) :
    LastUnread P name i columns row keys := by
  obtain ⟨t, ht, hdir⟩ := h.dir
  refine ⟨h.last, fun k hk hname => ?_⟩
  rw [readResult] at hresult
  dsimp only at hresult
  split_ifs at hresult
  · cases hresult
    exact absurd hname (h.missing k hk)
  · cases hresult
    obtain hk | rfl := mem_ksAppendValue hk
    · exact absurd hname (h.missing k hk)
    · -- the key of the parent key is named as the last row
      obtain ⟨-, -, hdata, -, hbinary, -⟩ := keySetString_spec (unlocked_keyDup parentKey) (keyBaseName dirKey)
      have hbase := keyBaseName_add hdir
      have hvalue := keyString_of_data hbinary (by rw [hbase]; exact t.2) hdata
      intro hempty
      have he : keyBaseName dirKey = [] := hvalue.symm.trans hempty
      exact ht (hbase.symm.trans he)

theorem openLine (hdelim : delim ≠ 0) (hnl : delim ≠ newline) (hrow : IsRow delim columns row) :
    lineFrom (joined delim row) = joined delim row ∧
      fgets (joined delim row) ((joined delim row).length + 1) = joined delim row := by
  obtain ⟨hnewline, h0⟩ := isCell_joined hnl hrow.cells hdelim
  exact ⟨lineFrom_open hnewline h0, fgets_open hnewline⟩

theorem csvRead_openLine (h : Table delim columns useHeader [row]) (hparent : Parent P parentKey)
    (hfix : fixColumnCount = 0 ∨ fixColumnCount = columns) (hfits : Fits (joined delim row))
    (hne : joined delim row ≠ []) :
    (useHeader ≠ 1 → ∃ header, Header useHeader header (columnTitle useHeader [row]) columns ∧
      csvRead env (some (joined delim row)) [] parentKey delim useHeader fixColumnCount none =
        (readRows env delim useHeader header (joined delim row) columns fixColumnCount ((joined delim row).length + 1)
          (dataPos useHeader (joined delim row)) 0 (startKey parentKey) parentKey []).map readResult) ∧
    (useHeader = 1 →
      csvRead env (some (joined delim row)) [] parentKey delim useHeader fixColumnCount none = none) := by
  have hrow := h.row row List.mem_cons_self
  obtain ⟨hline, hbuffer⟩ := openLine h.nul h.line hrow
  have hcount := (getColumnCount_row h.nul h.line hrow).1
  have hmain := fun header => @csvRead_header env delim parentKey useHeader _ columns fixColumnCount header hfits hne
    (by rw [hline, hbuffer]; exact hcount) hfix
  rw [hline, hbuffer] at hmain
  constructor
  · intro hheader
    have hcolumns : columns < 10 ^ 10 := by
      have hlen := length_joined delim hrow.ne
      have hle := hfits.1
      rw [hrow.length] at hlen
      have hmax : INT_MAX + 1 < 10 ^ 10 := by decide
      omega
    obtain ⟨header, hread, hfound⟩ := @readHeader_array env delim P parentKey useHeader columns hparent hheader hcolumns
      [row] (joined delim row)
    exact ⟨header, hfound, (hmain header).1 hread⟩
  · intro hheader
    refine (hmain []).2 ?_
    have hlast : ∃ x, row.getLast? = some x ∧ x ≠ [] := by
      obtain ⟨-, hnil⟩ := h.named hheader row rfl
      refine ⟨row.getLast hrow.ne, List.getLast?_eq_some_getLast hrow.ne, fun he => hnil ?_⟩
      rw [← he]
      exact List.getLast_mem hrow.ne
    have hopen := @eachColumn_open env delim 0 (List Key) (headerBody none) h.nul h.line row [] 0
      ((joined delim row).length + 2) [] parentKey hrow.cells hlast
    rw [List.nil_append, List.length_nil] at hopen
    rw [readHeader, if_pos hheader, hopen]
    rfl

theorem csvRead_skipped (h : Table delim columns useHeader [row]) (hparent : Parent P parentKey)
    (hfix : fixColumnCount = 0 ∨ fixColumnCount = columns) (hfits : Fits (joined delim row))
    (hne : joined delim row ≠ []) (hskip : ¬ (useHeader = 1 ∨ useHeader = 0)) :
    ∃ first value, csvRead env (some (joined delim row)) [] parentKey delim useHeader fixColumnCount none =
        some (1, [first], parentKey) ∧
      Entry first P (keyGetMeta parentKey (str "owner")) none value ∧ ValidKeys [first] := by
  obtain ⟨header, -, hread⟩ := (@csvRead_openLine env delim P parentKey useHeader columns fixColumnCount row h hparent hfix
    hfits hne).1 fun h1 => hskip (.inl h1)
  obtain ⟨first, value, hresult, hfirst, hvalid⟩ := readResult_parent hparent hparent.reading
  refine ⟨first, value, ?_, hfirst, hvalid⟩
  rw [hread, dataPos, if_neg hskip, readRows_end (List.drop_length) hfits.1, Option.map_some, hresult]

/-- **A file whose last line does not end with a newline**: if it is read, its last cell is not. -/
theorem csvRead_open {init : List (List Str)} {last : List Str} {ret : ℤ} {keys : List Key} {parentKey' : Key}
    (h : Table delim columns useHeader (init ++ [last])) (hparent : Parent P parentKey)
    (hfix : fixColumnCount = 0 ∨ fixColumnCount = columns) (hdata : dataRows useHeader (init ++ [last]) ≠ [])
    (hread : csvRead env (some (init.flatMap (rowLine delim) ++ joined delim last)) [] parentKey delim useHeader
      fixColumnCount none = some (ret, keys, parentKey')) (hret : ret ≠ -1) :
    LastUnread P (columnTitle useHeader (init ++ [last])) ((dataRows useHeader (init ++ [last])).length - 1) columns last
      keys := by
  have hfits := csvRead_fits hread hret
  have hlast := h.row last (List.mem_append_right _ List.mem_cons_self)
  obtain _ | ⟨row, init⟩ := init
  · rw [List.nil_append] at h hdata ⊢
    rw [List.flatMap_nil, List.nil_append] at hread hfits
    by_cases hne : joined delim last = []
    · rw [hne, csvRead_nil] at hread
      cases hread
      refine ⟨?_, fun k hk => absurd hk List.not_mem_nil⟩
      rw [joined_eq_nil hlast.ne hne]
      rfl
    · obtain ⟨hother, hone⟩ := @csvRead_openLine env delim P parentKey useHeader columns fixColumnCount last h hparent hfix
        hfits hne
      by_cases hheader : useHeader = 1
      · rw [hone hheader] at hread
        cases hread
      · obtain ⟨header, hfound, heq⟩ := hother hheader
        have hzero : useHeader = 1 ∨ useHeader = 0 := by
          by_contra hskip
          rw [dataRows, if_neg hskip] at hdata
          exact hdata rfl
        rw [heq, dataPos, if_pos hzero] at hread
        obtain ⟨⟨ret', ks, parentKey₁, dirKey⟩, hrows, hresult⟩ := Option.map_eq_some_iff.mp hread
        have hret' : ret' ≠ -1 := fun he => by
          rw [readResult, if_pos he] at hresult
          cases hresult
          exact hret rfl
        have hunread := readRows_unterminated h.nul h.line hfound (columnTitle_injective h.named hlast) hlast
          List.drop_zero hparent.reading hrows hret'
        rw [dataRows, if_pos hzero]
        exact hunread.result hresult
  · have hinit : Table delim columns useHeader (row :: init) :=
      ⟨h.nul, h.line, fun row' hrow' => h.row row' (List.mem_append_left _ hrow'), h.named⟩
    have hrows : dataRows useHeader (row :: init ++ [last]) = dataRows useHeader (row :: init) ++ [last] := by
      rw [dataRows, dataRows]
      split_ifs <;> rfl
    obtain ⟨header, pos, lineCounter, fuel, dirKey, ks, hfound, hdrop, -, -, hreading, heq⟩ :=
      @csvRead_rows env delim P parentKey useHeader columns fixColumnCount row init hinit hparent hfix _ hfits
    rw [heq] at hread
    obtain ⟨⟨ret', ks', parentKey₁, dirKey'⟩, hloop, hresult⟩ := Option.map_eq_some_iff.mp hread
    have hret' : ret' ≠ -1 := fun he => by
      rw [readResult, if_pos he] at hresult
      cases hresult
      exact hret rfl
    have hunread := readRows_unterminated h.nul h.line hfound
      (columnTitle_injective hinit.named (hinit.row row List.mem_cons_self)) hlast hdrop hreading hloop hret'
    rw [hrows, List.length_append, List.length_singleton, Nat.add_sub_cancel]
    exact hunread.result hresult

end Files

end Elektra.Csvstorage
