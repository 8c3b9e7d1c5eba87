import Elektra.KeySet.Compare
import Elektra.KeySet.CutCursor
import Elektra.Lookup.Iterate
import Elektra.Lookup.Pop
import Elektra.Lookup.Return
import Elektra.Name.Canonical

/-!
# The keys for global plugins

`prepareGlobalKS` cuts the keys below the parent key out of the key set, and puts back those of the specification.
They are cut a second time for that, together with the cascading keys, each of which is then looked up with
`KDB_O_POP`, so that only the keys of the specification are left to be put back.

* `prepareLoop`, `prepareGlobalKS`;
* `specRun`: the keys that are cut twice; `cutKey_hasName`, **`prepareCut_spec`**;
* `Poppable`, `Parts`; `prepareLoop_pops`, `prepareLoop_loses`, `prepareLoop_lost`: the loop;
* `Lossless`, **`prepareGlobalKS_lossless_iff`**.
-/

namespace Elektra

open Run

/-! ## The code -/

/-- `strchr`, with the characters from the found one on. -/
def strchr (s : Str) (c : UInt8) : Option Str :=
  match s.dropWhile (· ≠ c) with
  | [] => none
  | c :: t => some (c :: t)

/-- The key at which `prepareGlobalKS` cuts. -/
def globalCutKey (parentKey : Key) : Key :=
  (keyAddName (keyNewCascading (str "/") none) (strchr (keyName parentKey) pathSeparator)).2

/-- The loop of `prepareGlobalKS`. -/
def prepareLoop (cb : Callback) (n : ℕ) : ℕ → Heap → KeySet → KeySet → Except Stop (Heap × KeySet × KeySet)
  | 0, _, _, _ => .error .fuel
  | fuel + 1, h, cutKS, specCut =>
    match ksNext specCut with
    | (none, specCut) => .ok (h, cutKS, specCut)
    | (some cur, specCut) =>
      if keyGetNamespace (h.cell cur) = .cascading then do
        let (_, h, cutKS) := ksAppendKey h cutKS cur
        let (ret, w) ← ksLookup cb n { heap := h, ks := specCut } cur { pop := true }
        prepareLoop cb n fuel (ret.elim w.heap (keyDel w.heap)) cutKS w.ks
      else prepareLoop cb n fuel h cutKS specCut

/-- The end of `prepareGlobalKS`. -/
def prepareEnd (ks : KeySet) (cutKey specCutKey : KeyRef) (st : Heap × KeySet × KeySet) :
    Heap × KeySet × Option KeySet :=
  let (h, cutKS, specCut) := st
  let (_, h, ks) := ksAppend h ks specCut
  (keyDel (keyDel (ksDel h specCut) specCutKey) cutKey, ks, some (ksRewind cutKS))

/-- `ksCut` returns `NULL` for a key without a name only. `n` bounds the rounds of the loop, and the depth of the
calls of `ksLookup`. -/
def prepareGlobalKS (cb : Callback) (n : ℕ) (h : Heap) (ks : KeySet) (parentKey : KeyRef) :
    Except Stop (Heap × KeySet × Option KeySet) :=
  let (cutKey, h) := h.alloc (globalCutKey (h.cell parentKey))
  let (h, ks, cutKS) := ksCut h (ksRewind ks) cutKey
  let (specCutKey, h) := h.alloc (keyNewName (str "spec"))
  match cutKS with
  | none => .ok (keyDel (keyDel h specCutKey) cutKey, ks, none)
  | some cutKS =>
    match ksCut h cutKS specCutKey with
    | (h, cutKS, none) => .ok (keyDel (keyDel h specCutKey) cutKey, ks, some (ksRewind cutKS))
    | (h, cutKS, some specCut) =>
      (prepareLoop cb n n h cutKS (ksRewind specCut)).map (prepareEnd ks cutKey specCutKey)

/-! ## The cut key -/

section CutKey

variable {key : Key} {P : Path}

theorem strchr_name (P : Path) : strchr P.name pathSeparator = none ∧ P.parts = [] ∨
    ∃ n, strchr P.name pathSeparator = some n ∧ n.head? = some pathSeparator ∧ levels n = P.escaped ∧ Closed n ∧ 0 ∉ n := by
  have hparts := fun p (hp : p ∈ P.escaped) => Path.isPart_of_mem hp
  have hclosed : Closed (join P.escaped) := closed_join fun p hp => (hparts p hp).closed
  have hlevels : levels (join P.escaped) = P.escaped :=
    levels_join fun p hp => ⟨(hparts p hp).toIsLevel, (hparts p hp).closed⟩
  have hstart : ∀ {t : Str}, strchr (pathSeparator :: t) pathSeparator = some (pathSeparator :: t) := rfl
  by_cases hstem : P.stem = []
  · have hnil : P.escaped = [] := by rw [Path.escaped, (Path.stem_eq_nil.mp hstem).2, List.map_nil]
    rw [Path.name_of_root hstem]
    exact .inr ⟨_, hstart, rfl, hnil.symm ▸ levels_separator [], rfl, by decide⟩
  · rw [Path.name_of_stem hstem]
    have hdrop : P.stem.dropWhile (· ≠ pathSeparator) = join P.escaped := by
      rw [Path.stem, List.dropWhile_append_of_pos]
      · obtain hj | ⟨t, hj⟩ := join_cases P.escaped
        · rw [hj, List.dropWhile_nil]
        · rw [hj, List.dropWhile_cons_of_neg (by simp)]
      · intro c hc
        rw [decide_eq_true_iff]
        rintro rfl
        cases hr : P.root with
        | cascading => simp [hr, Root.level] at hc
        | ns n =>
          rw [hr] at hc
          cases n <;> exact absurd hc (by decide)
    rw [strchr, hdrop]
    obtain hj | ⟨t, hj⟩ := join_cases P.escaped
    · rw [hj]
      refine .inl ⟨rfl, ?_⟩
      rw [hj, levels_nil] at hlevels
      exact List.map_eq_nil_iff.mp hlevels.symm
    · rw [hj] at hclosed hlevels ⊢
      refine .inr ⟨_, rfl, rfl, hlevels, hclosed, fun h0 => P.nul_name ?_⟩
      rw [Path.name_of_stem hstem, Path.stem, hj]
      exact List.mem_append_right _ h0

theorem globalCutKey_hasName (hP : HasName key P) : HasName (globalCutKey key) ⟨.cascading, P.parts⟩ := by
  have hroot : HasName (keyNewCascading (str "/") none) ⟨.cascading, []⟩ := ⟨rfl, rfl, rfl, rfl⟩
  rw [globalCutKey, keyName, hP.key, Option.getD_some]
  obtain ⟨hnone, hparts⟩ | ⟨n, hsome, hhead, hlevels, hclosed, h0⟩ := strchr_name P
  · rw [hnone, hparts]
    exact hroot
  · have hne : n ≠ [] := by
      rintro rfl
      cases hhead
    have hall : ¬ AllBackslashes n := by
      intro hall
      obtain ⟨t, rfl⟩ := List.head?_eq_some_iff.mp hhead
      exact absurd (List.eq_of_mem_replicate (hall ▸ List.mem_cons_self)) separator_ne_escape
    have hvalid : elektraValidateKeyName n (n.length + 1) = true := (validate_iff hne hall).mpr hclosed
    rw [hsome]
    obtain ⟨-, hnot⟩ | ⟨-, -, -, Q, hQ, hr, he⟩ :=
      keyAddName_spec hroot.key hroot.keySize rfl hne h0 fun hodd => hall hodd.1
    · exact absurd hvalid hnot
    · rw [hlevels, pathReduce_parts _ _ fun p hp => Path.isPart_of_mem hp] at he
      have hpath : Q = ⟨.cascading, P.parts⟩ := Path.ext_escaped hr he
      exact hpath ▸ hQ

end CutKey

/-! ## The cuts -/

section Cuts

variable {h : Heap} {ks : KeySet} {m : Ident → Option KeyRef} {path : KeyRef → Path} {ps : List CString}
  {c : KeyRef}

/-- The keys that are cut out twice: those of the first round, which takes keys of the specification and cascading
ones. -/
def specRun (path : KeyRef → Path) (ps : List CString) (l : List KeyRef) : List KeyRef :=
  firstRun (fun k => decide (Selected .spec ps (path k))) l

theorem selected_of_mem_specRun {l : List KeyRef} {k : KeyRef} (hk : k ∈ specRun path ps l) :
    Selected .spec ps (path k) :=
  of_decide_eq_true (@of_mem_firstRun _ (fun k => decide (Selected .spec ps (path k))) l k hk)

theorem selected_root {Q : Path} (h : Selected .spec ps Q) : Selected .spec [] Q := by
  obtain ⟨hr, hp, hne⟩ | ⟨hr, -⟩ := h
  · refine .inl ⟨hr, List.nil_prefix, fun hnil => hne ?_⟩
    rw [← hnil] at hp ⊢
    exact List.prefix_nil.mp hp
  · exact .inr ⟨hr, List.nil_prefix⟩

theorem mem_specRun_of_cascading {l : List KeyRef} (hs : SortedArray.Sorted h.ident identCmp l)
    (hpath : ∀ k ∈ l, HasName (h.cell k) (path k)) {k : KeyRef} (hk : k ∈ l) (hbelow : CascadingBelow ps (path k)) :
    k ∈ specRun path ps l := by
  refine mem_firstRun_of_between hk (decide_eq_true (.inl hbelow)) fun a b hsub ha => ?_
  have hab := uname_isLE hs hpath (List.Sublist.trans (by simp) hsub : [a, b].Sublist l)
  have hbk := uname_isLE hs hpath (List.Sublist.trans (by simp) hsub : [b, k].Sublist l)
  have hak := uname_isLE hs hpath (List.Sublist.trans (by simp) hsub : [a, k].Sublist l)
  obtain ha | ⟨har, -⟩ := of_decide_eq_true ha
  · exact decide_eq_true (.inl (cascading_between ha hbelow hab hbk))
  · exact absurd hak (not_isLE_cascading har hbelow.1)

theorem mem_cutRounds_returned (hks : ks.Holds h m) (hpath : ∀ k ∈ ks.array, HasName (h.cell k) (path k))
    (hc : c ∉ ks.array) (hlt : c < h.next) (ps : List CString) (k : KeyRef) : ∀ (l : List Namespace) {st : Heap × KeySet × KeySet},
    CutState h ks c st →
    (k ∈ st.2.2.array → k ∈ (l.foldl (cutRound c (Path.mk .cascading ps).name) st).2.2.array) ∧
      (k ∈ (l.foldl (cutRound c (Path.mk .cascading ps).name) st).2.2.array →
        k ∈ st.2.2.array ∨ k ∈ st.2.1.array ∧ ∃ n ∈ l, Selected n ps (path k))
  | [], _, _ => ⟨id, .inl⟩
  | n :: l, st, hst => by
    obtain ⟨hst', hmem⟩ := cutRound_state hks hc hlt hst (Path.mk .cascading ps).name n
    obtain ⟨hstays, hcomes⟩ := mem_cutRounds_returned hks hpath hc hlt ps k l hst'
    rw [List.foldl_cons]
    refine ⟨fun hk => hstays ((hmem k).mpr (.inl hk)), fun hk => ?_⟩
    obtain hk | ⟨hk, n', hn', hsel⟩ := hcomes hk
    · refine ((hmem k).mp hk).imp_right fun hk => ?_
      have hin := (firstRun_sublist _).subset hk
      have htest : roundTest c (Path.mk .cascading ps).name st.1 n k = true ↔ Selected n ps (path k) :=
        roundTest_iff hpath hks hst n (hst.rest.subset hin) (hst.ne hc (.inl hin))
      exact ⟨hin, n, List.mem_cons_self, htest.mp (of_mem_firstRun hk)⟩
    · rw [cutRound_rest] at hk
      exact .inr ⟨(besides_sublist _).subset hk, n', List.mem_cons_of_mem n hn', hsel⟩

/-- The keys of the first round are returned, and no others of the specification, nor cascading ones. -/
theorem ksCut_returned (hks : ks.Holds h m) (hpath : ∀ k ∈ ks.array, HasName (h.cell k) (path k))
    (hc : c ∉ ks.array) (hlt : c < h.next) (hC : HasName (h.cell c) ⟨.cascading, ps⟩) {ret : KeySet}
    (hret : (ksCut h ks c).2.2 = some ret) :
    (∀ k ∈ specRun path ps ks.array, k ∈ ret.array) ∧
      ∀ k ∈ ret.array, Selected .spec [] (path k) → k ∈ specRun path ps ks.array := by
  have hstart : CutState h ks c (cutStart h ks) := cutStart_state
  obtain ⟨hst, hmem⟩ := cutRound_state hks hc hlt hstart (Path.mk .cascading ps).name .spec
  have hrun : firstRun (roundTest c (Path.mk .cascading ps).name h .spec) ks.array = specRun path ps ks.array := by
    refine firstRun_congr fun k hk => ?_
    rw [Bool.eq_iff_iff, decide_eq_true_iff]
    exact roundTest_iff hpath hks hstart .spec hk fun he => hc (he ▸ hk)
  have hfirst : ∀ k, k ∈ (cutRound c (Path.mk .cascading ps).name (cutStart h ks) .spec).2.2.array ↔
      k ∈ specRun path ps ks.array := fun k => by
    rw [hmem, ← hrun]
    exact or_iff_right List.not_mem_nil
  have hrounds := fun k => mem_cutRounds_returned hks hpath hc hlt ps k laterNamespaces hst
  rw [ksCut_cascading hC.key ((Path.head_name _).mpr rfl), namespaces_eq, List.foldl_cons] at hret
  generalize laterNamespaces.foldl (cutRound c (Path.mk .cascading ps).name)
    (cutRound c (Path.mk .cascading ps).name (cutStart h ks) .spec) = st at hret hrounds
  obtain rfl := Option.some.inj hret
  refine ⟨fun k hk => (hrounds k).1 ((hfirst k).mpr hk), fun k hk hsel => ?_⟩
  obtain hk | ⟨hk, n, hn, hsel'⟩ := (hrounds k).2 hk
  · exact (hfirst k).mp hk
  · obtain hbelow | ⟨hr, -⟩ := hsel'
    · exact mem_specRun_of_cascading hks.sorted hpath (hst.rest.subset hk) hbelow
    · obtain ⟨hr', -, -⟩ | ⟨hr', -⟩ := hsel
      · cases hr.symm.trans hr'
      · obtain rfl : n = .spec := by simpa using hr.symm.trans hr'
        exact absurd hn (by decide)

theorem ksCut_specRun {h' : Heap} {ret : KeySet} {mr : Ident → Option KeyRef} (hks : ks.Holds h m)
    (hpath : ∀ k ∈ ks.array, HasName (h.cell k) (path k)) (hh : Keeps h h') (hret : ret.Holds h' mr)
    (hsub : ret.array.Sublist ks.array)
    (hstays : ∀ k ∈ specRun path ps ks.array, k ∈ ret.array)
    (honly : ∀ k ∈ ret.array, Selected .spec [] (path k) → k ∈ specRun path ps ks.array) {d : KeyRef}
    (hd : HasName (h'.cell d) ⟨.ns .spec, []⟩) :
    (ksCutBelow h' ret d).2.2.array = specRun path ps ks.array := by
  have hpath' : ∀ k ∈ ret.array, HasName (h'.cell k) (path k) := fun k hk =>
    (hh.cell k (hks.entry k (hsub.subset hk)).lt).hasName (hpath k (hsub.subset hk))
  have htest : ∀ k ∈ ret.array, cutTest h' d k = true ↔ Selected .spec [] (path k) := fun k hk =>
    belowOrSame_iff hd (hpath' k hk)
  have hcon : Contiguous (cutTest h' d) ret.array := by
    refine (contiguous_iff hret.sorted hpath' htest).mpr ?_
    rintro ⟨a, b, e, hsub', ha, hb, he⟩
    have hmem : ∀ k ∈ [a, b, e], k ∈ ret.array := fun k hk => hsub'.subset hk
    have hin := honly a (hmem a (by simp)) (.inl ha)
    have hin' := honly e (hmem e (by simp)) (.inr he)
    -- a gap in the second cut is one in the first round
    refine not_mem_firstRun_of_gap hks.sorted.nodup (hsub'.trans hsub) (decide_eq_true (selected_of_mem_specRun hin))
      (decide_eq_false fun hsel => hb (selected_root hsel)) hin'
  obtain ⟨-, -, -, hrun, -, -⟩ := ksCutBelow_spec h' ret d
  rw [hrun, firstRun_eq_filter hcon]
  refine (hret.sorted.sublist List.filter_sublist).eq_of_mem ?_ fun k => ?_
  · have hrun : (specRun path ps ks.array).Sublist ks.array := firstRun_sublist _
    exact (hks.sorted.sublist hrun).congr fun k hk => hh.ident (hks.entry k (hrun.subset hk)).lt
  · rw [List.mem_filter]
    constructor
    · rintro ⟨hk, ht⟩
      exact honly k hk ((htest k hk).mp ht)
    · intro hk
      exact ⟨hstays k hk, (htest k (hstays k hk)).mpr (selected_root (selected_of_mem_specRun hk))⟩

/-! ### Two parts -/

/-- Each key of `l` is in one of two key sets. -/
structure Parted (h₀ : Heap) (l : List KeyRef) (h : Heap) (a b : KeySet) : Prop where
  keeps : Keeps h₀ h
  left : ∃ m, a.Holds h m
  right : ∃ m, b.Holds h m
  mem : ∀ k, k ∈ l ↔ k ∈ a.array ∨ k ∈ b.array
  disjoint : ∀ k ∈ a.array, k ∉ b.array

theorem ksCut_parted (hks : ks.Holds h m) (he : Entry h c) (hc : Cascading (h.cell c) → c ∉ ks.array) :
    ∃ ret, (ksCut h ks c).2.2 = some ret ∧ Parted h ks.array (ksCut h ks c).1 (ksCut h ks c).2.1 ret ∧
      ret.array.Sublist ks.array := by
  obtain ⟨ret, hret, hkeeps, -, hrest, hheld⟩ := ksCut_spec hks he hc
  generalize ksCut h ks c = cut at hret hkeeps hrest hheld ⊢
  have hks' := hks.keeps hkeeps
  have hin : ∀ k, k ∈ ret.array → k ∈ ks.array := fun k hk =>
    (hks'.mem.mp (Option.filter_eq_some_iff.mp (hheld.of_mem hk)).1).1
  have hout : ∀ k, k ∈ cut.2.1.array ↔ k ∈ ks.array ∧ k ∉ ret.array := fun k => by
    constructor
    · intro hk
      obtain ⟨hm, hnot⟩ := Option.filter_eq_some_iff.mp (hrest.of_mem hk)
      exact ⟨(hks'.mem.mp hm).1, of_decide_eq_true hnot⟩
    · rintro ⟨hk, hnot⟩
      exact (hrest.mem.mp (Option.filter_eq_some_iff.mpr ⟨hks'.of_mem hk, decide_eq_true hnot⟩)).1
  refine ⟨ret, hret, ⟨hkeeps, ⟨_, hrest⟩, ⟨_, hheld⟩, fun k => ?_, fun k hk => ((hout k).mp hk).2⟩, ?_⟩
  · rw [hout]
    by_cases hk : k ∈ ret.array
    · exact iff_of_true (hin k hk) (.inr hk)
    · simp [hk]
  · have hfilter : ret.array = ks.array.filter (· ∈ ret.array) := by
      refine hheld.sorted.eq_of_mem (hks'.sorted.sublist List.filter_sublist) fun k => ?_
      rw [List.mem_filter, decide_eq_true_iff]
      exact ⟨fun hk => ⟨hin k hk, hk⟩, fun hk => hk.2⟩
    rw [hfilter]
    exact List.filter_sublist

end Cuts

section Prepare

variable {h : Heap} {ks : KeySet} {m : Ident → Option KeyRef} {path : KeyRef → Path} {P : Path}
  {parentKey : KeyRef} {cb : Callback} {n : ℕ}

theorem prepareGlobalKS_eq {h₂ h₃ : Heap} {rest ret cutKS specCut : KeySet}
    (hfirst : ksCut (h.alloc (globalCutKey (h.cell parentKey))).2 (ksRewind ks) h.next = (h₂, rest, some ret))
    (hsecond : ksCut (h₂.alloc (keyNewName (str "spec"))).2 ret h₂.next = (h₃, cutKS, some specCut)) :
    prepareGlobalKS cb n h ks parentKey =
      (prepareLoop cb n n h₃ cutKS (ksRewind specCut)).map (prepareEnd rest h.next h₂.next) := by
  have halloc : ∀ (h : Heap) (key : Key), h.alloc key = (h.next, (h.alloc key).2) := fun _ _ => rfl
  rw [prepareGlobalKS, halloc]
  dsimp only
  rw [hfirst]
  dsimp only
  rw [halloc]
  dsimp only
  rw [hsecond]

/-- **What the two cuts take.** -/
theorem prepareCut_spec (hks : ks.Holds h m) (hpath : ∀ k ∈ ks.array, HasName (h.cell k) (path k))
    (hP : HasName (h.cell parentKey) P) : ∃ h' rest ret cutKS specCut cutKey specCutKey,
    (∀ cb n, prepareGlobalKS cb n h ks parentKey =
      (prepareLoop cb n n h' cutKS (ksRewind specCut)).map (prepareEnd rest cutKey specCutKey)) ∧
    Parted h ks.array h' rest ret ∧ Parted h ret.array h' cutKS specCut ∧
    specCut.array = specRun path P.parts ks.array := by
  have hC := globalCutKey_hasName hP
  set h₁ := (h.alloc (globalCutKey (h.cell parentKey))).2 with hh₁
  have hkeeps₁ : Keeps h h₁ := keeps_alloc _ _
  have hcell : h₁.cell h.next = globalCutKey (h.cell parentKey) := Function.update_self _ _ _
  have hfresh : h.next ∉ (ksRewind ks).array := fun hk => (hks.entry _ hk).lt.false
  have hlt : h.next < h₁.next := Nat.lt_succ_self _
  rw [← hcell] at hC
  have hks₁ : (ksRewind ks).Holds h₁ m := (hks.keeps hkeeps₁).of_array rfl hks.room hks.least
  have hpath₁ : ∀ k ∈ ks.array, HasName (h₁.cell k) (path k) := fun k hk =>
    (hkeeps₁.cell k (hks.entry k hk).lt).hasName (hpath k hk)
  obtain ⟨ret, hret, hparted, hsub⟩ := ksCut_parted hks₁ (hC.entry hlt) fun _ => hfresh
  obtain ⟨hstays, honly⟩ := ksCut_returned hks₁ hpath₁ hfresh hlt hC hret
  set cut := ksCut h₁ (ksRewind ks) h.next with hcut
  set h₃ := (cut.1.alloc (keyNewName (str "spec"))).2 with hh₃
  have hkeeps₃ : Keeps cut.1 h₃ := keeps_alloc _ _
  have hS : HasName (h₃.cell cut.1.next) ⟨.ns .spec, []⟩ := by
    have hcell₃ : h₃.cell cut.1.next = keyNewName (str "spec") := Function.update_self _ _ _
    rw [hcell₃]
    exact ⟨rfl, rfl, rfl, rfl⟩
  obtain ⟨mr, hheld⟩ := hparted.right
  obtain ⟨mrest, hrest⟩ := hparted.left
  have hheld₃ := hheld.keeps hkeeps₃
  have hnotcas : ¬ Cascading (h₃.cell cut.1.next) := fun hc => by cases hS.cascading.mp hc
  obtain ⟨specCut, hspecCut, hparted', -⟩ := ksCut_parted hheld₃ (hS.entry (Nat.lt_succ_self _))
    fun hc => absurd hc hnotcas
  have hheap := @ksCut_heap h₃ ret cut.1.next hnotcas
  have hrun := ksCut_specRun hks₁ hpath₁ (hparted.keeps.trans hkeeps₃) hheld₃ hsub hstays honly hS
  have hname : (Path.mk (.ns .spec) []).name.head? ≠ some pathSeparator := by decide
  have hfirst : ksCut h₁ (ksRewind ks) h.next = (cut.1, cut.2.1, some ret) := by rw [← hret]
  have hsecond : ksCut h₃ ret cut.1.next = (h₃, (ksCut h₃ ret cut.1.next).2.1, some specCut) := by
    rw [← hspecCut]
    exact Prod.ext hheap rfl
  refine ⟨h₃, cut.2.1, ret, (ksCut h₃ ret cut.1.next).2.1, specCut, h.next, cut.1.next, fun cb n => ?_, ?_, ?_, ?_⟩
  · exact prepareGlobalKS_eq hfirst hsecond
  · exact ⟨hkeeps₁.trans (hparted.keeps.trans hkeeps₃), ⟨mrest, hrest.keeps hkeeps₃⟩, ⟨mr, hheld₃⟩, hparted.mem,
      hparted.disjoint⟩
  · rw [hheap] at hparted'
    exact ⟨hkeeps₁.trans (hparted.keeps.trans hkeeps₃), hparted'.left, hparted'.right, hparted'.mem, hparted'.disjoint⟩
  · rw [ksCut_below hS.key hname] at hspecCut
    rw [← Option.some.inj hspecCut]
    exact hrun

end Prepare

/-! ## The loop -/

/-- The name of the key of the array, looked up among it and the keys `l` behind it, is found at that key only. -/
structure Poppable (h : Heap) (ks : KeySet) (path : KeyRef → Path) (l : List KeyRef) (a : KeyRef) : Prop where
  /-- There is no key of the specification of that name. -/
  unspecified : ∀ s ∈ l, path s ≠ ⟨.ns .spec, (path a).parts⟩
  /-- There may be others of that name, with another owner. -/
  found : findByName h { ks with array := a :: l } (path a).uname = some a

section Loop

variable {h₀ h : Heap} {ks cutKS specCut : KeySet} {m : Ident → Option KeyRef} {path : KeyRef → Path}
  {l rest : List KeyRef} {a : KeyRef} {cb : Callback}

theorem ksNext_fields (ks : KeySet) : (ksNext ks).2.array = ks.array ∧ (ksNext ks).2.alloc = ks.alloc := by
  rw [ksNext_eq]
  split_ifs
  · exact ⟨rfl, rfl⟩
  · exact ⟨rfl, rfl⟩
  · exact ⟨rfl, rfl⟩

theorem prepareLoop_head (hks : ks.Holds h₀ m) (hpath : ∀ k ∈ ks.array, HasName (h₀.cell k) (path k))
    (hsub : ∀ k ∈ l, k ∈ ks.array) (hp : Parted h₀ l h cutKS specCut) (hr : specCut.Rewound)
    (harray : specCut.array = a :: rest) (hcas : (path a).root = .cascading) :
    ∃ (w : World) (cutKS' : KeySet), (∀ cb n fuel, prepareLoop cb n (fuel + 1) h cutKS specCut = (do
        let (ret, w') ← ksLookup cb n w a { pop := true }
        prepareLoop cb n fuel (ret.elim w'.heap (keyDel w'.heap)) cutKS' w'.ks)) ∧
      Keeps h w.heap ∧ (∃ m, cutKS'.Holds w.heap m) ∧ (∃ m, w.ks.Holds w.heap m) ∧ w.ks.Stands a ∧
      w.ks.array = a :: rest ∧ ∀ k, k ∈ cutKS'.array ↔ k ∈ cutKS.array ∨ k = a := by
  obtain ⟨mc, hcut⟩ := hp.left
  obtain ⟨msp, hspec⟩ := hp.right
  have hain : a ∈ specCut.array := harray ▸ List.mem_cons_self
  have hal : a ∈ l := (hp.mem a).mpr (.inr hain)
  have hname : HasName (h.cell a) (path a) :=
    (hp.keeps.cell a (hks.entry a (hsub a hal)).lt).hasName (hpath a (hsub a hal))
  have hnext : ksNext specCut = (some a, { specCut with current := 0, cursor := some a }) := by
    have hlen : specCut.size = rest.length + 1 := by rw [KeySet.size, harray, List.length_cons]
    have hget : specCut.array[0]? = some a := by rw [harray, List.getElem?_cons_zero]
    rw [ksNext_eq, if_neg (by omega), if_neg (by rw [hr.current]; omega), hr.nextIndex, hget]
  have hkeeps := keeps_appendKey h cutKS a
  have happ := ksAppendKey_holds hcut (hspec.entry a hain)
  have hmem := mem_appendKey h cutKS a
  refine ⟨⟨(ksAppendKey h cutKS a).2.1, { specCut with current := 0, cursor := some a }⟩, (ksAppendKey h cutKS a).2.2,
    fun cb n fuel => ?_, hkeeps, ⟨_, happ⟩, ⟨msp, (hspec.keeps hkeeps).of_array rfl hspec.room hspec.least⟩,
    ⟨0, ⟨rfl, ?_, ?_⟩, ?_⟩, harray, fun k => ⟨hmem k, ?_⟩⟩
  · rw [prepareLoop, hnext]
    dsimp only
    rw [if_pos ((namespace_cascading hname).mpr hcas)]
  · dsimp only
    rw [harray, List.getElem?_cons_zero]
  · dsimp only
    rw [harray]
    exact Nat.succ_pos _
  · dsimp only
    rw [harray, List.getElem?_cons_zero]
  · have hself : Function.update mc (h.ident a) (some a) (h.ident a) = some a := Function.update_self _ _ _
    rintro (hk | rfl)
    · -- no other key has its name and owner
      have hkl : k ∈ l := (hp.mem k).mpr (.inl hk)
      have hne : h.ident k ≠ h.ident a := by
        rw [hp.keeps.ident (hks.entry k (hsub k hkl)).lt, hp.keeps.ident (hks.entry a (hsub a hal)).lt]
        intro he
        obtain rfl := hks.sorted.unique (hsub k hkl) (hsub a hal) he
        exact hp.disjoint k hk hain
      have hother : Function.update mc (h.ident a) (some a) (h.ident k) = some k := by
        rw [Function.update_of_ne hne]
        exact hcut.of_mem hk
      exact (happ.mem.mp hother).1
    · exact (happ.mem.mp hself).1

theorem namespace_name {ns : Namespace} {ps : List CString} (hne : ps ≠ []) :
    ns.name ++ (Path.mk .cascading ps).name = (Path.mk (.ns ns) ps).name := by
  rw [Path.name_ns, Path.name_cascading hne]

theorem unameOf_name (P : Path) : unameOf P.name = P.uname := by
  rw [unameOf, if_neg P.name_ne_nil, Path.unescapeKeyName_name]

theorem path_of_find {w : World} (hpath : ∀ k ∈ w.ks.array, HasName (w.cell k) (path k)) {P : Path} {k : KeyRef}
    (hfind : findByName w.heap w.ks (unameOf P.name) = some k) : k ∈ w.ks.array ∧ path k = P := by
  obtain ⟨hk, hukey⟩ := findByName_some hfind
  rw [unameOf_name] at hukey
  exact ⟨hk, Path.uname_injective ((hpath k hk).ukey.symm.trans hukey)⟩

theorem quiet_of_unspecified {w : World} (hpath : ∀ k ∈ w.ks.array, HasName (w.cell k) (path k))
    (harray : w.ks.array = a :: rest) (hcas : (path a).root = .cascading) (hne : (path a).parts ≠ [])
    (hroots : ∀ k ∈ rest, (path k).root = .cascading ∨ (path k).root = .ns .spec)
    (hspec : ∀ s ∈ rest, path s ≠ ⟨.ns .spec, (path a).parts⟩) : Quiet (content w.heap w.ks) (path a).name := by
  intro ns _
  have hname : ns.name ++ (path a).name = (Path.mk (.ns ns) (path a).parts).name := by
    rw [← namespace_name hne, ← hcas]
  rw [content, hname]
  refine Option.map_eq_none_iff.mpr (Option.eq_none_iff_forall_ne_some.mpr fun k hfind => ?_)
  obtain ⟨hk, hpk⟩ := path_of_find hpath hfind
  rw [harray] at hk
  obtain rfl | hk := List.mem_cons.mp hk
  · rw [hpk] at hcas
    cases hcas
  · obtain hr | hr := hroots k hk
    · rw [hpk] at hr
      cases hr
    · rw [hpk] at hr
      obtain rfl : ns = .spec := by simpa using hr
      exact hspec k hk hpk

theorem popping : ({ pop := true } : Options).Popping := ⟨⟨rfl, rfl, rfl, rfl, rfl, rfl, rfl⟩, rfl⟩

theorem ksLookup_depth {w : World} {P : Path} {n : ℕ} {x : Option KeyRef × World} (hlt : a < w.heap.next)
    (hname : HasName (w.cell a) P) (hcas : P.root = .cascading)
    (hlook : ksLookup cb n w a { pop := true } = .ok x) : ∃ n', n = n' + 2 := by
  have hdirect : direct P.name { pop := true } = false := by
    rw [direct, (Path.head_name P).mpr hcas]
    decide
  cases n with
  | zero => cases hlook
  | succ n =>
    cases n with
    | zero => cases (ksLookup_one popping hlt hname.finalized hdirect).symm.trans hlook
    | succ n => exact ⟨n, rfl⟩

theorem find_eq (ks : KeySet) {w : World} (hkeeps : Keeps h₀ w.heap) (hlt : ∀ k ∈ w.ks.array, k < h₀.next)
    (harray : w.ks.array = a :: rest) (P : Path) :
    findByName w.heap w.ks (unameOf P.name) = findByName h₀ { ks with array := a :: rest } P.uname := by
  rw [unameOf_name]
  refine findByName_congr harray (fun k hk => ?_) _
  exact (hkeeps.cell k (hlt k (harray ▸ hk))).ukey

/-- What stands in the state of the loop: `a` is the first key that is left, the keys behind it are cascading or of the
specification. -/
structure AtCascading (h₀ : Heap) (path : KeyRef → Path) (l : List KeyRef) (h : Heap) (cutKS specCut : KeySet)
    (a : KeyRef) (rest : List KeyRef) : Prop where
  parted : Parted h₀ l h cutKS specCut
  rewound : specCut.Rewound
  array : specCut.array = a :: rest
  cascading : (path a).root = .cascading
  below : (path a).parts ≠ []
  roots : ∀ k ∈ rest, (path k).root = .cascading ∨ (path k).root = .ns .spec

theorem prepareLoop_depth (hks : ks.Holds h₀ m) (hpath : ∀ k ∈ ks.array, HasName (h₀.cell k) (path k))
    (hsub : ∀ k ∈ l, k ∈ ks.array) (hat : AtCascading h₀ path l h cutKS specCut a rest) {n fuel : ℕ}
    {st : Heap × KeySet × KeySet} (hrun : prepareLoop cb n (fuel + 1) h cutKS specCut = .ok st) : ∃ n', n = n' + 2 := by
  obtain ⟨w, _, heq, hkeeps', -, ⟨ms, hspec⟩, hstands, -⟩ :=
    prepareLoop_head hks hpath hsub hat.parted hat.rewound hat.array hat.cascading
  have hkeeps := hat.parted.keeps.trans hkeeps'
  have hal : a ∈ ks.array := hsub a ((hat.parted.mem a).mpr (.inr (hat.array.symm ▸ List.mem_cons_self)))
  rw [heq] at hrun
  obtain ⟨x, hlook, -⟩ := except_bind_ok hrun
  exact ksLookup_depth (hspec.entry a hstands.mem).lt ((hkeeps.cell a (hks.entry a hal).lt).hasName (hpath a hal))
    hat.cascading hlook

/-- **A round that pops the key.** -/
theorem prepareLoop_pop (hcb : Transparent cb) (hks : ks.Holds h₀ m)
    (hpath : ∀ k ∈ ks.array, HasName (h₀.cell k) (path k)) (hsub : ∀ k ∈ l, k ∈ ks.array)
    (hat : AtCascading h₀ path l h cutKS specCut a rest) (hpop : Poppable h₀ ks path rest a) (n : ℕ) :
    ∃ h' cutKS' specCut', (∀ fuel, prepareLoop cb (n + 2) (fuel + 1) h cutKS specCut =
        prepareLoop cb (n + 2) fuel h' cutKS' specCut') ∧
      Keeps h h' ∧ Parted h₀ l h' cutKS' specCut' ∧ specCut'.Rewound ∧ specCut'.array = rest := by
  obtain ⟨w, cutKS', heq, hkeeps', ⟨mc, hcut⟩, ⟨ms, hspec⟩, hstands, harray, hmem⟩ :=
    prepareLoop_head hks hpath hsub hat.parted hat.rewound hat.array hat.cascading
  have hkeeps := hat.parted.keeps.trans hkeeps'
  have hin : ∀ k ∈ w.ks.array, k ∈ ks.array := fun k hk =>
    hsub k ((hat.parted.mem k).mpr (.inr (hat.array.symm ▸ harray ▸ hk)))
  have hlt₀ : ∀ k ∈ w.ks.array, k < h₀.next := fun k hk => (hks.entry k (hin k hk)).lt
  have hpath' : ∀ k ∈ w.ks.array, HasName (w.cell k) (path k) := fun k hk =>
    (hkeeps.cell k (hlt₀ k hk)).hasName (hpath k (hin k hk))
  have ha : a ∈ w.ks.array := hstands.mem
  have hlt : a < w.heap.next := (hspec.entry a ha).lt
  have hquiet := quiet_of_unspecified hpath' harray hat.cascading hat.below hat.roots hpop.unspecified
  obtain ⟨w', hlook, hpops⟩ := ksLookup_quiet hcb popping rfl ⟨⟨ms, hspec⟩, rfl⟩ hlt (hpath' a ha).finalized
    (.inr hquiet) n
  rw [find_eq ks hkeeps hlt₀ harray, hpop.found] at hlook hpops
  have hnodup : (a :: rest).Nodup := harray ▸ hspec.sorted.nodup
  have hrest : w'.ks.array = rest := by
    rw [hpops.array, harray, List.filter_cons_of_neg (by simp), List.filter_eq_self]
    intro k hk
    rw [decide_eq_true_iff]
    rintro ⟨⟩
    exact (List.nodup_cons.mp hnodup).1 hk
  have hdel := keeps_del w'.heap a
  have hframe := hpops.frame.keeps
  have hround := hframe.trans hdel
  refine ⟨keyDel w'.heap a, cutKS', w'.ks, fun fuel => ?_, hkeeps'.trans hround,
    ⟨hkeeps.trans hround, ⟨mc, hcut.keeps hround⟩, ⟨_, (hpops.holds ms hspec).keeps hdel⟩, fun k => ?_, fun k hk => ?_⟩,
    ?_, hrest⟩
  · rw [heq, hlook]
    rfl
  · rw [hat.parted.mem, hat.array, hmem, hrest, List.mem_cons, or_assoc]
  · rw [hrest]
    obtain hk | rfl := (hmem k).mp hk
    · exact fun hk' => hat.parted.disjoint k hk (hat.array.symm ▸ List.mem_cons_of_mem a hk')
    · exact (List.nodup_cons.mp hnodup).1
  · -- the cursor
    obtain ⟨-, hres⟩ := ksLookup_course hcb (n + 2) (proper_of_holds hspec) hstands.settled hlt _ _ hlook
    obtain ⟨hstays, -⟩ | ⟨-, hrewound, -⟩ | ⟨-, hnew, -⟩ := hres.outcome
    · exact absurd (hrest ▸ hstays.mem) (List.nodup_cons.mp hnodup).1
    · exact hrewound
    · exact absurd hnew (not_le.mpr hlt)

theorem prepareLoop_lost (hcb : Transparent cb) {n : ℕ} {x : KeyRef} : ∀ (fuel : ℕ) {h h' : Heap}
    {cutKS specCut cutKS' specCut' : KeySet}, prepareLoop cb n fuel h cutKS specCut = .ok (h', cutKS', specCut') →
    x < h.next → x ∉ cutKS.array → x ∉ specCut.array → x ∉ cutKS'.array ∧ x ∉ specCut'.array
  | 0, _, _, _, _, _, _, hrun, _, _, _ => by cases hrun
  | fuel + 1, h, h', cutKS, specCut, cutKS', specCut', hrun, hlt, hcut, hspec => by
    rw [prepareLoop] at hrun
    have hfields := (ksNext_fields specCut).1
    have hcur : ∀ cur, (ksNext specCut).1 = some cur → cur ∈ specCut.array := by
      intro cur hcur
      rw [ksNext_eq] at hcur
      split_ifs at hcur
      exact List.mem_of_getElem? hcur
    generalize ksNext specCut = next at hrun hfields hcur
    obtain ⟨cur, specCut₁⟩ := next
    dsimp only at hfields
    cases cur with
    | none =>
      cases hrun
      exact ⟨hcut, hfields ▸ hspec⟩
    | some cur =>
      dsimp only at hrun
      have hne : x ≠ cur := by
        rintro rfl
        exact hspec (hcur x rfl)
      split_ifs at hrun
      · obtain ⟨⟨ret, w'⟩, hlook, hrun⟩ := except_bind_ok hrun
        have hforget := ksLookup_forgets hcb n _ _ _ ret w' hlook
        have hlt₁ : x < (ksAppendKey h cutKS cur).2.1.next := hlt.trans_le (next_appendKey h cutKS cur).ge
        have hnext : w'.heap.next ≤ (ret.elim w'.heap (keyDel w'.heap)).next := by
          cases ret with
          | none => exact le_rfl
          | some r => exact (frame_del _ _).next
        refine prepareLoop_lost hcb fuel hrun (hlt₁.trans_le (hforget.next.trans hnext)) (fun hx => ?_) fun hx => ?_
        · exact (mem_appendKey h cutKS cur x hx).elim hcut hne
        · obtain hx | hx := hforget.known x hx
          · exact hspec (hfields ▸ hx)
          · exact hx.not_gt hlt₁
      · exact prepareLoop_lost hcb fuel hrun hlt hcut (hfields ▸ hspec)

theorem spec_prefix {ps : List CString} (hne : ps ≠ []) :
    (str "spec/").isPrefixOf (Path.mk (.ns .spec) ps).name = true := by
  obtain ⟨p, qs, rfl⟩ := List.exists_cons_of_ne_nil hne
  rw [Path.name_ns]
  rfl

theorem consultsSpec_of {w : World} {mw : Ident → Option KeyRef} (hspec : w.ks.Holds w.heap mw)
    (hpath : ∀ k ∈ w.ks.array, HasName (w.cell k) (path k)) (hcas : (path a).root = .cascading)
    (hne : (path a).parts ≠ []) {s : KeyRef} (hs : s ∈ w.ks.array) (hps : path s = ⟨.ns .spec, (path a).parts⟩) :
    ConsultsSpec (content w.heap w.ks) (path a).name { pop := true } := by
  have hname : str "spec" ++ (path a).name = (Path.mk (.ns .spec) (path a).parts).name := by
    rw [← namespace_name hne, ← hcas]
    rfl
  refine ⟨?_, rfl, ?_⟩
  · rw [direct, (Path.head_name _).mpr hcas]
    decide
  · rw [content, hname]
    cases hfind : findByName w.heap w.ks (unameOf (Path.mk (.ns .spec) (path a).parts).name) with
    | none =>
      refine absurd ?_ (findByName_none hspec hfind s hs)
      rw [unameOf_name, ← hps]
      exact (hpath s hs).ukey
    | some k =>
      obtain ⟨hk, hpk⟩ := path_of_find hpath hfind
      refine ⟨_, rfl, ?_⟩
      have hkname : keyName (w.heap.cell k) = (Path.mk (.ns .spec) (path a).parts).name := by
        rw [← hpk, keyName, show (w.heap.cell k).key = _ from (hpath k hk).key]
        rfl
      rw [describe, hkname]
      exact spec_prefix hne

/-- **A round that pops another key loses it.** -/
theorem prepareLoop_loses (hcb : Transparent cb) (hks : ks.Holds h₀ m)
    (hpath : ∀ k ∈ ks.array, HasName (h₀.cell k) (path k)) (hsub : ∀ k ∈ l, k ∈ ks.array)
    (hat : AtCascading h₀ path l h cutKS specCut a rest) (hpop : ¬ Poppable h₀ ks path rest a) {n fuel : ℕ}
    {h' : Heap} {cutKS' specCut' : KeySet}
    (hrun : prepareLoop cb n (fuel + 1) h cutKS specCut = .ok (h', cutKS', specCut')) :
    ∃ x ∈ l, x ∉ cutKS'.array ∧ x ∉ specCut'.array := by
  obtain ⟨w, cutKS₁, heq, hkeeps', -, ⟨ms, hspec⟩, hstands, harray, hmem⟩ :=
    prepareLoop_head hks hpath hsub hat.parted hat.rewound hat.array hat.cascading
  have hkeeps := hat.parted.keeps.trans hkeeps'
  have hinl : ∀ k ∈ w.ks.array, k ∈ l := fun k hk => (hat.parted.mem k).mpr (.inr (hat.array.symm ▸ harray ▸ hk))
  have hlt₀ : ∀ k ∈ w.ks.array, k < h₀.next := fun k hk => (hks.entry k (hsub k (hinl k hk))).lt
  have hpath' : ∀ k ∈ w.ks.array, HasName (w.cell k) (path k) := fun k hk =>
    (hkeeps.cell k (hlt₀ k hk)).hasName (hpath k (hsub k (hinl k hk)))
  have ha : a ∈ w.ks.array := hstands.mem
  have hlt : a < w.heap.next := (hspec.entry a ha).lt
  rw [heq] at hrun
  obtain ⟨⟨ret, w'⟩, hlook, hrun⟩ := except_bind_ok hrun
  -- it is enough to find another key that is popped
  obtain ⟨x, hx, hxa, hgone⟩ : ∃ x ∈ w.ks.array, x ≠ a ∧ x ∉ w'.ks.array := by
    by_cases htwin : ∀ s ∈ rest, path s ≠ ⟨.ns .spec, (path a).parts⟩
    · have hquiet := quiet_of_unspecified hpath' harray hat.cascading hat.below hat.roots htwin
      obtain ⟨n, rfl⟩ := ksLookup_depth hlt (hpath' a ha) hat.cascading hlook
      obtain ⟨w₁, hlook₁, hpops⟩ := ksLookup_quiet hcb popping rfl ⟨⟨ms, hspec⟩, rfl⟩ hlt (hpath' a ha).finalized
        (.inr hquiet) n
      obtain ⟨rfl, rfl⟩ := Prod.mk.inj (Except.ok.inj (hlook₁.symm.trans hlook))
      cases hfind : findByName w.heap w.ks (unameOf (path a).name) with
      | none =>
        refine absurd ?_ (findByName_none hspec hfind a ha)
        rw [unameOf_name]
        exact (hpath' a ha).ukey
      | some k =>
        rw [hfind] at hpops
        refine ⟨k, hpops.mem k rfl, ?_, ?_⟩
        · rintro rfl
          rw [find_eq ks hkeeps hlt₀ harray] at hfind
          exact hpop ⟨htwin, hfind⟩
        · rw [hpops.array, List.mem_filter]
          simp
    · push Not at htwin
      obtain ⟨s, hs, hps⟩ := htwin
      have hconsults := consultsSpec_of hspec hpath' hat.cascading hat.below (harray ▸ List.mem_cons_of_mem a hs) hps
      obtain ⟨x, hx, hpre, hgone, -⟩ := ksLookup_loses hcb popping ⟨⟨ms, hspec⟩, rfl⟩ hlt (hpath' a ha).finalized
        hconsults hlook
      refine ⟨x, hx, ?_, hgone⟩
      rintro rfl
      obtain ⟨t, ht⟩ := List.isPrefixOf_iff_prefix.mp hpre
      have hhead := (Path.head_name _).mpr hat.cascading
      rw [keyName, (hpath' x ha).key, Option.getD_some] at ht
      rw [← ht] at hhead
      exact absurd (Option.some.inj hhead) (by decide)
  have hnext : w'.heap.next ≤ (ret.elim w'.heap (keyDel w'.heap)).next := by
    cases ret with
    | none => exact le_rfl
    | some r => exact (frame_del _ _).next
  have hforget := ksLookup_forgets hcb n _ _ _ ret w' hlook
  refine ⟨x, hinl x hx, prepareLoop_lost hcb fuel hrun ?_ ?_ hgone⟩
  · exact (hspec.entry x hx).lt.trans_le (hforget.next.trans hnext)
  · rw [hmem, not_or]
    refine ⟨fun hk => hat.parted.disjoint x hk ?_, hxa⟩
    rw [hat.array, ← harray]
    exact hx

/-! ### All rounds -/

/-- Every cascading key is popped by its own name. -/
def AllPoppable (h : Heap) (ks : KeySet) (path : KeyRef → Path) (l : List KeyRef) : Prop :=
  ∀ pre a post, l = pre ++ a :: post → (path a).root = .cascading → Poppable h ks path post a

theorem allPoppable_cons : AllPoppable h ks path (a :: rest) ↔
    ((path a).root = .cascading → Poppable h ks path rest a) ∧ AllPoppable h ks path rest := by
  constructor
  · intro hall
    refine ⟨hall [] a rest rfl, fun pre b post hl => hall (a :: pre) b post ?_⟩
    rw [hl, List.cons_append]
  · rintro ⟨hhead, hall⟩ pre b post hl
    cases pre with
    | nil =>
      obtain ⟨rfl, rfl⟩ := List.cons.inj hl
      exact hhead
    | cons c pre =>
      obtain ⟨-, rfl⟩ := List.cons.inj hl
      exact hall pre b post rfl

theorem prepareLoop_skips {n : ℕ} : ∀ (r : List KeyRef) {fuel : ℕ} {specCut : KeySet}, specCut.remaining = r →
    (∀ k ∈ r, keyGetNamespace (h.cell k) ≠ .cascading) → r.length < fuel →
    ∃ specCut', prepareLoop cb n fuel h cutKS specCut = .ok (h, cutKS, specCut') ∧
      specCut'.array = specCut.array ∧ specCut'.alloc = specCut.alloc
  | r, 0, _, _, _, hfuel => absurd hfuel (Nat.not_lt_zero _)
  | r, fuel + 1, specCut, hrem, hns, hfuel => by
    have hfields := ksNext_fields specCut
    obtain ⟨-, hnone, -⟩ | ⟨k, rest, hcons, hnext, -, hrest⟩ := ksNext_cases specCut
    · rw [prepareLoop]
      generalize ksNext specCut = next at hnone hfields
      obtain ⟨cur, specCut₁⟩ := next
      dsimp only at hnone hfields
      subst hnone
      exact ⟨specCut₁, rfl, hfields⟩
    · rw [hcons] at hrem
      subst hrem
      obtain ⟨specCut', hrun, harray, halloc⟩ := prepareLoop_skips (n := n) rest hrest
        (fun k hk => hns k (List.mem_cons_of_mem _ hk)) (Nat.lt_of_succ_lt_succ hfuel)
      refine ⟨specCut', ?_, harray.trans hfields.1, halloc.trans hfields.2⟩
      rw [hnext] at hrun
      rw [prepareLoop, hnext]
      dsimp only
      rw [if_neg (hns k List.mem_cons_self)]
      exact hrun

/-- The state of the loop: `r` is left, cascading keys before those of the specification. -/
structure InLoop (h₀ : Heap) (path : KeyRef → Path) (l : List KeyRef) (h : Heap) (cutKS specCut : KeySet)
    (r : List KeyRef) : Prop where
  parted : Parted h₀ l h cutKS specCut
  rewound : specCut.Rewound
  array : specCut.array = r
  roots : ∀ k ∈ r, (path k).root = .cascading ∧ (path k).parts ≠ [] ∨ (path k).root = .ns .spec
  ordered : r.Pairwise fun x y => (path y).root = .cascading → (path x).root = .cascading

theorem InLoop.atCascading (hin : InLoop h₀ path l h cutKS specCut (a :: rest)) (hcas : (path a).root = .cascading) :
    AtCascading h₀ path l h cutKS specCut a rest where
  parted := hin.parted
  rewound := hin.rewound
  array := hin.array
  cascading := hcas
  below := by
    obtain ⟨-, hne⟩ | hr := hin.roots a List.mem_cons_self
    · exact hne
    · rw [hcas] at hr
      cases hr
  roots k hk := (hin.roots k (List.mem_cons_of_mem a hk)).imp_left And.left

theorem InLoop.tail {h' : Heap} {cutKS' specCut' : KeySet} (hin : InLoop h₀ path l h cutKS specCut (a :: rest))
    (hp : Parted h₀ l h' cutKS' specCut') (hr : specCut'.Rewound) (harray : specCut'.array = rest) :
    InLoop h₀ path l h' cutKS' specCut' rest where
  parted := hp
  rewound := hr
  array := harray
  roots k hk := hin.roots k (List.mem_cons_of_mem a hk)
  ordered := (List.pairwise_cons.mp hin.ordered).2

theorem InLoop.no_cascading (hin : InLoop h₀ path l h cutKS specCut (a :: rest)) (hcas : (path a).root ≠ .cascading) :
    ∀ k ∈ a :: rest, (path k).root ≠ .cascading := by
  intro k hk
  obtain rfl | hk := List.mem_cons.mp hk
  · exact hcas
  · exact fun hr => hcas ((List.pairwise_cons.mp hin.ordered).1 k hk hr)

/-- **Where every cascading key is popped by its name, all of them are moved to `cutKS`.** -/
theorem prepareLoop_parted (hcb : Transparent cb) (hks : ks.Holds h₀ m)
    (hpath : ∀ k ∈ ks.array, HasName (h₀.cell k) (path k)) (hsub : ∀ k ∈ l, k ∈ ks.array) (n : ℕ) :
    ∀ (r : List KeyRef) {fuel : ℕ} {h : Heap} {cutKS specCut : KeySet}, InLoop h₀ path l h cutKS specCut r →
      AllPoppable h₀ ks path r → r.length < fuel →
      ∃ h' cutKS' specCut', prepareLoop cb (n + 2) fuel h cutKS specCut = .ok (h', cutKS', specCut') ∧
        Keeps h h' ∧ Parted h₀ l h' cutKS' specCut' := by
  -- the rounds without a cascading key
  have hskip : ∀ {r : List KeyRef} {fuel : ℕ} {h : Heap} {cutKS specCut : KeySet},
      InLoop h₀ path l h cutKS specCut r → (∀ k ∈ r, (path k).root ≠ .cascading) → r.length < fuel →
      ∃ h' cutKS' specCut', prepareLoop cb (n + 2) fuel h cutKS specCut = .ok (h', cutKS', specCut') ∧
        Keeps h h' ∧ Parted h₀ l h' cutKS' specCut' := by
    intro r fuel h cutKS specCut hin hno hfuel
    have hrem : specCut.remaining = r := by
      rw [KeySet.remaining, hin.rewound.nextIndex, List.drop_zero, hin.array]
    have hns : ∀ k ∈ r, keyGetNamespace (h.cell k) ≠ .cascading := fun k hk => by
      have hkl : k ∈ ks.array := hsub k ((hin.parted.mem k).mpr (.inr (hin.array.symm ▸ hk)))
      have hname := (hin.parted.keeps.cell k (hks.entry k hkl).lt).hasName (hpath k hkl)
      exact fun hc => hno k hk ((namespace_cascading hname).mp hc)
    obtain ⟨specCut', hrun, harray, halloc⟩ : ∃ specCut', prepareLoop cb (n + 2) fuel h cutKS specCut =
        .ok (h, cutKS, specCut') ∧ specCut'.array = specCut.array ∧ specCut'.alloc = specCut.alloc :=
      prepareLoop_skips r hrem hns hfuel
    obtain ⟨ms, hspec⟩ := hin.parted.right
    have hroom := hspec.room
    refine ⟨h, cutKS, specCut', hrun, .refl h, hin.parted.keeps, hin.parted.left, ⟨ms, hspec.of_array harray ?_ ?_⟩, ?_, ?_⟩
    · rw [halloc]
      exact hroom
    · rw [halloc]
      exact hspec.least
    · rw [harray]
      exact hin.parted.mem
    · rw [harray]
      exact hin.parted.disjoint
  intro r
  induction r with
  | nil => exact fun hin _ hfuel => hskip hin (fun k hk => absurd hk List.not_mem_nil) hfuel
  | cons a rest ih =>
    intro fuel h cutKS specCut hin hall hfuel
    by_cases hcas : (path a).root = .cascading
    · obtain ⟨hpop, hall⟩ := allPoppable_cons.mp hall
      obtain ⟨h₁, cutKS₁, specCut₁, hround, hkeeps, hp, hr, harray⟩ :=
        prepareLoop_pop hcb hks hpath hsub (hin.atCascading hcas) (hpop hcas) n
      cases fuel with
      | zero => exact absurd hfuel (Nat.not_lt_zero _)
      | succ fuel =>
        obtain ⟨h', cutKS', specCut', hrun, hkeeps', hp'⟩ :=
          ih (hin.tail hp hr harray) hall (Nat.lt_of_succ_lt_succ hfuel)
        exact ⟨h', cutKS', specCut', (hround fuel).trans hrun, hkeeps.trans hkeeps', hp'⟩
    · exact hskip hin (hin.no_cascading hcas) hfuel

/-- **Otherwise a key is lost.** -/
theorem prepareLoop_not_parted (hcb : Transparent cb) (hks : ks.Holds h₀ m)
    (hpath : ∀ k ∈ ks.array, HasName (h₀.cell k) (path k)) (hsub : ∀ k ∈ l, k ∈ ks.array) {n : ℕ} {h' : Heap}
    {cutKS' specCut' : KeySet} : ∀ (r : List KeyRef) {fuel : ℕ} {h : Heap} {cutKS specCut : KeySet},
      InLoop h₀ path l h cutKS specCut r → ¬ AllPoppable h₀ ks path r →
      prepareLoop cb n fuel h cutKS specCut = .ok (h', cutKS', specCut') →
      ∃ x ∈ l, x ∉ cutKS'.array ∧ x ∉ specCut'.array
  | [], _, _, _, _, _, hnot, _ => by
    refine absurd (fun pre a post hl => ?_) hnot
    cases pre <;> cases hl
  | a :: rest, 0, _, _, _, _, _, hrun => by cases hrun
  | a :: rest, fuel + 1, h, cutKS, specCut, hin, hnot, hrun => by
    by_cases hcas : (path a).root = .cascading
    · by_cases hpop : Poppable h₀ ks path rest a
      · have hat := hin.atCascading hcas
        obtain ⟨n, rfl⟩ := prepareLoop_depth hks hpath hsub hat hrun
        obtain ⟨h₁, cutKS₁, specCut₁, hround, -, hp, hr, harray⟩ := prepareLoop_pop hcb hks hpath hsub hat hpop n
        rw [hround] at hrun
        refine prepareLoop_not_parted hcb hks hpath hsub rest (hin.tail hp hr harray) (fun hall => hnot ?_) hrun
        exact allPoppable_cons.mpr ⟨fun _ => hpop, hall⟩
      · exact prepareLoop_loses hcb hks hpath hsub (hin.atCascading hcas) hpop hrun
    · -- no cascading key is left
      refine absurd (fun pre b post hl hb => ?_) hnot
      exact absurd hb (hin.no_cascading hcas b (hl ▸ List.mem_append_right pre List.mem_cons_self))

end Loop

/-! ## The whole function -/

/-- Each key is in one of the two key sets, and appending the second one to the first gives the key set back. -/
structure Lossless (h : Heap) (ks : KeySet) (h' : Heap) (rest cutKS : KeySet) : Prop where
  keeps : Keeps h h'
  perm : (rest.array ++ cutKS.array).Perm ks.array
  restored : (ksAppend h' rest cutKS).2.2.array = ks.array

section Whole

variable {h₀ h : Heap} {ks : KeySet} {m : Ident → Option KeyRef} {path : KeyRef → Path} {P : Path}
  {parentKey : KeyRef} {l : List KeyRef} {a b : KeySet} {cb : Callback}

theorem mem_appendLoop : ∀ (l : List KeyRef) (h : Heap) (ks : KeySet),
    ∀ k ∈ (ksAppendLoop h ks l).2.array, k ∈ ks.array ∨ k ∈ l
  | [], _, _, _, hk => .inl hk
  | c :: l, h, ks, k, hk => by
    obtain hk | hk := mem_appendLoop l _ _ k hk
    · refine (mem_appendKey h ks c k hk).imp_right fun he => ?_
      rw [he]
      exact List.mem_cons_self
    · exact .inr (List.mem_cons_of_mem c hk)

theorem mem_of_append (h : Heap) (ks toAppend : KeySet) :
    ∀ k ∈ (ksAppend h ks toAppend).2.2.array, k ∈ ks.array ∨ k ∈ toAppend.array := by
  intro k hk
  unfold ksAppend at hk
  split_ifs at hk
  · exact .inl hk
  · exact mem_appendLoop toAppend.array h (ksResize ks _).2 k hk

theorem Parted.append (hks : ks.Holds h₀ m) (hsub : ∀ k ∈ l, k ∈ ks.array) (hp : Parted h₀ l h a b) :
    (∃ m, (ksAppend h a b).2.2.Holds (ksAppend h a b).2.1 m) ∧ ∀ k, k ∈ (ksAppend h a b).2.2.array ↔ k ∈ l := by
  obtain ⟨ma, ha⟩ := hp.left
  obtain ⟨mb, hb⟩ := hp.right
  refine ⟨⟨_, ksAppend_holds ha hb⟩, fun k => ?_⟩
  rw [hp.mem]
  refine mem_append ha hb (fun x hx y hy he => ?_) k
  have hxs := hsub x ((hp.mem x).mpr (.inl hx))
  have hys := hsub y ((hp.mem y).mpr (.inr hy))
  rw [hp.keeps.ident (hks.entry x hxs).lt, hp.keeps.ident (hks.entry y hys).lt] at he
  exact hks.sorted.unique hxs hys he

theorem Parted.lossless (hks : ks.Holds h₀ m) (hp : Parted h₀ ks.array h a b) : Lossless h₀ ks h a b := by
  obtain ⟨⟨_, hheld⟩, hmem⟩ := hp.append hks fun _ => id
  obtain ⟨_, ha⟩ := hp.left
  obtain ⟨_, hb⟩ := hp.right
  refine ⟨hp.keeps, ?_, ?_⟩
  · have hnodup : (a.array ++ b.array).Nodup :=
      List.nodup_append'.mpr ⟨ha.sorted.nodup, hb.sorted.nodup, fun k hk hk' => hp.disjoint k hk hk'⟩
    refine (List.perm_ext_iff_of_nodup hnodup hks.sorted.nodup).mpr fun k => ?_
    rw [List.mem_append, hp.mem]
  · exact hheld.sorted.eq_of_mem (hks.keeps (hp.keeps.trans (keeps_append h a b))).sorted hmem

theorem prepareEnd_parted {rest ret cutKS specCut : KeySet} (hks : ks.Holds h₀ m)
    {h' : Heap} (hkeeps : Keeps h' h) (hfirst : Parted h₀ ks.array h' rest ret)
    (hp : Parted h₀ ret.array h cutKS specCut) (cutKey specCutKey : KeyRef) :
    ∃ h' rest' cutKS', prepareEnd rest cutKey specCutKey (h, cutKS, specCut) = (h', rest', some cutKS') ∧
      Parted h₀ ks.array h' rest' cutKS' := by
  obtain ⟨mr, hrest⟩ := hfirst.left
  obtain ⟨mc, hcut⟩ := hp.left
  have hin : ∀ k, k ∈ cutKS.array ∨ k ∈ specCut.array → k ∈ ret.array := fun k => (hp.mem k).mpr
  have hput : Parted h₀ (rest.array ++ specCut.array) h rest specCut := by
    refine ⟨hp.keeps, ⟨mr, hrest.keeps hkeeps⟩, hp.right, fun k => List.mem_append, fun k hk hk' => ?_⟩
    exact hfirst.disjoint k hk (hin k (.inr hk'))
  obtain ⟨⟨md, hheld⟩, hmem⟩ := hput.append hks fun k hk => by
    rw [List.mem_append] at hk
    exact (hfirst.mem k).mpr (hk.imp_right fun hk => hin k (.inr hk))
  set h₁ := (ksAppend h rest specCut).2.1 with hh₁
  have hend : Keeps h₁ (keyDel (keyDel (ksDel h₁ specCut) specCutKey) cutKey) :=
    (keeps_close specCut.array h₁).trans ((keeps_del _ _).trans (keeps_del _ _))
  have hcut₁ := hcut.keeps ((keeps_append h rest specCut).trans hend)
  refine ⟨_, _, _, rfl, (hp.keeps.trans (keeps_append h rest specCut)).trans hend, ⟨md, hheld.keeps hend⟩,
    ⟨mc, hcut₁.of_array rfl hcut₁.room hcut₁.least⟩, fun k => ?_, fun k hk hk' => ?_⟩
  · change k ∈ ks.array ↔ k ∈ (ksAppend h rest specCut).2.2.array ∨ k ∈ cutKS.array
    rw [hmem, List.mem_append, hfirst.mem, hp.mem, or_assoc]
    exact or_congr_right or_comm
  · obtain hk | hk := List.mem_append.mp ((hmem k).mp hk)
    · exact hfirst.disjoint k hk (hin k (.inl hk'))
    · exact hp.disjoint k hk' hk

theorem inLoop_start {ret cutKS specCut : KeySet} (hks : ks.Holds h₀ m)
    (hpath : ∀ k ∈ ks.array, HasName (h₀.cell k) (path k)) {ps : List CString}
    (hp : Parted h₀ ret.array h cutKS specCut) (harray : specCut.array = specRun path ps ks.array) :
    InLoop h₀ path ret.array h cutKS (ksRewind specCut) (specRun path ps ks.array) := by
  obtain ⟨ms, hspec⟩ := hp.right
  have hrun : (specRun path ps ks.array).Sublist ks.array := firstRun_sublist _
  refine ⟨⟨hp.keeps, hp.left, ⟨ms, hspec.of_array rfl hspec.room hspec.least⟩, hp.mem, hp.disjoint⟩, ⟨rfl, rfl⟩, harray,
    fun k hk => ?_, ?_⟩
  · obtain ⟨hr, hpre, hne⟩ | ⟨hr, -⟩ := selected_of_mem_specRun hk
    · refine .inl ⟨hr, fun hnil => hne ?_⟩
      rw [hnil] at hpre ⊢
      exact List.prefix_nil.mp hpre
    · exact .inr hr
  · refine List.pairwise_iff_forall_sublist.mpr fun {x y} hxy hy => ?_
    have hle := uname_isLE hks.sorted hpath (hxy.trans hrun)
    obtain ⟨hr, -, -⟩ | ⟨hr, -⟩ := selected_of_mem_specRun (hxy.subset List.mem_cons_self)
    · exact hr
    · exact absurd hle (not_isLE_cascading hr hy)

theorem prepareGlobalKS_lossless (hcb : Transparent cb) (hks : ks.Holds h m)
    (hpath : ∀ k ∈ ks.array, HasName (h.cell k) (path k)) (hP : HasName (h.cell parentKey) P)
    (hall : AllPoppable h ks path (specRun path P.parts ks.array)) :
    ∃ n h' rest cutKS, prepareGlobalKS cb n h ks parentKey = .ok (h', rest, some cutKS) ∧
      Lossless h ks h' rest cutKS := by
  obtain ⟨h₁, rest, ret, cutKS, specCut, cutKey, specCutKey, heq, hfirst, hsecond, harray⟩ :=
    prepareCut_spec hks hpath hP
  have hsub : ∀ k ∈ ret.array, k ∈ ks.array := fun k hk => (hfirst.mem k).mpr (.inr hk)
  set r := specRun path P.parts ks.array
  obtain ⟨h₂, cutKS', specCut', hrun, hkeeps, hp⟩ := prepareLoop_parted hcb hks hpath hsub r.length r
    (inLoop_start hks hpath hsecond harray) hall (Nat.lt_add_of_pos_right (by decide : 0 < 2))
  obtain ⟨h', rest', cut, hend, hp'⟩ := prepareEnd_parted hks hkeeps hfirst hp cutKey specCutKey
  refine ⟨r.length + 2, h', rest', cut, ?_, hp'.lossless hks⟩
  rw [heq, hrun, ← hend]
  rfl

theorem prepareGlobalKS_loses (hcb : Transparent cb) (hks : ks.Holds h m)
    (hpath : ∀ k ∈ ks.array, HasName (h.cell k) (path k)) (hP : HasName (h.cell parentKey) P)
    (hnot : ¬ AllPoppable h ks path (specRun path P.parts ks.array)) {n : ℕ} {h' : Heap} {rest' cut : KeySet}
    (hrun : prepareGlobalKS cb n h ks parentKey = .ok (h', rest', some cut)) : ¬ Lossless h ks h' rest' cut := by
  intro hlossless
  obtain ⟨h₁, rest, ret, cutKS, specCut, cutKey, specCutKey, heq, hfirst, hsecond, harray⟩ :=
    prepareCut_spec hks hpath hP
  have hsub : ∀ k ∈ ret.array, k ∈ ks.array := fun k hk => (hfirst.mem k).mpr (.inr hk)
  rw [heq] at hrun
  rcases hloop : prepareLoop cb n n h₁ cutKS (ksRewind specCut) with e | ⟨h₂, cutKS', specCut'⟩
  · rw [hloop] at hrun
    cases hrun
  · rw [hloop] at hrun
    obtain ⟨x, hx, hcut, hspec⟩ := prepareLoop_not_parted hcb hks hpath hsub _ (inLoop_start hks hpath hsecond harray)
      hnot hloop
    cases hrun
    have hmem := hlossless.perm.mem_iff.mpr (hsub x hx)
    obtain hk | hk := List.mem_append.mp hmem
    · obtain hk | hk := mem_of_append h₂ rest specCut' x hk
      · exact hfirst.disjoint x hk hx
      · exact hspec hk
    · exact hcut hk

/-- **`prepareGlobalKS` loses no key exactly where each cascading key of the first round is popped by its name**: no
key of the specification of that name was cut with it, and the search finds no other key of that name. -/
theorem prepareGlobalKS_lossless_iff (hcb : Transparent cb) (hks : ks.Holds h m)
    (hpath : ∀ k ∈ ks.array, HasName (h.cell k) (path k)) (hP : HasName (h.cell parentKey) P) :
    (∃ n h' rest cutKS, prepareGlobalKS cb n h ks parentKey = .ok (h', rest, some cutKS) ∧
      Lossless h ks h' rest cutKS) ↔ AllPoppable h ks path (specRun path P.parts ks.array) := by
  constructor
  · rintro ⟨n, h', rest, cutKS, hrun, hlossless⟩
    by_contra hnot
    exact prepareGlobalKS_loses hcb hks hpath hP hnot hrun hlossless
  · exact prepareGlobalKS_lossless hcb hks hpath hP

end Whole

/-- `/p/x` and the key of that path in a namespace; the key `2` is `user/p`. -/
def globalSet (n : Namespace) : Heap × KeySet :=
  ksNew (.ofList [keyNewName (str "/p/x"), keyNewName (n.name ++ str "/p/x"), keyNewName (str "user/p")]) 2 [0, 1]

/-- The parts of the name of the parent key, and of the keys below. -/
def partsP : List CString := [⟨str "p", by decide⟩]

def globalPath (n : Namespace) (k : KeyRef) : Path :=
  ⟨if k = 0 then .cascading else .ns n, partsP ++ [⟨str "x", by decide⟩]⟩

theorem globalSet_spec (n : Namespace) : (∃ m, (globalSet n).2.Holds (globalSet n).1 m) ∧
    (∀ k ∈ (globalSet n).2.array, HasName ((globalSet n).1.cell k) (globalPath n k)) ∧
    HasName ((globalSet n).1.cell 2) ⟨.ns .user, partsP⟩ := by
  have hkeys : ∀ k ∈ [0, 1], HasName ((globalSet n).1.cell k) (globalPath n k) := by
    intro k hk
    obtain rfl | rfl : k = 0 ∨ k = 1 := by simpa using hk
    · cases n <;> exact ⟨rfl, rfl, rfl, rfl⟩
    · cases n <;> exact ⟨rfl, rfl, rfl, rfl⟩
  have harray : ∀ k ∈ (globalSet n).2.array, k ∈ [0, 1] := by
    cases n <;> decide +kernel
  refine ⟨⟨_, ksNew_holds 2 fun k hk => ?_⟩, fun k hk => hkeys k (harray k hk), ?_⟩
  · obtain rfl | rfl : k = 0 ∨ k = 1 := by simpa using hk
    · cases n <;> exact ⟨by decide, by decide, rfl⟩
    · cases n <;> exact ⟨by decide, by decide, rfl⟩
  · cases n <;> exact ⟨rfl, rfl, rfl, rfl⟩

theorem prepareGlobalKS_lossless_iff_user :
    (∃ n h' rest cutKS, prepareGlobalKS noCallback n (globalSet .user).1 (globalSet .user).2 2 =
        .ok (h', rest, some cutKS) ∧ Lossless (globalSet .user).1 (globalSet .user).2 h' rest cutKS) ↔
      AllPoppable (globalSet .user).1 (globalSet .user).2 (globalPath .user)
        (specRun (globalPath .user) partsP (globalSet .user).2.array) :=
  prepareGlobalKS_lossless_iff transparent_noCallback (globalSet_spec .user).1.choose_spec (globalSet_spec .user).2.1
    (globalSet_spec .user).2.2

/-- `spec/p/x` is popped in the place of `/p/x`, which is then in both key sets. -/
theorem not_prepareGlobalKS_lossless :
    ((prepareGlobalKS noCallback 4 (globalSet .spec).1 (globalSet .spec).2 2).map fun x =>
      (x.2.1.array, x.2.2.map KeySet.array)) = .ok ([0], some [0]) ∧
    ¬ ∃ n h' rest cutKS, prepareGlobalKS noCallback n (globalSet .spec).1 (globalSet .spec).2 2 =
        .ok (h', rest, some cutKS) ∧ Lossless (globalSet .spec).1 (globalSet .spec).2 h' rest cutKS := by
  refine ⟨by decide +kernel, ?_⟩
  rintro ⟨n, h', rest, cutKS, hrun, hlossless⟩
  obtain ⟨⟨m, hm⟩, hpath, hP⟩ := globalSet_spec .spec
  have hcut : specRun (globalPath .spec) partsP (globalSet .spec).2.array = [0, 1] := by decide +kernel
  refine prepareGlobalKS_loses transparent_noCallback hm hpath hP (fun hall => ?_) hrun hlossless
  exact (hall [] 0 [1] hcut rfl).unspecified 1 List.mem_cons_self rfl

end Elektra
