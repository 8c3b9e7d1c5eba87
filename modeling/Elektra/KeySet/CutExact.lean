import Elektra.KeySet.Cut

/-!
# Which keys ksCut takes

`ksCut` is to take exactly the keys at or below the cutpoint, those of a cascading cutpoint in every
namespace. It takes the first run of them; in the order of keys, the cascading ones come before those
of a namespace, so that there can be a key between.

* `cutSelects`, `CutsExactly`: what `ksCut` is to do;
* `Selected`, `Scattered`, **`contiguous_iff`**: the keys to cut, and when there is a key between;
* **`ksCut_exact_iff`**.
-/

namespace Elektra

open Run

/-! ## What is to be cut -/

/-- The keys at or below the cutpoint; a cascading cutpoint is taken in each namespace. -/
def cutSelects (h : Heap) (cutpoint k : KeyRef) : Bool :=
  let key := h.cell cutpoint
  if Cascading key then
    namespaces.any fun ns =>
      keyIsBelowOrSame (elektraFinalizeName key (cutName ns (keyName key))) (h.cell k)
  else keyIsBelowOrSame key (h.cell k)

/-- `ksCut` returns the keys to be cut and leaves the others, all in the order they were in. -/
def CutsExactly (h : Heap) (ks : KeySet) (cutpoint : KeyRef) : Prop :=
  ∃ returned, (ksCut h ks cutpoint).2.2 = some returned ∧
    returned.array = ks.array.filter (cutSelects h cutpoint) ∧
    (ksCut h ks cutpoint).2.1.array = ks.array.filter fun k => !cutSelects h cutpoint k

/-! ## Keys below a cutpoint -/

/-- A cascading path strictly below `ps`. -/
def CascadingBelow (ps : List CString) (Q : Path) : Prop :=
  Q.root = .cascading ∧ ps <+: Q.parts ∧ ps ≠ Q.parts

/-- A path at or below `ps` in the namespace. -/
def InNamespace (n : Namespace) (ps : List CString) (Q : Path) : Prop :=
  Q.root = .ns n ∧ ps <+: Q.parts

def Selected (n : Namespace) (ps : List CString) (Q : Path) : Prop :=
  CascadingBelow ps Q ∨ InNamespace n ps Q

instance (n : Namespace) (ps : List CString) (Q : Path) : Decidable (Selected n ps Q) :=
  inferInstanceAs (Decidable ((_ ∧ _ ∧ _) ∨ (_ ∧ _)))

theorem belowOrSame_iff {key check : Key} {n : Namespace} {ps : List CString} {Q : Path}
    (hk : HasName key ⟨.ns n, ps⟩) (hc : HasName check Q) :
    keyIsBelowOrSame key check = true ↔ Selected n ps Q := by
  rw [keyIsBelowOrSame_iff hk hc, Path.Above]
  obtain ⟨r, qs⟩ := Q
  simp only [Selected, CascadingBelow, InNamespace, Path.mk.injEq]
  constructor
  · rintro (⟨hr | hr | hr, hp, hne⟩ | ⟨rfl, rfl⟩)
    · exact Or.inr ⟨hr.symm, hp⟩
    · cases hr
    · exact Or.inl ⟨hr, hp, hne⟩
    · exact Or.inr ⟨rfl, List.prefix_rfl⟩
  · rintro (⟨hr, hp, hne⟩ | ⟨rfl, hp⟩)
    · exact Or.inl ⟨Or.inr (Or.inr hr), hp, hne⟩
    · by_cases he : ps = qs
      · exact Or.inr ⟨rfl, he⟩
      · exact Or.inl ⟨Or.inl rfl, hp, he⟩

theorem cutName_eq (n : Namespace) (ps : List CString) :
    cutName n (Path.mk .cascading ps).name = (Path.mk (.ns n) ps).name := by
  rw [Path.name_ns]
  by_cases h : ps = []
  · subst h
    cases n <;> rfl
  · have hne : (Path.mk .cascading ps).name ≠ [pathSeparator] := by
      rw [Path.name_cascading h]
      obtain ⟨p, qs, rfl⟩ := List.exists_cons_of_ne_nil h
      simp [escapes, (isPart_escape p.1).ne_nil]
    rw [cutName, if_neg hne, Path.name_cascading h]

theorem Alike.hasName {key key' : Key} {P : Path} (h : Alike key key') (hk : HasName key P) :
    HasName key' P :=
  ⟨h.key.trans hk.key, h.keySize.trans hk.keySize, h.ukey.trans hk.ukey,
    h.keyUSize.trans hk.keyUSize⟩

/-! ## Keys between -/

/-- A cascading key below, a key of the namespace at or below, and a key between them that is
neither. -/
def Scattered (path : KeyRef → Path) (n : Namespace) (ps : List CString) (l : List KeyRef) : Prop :=
  ∃ a b c, [a, b, c].Sublist l ∧ CascadingBelow ps (path a) ∧ ¬ Selected n ps (path b) ∧
    InNamespace n ps (path c)

section Order

variable {h : Heap} {path : KeyRef → Path} {l : List KeyRef}

theorem uname_isLE (hs : SortedArray.Sorted h.ident identCmp l)
    (hpath : ∀ k ∈ l, HasName (h.cell k) (path k)) {a b : KeyRef} (hab : [a, b].Sublist l) :
    (compare (path a).uname (path b).uname).isLE := by
  have hlt := List.rel_of_pairwise_cons (hs.sublist hab) List.mem_cons_self
  rw [identCmp_eq] at hlt
  have ha := hpath a (hab.subset List.mem_cons_self)
  have hb := hpath b (hab.subset (List.mem_cons_of_mem a List.mem_cons_self))
  rw [← ha.ukey, ← hb.ukey]
  exact Ordering.isLE_left_of_isLE_then ((congrArg Ordering.isLE hlt).trans rfl)

theorem not_isLE_cascading {n : Namespace} {P Q : Path} (hP : P.root = .ns n)
    (hQ : Q.root = .cascading) : ¬ (compare P.uname Q.uname).isLE := by
  obtain ⟨r, ps⟩ := P
  obtain ⟨r', qs⟩ := Q
  obtain rfl : r = _ := hP
  obtain rfl : r' = _ := hQ
  rw [Path.uname_ns, Path.uname_cascading]
  cases n <;> exact Bool.false_ne_true

/-- What stands between paths below `ps` in one namespace is below `ps` in it. -/
theorem prefix_between {P Q R : Path} {r : Root} {ps : List CString} (hP : P.root = r)
    (hPp : ps <+: P.parts) (hR : R.root = r) (hRp : ps <+: R.parts)
    (hPQ : (compare P.uname Q.uname).isLE) (hQR : (compare Q.uname R.uname).isLE) :
    Q.root = r ∧ ps <+: Q.parts := by
  have h1 : (Path.mk r ps).uname <+: P.uname := Path.uname_prefix.mpr ⟨hP.symm, hPp⟩
  have h2 : (Path.mk r ps).uname <+: R.uname := Path.uname_prefix.mpr ⟨hR.symm, hRp⟩
  have h3 := Path.uname_prefix.mp (prefix_of_between h1 h2 hPQ hQR)
  exact ⟨h3.1.symm, h3.2⟩

theorem cascading_between {P Q R : Path} {ps : List CString} (hP : CascadingBelow ps P) (hR : CascadingBelow ps R)
    (hPQ : (compare P.uname Q.uname).isLE) (hQR : (compare Q.uname R.uname).isLE) : CascadingBelow ps Q := by
  obtain ⟨hPr, hPp, hPne⟩ := hP
  obtain ⟨hQr, hQp⟩ := prefix_between hPr hPp hR.1 hR.2.1 hPQ hQR
  refine ⟨hQr, hQp, fun hQe => ?_⟩
  have hpre : Q.uname <+: P.uname := Path.uname_prefix.mpr ⟨hQr.trans hPr.symm, hQe ▸ hPp⟩
  exact hPne (hQe.trans (congrArg Path.parts (Path.uname_injective (eq_of_prefix_of_isLE hpre hPQ))).symm)

/-- **The keys to cut are contiguous unless they are scattered.** -/
theorem contiguous_iff {n : Namespace} {ps : List CString} {p : KeyRef → Bool}
    (hs : SortedArray.Sorted h.ident identCmp l) (hpath : ∀ k ∈ l, HasName (h.cell k) (path k))
    (hp : ∀ k ∈ l, p k = true ↔ Selected n ps (path k)) :
    Contiguous p l ↔ ¬ Scattered path n ps l := by
  constructor
  · rintro hcon ⟨a, b, c, hsub, ha, hb, hc⟩
    have hmem : ∀ k ∈ [a, b, c], k ∈ l := fun k hk => hsub.subset hk
    refine hb ((hp b (hmem b (by simp))).mp (hcon a b c hsub ?_ ?_))
    · exact (hp a (hmem a (by simp))).mpr (Or.inl ha)
    · exact (hp c (hmem c (by simp))).mpr (Or.inr hc)
  · intro hscat a b c hsub ha hc
    have hmem : ∀ k ∈ [a, b, c], k ∈ l := fun k hk => hsub.subset hk
    have hab : (compare (path a).uname (path b).uname).isLE :=
      uname_isLE hs hpath (List.Sublist.trans (by simp) hsub)
    have hbc : (compare (path b).uname (path c).uname).isLE :=
      uname_isLE hs hpath (List.Sublist.trans (by simp) hsub)
    rw [hp b (hmem b (by simp))]
    rw [hp a (hmem a (by simp))] at ha
    rw [hp c (hmem c (by simp))] at hc
    obtain ha | ⟨har, hap⟩ := ha
    · obtain hc | hc := hc
      · exact Or.inl (cascading_between ha hc hab hbc)
      · by_contra hb
        exact hscat ⟨a, b, c, hsub, ha, hb, hc⟩
    · obtain ⟨hcr, -, -⟩ | ⟨hcr, hcp⟩ := hc
      · have hac : (compare (path a).uname (path c).uname).isLE :=
          uname_isLE hs hpath (List.Sublist.trans (by simp) hsub)
        exact absurd hac (not_isLE_cascading har hcr)
      · exact Or.inr (prefix_between har hap hcr hcp hab hbc)

end Order

/-! ## The rounds -/

section Exact

variable {h : Heap} {ks : KeySet} {m : Ident → Option KeyRef} {cutpoint : KeyRef}
  {path : KeyRef → Path} {ps : List CString} {st : Heap × KeySet × KeySet}

theorem roundTest_iff (hpath : ∀ k ∈ ks.array, HasName (h.cell k) (path k)) (hks : ks.Holds h m)
    (hst : CutState h ks cutpoint st) (n : Namespace) {k : KeyRef} (hk : k ∈ ks.array)
    (hne : k ≠ cutpoint) :
    roundTest cutpoint (Path.mk .cascading ps).name st.1 n k = true ↔ Selected n ps (path k) := by
  rw [roundTest, cutTest, set_cell_self, set_cell_ne hne, cutName_eq]
  exact belowOrSame_iff (hasName_finalize _ _)
    ((hst.cell k (hks.entry k hk).lt hne).hasName (hpath k hk))

/-- A round whose keys are not scattered takes exactly those selected. -/
theorem cutRound_exact (hks : ks.Holds h m) (hpath : ∀ k ∈ ks.array, HasName (h.cell k) (path k))
    (hc : cutpoint ∉ ks.array) (hst : CutState h ks cutpoint st)
    {n : Namespace} (hscat : ¬ Scattered path n ps st.2.1.array) :
    (cutRound cutpoint (Path.mk .cascading ps).name st n).2.1.array =
      st.2.1.array.filter fun k => decide (¬ Selected n ps (path k)) := by
  have htest : ∀ k ∈ st.2.1.array,
      roundTest cutpoint (Path.mk .cascading ps).name st.1 n k = true ↔ Selected n ps (path k) :=
    fun k hk => roundTest_iff hpath hks hst n (hst.rest.subset hk) (hst.ne hc (Or.inl hk))
  have hcon := (contiguous_iff (hks.sorted.sublist hst.rest)
    (fun k hk => hpath k (hst.rest.subset hk)) htest).mpr hscat
  rw [cutRound_rest, besides_eq_filter_iff.mpr hcon]
  refine List.filter_congr fun k hk => ?_
  rw [decide_not]
  congr 1
  rw [Bool.eq_iff_iff, decide_eq_true_iff]
  exact htest k hk

theorem Scattered.mono {n : Namespace} {l l' : List KeyRef} (hs : Scattered path n ps l)
    (hl : l.Sublist l') : Scattered path n ps l' := by
  obtain ⟨a, b, c, hsub, hrest⟩ := hs
  exact ⟨a, b, c, hsub.trans hl, hrest⟩

/-- Rounds without scattered keys take exactly those selected in one of their namespaces. -/
theorem cutRounds_exact (hks : ks.Holds h m) (hpath : ∀ k ∈ ks.array, HasName (h.cell k) (path k))
    (hc : cutpoint ∉ ks.array) (hlt : cutpoint < h.next) : ∀ (l : List Namespace)
    {st : Heap × KeySet × KeySet}, CutState h ks cutpoint st →
    (∀ n ∈ l, ¬ Scattered path n ps st.2.1.array) →
    (l.foldl (cutRound cutpoint (Path.mk .cascading ps).name) st).2.1.array =
      st.2.1.array.filter fun k => decide (∀ n ∈ l, ¬ Selected n ps (path k))
  | [], st, _, _ => by simp
  | n :: l, st, hst, hscat => by
    have hround := cutRound_exact hks hpath hc hst (hscat n List.mem_cons_self)
    have hsub : (cutRound cutpoint (Path.mk .cascading ps).name st n).2.1.array.Sublist
        st.2.1.array := hround ▸ List.filter_sublist
    rw [List.foldl_cons, cutRounds_exact hks hpath hc hlt l
      (cutRound_state hks hc hlt hst _ n).1
      fun n' hn' hs => hscat n' (List.mem_cons_of_mem n hn') (hs.mono hsub), hround,
      List.filter_filter]
    refine List.filter_congr fun k _ => ?_
    simp [Bool.and_comm]

theorem cutRounds_sublist (cutpoint : KeyRef) (name : Str) : ∀ (l : List Namespace)
    (st : Heap × KeySet × KeySet),
    (l.foldl (cutRound cutpoint name) st).2.1.array.Sublist st.2.1.array
  | [], _ => List.Sublist.refl _
  | n :: l, st => by
    refine (cutRounds_sublist cutpoint name l _).trans ?_
    rw [cutRound_rest]
    exact besides_sublist _

theorem mem_cutRounds (hks : ks.Holds h m) (hpath : ∀ k ∈ ks.array, HasName (h.cell k) (path k))
    (hc : cutpoint ∉ ks.array) (hlt : cutpoint < h.next) {k : KeyRef} : ∀ (l : List Namespace)
    {st : Heap × KeySet × KeySet}, CutState h ks cutpoint st → k ∈ st.2.1.array →
    (∀ n ∈ l, ¬ Selected n ps (path k)) →
    k ∈ (l.foldl (cutRound cutpoint (Path.mk .cascading ps).name) st).2.1.array
  | [], _, _, hk, _ => hk
  | n :: l, st, hst, hk, hsel => by
    refine mem_cutRounds hks hpath hc hlt l (cutRound_state hks hc hlt hst _ n).1 ?_
      fun n' hn' => hsel n' (List.mem_cons_of_mem n hn')
    rw [cutRound_rest]
    refine mem_besides hk (Bool.eq_false_iff.mpr fun htest => hsel n List.mem_cons_self ?_)
    exact (roundTest_iff hpath hks hst n (hst.rest.subset hk) (hst.ne hc (Or.inl hk))).mp htest

/-! ## When ksCut takes exactly the keys to be cut -/

theorem mem_namespaces (n : Namespace) : n ∈ namespaces := by
  cases n <;> decide

theorem HasName.cascading {key : Key} {P : Path} (hP : HasName key P) :
    Cascading key ↔ P.root = .cascading := by
  rw [Cascading, keyName, hP.key, Option.getD_some, Path.head_name]

theorem cutSelects_cascading (hP : HasName (h.cell cutpoint) ⟨.cascading, ps⟩) {k : KeyRef}
    {Q : Path} (hQ : HasName (h.cell k) Q) :
    cutSelects h cutpoint k = true ↔ ∃ n, Selected n ps Q := by
  have hname : keyName (h.cell cutpoint) = (Path.mk .cascading ps).name := by
    rw [keyName, hP.key, Option.getD_some]
  rw [cutSelects, if_pos (hP.cascading.mpr rfl), hname, List.any_eq_true]
  constructor
  · rintro ⟨n, -, hn⟩
    rw [cutName_eq, belowOrSame_iff (hasName_finalize _ _) hQ] at hn
    exact ⟨n, hn⟩
  · rintro ⟨n, hn⟩
    refine ⟨n, mem_namespaces n, ?_⟩
    rw [cutName_eq, belowOrSame_iff (hasName_finalize _ _) hQ]
    exact hn

theorem cutSelects_ns {n : Namespace} (hP : HasName (h.cell cutpoint) ⟨.ns n, ps⟩) {k : KeyRef}
    {Q : Path} (hQ : HasName (h.cell k) Q) :
    cutSelects h cutpoint k = true ↔ Selected n ps Q := by
  rw [cutSelects, if_neg fun hc => by cases hP.cascading.mp hc]
  exact belowOrSame_iff hP hQ

theorem ksCut_exact_ns {n : Namespace} (hks : ks.Holds h m)
    (hpath : ∀ k ∈ ks.array, HasName (h.cell k) (path k))
    (hP : HasName (h.cell cutpoint) ⟨.ns n, ps⟩) :
    CutsExactly h ks cutpoint ↔ ¬ Scattered path n ps ks.array := by
  have htest : ∀ k ∈ ks.array, cutTest h cutpoint k = true ↔ Selected n ps (path k) :=
    fun k hk => belowOrSame_iff hP (hpath k hk)
  have hselects : ∀ k ∈ ks.array, cutSelects h cutpoint k = cutTest h cutpoint k := fun k hk => by
    rw [Bool.eq_iff_iff, htest k hk, cutSelects_ns hP (hpath k hk)]
  have hname : (Path.mk (.ns n) ps).name.head? ≠ some pathSeparator :=
    fun he => by cases (Path.head_name _).mp he
  obtain ⟨-, hbeside, -, hrun, -, -⟩ := ksCutBelow_spec h ks cutpoint
  rw [← contiguous_iff hks.sorted hpath htest, CutsExactly, ksCut_below hP.key hname,
    List.filter_congr hselects, List.filter_congr fun k hk => congrArg not (hselects k hk),
    ← besides_eq_filter_iff]
  constructor
  · rintro ⟨_, -, -, hrest⟩
    exact hbeside.symm.trans hrest
  · intro hrest
    exact ⟨_, rfl, hrun.trans (firstRun_eq_filter (besides_eq_filter_iff.mp hrest)),
      hbeside.trans hrest⟩

/-- The rounds after that in the specification. -/
def laterNamespaces : List Namespace := [.proc, .dir, .user, .system]

theorem namespaces_eq : namespaces = .spec :: laterNamespaces := rfl

theorem not_selected_of_spec {Q : Path} (hQ : InNamespace .spec ps Q) :
    ∀ n ∈ laterNamespaces, ¬ Selected n ps Q := by
  rintro n hn (⟨hr, -, -⟩ | ⟨hr, -⟩)
  · cases hQ.1.symm.trans hr
  · obtain rfl : Namespace.spec = n := by simpa using hQ.1.symm.trans hr
    exact absurd hn (by decide)

/-- After the round in the specification, no cascading key below is left. -/
theorem cutRounds_filter (hks : ks.Holds h m)
    (hpath : ∀ k ∈ ks.array, HasName (h.cell k) (path k)) (hc : cutpoint ∉ ks.array)
    (hlt : cutpoint < h.next) (hscat : ¬ Scattered path .spec ps ks.array) :
    (namespaces.foldl (cutRound cutpoint (Path.mk .cascading ps).name) (cutStart h ks)).2.1.array =
      ks.array.filter fun k => decide (∀ n ∈ namespaces, ¬ Selected n ps (path k)) := by
  have hstart : CutState h ks cutpoint (cutStart h ks) := cutStart_state
  have hspec := cutRound_exact hks hpath hc hstart hscat
  rw [namespaces_eq, List.foldl_cons, cutRounds_exact hks hpath hc hlt laterNamespaces
    (cutRound_state hks hc hlt hstart _ .spec).1, hspec, List.filter_filter]
  · refine List.filter_congr fun k _ => ?_
    rw [Bool.eq_iff_iff, Bool.and_eq_true, decide_eq_true_iff, decide_eq_true_iff,
      decide_eq_true_iff]
    rw [List.forall_mem_cons, and_comm]
  · rintro n - ⟨a, b, c, hsub, ha, -, -⟩
    rw [hspec] at hsub
    have := List.of_mem_filter (hsub.subset List.mem_cons_self)
    exact of_decide_eq_true this (Or.inl ha)

/-- A cascading cutpoint that is in the key set is cut with the keys below it. -/
theorem not_mem_cutRounds (hks : ks.Holds h m)
    (hpath : ∀ k ∈ ks.array, HasName (h.cell k) (path k))
    (hP : HasName (h.cell cutpoint) ⟨.cascading, ps⟩) (hc : cutpoint ∈ ks.array) :
    cutpoint ∉ (namespaces.foldl (cutRound cutpoint (Path.mk .cascading ps).name)
      (cutStart h ks)).2.1.array := by
  have hpc : path cutpoint = ⟨.cascading, ps⟩ := (hpath _ hc).unique hP
  have hself : roundTest cutpoint (Path.mk .cascading ps).name h .spec cutpoint = true := by
    simp [roundTest, cutTest, keyIsBelowOrSame]
  have hfirst : cutpoint ∈
      firstRun (roundTest cutpoint (Path.mk .cascading ps).name h .spec) ks.array := by
    refine mem_firstRun_of_first hc hself fun b hsub => ?_
    have hb : b ∈ ks.array := hsub.subset List.mem_cons_self
    have hne : b ≠ cutpoint := by
      have := hks.sorted.nodup.sublist hsub
      simpa using this
    have hle := uname_isLE hks.sorted hpath hsub
    rw [hpc] at hle
    refine Bool.eq_false_iff.mpr fun htest => ?_
    obtain ⟨hr, hp, hnep⟩ | ⟨hr, -⟩ :=
      (roundTest_iff hpath hks (@cutStart_state h ks cutpoint) .spec hb hne).mp htest
    · have hpre : (Path.mk .cascading ps).uname <+: (path b).uname :=
        Path.uname_prefix.mpr ⟨hr.symm, hp⟩
      exact hnep (congrArg Path.parts (Path.uname_injective (eq_of_prefix_of_isLE hpre hle))).symm
    · exact not_isLE_cascading hr rfl hle
  intro hmem
  rw [namespaces_eq, List.foldl_cons] at hmem
  have hrest := (cutRounds_sublist cutpoint _ laterNamespaces _).subset hmem
  rw [cutRound_rest] at hrest
  exact not_mem_firstRun hks.sorted.nodup hrest hfirst

theorem cutsExactly_cascading (hP : HasName (h.cell cutpoint) ⟨.cascading, ps⟩) :
    CutsExactly h ks cutpoint ↔
      (namespaces.foldl (cutRound cutpoint (Path.mk .cascading ps).name) (cutStart h ks)).2.2.array =
        ks.array.filter (cutSelects h cutpoint) ∧
      (namespaces.foldl (cutRound cutpoint (Path.mk .cascading ps).name) (cutStart h ks)).2.1.array =
        ks.array.filter fun k => !cutSelects h cutpoint k := by
  rw [CutsExactly, ksCut_cascading hP.key ((Path.head_name _).mpr rfl)]
  generalize namespaces.foldl (cutRound cutpoint (Path.mk .cascading ps).name) (cutStart h ks) = st
  constructor
  · rintro ⟨returned, hret, h1, h2⟩
    obtain rfl := Option.some.inj hret
    exact ⟨h1, h2⟩
  · exact fun ⟨h1, h2⟩ => ⟨_, rfl, h1, h2⟩

theorem ksCut_exact_cascading (hks : ks.Holds h m)
    (hpath : ∀ k ∈ ks.array, HasName (h.cell k) (path k)) (hlt : cutpoint < h.next)
    (hP : HasName (h.cell cutpoint) ⟨.cascading, ps⟩) :
    CutsExactly h ks cutpoint ↔ cutpoint ∉ ks.array ∧ ¬ Scattered path .spec ps ks.array := by
  have hselects : ∀ k ∈ ks.array, cutSelects h cutpoint k = true ↔ ∃ n, Selected n ps (path k) :=
    fun k hk => cutSelects_cascading hP (hpath k hk)
  rw [cutsExactly_cascading hP]
  constructor
  · rintro ⟨-, hrest⟩
    have hc : cutpoint ∉ ks.array := by
      intro hc
      refine not_mem_cutRounds hks hpath hP hc (hrest ▸ List.mem_filter.mpr ⟨hc, ?_⟩)
      rw [Bool.not_eq_true', Bool.eq_false_iff, ne_eq, hselects cutpoint hc,
        (hpath _ hc).unique hP]
      rintro ⟨n, ⟨-, -, hne⟩ | ⟨hr, -⟩⟩
      · exact hne rfl
      · cases hr
    refine ⟨hc, ?_⟩
    rintro ⟨a, b, c, hsub, ha, hb, hcs⟩
    have hstart : CutState h ks cutpoint (cutStart h ks) := cutStart_state
    have hmem : ∀ k ∈ [a, b, c], k ∈ ks.array := fun k hk => hsub.subset hk
    have htest : ∀ k ∈ ks.array, roundTest cutpoint (Path.mk .cascading ps).name h .spec k = true ↔
        Selected .spec ps (path k) :=
      fun k hk => roundTest_iff hpath hks hstart .spec hk fun he => hc (he ▸ hk)
    have hgap := not_mem_firstRun_of_gap hks.sorted.nodup hsub
      ((htest a (hmem a (by simp))).mpr (Or.inl ha))
      (Bool.eq_false_iff.mpr fun ht => hb ((htest b (hmem b (by simp))).mp ht))
    have hleft : c ∈ (cutRound cutpoint (Path.mk .cascading ps).name (cutStart h ks) .spec).2.1.array := by
      rw [cutRound_rest]
      exact (mem_firstRun_or (hmem c (by simp))).resolve_left hgap
    have hfinal := mem_cutRounds hks hpath hc hlt laterNamespaces
      (cutRound_state hks hc hlt hstart _ .spec).1 hleft (not_selected_of_spec hcs)
    rw [← List.foldl_cons, ← namespaces_eq, hrest] at hfinal
    have hfilter := List.of_mem_filter hfinal
    rw [Bool.not_eq_true', Bool.eq_false_iff, ne_eq, hselects c (hmem c (by simp))] at hfilter
    exact hfilter ⟨.spec, Or.inr hcs⟩
  · rintro ⟨hc, hscat⟩
    have hst := cutRounds_state hks hc hlt (Path.mk .cascading ps).name namespaces
      (@cutStart_state h ks cutpoint)
    have hrest := cutRounds_filter hks hpath hc hlt hscat
    generalize namespaces.foldl (cutRound cutpoint (Path.mk .cascading ps).name) (cutStart h ks) = st
      at hst hrest ⊢
    obtain ⟨-, mr, hret⟩ := hst.holds hks hc (restoreName (st.1.cell cutpoint) (h.cell cutpoint))
    have hrest' : st.2.1.array = ks.array.filter fun k => !cutSelects h cutpoint k := by
      rw [hrest]
      refine List.filter_congr fun k hk => ?_
      rw [Bool.eq_iff_iff, decide_eq_true_iff, Bool.not_eq_true', Bool.eq_false_iff, ne_eq,
        hselects k hk, not_exists]
      exact ⟨fun hall n => hall n (mem_namespaces n), fun hall n _ => hall n⟩
    refine ⟨?_, hrest'⟩
    refine hret.sorted.eq_of_mem
      ((hks.keeps hst.restore).sorted.sublist List.filter_sublist) fun k => ?_
    rw [List.mem_filter]
    constructor
    · intro hk
      refine ⟨(hst.parts k).mpr (Or.inr hk), ?_⟩
      by_contra hsel
      refine hst.disjoint k (hrest' ▸ List.mem_filter.mpr ⟨(hst.parts k).mpr (Or.inr hk), ?_⟩) hk
      simpa using hsel
    · rintro ⟨hk, hsel⟩
      refine ((hst.parts k).mp hk).resolve_left fun hk' => ?_
      have := List.of_mem_filter (hrest' ▸ hk')
      simp [hsel] at this

/-- The namespace whose keys are cut together with the cascading ones. -/
def Root.cutNamespace : Root → Namespace
  | .cascading => .spec
  | .ns n => n

/-- **`ksCut` takes exactly the keys at or below the cutpoint, in their order, unless the cutpoint is
a cascading key of the key set itself or the keys are scattered.** -/
theorem ksCut_exact_iff {P : Path} (hks : ks.Holds h m)
    (hpath : ∀ k ∈ ks.array, HasName (h.cell k) (path k)) (hlt : cutpoint < h.next)
    (hP : HasName (h.cell cutpoint) P) :
    CutsExactly h ks cutpoint ↔ ¬ (P.root = .cascading ∧ cutpoint ∈ ks.array) ∧
      ¬ Scattered path P.root.cutNamespace P.parts ks.array := by
  obtain ⟨r, ps⟩ := P
  cases r with
  | cascading => simpa [Root.cutNamespace] using ksCut_exact_cascading hks hpath hlt hP
  | ns n => simpa [Root.cutNamespace] using ksCut_exact_ns hks hpath hP

end Exact

/-- `user/a` and `user/b`. -/
def userSet : Heap × KeySet :=
  ksNew (.ofList [keyNewName (str "user/a"), keyNewName (str "user/b")]) 2 [1, 0]

theorem ksCut_exact_iff_userSet : CutsExactly userSet.1 userSet.2 0 ↔
    ¬ (userA.root = .cascading ∧ 0 ∈ userSet.2.array) ∧
      ¬ Scattered (fun k => if k = 0 then userA else ⟨.ns .user, [⟨str "b", by decide⟩]⟩)
        userA.root.cutNamespace userA.parts userSet.2.array := by
  have huserB : HasName (keyNewName (str "user/b")) ⟨.ns .user, [⟨str "b", by decide⟩]⟩ :=
    ⟨rfl, rfl, rfl, rfl⟩
  refine ksCut_exact_iff (ksNew_holds 2 ?_) ?_ (by decide) ⟨rfl, rfl, rfl, rfl⟩
  · intro k hk
    obtain rfl | rfl : k = 1 ∨ k = 0 := by simpa using hk
    · exact huserB.entry (by decide)
    · exact hasName_userA.entry (by decide)
  · intro k hk
    have harray : userSet.2.array = [0, 1] := by decide +kernel
    rw [harray] at hk
    obtain rfl | rfl : k = 0 ∨ k = 1 := by simpa using hk
    · exact ⟨rfl, rfl, rfl, rfl⟩
    · exact ⟨rfl, rfl, rfl, rfl⟩

/-- `/a/x`, `dir/b` and `user/a/y`; the key `3` is `user/a`. -/
def scatteredSet : Heap × KeySet :=
  ksNew (.ofList [keyNewName (str "/a/x"), keyNewName (str "dir/b"), keyNewName (str "user/a/y"),
    keyNewName (str "user/a")]) 3 [0, 1, 2]

theorem not_cutsExactly_scattered : ¬ CutsExactly scatteredSet.1 scatteredSet.2 3 := fun h =>
  absurd h.choose_spec.2.2 (by decide +kernel)

end Elektra
