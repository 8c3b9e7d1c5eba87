import Elektra.Lookup.Resolve

/-!
# Lookups that pop

With `KDB_O_POP` a lookup is to take the key that it returns out of the key set. The option is
forwarded to the search for the key of the specification, which is then taken out and not returned.

* `Pops`: the returned key, and nothing else, is taken out;
* `ConsultsSpec`: there is a key of the specification of that name; `Strays`: one of a namespace is taken;
* **`ksLookup_quiet`**: names that no namespace has;
* **`ksLookup_pops`**, **`ksLookup_pop_iff`**.
-/

namespace Elektra

open Choice

/-- The map without the key that was popped. -/
def popMap (h : Heap) (m : Ident → Option KeyRef) : Option KeyRef → Ident → Option KeyRef
  | none => m
  | some k => Function.update m (h.ident k) none

/-- The returned key, and nothing else, is taken out. -/
structure Pops (R : Heap → Heap → Prop) (w w' : World) (ret : Option KeyRef) : Prop where
  frame : R w.heap w'.heap
  array : w'.ks.array = w.ks.array.filter fun k => ret ≠ some k
  mem : ∀ k, ret = some k → k ∈ w.ks.array
  miss : ret = none → Same w w'
  holds : ∀ m, w.ks.Holds w.heap m → w'.ks.Holds w'.heap (popMap w.heap m ret)

/-- There is a key of the specification of that name, and the lookup asks for it. -/
def ConsultsSpec (c : Content) (name : Str) (o : Options) : Prop :=
  direct name o = false ∧ o.nospec = false ∧
    ∃ s, c (str "spec" ++ name) = some s ∧ (str "spec/").isPrefixOf s.name = true

/-- A key of one of the namespaces is returned. -/
def Strays (c : Content) (name : Str) (l : List Namespace) (ret : Option KeyRef) : Prop :=
  ∃ ns ∈ l, ∃ info, c (ns.name ++ name) = some info ∧ ret = some info.ref

/-! ## The search -/

theorem frame_pop (h : Heap) (ks : KeySet) : Frame h (ksPop h ks).2.1 := by
  unfold ksPop
  dsimp only
  cases ks.array.getLast? with
  | none => exact Frame.refl h
  | some ret => exact frame_set ⟨⟨rfl, rfl, rfl, rfl, rfl, id, fun _ _ => rfl⟩, rfl⟩

theorem frame_popAtCursor (h : Heap) (ks : KeySet) (pos : ℤ) :
    Frame h (elektraKsPopAtCursor h ks pos).2.1 := by
  unfold elektraKsPopAtCursor
  split_ifs
  · exact Frame.refl h
  · cases ks.array[pos.toNat]? with
    | none => exact Frame.refl h
    | some k => exact frame_pop _ _

section Search

variable {w w' w₁ : World} {key : KeyRef} {name : Str} {o : Options} {ct : Content}
  {m : Ident → Option KeyRef} {R S : Heap → Heap → Prop} {ret : Option KeyRef} {c : KeyRef}

theorem filter_none (l : List KeyRef) : (l.filter fun k => (none : Option KeyRef) ≠ some k) = l :=
  List.filter_eq_self.mpr fun _ _ => rfl

theorem pops_none (hf : R w.heap w'.heap) (hs : Same w w') (hm : ∀ m, w.ks.Holds w.heap m →
    w'.ks.Holds w'.heap m) : Pops R w w' none where
  frame := hf
  array := by rw [filter_none, hs.array]
  mem := nofun
  miss _ := hs
  holds := hm

theorem Pops.post (hp : Pops R w w₁ ret) (hks : w'.ks = w₁.ks) (hl : Leaves w w₁.heap w'.heap)
    (hS : S w.heap w'.heap) : Pops S w w' ret where
  frame := hS
  array := by rw [hks, hp.array]
  mem := hp.mem
  miss hret := ⟨hks ▸ (hp.miss hret).array, hks ▸ (hp.miss hret).alloc⟩
  holds m hm := by
    have hnew := hp.holds m hm
    rw [hks]
    refine hnew.of_cells hl.next fun k hk => hl.cell k (hnew.entry k hk).lt (Or.inl ?_)
    rw [hp.array] at hk
    exact List.mem_of_mem_filter hk

theorem Pops.after (hp : Pops R w₁ w' ret) (hf : FrameBut c w.heap w₁.heap)
    (hc : c ∉ w.ks.array) (hs : Same w w₁) (hS : S w.heap w'.heap) : Pops S w w' ret where
  frame := hS
  array := by rw [hp.array, hs.array]
  mem k hk := hs.array ▸ hp.mem k hk
  miss hret := hs.trans (hp.miss hret)
  holds m hm := by
    have hnew := hp.holds m (hs.holds hm hf hc)
    cases ret with
    | none => exact hnew
    | some k =>
      have hk : k ∈ w.ks.array := hs.array ▸ hp.mem k rfl
      have hident : w₁.heap.ident k = w.heap.ident k := (hf.kept hm hc hk).toAlike.ident
      rw [popMap, hident] at hnew
      exact hnew

theorem pops_popAtCursor (hks : w.ks.Holds w.heap m) {pos : ℕ} {k : KeyRef}
    (hk : w.ks.array[pos]? = some k) :
    (elektraKsPopAtCursor w.heap w.ks pos).1 = some k ∧
      Pops Frame w ⟨(elektraKsPopAtCursor w.heap w.ks pos).2.1,
        (elektraKsPopAtCursor w.heap w.ks pos).2.2⟩ (some k) := by
  obtain ⟨hret, harray, -⟩ := elektraKsPopAtCursor_holds hks hk
  obtain ⟨hpos, rfl⟩ := List.getElem?_eq_some_iff.mp hk
  refine ⟨hret, frame_popAtCursor _ _ _, ?_, ?_, nofun, fun m' hm' => ?_⟩
  · rw [harray, ← hks.sorted.nodup.erase_getElem pos hpos, hks.sorted.nodup.erase_eq_filter]
    refine List.filter_congr fun a _ => Bool.eq_iff_iff.mpr ?_
    rw [bne_iff_ne, decide_eq_true_iff, ne_eq, ne_eq, Option.some.injEq, eq_comm]
  · rintro k ⟨⟩
    exact List.getElem_mem hpos
  · exact (elektraKsPopAtCursor_holds hm' hk).2.2

theorem elektraLookupSearch_pops {cb : Callback} (hcb : Transparent cb)
    (ho : ({ o with pop := false } : Options).Plain) (hpop : o.pop = true) (hr : Ready ct w)
    (hk : Finalized (w.cell key) (some name)) :
    (elektraLookupSearch cb w key o).1 = findByName w.heap w.ks (unameOf name) ∧
      Pops Frame w (elektraLookupSearch cb w key o).2 (elektraLookupSearch cb w key o).1 := by
  obtain ⟨m, hm⟩ := hr.holds
  have hcmp : lookupCompare o = keyCompareByName := by
    rw [lookupCompare, show o.withowner = false from ho.withowner,
      show o.nocase = false from ho.nocase]
    rfl
  have hbinary : (elektraLookupBinarySearch w key o).1 = findByName w.heap w.ks (unameOf name) ∧
      Pops Frame w (elektraLookupBinarySearch w key o).2 (elektraLookupBinarySearch w key o).1 := by
    rw [← bsearch_eq hr hk]
    unfold elektraLookupBinarySearch
    rw [hcmp]
    cases hb : bsearch w key keyCompareByName with
    | none =>
      have hs : Same w { w with ks := ksSetCursor w.ks (ksGetCursor w.ks) } :=
        ⟨setCursor_array _ _, setCursor_alloc _ _⟩
      exact ⟨rfl, pops_none (Frame.refl _) hs fun m' hm' =>
        hs.holds hm' ((Frame.refl _).but w.heap.next) hr.new_not_mem⟩
    | some found =>
      have hlt : found < w.ks.array.length := (Bisect.halfOpen_found hb).1
      have hget : w.ks.array[found]? = some w.ks.array[found] := List.getElem?_eq_getElem hlt
      obtain ⟨hret, hpops⟩ := pops_popAtCursor hm hget
      simp only [hpop, if_true, hret, Option.bind_some, hget]
      exact ⟨trivial, hpops⟩
  unfold elektraLookupSearch
  generalize elektraLookupBinarySearch w key o = x at hbinary ⊢
  obtain ⟨found, w1⟩ := x
  dsimp only at hbinary ⊢
  cases callbackPointer (w1.cell key) with
  | none => exact hbinary
  | some v =>
    have hframe := hcb.frame v w1 key found o
    have hks := hcb.ks v w1 key found o
    have hf := hcb.found v w1 key found o
    dsimp only
    generalize cb v w1 key found o = y at hframe hks hf ⊢
    obtain ⟨ret, w2⟩ := y
    dsimp only at hframe hks hf ⊢
    subst hf
    exact ⟨hbinary.1, hbinary.2.post hks hframe.leaves (hbinary.2.frame.trans hframe)⟩

end Search

/-! ## Without the specification -/

section Direct

variable {w : World} {key : KeyRef} {o : Options} {ct : Content} {cb : Callback} {n : ℕ}

/-- The options of a lookup that pops. -/
structure Options.Popping (o : Options) : Prop where
  plain : ({ o with pop := false } : Options).Plain
  pop : o.pop = true

theorem Options.Popping.eta (ho : o.Popping) : { o with del := false } = o := by
  have := ho.plain.del
  cases o
  subst this
  rfl

theorem ksLookup_search {name : Str} (hdel : o.del = false) (hcreate : o.create = false)
    (hspec : o.spec = false) (hnoall : o.noall = false) (hk : (w.cell key).key = some name)
    (hd : direct name o = true) :
    ksLookup cb (n + 1) w key o = .ok (elektraLookupSearch cb w key o) := by
  have hmasked : ({ o with del := false, create := false } : Options) = o := by
    cases o
    subst hdel hcreate
    rfl
  have hnot : ¬(!o.nocascading && decide (name.head? = some pathSeparator)) = true := by
    simpa [direct, or_iff_not_imp_left] using hd
  unfold ksLookup lookupRet
  dsimp only
  rw [hk]
  dsimp only
  rw [hmasked, hspec, hnoall, if_neg Bool.false_ne_true, if_neg hnot, if_neg Bool.false_ne_true]
  change Except.ok (let x := if (elektraLookupSearch cb w key o).1 = none ∧ o.create = true then
      elektraLookupCreateKey (elektraLookupSearch cb w key o).2 key
      else elektraLookupSearch cb w key o
    (x.1, if o.del = true then x.2.del key else x.2)) = _
  rw [hcreate, hdel, if_neg (by simp)]
  rfl

theorem ksLookup_direct {name : Str} (ho : o.Popping) (hk : (w.cell key).key = some name)
    (hd : direct name o = true) :
    ksLookup cb (n + 1) w key o = .ok (elektraLookupSearch cb w key o) :=
  ksLookup_search ho.plain.del ho.plain.create ho.plain.spec ho.plain.noall hk hd

theorem ksLookup_direct_pops (hcb : Transparent cb) {name : Str} (ho : o.Popping) (hr : Ready ct w)
    (hk : Finalized (w.cell key) (some name)) (hd : direct name o = true) :
    ∃ w', ksLookup cb (n + 1) w key o = .ok (findByName w.heap w.ks (unameOf name), w') ∧
      Pops Frame w w' (findByName w.heap w.ks (unameOf name)) := by
  obtain ⟨hret, hpops⟩ := elektraLookupSearch_pops hcb ho.plain ho.pop hr hk
  refine ⟨(elektraLookupSearch cb w key o).2, ?_, hret ▸ hpops⟩
  rw [ksLookup_direct ho hk.key hd, ← hret]

theorem content_eq (hr : Ready ct w) {name : Str} {k : KeyRef}
    (hfind : findByName w.heap w.ks (unameOf name) = some k) :
    ct name = some (describe w.heap k) := by
  rw [← hr.content, content, hfind, Option.map_some]

theorem content_none (hr : Ready ct w) {name : Str} (hfind : findByName w.heap w.ks (unameOf name) = none) :
    ct name = none := by
  rw [← hr.content, content, hfind, Option.map_none]

theorem lookup_finalize_pops (hcb : Transparent cb) {name : Str} (ho : o.Popping) (hr : Ready ct w)
    (hmem : key ∉ w.ks.array) (hname : name ≠ []) (hd : direct name o = true) :
    ∃ w', ksLookup cb (n + 1) (w.set key (elektraFinalizeName (w.cell key) name)) key o =
        .ok (findByName w.heap w.ks (unameOf name), w') ∧
      Pops (FrameBut key) w w' (findByName w.heap w.ks (unameOf name)) := by
  have hf : FrameBut key w.heap (w.heap.set key (elektraFinalizeName (w.cell key) name)) :=
    frameBut_set (keptName_finalize _ _)
  have hs : Same w (w.set key (elektraFinalizeName (w.cell key) name)) := ⟨rfl, rfl⟩
  have hr' : Ready ct (w.set key (elektraFinalizeName (w.cell key) name)) := hr.frame hf hmem hs
  have hk := finalized_finalize (w.cell key) hname
  rw [← set_cell_self w.heap key (elektraFinalizeName (w.cell key) name)] at hk
  have hfind : findByName (w.set key (elektraFinalizeName (w.cell key) name)).heap
      (w.set key (elektraFinalizeName (w.cell key) name)).ks (unameOf name) =
      findByName w.heap w.ks (unameOf name) := by
    obtain ⟨m, hm⟩ := hr.holds
    exact findByName_congr rfl (fun k hk => (hf.kept hm hmem hk).ukey) _
  obtain ⟨w', hret, hpops⟩ := ksLookup_direct_pops hcb ho hr' hk hd
  rw [hfind] at hret hpops
  exact ⟨w', hret, hpops.after hf hmem hs (hf.trans (hpops.frame.but key))⟩

theorem cascadingLoop_pops (hcb : Transparent cb) (name : Str) (ho : o.Popping) :
    ∀ (l : List Namespace) {w : World}, Ready ct w → key < w.heap.next → key ∉ w.ks.array →
      ∃ ret w', cascadingLoop (ksLookup cb (n + 1)) key name o l w = .ok (ret, w') ∧
        Pops (FrameBut key) w w' ret ∧ ((∀ ns ∈ l, ct (ns.name ++ name) = none) ∨ Strays ct name l ret)
  | [], w, hr, hlt, hmem =>
    ⟨none, w, rfl, pops_none ((Frame.refl _).but key) (Same.refl w) fun _ => id, .inl fun ns hns => absurd hns List.not_mem_nil⟩
  | ns :: l, w, hr, hlt, hmem => by
    have hne : ns.name ++ name ≠ [] := by cases ns <;> exact List.cons_ne_nil _ _
    have hd : direct (ns.name ++ name) o = true := by
      refine (Bool.or_eq_true _ _).mpr (Or.inr ?_)
      cases ns <;> rfl
    obtain ⟨w1, hx, hpops⟩ := @lookup_finalize_pops w key o ct cb n hcb _ ho hr hmem hne hd
    rw [cascadingLoop, ho.eta, hx]
    cases hfind : findByName w.heap w.ks (unameOf (ns.name ++ name)) with
    | some k =>
      rw [hfind] at hpops
      exact ⟨some k, w1, rfl, hpops, .inr ⟨ns, List.mem_cons_self, _, content_eq hr hfind, rfl⟩⟩
    | none =>
      rw [hfind] at hpops
      have hs := hpops.miss rfl
      have hf := hpops.frame
      obtain ⟨ret, w', hret, hpops', hq⟩ := cascadingLoop_pops hcb name ho l (hr.frame hf hmem hs)
        (lt_of_lt_of_le hlt hf.next) (hs.array ▸ hmem)
      refine ⟨ret, w', hret, hpops'.after hf hmem hs (hf.trans hpops'.frame), hq.imp (fun hq ns' hns' => ?_) ?_⟩
      · obtain rfl | hns' := List.mem_cons.mp hns'
        · exact content_none hr hfind
        · exact hq ns' hns'
      · rintro ⟨ns', hns', h⟩
        exact ⟨ns', List.mem_cons_of_mem ns hns', h⟩

theorem defaultCascading_pops (hcb : Transparent cb) {old : Key} {name : Str} (ho : o.Popping)
    (hr : Ready ct w) (hlt : key < w.heap.next) (hmem : key ∉ w.ks.array)
    (hold : Finalized old (some name)) (hkept : KeptName old (w.cell key)) :
    ∃ ret w', defaultCascading (ksLookup cb (n + 1)) w key old o = .ok (ret, w') ∧
      Pops (Restores key old) w w' ret ∧ ((∀ ns ∈ [Namespace.proc, .dir, .user, .system],
        ct (ns.name ++ name) = none) ∨ Strays ct name [.proc, .dir, .user, .system] ret) := by
  have hname : old.key.getD [] = name := by rw [hold.key]; rfl
  obtain ⟨ret, w1, hx, hpops, hq⟩ := @cascadingLoop_pops key o ct cb n hcb name ho
    [.proc, .dir, .user, .system] w hr hlt hmem
  have hf := hpops.frame
  have hres := Restores.set hkept hf hlt
  have hpops1 : Pops (Restores key old) w (w1.set key (restoreName (w1.cell key) old)) ret :=
    hpops.post rfl ((frameBut_restore _ _ _).leaves hmem hlt) hres
  rw [defaultCascading, hname, hx]
  cases ret with
  | some k => exact ⟨some k, _, rfl, hpops1, hq⟩
  | none =>
    have hnone : ∀ ns ∈ [Namespace.proc, .dir, .user, .system], ct (ns.name ++ name) = none :=
      hq.resolve_right (by rintro ⟨_, _, _, _, h⟩; cases h)
    change ∃ ret' w', (if o.nodefault then Except.ok (none, w1.set key (restoreName (w1.cell key) old))
      else ksLookup cb (n + 1) (w1.set key (restoreName (w1.cell key) old)) key
        { o with del := false, nocascading := true }) = .ok (ret', w') ∧ _
    split_ifs with hno
    · exact ⟨none, _, rfl, hpops1, .inl hnone⟩
    · have hs := hpops1.miss rfl
      have ho' : ({ o with del := false, nocascading := true } : Options).Popping :=
        ⟨⟨rfl, ho.plain.pop, ho.plain.nocase, ho.plain.withowner, ho.plain.noall, ho.plain.spec,
          ho.plain.create⟩, ho.pop⟩
      obtain ⟨w', hret, hpops'⟩ := @ksLookup_direct_pops _ key _ ct cb n hcb name ho'
        (hr.frame hres.but hmem hs) (hres.old.toAlike.finalized hold) rfl
      exact ⟨_, w', hret, hpops'.after hres.but hmem hs (hres.of_frame hpops'.frame hlt), .inl hnone⟩

theorem elektraLookupByCascading_spec (hcb : Transparent cb) {name : Str} (ho : o.Popping)
    (hr : Ready ct w) (hk : Finalized (w.cell key) (some name)) (hmem : key ∉ w.ks.array)
    (hnospec : o.nospec = false) :
    ∃ w1, elektraLookupByCascading (ksLookup cb (n + 1)) w key o =
        (match findByName w.heap w.ks (unameOf (str "spec" ++ name)) with
        | none => defaultCascading (ksLookup cb (n + 1)) w1 key (w.cell key) o
        | some k => specFound (ksLookup cb (n + 1))
            (w1.set key (restoreName (w1.cell key) (w.cell key))) key k o) ∧
      Pops (FrameBut key) w w1 (findByName w.heap w.ks (unameOf (str "spec" ++ name))) := by
  have hname : (w.cell key).key.getD [] = name := by rw [hk.key]; rfl
  have ho' : ({ o with del := false, callback := true } : Options).Popping :=
    ⟨⟨rfl, ho.plain.pop, ho.plain.nocase, ho.plain.withowner, ho.plain.noall, ho.plain.spec,
      ho.plain.create⟩, ho.pop⟩
  have hdirect : direct (str "spec" ++ name) { o with del := false, callback := true } = true :=
    (Bool.or_eq_true _ _).mpr (Or.inr rfl)
  have hne : str "spec" ++ name ≠ [] := List.cons_ne_nil _ _
  obtain ⟨w1, hx, hpops⟩ := @lookup_finalize_pops _ key _ ct cb n hcb _ ho' hr hmem hne hdirect
  refine ⟨w1, ?_, hpops⟩
  unfold elektraLookupByCascading
  dsimp only
  rw [if_neg (Bool.eq_false_iff.mp hnospec), hname, hx]
  cases findByName w.heap w.ks (unameOf (str "spec" ++ name)) <;> rfl

/-- Without a key of the specification, the returned key is the one that is popped. -/
theorem elektraLookupByCascading_pops (hcb : Transparent cb) {name : Str} (ho : o.Popping)
    (hr : Ready ct w) (hlt : key < w.heap.next) (hk : Finalized (w.cell key) (some name))
    (hro : (w.cell key).roName = false) (hd : direct name o = false)
    (hspec : ¬ ConsultsSpec ct name o) :
    ∃ ret w', elektraLookupByCascading (ksLookup cb (n + 1)) w key o = .ok (ret, w') ∧
      Pops Frame w w' ret ∧ (o.nospec = false → Quiet ct name ∨ Strays ct name namespaces ret) := by
  have hmem := hr.not_mem hro
  have hdefault : ∀ {w1 : World}, FrameBut key w.heap w1.heap → Same w w1 →
      ∃ ret w', defaultCascading (ksLookup cb (n + 1)) w1 key (w.cell key) o = .ok (ret, w') ∧
        Pops Frame w w' ret ∧ ((∀ ns ∈ [Namespace.proc, .dir, .user, .system],
          ct (ns.name ++ name) = none) ∨ Strays ct name [.proc, .dir, .user, .system] ret) := by
    intro w1 hf hs
    obtain ⟨ret, w', hret, hpops, hq⟩ := @defaultCascading_pops _ key _ ct cb n hcb (w.cell key) name ho
      (hr.frame hf hmem hs) (lt_of_lt_of_le hlt hf.next) (hs.array ▸ hmem) hk (hf.name hlt)
    have hframe : Frame w.heap w'.heap :=
      Restores.frame ⟨hf.trans hpops.frame.but, hpops.frame.old⟩
    exact ⟨ret, w', hret, hpops.after hf hmem hs hframe, hq⟩
  by_cases hnospec : o.nospec = true
  · unfold elektraLookupByCascading
    rw [if_pos hnospec]
    obtain ⟨ret, w', hret, hpops, -⟩ := hdefault ((Frame.refl _).but key) (Same.refl w)
    exact ⟨ret, w', hret, hpops, fun h => by rw [hnospec] at h; cases h⟩
  obtain ⟨w1, heq, hpops⟩ := @elektraLookupByCascading_spec _ key _ ct cb n hcb name ho hr hk hmem
    (Bool.eq_false_of_not_eq_true hnospec)
  have hf := hpops.frame
  rw [heq]
  cases hfind : findByName w.heap w.ks (unameOf (str "spec" ++ name)) with
  | none =>
    rw [hfind] at hpops
    obtain ⟨ret, w', hret, hpops', hq⟩ := hdefault hf (hpops.miss rfl)
    refine ⟨ret, w', hret, hpops', fun _ => hq.imp (fun hq ns hns => ?_) ?_⟩
    · obtain rfl | hns := List.mem_cons.mp hns
      · exact content_none hr hfind
      · exact hq ns hns
    · rintro ⟨ns, hns, h⟩
      exact ⟨ns, List.mem_cons_of_mem _ hns, h⟩
  | some k =>
    rw [hfind] at hpops
    have hframe := hf.restore hlt
    obtain ⟨m, hm⟩ := hr.holds
    have hname : keyName ((w1.set key (restoreName (w1.cell key) (w.cell key))).cell k) =
        keyName (w.heap.cell k) :=
      congrArg (·.getD []) (hframe.cell k (hm.entry k (hpops.mem k rfl)).lt).key
    have hpre : ¬ (str "spec/").isPrefixOf (keyName (w.heap.cell k)) = true := fun hpre =>
      hspec ⟨hd, Bool.eq_false_of_not_eq_true hnospec, _, content_eq hr hfind, hpre⟩
    have hnot : (!(str "spec/").isPrefixOf (keyName
        ((w1.set key (restoreName (w1.cell key) (w.cell key))).cell k))) = true := by
      rw [hname, Bool.eq_false_of_not_eq_true hpre]
      rfl
    dsimp only
    rw [specFound, if_pos hnot]
    exact ⟨some k, _, rfl, hpops.post rfl ((frameBut_restore _ _ _).leaves hmem hlt) hframe,
      fun _ => .inr ⟨.spec, List.mem_cons_self, _, content_eq hr hfind, rfl⟩⟩

end Direct

/-! ## With the specification -/

section Spec

variable {w : World} {key : KeyRef} {o : Options} {ct : Content} {cb : Callback} {n : ℕ}

theorem key_not_mem_cascading (name : Str) (o : Options) (k : KeyRef) :
    .key k ∉ cascadingAttempts name o := by
  unfold cascadingAttempts
  split_ifs <;> simp

theorem key_not_mem_spec (s : KeyInfo) (o : Options) (k : KeyRef) : .key k ∉ specAttempts s o := by
  have hlinks : ∀ l : List Str, .key k ∉ l.map link := fun l => by simp [link]
  have hns : ∀ name, .key k ∉ namespaceAttempts s name := fun name => by
    unfold namespaceAttempts
    cases s.namespaces with
    | nil => exact key_not_mem_cascading _ _ _
    | cons m l =>
      dsimp only
      rw [List.mem_map]
      rintro ⟨m, -, hm⟩
      split_ifs at hm
  have hdefault : ∀ name, .key k ∉ defaultAttempts s name := fun name => by simp [defaultAttempts]
  unfold specAttempts
  dsimp only
  rw [List.mem_append, List.mem_append, List.mem_append]
  rintro (h | h | h | h)
  · exact hlinks _ h
  · exact hns _ h
  · exact hlinks _ h
  · split_ifs at h
    · exact absurd h List.not_mem_nil
    · exact hdefault _ h

theorem key_mem_attempts {name : Str} {k : KeyRef} (h : .key k ∈ attempts ct name o) :
    ∃ s, ct (str "spec" ++ name) = some s ∧ s.ref = k := by
  unfold attempts at h
  split at h
  · exact absurd h (key_not_mem_cascading _ _ _)
  · rename_i s hs
    split_ifs at h hs
    · exact absurd h (key_not_mem_spec _ _ _)
    · exact ⟨s, hs, (Query.key.inj (List.mem_singleton.mp h)).symm⟩

theorem found_of_resolves {q : Query} {a : Option Answer} (h : Resolution ct q a) :
    ∀ k, a = some (.found k) → q = .key k ∨ ∃ name s, ct name = some s ∧ s.ref = k := by
  induction h with
  | @answer q a h =>
    rintro k rfl
    cases q with
    | lookup name o =>
      cases name with
      | none => cases h
      | some name =>
        rw [resolution] at h
        split_ifs at h
        obtain ⟨s, hs, he⟩ := Option.map_eq_some_iff.mp (Step.answer.inj h)
        exact Or.inr ⟨name, s, hs, Answer.found.inj he⟩
    | key k' =>
      cases h
      exact Or.inl rfl
    | default name value => cases h
    | overflow => cases h
  | @hit q t pre post a h hpre ht ihpre iht =>
    rintro k ⟨⟩
    obtain rfl | hfound := iht k rfl
    · cases q with
      | lookup name o =>
        cases name with
        | none => cases h
        | some name =>
          rw [resolution] at h
          split_ifs at h
          have hmem : Query.key k ∈ attempts ct name o := by
            rw [Step.attempt.inj h]
            simp
          obtain ⟨s, hs, he⟩ := key_mem_attempts hmem
          exact Or.inr ⟨_, s, hs, he⟩
      | key k' => cases h
      | default name value => cases h
      | overflow => cases h
    · exact Or.inr hfound
  | miss =>
    intro k h
    cases h

/-- **The key of the specification is taken out, and it is not the one that is returned.** -/
theorem elektraLookupByCascading_loses (hcb : Transparent cb) {name : Str} (ho : o.Popping)
    (hr : Ready ct w) (hlt : key < w.heap.next) (hk : Finalized (w.cell key) (some name))
    (hro : (w.cell key).roName = false) (hspec : ConsultsSpec ct name o) {ret : Option KeyRef}
    {w' : World} (h : elektraLookupByCascading (ksLookup cb (n + 1)) w key o = .ok (ret, w')) :
    ∃ k ∈ w.ks.array, (str "spec/").isPrefixOf (keyName (w.cell k)) = true ∧ k ∉ w'.ks.array ∧
      ret ≠ some k := by
  have hmem := hr.not_mem hro
  obtain ⟨-, hnospec, s, hs, hpre⟩ := hspec
  obtain ⟨w1, heq, hpops⟩ := @elektraLookupByCascading_spec _ key _ ct cb n hcb name ho hr hk hmem
    hnospec
  rw [← hr.content] at hs
  obtain ⟨k, hfind, rfl⟩ := Option.map_eq_some_iff.mp hs
  rw [hfind] at hpops heq
  have hframe := hpops.frame.restore hlt
  set w2 := w1.set key (restoreName (w1.cell key) (w.cell key)) with hw2
  have hpops2 : Pops Frame w w2 (some k) :=
    hpops.post rfl ((frameBut_restore _ _ _).leaves hmem hlt) hframe
  obtain ⟨m, hm⟩ := hr.holds
  have hkmem : k ∈ w.ks.array := hpops.mem k rfl
  have hgone : k ∉ w2.ks.array := by
    rw [hpops2.array, List.mem_filter]
    simp
  have hname : (describe w2.heap k).name = (describe w.heap k).name :=
    congrArg (·.getD []) (hframe.cell k (hm.entry k hkmem).lt).key
  -- what the specification says is looked up without popping, in what is left
  have hr2 : Ready (content w2.heap w2.ks) w2 := ⟨⟨_, hpops2.holds m hm⟩, rfl⟩
  have hspec := specFound_refines (ksLookup_refines hcb _ (n + 1)) (answers_eval _ n) key k hr2 (o := o)
  rw [hname, if_pos hpre] at hspec
  rw [heq] at h
  dsimp only at h
  rw [h] at hspec
  obtain ⟨a, ha⟩ : ∃ a, first (eval (resolution (content w2.heap w2.ks)) .fuel (n + 1))
      (specAttempts (describe w2.heap k) o) = .ok a := by
    rcases hx : first (eval (resolution (content w2.heap w2.ks)) .fuel (n + 1))
      (specAttempts (describe w2.heap k) o) with e | a
    · rw [hx] at hspec
      exact hspec.elim
    · exact ⟨a, rfl⟩
  rw [ha] at hspec
  refine ⟨k, hkmem, hpre, ?_⟩
  obtain ⟨-, hd⟩ := hspec
  match a, hd with
  | none, ⟨hret, hs⟩ => exact ⟨hs.array ▸ hgone, by simp [hret]⟩
  | some (.found k'), ⟨hret, hs⟩ =>
    refine ⟨hs.array ▸ hgone, ?_⟩
    rw [hret]
    rintro ⟨⟩
    obtain ⟨hnone, -⟩ | ⟨pre, t, post, b, hl, -, ht, hb⟩ := first_ok ha
    · cases hnone
    · obtain rfl : .found k = b := Option.some.inj hb
      obtain rfl | ⟨name', s', hs', rfl⟩ := found_of_resolves (resolves_of_eval ht) k rfl
      · exact key_not_mem_spec _ _ _ (hl ▸ List.mem_append_right pre List.mem_cons_self)
      · obtain ⟨k', hfind', rfl⟩ := Option.map_eq_some_iff.mp hs'
        exact hgone (findByName_some hfind').1
  | some (.default _ _), ⟨r, hret, hadd⟩ =>
    have hne : r ≠ k :=
      (lt_of_lt_of_le (hm.entry k hkmem).lt (hframe.next.trans hadd.new)).ne'
    refine ⟨fun hk' => ?_, fun hk' => hne (Option.some.inj (hret.symm.trans hk'))⟩
    obtain ⟨-, hs⟩ | ⟨m', hm', hnew⟩ := hadd.added
    · exact hgone (hs.array ▸ hk')
    · exact (mem_added hm' hnew hk').elim (fun he => hne he.symm) hgone

end Spec

/-! ## ksLookup -/

/-! ## Names that no namespace has -/

section Quiet

variable {w : World} {key : KeyRef} {name : Str} {o : Options} {ct : Content} {cb : Callback} {n : ℕ}

theorem find_of_content (hr : Ready ct w) (h : ct name = none) :
    findByName w.heap w.ks (unameOf name) = none := by
  rw [← hr.content, content] at h
  exact Option.map_eq_none_iff.mp h

/-- What a lookup finds by name does not change while its key is renamed. -/
theorem find_frame (hr : Ready ct w) {w1 : World} (hf : FrameBut key w.heap w1.heap)
    (hmem : key ∉ w.ks.array) (hs : Same w w1) (uname : Str) :
    findByName w1.heap w1.ks uname = findByName w.heap w.ks uname := by
  obtain ⟨m, hm⟩ := hr.holds
  exact findByName_congr hs.array (fun k hk => (hf.kept hm hmem hk).ukey) uname

theorem cascadingLoop_quiet (hcb : Transparent cb) (ho : o.Popping) : ∀ (l : List Namespace)
    {w : World}, Ready ct w → key < w.heap.next → key ∉ w.ks.array →
      (∀ ns ∈ l, ct (ns.name ++ name) = none) →
      ∃ w', cascadingLoop (ksLookup cb (n + 1)) key name o l w = .ok (none, w') ∧
        Pops (FrameBut key) w w' none
  | [], w, hr, hlt, hmem, _ =>
    ⟨w, rfl, pops_none ((Frame.refl _).but key) (Same.refl w) fun _ => id⟩
  | ns :: l, w, hr, hlt, hmem, hq => by
    have hne : ns.name ++ name ≠ [] := by cases ns <;> exact List.cons_ne_nil _ _
    have hd : direct (ns.name ++ name) o = true := by
      refine (Bool.or_eq_true _ _).mpr (Or.inr ?_)
      cases ns <;> rfl
    obtain ⟨w1, hx, hpops⟩ := @lookup_finalize_pops w key o ct cb n hcb _ ho hr hmem hne hd
    rw [find_of_content hr (hq ns List.mem_cons_self)] at hx hpops
    have hs := hpops.miss rfl
    have hf := hpops.frame
    obtain ⟨w', hret, hpops'⟩ := cascadingLoop_quiet hcb ho l (hr.frame hf hmem hs)
      (lt_of_lt_of_le hlt hf.next) (hs.array ▸ hmem) fun ns' h' => hq ns' (List.mem_cons_of_mem ns h')
    refine ⟨w', ?_, hpops'.after hf hmem hs (hf.trans hpops'.frame)⟩
    rw [cascadingLoop, ho.eta, hx]
    exact hret

theorem defaultCascading_quiet (hcb : Transparent cb) {old : Key} (ho : o.Popping)
    (hno : o.nodefault = false) (hr : Ready ct w) (hlt : key < w.heap.next) (hmem : key ∉ w.ks.array)
    (hold : Finalized old (some name)) (hkept : KeptName old (w.cell key)) (hq : Quiet ct name) :
    ∃ w', defaultCascading (ksLookup cb (n + 1)) w key old o =
        .ok (findByName w.heap w.ks (unameOf name), w') ∧
      Pops (Restores key old) w w' (findByName w.heap w.ks (unameOf name)) := by
  have hname : old.key.getD [] = name := by rw [hold.key]; rfl
  obtain ⟨w1, hx, hpops⟩ := @cascadingLoop_quiet key name o ct cb n hcb ho
    [.proc, .dir, .user, .system] w hr hlt hmem fun ns hns => hq ns (List.mem_cons_of_mem _ hns)
  have hres := Restores.set hkept hpops.frame hlt
  have hpops1 : Pops (Restores key old) w (w1.set key (restoreName (w1.cell key) old)) none :=
    hpops.post rfl ((frameBut_restore _ _ _).leaves hmem hlt) hres
  have hs := hpops1.miss rfl
  have ho' : ({ o with del := false, nocascading := true } : Options).Popping :=
    ⟨⟨rfl, ho.plain.pop, ho.plain.nocase, ho.plain.withowner, ho.plain.noall, ho.plain.spec,
      ho.plain.create⟩, ho.pop⟩
  obtain ⟨w', hret, hpops'⟩ := @ksLookup_direct_pops _ key _ ct cb n hcb name ho'
    (hr.frame hres.but hmem hs) (hres.old.toAlike.finalized hold) rfl
  rw [find_frame hr hres.but hmem hs] at hret hpops'
  refine ⟨w', ?_, hpops'.after hres.but hmem hs (hres.of_frame hpops'.frame hlt)⟩
  rw [defaultCascading, hname, hx]
  change (if o.nodefault then Except.ok (none, w1.set key (restoreName (w1.cell key) old))
    else ksLookup cb (n + 1) (w1.set key (restoreName (w1.cell key) old)) key
      { o with del := false, nocascading := true }) = _
  rw [if_neg (Bool.eq_false_iff.mp hno)]
  exact hret

theorem elektraLookupByCascading_quiet (hcb : Transparent cb) (ho : o.Popping)
    (hno : o.nodefault = false) (hr : Ready ct w) (hlt : key < w.heap.next)
    (hk : Finalized (w.cell key) (some name)) (hro : (w.cell key).roName = false)
    (hq : Quiet ct name) :
    ∃ w', elektraLookupByCascading (ksLookup cb (n + 1)) w key o =
        .ok (findByName w.heap w.ks (unameOf name), w') ∧
      Pops Frame w w' (findByName w.heap w.ks (unameOf name)) := by
  have hmem := hr.not_mem hro
  have hdefault : ∀ {w1 : World}, FrameBut key w.heap w1.heap → Same w w1 →
      ∃ w', defaultCascading (ksLookup cb (n + 1)) w1 key (w.cell key) o =
          .ok (findByName w.heap w.ks (unameOf name), w') ∧
        Pops Frame w w' (findByName w.heap w.ks (unameOf name)) := by
    intro w1 hf hs
    obtain ⟨w', hret, hpops⟩ := @defaultCascading_quiet w1 key name o ct cb n hcb (w.cell key) ho hno
      (hr.frame hf hmem hs) (lt_of_lt_of_le hlt hf.next) (hs.array ▸ hmem) hk (hf.name hlt) hq
    rw [find_frame hr hf hmem hs] at hret hpops
    have hframe : Frame w.heap w'.heap :=
      Restores.frame ⟨hf.trans hpops.frame.but, hpops.frame.old⟩
    exact ⟨w', hret, hpops.after hf hmem hs hframe⟩
  by_cases hnospec : o.nospec = true
  · unfold elektraLookupByCascading
    rw [if_pos hnospec]
    exact hdefault ((Frame.refl _).but key) (Same.refl w)
  · obtain ⟨w1, heq, hpops⟩ := @elektraLookupByCascading_spec _ key _ ct cb n hcb name ho hr hk hmem
      (Bool.eq_false_of_not_eq_true hnospec)
    have hspec : findByName w.heap w.ks (unameOf (str "spec" ++ name)) = none :=
      find_of_content hr (hq .spec List.mem_cons_self)
    rw [hspec] at heq hpops
    rw [heq]
    exact hdefault hpops.frame (hpops.miss rfl)

end Quiet

section Lookup

variable {w : World} {key : KeyRef} {name : Str} {o : Options} {ct : Content} {cb : Callback}

theorem ksLookup_cascading {n : ℕ} (ho : o.Popping) (hk : (w.cell key).key = some name)
    (hd : direct name o = false) :
    ksLookup cb (n + 1) w key o =
      withUnlocked (fun w k => elektraLookupByCascading (ksLookup cb n) w k o) w key := by
  have hdel : o.del = false := ho.plain.del
  have hcreate : o.create = false := ho.plain.create
  have hmasked : ({ o with del := false, create := false } : Options) = o := by
    cases o
    subst hdel hcreate
    rfl
  have hcas : (!o.nocascading && decide (name.head? = some pathSeparator)) = true := by
    simpa [direct] using hd
  conv_lhs => unfold ksLookup lookupRet
  dsimp only
  rw [hk]
  dsimp only
  rw [hmasked, show o.spec = false from ho.plain.spec, if_neg Bool.false_ne_true, if_pos hcas]
  rcases withUnlocked (fun w k => elektraLookupByCascading (ksLookup cb n) w k o) w key with
    e | ⟨ret, w'⟩
  · rfl
  · change Except.ok (let x := if ret = none ∧ o.create = true then elektraLookupCreateKey w' key
        else (ret, w')
      (x.1, if o.del = true then x.2.del key else x.2)) = _
    rw [hcreate, hdel, if_neg (by simp)]
    rfl

theorem withUnlocked_eq (hlt : key < w.heap.next) (hk : Finalized (w.cell key) (some name)) :
    ∃ w1 c, ∃ g : World → World, Frame w.heap w1.heap ∧ Same w w1 ∧ c < w1.heap.next ∧
      Finalized (w1.cell c) (some name) ∧ (w1.cell c).roName = false ∧
      (∀ w', (g w').ks = w'.ks ∧ Frame w'.heap (g w').heap) ∧
      ∀ f, withUnlocked f w key = (f w1 c).map fun x => (x.1, g x.2) := by
  by_cases hro : (w.cell key).roName = true
  · have hcell : (w.alloc (keyDup (w.cell key))).2.cell w.heap.next = keyDup (w.cell key) :=
      Function.update_self _ _ _
    refine ⟨(w.alloc (keyDup (w.cell key))).2, w.heap.next, fun w' => (w'.set key
      (elektraCopyCallbackMeta (w'.cell key) (w'.cell w.heap.next))).del w.heap.next,
      frame_alloc _ _, ⟨rfl, rfl⟩, Nat.lt_succ_self _, ?_, ?_, fun w' => ⟨rfl, ?_⟩, fun f => ?_⟩
    · rw [hcell]
      exact ⟨hk.key, hk.ukey, hk.sized⟩
    · rw [hcell]
      rfl
    · exact (frame_set (kept_copyCallbackMeta _ _)).trans (frame_del _ _)
    · rw [withUnlocked, if_pos hro]
      change (f (w.alloc (keyDup (w.cell key))).2 w.heap.next >>= _) = _
      rcases f (w.alloc (keyDup (w.cell key))).2 w.heap.next with e | ⟨ret, w'⟩ <;> rfl
  · refine ⟨w, key, id, Frame.refl _, Same.refl w, hlt, hk, Bool.eq_false_of_not_eq_true hro,
      fun w' => ⟨rfl, Frame.refl _⟩, fun f => ?_⟩
    rw [withUnlocked, if_neg hro]
    rcases f w key with e | ⟨ret, w'⟩ <;> rfl

theorem ksLookup_one (ho : o.Popping) (hlt : key < w.heap.next)
    (hk : Finalized (w.cell key) (some name)) (hd : direct name o = false) :
    ksLookup cb 1 w key o = .error .fuel := by
  obtain ⟨w1, c, g, -, -, -, -, -, -, heq⟩ := withUnlocked_eq hlt hk
  have hlookup : ∀ w k o, ksLookup cb 0 w k o = .error .fuel := fun _ _ _ => rfl
  rw [ksLookup_cascading ho hk.key hd, heq, elektraLookupByCascading_fuel hlookup]
  rfl

/-- **A lookup with `KDB_O_POP` of a name that no namespace has takes out the key of that name.** -/
theorem ksLookup_quiet (hcb : Transparent cb) (ho : o.Popping) (hno : o.nodefault = false)
    (hr : Ready ct w) (hlt : key < w.heap.next) (hk : Finalized (w.cell key) (some name))
    (hq : direct name o = true ∨ Quiet ct name) (n : ℕ) :
    ∃ w', ksLookup cb (n + 2) w key o = .ok (findByName w.heap w.ks (unameOf name), w') ∧
      Pops Frame w w' (findByName w.heap w.ks (unameOf name)) := by
  by_cases hd : direct name o = true
  · exact @ksLookup_direct_pops w key o ct cb (n + 1) hcb name ho hr hk hd
  · obtain ⟨w1, c, g, hf, hs, hlt1, hk1, hro1, hg, heq⟩ := withUnlocked_eq hlt hk
    have hd' := Bool.eq_false_of_not_eq_true hd
    have hr1 := hr.frame (hf.but w.heap.next) hr.new_not_mem hs
    obtain ⟨w', hret, hpops⟩ := @elektraLookupByCascading_quiet w1 c name o ct cb n hcb ho hno hr1
      hlt1 hk1 hro1 (hq.resolve_left hd)
    rw [find_frame hr (hf.but w.heap.next) hr.new_not_mem hs] at hret hpops
    have hframe : Frame w.heap w'.heap := hf.trans hpops.frame
    refine ⟨g w', ?_, (hpops.after (hf.but w.heap.next) hr.new_not_mem hs hframe).post (hg w').1
      (hg w').2.leaves (hframe.trans (hg w').2)⟩
    rw [ksLookup_cascading ho hk.key hd', heq, hret]
    rfl

/-- **Where no key of the specification is consulted, exactly the returned key is taken out.** -/
theorem ksLookup_pops (hcb : Transparent cb) (ho : o.Popping) (hr : Ready ct w)
    (hlt : key < w.heap.next) (hk : Finalized (w.cell key) (some name))
    (hspec : ¬ ConsultsSpec ct name o) (n : ℕ) :
    ∃ ret w', ksLookup cb (n + 2) w key o = .ok (ret, w') ∧ Pops Frame w w' ret ∧
      (direct name o = false → o.nospec = false → Quiet ct name ∨ Strays ct name namespaces ret) := by
  by_cases hd : direct name o = true
  · obtain ⟨w', hret, hpops⟩ := @ksLookup_direct_pops w key o ct cb (n + 1) hcb name ho hr hk hd
    exact ⟨_, w', hret, hpops, fun h => by rw [hd] at h; cases h⟩
  · obtain ⟨w1, c, g, hf, hs, hlt1, hk1, hro1, hg, heq⟩ := withUnlocked_eq hlt hk
    have hd' := Bool.eq_false_of_not_eq_true hd
    obtain ⟨ret, w', hret, hpops, hq⟩ := @elektraLookupByCascading_pops w1 c o ct cb n hcb name ho
      (hr.frame (hf.but w.heap.next) hr.new_not_mem hs) hlt1 hk1 hro1 hd' hspec
    refine ⟨ret, g w', ?_, ?_, fun _ => hq⟩
    · rw [ksLookup_cascading ho hk.key hd', heq, hret]
      rfl
    · have hframe : Frame w.heap w'.heap := hf.trans hpops.frame
      have hpops' : Pops Frame w w' ret := hpops.after (hf.but w.heap.next) hr.new_not_mem hs hframe
      exact hpops'.post (hg w').1 (hg w').2.leaves (hframe.trans (hg w').2)

theorem ksLookup_loses (hcb : Transparent cb) (ho : o.Popping) (hr : Ready ct w)
    (hlt : key < w.heap.next) (hk : Finalized (w.cell key) (some name))
    (hspec : ConsultsSpec ct name o) {n : ℕ} {ret : Option KeyRef} {w' : World}
    (h : ksLookup cb n w key o = .ok (ret, w')) :
    ∃ k ∈ w.ks.array, (str "spec/").isPrefixOf (keyName (w.cell k)) = true ∧ k ∉ w'.ks.array ∧
      ret ≠ some k := by
  obtain ⟨w1, c, g, hf, hs, hlt1, hk1, hro1, hg, heq⟩ := withUnlocked_eq hlt hk
  cases n with
  | zero => cases h
  | succ n =>
    cases n with
    | zero => cases (ksLookup_one ho hlt hk hspec.1).symm.trans h
    | succ n =>
      rw [ksLookup_cascading ho hk.key hspec.1, heq] at h
      rcases hx : elektraLookupByCascading (ksLookup cb (n + 1)) w1 c o with e | ⟨r, w2⟩
      · rw [hx] at h
        cases h
      · rw [hx] at h
        cases h
        obtain ⟨k, hk', hpre, hgone, hne⟩ := elektraLookupByCascading_loses hcb ho
          (hr.frame (hf.but w.heap.next) hr.new_not_mem hs) hlt1 hk1 hro1 hspec hx
        rw [hs.array] at hk'
        obtain ⟨m, hm⟩ := hr.holds
        have hname : keyName (w1.cell k) = keyName (w.cell k) :=
          congrArg (·.getD []) (hf.cell k (hm.entry k hk').lt).key
        exact ⟨k, hk', hname ▸ hpre, (hg w2).1 ▸ hgone, hne⟩

/-- **A lookup with `KDB_O_POP` takes out exactly the key it returns, unless it consults a key of the
specification.** -/
theorem ksLookup_pop_iff (hcb : Transparent cb) (hks : ∃ m, w.ks.Holds w.heap m)
    (hlt : key < w.heap.next) (hk : Finalized (w.cell key) (some name)) (ho : o.Popping) :
    (∃ n ret w', ksLookup cb n w key o = .ok (ret, w') ∧
      w'.ks.array = w.ks.array.filter fun k => ret ≠ some k) ↔
    ¬ ConsultsSpec (content w.heap w.ks) name o := by
  constructor
  · rintro ⟨n, ret, w', hret, harray⟩ hspec
    obtain ⟨k, hk', -, hgone, hne⟩ := ksLookup_loses hcb ho ⟨hks, rfl⟩ hlt hk hspec hret
    refine hgone ?_
    rw [harray, List.mem_filter]
    exact ⟨hk', decide_eq_true hne⟩
  · intro hspec
    obtain ⟨ret, w', hret, hpops, -⟩ := ksLookup_pops hcb ho ⟨hks, rfl⟩ hlt hk hspec 0
    exact ⟨2, ret, w', hret, hpops.array⟩

end Lookup

/-- The specification is not asked for. -/
theorem ksLookup_pop_iff_nospec :
    (∃ n ret w', ksLookup noCallback n (worldOf [specA (str "default") (str "x")]) 1
        { pop := true, nospec := true } = .ok (ret, w') ∧ w'.ks.array =
      (worldOf [specA (str "default") (str "x")]).ks.array.filter fun k => ret ≠ some k) ↔
    ¬ ConsultsSpec (content (worldOf [specA (str "default") (str "x")]).heap
      (worldOf [specA (str "default") (str "x")]).ks) (str "/a") { pop := true, nospec := true } :=
  ksLookup_pop_iff transparent_noCallback (worldOf_specA_holds _ _) (by decide)
    (worldOf_finalized [_]) ⟨⟨rfl, rfl, rfl, rfl, rfl, rfl, rfl⟩, rfl⟩

/-- `spec/a`, `user/a`, and the key `/a`. -/
def specUser : World := worldOf [specA (str "default") (str "x"), keyNewName (str "user/a")]

/-- The lookup of `/a` returns `user/a`, and takes out `spec/a`. -/
theorem not_pops_specUser :
    ((ksLookup noCallback 4 specUser 2 { pop := true }).map fun x => (x.1, x.2.ks.array)) =
      .ok (some 1, [1]) ∧
    ¬ ∃ n ret w', ksLookup noCallback n specUser 2 { pop := true } = .ok (ret, w') ∧
      w'.ks.array = specUser.ks.array.filter fun k => ret ≠ some k := by
  refine ⟨by decide +kernel, ?_⟩
  rintro ⟨n, ret, w', hret, harray⟩
  have hholds : ∃ m, specUser.ks.Holds specUser.heap m := by
    refine worldOf_holds fun key hkey => ?_
    obtain rfl | rfl : key = specA (str "default") (str "x") ∨ key = keyNewName (str "user/a") := by
      simpa using hkey
    · exact ⟨Option.some_ne_none _, rfl⟩
    · exact ⟨Option.some_ne_none _, rfl⟩
  have hspec : ConsultsSpec (content specUser.heap specUser.ks) (str "/a") { pop := true } := by
    have hfind : findByName specUser.heap specUser.ks (unameOf (str "spec" ++ str "/a")) = some 0 := by
      decide +kernel
    exact ⟨rfl, rfl, _, congrArg (Option.map _) hfind, by decide +kernel⟩
  obtain ⟨k, hk, -, hgone, hne⟩ := ksLookup_loses transparent_noCallback
    ⟨⟨rfl, rfl, rfl, rfl, rfl, rfl, rfl⟩, rfl⟩ ⟨hholds, rfl⟩ (by decide) (worldOf_finalized _) hspec hret
  refine hgone ?_
  rw [harray, List.mem_filter]
  exact ⟨hk, decide_eq_true hne⟩

end Elektra
