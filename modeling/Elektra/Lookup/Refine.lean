import Elektra.Lookup.Frame

/-!
# ksLookup resolves names

Each function of the lookup refines the attempts that it makes, given that the lookups it calls
refine the evaluation of their queries; `ksLookup` refines it by induction on the depth of the calls.

* `Transparent`: callbacks that only watch;
* `Specifies`: what a key says, whatever its name;
* `elektraLookupSearch_refines`, `elektraLookupBySpecLinks_refines`,
  `elektraLookupBySpecNamespaces_refines`, `elektraLookupBySpecDefault_refines`,
  `elektraLookupBySpec_refines`, `elektraLookupByCascading_refines`;
* **`ksLookup_refines`**.
-/

namespace Elektra

open Choice

/-- The callback watches the search, as that of `kdb get -v` does: it answers the key that was found
and keeps the keys and the key set. -/
structure Transparent (cb : Callback) : Prop where
  found : ∀ v w key found o, (cb v w key found o).1 = found
  ks : ∀ v w key found o, (cb v w key found o).2.ks = w.ks
  frame : ∀ v w key found o, Frame w.heap (cb v w key found o).2.heap

/-! ## Searching a name -/

theorem bsearch_ukey {w : World} {key : KeyRef} {m : Ident → Option KeyRef} (hm : w.ks.Holds w.heap m)
    (hk : Sized (w.cell key)) :
    (bsearch w key keyCompareByName).bind (w.ks.array[·]?) =
      findByName w.heap w.ks (w.cell key).ukey := by
  have hord : (fun i : ℕ => (w.ks.array[i]?).elim Ordering.lt fun k =>
      keyCompareByName (w.cell key) (w.cell k)) = fun i : ℕ => (w.ks.array[i]?).elim .lt fun k =>
      compare (w.cell key).ukey (w.heap.cell k).ukey := by
    funext i
    cases hi : w.ks.array[i]? with
    | none => rfl
    | some k => exact keyCompareByName_eq hk (hm.entry k (List.mem_of_getElem? hi)).sized
  rw [bsearch, hord]
  rfl

theorem bsearch_eq {w : World} {key : KeyRef} {ct : Content} {name : Str} (hr : Ready ct w)
    (hk : Finalized (w.cell key) (some name)) :
    (bsearch w key keyCompareByName).bind (w.ks.array[·]?) =
      findByName w.heap w.ks (unameOf name) := by
  obtain ⟨m, hm⟩ := hr.holds
  rw [bsearch_ukey hm hk.sized, hk.ukey name rfl]

theorem elektraLookupBinarySearch_ukey {w : World} {key : KeyRef} {o : Options}
    {m : Ident → Option KeyRef} (ho : o.Plain) (hm : w.ks.Holds w.heap m) (hk : Sized (w.cell key)) :
    (elektraLookupBinarySearch w key o).1 = findByName w.heap w.ks (w.cell key).ukey ∧
      (elektraLookupBinarySearch w key o).2.heap = w.heap ∧
      Same w (elektraLookupBinarySearch w key o).2 := by
  have hcmp : lookupCompare o = keyCompareByName := by
    simp [lookupCompare, ho.withowner, ho.nocase]
  rw [← bsearch_ukey hm hk]
  unfold elektraLookupBinarySearch
  rw [hcmp]
  cases hb : bsearch w key keyCompareByName with
  | none => exact ⟨rfl, rfl, setCursor_array _ _, setCursor_alloc _ _⟩
  | some found =>
    simp only [ho.pop]
    exact ⟨rfl, rfl, setCursor_array _ _, setCursor_alloc _ _⟩

theorem elektraLookupBinarySearch_spec {w : World} {key : KeyRef} {o : Options} {ct : Content}
    {name : Str} (ho : o.Plain) (hr : Ready ct w) (hk : Finalized (w.cell key) (some name)) :
    (elektraLookupBinarySearch w key o).1 = findByName w.heap w.ks (unameOf name) ∧
      (elektraLookupBinarySearch w key o).2.heap = w.heap ∧
      Same w (elektraLookupBinarySearch w key o).2 := by
  obtain ⟨m, hm⟩ := hr.holds
  rw [← hk.ukey name rfl]
  exact elektraLookupBinarySearch_ukey ho hm hk.sized

theorem elektraLookupSearch_refines {cb : Callback} (hcb : Transparent cb) {w : World} {key : KeyRef}
    {o : Options} {ct : Content} {name : Str} (ho : o.Plain) (hr : Ready ct w)
    (hk : Finalized (w.cell key) (some name)) :
    Refines Frame w (.ok (elektraLookupSearch cb w key o))
      (.ok ((ct name).map fun s => .found s.ref)) := by
  obtain ⟨hfound, hheap, hsame⟩ := elektraLookupBinarySearch_spec ho hr hk
  have hct : (ct name).map (fun s => Answer.found s.ref) =
      (findByName w.heap w.ks (unameOf name)).map .found := by
    rw [← hr.content, content, Option.map_map]
    rfl
  have hd : ∀ {w' : World}, Same w w' →
      Delivers w w' (findByName w.heap w.ks (unameOf name))
        ((findByName w.heap w.ks (unameOf name)).map .found) := by
    intro w' hs
    cases findByName w.heap w.ks (unameOf name) <;> exact ⟨rfl, hs⟩
  rw [hct]
  unfold elektraLookupSearch
  generalize elektraLookupBinarySearch w key o = x at hfound hheap hsame
  obtain ⟨found, w1⟩ := x
  dsimp only at hfound hheap hsame ⊢
  subst hfound
  cases callbackPointer (w1.cell key) with
  | none =>
    refine ⟨?_, hd hsame⟩
    rw [hheap]
    exact Frame.refl _
  | some v =>
    have hframe := hcb.frame v w1 key (findByName w.heap w.ks (unameOf name)) o
    have hks := hcb.ks v w1 key (findByName w.heap w.ks (unameOf name)) o
    have hf := hcb.found v w1 key (findByName w.heap w.ks (unameOf name)) o
    dsimp only
    generalize cb v w1 key (findByName w.heap w.ks (unameOf name)) o = y at hframe hks hf
    obtain ⟨ret, w2⟩ := y
    dsimp only at hframe hks hf
    subst hf
    refine ⟨hheap ▸ hframe, hd ⟨?_, ?_⟩⟩
    · rw [hks, hsame.array]
    · rw [hks, hsame.alloc]

/-! ## Lookups that refine the evaluation of their queries -/

/-- `lookup` refines `run` where the key set has this content. -/
def RefinesAll (ct : Content) (lookup : Lookup) (run : Query → Except Stop (Option Answer)) : Prop :=
  ∀ {w : World} {key : KeyRef} {name : Option Str} {o : Options}, Ready ct w → key < w.heap.next →
    Finalized (w.cell key) name → o.Plain → Refines Frame w (lookup w key o) (run (.lookup name o))

theorem plain_link : ({ nodefault := true } : Options).Plain := ⟨rfl, rfl, rfl, rfl, rfl, rfl, rfl⟩

theorem plain_default : ({} : Options).Plain := ⟨rfl, rfl, rfl, rfl, rfl, rfl, rfl⟩

theorem plain_nocascading : ({ nocascading := true } : Options).Plain :=
  ⟨rfl, rfl, rfl, rfl, rfl, rfl, rfl⟩

theorem plain_nospec : ({ nospec := true, nodefault := true } : Options).Plain :=
  ⟨rfl, rfl, rfl, rfl, rfl, rfl, rfl⟩

theorem Options.Plain.eta {o : Options} (ho : o.Plain) : { o with del := false } = o := by
  have := ho.del
  cases o
  subst this
  rfl

section Parts

variable {ct : Content} {lookup : Lookup} {run : Query → Except Stop (Option Answer)}
  (hrec : RefinesAll ct lookup run)

/-! ## Namespaces -/

include hrec in
theorem lookup_finalize_refines {w : World} {key : KeyRef} {o : Options} (hr : Ready ct w)
    (hlt : key < w.heap.next) (hmem : key ∉ w.ks.array) {name : Str} (hname : name ≠ [])
    (ho : o.Plain) :
    Refines (FrameBut key) w (lookup (w.set key (elektraFinalizeName (w.cell key) name)) key o)
      (run (.lookup (some name) o)) := by
  have hf : FrameBut key w.heap (w.heap.set key (elektraFinalizeName (w.cell key) name)) :=
    frameBut_set (keptName_finalize _ _)
  have hs : Same w (w.set key (elektraFinalizeName (w.cell key) name)) := ⟨rfl, rfl⟩
  have hk : Finalized ((w.set key (elektraFinalizeName (w.cell key) name)).cell key) (some name) := by
    rw [World.cell, World.set, set_cell_self]
    exact finalized_finalize _ hname
  have hr' : Ready ct (w.set key (elektraFinalizeName (w.cell key) name)) := hr.frame hf hmem hs
  exact ((hrec hr' hlt hk ho).but key).trans hr hf hmem hs

include hrec in
theorem cascadingLoop_refines {key : KeyRef} (name : Str) {o : Options} (ho : o.Plain) :
    ∀ (l : List Namespace) {w : World}, Ready ct w → key < w.heap.next → key ∉ w.ks.array →
      Refines (FrameBut key) w (cascadingLoop lookup key name o l w)
        (first run (l.map fun ns => .lookup (some (ns.name ++ name)) o))
  | [], w, _, _, _ => ⟨(Frame.refl _).but key, rfl, Same.refl w⟩
  | ns :: l, w, hr, hlt, hmem => by
    have hne : ns.name ++ name ≠ [] := by cases ns <;> exact List.cons_ne_nil _ _
    rw [List.map_cons, first_cons, cascadingLoop, ho.eta]
    refine (lookup_finalize_refines hrec hr hlt hmem hne ho).orElse (fun _ _ => rfl) fun w' hf hs => ?_
    refine Refines.trans ?_ hr hf hmem hs
    exact cascadingLoop_refines name ho l (hr.frame hf hmem hs) (lt_of_lt_of_le hlt hf.next)
      (hs.array ▸ hmem)

/-- The name and everything else of a renamed key is restored. -/
structure Restores (key : KeyRef) (old : Key) (h h' : Heap) : Prop where
  but : FrameBut key h h'
  old : Kept old (h'.cell key)

theorem Restores.frame {key : KeyRef} {h h' : Heap} (hh : Restores key (h.cell key) h h') :
    Frame h h' := by
  refine ⟨hh.but.next, fun k hk => ?_⟩
  by_cases hkc : k = key
  · subst hkc
    exact hh.old
  · exact hh.but.cell k hk hkc

theorem Restores.of_frame {key : KeyRef} {old : Key} {h h' h'' : Heap} (hh : Restores key old h h')
    (hf : Frame h' h'') (hlt : key < h.next) : Restores key old h h'' where
  but := hh.but.trans (hf.but key)
  old := hh.old.trans (hf.cell key (lt_of_lt_of_le hlt hh.but.next))

theorem frameBut_restore (h : Heap) (key : KeyRef) (old : Key) :
    FrameBut key h (h.set key (restoreName (h.cell key) old)) :=
  frameBut_set ⟨⟨rfl, rfl, rfl, rfl, rfl, id, fun _ _ => rfl⟩, rfl⟩

theorem Restores.set {key : KeyRef} {old : Key} {h h' : Heap} (hold : KeptName old (h.cell key))
    (hf : FrameBut key h h') (hlt : key < h.next) :
    Restores key old h (h'.set key (restoreName (h'.cell key) old)) := by
  have hname : KeptName old (h'.cell key) := hold.trans (hf.name hlt)
  refine ⟨hf.trans (frameBut_restore _ _ _), ?_⟩
  rw [set_cell_self]
  exact hname

include hrec in
theorem defaultCascading_refines {w : World} {key : KeyRef} {old : Key} {name : Str} {o : Options}
    (hr : Ready ct w) (hlt : key < w.heap.next) (hmem : key ∉ w.ks.array)
    (hold : Finalized old (some name)) (hkept : KeptName old (w.cell key)) (ho : o.Plain) :
    Refines (Restores key old) w (defaultCascading lookup w key old o)
      (first run (cascadingAttempts name o)) := by
  have hname : old.key.getD [] = name := by rw [hold.key]; rfl
  have hplain : ({ o with del := false, nocascading := true } : Options).Plain :=
    ⟨rfl, ho.pop, ho.nocase, ho.withowner, ho.noall, ho.spec, ho.create⟩
  have heta : ({ o with del := false, nocascading := true } : Options) =
      { o with nocascading := true } := by rw [ho.del]
  rw [cascadingAttempts, first_append, defaultCascading, hname]
  have hloop := cascadingLoop_refines hrec name ho [.proc, .dir, .user, .system] hr hlt hmem
  obtain ⟨s, hx, he⟩ | ⟨w1, hx, he, hf, hs⟩ | ⟨k, w1, a, hx, he, hf, hd⟩ := hloop.cases
  · rw [hx, he]
    rfl
  · rw [hx, he, orElse_none]
    have hres := Restores.set hkept hf hlt
    have hs1 : Same w (w1.set key (restoreName (w1.cell key) old)) := ⟨hs.array, hs.alloc⟩
    change Refines _ w (if o.nodefault then _ else _) _
    split_ifs with hno
    · exact ⟨hres, rfl, hs1⟩
    · have hlast := hrec (hr.frame hres.but hmem hs1) (lt_of_lt_of_le hlt hres.but.next)
        (hres.old.toAlike.finalized hold) hplain
      rw [first_singleton, ← heta]
      exact hlast.after hr hres.but hmem hs1 fun _ hf' => hres.of_frame hf' hlt
  · rw [hx, he, orElse_some]
    have hres := Restores.set hkept hf hlt
    exact ⟨hres, hd.post ((frameBut_restore _ _ _).leaves hmem hlt) rfl⟩

/-! ## What a key specifies -/

/-- The metadata that the lookup reads in a key of the specification. -/
structure Specifies (key : Key) (s : KeyInfo) : Prop where
  overrides : IsLinks key (str "override/") 0 s.overrides
  namespaces : IsLinks key (str "namespace/") 0 s.namespaces
  fallbacks : IsLinks key (str "fallback/") 0 s.fallbacks
  default : keyGetMeta key (str "default") = s.default

theorem append_ne_binary {buffer : Str} (h : buffer.head?.any (· ≠ 98)) (i : Str) :
    buffer ++ i ≠ str "binary" := by
  cases buffer with
  | nil => cases h
  | cons c buffer =>
    intro he
    obtain rfl : c = 98 := (List.cons.inj he).1
    cases h

theorem Specifies.congr {key key' : Key} {s : KeyInfo} (hs : Specifies key s)
    (h : ∀ m, m ≠ str "binary" → isCallbackMeta m = false → keyGetMeta key' m = keyGetMeta key m) :
    Specifies key' s where
  overrides := hs.overrides.congr fun _ => h _ (append_ne_binary rfl _) rfl
  namespaces := hs.namespaces.congr fun _ => h _ (append_ne_binary rfl _) rfl
  fallbacks := hs.fallbacks.congr fun _ => h _ (append_ne_binary rfl _) rfl
  default := (h _ (by decide) rfl).trans hs.default

theorem Specifies.kept {key key' : Key} {s : KeyInfo} (hs : Specifies key s)
    (h : KeptName key key') : Specifies key' s :=
  hs.congr fun m _ hm => h.getMeta m hm

theorem specifies_describe (h : Heap) (k : KeyRef) : Specifies (h.cell k) (describe h k) :=
  ⟨isLinks_linkValues _ _, isLinks_linkValues _ _, isLinks_linkValues _ _, rfl⟩

theorem keySetMeta_getMeta {key : Key} {name m : Str} {v : Option Str} (hm : m ≠ name) :
    keyGetMeta (keySetMeta key name v).2 m = keyGetMeta key m := by
  have hrest := @lookup_filter (fun n => n ≠ name) m (by simpa using hm) key.metaKeys
  unfold keySetMeta
  split_ifs
  · rfl
  · cases v with
    | none => exact hrest
    | some v =>
      rw [keyGetMeta, List.lookup_cons, beq_eq_false_iff_ne.mpr hm]
      exact hrest

theorem keySetBinary_getMeta {key : Key} {v : Option Str} {m : Str} (hm : m ≠ str "binary") :
    keyGetMeta (keySetBinary key v) m = keyGetMeta key m := by
  unfold keySetBinary
  split_ifs
  · rfl
  · exact keySetMeta_getMeta hm

theorem finalized_setBinary {key : Key} {name : Option Str} (h : Finalized key name)
    (v : Option Str) : Finalized (keySetBinary key v) name := by
  unfold keySetBinary keySetMeta
  split_ifs <;> exact ⟨h.key, h.ukey, h.sized⟩

theorem keySetBinary_key (key : Key) (v : Option Str) : (keySetBinary key v).key = key.key := by
  unfold keySetBinary keySetMeta
  split_ifs <;> rfl

theorem keySetBinary_roName (key : Key) (v : Option Str) :
    (keySetBinary key v).roName = key.roName := by
  unfold keySetBinary keySetMeta
  split_ifs <;> rfl

theorem Specifies.dup {key source : Key} {s : KeyInfo} (hs : Specifies key s) (v : Option Str) :
    Specifies (elektraCopyCallbackMeta (keySetBinary (keyDup key) v) source) s :=
  hs.congr fun _ hb hm => (copyCallbackMeta_getMeta hm).trans (keySetBinary_getMeta hb)

include hrec in
theorem specNamespacesLoop_refines (hover : run .overflow = .error .buffer) {specKey : KeyRef}
    {name : Str} (hne : name ≠ []) : ∀ (l : List Str) {fuel i : ℕ} {w : World}, l.length < fuel →
      IsLinks (w.cell specKey) (str "namespace/") i l → Ready ct w → specKey < w.heap.next →
      specKey ∉ w.ks.array →
      Refines (FrameBut specKey) w (specNamespacesLoop lookup specKey name fuel i w)
        (first run (l.map fun m => if 6 < m.length then .overflow else .lookup (some (m ++ name)) {}))
  | _, 0, _, _, hl, _, _, _, _ => absurd hl (Nat.not_lt_zero _)
  | [], fuel + 1, i, w, _, hlinks, _, _, _ => by
    rw [specNamespacesLoop, show keyGetMeta _ _ = none from hlinks]
    exact ⟨(Frame.refl _).but specKey, rfl, Same.refl w⟩
  | m :: l, fuel + 1, i, w, hl, hlinks, hr, hlt, hmem => by
    rw [specNamespacesLoop, hlinks.1, List.map_cons, first_cons]
    dsimp only
    split_ifs with hm
    · rw [hover]
      rfl
    · have hname : m ++ name ≠ [] := by simp [hne]
      refine (lookup_finalize_refines hrec hr hlt hmem hname plain_default).orElse (fun _ _ => rfl)
        fun w' hf hs => Refines.trans ?_ hr hf hmem hs
      have hmeta : ∀ j, keyGetMeta (w'.cell specKey) (str "namespace/" ++ elektraWriteArrayNumber j) =
          keyGetMeta (w.cell specKey) (str "namespace/" ++ elektraWriteArrayNumber j) :=
        fun _ => (hf.name hlt).getMeta _ rfl
      exact specNamespacesLoop_refines hover hne l (Nat.lt_of_succ_lt_succ hl) (hlinks.2.congr hmeta)
        (hr.frame hf hmem hs) (lt_of_lt_of_le hlt hf.next) (hs.array ▸ hmem)

include hrec in
theorem elektraLookupBySpecNamespaces_refines (hover : run .overflow = .error .buffer) {w : World}
    {specKey : KeyRef} {s : KeyInfo} {name : Str} (hr : Ready ct w) (hlt : specKey < w.heap.next)
    (hmem : specKey ∉ w.ks.array) (hk : Finalized (w.cell specKey) (some name)) (hne : name ≠ [])
    (hs : Specifies (w.cell specKey) s) :
    Refines Frame w (elektraLookupBySpecNamespaces lookup w specKey)
      (first run (namespaceAttempts s name)) := by
  have hfirst : str "namespace/" ++ elektraWriteArrayNumber 0 = str "namespace/#0" := by decide
  have hlinks := hs.namespaces
  unfold elektraLookupBySpecNamespaces namespaceAttempts
  cases hl : s.namespaces with
  | nil =>
    rw [hl] at hlinks
    have hnone : keyGetMeta (w.cell specKey) (str "namespace/#0") = none := hfirst ▸ hlinks
    dsimp only
    rw [hnone]
    have hdef := defaultCascading_refines hrec hr hlt hmem hk (Kept.refl _).keptName plain_nospec
    exact hdef.mono fun _ hf => Restores.frame hf
  | cons m l =>
    rw [hl] at hlinks
    have hsome : keyGetMeta (w.cell specKey) (str "namespace/#0") = some m := hfirst ▸ hlinks.1
    have hname : (w.cell specKey).key.getD [] = name := by rw [hk.key]; rfl
    dsimp only
    rw [hsome, hname]
    have hloop := specNamespacesLoop_refines hrec hover hne (m :: l)
      (Nat.lt_succ_of_le hlinks.hasLinks.length_le) hlinks hr hlt hmem
    exact hloop.post (f := fun w' => w'.set specKey (restoreName (w'.cell specKey) (w.cell specKey)))
      (fun _ => rfl) fun w' hf => ⟨(frameBut_restore _ _ _).leaves hmem hlt, hf.restore hlt⟩

/-! ## Links -/

theorem linkName_finalized {key : Key} (m : Str) (hro : key.roName = false) :
    Finalized (elektraKeySetName key (some m) false).2 (linkName m) ∧
      (elektraKeySetName key (some m) false).2.roName = false := by
  obtain ⟨name, hname⟩ := keySetName_finalized m
  have hlink : linkName m = name := (hname keyNew rfl).1.key
  rw [hlink]
  exact hname key hro

/-- The key of the links is `c`; it is allocated with the first link. -/
def LinkKey (c : KeyRef) (w : World) (k : Option KeyRef) : Prop :=
  (k = none ∧ c = w.heap.next) ∨ (k = some c ∧ c < w.heap.next ∧ (w.cell c).roName = false)

/-- The round of `specLinksLoop` for link `i`, once `c` carries its name. -/
def linkRound (lookup : Lookup) (specKey : KeyRef) (buffer : Str) (fuel i : ℕ) (c : KeyRef)
    (w : World) : Except Stop (Option KeyRef × Option KeyRef × World) := do
  let (ret, w) ← lookup w c { nodefault := true }
  match ret with
  | some ret => .ok (some ret, some c, w)
  | none => specLinksLoop lookup specKey buffer fuel (i + 1) (some c) w

include hrec in
/-- `c` is a key that is not among those of `w₀`, from which the links are followed. -/
theorem specLinksLoop_refines {w₀ : World} (hr : Ready ct w₀) {c : KeyRef} (hc : w₀.heap.next ≤ c)
    {specKey : KeyRef} (hlt : specKey < w₀.heap.next) {buffer : Str}
    (hbuf : ∀ i, isCallbackMeta (buffer ++ elektraWriteArrayNumber i) = false) :
    ∀ (l : List Str) {fuel i : ℕ} {k : Option KeyRef} {w : World}, l.length < fuel →
      IsLinks (w₀.cell specKey) buffer i l → Frame w₀.heap w.heap → Same w₀ w → LinkKey c w k →
      ∃ k' x, (∀ a ∈ k', w₀.heap.next ≤ a) ∧
        specLinksLoop lookup specKey buffer fuel i k w =
          (do
            let (ret, w) ← x
            .ok (ret, k', w)) ∧
        Refines Frame w₀ x (first run (l.map link))
  | _, 0, _, _, _, hl, _, _, _, _ => absurd hl (Nat.not_lt_zero _)
  | [], fuel + 1, i, k, w, _, hlinks, hf, hs, hk => by
    have hnone : keyGetMeta (w.cell specKey) (buffer ++ elektraWriteArrayNumber i) = none :=
      ((hf.cell specKey hlt).getMeta _ (hbuf i)).trans hlinks
    refine ⟨k, .ok (none, w), ?_, ?_, hf, rfl, hs⟩
    · obtain ⟨rfl, -⟩ | ⟨rfl, -⟩ := hk
      · intro a ha
        cases ha
      · rintro a ⟨⟩
        exact hc
    · rw [specLinksLoop, hnone]
      rfl
  | m :: l, fuel + 1, i, k, w, hl, hlinks, hf, hs, hk => by
    have hsome : keyGetMeta (w.cell specKey) (buffer ++ elektraWriteArrayNumber i) = some m :=
      ((hf.cell specKey hlt).getMeta _ (hbuf i)).trans hlinks.1
    -- the lookup of the link, once its key carries the name
    have hround : ∀ w1 : World, Frame w₀.heap w1.heap → Same w₀ w1 → c < w1.heap.next →
        Finalized (w1.cell c) (linkName m) → (w1.cell c).roName = false → ∃ k' x,
          (∀ a ∈ k', w₀.heap.next ≤ a) ∧
          linkRound lookup specKey buffer fuel i c w1 =
            (do
              let (ret, w) ← x
              .ok (ret, k', w)) ∧
          Refines Frame w₀ x (first run ((m :: l).map link)) := by
      intro w1 hf1 hs1 hlt1 hname hro
      have hr1 := hr.frame (hf1.but w₀.heap.next) hr.new_not_mem hs1
      unfold linkRound
      have hlook := hrec hr1 hlt1 hname plain_link
      rw [List.map_cons, first_cons]
      obtain ⟨s, hx, he⟩ | ⟨w2, hx, he, hf2, hs2⟩ | ⟨r, w2, a, hx, he, hf2, hd⟩ := hlook.cases
      · refine ⟨none, .error s, fun a ha => absurd ha (Option.not_mem_none a), by rw [hx]; rfl, ?_⟩
        rw [show run (link m) = _ from he]
        rfl
      · have hkey : LinkKey c w2 (some c) :=
          Or.inr ⟨rfl, lt_of_lt_of_le hlt1 hf2.next, (hf2.cell c hlt1).lock.trans hro⟩
        obtain ⟨k', x, hk', hloop, href⟩ := specLinksLoop_refines hr hc hlt hbuf l
          (Nat.lt_of_succ_lt_succ hl) hlinks.2 (hf1.trans hf2) (hs1.trans hs2) hkey
        refine ⟨k', x, hk', by rw [hx]; exact hloop, ?_⟩
        rw [show run (link m) = _ from he, orElse_none]
        exact href
      · refine ⟨some c, .ok (some r, w2), ?_, by rw [hx]; rfl, ?_⟩
        · rintro a ⟨⟩
          exact hc
        · rw [show run (link m) = _ from he, orElse_some]
          obtain ⟨m', hm'⟩ := hr.holds
          exact ⟨hf1.trans hf2, hd.trans hm' (hf1.but w₀.heap.next) hr.new_not_mem hs1⟩
    rw [specLinksLoop, hsome]
    obtain ⟨rfl, rfl⟩ | ⟨rfl, hlt', hro⟩ := hk
    · have hnamed := @linkName_finalized keyNew m rfl
      have hkept := kept_copyCallbackMeta
        (keySetBinary (keyNewCascading m none) (valueBytes (w.cell specKey))) (w.cell specKey)
      refine hround _ (hf.trans (frame_alloc _ _)) ⟨hs.array, hs.alloc⟩ (Nat.lt_succ_self _) ?_ ?_
      · change Finalized (Function.update w.heap.cell w.heap.next _ w.heap.next) _
        rw [Function.update_self]
        exact hkept.toAlike.finalized (finalized_setBinary hnamed.1 _)
      · change (Function.update w.heap.cell w.heap.next _ w.heap.next).roName = false
        rw [Function.update_self]
        exact hkept.lock.trans ((keySetBinary_roName _ _).trans hnamed.2)
    · have hnamed := linkName_finalized m hro
      refine hround _ ⟨hf.next, fun a ha => ?_⟩ ⟨hs.array, hs.alloc⟩ hlt' ?_ ?_
      · have hne : a ≠ c := (lt_of_lt_of_le ha hc).ne
        exact (set_cell_ne hne).symm ▸ hf.cell a ha
      · rw [World.cell, World.set, set_cell_self]
        exact hnamed.1
      · rw [World.cell, World.set, set_cell_self]
        exact hnamed.2

include hrec in
theorem elektraLookupBySpecLinks_refines {w : World} {specKey : KeyRef} {buffer : Str} {l : List Str}
    (hr : Ready ct w) (hlt : specKey < w.heap.next)
    (hbuf : ∀ i, isCallbackMeta (buffer ++ elektraWriteArrayNumber i) = false)
    (hl : IsLinks (w.cell specKey) buffer 0 l) :
    Refines Frame w (elektraLookupBySpecLinks lookup w specKey buffer) (first run (l.map link)) := by
  obtain ⟨k', x, hk', hloop, href⟩ := specLinksLoop_refines hrec hr le_rfl hlt hbuf l
    (Nat.lt_succ_of_le hl.hasLinks.length_le) hl (Frame.refl _) (Same.refl w) (Or.inl ⟨rfl, rfl⟩)
  rw [elektraLookupBySpecLinks, hloop]
  cases k' with
  | none =>
    rcases x with s | ⟨ret, w'⟩
    · exact href
    · exact href
  | some k =>
    have hpost := href.post (S := Frame) (f := fun w' => (w'.set specKey (elektraCopyCallbackMeta
      (w'.cell specKey) (w'.cell k))).del k) (fun _ => rfl) fun w' hf => ?_
    · rcases x with s | ⟨ret, w'⟩
      · exact hpost
      · exact hpost
    · have hset : Frame w'.heap ((w'.set specKey (elektraCopyCallbackMeta
          (w'.cell specKey) (w'.cell k))).del k).heap :=
        (frame_set (kept_copyCallbackMeta _ _)).trans (frame_del _ _)
      exact ⟨hset.leaves, hf.trans hset⟩

/-! ## Defaults -/

theorem frame_appendKey {h h' : Heap} (hf : Frame h h') {ks : KeySet} {r : KeyRef}
    (hr : h.next ≤ r) : Frame h (ksAppendKey h' ks r).2.1 := by
  have hset : ∀ {h1 : Heap} (key : Key), Frame h h1 → Frame h (h1.set r key) := fun key hf1 =>
    ⟨hf1.next, fun k hk => (set_cell_ne (lt_of_lt_of_le hk hr).ne).symm ▸ hf1.cell k hk⟩
  have hdec : ∀ {h1 : Heap} (k : KeyRef), Frame h h1 → Frame h (keyDecRef h1 k) := fun k hf1 =>
    hf1.trans (frame_set ⟨⟨rfl, rfl, rfl, rfl, rfl, id, fun _ _ => rfl⟩, rfl⟩)
  unfold ksAppendKey
  dsimp only
  split_ifs
  · exact hf.trans (frame_del _ _)
  · exact hset _ hf
  · exact hset _ ((hdec _ (hset _ hf)).trans (frame_del _ _))
  all_goals exact hset _ (hset _ hf)

theorem keyNewCascading_fields (name : Str) (v : Option Str) :
    Sized (keyNewCascading name v) ∧ (keyNewCascading name v).roName = false := by
  obtain ⟨n, hn⟩ := keySetName_finalized name
  obtain ⟨hf, hro⟩ := hn { keyNew with data := v.map (· ++ [0]), sync := v.isSome } rfl
  exact ⟨hf.sized, hro⟩

theorem added_default {w : World} (hr : Ready ct w) (name value : Str) :
    let (ret, w1) := w.alloc (keyNewCascading name (some value))
    Frame w.heap (w1.appendKey ret).heap ∧ Added w (w1.appendKey ret) ret name value := by
  obtain ⟨m, hm⟩ := hr.holds
  set key := keyNewCascading name (some value) with hkey
  set h := (w.heap.alloc key).2 with hh
  have hframe : Frame w.heap h := frame_alloc _ _
  have hcell : h.cell w.heap.next = key := Function.update_self _ _ _
  have hlt : w.heap.next < h.next := Nat.lt_succ_self _
  have hkeeps := keeps_appendKey h w.ks w.heap.next
  change Frame w.heap (ksAppendKey h w.ks w.heap.next).2.1 ∧ Added w
    ⟨(ksAppendKey h w.ks w.heap.next).2.1, (ksAppendKey h w.ks w.heap.next).2.2⟩ w.heap.next name value
  refine ⟨frame_appendKey hframe le_rfl, le_rfl, lt_of_lt_of_le hlt hkeeps.next, ?_, ?_⟩
  · rw [← hkey, ← hcell]
    exact hkeeps.cell _ hlt
  · by_cases hnone : key.key = none
    · refine Or.inl ⟨hnone, ?_, ?_⟩
      all_goals
        unfold ksAppendKey
        rw [if_pos (hcell ▸ hnone)]
    · have hentry : Entry h w.heap.next := ⟨hlt, hcell ▸ hnone, hcell ▸ (keyNewCascading_fields _ _).1⟩
      refine Or.inr ⟨m, hm, ?_⟩
      have happ := ksAppendKey_holds (hm.keeps hframe.keeps) hentry
      rw [← hkeeps.ident hlt] at happ
      exact happ

include hrec in
theorem elektraLookupBySpecDefault_refines (hdef : ∀ name value, run (.default name value) =
    .ok (some (.default name value))) {w : World} {specKey : KeyRef} {s : KeyInfo} {name : Str}
    (hr : Ready ct w) (hlt : specKey < w.heap.next)
    (hk : Finalized (w.cell specKey) (some name)) (hs : Specifies (w.cell specKey) s) :
    Refines Frame w (elektraLookupBySpecDefault lookup w specKey)
      (first run (defaultAttempts s name)) := by
  rw [defaultAttempts, first_cons, elektraLookupBySpecDefault]
  refine (hrec hr hlt hk plain_nocascading).orElse (fun _ _ => rfl) fun w1 hf hs1 => ?_
  have hr1 := hr.frame (hf.but w.heap.next) hr.new_not_mem hs1
  have hmeta : keyGetMeta (w1.cell specKey) (str "default") = s.default :=
    ((hf.cell specKey hlt).getMeta _ rfl).trans hs.default
  have hname : keyName (w1.cell specKey) = name := by
    rw [keyName, show (w1.cell specKey).key = some name from (hf.cell specKey hlt).key.trans hk.key]
    rfl
  dsimp only
  rw [hmeta, hname]
  cases s.default with
  | none => exact ⟨hf, rfl, hs1⟩
  | some m =>
    obtain ⟨hf2, hadd⟩ := added_default hr1 name m
    obtain ⟨m', hm'⟩ := hr.holds
    rw [Option.toList_some, List.map_singleton, first_singleton, hdef]
    exact ⟨hf.trans hf2, _, rfl, hadd.trans hm' (hf.but w.heap.next) hr.new_not_mem hs1⟩

/-! ## The specification -/

/-- The searches and the attempts by a key of the specification, where the calls are not yet at the
bound. -/
structure Answers (ct : Content) (run : Query → Except Stop (Option Answer)) : Prop where
  overflow : run .overflow = .error .buffer
  key : ∀ k, run (.key k) = .ok (some (.found k))
  default : ∀ name value, run (.default name value) = .ok (some (.default name value))
  direct : ∀ name o, direct name o = true →
    run (.lookup (some name) o) = .ok ((ct name).map fun s => .found s.ref)

include hrec in
theorem specSearches_refines (hrun : Answers ct run) {w : World} {specKey : KeyRef} {s : KeyInfo}
    {o : Options} (hr : Ready ct w) (hlt : specKey < w.heap.next) (hmem : specKey ∉ w.ks.array)
    (hk : Finalized (w.cell specKey) (some (s.name.dropWhile (· ≠ pathSeparator))))
    (hne : s.name.dropWhile (· ≠ pathSeparator) ≠ []) (hs : Specifies (w.cell specKey) s) :
    Refines Frame w (specSearches lookup w specKey o) (first run (specAttempts s o)) := by
  -- what a search that finds nothing leaves for the next one
  have hnext : ∀ {w' : World}, Frame w.heap w'.heap → Same w w' → Ready ct w' ∧
      specKey < w'.heap.next ∧ specKey ∉ w'.ks.array ∧ Kept (w.cell specKey) (w'.cell specKey) :=
    fun hf hsame => ⟨hr.frame (hf.but w.heap.next) hr.new_not_mem hsame, lt_of_lt_of_le hlt hf.next,
      hsame.array ▸ hmem, hf.cell specKey hlt⟩
  rw [specAttempts, first_append, first_append, first_append, specSearches]
  refine (elektraLookupBySpecLinks_refines hrec hr hlt (fun _ => rfl) hs.overrides).orElse
    (fun _ _ => rfl) fun w1 hf1 hs1 => ?_
  obtain ⟨hr1, hlt1, hmem1, hk1⟩ := hnext hf1 hs1
  refine Refines.orElse ?_ (fun _ _ => rfl) fun w2 hf2 hs2 => ?_
  · exact (elektraLookupBySpecNamespaces_refines hrec hrun.overflow hr1 hlt1 hmem1
      (hk1.toAlike.finalized hk) hne (hs.kept hk1.keptName)).trans_frame hr hf1 hs1
  obtain ⟨hr2, hlt2, -, hk2⟩ := hnext hf2 hs2
  refine Refines.orElse ?_ (fun _ _ => rfl) fun w3 hf3 hs3 => ?_
  · exact (elektraLookupBySpecLinks_refines hrec hr2 hlt2 (fun _ => rfl)
      (hs.kept hk2.keptName).fallbacks).trans_frame hr hf2 hs2
  obtain ⟨hr3, hlt3, -, hk3⟩ := hnext hf3 hs3
  dsimp only
  split_ifs
  · exact ⟨hf3, rfl, hs3⟩
  · exact (elektraLookupBySpecDefault_refines hrec hrun.default hr3 hlt3 (hk3.toAlike.finalized hk)
      (hs.kept hk3.keptName)).trans_frame hr hf3 hs3

include hrec in
theorem elektraLookupBySpec_refines (hrun : Answers ct run) {w : World} {specKey : KeyRef}
    {s : KeyInfo} {o : Options} (hr : Ready ct w) (hlt : specKey < w.heap.next)
    (hmem : specKey ∉ w.ks.array) (hname : keyName (w.cell specKey) = s.name)
    (hne : s.name.dropWhile (· ≠ pathSeparator) ≠ []) (hs : Specifies (w.cell specKey) s) :
    Refines (FrameBut specKey) w (elektraLookupBySpec lookup w specKey o)
      (first run (specAttempts s o)) := by
  unfold elektraLookupBySpec
  dsimp only
  rw [hname]
  cases hd : s.name.dropWhile (· ≠ pathSeparator) with
  | nil => exact absurd hd hne
  | cons c l =>
    have hf : FrameBut specKey w.heap (w.set specKey (elektraFinalizeName (w.cell specKey) (c :: l))).heap :=
      frameBut_set (keptName_finalize _ _)
    have hsame : Same w (w.set specKey (elektraFinalizeName (w.cell specKey) (c :: l))) := ⟨rfl, rfl⟩
    have hk : Finalized (elektraFinalizeName (w.cell specKey) (c :: l))
        (some (s.name.dropWhile (· ≠ pathSeparator))) := by
      rw [hd]
      exact finalized_finalize _ (List.cons_ne_nil c l)
    have hs' : Specifies (elektraFinalizeName (w.cell specKey) (c :: l)) s :=
      hs.kept (keptName_finalize _ _)
    rw [← set_cell_self w.heap specKey (elektraFinalizeName (w.cell specKey) (c :: l))] at hk hs'
    have hsearch := specSearches_refines hrec hrun (o := o) (hr.frame hf hmem hsame) hlt hmem hk hne hs'
    refine Refines.post (f := fun w' => w'.set specKey (elektraFinalizeName (w'.cell specKey) s.name))
      ((hsearch.but specKey).trans hr hf hmem hsame) (fun _ => rfl) fun w' hf' => ?_
    have hset : FrameBut specKey w'.heap
        (w'.set specKey (elektraFinalizeName (w'.cell specKey) s.name)).heap :=
      frameBut_set (keptName_finalize _ _)
    exact ⟨hset.leaves hmem hlt, hf'.trans hset⟩

/-! ## Cascading -/

theorem dropWhile_spec {name : Str} (h : (str "spec/").isPrefixOf name = true) :
    name.dropWhile (· ≠ pathSeparator) ≠ [] := by
  obtain ⟨t, rfl⟩ := List.isPrefixOf_iff_prefix.mp h
  exact List.cons_ne_nil pathSeparator t

include hrec in
theorem specFound_refines (hrun : Answers ct run) {w : World} (key specKey : KeyRef)
    {o : Options} (hr : Ready ct w) :
    Refines Frame w (specFound lookup w key specKey o)
      (first run (if (str "spec/").isPrefixOf (describe w.heap specKey).name then
        specAttempts (describe w.heap specKey) o else [.key specKey])) := by
  unfold specFound
  rw [show (describe w.heap specKey).name = keyName (w.cell specKey) from rfl]
  by_cases hpre : (str "spec/").isPrefixOf (keyName (w.cell specKey)) = true
  · rw [if_pos hpre, if_neg (by simp [hpre])]
    dsimp only
    set dup := elektraCopyCallbackMeta
      (keySetBinary (keyDup (w.cell specKey)) (valueBytes (w.cell key))) (w.cell key) with hdup
    have hf : Frame w.heap (w.alloc dup).2.heap := frame_alloc _ _
    have hcell : (w.alloc dup).2.cell w.heap.next = dup := Function.update_self _ _ _
    have hname : keyName dup = (describe w.heap specKey).name := by
      rw [keyName, (kept_copyCallbackMeta _ _).key, keySetBinary_key]
      rfl
    have hs : Specifies dup (describe w.heap specKey) :=
      (specifies_describe w.heap specKey).dup (valueBytes (w.cell key))
    rw [← hcell] at hname hs
    have hsame : Same w (w.alloc dup).2 := ⟨rfl, rfl⟩
    have hspec := elektraLookupBySpec_refines hrec hrun (o := o)
      (hr.frame (hf.but w.heap.next) hr.new_not_mem hsame) (Nat.lt_succ_self _) hr.new_not_mem hname
      (dropWhile_spec hpre) hs
    have hspec' := (hspec.trans hr (hf.but w.heap.next) hr.new_not_mem hsame).frame le_rfl
    refine hspec'.post (f := fun w' => (w'.set key (elektraCopyCallbackMeta (w'.cell key)
      (w'.cell w.heap.next))).del w.heap.next) (fun _ => rfl) fun w' hf' => ?_
    have hset : Frame w'.heap ((w'.set key (elektraCopyCallbackMeta (w'.cell key)
        (w'.cell w.heap.next))).del w.heap.next).heap :=
      (frame_set (kept_copyCallbackMeta _ _)).trans (frame_del _ _)
    exact ⟨hset.leaves, hf'.trans hset⟩
  · rw [if_neg hpre, if_pos (by rw [Bool.eq_false_of_not_eq_true hpre]; rfl), first_singleton,
      hrun.key]
    exact ⟨Frame.refl _, rfl, Same.refl w⟩

include hrec in
theorem elektraLookupByCascading_refines (hrun : Answers ct run) {w : World} {key : KeyRef}
    {name : Str} {o : Options} (hr : Ready ct w) (hlt : key < w.heap.next)
    (hk : Finalized (w.cell key) (some name)) (hro : (w.cell key).roName = false) (ho : o.Plain) :
    Refines Frame w (elektraLookupByCascading lookup w key o)
      (first run (attempts ct name o)) := by
  have hmem := hr.not_mem hro
  have hname : (w.cell key).key.getD [] = name := by rw [hk.key]; rfl
  unfold elektraLookupByCascading attempts
  dsimp only
  split_ifs with hnospec
  · exact (defaultCascading_refines hrec hr hlt hmem hk (Kept.refl _).keptName ho).mono
      fun _ hf => Restores.frame hf
  · rw [hname]
    have hplain : ({ o with del := false, callback := true } : Options).Plain :=
      ⟨rfl, ho.pop, ho.nocase, ho.withowner, ho.noall, ho.spec, ho.create⟩
    have hne : str "spec" ++ name ≠ [] := List.cons_ne_nil _ _
    have hfirst := lookup_finalize_refines hrec hr hlt hmem hne hplain
    have hdirect : direct (str "spec" ++ name) { o with del := false, callback := true } = true :=
      (Bool.or_eq_true _ _).mpr (Or.inr rfl)
    have hans := hrun.direct (str "spec" ++ name) { o with del := false, callback := true } hdirect
    obtain ⟨e, hx, he⟩ | ⟨w1, hx, he, hf, hs⟩ | ⟨k, w1, a, hx, he, hf, hd⟩ := hfirst.cases
    · cases hans.symm.trans he
    · -- there is no key of the specification
      have hnone : ct (str "spec" ++ name) = none := by
        have := Except.ok.inj (hans.symm.trans he)
        simpa using this
      rw [hx, hnone]
      have hdef := defaultCascading_refines hrec (hr.frame hf hmem hs) (lt_of_lt_of_le hlt hf.next)
        (hs.array ▸ hmem) hk (hf.name hlt) ho
      exact hdef.after hr hf hmem hs fun h' hres =>
        Restores.frame ⟨hf.trans hres.but, hres.old⟩
    · obtain ⟨s, hct, hs⟩ := Option.map_eq_some_iff.mp (Except.ok.inj (hans.symm.trans he))
      subst hs
      obtain ⟨hret, hsame⟩ := hd
      cases hret
      have hct' := hct
      rw [← hr.content] at hct'
      obtain ⟨k, hfind, rfl⟩ := Option.map_eq_some_iff.mp hct'
      have hframe := hf.restore hlt
      have hsame2 : Same w (w1.set key (restoreName (w1.cell key) (w.cell key))) :=
        ⟨hsame.array, hsame.alloc⟩
      obtain ⟨m, hm⟩ := hr.holds
      have hdesc : describe (w1.set key (restoreName (w1.cell key) (w.cell key))).heap k =
          describe w.heap k :=
        (hframe.cell k (hm.entry k (findByName_some hfind).1).lt).toAlike.describe
      have hfound := specFound_refines hrec hrun (o := o) key k
        (hr.frame (hframe.but w.heap.next) hr.new_not_mem hsame2)
      rw [hdesc] at hfound
      rw [hx, hct]
      exact hfound.trans_frame hr hframe hsame2

theorem withUnlocked_refines {f : World → KeyRef → Except Stop (Option KeyRef × World)}
    {e : Except Stop (Option Answer)} {name : Option Str}
    (hf : ∀ {w : World} {key : KeyRef}, Ready ct w → key < w.heap.next → Finalized (w.cell key) name →
      (w.cell key).roName = false → Refines Frame w (f w key) e) {w : World} {key : KeyRef}
    (hr : Ready ct w) (hlt : key < w.heap.next) (hk : Finalized (w.cell key) name) :
    Refines Frame w (withUnlocked f w key) e := by
  unfold withUnlocked
  split_ifs with hro
  · have hf1 : Frame w.heap (w.alloc (keyDup (w.cell key))).2.heap := frame_alloc _ _
    have hs1 : Same w (w.alloc (keyDup (w.cell key))).2 := ⟨rfl, rfl⟩
    have hr1 := hr.frame (hf1.but w.heap.next) hr.new_not_mem hs1
    have hcell : (w.alloc (keyDup (w.cell key))).2.cell w.heap.next = keyDup (w.cell key) :=
      Function.update_self _ _ _
    have hk1 : Finalized (keyDup (w.cell key)) name := ⟨hk.key, hk.ukey, hk.sized⟩
    have hro1 : (keyDup (w.cell key)).roName = false := rfl
    rw [← hcell] at hk1 hro1
    have hdup := (hf hr1 (Nat.lt_succ_self _) hk1 hro1).trans_frame hr hf1 hs1
    refine hdup.post (f := fun w' => (w'.set key (elektraCopyCallbackMeta (w'.cell key)
      (w'.cell w.heap.next))).del w.heap.next) (fun _ => rfl) fun w' hf' => ?_
    have hset : Frame w'.heap ((w'.set key (elektraCopyCallbackMeta (w'.cell key)
        (w'.cell w.heap.next))).del w.heap.next).heap :=
      (frame_set (kept_copyCallbackMeta _ _)).trans (frame_del _ _)
    exact ⟨hset.leaves, hf'.trans hset⟩
  · exact hf hr hlt hk (Bool.eq_false_of_not_eq_true hro)

end Parts

/-! ## ksLookup -/

theorem answers_eval (ct : Content) (n : ℕ) : Answers ct (eval (resolution ct) .fuel (n + 1)) where
  overflow := rfl
  key _ := rfl
  default _ _ := rfl
  direct name o h := by
    rw [eval, resolution, if_pos h]

theorem attempts_ne_nil (ct : Content) (name : Str) (o : Options) : attempts ct name o ≠ [] := by
  have hcascading : ∀ name o, cascadingAttempts name o ≠ [] := fun _ _ => List.cons_ne_nil _ _
  unfold attempts
  split
  · exact hcascading name o
  · rename_i s _
    split_ifs
    · have hns : ∀ name, namespaceAttempts s name ≠ [] := fun name => by
        unfold namespaceAttempts
        cases s.namespaces with
        | nil => exact hcascading _ _
        | cons m l => exact List.cons_ne_nil _ _
      simp [specAttempts, hns]
    · exact List.cons_ne_nil _ _

theorem elektraLookupByCascading_fuel {lookup : Lookup} (h : ∀ w k o, lookup w k o = .error .fuel)
    (w : World) (key : KeyRef) (o : Options) :
    elektraLookupByCascading lookup w key o = .error .fuel := by
  unfold elektraLookupByCascading
  dsimp only
  split_ifs
  · rw [defaultCascading, cascadingLoop, h]
    rfl
  · rw [h]
    rfl

theorem first_fuel {run : Query → Except Stop (Option Answer)} (h : ∀ q, run q = .error .fuel)
    {l : List Query} (hl : l ≠ []) : first run l = .error .fuel := by
  cases l with
  | nil => exact absurd rfl hl
  | cons q l => rw [first_cons, h, orElse_error]

theorem lookupRet_refines {cb : Callback} (hcb : Transparent cb) {ct : Content} {n : ℕ}
    (hrec : RefinesAll ct (ksLookup cb n) (eval (resolution ct) .fuel n)) {w : World} {key : KeyRef}
    {name : Str} {o : Options} (hr : Ready ct w) (hlt : key < w.heap.next)
    (hk : Finalized (w.cell key) (some name)) (ho : o.Plain) :
    Refines Frame w (lookupRet (ksLookup cb n) cb w key name o)
      (eval (resolution ct) .fuel (n + 1) (.lookup (some name) o)) := by
  have hmasked : ({ o with del := false, create := false } : Options) = o := by
    obtain ⟨hdel, -, -, -, -, -, hcreate⟩ := ho
    cases o
    subst hdel hcreate
    rfl
  unfold lookupRet
  dsimp only
  rw [hmasked, ho.spec, ho.noall, eval, resolution, if_neg Bool.false_ne_true]
  by_cases hd : direct name o = true
  · have hnot : ¬(!o.nocascading && decide (name.head? = some pathSeparator)) = true := by
      simpa [direct, or_iff_not_imp_left] using hd
    rw [if_pos hd, if_neg hnot]
    exact elektraLookupSearch_refines hcb ho hr hk
  · have hnot : (!o.nocascading && decide (name.head? = some pathSeparator)) = true := by
      simpa [direct] using hd
    rw [if_neg hd, if_pos hnot]
    refine withUnlocked_refines (fun hr' hlt' hk' hro' => ?_) hr hlt hk
    cases n with
    | zero =>
      have hlookup : ∀ w k o, ksLookup cb 0 w k o = .error .fuel := fun _ _ _ => rfl
      have hrun : ∀ q, eval (resolution ct) .fuel 0 q = .error .fuel := fun _ => rfl
      rw [elektraLookupByCascading_fuel hlookup]
      dsimp only
      rw [first_fuel hrun (attempts_ne_nil ct name o)]
      rfl
    | succ n =>
      exact elektraLookupByCascading_refines hrec (answers_eval ct n) hr' hlt' hk' hro' ho

/-- **A lookup ends just as the resolution of the name of its key does, with the same bound; all keys
are kept.** -/
theorem ksLookup_refines {cb : Callback} (hcb : Transparent cb) (ct : Content) : ∀ n : ℕ,
    RefinesAll ct (ksLookup cb n) (eval (resolution ct) .fuel n)
  | 0, _, _, _, _, _, _, _, _ => rfl
  | n + 1, w, key, name, o, hr, hlt, hk, ho => by
    have hrec : RefinesAll ct (ksLookup cb n) (eval (resolution ct) .fuel n) :=
      ksLookup_refines hcb ct n
    unfold ksLookup
    dsimp only
    rw [hk.key]
    cases name with
    | none => exact ⟨Frame.refl _, rfl, Same.refl w⟩
    | some name =>
      have hret := lookupRet_refines hcb hrec hr hlt hk ho
      dsimp only
      generalize lookupRet (ksLookup cb n) cb w key name o = x at hret ⊢
      rcases x with s | ⟨ret, w'⟩
      · exact hret
      · have hdone : (if ret = none ∧ o.create = true then elektraLookupCreateKey w' key
            else (ret, w')) = (ret, w') := by simp [ho.create]
        change Refines Frame w (match if ret = none ∧ o.create = true then
          elektraLookupCreateKey w' key else (ret, w') with
          | (ret, w') => .ok (ret, if o.del = true then w'.del key else w')) _
        rw [hdone, ho.del]
        exact hret

end Elektra
