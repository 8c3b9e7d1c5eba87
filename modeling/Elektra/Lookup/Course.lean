import Elektra.Lookup.Cursor

/-!
# Where lookups leave the cursor

The functions behind `ksLookup` search one name after the other. Each of them leaves the cursor as a single search
does, given that the lookups it calls do; and so does `ksLookup`, by induction on the depth of the calls.

* `Course`, `Steers`: what a lookup leaves where it ends;
* `cascadingLoop_course`, `defaultCascading_course`, `elektraLookupBySpecLinks_course`,
  `elektraLookupBySpecDefault_course`, `elektraLookupBySpecNamespaces_course`, `elektraLookupBySpec_course`,
  `elektraLookupByCascading_course`;
* **`ksLookup_steers`**.
-/

namespace Elektra

/-- What a lookup leaves, where it ends. -/
def Course (pop deep : Bool) (R : Heap → Heap → Prop) (w : World) (x : Except Stop (Option KeyRef × World)) : Prop :=
  ∀ ret w', x = .ok (ret, w') → R w.heap w'.heap ∧ Result pop deep w ret w'

/-- The lookup of a name asks for keys of the specification. -/
def consults (name : Option Str) (o : Options) : Bool :=
  !o.nocascading && !o.nospec && decide (name.bind List.head? = some pathSeparator)

/-- A lookup leaves the keys, and the cursor as a search does. -/
def Steers (lookup : Lookup) : Prop :=
  ∀ {w : World} {key : KeyRef} {o : Options}, Proper w → w.ks.Settled → key < w.heap.next → o.spec = false →
    o.create = false → Course o.pop (consults (w.cell key).key o) Frame w (lookup w key o)

section Courses

variable {w w₁ : World} {c : KeyRef} {pop pop' deep deep' : Bool} {R S : Heap → Heap → Prop}
  {x : Except Stop (Option KeyRef × World)}

theorem Course.ok {ret : Option KeyRef} {w' : World} (hR : R w.heap w'.heap) (h : Result pop deep w ret w') :
    Course pop deep R w (.ok (ret, w')) := by
  intro ret₁ w₁ he
  cases he
  exact ⟨hR, h⟩

theorem Course.error {e : Stop} : Course pop deep R w (.error e) := fun _ _ he => by cases he

theorem Course.mono (h : Course pop deep R w x) (hR : ∀ h', R w.heap h' → S w.heap h')
    (hpop : pop = true → pop' = true) (hdeep : deep = true → deep' = true) : Course pop' deep' S w x := by
  intro ret w' hx
  obtain ⟨hf, hres⟩ := h ret w' hx
  exact ⟨hR _ hf, hres.mono hpop hdeep⟩

theorem Course.after (h : Course pop deep R w₁ x) (hres : Result pop deep w none w₁) (hc : c ∉ w₁.ks.array)
    (hn : w.heap.next ≤ w₁.heap.next) (hR : ∀ h', R w₁.heap h' → FrameBut c w₁.heap h' ∧ S w.heap h') :
    Course pop deep S w x := by
  intro ret w' hx
  obtain ⟨hf, hres'⟩ := h ret w' hx
  obtain ⟨hbut, hS⟩ := hR _ hf
  exact ⟨hS, hres.trans hres' (hres.proper.keeping hbut hc) hn⟩

theorem Course.orElse {f : Option KeyRef × World → Except Stop (Option KeyRef × World)}
    (h : Course pop deep R w x) (hsome : ∀ k w', f (some k, w') = .ok (some k, w'))
    (hnone : ∀ w', R w.heap w'.heap → Result pop deep w none w' → Course pop deep R w (f (none, w'))) :
    Course pop deep R w (x >>= f) := by
  intro ret w' hx
  obtain ⟨⟨found, w₁⟩, hx, hf⟩ := except_bind_ok hx
  obtain ⟨hR, hres⟩ := h found w₁ hx
  cases found with
  | none => exact hnone w₁ hR hres ret w' hf
  | some k =>
    rw [hsome] at hf
    cases hf
    exact ⟨hR, hres⟩

theorem Course.post {f : World → World} (h : Course pop deep R w x) (hks : ∀ w', (f w').ks = w'.ks)
    (hf : ∀ w', R w.heap w'.heap → Proper w' → Keeping w' (f w') ∧ S w.heap (f w').heap) :
    Course pop deep S w
      (do
        let (ret, w') ← x
        .ok (ret, f w')) := by
  intro ret w₂ hdo
  obtain ⟨⟨found, w₁⟩, hx, he⟩ := except_bind_ok hdo
  obtain ⟨rfl, rfl⟩ := Prod.mk.inj (Except.ok.inj he)
  obtain ⟨hR, hres⟩ := h found w₁ hx
  obtain ⟨hkeep, hS⟩ := hf w₁ hR hres.proper
  exact ⟨hS, hres.after hkeep (hks w₁)⟩

theorem Course.but (h : Course pop deep Frame w x) (c : KeyRef) : Course pop deep (FrameBut c) w x :=
  h.mono (fun _ hf => hf.but c) id id

end Courses

section Functions

variable {lookup : Lookup} (hrec : Steers lookup) {w : World} {key : KeyRef} {o : Options}

theorem Proper.set (hp : Proper w) (hro : (w.cell key).roName = false) {cell : Key} (hc : KeptName (w.cell key) cell) :
    Proper (w.set key cell) ∧ FrameBut key w.heap (w.set key cell).heap ∧ Keeping w (w.set key cell) ∧
      ((w.set key cell).cell key).roName = false := by
  have hf : FrameBut key w.heap (w.set key cell).heap := frameBut_set hc
  refine ⟨hp.frame hf rfl, hf, hp.keeping hf (hp.not_mem hro), ?_⟩
  rw [World.cell, World.set, set_cell_self]
  exact hc.lock.trans hro

/-! ## Namespaces -/

include hrec in
theorem lookup_finalize_course (hp : Proper w) (hs : w.ks.Settled) (hlt : key < w.heap.next)
    (hro : (w.cell key).roName = false) (name : Str) (hspec : o.spec = false) (hcreate : o.create = false) :
    Course o.pop (consults (some name) o) (FrameBut key) w
      (lookup (w.set key (elektraFinalizeName (w.cell key) name)) key o) := by
  obtain ⟨hp₁, hf₁, -, hro₁⟩ := hp.set hro (keptName_finalize _ name)
  have hname : ((w.set key (elektraFinalizeName (w.cell key) name)).cell key).key = some name := by
    rw [World.cell, World.set, set_cell_self]
    rfl
  have hlook := hrec hp₁ hs hlt hspec hcreate
  rw [hname] at hlook
  exact hlook.after ⟨hp₁, hs, .inl rfl⟩ (hp₁.not_mem hro₁) le_rfl fun _ hf => ⟨hf.but key, hf₁.trans (hf.but key)⟩

theorem consults_namespace (ns : Namespace) (name : Str) (o : Options) :
    consults (some (ns.name ++ name)) o = false := by
  have hhead : (ns.name ++ name).head? ≠ some pathSeparator := by
    cases ns <;> exact fun h => absurd (Option.some.inj h) (by decide)
  rw [consults, Option.bind_some, decide_eq_false hhead, Bool.and_false]

include hrec in
theorem cascadingLoop_course (name : Str) (hspec : o.spec = false) (hcreate : o.create = false) :
    ∀ (l : List Namespace) {w : World}, Proper w → w.ks.Settled → key < w.heap.next → (w.cell key).roName = false →
      Course o.pop false (FrameBut key) w (cascadingLoop lookup key name o l w)
  | [], w, hp, hs, _, _ => .ok ((Frame.refl _).but key) (.start hp hs)
  | ns :: l, w, hp, hs, hlt, hro => by
    have hlook := @lookup_finalize_course lookup hrec w key { o with del := false } hp hs hlt hro (ns.name ++ name)
      hspec hcreate
    rw [consults_namespace] at hlook
    rw [cascadingLoop]
    refine hlook.orElse (fun _ _ => rfl) fun w₁ hf hres => ?_
    have hro₁ := (hf.name hlt).lock.trans hro
    have hrest := cascadingLoop_course name hspec hcreate l hres.proper hres.settled (lt_of_lt_of_le hlt hf.next) hro₁
    exact hrest.after hres (hres.proper.not_mem hro₁) hf.next fun _ hf' => ⟨hf', hf.trans hf'⟩

include hrec in
theorem defaultCascading_course {old : Key} (hp : Proper w) (hs : w.ks.Settled) (hlt : key < w.heap.next)
    (hro : (w.cell key).roName = false) (hold : KeptName old (w.cell key)) (hspec : o.spec = false)
    (hcreate : o.create = false) :
    Course o.pop false (Restores key old) w (defaultCascading lookup w key old o) := by
  intro ret w' h
  obtain ⟨⟨found, w₁⟩, hx, h⟩ := except_bind_ok h
  obtain ⟨hf₁, hres₁⟩ := cascadingLoop_course hrec _ hspec hcreate _ hp hs hlt hro found w₁ hx
  have hro₁ := (hf₁.name hlt).lock.trans hro
  have hback := Restores.set hold hf₁ hlt
  have hkeep : Keeping w₁ (w₁.set key (restoreName (w₁.cell key) old)) :=
    hres₁.proper.keeping (frameBut_restore _ _ _) (hres₁.proper.not_mem hro₁)
  have hres₂ := @Result.after _ _ (w₁.set key (restoreName (w₁.cell key) old)) _ _ _ hres₁ hkeep rfl
  cases found with
  | some k =>
    cases h
    exact ⟨hback, hres₂⟩
  | none =>
    dsimp only at h
    split_ifs at h
    · cases h
      exact ⟨hback, hres₂⟩
    · have hlt₂ := lt_of_lt_of_le hlt hback.but.next
      have hlook := hrec (o := { o with del := false, nocascading := true }) hres₂.proper hres₂.settled hlt₂ hspec
        hcreate
      have hmem := hres₂.proper.not_mem ((hback.but.name hlt).lock.trans hro)
      exact hlook.after hres₂ hmem hback.but.next
        (fun _ hf => ⟨hf.but key, hback.of_frame hf hlt⟩) ret w' h

include hrec in
theorem specNamespacesLoop_course (name : Str) : ∀ (fuel : ℕ) {i : ℕ} {w : World}, Proper w → w.ks.Settled →
    key < w.heap.next → (w.cell key).roName = false →
    Course false true (FrameBut key) w (specNamespacesLoop lookup key name fuel i w)
  | 0, _, w, hp, hs, _, _ => .ok ((Frame.refl _).but key) (.start hp hs)
  | fuel + 1, i, w, hp, hs, hlt, hro => by
    rw [specNamespacesLoop]
    cases keyGetMeta (w.cell key) (str "namespace/" ++ elektraWriteArrayNumber i) with
    | none => exact .ok ((Frame.refl _).but key) (.start hp hs)
    | some m =>
      dsimp only
      split_ifs
      · exact .error
      · have hlook := @lookup_finalize_course lookup hrec w key {} hp hs hlt hro (m ++ name) rfl rfl
        refine (hlook.mono (fun _ => id) id fun _ => rfl).orElse (fun _ _ => rfl) fun w₁ hf hres => ?_
        have hro₁ := (hf.name hlt).lock.trans hro
        have hrest := specNamespacesLoop_course name fuel (i := i + 1) hres.proper hres.settled
          (lt_of_lt_of_le hlt hf.next) hro₁
        exact hrest.after hres (hres.proper.not_mem hro₁) hf.next fun _ hf' => ⟨hf', hf.trans hf'⟩

include hrec in
theorem elektraLookupBySpecNamespaces_course (hp : Proper w) (hs : w.ks.Settled) (hlt : key < w.heap.next)
    (hro : (w.cell key).roName = false) :
    Course false true Frame w (elektraLookupBySpecNamespaces lookup w key) := by
  unfold elektraLookupBySpecNamespaces
  dsimp only
  cases keyGetMeta (w.cell key) (str "namespace/#0") with
  | none =>
    have hdef := defaultCascading_course hrec (o := { nospec := true, nodefault := true }) hp hs hlt hro
      (Kept.refl _).keptName rfl rfl
    exact hdef.mono (fun _ hf => Restores.frame hf) id fun _ => rfl
  | some m =>
    have hloop := specNamespacesLoop_course hrec ((w.cell key).key.getD []) ((w.cell key).metaKeys.length + 1)
      (i := 0) hp hs hlt hro
    refine hloop.post (f := fun w' => w'.set key (restoreName (w'.cell key) (w.cell key))) (fun _ => rfl)
      fun w' hf hp' => ⟨?_, hf.restore hlt⟩
    exact hp'.keeping (frameBut_restore _ _ _) (hp'.not_mem ((hf.name hlt).lock.trans hro))

/-! ## Links -/

theorem Proper.keeping_set (hp : Proper w) (hro : (w.cell key).roName = false) (cell : Key) :
    Keeping w (w.set key cell) := by
  have hcell : ∀ k ∈ w.ks.array, (w.set key cell).cell k = w.cell k := fun k hk =>
    set_cell_ne fun he => hp.not_mem hro (he ▸ hk)
  exact ⟨le_rfl, fun k hk => by rw [hcell k hk], fun k hk => by rw [hcell k hk]⟩

/-- Keys of `w` stay when metadata is copied from a new key, and that is deleted. -/
theorem keeping_copyBack (hp : Proper w) (k c : KeyRef) :
    Keeping w ((w.set k (elektraCopyCallbackMeta (w.cell k) (w.cell c))).del c) ∧
      Frame w.heap ((w.set k (elektraCopyCallbackMeta (w.cell k) (w.cell c))).del c).heap := by
  have hset : Frame w.heap ((w.set k (elektraCopyCallbackMeta (w.cell k) (w.cell c))).del c).heap :=
    (frame_set (kept_copyCallbackMeta _ _)).trans (frame_del _ _)
  exact ⟨hp.keeping (hset.but w.heap.next) hp.new_not_mem, hset⟩

include hrec in
/-- `c` is a key that is not among those of `w₀`, from which the links are followed. -/
theorem specLinksLoop_course {w₀ : World} {c : KeyRef} (hc : w₀.heap.next ≤ c) (specKey : KeyRef) (buffer : Str) :
    ∀ (fuel : ℕ) {i : ℕ} {k : Option KeyRef} {w : World}, Frame w₀.heap w.heap → Result false true w₀ none w →
      LinkKey c w k → ∀ ret k' w', specLinksLoop lookup specKey buffer fuel i k w = .ok (ret, k', w') →
        Frame w₀.heap w'.heap ∧ Result false true w₀ ret w'
  | 0, i, k, w, hf, hres, _ => by
    intro ret k' w' h
    cases h
    exact ⟨hf, hres⟩
  | fuel + 1, i, k, w, hf, hres, hk => by
    intro ret k' w' h
    -- the lookup of the link, once its key carries the name
    have hround : ∀ w₁ : World, Frame w₀.heap w₁.heap → Keeping w w₁ → w₁.ks = w.ks → c < w₁.heap.next →
        (w₁.cell c).roName = false → linkRound lookup specKey buffer fuel i c w₁ = .ok (ret, k', w') →
        Frame w₀.heap w'.heap ∧ Result false true w₀ ret w' := by
      intro w₁ hf₁ hkeep hks hlt hro h
      have hres₁ := hres.after hkeep hks
      obtain ⟨⟨found, w₂⟩, hx, h⟩ := except_bind_ok h
      have hlook := hrec (o := { nodefault := true }) hres₁.proper hres₁.settled hlt rfl rfl
      have hf₂ := (hlook found w₂ hx).1
      have hafter := (hlook.mono (fun _ => id) id fun _ => rfl).after (S := fun _ => Frame w₀.heap) hres₁
        (hres₁.proper.not_mem hro) hf₁.next fun _ hf' => ⟨hf'.but c, hf₁.trans hf'⟩
      obtain ⟨hf₀, hres₂⟩ := hafter found w₂ hx
      cases found with
      | some r =>
        cases h
        exact ⟨hf₀, hres₂⟩
      | none =>
        have hkey : LinkKey c w₂ (some c) := .inr ⟨rfl, lt_of_lt_of_le hlt hf₂.next, (hf₂.cell c hlt).lock.trans hro⟩
        exact specLinksLoop_course hc specKey buffer fuel hf₀ hres₂ hkey ret k' w' h
    rw [specLinksLoop] at h
    cases hm : keyGetMeta (w.cell specKey) (buffer ++ elektraWriteArrayNumber i) with
    | none =>
      rw [hm] at h
      cases h
      exact ⟨hf, hres⟩
    | some m =>
      rw [hm] at h
      obtain ⟨rfl, rfl⟩ | ⟨rfl, hlt, hro⟩ := hk
      · have hframe := frame_alloc w.heap (elektraCopyCallbackMeta
          (keySetBinary (keyNewCascading m none) (valueBytes (w.cell specKey))) (w.cell specKey))
        refine hround (w.alloc _).2 (hf.trans hframe) (hres.proper.keeping (hframe.but w.heap.next) hres.proper.new_not_mem) rfl
          (Nat.lt_succ_self _) ?_ h
        change (Function.update w.heap.cell w.heap.next _ w.heap.next).roName = false
        rw [Function.update_self]
        exact (kept_copyCallbackMeta _ _).lock.trans
          ((keySetBinary_roName _ _).trans (@linkName_finalized keyNew m rfl).2)
      · refine hround (w.set c (elektraKeySetName (w.cell c) (some m) false).2) ⟨hf.next, fun a ha => ?_⟩ (hres.proper.keeping_set hro _) rfl hlt ?_ h
        · have hne : a ≠ c := (lt_of_lt_of_le ha hc).ne
          exact (set_cell_ne hne).symm ▸ hf.cell a ha
        · rw [World.cell, World.set, set_cell_self]
          exact (linkName_finalized m hro).2

include hrec in
theorem elektraLookupBySpecLinks_course (hp : Proper w) (hs : w.ks.Settled) (specKey : KeyRef) (buffer : Str) :
    Course false true Frame w (elektraLookupBySpecLinks lookup w specKey buffer) := by
  intro ret w' h
  obtain ⟨⟨found, k, w₁⟩, hx, h⟩ := except_bind_ok h
  obtain ⟨hf, hres⟩ := specLinksLoop_course hrec le_rfl specKey buffer _ (Frame.refl _) (.start hp hs)
    (Or.inl ⟨rfl, rfl⟩) found k w₁ hx
  cases k with
  | none =>
    cases h
    exact ⟨hf, hres⟩
  | some k =>
    obtain ⟨hkeep, hset⟩ := keeping_copyBack hres.proper specKey k
    cases h
    exact ⟨hf.trans hset, hres.after hkeep rfl⟩

/-! ## Defaults -/

theorem appendKey_course (hp : Proper w) (hs : w.ks.Settled) (cell : Key) :
    Course false true Frame w
      (.ok (some (w.alloc cell).1, (w.alloc cell).2.appendKey (w.alloc cell).1)) := by
  set h := (w.heap.alloc cell).2 with hh
  have hcell : h.cell w.heap.next = cell := Function.update_self _ _ _
  have hframe : Frame w.heap h := frame_alloc _ _
  have hmem : w.heap.next ∉ w.ks.array := hp.new_not_mem
  have hframe' := @frame_appendKey _ _ hframe w.ks w.heap.next le_rfl
  refine .ok hframe' ?_
  change Result false true w (some w.heap.next)
    ⟨(ksAppendKey h w.ks w.heap.next).2.1, (ksAppendKey h w.ks w.heap.next).2.2⟩
  by_cases hnone : cell.key = none
  · have hks : (ksAppendKey h w.ks w.heap.next).2.2 = w.ks := by
      unfold ksAppendKey
      rw [if_pos (hcell ▸ hnone)]
    refine ⟨hp.frame (hframe'.but w.heap.next) (congrArg KeySet.array hks), ?_, .inr (.inr ⟨rfl, le_rfl, ?_⟩)⟩
    · exact hks.symm ▸ hs
    · exact hks.symm ▸ hmem
  · have hnamed : (h.cell w.heap.next).key ≠ none := hcell ▸ hnone
    have hnew : w.heap.next < h.next := Nat.lt_succ_self _
    obtain ⟨hstands, hkeys⟩ := appendKey_stands hnamed hmem
    refine ⟨fun k hk => ?_, hstands.settled, .inl ⟨hstands, .inr ⟨rfl, .inr le_rfl⟩⟩⟩
    obtain rfl | hk := hkeys k hk
    · exact ⟨hnew.trans_le (next_appendKey h w.ks _).ge, appendKey_locks hnew hnamed⟩
    · obtain ⟨hlt, hlock⟩ := hp k hk
      exact ⟨lt_of_lt_of_le hlt hframe'.next, (hframe'.cell k hlt).lock.trans hlock⟩

include hrec in
theorem elektraLookupBySpecDefault_course (hp : Proper w) (hs : w.ks.Settled) (hlt : key < w.heap.next) :
    Course false true Frame w (elektraLookupBySpecDefault lookup w key) := by
  have hlook := hrec (o := { nocascading := true }) hp hs hlt rfl rfl
  rw [elektraLookupBySpecDefault]
  refine (hlook.mono (fun _ => id) id fun _ => rfl).orElse (fun _ _ => rfl) fun w₁ hf hres => ?_
  dsimp only
  cases keyGetMeta (w₁.cell key) (str "default") with
  | none => exact .ok hf hres
  | some m =>
    have happ := appendKey_course hres.proper hres.settled (keyNewCascading (keyName (w₁.cell key)) (some m))
    exact happ.after hres hres.proper.new_not_mem hf.next fun _ hf' => ⟨hf'.but _, hf.trans hf'⟩

/-! ## The specification -/

include hrec in
theorem specSearches_course (hp : Proper w) (hs : w.ks.Settled) (hlt : key < w.heap.next)
    (hro : (w.cell key).roName = false) : Course false true Frame w (specSearches lookup w key o) := by
  -- a search from where another found nothing
  have hnext : ∀ {w₁ : World} {x : Except Stop (Option KeyRef × World)}, Frame w.heap w₁.heap →
      Result false true w none w₁ → Course false true Frame w₁ x → Course false true Frame w x :=
    fun hf hres h => h.after hres hres.proper.new_not_mem hf.next fun _ hf' => ⟨hf'.but _, hf.trans hf'⟩
  rw [specSearches]
  refine (elektraLookupBySpecLinks_course hrec hp hs key _).orElse (fun _ _ => rfl) fun w₁ hf₁ h₁ => ?_
  have hlt₁ := lt_of_lt_of_le hlt hf₁.next
  have hro₁ := (hf₁.cell key hlt).lock.trans hro
  refine Course.orElse ?_ (fun _ _ => rfl) fun w₂ hf₂ h₂ => ?_
  · exact hnext hf₁ h₁ (elektraLookupBySpecNamespaces_course hrec h₁.proper h₁.settled hlt₁ hro₁)
  refine Course.orElse ?_ (fun _ _ => rfl) fun w₃ hf₃ h₃ => ?_
  · exact hnext hf₂ h₂ (elektraLookupBySpecLinks_course hrec h₂.proper h₂.settled key _)
  dsimp only
  split_ifs
  · exact .ok hf₃ h₃
  · exact hnext hf₃ h₃
      (elektraLookupBySpecDefault_course hrec h₃.proper h₃.settled (lt_of_lt_of_le hlt hf₃.next))

include hrec in
theorem elektraLookupBySpec_course (hp : Proper w) (hs : w.ks.Settled) (hlt : key < w.heap.next)
    (hro : (w.cell key).roName = false) :
    Course false true (FrameBut key) w (elektraLookupBySpec lookup w key o) := by
  unfold elektraLookupBySpec
  dsimp only
  cases (keyName (w.cell key)).dropWhile (· ≠ pathSeparator) with
  | nil => exact .error
  | cons c l =>
    obtain ⟨hp₁, hf₁, -, hro₁⟩ := hp.set hro (keptName_finalize _ (c :: l))
    have hsearch := specSearches_course hrec (o := o) hp₁ hs hlt hro₁
    have hafter := (hsearch.but key).after (w := w) (S := FrameBut key) ⟨hp₁, hs, .inl rfl⟩ (hp₁.not_mem hro₁) le_rfl
      fun _ hf => ⟨hf, hf₁.trans hf⟩
    refine hafter.post (f := fun w' => w'.set key (elektraFinalizeName (w'.cell key) (keyName (w.cell key))))
      (fun _ => rfl) fun w' hf hp' => ?_
    obtain ⟨-, hf', hkeep, -⟩ := hp'.set ((hf.name hlt).lock.trans hro)
      (keptName_finalize _ (keyName (w.cell key)))
    exact ⟨hkeep, hf.trans hf'⟩

/-! ## Cascading -/

theorem Result.isSpec {pop : Bool} {w₁ : World} {k : KeyRef} (h : Result pop false w (some k) w₁)
    (hk : IsSpec (w₁.cell k)) : Result pop true w none w₁ where
  proper := h.proper
  settled := h.settled
  outcome := by
    refine .inr ⟨rfl, ?_⟩
    obtain ⟨hstands, harray⟩ | ⟨hpop, -, hlt⟩ | ⟨hdeep, -⟩ := h.outcome
    · exact .inl ⟨k, hstands, hk, harray.resolve_right fun hdeep => Bool.false_ne_true hdeep.1⟩
    · exact .inr ⟨hpop, hlt⟩
    · exact absurd hdeep Bool.false_ne_true

include hrec in
theorem specFound_course {w₀ : World} {specKey : KeyRef} {pop : Bool} (hres : Result pop false w₀ (some specKey) w)
    (hn : w₀.heap.next ≤ w.heap.next) :
    ∀ ret w', specFound lookup w key specKey o = .ok (ret, w') → Frame w.heap w'.heap ∧ Result pop true w₀ ret w' := by
  intro ret w' h
  rw [specFound] at h
  split_ifs at h with hspec
  · cases h
    exact ⟨.refl _, hres.mono id fun _ => rfl⟩
  · have hmiss := hres.isSpec (by rwa [Bool.not_eq_true', Bool.not_eq_false] at hspec)
    have hframe := frame_alloc w.heap (elektraCopyCallbackMeta
      (keySetBinary (keyDup (w.cell specKey)) (valueBytes (w.cell key))) (w.cell key))
    have hro : (elektraCopyCallbackMeta (keySetBinary (keyDup (w.cell specKey)) (valueBytes (w.cell key)))
        (w.cell key)).roName = false :=
      (kept_copyCallbackMeta _ _).lock.trans (keySetBinary_roName _ _)
    dsimp only at h
    generalize elektraCopyCallbackMeta (keySetBinary (keyDup (w.cell specKey)) (valueBytes (w.cell key)))
      (w.cell key) = dup at h hframe hro
    have hkeep : Keeping w (w.alloc dup).2 :=
      hmiss.proper.keeping (hframe.but w.heap.next) hmiss.proper.new_not_mem
    have hmiss₁ := hmiss.after hkeep rfl
    have hcell : (w.alloc dup).2.cell w.heap.next = dup := Function.update_self _ _ _
    have hsearch := elektraLookupBySpec_course hrec (o := o) hmiss₁.proper hmiss₁.settled (Nat.lt_succ_self _)
      (hcell.symm ▸ hro)
    have hafter := (hsearch.mono (fun _ => id) (fun hpop => absurd hpop Bool.false_ne_true) id).after
      (S := fun _ => Frame w.heap) hmiss₁ hmiss.proper.new_not_mem (hn.trans hframe.next)
      fun _ hf => ⟨hf, ((hframe.but _).trans hf).frame le_rfl⟩
    have hpost := hafter.post (f := fun w' => (w'.set key (elektraCopyCallbackMeta (w'.cell key)
      (w'.cell w.heap.next))).del w.heap.next) (S := fun _ => Frame w.heap) (fun _ => rfl) fun w₁ hf hp => ?_
    · exact hpost ret w' h
    · obtain ⟨hkeep, hset⟩ := keeping_copyBack hp key w.heap.next
      exact ⟨hkeep, hf.trans hset⟩

include hrec in
theorem elektraLookupByCascading_course (hp : Proper w) (hs : w.ks.Settled) (hlt : key < w.heap.next)
    (hro : (w.cell key).roName = false) (hspec : o.spec = false) (hcreate : o.create = false) :
    Course o.pop (!o.nospec) Frame w (elektraLookupByCascading lookup w key o) := by
  rw [elektraLookupByCascading]
  dsimp only
  split_ifs with hnospec
  · have hdef := defaultCascading_course hrec hp hs hlt hro (Kept.refl _).keptName hspec hcreate
    exact hdef.mono (fun _ hf => Restores.frame hf) id fun h => absurd h Bool.false_ne_true
  · intro ret w' h
    rw [Bool.eq_false_of_not_eq_true hnospec]
    obtain ⟨⟨found, w₁⟩, hx, h⟩ := except_bind_ok h
    have hlook := @lookup_finalize_course lookup hrec w key { o with del := false, callback := true } hp hs hlt hro
      (str "spec" ++ (w.cell key).key.getD []) hspec hcreate
    have hdirect : consults (some (str "spec" ++ (w.cell key).key.getD [])) { o with del := false, callback := true } =
        false := consults_namespace .spec _ _
    rw [hdirect] at hlook
    obtain ⟨hf₁, hres₁⟩ := hlook found w₁ hx
    have hro₁ := (hf₁.name hlt).lock.trans hro
    cases found with
    | none =>
      have hdef := defaultCascading_course hrec hres₁.proper hres₁.settled (lt_of_lt_of_le hlt hf₁.next) hro₁
        (hf₁.name hlt) hspec hcreate
      have hafter := hdef.after (S := Restores key (w.cell key)) hres₁ (hres₁.proper.not_mem hro₁) hf₁.next
        fun _ hf => ⟨hf.but, hf₁.trans hf.but, hf.old⟩
      obtain ⟨hf₂, hres₂⟩ := hafter ret w' h
      exact ⟨hf₂.frame, hres₂.mono id fun _ => rfl⟩
    | some specKey =>
      have hframe := hf₁.restore hlt
      have hkeep : Keeping w₁ (w₁.set key (restoreName (w₁.cell key) (w.cell key))) :=
        hres₁.proper.keeping (frameBut_restore _ _ _) (hres₁.proper.not_mem hro₁)
      have hres₂ : Result o.pop false w (some specKey) (w₁.set key (restoreName (w₁.cell key) (w.cell key))) :=
        hres₁.after hkeep rfl
      obtain ⟨hf₂, hres₂⟩ := specFound_course hrec hres₂ hframe.next ret w' h
      exact ⟨hframe.trans hf₂, hres₂⟩

theorem withUnlocked_course {f : World → KeyRef → Except Stop (Option KeyRef × World)} {pop deep : Bool}
    {R : KeyRef → Heap → Heap → Prop} (hR : ∀ {k h h'}, Frame h h' → R k h h')
    (hbut : ∀ {k h h'}, R k h h' → FrameBut k h h')
    (hf : ∀ {w : World} {key : KeyRef}, Proper w → w.ks.Settled → key < w.heap.next →
      (w.cell key).roName = false → Course pop deep (R key) w (f w key))
    (hp : Proper w) (hs : w.ks.Settled) (hlt : key < w.heap.next) :
    Course pop deep (R key) w (withUnlocked f w key) := by
  rw [withUnlocked]
  split_ifs with hro
  · have hframe := frame_alloc w.heap (keyDup (w.cell key))
    have hkeep : Keeping w (w.alloc (keyDup (w.cell key))).2 := hp.keeping (hframe.but w.heap.next) hp.new_not_mem
    have hres : Result pop deep w none (w.alloc (keyDup (w.cell key))).2 := (Result.start hp hs).after hkeep rfl
    have hcell : (w.alloc (keyDup (w.cell key))).2.cell w.heap.next = keyDup (w.cell key) :=
      Function.update_self _ _ _
    have hdup := hf hres.proper hres.settled (Nat.lt_succ_self _) (hcell.symm ▸ rfl)
    have hafter := hdup.after (S := Frame) hres hp.new_not_mem hframe.next
      fun _ hf' => ⟨hbut hf', ((hframe.but _).trans (hbut hf')).frame le_rfl⟩
    refine hafter.post (f := fun w' => (w'.set key (elektraCopyCallbackMeta (w'.cell key)
      (w'.cell w.heap.next))).del w.heap.next) (fun _ => rfl) fun w₁ hf₁ hp₁ => ?_
    obtain ⟨hkeep₁, hset⟩ := keeping_copyBack hp₁ key w.heap.next
    exact ⟨hkeep₁, hR (hf₁.trans hset)⟩
  · exact hf hp hs hlt (Bool.eq_false_of_not_eq_true hro)

/-! ## Searching -/

theorem elektraLookupSearch_course {cb : Callback} (hcb : Transparent cb) (hp : Proper w) (hs : w.ks.Settled) :
    Course o.pop false Frame w (.ok (elektraLookupSearch cb w key o)) := by
  obtain ⟨hframe, hres⟩ := binarySearch_result hp hs key o
  unfold elektraLookupSearch
  generalize elektraLookupBinarySearch w key o = x at hframe hres ⊢
  obtain ⟨found, w₁⟩ := x
  dsimp only at hframe hres ⊢
  cases callbackPointer (w₁.cell key) with
  | none => exact .ok hframe hres
  | some v =>
    have hf := hcb.frame v w₁ key found o
    have hks := hcb.ks v w₁ key found o
    have hfound := hcb.found v w₁ key found o
    dsimp only
    generalize cb v w₁ key found o = y at hf hks hfound ⊢
    obtain ⟨ret, w₂⟩ := y
    dsimp only at hf hks hfound
    subst hfound
    have hkeep : Keeping w₁ w₂ := hres.proper.keeping (hf.but w₁.heap.next) hres.proper.new_not_mem
    exact .ok (hframe.trans hf) (hres.after hkeep hks)

end Functions

/-! ## ksLookup -/

section Lookup

variable {cb : Callback} {lookup : Lookup} {w : World} {key : KeyRef} {o : Options} {name : Str}

theorem lookupRet_course (hcb : Transparent cb) (hrec : Steers lookup) (hp : Proper w) (hs : w.ks.Settled)
    (hlt : key < w.heap.next) (hspec : o.spec = false) :
    Course o.pop (consults (some name) o) Frame w (lookupRet lookup cb w key name o) := by
  unfold lookupRet
  dsimp only
  rw [if_neg (by rw [hspec]; exact Bool.false_ne_true)]
  split_ifs with hcascading
  · have hdeep : consults (some name) o = !o.nospec := by
      obtain ⟨hno, hhead⟩ := Bool.and_eq_true_iff.mp hcascading
      rw [consults, hno, Option.bind_some, hhead, Bool.true_and, Bool.and_true]
    rw [hdeep]
    exact withUnlocked_course (R := fun _ => Frame) (fun hf => hf) (fun hf => hf.but _)
      (fun hp' hs' hlt' hro' => elektraLookupByCascading_course hrec
        (o := { o with del := false, create := false }) hp' hs' hlt' hro' hspec rfl) hp hs hlt
  · obtain ⟨hf, hres⟩ := linearSearch_result hp hs key { o with del := false, create := false } o.pop
    exact .ok hf (hres.mono id fun h => absurd h Bool.false_ne_true)
  · have hsearch := @elektraLookupSearch_course w key { o with del := false, create := false } cb hcb hp hs
    exact hsearch.mono (fun _ => id) id fun h => absurd h Bool.false_ne_true

theorem Course.del {pop deep : Bool} {R : Heap → Heap → Prop} {x : Except Stop (Option KeyRef × World)}
    (h : Course pop deep R w x) (key : KeyRef) (o : Options) (hR : ∀ {h' h''}, R w.heap h' → Frame h' h'' → R w.heap h'') :
    Course pop deep R w
      (do
        let (ret, w') ← x
        .ok (ret, if o.del then w'.del key else w')) := by
  refine h.post (f := fun w' => if o.del then w'.del key else w') (fun w' => ?_) fun w' hf hp' => ?_
  · split_ifs
    · rfl
    · rfl
  · have hframe : Frame w'.heap (if o.del then w'.del key else w').heap := by
      split_ifs
      · exact frame_del _ _
      · exact .refl _
    exact ⟨hp'.keeping (hframe.but w'.heap.next) hp'.new_not_mem, hR hf hframe⟩

/-- **A lookup leaves the cursor as a search does.** -/
theorem ksLookup_steers (hcb : Transparent cb) : ∀ n : ℕ, Steers (ksLookup cb n)
  | 0, _, _, _, _, _, _, _, _ => .error
  | n + 1, w, key, o, hp, hs, hlt, hspec, hcreate => by
    unfold ksLookup
    cases (w.cell key).key with
    | none => exact .ok (.refl _) (.start hp hs)
    | some name =>
      have hret : Course o.pop (consults (some name) o) Frame w (lookupRet (ksLookup cb n) cb w key name o) :=
        lookupRet_course hcb (ksLookup_steers hcb n) hp hs hlt hspec
      have hdel := hret.del key o fun hf hf' => hf.trans hf'
      intro ret w' h
      obtain ⟨⟨found, w₁⟩, hx, h⟩ := except_bind_ok h
      refine hdel ret w' ?_
      rw [hx]
      dsimp only at h
      rw [hcreate, if_neg fun hc => Bool.false_ne_true hc.2] at h
      exact h

/-- The lookup adds a key, or asks for keys of the specification. -/
def reaches (name : Option Str) (o : Options) : Bool := o.spec || o.create || consults name o

/-- **What a lookup leaves, for every option word.** -/
theorem ksLookup_course (hcb : Transparent cb) (n : ℕ) (hp : Proper w) (hs : w.ks.Settled) (hlt : key < w.heap.next) :
    Course o.pop (reaches (w.cell key).key o) (FrameBut key) w (ksLookup cb n w key o) := by
  cases n with
  | zero => exact .error
  | succ n =>
    unfold ksLookup
    cases hkey : (w.cell key).key with
    | none => exact .ok ((Frame.refl _).but key) (.start hp hs)
    | some name =>
      have hret : Course o.pop (reaches (some name) o) (FrameBut key) w
          (lookupRet (ksLookup cb n) cb w key name o) := by
        by_cases hspec : o.spec = true
        · unfold lookupRet
          dsimp only
          rw [if_pos hspec]
          have hsearch := withUnlocked_course (R := FrameBut) (fun hf => hf.but _) (fun hf => hf)
            (fun hp' hs' hlt' hro' => elektraLookupBySpec_course (ksLookup_steers hcb n)
              (o := { o with del := false, create := false }) hp' hs' hlt' hro') hp hs hlt
          exact hsearch.mono (fun _ => id) (fun h => absurd h Bool.false_ne_true)
            fun _ => by rw [reaches, hspec, Bool.true_or, Bool.true_or]
        · have hcourse : Course o.pop (consults (some name) o) Frame w
              (lookupRet (ksLookup cb n) cb w key name o) :=
            lookupRet_course hcb (ksLookup_steers hcb n) hp hs hlt (Bool.eq_false_of_not_eq_true hspec)
          exact (hcourse.but key).mono (fun _ => id) id fun h => by rw [reaches, h, Bool.or_true]
      have hcreated : Course o.pop (reaches (some name) o) (FrameBut key) w (do
          let (ret, w') ← lookupRet (ksLookup cb n) cb w key name o
          .ok (if ret = none ∧ o.create = true then elektraLookupCreateKey w' key else (ret, w'))) := by
        intro ret w' h
        obtain ⟨⟨found, w₁⟩, hx, h⟩ := except_bind_ok h
        obtain ⟨hf, hres⟩ := hret found w₁ hx
        dsimp only at h
        split_ifs at h with hcreate
        · obtain ⟨rfl, hcreate⟩ := hcreate
          have happ := appendKey_course hres.proper hres.settled (keyDup (w₁.cell key))
          have hafter := (happ.mono (fun _ => id) (fun h => absurd h Bool.false_ne_true)
            fun _ => by rw [reaches, hcreate, Bool.or_true, Bool.true_or]).after (S := FrameBut key) hres
              hres.proper.new_not_mem hf.next fun _ hf' => ⟨hf'.but _, hf.trans (hf'.but key)⟩
          exact hafter ret w' h
        · cases h
          exact ⟨hf, hres⟩
      have hdel := hcreated.del key o fun hf hf' => hf.trans (hf'.but key)
      intro ret w' h
      obtain ⟨⟨found, w₁⟩, hx, h⟩ := except_bind_ok h
      refine hdel ret w' ?_
      rw [hx]
      exact h

end Lookup

end Elektra
