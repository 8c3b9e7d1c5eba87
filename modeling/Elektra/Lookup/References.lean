import Elektra.KeySet.Counted
import Elektra.Lookup.Pop

/-!
# The references that lookups take and drop

Under all options, a lookup leaves key sets valid and counters right. It renames only keys whose name
is not locked, and these are in no key set.

* `Moves`, `MovesTo`: what each step of a lookup keeps;
* **`ksLookup_moves`**.
-/

namespace Elektra

/-- A key with a name has the size of the name. -/
def NameSized (key : Key) : Prop := key.key ≠ none → Sized key

/-- What the steps of a lookup keep. -/
structure Moves (leak : Bool) (w w' : World) : Prop where
  next : w.heap.next ≤ w'.heap.next
  locked : ∀ k < w.heap.next, (w.cell k).roName = true → Alike (w.cell k) (w'.cell k)
  unlocked : ∀ k < w.heap.next, (w.cell k).roName = false → (w'.cell k).roName = false
  nameSized : ∀ k < w.heap.next, NameSized (w.cell k) → NameSized (w'.cell k)
  holds : (∃ m, w.ks.Holds w.heap m) → ∃ m, w'.ks.Holds w'.heap m
  counts : (∃ m, w.ks.Holds w.heap m) → ∀ N, Counted w.heap (w.ks.refs N) →
    Counts leak w.heap w'.heap (w.ks.refs N) (w'.ks.refs N)

section Moves

variable {leak : Bool} {w w' w'' : World} {k : KeyRef} {key : Key}

theorem Moves.refl (w : World) : Moves leak w w :=
  ⟨le_rfl, fun _ _ _ => Alike.refl _, fun _ _ => id, fun _ _ => id, id, fun _ _ => Counts.refl⟩

theorem Moves.trans (h1 : Moves leak w w') (h2 : Moves leak w' w'') : Moves leak w w'' where
  next := h1.next.trans h2.next
  locked k hk hro := by
    have ha := h1.locked k hk hro
    exact ha.trans (h2.locked k (lt_of_lt_of_le hk h1.next) (ha.roName hro))
  unlocked k hk hro := h2.unlocked k (lt_of_lt_of_le hk h1.next) (h1.unlocked k hk hro)
  nameSized k hk hm := h2.nameSized k (lt_of_lt_of_le hk h1.next) (h1.nameSized k hk hm)
  holds := h2.holds ∘ h1.holds
  counts hw N hc := by
    have hcounts := h1.counts hw N hc
    exact hcounts.trans (h2.counts (h1.holds hw) N hcounts.counted)

theorem Alike.nameSized {key key' : Key} (ha : Alike key key') (hm : NameSized key) : NameSized key' := by
  intro hn
  rw [Sized, ha.keyUSize, ha.ukey]
  exact hm (ha.key ▸ hn)

theorem Moves.of_frame (hf : Frame w.heap w'.heap)
    (hh : ∀ m, w.ks.Holds w.heap m → ∃ m, w'.ks.Holds w'.heap m)
    (hc : (∃ m, w.ks.Holds w.heap m) → ∀ N, Counted w.heap (w.ks.refs N) →
      Counts leak w.heap w'.heap (w.ks.refs N) (w'.ks.refs N)) : Moves leak w w' where
  next := hf.next
  locked k hk _ := (hf.cell k hk).toAlike
  unlocked k hk hro := (hf.cell k hk).lock.trans hro
  nameSized k hk hm := (hf.cell k hk).toAlike.nameSized hm
  holds := fun ⟨m, hm⟩ => hh m hm
  counts := hc

theorem moves_set (hk : Kept (w.cell k) key) (hr : key.ksReference = (w.cell k).ksReference) :
    Moves leak w (w.set k key) :=
  Moves.of_frame (frame_set hk) (fun m hm => ⟨m, hm.keeps (keeps_set hk.toAlike)⟩)
    fun _ _ hc => hc.set hr

theorem moves_alloc (hr : key.ksReference = 0) : Moves leak w (w.alloc key).2 :=
  Moves.of_frame (frame_alloc _ _) (fun m hm => ⟨m, hm.keeps (keeps_alloc _ _)⟩)
    fun _ _ hc => hc.alloc hr

theorem moves_del (hk : k < w.heap.next) : Moves leak w (w.del k) :=
  Moves.of_frame (frame_del _ _) (fun m hm => ⟨m, hm.keeps (keeps_del _ _)⟩) fun _ _ hc => hc.del hk

theorem moves_cursor {ks : KeySet} (ha : ks.array = w.ks.array) (hl : ks.alloc = w.ks.alloc) :
    Moves leak w { w with ks := ks } := by
  refine Moves.of_frame (Frame.refl _) (fun m hm => ⟨m, ?_⟩) fun _ N hc => ?_
  · exact hm.of_array ha (hl ▸ hm.room) (hl ▸ hm.least)
  · have hrefs : ks.refs N = w.ks.refs N := refs_congr ha
    rw [hrefs]
    exact Counts.refl hc

theorem moves_rename (hro : (w.cell k).roName = false) (hro' : key.roName = false)
    (hm : NameSized key) (hr : key.ksReference = (w.cell k).ksReference) :
    Moves leak w (w.set k key) where
  next := le_rfl
  locked j _ hj := by
    have hne : j ≠ k := by
      rintro rfl
      rw [hro] at hj
      cases hj
    have hcell : (w.set k key).cell j = w.cell j := set_cell_ne hne
    rw [hcell]
    exact Alike.refl _
  unlocked j _ hj := by
    by_cases hjk : j = k
    · subst hjk
      exact (congrArg Key.roName (set_cell_self _ _ _)).trans hro'
    · exact (congrArg Key.roName (set_cell_ne hjk)).trans hj
  nameSized j _ hj := by
    by_cases hjk : j = k
    · subst hjk
      have hcell : (w.set j key).cell j = key := set_cell_self _ _ _
      rwa [hcell]
    · have hcell : (w.set k key).cell j = w.cell j := set_cell_ne hjk
      rwa [hcell]
  holds := by
    rintro ⟨m, hks⟩
    refine ⟨m, hks.of_cells le_rfl fun j hj => ?_⟩
    have hne : j ≠ k := by
      rintro rfl
      have hlock := hks.locked j hj
      rw [World.cell] at hro
      rw [hro] at hlock
      cases hlock
    rw [World.set, set_cell_ne hne]
    exact Alike.refl _
  counts _ N hc := hc.set hr

theorem nameSized_finalize (key : Key) (name : Str) : NameSized (elektraFinalizeName key name) :=
  fun _ => rfl

theorem nameSized_set (w : World) (k : KeyRef) (key : Key) (name : Str) :
    NameSized ((w.set k (elektraFinalizeName key name)).cell k) := by
  have hcell : (w.set k (elektraFinalizeName key name)).cell k = elektraFinalizeName key name :=
    set_cell_self _ _ _
  rw [hcell]
  exact nameSized_finalize key name

theorem moves_finalize (hro : (w.cell k).roName = false) (name : Str) :
    Moves leak w (w.set k (elektraFinalizeName (w.cell k) name)) :=
  moves_rename hro hro (nameSized_finalize _ _) rfl

theorem moves_restore (hro : (w.cell k).roName = false) {old : Key} (hm : NameSized old) :
    Moves leak w (w.set k (restoreName (w.cell k) old)) :=
  moves_rename hro hro hm rfl

theorem copyCallbackMeta_reference (dest source : Key) :
    (elektraCopyCallbackMeta dest source).ksReference = dest.ksReference := by
  unfold elektraCopyCallbackMeta
  split_ifs <;> rfl

theorem moves_copyCallbackMeta (source : Key) :
    Moves leak w (w.set k (elektraCopyCallbackMeta (w.cell k) source)) :=
  moves_set (kept_copyCallbackMeta _ _) (copyCallbackMeta_reference _ _)

theorem moves_add (hr : key.ksReference = 0) (hm : NameSized key) :
    Moves leak w ((w.alloc key).2.appendKey w.heap.next) := by
  have hcell : (w.heap.alloc key).2.cell w.heap.next = key := Function.update_self _ _ _
  have hlt : w.heap.next < (w.heap.alloc key).2.next := Nat.lt_succ_self _
  have hentry : ((w.heap.alloc key).2.cell w.heap.next).key ≠ none →
      Entry (w.heap.alloc key).2 w.heap.next := by
    intro hn
    refine ⟨hlt, hn, ?_⟩
    rw [hcell] at hn ⊢
    exact hm hn
  refine Moves.of_frame (frame_appendKey (frame_alloc _ _) le_rfl) (fun m hks => ?_) ?_
  · have hks := hks.keeps (keeps_alloc w.heap key)
    by_cases hn : ((w.heap.alloc key).2.cell w.heap.next).key = none
    · have happ : ksAppendKey (w.heap.alloc key).2 w.ks w.heap.next =
          (-1, keyDel (w.heap.alloc key).2 w.heap.next, w.ks) := by
        rw [ksAppendKey, if_pos hn]
      refine ⟨m, ?_⟩
      change (ksAppendKey (w.heap.alloc key).2 w.ks w.heap.next).2.2.Holds
        (ksAppendKey (w.heap.alloc key).2 w.ks w.heap.next).2.1 m
      rw [happ]
      exact hks.keeps (keeps_del _ _)
    · exact ⟨_, ksAppendKey_holds hks (hentry hn)⟩
  · rintro ⟨m, hks⟩ N hc
    have halloc : Counts leak _ _ _ _ := hc.alloc hr
    exact halloc.trans (ksAppendKey_counts (hks.keeps (keeps_alloc w.heap key)) hentry hlt
      (hc.fresh _ le_rfl) halloc.counted)

theorem moves_pop (pos : ℕ) :
    Moves true w ⟨(elektraKsPopAtCursor w.heap w.ks pos).2.1, (elektraKsPopAtCursor w.heap w.ks pos).2.2⟩ := by
  refine Moves.of_frame (frame_popAtCursor _ _ _) (fun m hks => ?_)
    fun _ N hc => elektraKsPopAtCursor_counts hc
  cases hk : w.ks.array[pos]? with
  | none =>
    have hpop : elektraKsPopAtCursor w.heap w.ks pos = (none, w.heap, w.ks) := by
      rw [elektraKsPopAtCursor, if_neg (by omega), Int.toNat_natCast, hk]
    rw [hpop]
    exact ⟨m, hks⟩
  | some k => exact ⟨_, (elektraKsPopAtCursor_holds hks hk).2.2⟩

end Moves

/-! ## New keys -/

theorem keySetMeta_reference (key : Key) (m : Str) (v : Option Str) :
    (keySetMeta key m v).2.ksReference = key.ksReference := by
  rw [keySetMeta]
  split_ifs
  · rfl
  · cases v <;> rfl

theorem keySetOwner_reference (key : Key) (o : Option Str) :
    (keySetOwner key o).ksReference = key.ksReference := by
  unfold keySetOwner
  split <;> exact keySetMeta_reference _ _ _

theorem keyAddName_reference (key : Key) (n : Option Str) :
    (keyAddName key n).2.ksReference = key.ksReference := by
  unfold keyAddName
  split_ifs
  · rfl
  · split
    · rfl
    · rfl
    · split
      · rfl
      · dsimp only
        split_ifs <;> rfl

theorem keySetNameBelow_reference (key : Key) (n : Str) :
    (elektraKeySetNameBelow key n).2.ksReference = key.ksReference := by
  have hadd := keyAddName_reference { key with key := some (n.take (key.keySize - 1)) }
    (some (n.drop key.keyUSize))
  unfold elektraKeySetNameBelow
  dsimp only
  split_ifs
  · rfl
  · rfl
  · exact hadd
  · exact hadd

theorem handleUserName_reference (key : Key) (n : Str) :
    (elektraHandleUserName key n).ksReference = key.ksReference := by
  simp only [elektraHandleUserName]
  split
  · rfl
  · split_ifs
    · rfl
    · exact keySetOwner_reference _ _

theorem keySetName_reference (key : Key) (n : Option Str) (metaName : Bool) :
    (elektraKeySetName key n metaName).2.ksReference = key.ksReference := by
  have howner : (if metaName then elektraRemoveKeyName key
      else keySetOwner (elektraRemoveKeyName key) none).ksReference = key.ksReference := by
    split_ifs
    · rfl
    · exact keySetOwner_reference _ _
  unfold elektraKeySetName
  by_cases hro : key.roName = true
  · rw [if_pos hro]
  rw [if_neg hro]
  dsimp only
  generalize (if metaName then elektraRemoveKeyName key
    else keySetOwner (elektraRemoveKeyName key) none) = base at howner ⊢
  have below : ∀ key' : Key, key'.ksReference = base.ksReference →
      (elektraKeySetNameBelow key' (n.getD [])).2.ksReference = key.ksReference := fun key' h =>
    (keySetNameBelow_reference key' _).trans (h.trans howner)
  cases keyGetNameNamespace n with
  | empty => exact howner
  | user => exact below _ (handleUserName_reference _ _)
  | metaName =>
    dsimp only
    split_ifs
    · exact howner
    · exact below _ rfl
  | cascading | spec | proc | dir | system => exact below _ rfl

theorem keySetBinary_reference (key : Key) (v : Option Str) :
    (keySetBinary key v).ksReference = key.ksReference := by
  unfold keySetBinary
  split_ifs
  · rfl
  · exact keySetMeta_reference _ _ _

theorem keyNewCascading_reference (name : Str) (v : Option Str) :
    (keyNewCascading name v).ksReference = 0 := keySetName_reference _ _ _

/-! ## The searches -/

/-- All results of a search. -/
def MovesTo (leak : Bool) (w : World) (x : Except Stop (Option KeyRef × World)) : Prop :=
  ∀ r w', x = .ok (r, w') → Moves leak w w'

section MovesTo

variable {leak : Bool} {w w1 : World} {x : Except Stop (Option KeyRef × World)}
  {f : Option KeyRef × World → Except Stop (Option KeyRef × World)}

theorem Moves.to {r : Option KeyRef} (h : Moves leak w w1) : MovesTo leak w (.ok (r, w1)) := by
  rintro _ _ ⟨⟩
  exact h

theorem movesTo_error (e : Stop) : MovesTo leak w (.error e) := fun _ _ h => by cases h

theorem Moves.then (h : Moves leak w w1) (hx : MovesTo leak w1 x) : MovesTo leak w x :=
  fun r w' he => h.trans (hx r w' he)

theorem MovesTo.bind (hx : MovesTo leak w x)
    (hf : ∀ r w1, Moves leak w w1 → MovesTo leak w (f (r, w1))) : MovesTo leak w (x >>= f) := by
  cases x with
  | error e => exact movesTo_error e
  | ok y => exact hf y.1 y.2 (hx y.1 y.2 rfl)

theorem MovesTo.post {g : World → World} (hx : MovesTo leak w x)
    (hg : ∀ w1, Moves leak w w1 → Moves leak w1 (g w1)) :
    MovesTo leak w (do
      let (r, w1) ← x
      .ok (r, g w1)) :=
  hx.bind fun _ w1 h => (h.trans (hg w1 h)).to

theorem MovesTo.orElse (hx : MovesTo leak w x) (hsome : ∀ k w1, f (some k, w1) = .ok (some k, w1))
    (hnone : ∀ w1, Moves leak w w1 → MovesTo leak w1 (f (none, w1))) : MovesTo leak w (x >>= f) := by
  refine hx.bind fun r w1 h => ?_
  cases r with
  | none => exact h.then (hnone w1 h)
  | some k =>
    rw [hsome]
    exact h.to

end MovesTo

/-- A key that may be renamed. -/
structure Renamable (w : World) (k : KeyRef) : Prop where
  lt : k < w.heap.next
  ro : (w.cell k).roName = false

theorem Renamable.moves {leak : Bool} {w w' : World} {k : KeyRef} (hk : Renamable w k)
    (h : Moves leak w w') : Renamable w' k :=
  ⟨lt_of_lt_of_le hk.lt h.next, h.unlocked k hk.lt hk.ro⟩

section Searches

variable {lookup : Lookup} {leak : Bool}

/-- What the searches are told of `ksLookup`. -/
def Tame (leak : Bool) (lookup : Lookup) : Prop :=
  ∀ w key o, key < w.heap.next → NameSized (w.cell key) → (o.pop = true → leak = true) →
    MovesTo leak w (lookup w key o)

theorem renamable_alloc (w : World) {key : Key} (hro : key.roName = false) :
    Renamable (w.alloc key).2 w.heap.next :=
  ⟨Nat.lt_succ_self _, (congrArg Key.roName (Function.update_self _ _ _)).trans hro⟩

theorem nameSized_alloc (w : World) {key : Key} (hm : NameSized key) :
    NameSized ((w.alloc key).2.cell w.heap.next) := by
  have hcell : (w.alloc key).2.cell w.heap.next = key := Function.update_self _ _ _
  rwa [hcell]

theorem link_key (m : Str) (v : Option Str) (source : Key) :
    let key := elektraCopyCallbackMeta (keySetBinary (keyNewCascading m none) v) source
    key.ksReference = 0 ∧ key.roName = false ∧ NameSized key := by
  have hkept := kept_copyCallbackMeta (keySetBinary (keyNewCascading m none) v) source
  have hnew := keyNewCascading_fields m none
  refine ⟨?_, ?_, hkept.toAlike.nameSized fun _ => ?_⟩
  · exact (copyCallbackMeta_reference _ _).trans
      ((keySetBinary_reference _ _).trans (keyNewCascading_reference _ _))
  · exact hkept.lock.trans ((keySetBinary_roName _ _).trans hnew.2)
  · have hsized := hnew.1
    generalize keyNewCascading m none = key at hsized
    unfold keySetBinary keySetMeta
    split_ifs <;> exact hsized

theorem moves_linkName {w : World} {k : KeyRef} (hk : Renamable w k) (m : Str) :
    Moves leak w (w.set k (elektraKeySetName (w.cell k) (some m) false).2) ∧
      NameSized (elektraKeySetName (w.cell k) (some m) false).2 := by
  obtain ⟨hf, hro⟩ := linkName_finalized m hk.ro
  have hm : NameSized (elektraKeySetName (w.cell k) (some m) false).2 := fun _ => hf.sized
  exact ⟨moves_rename hk.ro hro hm (keySetName_reference _ _ _), hm⟩

theorem specLinksLoop_moves (hl : Tame leak lookup) {specKey : KeyRef} {buffer : Str} :
    ∀ (fuel i : ℕ) {k : Option KeyRef} {w : World}, (∀ c, k = some c → Renamable w c) →
      ∀ r k' w', specLinksLoop lookup specKey buffer fuel i k w = .ok (r, k', w') →
        Moves leak w w' ∧ ∀ c, k' = some c → Renamable w' c
  | 0, i, k, w, hk, r, k', w', h => by
    cases h
    exact ⟨Moves.refl w, hk⟩
  | fuel + 1, i, k, w, hk, r, k', w', h => by
    -- the lookup of the link, once its key carries the name
    have hround : ∀ (c : KeyRef) (w1 : World), Moves leak w w1 → Renamable w1 c → NameSized (w1.cell c) →
        linkRound lookup specKey buffer fuel i c w1 = .ok (r, k', w') →
          Moves leak w w' ∧ ∀ c, k' = some c → Renamable w' c := by
      intro c w1 hm1 hc hmeas h
      have hlook := hl w1 c { nodefault := true } hc.lt hmeas nofun
      unfold linkRound at h
      generalize lookup w1 c { nodefault := true } = x at hlook h
      rcases x with e | ⟨ret, w2⟩
      · cases h
      have hm2 := hlook ret w2 rfl
      have hc2 : ∀ c', some c = some c' → Renamable w2 c' := by
        rintro c' ⟨⟩
        exact hc.moves hm2
      cases ret with
      | none =>
        obtain ⟨hm3, hc3⟩ := specLinksLoop_moves hl fuel (i + 1) hc2 r k' w' h
        exact ⟨hm1.trans (hm2.trans hm3), hc3⟩
      | some ret =>
        cases h
        exact ⟨hm1.trans hm2, hc2⟩
    rw [specLinksLoop] at h
    cases hmeta : keyGetMeta (w.cell specKey) (buffer ++ elektraWriteArrayNumber i) with
    | none =>
      rw [hmeta] at h
      cases h
      exact ⟨Moves.refl w, hk⟩
    | some m =>
      rw [hmeta] at h
      cases k with
      | none =>
        obtain ⟨hr, hro, hm⟩ := link_key m (valueBytes (w.cell specKey)) (w.cell specKey)
        exact hround _ _ (moves_alloc hr) (renamable_alloc w hro) (nameSized_alloc w hm) h
      | some c =>
        obtain ⟨hm, hmeas⟩ : Moves leak _ _ ∧ _ := moves_linkName (hk c rfl) m
        refine hround _ _ hm ((hk c rfl).moves hm) ?_ h
        have hcell : (w.set c (elektraKeySetName (w.cell c) (some m) false).2).cell c = _ :=
          set_cell_self _ _ _
        rwa [hcell]

theorem elektraLookupBySpecLinks_moves (hl : Tame leak lookup) (w : World) (specKey : KeyRef)
    (buffer : Str) : MovesTo leak w (elektraLookupBySpecLinks lookup w specKey buffer) := by
  have hloop := @specLinksLoop_moves lookup leak hl specKey buffer
    ((w.cell specKey).metaKeys.length + 1) 0 none w nofun
  unfold elektraLookupBySpecLinks
  generalize specLinksLoop lookup specKey buffer _ 0 none w = x at hloop ⊢
  rcases x with e | ⟨r, k, w1⟩
  · exact movesTo_error e
  obtain ⟨hm, hk⟩ := hloop r k w1 rfl
  cases k with
  | none => exact hm.to
  | some k =>
    have hcopy : Moves leak w1 (w1.set specKey
        (elektraCopyCallbackMeta (w1.cell specKey) (w1.cell k))) := moves_copyCallbackMeta _
    exact (hm.trans (hcopy.trans (moves_del (hk k rfl).lt))).to

theorem nameSized_cascading (name : Str) (v : Option Str) : NameSized (keyNewCascading name v) :=
  fun _ => (keyNewCascading_fields name v).1

theorem elektraLookupBySpecDefault_moves (hl : Tame leak lookup) {w : World} {specKey : KeyRef}
    (hlt : specKey < w.heap.next) (hm : NameSized (w.cell specKey)) :
    MovesTo leak w (elektraLookupBySpecDefault lookup w specKey) := by
  unfold elektraLookupBySpecDefault
  refine (hl w specKey { nocascading := true } hlt hm nofun).orElse (fun _ _ => rfl) fun w1 _ => ?_
  dsimp only
  cases keyGetMeta (w1.cell specKey) (str "default") with
  | none => exact (Moves.refl w1).to
  | some m => exact (moves_add (keyNewCascading_reference _ _) (nameSized_cascading _ _)).to

theorem cascadingLoop_moves (hl : Tame leak lookup) {key : KeyRef} {name : Str} {o : Options}
    (ho : o.pop = true → leak = true) : ∀ (l : List Namespace) {w : World}, Renamable w key →
      MovesTo leak w (cascadingLoop lookup key name o l w)
  | [], w, _ => (Moves.refl w).to
  | ns :: rest, w, hk => by
    have hset : Moves leak w (w.set key (elektraFinalizeName (w.cell key) (ns.name ++ name))) :=
      moves_finalize hk.ro _
    have hk1 := hk.moves hset
    have hmeas := nameSized_set w key (w.cell key) (ns.name ++ name)
    rw [cascadingLoop]
    refine hset.then ((hl _ key { o with del := false } hk1.lt hmeas ho).orElse (fun _ _ => rfl)
      fun w1 hm1 => ?_)
    exact cascadingLoop_moves hl ho rest (hk1.moves hm1)

theorem defaultCascading_moves (hl : Tame leak lookup) {w : World} {key : KeyRef} {old : Key}
    {o : Options} (ho : o.pop = true → leak = true) (hk : Renamable w key) (hold : NameSized old) :
    MovesTo leak w (defaultCascading lookup w key old o) := by
  unfold defaultCascading
  refine (cascadingLoop_moves hl ho _ hk).bind fun r w1 hm1 => ?_
  have hk1 := hk.moves hm1
  have hset : Moves leak w1 (w1.set key (restoreName (w1.cell key) old)) := moves_restore hk1.ro hold
  have hmeas : NameSized ((w1.set key (restoreName (w1.cell key) old)).cell key) := by
    have hcell : (w1.set key (restoreName (w1.cell key) old)).cell key = _ := set_cell_self _ _ _
    rw [hcell]
    exact hold
  refine hm1.then (hset.then ?_)
  cases r with
  | some k => exact (Moves.refl _).to
  | none =>
    dsimp only
    split_ifs
    · exact (Moves.refl _).to
    · exact hl _ key _ (hk1.moves hset).lt hmeas ho

theorem specNamespacesLoop_moves (hl : Tame leak lookup) {specKey : KeyRef} {name : Str} :
    ∀ (fuel i : ℕ) {w : World}, Renamable w specKey →
      MovesTo leak w (specNamespacesLoop lookup specKey name fuel i w)
  | 0, _, w, _ => (Moves.refl w).to
  | fuel + 1, i, w, hk => by
    rw [specNamespacesLoop]
    cases keyGetMeta (w.cell specKey) (str "namespace/" ++ elektraWriteArrayNumber i) with
    | none => exact (Moves.refl w).to
    | some m =>
      dsimp only
      split_ifs
      · exact movesTo_error _
      have hset : Moves leak w (w.set specKey (elektraFinalizeName (w.cell specKey) (m ++ name))) :=
        moves_finalize hk.ro _
      have hk1 := hk.moves hset
      have hmeas := nameSized_set w specKey (w.cell specKey) (m ++ name)
      have hpop : ({} : Options).pop = true → leak = true := by intro h; cases h
      refine hset.then ((hl _ specKey {} hk1.lt hmeas hpop).orElse (fun _ _ => rfl) fun w1 hm1 => ?_)
      exact specNamespacesLoop_moves hl fuel (i + 1) (hk1.moves hm1)

theorem elektraLookupBySpecNamespaces_moves (hl : Tame leak lookup) {w : World} {specKey : KeyRef}
    (hk : Renamable w specKey) (hm : NameSized (w.cell specKey)) :
    MovesTo leak w (elektraLookupBySpecNamespaces lookup w specKey) := by
  unfold elektraLookupBySpecNamespaces
  dsimp only
  cases keyGetMeta (w.cell specKey) (str "namespace/#0") with
  | none => exact defaultCascading_moves hl nofun hk hm
  | some _ =>
    exact (specNamespacesLoop_moves hl _ 0 hk).post
      (g := fun w1 => w1.set specKey (restoreName (w1.cell specKey) (w.cell specKey)))
      fun w1 hm1 => moves_restore (hk.moves hm1).ro hm

theorem specSearches_moves (hl : Tame leak lookup) {w : World} {specKey : KeyRef} {o : Options}
    (hk : Renamable w specKey) (hm : NameSized (w.cell specKey)) :
    MovesTo leak w (specSearches lookup w specKey o) := by
  unfold specSearches
  refine (elektraLookupBySpecLinks_moves hl w specKey _).orElse (fun _ _ => rfl) fun w1 hm1 => ?_
  have hk1 := hk.moves hm1
  have hmeas1 := hm1.nameSized specKey hk.lt hm
  refine (elektraLookupBySpecNamespaces_moves hl hk1 hmeas1).orElse (fun _ _ => rfl) fun w2 hm2 => ?_
  have hk2 := hk1.moves hm2
  have hmeas2 := hm2.nameSized specKey hk1.lt hmeas1
  refine (elektraLookupBySpecLinks_moves hl w2 specKey _).orElse (fun _ _ => rfl) fun w3 hm3 => ?_
  dsimp only
  split_ifs
  · exact (Moves.refl w3).to
  · exact elektraLookupBySpecDefault_moves hl (hk2.moves hm3).lt (hm3.nameSized specKey hk2.lt hmeas2)

theorem elektraLookupBySpec_moves (hl : Tame leak lookup) {w : World} {specKey : KeyRef} {o : Options}
    (hk : Renamable w specKey) : MovesTo leak w (elektraLookupBySpec lookup w specKey o) := by
  unfold elektraLookupBySpec
  dsimp only
  split
  · exact movesTo_error _
  · next c s _ =>
    have hset : Moves leak w (w.set specKey (elektraFinalizeName (w.cell specKey) (c :: s))) :=
      moves_finalize hk.ro _
    have hk1 := hk.moves hset
    have hmeas := nameSized_set w specKey (w.cell specKey) (c :: s)
    refine hset.then ((specSearches_moves hl hk1 hmeas).post (g := fun w1 =>
      w1.set specKey (elektraFinalizeName (w1.cell specKey) (keyName (w.cell specKey)))) ?_)
    exact fun w1 hm1 => moves_finalize (hk1.moves hm1).ro _

theorem Moves.leaks {w w' : World} (h : Moves false w w') : Moves leak w w' :=
  ⟨h.next, h.locked, h.unlocked, h.nameSized, h.holds, fun hw N hc => (h.counts hw N hc).leaks⟩

theorem specFound_moves (hl : Tame leak lookup) {w : World} (key specKey : KeyRef) (o : Options) :
    MovesTo leak w (specFound lookup w key specKey o) := by
  unfold specFound
  split_ifs
  · exact (Moves.refl w).to
  dsimp only
  generalize hdup : elektraCopyCallbackMeta
    (keySetBinary (keyDup (w.cell specKey)) (valueBytes (w.cell key))) (w.cell key) = dup
  have hr : dup.ksReference = 0 := by
    rw [← hdup, copyCallbackMeta_reference, keySetBinary_reference]
    rfl
  have hro : dup.roName = false := by
    rw [← hdup, (kept_copyCallbackMeta _ _).lock, keySetBinary_roName]
    rfl
  have halloc : Moves leak w (w.alloc dup).2 := moves_alloc hr
  have hk := renamable_alloc w hro
  refine halloc.then ((elektraLookupBySpec_moves hl hk).post (g := fun w1 => (w1.set key
    (elektraCopyCallbackMeta (w1.cell key) (w1.cell w.heap.next))).del w.heap.next) fun w1 hm1 => ?_)
  have hcopy : Moves leak w1 (w1.set key (elektraCopyCallbackMeta (w1.cell key)
    (w1.cell w.heap.next))) := moves_copyCallbackMeta _
  exact hcopy.trans (moves_del (hk.moves hm1).lt)

theorem elektraLookupByCascading_moves (hl : Tame leak lookup) {w : World} {key : KeyRef} {o : Options}
    (ho : o.pop = true → leak = true) (hk : Renamable w key) (hm : NameSized (w.cell key)) :
    MovesTo leak w (elektraLookupByCascading lookup w key o) := by
  unfold elektraLookupByCascading
  dsimp only
  split_ifs
  · exact defaultCascading_moves hl ho hk hm
  generalize str "spec" ++ (w.cell key).key.getD [] = name
  have hset : Moves leak w (w.set key (elektraFinalizeName (w.cell key) name)) :=
    moves_finalize hk.ro _
  have hk1 := hk.moves hset
  have hmeas := nameSized_set w key (w.cell key) name
  refine hset.then ((hl _ key { o with del := false, callback := true } hk1.lt hmeas ho).bind
    fun r w1 hm1 => ?_)
  have hk2 := hk1.moves hm1
  refine hm1.then ?_
  cases r with
  | none => exact defaultCascading_moves hl ho hk2 hm
  | some specKey =>
    have hrest : Moves leak w1 (w1.set key (restoreName (w1.cell key) (w.cell key))) :=
      moves_restore hk2.ro hm
    exact hrest.then (specFound_moves hl key specKey o)

theorem withUnlocked_moves {f : World → KeyRef → Except Stop (Option KeyRef × World)}
    (hf : ∀ w key, Renamable w key → NameSized (w.cell key) → MovesTo leak w (f w key)) {w : World}
    {key : KeyRef} (hlt : key < w.heap.next) (hm : NameSized (w.cell key)) :
    MovesTo leak w (withUnlocked f w key) := by
  unfold withUnlocked
  split_ifs with hro
  · have hdup : NameSized (keyDup (w.cell key)) := hm
    have halloc : Moves leak w (w.alloc (keyDup (w.cell key))).2 := moves_alloc rfl
    have hk : Renamable (w.alloc (keyDup (w.cell key))).2 w.heap.next := renamable_alloc w rfl
    refine halloc.then ((hf _ _ hk (nameSized_alloc w hdup)).post (g := fun w1 => (w1.set key
      (elektraCopyCallbackMeta (w1.cell key) (w1.cell w.heap.next))).del w.heap.next)
      fun w1 hm1 => ?_)
    have hcopy : Moves leak w1 (w1.set key (elektraCopyCallbackMeta (w1.cell key)
      (w1.cell w.heap.next))) := moves_copyCallbackMeta _
    exact hcopy.trans (moves_del (hk.moves hm1).lt)
  · exact hf w key ⟨hlt, Bool.eq_false_of_not_eq_true hro⟩ hm

/-! ## ksLookup -/

/-- A callback that takes no references of its own, and leaves key sets as a lookup does. -/
def Balanced (cb : Callback) : Prop :=
  ∀ v w key found o, Moves false w (cb v w key found o).2

theorem balanced_noCallback : Balanced noCallback := fun _ w _ _ _ => Moves.refl w

theorem elektraLookupSearch_moves {cb : Callback} (hcb : Balanced cb) {w : World} {key : KeyRef}
    {o : Options} (ho : o.pop = true → leak = true) :
    Moves leak w (elektraLookupSearch cb w key o).2 := by
  have hsearch : Moves leak w (elektraLookupBinarySearch w key o).2 := by
    unfold elektraLookupBinarySearch
    dsimp only
    cases bsearch w key (lookupCompare o) with
    | none => exact moves_cursor (setCursor_array _ _) (setCursor_alloc _ _)
    | some found =>
      dsimp only
      split_ifs with hpop
      · obtain rfl := ho hpop
        exact moves_pop _
      · exact moves_cursor (setCursor_array _ _) (setCursor_alloc _ _)
  unfold elektraLookupSearch
  dsimp only
  split
  · exact hsearch
  · exact hsearch.trans (hcb _ _ _ _ _).leaks

theorem linearLoop_array (w : World) (key : KeyRef) (cmp : Key → Key → Ordering) :
    ∀ (fuel : ℕ) (ks : KeySet), (linearLoop w key cmp fuel ks).2.array = ks.array ∧
      (linearLoop w key cmp fuel ks).2.alloc = ks.alloc
  | 0, _ => ⟨rfl, rfl⟩
  | fuel + 1, ks => by
    have hnext : (ksNext ks).2.array = ks.array ∧ (ksNext ks).2.alloc = ks.alloc := by
      unfold ksNext
      dsimp only
      split_ifs <;> exact ⟨rfl, rfl⟩
    rw [linearLoop]
    generalize ksNext ks = x at hnext ⊢
    obtain ⟨r, ks'⟩ := x
    cases r with
    | none => exact hnext
    | some current =>
      dsimp only at hnext ⊢
      split_ifs
      · exact hnext
      · have ih := linearLoop_array w key cmp fuel ks'
        exact ⟨ih.1.trans hnext.1, ih.2.trans hnext.2⟩

theorem elektraLookupLinearSearch_moves (w : World) (key : KeyRef) (o : Options) :
    Moves leak w (elektraLookupLinearSearch w key o).2 := by
  unfold elektraLookupLinearSearch
  dsimp only
  generalize hks : (if o.noall then w.ks else ksRewind w.ks) = ks
  have hsame : ks.array = w.ks.array ∧ ks.alloc = w.ks.alloc := by
    rw [← hks]
    split_ifs <;> exact ⟨rfl, rfl⟩
  have hloop := linearLoop_array w key (lookupCompare o) (ks.size + 1) ks
  generalize linearLoop w key (lookupCompare o) (ks.size + 1) ks = x at hloop ⊢
  obtain ⟨r, ks'⟩ := x
  dsimp only at hloop
  cases r with
  | none =>
    exact moves_cursor ((setCursor_array _ _).trans (hloop.1.trans hsame.1))
      ((setCursor_alloc _ _).trans (hloop.2.trans hsame.2))
  | some current => exact moves_cursor (hloop.1.trans hsame.1) (hloop.2.trans hsame.2)

theorem lookupRet_moves {cb : Callback} (hl : Tame leak lookup) (hcb : Balanced cb) {w : World}
    {key : KeyRef} {name : Str} {o : Options} (ho : o.pop = true → leak = true)
    (hlt : key < w.heap.next) (hm : NameSized (w.cell key)) :
    MovesTo leak w (lookupRet lookup cb w key name o) := by
  unfold lookupRet
  dsimp only
  generalize hmasked : { o with del := false, create := false } = masked
  have ho : masked.pop = true → leak = true := by rw [← hmasked]; exact ho
  split_ifs
  · exact withUnlocked_moves (fun _ _ hk _ => elektraLookupBySpec_moves hl hk) hlt hm
  · exact withUnlocked_moves (fun _ _ hk hm => elektraLookupByCascading_moves hl ho hk hm) hlt hm
  · exact (elektraLookupLinearSearch_moves w key masked).to
  · have hsearch : Moves leak w (elektraLookupSearch cb w key masked).2 :=
      elektraLookupSearch_moves hcb ho
    exact hsearch.to

/-- **A lookup leaves key sets valid and counters right, whatever its options are.** Only with
`KDB_O_POP` it may leave a key alive that no key set refers to any more. -/
theorem ksLookup_moves {cb : Callback} (hcb : Balanced cb) : ∀ fuel : ℕ, Tame leak (ksLookup cb fuel)
  | 0, w, key, o, _, _, _ => movesTo_error _
  | fuel + 1, w, key, o, hlt, hm, ho => by
    rw [ksLookup]
    dsimp only
    cases (w.cell key).key with
    | none => exact (Moves.refl w).to
    | some name =>
      refine (lookupRet_moves (ksLookup_moves hcb fuel) hcb ho hlt hm).bind fun r w1 hm1 => ?_
      have hlt1 := lt_of_lt_of_le hlt hm1.next
      have hmeas1 := hm1.nameSized key hlt hm
      have hcreate : Moves leak w1
          (if r = none ∧ o.create then elektraLookupCreateKey w1 key else (r, w1)).2 := by
        split_ifs
        · exact moves_add rfl hmeas1
        · exact Moves.refl w1
      refine hm1.then ?_
      dsimp only
      generalize (if r = none ∧ o.create then elektraLookupCreateKey w1 key else (r, w1)) = x at hcreate ⊢
      split_ifs
      · exact (hcreate.trans (moves_del (lt_of_lt_of_le hlt1 hcreate.next))).to
      · exact hcreate.to

end Searches

end Elektra
