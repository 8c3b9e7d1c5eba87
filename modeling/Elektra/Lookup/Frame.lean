import Elektra.Lookup.Search

/-!
# What lookups leave as it is

A lookup leaves the keys of the key set, and the name of its search key, as they are: it only moves
the cursor, writes metadata below `callback`, and may add a default key. While it searches, its key
carries other names.

* `Frame`, `FrameBut`: all keys are kept, or all but one that is renamed;
* `Delivers`: what a lookup returns for an answer;
* **`Refines`**: outcomes of lookups and of queries;
* `Ready`: the states in which a key set has a given content;
* `Refines.trans`, `Refines.orElse`, `Refines.post`: one search after another.
-/

namespace Elektra

open Choice

/-! ## Keys that are kept -/

/-- Alike, and locked just as before. -/
structure Kept (source dest : Key) : Prop extends Alike source dest where
  lock : dest.roName = source.roName

theorem Kept.refl (key : Key) : Kept key key := ⟨Alike.refl key, rfl⟩

theorem Kept.trans {a b c : Key} (h : Kept a b) (h' : Kept b c) : Kept a c :=
  ⟨h.toAlike.trans h'.toAlike, h'.lock.trans h.lock⟩

/-- `dest` is kept, but for its name. -/
def KeptName (source dest : Key) : Prop := Kept source (restoreName dest source)

theorem KeptName.trans {a b c : Key} (h : KeptName a b) (h' : KeptName b c) : KeptName a c where
  data := h'.data.trans h.data
  key := rfl
  ukey := rfl
  keySize := rfl
  keyUSize := rfl
  roName := h'.roName ∘ h.roName
  getMeta m hm := (h'.getMeta m hm).trans (h.getMeta m hm)
  lock := h'.lock.trans h.lock

theorem Kept.keptName {a b : Key} (h : Kept a b) : KeptName a b where
  data := h.data
  key := rfl
  ukey := rfl
  keySize := rfl
  keyUSize := rfl
  roName := h.roName
  getMeta := h.getMeta
  lock := h.lock

theorem keptName_finalize (key : Key) (name : Str) : KeptName key (elektraFinalizeName key name) :=
  ⟨⟨rfl, rfl, rfl, rfl, rfl, id, fun _ _ => rfl⟩, rfl⟩

/-- All keys of `h` are kept in `h'`. -/
structure Frame (h h' : Heap) : Prop where
  next : h.next ≤ h'.next
  cell : ∀ k < h.next, Kept (h.cell k) (h'.cell k)

theorem Frame.refl (h : Heap) : Frame h h := ⟨le_rfl, fun _ _ => Kept.refl _⟩

theorem Frame.trans {h h' h'' : Heap} (h1 : Frame h h') (h2 : Frame h' h'') : Frame h h'' :=
  ⟨h1.next.trans h2.next,
    fun k hk => (h1.cell k hk).trans (h2.cell k (lt_of_lt_of_le hk h1.next))⟩

theorem Frame.keeps {h h' : Heap} (hh : Frame h h') : Keeps h h' :=
  ⟨hh.next, fun k hk => (hh.cell k hk).toAlike⟩

/-- All keys of `h` but `c`, which is renamed, are kept in `h'`. -/
structure FrameBut (c : KeyRef) (h h' : Heap) : Prop where
  next : h.next ≤ h'.next
  cell : ∀ k < h.next, k ≠ c → Kept (h.cell k) (h'.cell k)
  name : c < h.next → KeptName (h.cell c) (h'.cell c)

theorem Frame.but {h h' : Heap} (hh : Frame h h') (c : KeyRef) : FrameBut c h h' :=
  ⟨hh.next, fun k hk _ => hh.cell k hk, fun hc => (hh.cell c hc).keptName⟩

theorem FrameBut.trans {c : KeyRef} {h h' h'' : Heap} (h1 : FrameBut c h h')
    (h2 : FrameBut c h' h'') : FrameBut c h h'' where
  next := h1.next.trans h2.next
  cell k hk hc := (h1.cell k hk hc).trans (h2.cell k (lt_of_lt_of_le hk h1.next) hc)
  name hc := (h1.name hc).trans (h2.name (lt_of_lt_of_le hc h1.next))

theorem FrameBut.frame {c : KeyRef} {h h' : Heap} (hh : FrameBut c h h') (hc : h.next ≤ c) :
    Frame h h' :=
  ⟨hh.next, fun k hk => hh.cell k hk (lt_of_lt_of_le hk hc).ne⟩

theorem frameBut_set {c : KeyRef} {h : Heap} {key : Key} (hk : KeptName (h.cell c) key) :
    FrameBut c h (h.set c key) where
  next := le_rfl
  cell k _ hne := by
    rw [set_cell_ne hne]
    exact Kept.refl _
  name _ := by
    rw [set_cell_self]
    exact hk

theorem FrameBut.restore {c : KeyRef} {h h' : Heap} (hh : FrameBut c h h') (hc : c < h.next) :
    Frame h (h'.set c (restoreName (h'.cell c) (h.cell c))) := by
  refine ⟨hh.next, fun k hk => ?_⟩
  by_cases hkc : k = c
  · subst hkc
    rw [set_cell_self]
    exact hh.name hc
  · rw [set_cell_ne hkc]
    exact hh.cell k hk hkc

theorem frame_alloc (h : Heap) (key : Key) : Frame h (h.alloc key).2 := by
  refine ⟨Nat.le_succ _, fun i hi => ?_⟩
  simpa [Heap.alloc, hi.ne] using Kept.refl _

theorem frame_del (h : Heap) (k : KeyRef) : Frame h (keyDel h k) := by
  rw [keyDel]
  split_ifs
  · exact Frame.refl h
  · exact ⟨le_rfl, fun _ _ => Kept.refl _⟩

/-! ## Metadata below callback -/

theorem lookup_filter {p : Str → Bool} {m : Str} (hm : p m = true) (l : List (Str × Str)) :
    (l.filter fun x => p x.1).lookup m = l.lookup m := by
  induction l with
  | nil => rfl
  | cons x l ih =>
    rw [List.filter_cons]
    split_ifs with hx
    · rw [List.lookup_cons, List.lookup_cons, ih]
    · have hne : (m == x.1) = false := beq_eq_false_iff_ne.mpr fun he => hx (he ▸ hm)
      rw [List.lookup_cons, hne]
      exact ih

theorem lookup_append_of_not_mem {m : Str} {l : List (Str × Str)} (l' : List (Str × Str))
    (hl : ∀ x ∈ l, x.1 ≠ m) : (l ++ l').lookup m = l'.lookup m := by
  induction l with
  | nil => rfl
  | cons x l ih =>
    have hx : (m == x.1) = false := beq_eq_false_iff_ne.mpr (hl x List.mem_cons_self).symm
    rw [List.cons_append, List.lookup_cons, hx]
    exact ih fun y hy => hl y (List.mem_cons_of_mem x hy)

theorem copyCallbackMeta_getMeta {dest source : Key} {m : Str} (hm : isCallbackMeta m = false) :
    keyGetMeta (elektraCopyCallbackMeta dest source) m = keyGetMeta dest m := by
  have hcopied : ∀ x ∈ source.metaKeys.filter fun m => isCallbackMeta m.1, x.1 ≠ m := by
    rintro x hx rfl
    rw [(List.mem_filter.mp hx).2] at hm
    cases hm
  have hrest : (!isCallbackMeta m) = true := by rw [hm]; rfl
  unfold elektraCopyCallbackMeta
  split_ifs
  · rfl
  · exact (lookup_append_of_not_mem _ hcopied).trans
      (@lookup_filter (fun n => !isCallbackMeta n) m hrest dest.metaKeys)

theorem kept_copyCallbackMeta (dest source : Key) :
    Kept dest (elektraCopyCallbackMeta dest source) := by
  have hfields : ∀ {α : Type} (f : Key → α), (∀ (k : Key) l s, f { k with metaKeys := l, sync := s } = f k) →
      f (elektraCopyCallbackMeta dest source) = f dest := by
    intro α f hf
    unfold elektraCopyCallbackMeta
    split_ifs
    · rfl
    · exact hf dest _ _
  refine ⟨⟨hfields (·.data) fun _ _ _ => rfl, hfields (·.key) fun _ _ _ => rfl,
    hfields (·.ukey) fun _ _ _ => rfl, hfields (·.keySize) fun _ _ _ => rfl,
    hfields (·.keyUSize) fun _ _ _ => rfl, fun h => ?_, fun m hm => copyCallbackMeta_getMeta hm⟩,
    hfields (·.roName) fun _ _ _ => rfl⟩
  rw [hfields (·.roName) fun _ _ _ => rfl]
  exact h

theorem frame_set {c : KeyRef} {h : Heap} {key : Key} (hk : Kept (h.cell c) key) :
    Frame h (h.set c key) := by
  refine ⟨le_rfl, fun k _ => ?_⟩
  by_cases hkc : k = c
  · subst hkc
    rw [set_cell_self]
    exact hk
  · rw [set_cell_ne hkc]
    exact Kept.refl _

/-! ## Outcomes -/

theorem except_bind_ok {ε α β : Type} {x : Except ε α} {f : α → Except ε β} {b : β}
    (h : (x >>= f) = .ok b) : ∃ a, x = .ok a ∧ f a = .ok b := by
  cases x with
  | error e => cases h
  | ok a => exact ⟨a, rfl, h⟩

/-- The key set is as it was, but for its cursor. -/
structure Same (w w' : World) : Prop where
  array : w'.ks.array = w.ks.array
  alloc : w'.ks.alloc = w.ks.alloc

theorem Same.refl (w : World) : Same w w := ⟨rfl, rfl⟩

theorem Same.trans {w w' w'' : World} (h : Same w w') (h' : Same w' w'') : Same w w'' :=
  ⟨h'.array.trans h.array, h'.alloc.trans h.alloc⟩

/-- The new key `r` is the default of this name; it has been added, unless it has no name. -/
structure Added (w w' : World) (r : KeyRef) (name value : Str) : Prop where
  new : w.heap.next ≤ r
  lt : r < w'.heap.next
  cell : Alike (keyNewCascading name (some value)) (w'.cell r)
  added : ((keyNewCascading name (some value)).key = none ∧ Same w w') ∨
    ∃ m, w.ks.Holds w.heap m ∧
      w'.ks.Holds w'.heap (Function.update m (w'.heap.ident r) (some r))

/-- What a lookup returns and leaves for an answer. -/
def Delivers (w w' : World) (ret : Option KeyRef) : Option Answer → Prop
  | none => ret = none ∧ Same w w'
  | some (.found k) => ret = some k ∧ Same w w'
  | some (.default name value) => ∃ r, ret = some r ∧ Added w w' r name value

/-- A lookup from `w` and a query end alike. -/
def Refines (R : Heap → Heap → Prop) (w : World) :
    Except Stop (Option KeyRef × World) → Except Stop (Option Answer) → Prop
  | .ok (ret, w'), .ok a => R w.heap w'.heap ∧ Delivers w w' ret a
  | .error e, .error e' => e = e'
  | _, _ => False

section Refines

variable {R R' : Heap → Heap → Prop} {w w₁ : World} {r : Except Stop (Option KeyRef × World)}
  {e : Except Stop (Option Answer)}

theorem Refines.cases (h : Refines R w r e) :
    (∃ s, r = .error s ∧ e = .error s) ∨
    (∃ w', r = .ok (none, w') ∧ e = .ok none ∧ R w.heap w'.heap ∧ Same w w') ∨
    ∃ k w' a, r = .ok (some k, w') ∧ e = .ok (some a) ∧ R w.heap w'.heap ∧
      Delivers w w' (some k) (some a) := by
  rcases r with s | ⟨ret, w'⟩ <;> rcases e with s' | _ | a
  · exact Or.inl ⟨s, rfl, by rw [show s = s' from h]⟩
  · exact h.elim
  · exact h.elim
  · exact h.elim
  · obtain ⟨hR, rfl, hsame⟩ := h
    exact Or.inr (Or.inl ⟨w', rfl, rfl, hR, hsame⟩)
  · obtain ⟨hR, hd⟩ := h
    cases a with
    | found k =>
      obtain ⟨rfl, hsame⟩ := hd
      exact Or.inr (Or.inr ⟨k, w', _, rfl, rfl, hR, rfl, hsame⟩)
    | default name value =>
      obtain ⟨k, rfl, hadd⟩ := hd
      exact Or.inr (Or.inr ⟨k, w', _, rfl, rfl, hR, k, rfl, hadd⟩)

theorem Refines.mono (h : Refines R w r e) (hR : ∀ h', R w.heap h' → R' w.heap h') :
    Refines R' w r e := by
  rcases r with s | ⟨ret, w'⟩ <;> rcases e with s' | a
  · exact h
  · exact h
  · exact h
  · exact ⟨hR _ h.1, h.2⟩

end Refines

/-! ## Key sets whose keys are kept -/

section Kept

variable {w w' w₁ : World} {m : Ident → Option KeyRef} {c r : KeyRef} {name value : Str}
  {ret : Option KeyRef} {a : Option Answer}

theorem FrameBut.kept {h h' : Heap} {ks : KeySet} (hf : FrameBut c h h') (hks : ks.Holds h m)
    (hc : c ∉ ks.array) {k : KeyRef} (hk : k ∈ ks.array) : Kept (h.cell k) (h'.cell k) :=
  hf.cell k (hks.entry k hk).lt fun he => hc (he ▸ hk)

theorem Same.holds (hs : Same w w') (hks : w.ks.Holds w.heap m) (hf : FrameBut c w.heap w'.heap)
    (hc : c ∉ w.ks.array) : w'.ks.Holds w'.heap m := by
  have hcells := hks.of_cells hf.next fun k hk => (hf.kept hks hc hk).toAlike
  exact hcells.of_array hs.array (hs.alloc ▸ hks.room) (hs.alloc ▸ hks.least)

theorem Added.trans (hadd : Added w₁ w' r name value) (hks : w.ks.Holds w.heap m)
    (hf : FrameBut c w.heap w₁.heap) (hc : c ∉ w.ks.array) (hs : Same w w₁) :
    Added w w' r name value where
  new := hf.next.trans hadd.new
  lt := hadd.lt
  cell := hadd.cell
  added := by
    obtain ⟨hname, hs'⟩ | ⟨m', hm', hnew⟩ := hadd.added
    · exact Or.inl ⟨hname, hs.trans hs'⟩
    · obtain rfl : m' = m := hm'.map.trans (hs.holds hks hf hc).map.symm
      exact Or.inr ⟨m', hks, hnew⟩

theorem Delivers.trans (hd : Delivers w₁ w' ret a) (hks : w.ks.Holds w.heap m)
    (hf : FrameBut c w.heap w₁.heap) (hc : c ∉ w.ks.array) (hs : Same w w₁) :
    Delivers w w' ret a := by
  match a, hd with
  | none, ⟨hret, hs'⟩ => exact ⟨hret, hs.trans hs'⟩
  | some (.found _), ⟨hret, hs'⟩ => exact ⟨hret, hs.trans hs'⟩
  | some (.default _ _), ⟨r, hret, hadd⟩ => exact ⟨r, hret, hadd.trans hks hf hc hs⟩

theorem mem_added {ks ks' : KeySet} {h h' : Heap} (hks : ks.Holds h m) {id : Ident}
    (hnew : ks'.Holds h' (Function.update m id (some r))) {k : KeyRef} (hk : k ∈ ks'.array) :
    k = r ∨ k ∈ ks.array := by
  have hmem := hnew.of_mem hk
  by_cases hid : h'.ident k = id
  · rw [hid, Function.update_self] at hmem
    exact Or.inl (Option.some.inj hmem).symm
  · rw [Function.update_of_ne hid] at hmem
    exact Or.inr (hks.mem.mp hmem).1

/-- The keys that matter after a lookup from `w` are kept: those of the key set, and new ones. -/
structure Leaves (w : World) (h h' : Heap) : Prop where
  next : h.next ≤ h'.next
  cell : ∀ k < h.next, k ∈ w.ks.array ∨ w.heap.next ≤ k → Alike (h.cell k) (h'.cell k)

theorem Frame.leaves {h h' : Heap} (hf : Frame h h') : Leaves w h h' :=
  ⟨hf.next, fun k hk _ => (hf.cell k hk).toAlike⟩

theorem FrameBut.leaves {h h' : Heap} (hf : FrameBut c h h') (hc : c ∉ w.ks.array)
    (hlt : c < w.heap.next) : Leaves w h h' := by
  refine ⟨hf.next, fun k hk hor => (hf.cell k hk ?_).toAlike⟩
  rintro rfl
  exact hor.elim hc (not_le.mpr hlt)

theorem Delivers.post {w'' : World} (hd : Delivers w w' ret a) (hl : Leaves w w'.heap w''.heap)
    (hks : w''.ks = w'.ks) : Delivers w w'' ret a := by
  have hsame : Same w w' → Same w w'' := fun hs => ⟨hks ▸ hs.array, hks ▸ hs.alloc⟩
  match a, hd with
  | none, ⟨hret, hs⟩ => exact ⟨hret, hsame hs⟩
  | some (.found _), ⟨hret, hs⟩ => exact ⟨hret, hsame hs⟩
  | some (.default _ _), ⟨r, hret, hadd⟩ =>
    have hr : Alike (w'.heap.cell r) (w''.heap.cell r) := hl.cell r hadd.lt (Or.inr hadd.new)
    refine ⟨r, hret, hadd.new, lt_of_lt_of_le hadd.lt hl.next, hadd.cell.trans hr, ?_⟩
    refine hadd.added.imp (fun ⟨hname, hs⟩ => ⟨hname, hsame hs⟩) ?_
    rintro ⟨m', hm', hnew⟩
    refine ⟨m', hm', ?_⟩
    rw [hks, show w''.heap.ident r = w'.heap.ident r from hr.ident]
    refine hnew.of_cells hl.next fun k hk => hl.cell k (hnew.entry k hk).lt ?_
    obtain rfl | hk := mem_added hm' hnew hk
    · exact Or.inr hadd.new
    · exact Or.inl hk

/-- The key set of `w` is valid, and this is what lookups see of it. -/
structure Ready (ct : Content) (w : World) : Prop where
  holds : ∃ m, w.ks.Holds w.heap m
  content : content w.heap w.ks = ct

variable {ct : Content}

theorem Ready.frame (hr : Ready ct w) (hf : FrameBut c w.heap w'.heap) (hc : c ∉ w.ks.array)
    (hs : Same w w') : Ready ct w' := by
  obtain ⟨m, hm⟩ := hr.holds
  exact ⟨⟨m, hs.holds hm hf hc⟩,
    (content_congr hs.array fun k hk => (hf.kept hm hc hk).toAlike).trans hr.content⟩

theorem Ready.not_mem (hr : Ready ct w) {key : KeyRef} (hro : (w.cell key).roName = false) :
    key ∉ w.ks.array := by
  obtain ⟨m, hm⟩ := hr.holds
  intro hk
  have hlock := hm.locked key hk
  rw [World.cell] at hro
  rw [hro] at hlock
  cases hlock

theorem Ready.new_not_mem (hr : Ready ct w) : w.heap.next ∉ w.ks.array := by
  obtain ⟨m, hm⟩ := hr.holds
  exact fun hk => (hm.entry _ hk).lt.false

theorem Refines.frame {x : Except Stop (Option KeyRef × World)} {e : Except Stop (Option Answer)}
    (h : Refines (FrameBut c) w x e) (hc : w.heap.next ≤ c) : Refines Frame w x e :=
  h.mono fun _ hf => hf.frame hc

theorem Refines.but {x : Except Stop (Option KeyRef × World)} {e : Except Stop (Option Answer)}
    (h : Refines Frame w x e) (c : KeyRef) : Refines (FrameBut c) w x e :=
  h.mono fun _ hf => hf.but c

theorem Refines.after {R R' : Heap → Heap → Prop} {x : Except Stop (Option KeyRef × World)}
    {e : Except Stop (Option Answer)} (h : Refines R w₁ x e) (hr : Ready ct w)
    (hf : FrameBut c w.heap w₁.heap) (hc : c ∉ w.ks.array) (hs : Same w w₁)
    (hR : ∀ h', R w₁.heap h' → R' w.heap h') : Refines R' w x e := by
  obtain ⟨m, hm⟩ := hr.holds
  rcases x with s | ⟨ret, w'⟩ <;> rcases e with s' | a
  · exact h
  · exact h
  · exact h
  · exact ⟨hR _ h.1, h.2.trans hm hf hc hs⟩

theorem Refines.trans {x : Except Stop (Option KeyRef × World)} {e : Except Stop (Option Answer)}
    (h : Refines (FrameBut c) w₁ x e) (hr : Ready ct w) (hf : FrameBut c w.heap w₁.heap)
    (hc : c ∉ w.ks.array) (hs : Same w w₁) : Refines (FrameBut c) w x e :=
  h.after hr hf hc hs fun _ => hf.trans

theorem Refines.trans_frame {x : Except Stop (Option KeyRef × World)}
    {e : Except Stop (Option Answer)} (h : Refines Frame w₁ x e) (hr : Ready ct w)
    (hf : Frame w.heap w₁.heap) (hs : Same w w₁) : Refines Frame w x e :=
  h.after hr (hf.but w.heap.next) hr.new_not_mem hs fun _ => hf.trans

theorem Refines.orElse {R : Heap → Heap → Prop} {x : Except Stop (Option KeyRef × World)}
    {e e' : Except Stop (Option Answer)}
    {f : Option KeyRef × World → Except Stop (Option KeyRef × World)} (h : Refines R w x e)
    (hsome : ∀ k w', f (some k, w') = .ok (some k, w'))
    (hnone : ∀ w', R w.heap w'.heap → Same w w' → Refines R w (f (none, w')) e') :
    Refines R w (x >>= f) (Choice.orElse e e') := by
  obtain ⟨s, rfl, rfl⟩ | ⟨w', rfl, rfl, hR, hs⟩ | ⟨k, w', a, rfl, rfl, hR, hd⟩ := h.cases
  · rfl
  · exact hnone w' hR hs
  · change Refines R w (f (some k, w')) _
    rw [hsome]
    exact ⟨hR, hd⟩

theorem Refines.post {R S : Heap → Heap → Prop} {x : Except Stop (Option KeyRef × World)}
    {e : Except Stop (Option Answer)} {f : World → World} (h : Refines R w x e)
    (hks : ∀ w', (f w').ks = w'.ks)
    (hf : ∀ w', R w.heap w'.heap → Leaves w w'.heap (f w').heap ∧ S w.heap (f w').heap) :
    Refines S w
      (do
        let (ret, w') ← x
        .ok (ret, f w')) e := by
  rcases x with s | ⟨ret, w'⟩ <;> rcases e with s' | a
  · exact h
  · exact h
  · exact h
  · obtain ⟨hR, hd⟩ := h
    obtain ⟨hl, hS⟩ := hf w' hR
    exact ⟨hS, hd.post hl (hks w')⟩

end Kept

end Elektra
