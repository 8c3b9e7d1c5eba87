import Elektra.Lookup.Course

/-!
# Keys that come back

Lookups take keys out, and put in new ones. A key that is not in the key set does not come back, whatever is
looked up, with whatever options, and whatever the metadata of the keys is.

* `NoReturn`, `Forgets`: the keys after a lookup;
* **`ksLookup_forgets`**.
-/

namespace Elektra

/-- The keys of the key set were in it before, or are new. -/
structure NoReturn (w w' : World) : Prop where
  next : w.heap.next ≤ w'.heap.next
  known : ∀ k ∈ w'.ks.array, k ∈ w.ks.array ∨ w.heap.next ≤ k

/-- A lookup that ends brings no key back. -/
def Forgets (w : World) (x : Except Stop (Option KeyRef × World)) : Prop := ∀ ret w', x = .ok (ret, w') → NoReturn w w'

section Steps

variable {w w₁ w' : World} {x : Except Stop (Option KeyRef × World)}

theorem NoReturn.refl (w : World) : NoReturn w w := ⟨le_rfl, fun _ => .inl⟩

theorem NoReturn.trans (h : NoReturn w w₁) (h' : NoReturn w₁ w') : NoReturn w w' where
  next := h.next.trans h'.next
  known k hk := (h'.known k hk).elim (h.known k) fun hnew => .inr (h.next.trans hnew)

theorem NoReturn.of_array (hn : w.heap.next ≤ w'.heap.next) (ha : w'.ks.array = w.ks.array) : NoReturn w w' :=
  ⟨hn, fun _ hk => .inl (ha ▸ hk)⟩

theorem noReturn_set (w : World) (k : KeyRef) (key : Key) : NoReturn w (w.set k key) := .of_array le_rfl rfl

theorem noReturn_alloc (w : World) (key : Key) : NoReturn w (w.alloc key).2 := .of_array (Nat.le_succ _) rfl

theorem noReturn_del (w : World) (k : KeyRef) : NoReturn w (w.del k) := .of_array (frame_del _ _).next rfl

theorem mem_appendKey (h : Heap) (ks : KeySet) (k : KeyRef) :
    ∀ a ∈ (ksAppendKey h ks k).2.2.array, a ∈ ks.array ∨ a = k := by
  intro a ha
  unfold ksAppendKey at ha
  dsimp only at ha
  split_ifs at ha
  · exact .inl ha
  · exact .inl ha
  · rw [setCursor_array] at ha
    exact List.mem_or_eq_of_mem_set ha
  · rw [setCursor_array] at ha
    exact (SortedArray.mem_gap.mp ha).symm
  · rw [setCursor_array] at ha
    exact (SortedArray.mem_gap.mp ha).symm

theorem noReturn_add (w : World) (key : Key) : NoReturn w ((w.alloc key).2.appendKey (w.alloc key).1) where
  next := (noReturn_alloc w key).next.trans (next_appendKey _ w.ks _).ge
  known a ha := (mem_appendKey _ _ _ a ha).imp_right fun he => he.ge

theorem Forgets.ok (ret : Option KeyRef) (h : NoReturn w w') : Forgets w (.ok (ret, w')) := by
  intro ret₁ w₁ he
  cases he
  exact h

theorem Forgets.error {e : Stop} : Forgets w (.error e) := fun _ _ he => by cases he

theorem Forgets.after (h : NoReturn w w₁) (hx : Forgets w₁ x) : Forgets w x := fun ret w' he => h.trans (hx ret w' he)

theorem Forgets.bind {f : Option KeyRef × World → Except Stop (Option KeyRef × World)} (h : Forgets w x)
    (hf : ∀ ret w', Forgets w' (f (ret, w'))) : Forgets w (x >>= f) := by
  intro ret w' he
  obtain ⟨⟨ret₁, w₁⟩, hx, he⟩ := except_bind_ok he
  exact (h ret₁ w₁ hx).trans (hf ret₁ w₁ ret w' he)

end Steps

section Functions

variable {lookup : Lookup} (hrec : ∀ w key o, Forgets w (lookup w key o))

include hrec in
theorem cascadingLoop_forgets (key : KeyRef) (name : Str) (o : Options) : ∀ (l : List Namespace) (w : World),
    Forgets w (cascadingLoop lookup key name o l w)
  | [], w => .ok none (.refl w)
  | ns :: l, w => by
    rw [cascadingLoop]
    refine ((hrec _ _ _).after (noReturn_set _ _ _)).bind fun ret w' => ?_
    cases ret with
    | none => exact cascadingLoop_forgets key name o l w'
    | some k => exact .ok (some k) (.refl w')

include hrec in
theorem defaultCascading_forgets (w : World) (key : KeyRef) (old : Key) (o : Options) :
    Forgets w (defaultCascading lookup w key old o) := by
  refine (cascadingLoop_forgets hrec key _ o _ w).bind fun ret w' => ?_
  cases ret with
  | some k => exact .ok (some k) (noReturn_set _ _ _)
  | none =>
    dsimp only
    split_ifs
    · exact .ok none (noReturn_set _ _ _)
    · exact (hrec _ _ _).after (noReturn_set _ _ _)

include hrec in
theorem specNamespacesLoop_forgets (specKey : KeyRef) (name : Str) : ∀ (fuel i : ℕ) (w : World),
    Forgets w (specNamespacesLoop lookup specKey name fuel i w)
  | 0, _, w => .ok none (.refl w)
  | fuel + 1, i, w => by
    rw [specNamespacesLoop]
    cases keyGetMeta (w.cell specKey) (str "namespace/" ++ elektraWriteArrayNumber i) with
    | none => exact .ok none (.refl w)
    | some m =>
      dsimp only
      split_ifs
      · exact .error
      · refine ((hrec _ _ _).after (noReturn_set _ _ _)).bind fun ret w' => ?_
        cases ret with
        | none => exact specNamespacesLoop_forgets specKey name fuel (i + 1) w'
        | some k => exact .ok (some k) (.refl w')

include hrec in
theorem elektraLookupBySpecNamespaces_forgets (w : World) (specKey : KeyRef) :
    Forgets w (elektraLookupBySpecNamespaces lookup w specKey) := by
  unfold elektraLookupBySpecNamespaces
  dsimp only
  cases keyGetMeta (w.cell specKey) (str "namespace/#0") with
  | none => exact defaultCascading_forgets hrec w specKey _ _
  | some m =>
    exact (specNamespacesLoop_forgets hrec specKey _ _ 0 w).bind fun ret w' => .ok ret (noReturn_set _ _ _)

include hrec in
theorem specLinksLoop_forgets (specKey : KeyRef) (buffer : Str) : ∀ (fuel i : ℕ) (k : Option KeyRef) (w : World)
    {ret k' : Option KeyRef} {w' : World},
    specLinksLoop lookup specKey buffer fuel i k w = .ok (ret, k', w') → NoReturn w w'
  | 0, _, _, w, _, _, _, h => by
    cases h
    exact .refl w
  | fuel + 1, i, k, w, ret, k', w', h => by
    rw [specLinksLoop] at h
    cases hm : keyGetMeta (w.cell specKey) (buffer ++ elektraWriteArrayNumber i) with
    | none =>
      rw [hm] at h
      cases h
      exact .refl w
    | some m =>
      rw [hm] at h
      -- the rest of the round, with the key of the link
      have hround : ∀ (c : KeyRef) {w₁ : World}, NoReturn w w₁ →
          linkRound lookup specKey buffer fuel i c w₁ = .ok (ret, k', w') → NoReturn w w' := by
        intro c w₁ hw h
        obtain ⟨⟨found, w₂⟩, hx, h⟩ := except_bind_ok h
        have hlook := hw.trans (hrec w₁ c _ found w₂ hx)
        cases found with
        | some r =>
          cases h
          exact hlook
        | none => exact hlook.trans (specLinksLoop_forgets specKey buffer fuel (i + 1) (some c) w₂ h)
      cases k with
      | none => exact hround w.heap.next (noReturn_alloc w _) h
      | some k => exact hround k (noReturn_set w k _) h

include hrec in
theorem elektraLookupBySpecLinks_forgets (w : World) (specKey : KeyRef) (buffer : Str) :
    Forgets w (elektraLookupBySpecLinks lookup w specKey buffer) := by
  intro ret w' h
  obtain ⟨⟨found, k, w₁⟩, hx, h⟩ := except_bind_ok h
  have hloop := specLinksLoop_forgets hrec specKey buffer _ 0 none w hx
  cases k with
  | none =>
    cases h
    exact hloop
  | some k =>
    cases h
    exact hloop.trans ((noReturn_set w₁ specKey _).trans (noReturn_del _ k))

include hrec in
theorem elektraLookupBySpecDefault_forgets (w : World) (specKey : KeyRef) :
    Forgets w (elektraLookupBySpecDefault lookup w specKey) := by
  refine (hrec w specKey _).bind fun ret w' => ?_
  cases ret with
  | some k => exact .ok (some k) (.refl w')
  | none =>
    dsimp only
    cases keyGetMeta (w'.cell specKey) (str "default") with
    | none => exact .ok none (.refl w')
    | some m => exact .ok _ (noReturn_add w' _)

include hrec in
theorem specSearches_forgets (w : World) (specKey : KeyRef) (o : Options) :
    Forgets w (specSearches lookup w specKey o) := by
  refine (elektraLookupBySpecLinks_forgets hrec w specKey _).bind fun ret w₁ => ?_
  cases ret with
  | some k => exact .ok (some k) (.refl w₁)
  | none =>
    refine (elektraLookupBySpecNamespaces_forgets hrec w₁ specKey).bind fun ret w₂ => ?_
    cases ret with
    | some k => exact .ok (some k) (.refl w₂)
    | none =>
      refine (elektraLookupBySpecLinks_forgets hrec w₂ specKey _).bind fun ret w₃ => ?_
      cases ret with
      | some k => exact .ok (some k) (.refl w₃)
      | none =>
        dsimp only
        split_ifs
        · exact .ok none (.refl w₃)
        · exact elektraLookupBySpecDefault_forgets hrec w₃ specKey

include hrec in
theorem elektraLookupBySpec_forgets (w : World) (specKey : KeyRef) (o : Options) :
    Forgets w (elektraLookupBySpec lookup w specKey o) := by
  unfold elektraLookupBySpec
  dsimp only
  cases (keyName (w.cell specKey)).dropWhile (· ≠ pathSeparator) with
  | nil => exact .error
  | cons c l =>
    refine ((specSearches_forgets hrec _ specKey o).after (noReturn_set _ _ _)).bind fun ret w' => ?_
    exact .ok ret (noReturn_set _ _ _)

include hrec in
theorem specFound_forgets (w : World) (key specKey : KeyRef) (o : Options) :
    Forgets w (specFound lookup w key specKey o) := by
  rw [specFound]
  split_ifs
  · exact .ok _ (.refl w)
  · refine ((elektraLookupBySpec_forgets hrec _ _ o).after (noReturn_alloc w _)).bind fun ret w' => ?_
    exact .ok ret ((noReturn_set _ _ _).trans (noReturn_del _ _))

include hrec in
theorem elektraLookupByCascading_forgets (w : World) (key : KeyRef) (o : Options) :
    Forgets w (elektraLookupByCascading lookup w key o) := by
  rw [elektraLookupByCascading]
  dsimp only
  split_ifs
  · exact defaultCascading_forgets hrec w key _ o
  · refine ((hrec _ _ _).after (noReturn_set _ _ _)).bind fun ret w' => ?_
    cases ret with
    | none => exact defaultCascading_forgets hrec w' key _ o
    | some k => exact (specFound_forgets hrec _ key k o).after (noReturn_set _ _ _)

theorem withUnlocked_forgets {f : World → KeyRef → Except Stop (Option KeyRef × World)}
    (hf : ∀ w key, Forgets w (f w key)) (w : World) (key : KeyRef) : Forgets w (withUnlocked f w key) := by
  rw [withUnlocked]
  split_ifs
  · refine ((hf _ _).after (noReturn_alloc w _)).bind fun ret w' => ?_
    exact .ok ret ((noReturn_set _ _ _).trans (noReturn_del _ _))
  · exact hf w key

end Functions

/-! ## Searching -/

section Search

variable {cb : Callback}

theorem binarySearch_noReturn (w : World) (key : KeyRef) (o : Options) :
    NoReturn w (elektraLookupBinarySearch w key o).2 := by
  unfold elektraLookupBinarySearch
  dsimp only
  cases hb : bsearch w key (lookupCompare o) with
  | none => exact .of_array le_rfl (setCursor_array _ _)
  | some found =>
    dsimp only
    split_ifs
    · refine ⟨(frame_popAtCursor _ _ _).next, fun k hk => .inl ?_⟩
      have hlt : found < w.ks.array.length := (Bisect.halfOpen_found hb).1
      obtain ⟨-, -, harray⟩ := @popAtCursor_ks w.ks _ w.heap found (List.getElem?_eq_getElem hlt)
      have hk' : k ∈ (elektraKsPopAtCursor w.heap w.ks found).2.2.array := hk
      rw [harray] at hk'
      exact List.mem_of_mem_eraseIdx hk'
    · exact .of_array le_rfl (setCursor_array _ _)

theorem linearSearch_noReturn (w : World) (key : KeyRef) (o : Options) :
    NoReturn w (elektraLookupLinearSearch w key o).2 := by
  have hstart : (if o.noall then w.ks else ksRewind w.ks).array = w.ks.array := by
    split_ifs
    · rfl
    · rfl
  unfold elektraLookupLinearSearch
  dsimp only
  generalize (if o.noall then w.ks else ksRewind w.ks) = ks at hstart ⊢
  obtain ⟨⟨cursor, current, hks⟩, -⟩ := @linearLoop_ks w key (lookupCompare o) (ks.size + 1) ks
  generalize linearLoop w key (lookupCompare o) (ks.size + 1) ks = x at hks ⊢
  obtain ⟨r, ks'⟩ := x
  dsimp only at hks
  subst hks
  cases r with
  | none => exact .of_array le_rfl ((setCursor_array _ _).trans hstart)
  | some k => exact .of_array le_rfl hstart

theorem elektraLookupSearch_noReturn (hcb : Transparent cb) (w : World) (key : KeyRef) (o : Options) :
    NoReturn w (elektraLookupSearch cb w key o).2 := by
  have hsearch := binarySearch_noReturn w key o
  unfold elektraLookupSearch
  generalize elektraLookupBinarySearch w key o = x at hsearch ⊢
  obtain ⟨found, w₁⟩ := x
  dsimp only at hsearch ⊢
  cases callbackPointer (w₁.cell key) with
  | none => exact hsearch
  | some v =>
    exact hsearch.trans (.of_array (hcb.frame v w₁ key found o).next (congrArg KeySet.array (hcb.ks v w₁ key found o)))

theorem lookupRet_forgets {lookup : Lookup} (hrec : ∀ w key o, Forgets w (lookup w key o)) (hcb : Transparent cb)
    (w : World) (key : KeyRef) (name : Str) (o : Options) : Forgets w (lookupRet lookup cb w key name o) := by
  unfold lookupRet
  dsimp only
  split_ifs
  · exact withUnlocked_forgets (fun w k => elektraLookupBySpec_forgets hrec w k _) w key
  · exact withUnlocked_forgets (fun w k => elektraLookupByCascading_forgets hrec w k _) w key
  · exact .ok _ (linearSearch_noReturn w key _)
  · exact .ok _ (elektraLookupSearch_noReturn hcb w key _)

/-- **No lookup brings a key back.** -/
theorem ksLookup_forgets (hcb : Transparent cb) : ∀ (n : ℕ) (w : World) (key : KeyRef) (o : Options),
    Forgets w (ksLookup cb n w key o)
  | 0, _, _, _ => .error
  | n + 1, w, key, o => by
    unfold ksLookup
    cases (w.cell key).key with
    | none => exact .ok none (.refl w)
    | some name =>
      refine (lookupRet_forgets (ksLookup_forgets hcb n) hcb w key name o).bind fun ret w₁ => ?_
      have hcreate : NoReturn w₁
          (if ret = none ∧ o.create = true then elektraLookupCreateKey w₁ key else (ret, w₁)).2 := by
        split_ifs
        · exact noReturn_add w₁ _
        · exact .refl w₁
      have hdel : ∀ w₂ : World, NoReturn w₂ (if o.del then w₂.del key else w₂) := fun w₂ => by
        split_ifs
        · exact noReturn_del w₂ key
        · exact .refl w₂
      exact .ok _ (hcreate.trans (hdel _))

end Search

end Elektra
