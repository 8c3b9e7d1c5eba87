import Elektra.Lookup.Resolution

/-!
# The content of a key set

What a lookup reads in a key set: the search by name, and the metadata of a key of the
specification, in the order of its array numbers.

* `IsLinks`, `linkValues`: the metakeys of an array;
* `findByName`, `describe`, **`content`**;
* `content_congr`: it does not depend on the cursor and on metadata below `callback`.
-/

namespace Elektra

/-! ## Arrays in metadata -/

theorem toDigits_injective : Function.Injective (Nat.toDigits 10) := fun m n h => by
  have hm := @Nat.ofDigitChars_toDigits 10 m (by decide) (by decide)
  rw [h, Nat.ofDigitChars_toDigits (by decide) (by decide)] at hm
  exact hm.symm

theorem digits_bytes (n : ℕ) :
    ((Nat.toDigits 10 n).map fun c => UInt8.ofNat c.toNat).map (fun b => Char.ofNat b.toNat) =
      Nat.toDigits 10 n := by
  rw [List.map_map]
  conv_rhs => rw [← List.map_id (Nat.toDigits 10 n)]
  refine List.map_congr_left fun c hc => ?_
  have hd := Char.isDigit_iff_toNat.mp (Nat.isDigit_of_mem_toDigits (by decide) (by decide) hc)
  have hlt : c.toNat < 256 := lt_of_le_of_lt hd.2 (by decide)
  simp [Nat.mod_eq_of_lt hlt]

theorem elektraWriteArrayNumber_injective : Function.Injective elektraWriteArrayNumber := by
  intro m n h
  apply toDigits_injective
  have hm := digits_bytes m
  have hn := digits_bytes n
  have hmpos := @Nat.length_toDigits_pos 10 m
  have hnpos := @Nat.length_toDigits_pos 10 n
  simp only [elektraWriteArrayNumber, List.length_map] at h
  have hlen := congrArg List.length h
  simp only [List.length_append, List.length_replicate, List.length_map] at hlen
  have hdigits := (List.append_inj' h (by simp; omega)).2
  rw [← hm, ← hn, hdigits]

/-- `l` are the values of the metakeys `buffer#i`, `buffer#(i + 1)`, ... up to the first that is
missing. -/
def IsLinks (key : Key) (buffer : Str) : ℕ → List Str → Prop
  | i, [] => keyGetMeta key (buffer ++ elektraWriteArrayNumber i) = none
  | i, m :: l =>
    keyGetMeta key (buffer ++ elektraWriteArrayNumber i) = some m ∧ IsLinks key buffer (i + 1) l

def linkLoop (key : Key) (buffer : Str) : ℕ → ℕ → List Str
  | 0, _ => []
  | fuel + 1, i =>
    match keyGetMeta key (buffer ++ elektraWriteArrayNumber i) with
    | none => []
    | some m => m :: linkLoop key buffer fuel (i + 1)

/-- The values of an array in the metadata. -/
def linkValues (key : Key) (buffer : Str) : List Str :=
  linkLoop key buffer (key.metaKeys.length + 1) 0

theorem IsLinks.unique {key : Key} {buffer : Str} : ∀ {i : ℕ} {l l' : List Str},
    IsLinks key buffer i l → IsLinks key buffer i l' → l = l'
  | _, [], [], _, _ => rfl
  | _, [], _ :: _, h, h' => by cases h.symm.trans h'.1
  | _, _ :: _, [], h, h' => by cases h'.symm.trans h.1
  | _, m :: l, m' :: l', h, h' => by
    obtain rfl : m = m' := Option.some.inj (h.1.symm.trans h'.1)
    rw [IsLinks.unique h.2 h'.2]

theorem IsLinks.congr {key key' : Key} {buffer : Str}
    (h : ∀ i, keyGetMeta key' (buffer ++ elektraWriteArrayNumber i) =
      keyGetMeta key (buffer ++ elektraWriteArrayNumber i)) : ∀ {i : ℕ} {l : List Str},
    IsLinks key buffer i l → IsLinks key' buffer i l
  | i, [], hl => (h i).trans hl
  | i, _ :: _, hl => ⟨(h i).trans hl.1, IsLinks.congr h hl.2⟩

/-- The values that are read are there. -/
def HasLinks (key : Key) (buffer : Str) (i : ℕ) (l : List Str) : Prop :=
  ∀ j < l.length, (keyGetMeta key (buffer ++ elektraWriteArrayNumber (i + j))).isSome

theorem HasLinks.length_le {key : Key} {buffer : Str} {i : ℕ} {l : List Str}
    (h : HasLinks key buffer i l) : l.length ≤ key.metaKeys.length := by
  have hnodup : ((List.range l.length).map fun j =>
      buffer ++ elektraWriteArrayNumber (i + j)).Nodup := by
    refine List.Nodup.map (fun j j' he => ?_) List.nodup_range
    have := elektraWriteArrayNumber_injective (List.append_cancel_left he)
    omega
  have hsub : ((List.range l.length).map fun j => buffer ++ elektraWriteArrayNumber (i + j)) ⊆
      key.metaKeys.map Prod.fst := by
    intro name hname
    obtain ⟨j, hj, rfl⟩ := List.mem_map.mp hname
    have hsome := h j (List.mem_range.mp hj)
    rw [keyGetMeta, List.lookup_isSome_iff] at hsome
    obtain ⟨p, hp, he⟩ := hsome
    exact List.mem_map.mpr ⟨p, hp, (beq_iff_eq.mp he).symm⟩
  simpa using (hnodup.subperm hsub).length_le

theorem IsLinks.hasLinks {key : Key} {buffer : Str} : ∀ {i : ℕ} {l : List Str},
    IsLinks key buffer i l → HasLinks key buffer i l
  | _, [], _ => nofun
  | i, m :: l, h => by
    intro j hj
    cases j with
    | zero => simp [h.1]
    | succ j =>
      have := h.2.hasLinks j (by simpa using hj)
      rwa [Nat.add_assoc, Nat.add_comm 1 j] at this

theorem linkLoop_spec {key : Key} {buffer : Str} : ∀ (fuel i : ℕ),
    IsLinks key buffer i (linkLoop key buffer fuel i) ∨
      ((linkLoop key buffer fuel i).length = fuel ∧
        HasLinks key buffer i (linkLoop key buffer fuel i))
  | 0, _ => Or.inr ⟨rfl, nofun⟩
  | fuel + 1, i => by
    rw [linkLoop]
    cases hm : keyGetMeta key (buffer ++ elektraWriteArrayNumber i) with
    | none => exact Or.inl hm
    | some m =>
      obtain h | ⟨hlen, h⟩ := @linkLoop_spec key buffer fuel (i + 1)
      · exact Or.inl ⟨hm, h⟩
      · refine Or.inr ⟨by simp [hlen], fun j hj => ?_⟩
        cases j with
        | zero => simp [hm]
        | succ j =>
          have := h j (by simpa using hj)
          rwa [Nat.add_assoc, Nat.add_comm 1 j] at this

theorem isLinks_linkValues (key : Key) (buffer : Str) :
    IsLinks key buffer 0 (linkValues key buffer) := by
  refine (linkLoop_spec (key.metaKeys.length + 1) 0).resolve_right ?_
  rintro ⟨hlen, h⟩
  have := h.length_le
  omega

theorem linkValues_eq {key key' : Key} {buffer : Str}
    (h : ∀ i, keyGetMeta key' (buffer ++ elektraWriteArrayNumber i) =
      keyGetMeta key (buffer ++ elektraWriteArrayNumber i)) :
    linkValues key' buffer = linkValues key buffer :=
  (isLinks_linkValues key' buffer).unique ((isLinks_linkValues key buffer).congr h)

/-! ## The key of a name -/

theorem Alike.finalized {key key' : Key} {name : Option Str} (h : Alike key key')
    (hk : Finalized key name) : Finalized key' name where
  key := h.key.trans hk.key
  ukey n hn := h.ukey.trans (hk.ukey n hn)
  sized := by
    rw [h.keyUSize, h.ukey]
    exact hk.sized

/-- The search by unescaped name. -/
def findByName (h : Heap) (ks : KeySet) (uname : Str) : Option KeyRef :=
  (Bisect.halfOpen (fun i => (ks.array[i]?).elim .lt fun k => compare uname (h.cell k).ukey)
    ks.size).bind (ks.array[·]?)

theorem findByName_congr {h h' : Heap} {ks ks' : KeySet} (ha : ks'.array = ks.array)
    (hh : ∀ k ∈ ks.array, (h'.cell k).ukey = (h.cell k).ukey) (uname : Str) :
    findByName h' ks' uname = findByName h ks uname := by
  have hord : (fun i : ℕ => (ks.array[i]?).elim Ordering.lt fun k => compare uname (h'.cell k).ukey) =
      fun i : ℕ => (ks.array[i]?).elim .lt fun k => compare uname (h.cell k).ukey := by
    funext i
    cases hi : ks.array[i]? with
    | none => rfl
    | some k => simp [hh k (List.mem_of_getElem? hi)]
  rw [findByName, findByName, KeySet.size, KeySet.size, ha, hord]

section Find

variable {h : Heap} {ks : KeySet} {m : Ident → Option KeyRef}

theorem findByName_some {uname : Str} {k : KeyRef} (hf : findByName h ks uname = some k) :
    k ∈ ks.array ∧ (h.cell k).ukey = uname := by
  obtain ⟨i, hi, hk⟩ := Option.bind_eq_some_iff.mp hf
  obtain ⟨-, he⟩ := Bisect.halfOpen_found hi
  dsimp only at hk he
  rw [hk, Option.elim_some, Std.LawfulEqOrd.compare_eq_iff_eq] at he
  exact ⟨List.mem_of_getElem? hk, he.symm⟩

theorem findByName_none (hks : ks.Holds h m) {uname : Str} (hf : findByName h ks uname = none) :
    ∀ k ∈ ks.array, (h.cell k).ukey ≠ uname := by
  intro k hk hu
  have hasc : Bisect.Ascending
      (SortedArray.oracle (fun k => (h.cell k).ukey) compare ks.array uname) ks.array.length := by
    refine SortedArray.ascending_oracle (hks.sorted.imp fun {a b} hlt => ?_) uname
    rw [identCmp_eq] at hlt
    exact Ordering.isLE_left_of_isLE_then ((congrArg Ordering.isLE hlt).trans rfl)
  obtain ⟨i, hi, rfl⟩ := List.mem_iff_getElem.mp hk
  have hfound : Bisect.Found
      (SortedArray.oracle (fun k => (h.cell k).ukey) compare ks.array uname) ks.array.length i := by
    refine ⟨hi, ?_⟩
    rw [SortedArray.oracle_eq hi, ← hu]
    exact Std.ReflCmp.compare_self
  obtain ⟨j, hj⟩ := Option.isSome_iff_exists.mp ((Bisect.halfOpen_isSome hasc).mpr ⟨i, hfound⟩)
  obtain ⟨hlt, -⟩ := Bisect.halfOpen_found hj
  have : findByName h ks uname = some ks.array[j] :=
    Option.bind_eq_some_iff.mpr ⟨j, hj, List.getElem?_eq_getElem hlt⟩
  simp [hf] at this

end Find

/-- A key and its specification. -/
def describe (h : Heap) (k : KeyRef) : KeyInfo where
  ref := k
  name := keyName (h.cell k)
  overrides := linkValues (h.cell k) (str "override/")
  namespaces := linkValues (h.cell k) (str "namespace/")
  fallbacks := linkValues (h.cell k) (str "fallback/")
  default := keyGetMeta (h.cell k) (str "default")

/-- What lookups see of a key set. -/
def content (h : Heap) (ks : KeySet) : Content := fun name =>
  (findByName h ks (unameOf name)).map (describe h)

theorem Alike.describe {h h' : Heap} {k : KeyRef} (ha : Alike (h.cell k) (h'.cell k)) :
    describe h' k = describe h k := by
  have hlinks : ∀ buffer, (∀ i, isCallbackMeta (buffer ++ elektraWriteArrayNumber i) = false) →
      linkValues (h'.cell k) buffer = linkValues (h.cell k) buffer := fun buffer hb =>
    linkValues_eq fun i => ha.getMeta _ (hb i)
  rw [Elektra.describe, Elektra.describe, keyName, ha.key, hlinks _ fun _ => rfl,
    hlinks (str "namespace/") fun _ => rfl, hlinks (str "fallback/") fun _ => rfl,
    ha.getMeta _ rfl]
  rfl

theorem content_congr {h h' : Heap} {ks ks' : KeySet} (ha : ks'.array = ks.array)
    (hh : ∀ k ∈ ks.array, Alike (h.cell k) (h'.cell k)) : content h' ks' = content h ks := by
  funext name
  rw [content, content, findByName_congr ha fun k hk => (hh k hk).ukey]
  cases hf : findByName h ks (unameOf name) with
  | none => rfl
  | some k => exact congrArg some (hh k (findByName_some hf).1).describe

end Elektra
