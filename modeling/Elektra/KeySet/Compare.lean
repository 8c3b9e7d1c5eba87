import Elektra.KeySet.CutExact

/-!
# keyCmp

`keyCmp` orders keys by unescaped name and owner, null pointers and null names coming first. The
part that a key has below another one stands behind a NUL, the smallest byte: a key comes before the
keys below it, and these follow each other.

* `keyCmp`, `canonical`, `Measured`, `AtPath`, `Valid`;
* `keyCmp_eq`: the order as a lexicographic one, on `keyIdent`;
* `keyCmp_lt_iff`, `keyCmp_between`, `keyCmp_follows`: where the keys below a key stand;
* **`keyCmp_order`**.
-/

namespace Elektra

open Run

/-- A null pointer and a null name are smaller than any other. -/
def keyCmp (k1 k2 : Option Key) : Ordering :=
  match k1, k2 with
  | none, none => .eq
  | none, some _ => .lt
  | some _, none => .gt
  | some k1, some k2 =>
    match k1.key, k2.key with
    | none, none => .eq
    | none, some _ => .lt
    | some _, none => .gt
    | some _, some _ => keyCompareByNameOwner k1 k2

/-- The name and the owner, as far as there is a key and a name. -/
def canonical (k : Option Key) : Option (Option (Str × Option Str)) :=
  k.map fun key => key.key.map fun name => (name, keyGetMeta key (str "owner"))

/-- Where there is a name, its size is the one that is recorded. -/
def Measured (k : Option Key) : Prop := ∀ key ∈ k, key.key ≠ none → Sized key

/-- The key has a canonical name. -/
def AtPath (key : Key) : Prop := ∃ P, HasName key P

/-- The key has no name or a canonical one. -/
def Valid (key : Key) : Prop := key.key = none ∨ AtPath key

/-! ## The order as a lexicographic one -/

/-- What `keyCmp` compares. -/
def keyIdent (k : Option Key) : Option (Option Ident) := k.map fun key => key.key.map fun _ => ident key

/-- The order of `keyIdent`. -/
def keyIdentCmp (i j : Option (Option Ident)) : Ordering :=
  letI : Ord Ident := ⟨identCmp⟩
  compare i j

instance : Std.TransCmp keyIdentCmp :=
  letI : Ord Ident := ⟨identCmp⟩
  haveI : Std.TransOrd Ident := inferInstanceAs (Std.TransCmp identCmp)
  inferInstanceAs (Std.TransOrd (Option (Option Ident)))

theorem keyIdentCmp_eq_iff {i j : Option (Option Ident)} : keyIdentCmp i j = .eq ↔ i = j := by
  let : Ord Ident := ⟨identCmp⟩
  have : Std.TransOrd Ident := inferInstanceAs (Std.TransCmp identCmp)
  have : Std.LawfulEqOrd Ident :=
    { compare_self := Std.ReflCmp.compare_self
      eq_of_compare := identCmp_eq_iff.mp }
  exact Std.LawfulEqOrd.compare_eq_iff_eq

theorem HasName.sized {key : Key} {P : Path} (h : HasName key P) : Sized key := by
  rw [Sized, h.keyUSize, h.ukey]

theorem measured_of_valid {k : Option Key} (h : ∀ key ∈ k, Valid key) : Measured k := by
  intro key hk hn
  obtain h | ⟨P, h⟩ := h key hk
  · exact absurd h hn
  · exact h.sized

/-- **`keyCmp` is a lexicographic comparison.** -/
theorem keyCmp_eq {a b : Option Key} (ha : Measured a) (hb : Measured b) :
    keyCmp a b = keyIdentCmp (keyIdent a) (keyIdent b) := by
  cases a with
  | none => cases b <;> rfl
  | some k1 =>
    cases b with
    | none => rfl
    | some k2 =>
      cases h1 : k1.key with
      | none => cases h2 : k2.key <;> simp only [keyCmp, keyIdent, Option.map_some, h1, h2] <;> rfl
      | some n1 =>
        cases h2 : k2.key with
        | none => simp only [keyCmp, keyIdent, Option.map_some, h1, h2]; rfl
        | some n2 =>
          have heq := keyCompareByNameOwner_eq (ha k1 rfl (by rw [h1]; nofun))
            (hb k2 rfl (by rw [h2]; nofun))
          simp only [keyCmp, keyIdent, Option.map_some, h1, h2, heq]
          rfl

theorem keyIdent_eq_iff {a b : Option Key} (ha : ∀ key ∈ a, Valid key) (hb : ∀ key ∈ b, Valid key) :
    keyIdent a = keyIdent b ↔ canonical a = canonical b := by
  cases a with
  | none => cases b <;> simp [keyIdent, canonical]
  | some k1 =>
    cases b with
    | none => simp [keyIdent, canonical]
    | some k2 =>
      simp only [keyIdent, canonical, Option.map_some, Option.some.injEq]
      obtain h1 | ⟨P, hP⟩ := ha k1 rfl <;> obtain h2 | ⟨Q, hQ⟩ := hb k2 rfl
      · simp [h1, h2]
      · simp [h1, hQ.key]
      · simp [h2, hP.key]
      · simp only [hP.key, hQ.key, Option.map_some, Option.some.injEq, ident, hP.ukey, hQ.ukey,
          Prod.mk.injEq, Path.uname_injective.eq_iff, Path.name_injective.eq_iff]

/-! ## Keys below -/

section Below

variable {p k : Key} {P Q : Path}

theorem keyGetNamespace_root (hP : HasName p P) : (keyGetNamespace p).root = some P.root := by
  rw [keyGetNamespace, hP.key, root_name]

theorem ElektraNamespace.root_injective {m n : ElektraNamespace} (h : m.root = n.root)
    (hm : m.root.isSome) : m = n := by
  cases m <;> cases n <;> simp_all [root]

theorem namespace_eq_iff (hP : HasName p P) (hQ : HasName k Q) :
    keyGetNamespace p = keyGetNamespace k ↔ P.root = Q.root := by
  have hp := keyGetNamespace_root hP
  have hk := keyGetNamespace_root hQ
  constructor
  · intro h
    rw [h, hk] at hp
    exact (Option.some.inj hp).symm
  · intro h
    exact ElektraNamespace.root_injective (by rw [hp, hk, h]) (by rw [hp]; rfl)

theorem namespace_cascading (hP : HasName p P) :
    keyGetNamespace p = .cascading ↔ P.root = .cascading := by
  have hp := keyGetNamespace_root hP
  constructor
  · intro h
    rw [h] at hp
    exact (Option.some.inj hp).symm
  · intro h
    exact ElektraNamespace.root_injective (by rw [hp, h]; rfl) (by rw [hp]; rfl)

theorem keyCmp_named (hP : HasName p P) (hQ : HasName k Q) : keyCmp (some p) (some k) =
    (compare P.uname Q.uname).then
      (compare (keyGetMeta p (str "owner")) (keyGetMeta k (str "owner"))) := by
  simp only [keyCmp, hP.key, hQ.key]
  rw [keyCompareByNameOwner_eq hP.sized hQ.sized, identCmp_eq, ident, ident, hP.ukey, hQ.ukey]

theorem uname_of_keyCmp (hP : HasName p P) (hQ : HasName k Q)
    (h : (keyCmp (some p) (some k)).isLE) : (compare P.uname Q.uname).isLE := by
  rw [keyCmp_named hP hQ] at h
  exact Ordering.isLE_left_of_isLE_then h

theorem compare_lt_of_prefix {a b : Str} (h : a <+: b) (hne : a ≠ b) : compare a b = .lt := by
  cases hc : compare a b with
  | lt => rfl
  | eq => exact absurd (Std.LawfulEqOrd.compare_eq_iff_eq.mp hc) hne
  | gt =>
    have hle : (compare b a).isLE := by
      rw [Std.OrientedOrd.eq_swap, hc]
      rfl
    exact absurd (eq_of_prefix_of_isLE h hle).symm hne

/-- A key comes before the keys below it, but a key of a namespace after the cascading ones. -/
theorem keyCmp_lt_iff (hP : HasName p P) (hQ : HasName k Q) (h : keyIsBelow p k = true) :
    keyCmp (some p) (some k) = .lt ↔
      (keyGetNamespace k = .cascading → keyGetNamespace p = .cascading) := by
  obtain ⟨hroot, hpre, hne⟩ := (keyIsBelow_iff hP hQ).mp h
  rw [namespace_cascading hP, namespace_cascading hQ, keyCmp_named hP hQ]
  by_cases hr : P.root = Q.root
  · have hlt : compare P.uname Q.uname = .lt :=
      compare_lt_of_prefix (Path.uname_prefix.mpr ⟨hr, hpre⟩) fun he =>
        hne (congrArg Path.parts (Path.uname_injective he))
    rw [hlt, hr]
    exact ⟨fun _ hc => hc, fun _ => rfl⟩
  obtain ⟨r, ps⟩ := P
  obtain ⟨r', qs⟩ := Q
  cases r with
  | cascading =>
    cases r' with
    | cascading => exact absurd rfl hr
    | ns n =>
      have hlt : compare (Path.mk .cascading ps).uname (Path.mk (.ns n) qs).uname = .lt := by
        rw [Path.uname_ns, Path.uname_cascading]
        cases n <;> rfl
      rw [hlt]
      exact ⟨fun _ _ => rfl, fun _ => rfl⟩
  | ns m =>
    obtain rfl : r' = .cascading := hroot.resolve_left hr |>.resolve_left nofun
    have hgt := @not_isLE_cascading m ⟨.ns m, ps⟩ ⟨.cascading, qs⟩ rfl rfl
    cases hc : compare (Path.mk (.ns m) ps).uname (Path.mk .cascading qs).uname with
    | lt => rw [hc] at hgt; exact absurd rfl hgt
    | eq => rw [hc] at hgt; exact absurd rfl hgt
    | gt => exact ⟨nofun, fun h => absurd (h rfl) nofun⟩

/-- **The keys below a key, as far as they are in one namespace, follow each other.** -/
theorem keyCmp_between {q r : Key} (hp : AtPath p) (hq : AtPath q) (hk : AtPath k) (hr : AtPath r)
    (hpq : keyIsBelow p q = true) (hpr : keyIsBelow p r = true)
    (hns : keyGetNamespace q = keyGetNamespace r) (hqk : (keyCmp (some q) (some k)).isLE)
    (hkr : (keyCmp (some k) (some r)).isLE) :
    keyIsBelow p k = true ∧ keyGetNamespace k = keyGetNamespace q := by
  obtain ⟨P, hP⟩ := hp
  obtain ⟨Q, hQ⟩ := hq
  obtain ⟨K, hK⟩ := hk
  obtain ⟨R, hR⟩ := hr
  obtain ⟨hroot, hpre, hne⟩ := (keyIsBelow_iff hP hQ).mp hpq
  obtain ⟨-, hpre', -⟩ := (keyIsBelow_iff hP hR).mp hpr
  have hQK := uname_of_keyCmp hQ hK hqk
  have hKr : K.root = Q.root ∧ P.parts <+: K.parts :=
    prefix_between rfl hpre ((namespace_eq_iff hQ hR).mp hns).symm hpre' hQK (uname_of_keyCmp hK hR hkr)
  rw [keyIsBelow_iff hP hK, namespace_eq_iff hK hQ]
  refine ⟨⟨hKr.1 ▸ hroot, hKr.2, fun he => hne ?_⟩, hKr.1⟩
  -- a key of the parts of `p` would come before `q`
  have hKQ : K.uname <+: Q.uname := Path.uname_prefix.mpr ⟨hKr.1, he ▸ hpre⟩
  rw [he, Path.uname_injective (eq_of_prefix_of_isLE hKQ hQK)]

/-- **The keys below a key follow it**: what stands between has the name of the key, and another
owner, or is below. -/
theorem keyCmp_follows {q : Key} (hp : AtPath p) (hq : AtPath q) (hk : AtPath k)
    (hpq : keyIsBelow p q = true) (hns : keyGetNamespace p = keyGetNamespace q)
    (hpk : keyCmp (some p) (some k) = .lt) (hkq : (keyCmp (some k) (some q)).isLE) :
    keyIsBelow p k = true ∨
      keyName k = keyName p ∧ keyGetMeta k (str "owner") ≠ keyGetMeta p (str "owner") := by
  obtain ⟨P, hP⟩ := hp
  obtain ⟨Q, hQ⟩ := hq
  obtain ⟨K, hK⟩ := hk
  obtain ⟨-, hpre, -⟩ := (keyIsBelow_iff hP hQ).mp hpq
  have hPK := uname_of_keyCmp hP hK (by rw [hpk]; rfl)
  obtain ⟨hr, hpre'⟩ : K.root = P.root ∧ P.parts <+: K.parts :=
    prefix_between rfl List.prefix_rfl ((namespace_eq_iff hP hQ).mp hns).symm hpre hPK
      (uname_of_keyCmp hK hQ hkq)
  by_cases he : P.parts = K.parts
  · obtain rfl : P = K := by
      obtain ⟨r, ps⟩ := P
      obtain rfl : K.root = r := hr
      exact congrArg (Path.mk K.root) he
    refine Or.inr ⟨by rw [keyName, keyName, hP.key, hK.key], fun ho => ?_⟩
    rw [keyCmp_named hP hK, ho, Std.LawfulEqOrd.compare_eq_iff_eq.mpr rfl,
      Std.LawfulEqOrd.compare_eq_iff_eq.mpr rfl] at hpk
    cases hpk
  · exact Or.inl ((keyIsBelow_iff hP hK).mpr ⟨Or.inl hr.symm, hpre', he⟩)

end Below

/-- **The order of keys.** -/
theorem keyCmp_order {a b c : Option Key} (ha : Measured a) (hb : Measured b) (hc : Measured c) :
    keyCmp b a = (keyCmp a b).swap ∧
    ((keyCmp a b).isLE → (keyCmp b c).isLE → (keyCmp a c).isLE) ∧
    ((∀ key ∈ a, Valid key) → (∀ key ∈ b, Valid key) →
      (keyCmp a b = .eq ↔ canonical a = canonical b)) ∧
    (∀ p k, AtPath p → AtPath k → keyIsBelow p k = true →
      (keyCmp (some p) (some k) = .lt ↔
        (keyGetNamespace k = .cascading → keyGetNamespace p = .cascading))) ∧
    (∀ p q k r, AtPath p → AtPath q → AtPath k → AtPath r → keyIsBelow p q = true →
      keyIsBelow p r = true → keyGetNamespace q = keyGetNamespace r →
      (keyCmp (some q) (some k)).isLE → (keyCmp (some k) (some r)).isLE →
      keyIsBelow p k = true ∧ keyGetNamespace k = keyGetNamespace q) ∧
    (∀ p k q, AtPath p → AtPath k → AtPath q → keyIsBelow p q = true →
      keyGetNamespace p = keyGetNamespace q → keyCmp (some p) (some k) = .lt →
      (keyCmp (some k) (some q)).isLE → keyIsBelow p k = true ∨
        keyName k = keyName p ∧ keyGetMeta k (str "owner") ≠ keyGetMeta p (str "owner")) := by
  rw [keyCmp_eq hb ha, keyCmp_eq ha hb, keyCmp_eq hb hc, keyCmp_eq ha hc]
  refine ⟨Std.OrientedCmp.eq_swap, Std.TransCmp.isLE_trans,
    fun hva hvb => keyIdentCmp_eq_iff.trans (keyIdent_eq_iff hva hvb), ?_, ?_, ?_⟩
  · rintro p k ⟨P, hP⟩ ⟨Q, hQ⟩ h
    exact keyCmp_lt_iff hP hQ h
  · intro p q k r hp hq hk hr
    exact keyCmp_between hp hq hk hr
  · intro p k q hp hk hq
    exact keyCmp_follows hp hq hk

theorem keyCmp_order_user :
    keyCmp (some (keyNewName (str "user/b"))) (some (keyNewName (str "user/a"))) =
      (keyCmp (some (keyNewName (str "user/a"))) (some (keyNewName (str "user/b")))).swap ∧
    keyIsBelow (keyNewName (str "user/a")) (keyNewName (str "user/a/c")) = true := by
  have ha : AtPath (keyNewName (str "user/a")) := ⟨userA, rfl, rfl, rfl, rfl⟩
  have hb : AtPath (keyNewName (str "user/b")) :=
    ⟨⟨.ns .user, [⟨str "b", by decide⟩]⟩, rfl, rfl, rfl, rfl⟩
  have hab : AtPath (keyNewName (str "user/a/b")) :=
    ⟨userA.add ⟨str "b", by decide⟩, rfl, rfl, rfl, rfl⟩
  have hac : AtPath (keyNewName (str "user/a/c")) :=
    ⟨userA.add ⟨str "c", by decide⟩, rfl, rfl, rfl, rfl⟩
  have hva : Measured (some (keyNewName (str "user/a"))) := measured_of_valid fun key hk =>
    Option.mem_some.mp hk ▸ Or.inr ha
  have hvb : Measured (some (keyNewName (str "user/b"))) := measured_of_valid fun key hk =>
    Option.mem_some.mp hk ▸ Or.inr hb
  obtain ⟨hswap, -, -, -, hbetween, -⟩ := keyCmp_order hva hvb hva
  exact ⟨hswap, (hbetween _ _ _ _ ha hab hac hac (by decide +kernel) (by decide +kernel)
    (by decide +kernel) (by decide +kernel) (by decide +kernel)).1⟩

/-- The cascading `/a/b` is below `user/a` and comes before it; `/b` stands between `/a/b` and
`user/a/b`, which are below `/a`. -/
theorem keyCmp_cascading :
    ¬ (∀ p k, AtPath p → AtPath k → keyIsBelow p k = true → keyCmp (some p) (some k) = .lt) ∧
    ¬ (∀ p q k r, AtPath p → AtPath q → AtPath k → AtPath r → keyIsBelow p q = true →
      keyIsBelow p r = true → (keyCmp (some q) (some k)).isLE → (keyCmp (some k) (some r)).isLE →
      keyIsBelow p k = true) := by
  have hu : AtPath (keyNewName (str "user/a")) := ⟨userA, rfl, rfl, rfl, rfl⟩
  have hub : AtPath (keyNewName (str "user/a/b")) :=
    ⟨userA.add ⟨str "b", by decide⟩, rfl, rfl, rfl, rfl⟩
  have ha : AtPath (keyNewName (str "/a")) :=
    ⟨⟨.cascading, [⟨str "a", by decide⟩]⟩, rfl, rfl, rfl, rfl⟩
  have hb : AtPath (keyNewName (str "/b")) :=
    ⟨⟨.cascading, [⟨str "b", by decide⟩]⟩, rfl, rfl, rfl, rfl⟩
  have hab : AtPath (keyNewName (str "/a/b")) :=
    ⟨⟨.cascading, [⟨str "a", by decide⟩, ⟨str "b", by decide⟩]⟩, rfl, rfl, rfl, rfl⟩
  refine ⟨fun h => absurd (h _ _ hu hab (by decide +kernel)) (by decide +kernel), fun h => ?_⟩
  exact absurd (h _ _ _ _ ha hab hb hub (by decide +kernel) (by decide +kernel) (by decide +kernel)
    (by decide +kernel)) (by decide +kernel)

end Elektra
