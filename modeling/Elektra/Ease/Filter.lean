import Elektra.Ease.Index
import Elektra.KeySet.Relation
import Elektra.Split.Buildup
import Elektra.Split.Values

/-!
# The array below a key

The filter takes the -1 of `elektraArrayValidateName` for true.

* `elektraKsFilter`, `elektraArrayGet`, `elektraArrayGetNextKey`: `none` is a read or a write past the
  end of a buffer;
* `Element`, `NextKey`, `ArrayFound`;
* `ArraySet`, **`arrayFound_iff`**.
-/

namespace Elektra.Ease

/-- The loop of `elektraKsFilter` -/
def ksFilterLoop (filter : Key → Option ℤ) : ℤ → List Key → List Key → Option (ℤ × List Key)
  | ret, result, [] => some (ret, result)
  | ret, result, current :: input => do
    let rc ← filter current
    if rc ≤ -1 then some (-1, result)
    else if 0 < rc then ksFilterLoop filter (ret + 1) (ksAppendValue result (keyDup current)) input
    else ksFilterLoop filter ret result input

def elektraKsFilter (result input : List Key) (filter : Key → Option ℤ) : Option (ℤ × List Key) :=
  ksFilterLoop filter 0 result input

def arrayFilter (arrayParent key : Key) : Option ℤ :=
  (keyIsDirectBelow arrayParent key).map fun direct =>
    if direct = true ∧ elektraArrayValidateName key ≠ 0 then 1 else 0

def elektraArrayGet (arrayParent : Key) (keys : List Key) : Option (List Key) :=
  (elektraKsFilter [] keys (arrayFilter arrayParent)).map Prod.snd

/-- The next key, and the key set that its last key was popped of and appended to. -/
def elektraArrayGetNextKey (arrayKeys : List Key) : Option (Option Key × List Key) :=
  match arrayKeys.getLast? with
  | none => some (none, arrayKeys)
  | some last =>
    let arrayKeys := ksAppendValue arrayKeys.dropLast last
    (elektraArrayIncName (keyDup last)).map fun (ret, newKey) =>
      if ret = -1 then (none, arrayKeys) else (some newKey, arrayKeys)

/-- The duplicate in another key set. -/
def inKeySet (key : Key) : Key := { keyDup key with roName := true }

theorem ksFilterLoop_spec {filter : Key → Option ℤ} {p : Key → Bool} :
    ∀ {input : List Key} (ret : ℤ) (result : List Key),
    (∀ key ∈ input, filter key = some (if p key = true then 1 else 0)) →
    ksFilterLoop filter ret result input =
      some (ret + (input.filter p).length, ((input.filter p).map inKeySet).foldl ksAppendValue result)
  | [], ret, result, _ => by simp [ksFilterLoop]
  | current :: input, ret, result, h => by
    have hrest : ∀ key ∈ input, filter key = some (if p key = true then 1 else 0) :=
      fun key hkey => h key (List.mem_cons_of_mem _ hkey)
    rw [ksFilterLoop, h current List.mem_cons_self]
    cases hp : p current with
    | true =>
      have hstep := ksFilterLoop_spec (ret + 1) (ksAppendValue result (inKeySet current)) hrest
      simp only [List.filter_cons_of_pos hp, List.map_cons, List.foldl_cons, List.length_cons]
      refine Eq.trans hstep ?_
      rw [Nat.cast_succ, add_assoc, add_comm (1 : ℤ)]
    | false =>
      have hstep := ksFilterLoop_spec ret result hrest
      rw [List.filter_cons_of_neg (by rw [hp]; decide)]
      exact hstep

theorem ksFilterLoop_none {filter : Key → Option ℤ} : ∀ {input : List Key} (ret : ℤ) (result : List Key),
    (∀ key ∈ input, ∀ rc, filter key = some rc → 0 ≤ rc) → (∃ key ∈ input, filter key = none) →
    ksFilterLoop filter ret result input = none
  | [], _, _, _, ⟨_, hkey, _⟩ => absurd hkey List.not_mem_nil
  | current :: input, ret, result, hpos, ⟨key, hkey, hnone⟩ => by
    rw [ksFilterLoop]
    cases hrc : filter current with
    | none => rfl
    | some rc =>
      have hne : key ≠ current := fun he => by
        rw [he, hrc] at hnone
        cases hnone
      have hrest : ∃ key ∈ input, filter key = none :=
        ⟨key, (List.mem_cons.mp hkey).resolve_left hne, hnone⟩
      have hle := hpos current List.mem_cons_self rc hrc
      have hpos' : ∀ key ∈ input, ∀ rc, filter key = some rc → 0 ≤ rc :=
        fun key hkey => hpos key (List.mem_cons_of_mem _ hkey)
      simp only [Option.bind_eq_bind, Option.bind_some]
      rw [if_neg (by omega)]
      split_ifs
      · exact ksFilterLoop_none _ _ hpos' hrest
      · exact ksFilterLoop_none _ _ hpos' hrest

/-! ## The elements -/

/-- `key` is an element of the array at `P`. -/
def Element (P : Path) (key : Key) : Prop :=
  ∃ Q, HasName key Q ∧ P.DirectlyAbove Q ∧ elektraArrayValidateName key = 1

/-- `newKey` is behind the array of `keys` at `P`. -/
structure NextKey (P : Path) (keys : List Key) (newKey : Key) : Prop where
  element : Element P newKey
  new : ∀ key ∈ keys, keyName key ≠ keyName newKey
  behind : ∀ key ∈ keys, Element P key → keyCmp (some key) (some newKey) = .lt

/-- `elektraArrayGet` gives the elements, and `elektraArrayGetNextKey` the key behind them; there is none
behind an empty array. -/
def ArrayFound (arrayParent : Key) (P : Path) (keys : List Key) : Prop :=
  ∃ arrayKeys, elektraArrayGet arrayParent keys = some arrayKeys ∧
    (∀ key, key ∈ arrayKeys ↔ ∃ key₀ ∈ keys, Element P key₀ ∧ key = inKeySet key₀) ∧
    if arrayKeys = [] then elektraArrayGetNextKey arrayKeys = some (none, arrayKeys)
    else ∃ newKey, elektraArrayGetNextKey arrayKeys = some (some newKey, arrayKeys) ∧ NextKey P keys newKey

/-- What the keys have to be. -/
structure ArraySet (arrayParent : Key) (P : Path) (keys : List Key) : Prop where
  /-- for a cascading key below the one of a namespace, nothing is read past the end, and an element is
  taken for what it is -/
  crossed : ∀ key ∈ keys, ∀ Q, HasName key Q → P.Crossed Q →
    (keyIsDirectBelow arrayParent key).isSome ∧
      (elektraArrayValidateName key = 1 → (keyIsDirectBelow arrayParent key = some true ↔ P.DirectlyAbove Q))
  /-- the keys directly below are those of an array -/
  children : ∀ key ∈ keys, keyIsDirectBelow arrayParent key = some true → elektraArrayValidateName key ≠ -1
  /-- a number follows the one of the last element -/
  last : ∀ last ∈ keys, Element P last →
    (∀ key ∈ keys, Element P key → (identCmp (ident key) (ident last)).isLE) → Followed (keyBaseName last)

section Filter

variable {arrayParent key : Key} {P Q : Path} {keys : List Key}

theorem validate_cases (key : Key) : elektraArrayValidateName key = -1 ∨ elektraArrayValidateName key = 0 ∨
    elektraArrayValidateName key = 1 := by
  by_cases h : elektraArrayValidateName key = -1
  · exact .inl h
  · obtain hs | ⟨ds, rest, hs, hlen⟩ := (validateBaseName_ne (keyBaseName key)).mp h
    · exact .inr (.inl (by rw [elektraArrayValidateName, hs]; rfl))
    · exact .inr (.inr (by rw [elektraArrayValidateName, hs.validate, if_pos hlen]))

/-- What the filter takes. -/
def taken (arrayParent key : Key) : Bool :=
  keyIsDirectBelow arrayParent key = some true && elektraArrayValidateName key ≠ 0

theorem hasName_inKeySet (h : HasName key Q) : HasName (inKeySet key) Q := ⟨h.key, h.keySize, h.ukey, h.keyUSize⟩

theorem ident_inKeySet (key : Key) : ident (inKeySet key) = ident key := rfl

theorem validKeys_inKeySet (h : ValidKeys keys) : ValidKeys (keys.map inKeySet) := by
  refine ⟨List.pairwise_map.mpr h.sorted, fun key hkey => ?_, fun key hkey => ?_, fun key hkey => ?_⟩
  all_goals obtain ⟨key₀, hkey₀, rfl⟩ := List.mem_map.mp hkey
  · exact h.sized key₀ hkey₀
  · exact h.named key₀ hkey₀
  · rfl

/-- `elektraArrayGet` reads past the end, or gives what the filter takes. -/
theorem elektraArrayGet_eq (h : ValidKeys keys) : elektraArrayGet arrayParent keys =
    if ∀ key ∈ keys, (keyIsDirectBelow arrayParent key).isSome then
      some ((keys.filter (taken arrayParent)).map inKeySet) else none := by
  rw [elektraArrayGet, elektraKsFilter]
  split_ifs with hall
  · have hfilter : ∀ key ∈ keys,
        arrayFilter arrayParent key = some (if taken arrayParent key = true then 1 else 0) := by
      intro key hkey
      obtain ⟨direct, hd⟩ := Option.isSome_iff_exists.mp (hall key hkey)
      rw [arrayFilter, taken, hd, Option.map_some]
      congr 1
      cases direct <;> simp
    have hvalid := validKeys_inKeySet (h.sublist (List.filter_sublist (p := taken arrayParent)))
    rw [ksFilterLoop_spec 0 [] hfilter, foldl_append_sublist hvalid (List.Sublist.refl _)]
    rfl
  · rw [ksFilterLoop_none, Option.map_none]
    · intro key hkey rc hrc
      obtain ⟨direct, -, rfl⟩ := Option.map_eq_some_iff.mp hrc
      split_ifs <;> decide
    · push Not at hall
      obtain ⟨key, hkey, hnone⟩ := hall
      exact ⟨key, hkey, by rw [arrayFilter, Option.not_isSome_iff_eq_none.mp hnone]; rfl⟩

theorem mem_of_inKeySet (h : ValidKeys keys) (hkey : key ∈ keys) {p : Key → Prop}
    (hp : ∃ key₀ ∈ keys, p key₀ ∧ inKeySet key = inKeySet key₀) : p key := by
  obtain ⟨key₀, hmem, hp, heq⟩ := hp
  have hident := congrArg ident heq
  rw [ident_inKeySet, ident_inKeySet] at hident
  rwa [h.sorted.unique hkey hmem hident]

theorem directlyAbove_sibling {R : Path} {t : CString} (h : P.DirectlyAbove (R.add t)) (s : CString) :
    P.DirectlyAbove (R.add s) := by
  obtain ⟨⟨hroot, hpre, -⟩, hlen⟩ := h
  have hlen' : P.parts.length = R.parts.length := by simpa [Path.add] using hlen.symm
  have hparts : P.parts = R.parts := by
    have htake := List.prefix_iff_eq_take.mp hpre
    rw [hlen'] at htake
    rw [htake, Path.add, List.take_left]
  refine ⟨⟨hroot, ⟨[s], by rw [hparts]; rfl⟩, fun he => ?_⟩, by simp [Path.add, hparts]⟩
  have := congrArg List.length he
  simp [Path.add, hparts] at this

/-- **The key behind the last element**: it is behind all of them exactly if a number follows. -/
theorem nextKey_iff (hat : ∀ key ∈ keys, AtPath key) {last : Key} (hlast : last ∈ keys) (he : Element P last)
    (hmax : ∀ key ∈ keys, Element P key → (identCmp (ident key) (ident last)).isLE) :
    (∃ ret newKey, elektraArrayIncName (keyDup (inKeySet last)) = some (ret, newKey) ∧ ret ≠ -1 ∧
      NextKey P keys newKey) ↔ Followed (keyBaseName last) := by
  obtain ⟨Q, hQ, hdirect, hvalid⟩ := he
  have hv : elektraArrayValidateName (keyDup (inKeySet last)) ≠ -1 := by
    rw [show elektraArrayValidateName (keyDup (inKeySet last)) = 1 from hvalid]
    decide
  have hdup : HasName (keyDup (inKeySet last)) Q := (hasName_inKeySet hQ).dup
  obtain ⟨R, t, rfl⟩ := exists_add hdup hv
  obtain ⟨hinc, hf⟩ | ⟨n, hn, hindex, hinc, hf⟩ := next_of_accepted hv
  · refine iff_of_false ?_ hf
    rintro ⟨ret, newKey, hr, -⟩
    rw [hinc] at hr
    cases hr
  have hname : HasName (keySetBaseName (keyDup (inKeySet last)) (some (elektraWriteArrayNumber n))).2
      (R.add (arrayName n)) := (keySetBaseName_spec hdup rfl (arrayName n)).2.2
  rw [keyBaseName_add hdup] at hindex
  refine Iff.trans ?_ hf.symm
  rw [keyBaseName_add hdup]
  constructor
  · rintro ⟨ret, newKey, hr, -, hnext⟩
    rw [hinc] at hr
    obtain ⟨rfl, rfl⟩ := Prod.mk.inj (Option.some.inj hr)
    exact (keyCmp_next hQ hname hn hindex).mp (hnext.behind last hlast ⟨_, hQ, hdirect, hvalid⟩)
  · intro hlt
    have hbehind : ∀ key ∈ keys, ∀ K, HasName key K → Element P key →
        compare K.uname (R.add (arrayName n)).uname = .lt := by
      intro key hkey K hK hel
      have hle := hmax key hkey hel
      rw [identCmp_eq, ident, ident, hK.ukey, hQ.ukey] at hle
      have hne : (compare K.uname (R.add t).uname).isLE := by
        cases hc : compare K.uname (R.add t).uname with
        | lt => rfl
        | eq => rfl
        | gt =>
          rw [hc] at hle
          cases hle
      refine Std.TransCmp.lt_of_isLE_of_lt hne ?_
      rw [compare_siblings]
      exact hlt
    have hnew : Element P (keySetBaseName (keyDup (inKeySet last)) (some (elektraWriteArrayNumber n))).2 :=
      ⟨_, hname, directlyAbove_sibling hdirect _, ((arrayNumber_iff n).mpr hn).accepted hname⟩
    refine ⟨0, _, hinc, by decide, hnew, fun key hkey heq => ?_, fun key hkey hel => ?_⟩
    · obtain ⟨K, hK⟩ := hat key hkey
      have hpath : K = R.add (arrayName n) := by
        rw [keyName, keyName, hK.key, hname.key] at heq
        exact Path.name_injective heq
      subst hpath
      have hel : Element P key :=
        ⟨_, hK, directlyAbove_sibling hdirect _, ((arrayNumber_iff n).mpr hn).accepted hK⟩
      have hself := hbehind key hkey _ hK hel
      rw [Std.ReflOrd.compare_self] at hself
      cases hself
    · obtain ⟨K, hK⟩ := hat key hkey
      rw [keyCmp_named hK hname, hbehind key hkey K hK hel]
      rfl

theorem elektraArrayGetNextKey_eq {arrayKeys : List Key} (h : ValidKeys arrayKeys) {last : Key}
    (hlast : arrayKeys.getLast? = some last) : elektraArrayGetNextKey arrayKeys =
      (elektraArrayIncName (keyDup last)).map fun (ret, newKey) =>
        if ret = -1 then (none, arrayKeys) else (some newKey, arrayKeys) := by
  have hconcat : arrayKeys.dropLast ++ [last] = arrayKeys := List.dropLast_append_getLast? last hlast
  have hput : ksAppendValue arrayKeys.dropLast last = arrayKeys := by
    have hall := foldl_append_sublist h (List.Sublist.refl arrayKeys)
    have hinit := foldl_append_sublist h (List.dropLast_sublist arrayKeys)
    rw [← hconcat, List.foldl_append, hinit] at hall
    rwa [hconcat] at hall
  rw [elektraArrayGetNextKey, hlast]
  dsimp only
  rw [hput]

theorem getLast_iff (h : ValidKeys keys) : keys.getLast? = some key ↔
    key ∈ keys ∧ ∀ key' ∈ keys, (identCmp (ident key') (ident key)).isLE := by
  obtain rfl | ⟨init, l, rfl⟩ := keys.eq_nil_or_concat'
  · simp
  have hbefore : ∀ k ∈ init, identCmp (ident k) (ident l) = .lt := fun k hk =>
    (List.pairwise_append.mp h.sorted).2.2 k hk l List.mem_cons_self
  rw [List.getLast?_concat, Option.some.injEq]
  constructor
  · rintro rfl
    refine ⟨List.mem_append_right _ List.mem_cons_self, fun k hk => ?_⟩
    obtain hk | hk := List.mem_append.mp hk
    · rw [hbefore k hk]
      rfl
    · rw [List.mem_singleton.mp hk, identCmp_eq_iff.mpr rfl]
      rfl
  · rintro ⟨hmem, hmax⟩
    obtain hk | hk := List.mem_append.mp hmem
    · have hle := hmax l (List.mem_append_right _ List.mem_cons_self)
      have hswap : identCmp (ident l) (ident key) = (identCmp (ident key) (ident l)).swap :=
        Std.OrientedCmp.eq_swap
      rw [hswap, hbefore key hk] at hle
      cases hle
    · exact (List.mem_singleton.mp hk).symm

/-- Where the filter takes the elements, the rest is about the last of them. -/
theorem arrayFound_of_taken (hkeys : ValidKeys keys) (hat : ∀ key ∈ keys, AtPath key)
    (hall : ∀ key ∈ keys, (keyIsDirectBelow arrayParent key).isSome)
    (htaken : ∀ key ∈ keys, taken arrayParent key = true ↔ Element P key) :
    ArrayFound arrayParent P keys ↔ ∀ last ∈ keys, Element P last →
      (∀ key ∈ keys, Element P key → (identCmp (ident key) (ident last)).isLE) → Followed (keyBaseName last) := by
  have hget : elektraArrayGet arrayParent keys = _ := elektraArrayGet_eq hkeys
  rw [if_pos hall] at hget
  have hmem : ∀ key, key ∈ (keys.filter (taken arrayParent)).map inKeySet ↔
      ∃ key₀ ∈ keys, Element P key₀ ∧ key = inKeySet key₀ := by
    intro key
    rw [List.mem_map]
    constructor
    · rintro ⟨key₀, hkey₀, rfl⟩
      obtain ⟨hk, ht⟩ := List.mem_filter.mp hkey₀
      exact ⟨key₀, hk, (htaken key₀ hk).mp ht, rfl⟩
    · rintro ⟨key₀, hk, he, rfl⟩
      exact ⟨key₀, List.mem_filter.mpr ⟨hk, (htaken key₀ hk).mpr he⟩, rfl⟩
  have hvalid := validKeys_inKeySet (hkeys.sublist (List.filter_sublist (p := taken arrayParent)))
  generalize (keys.filter (taken arrayParent)).map inKeySet = arrayKeys at hget hmem hvalid
  -- the last element of the array is the last one of the key set
  have hlast : ∀ last ∈ keys, Element P last →
      (∀ key ∈ keys, Element P key → (identCmp (ident key) (ident last)).isLE) →
      arrayKeys.getLast? = some (inKeySet last) := by
    intro last hl he hmax
    refine (getLast_iff hvalid).mpr ⟨(hmem _).mpr ⟨last, hl, he, rfl⟩, fun key hkey => ?_⟩
    obtain ⟨key₀, hk, he₀, rfl⟩ := (hmem key).mp hkey
    exact hmax key₀ hk he₀
  have hnext : ∀ last, arrayKeys.getLast? = some (inKeySet last) →
      ((∃ newKey, elektraArrayGetNextKey arrayKeys = some (some newKey, arrayKeys) ∧ NextKey P keys newKey) ↔
        ∃ ret newKey, elektraArrayIncName (keyDup (inKeySet last)) = some (ret, newKey) ∧ ret ≠ -1 ∧
          NextKey P keys newKey) := by
    intro last hl
    rw [elektraArrayGetNextKey_eq hvalid hl]
    constructor
    · rintro ⟨newKey, hr, hn⟩
      obtain ⟨⟨ret, key'⟩, hinc, heq⟩ := Option.map_eq_some_iff.mp hr
      dsimp only at heq
      split_ifs at heq with hret
      · cases (Prod.mk.inj heq).1
      · obtain rfl := Option.some.inj (Prod.mk.inj heq).1
        exact ⟨ret, key', hinc, hret, hn⟩
    · rintro ⟨ret, newKey, hinc, hret, hn⟩
      refine ⟨newKey, ?_, hn⟩
      rw [hinc, Option.map_some]
      dsimp only
      rw [if_neg hret]
  constructor
  · rintro ⟨arrayKeys', hget', -, hnext'⟩ last hl he hmax
    obtain rfl := Option.some.inj (hget.symm.trans hget')
    have hget := hlast last hl he hmax
    have hne : arrayKeys ≠ [] := fun h0 => by
      rw [h0] at hget
      cases hget
    rw [if_neg hne] at hnext'
    exact (nextKey_iff hat hl he hmax).mp ((hnext last hget).mp hnext')
  · intro hfollowed
    refine ⟨arrayKeys, hget, hmem, ?_⟩
    split_ifs with h0
    · rw [h0]
      rfl
    · obtain ⟨l, hl⟩ := Option.ne_none_iff_exists'.mp (List.getLast?_eq_none_iff.not.mpr h0)
      obtain ⟨hin, hmax⟩ := (getLast_iff hvalid).mp hl
      obtain ⟨last, hk, he, rfl⟩ := (hmem l).mp hin
      have hmax' : ∀ key ∈ keys, Element P key → (identCmp (ident key) (ident last)).isLE :=
        fun key hkey hel => hmax (inKeySet key) ((hmem _).mpr ⟨key, hkey, hel, rfl⟩)
      rw [hnext last hl]
      exact (nextKey_iff hat hk he hmax').mpr (hfollowed last hk he hmax')

/-- **`elektraArrayGet` takes the elements only where no other key is directly below the array.** -/
theorem arrayFound_iff (hP : HasName arrayParent P) (hkeys : ValidKeys keys) (hat : ∀ key ∈ keys, AtPath key) :
    ArrayFound arrayParent P keys ↔ ArraySet arrayParent P keys := by
  constructor
  · intro hfound
    obtain ⟨arrayKeys, hget, hmem, -⟩ := id hfound
    rw [elektraArrayGet_eq hkeys] at hget
    split_ifs at hget with hall
    obtain rfl := Option.some.inj hget
    have htaken : ∀ key ∈ keys, taken arrayParent key = true ↔ Element P key := by
      intro key hkey
      constructor
      · exact fun ht => mem_of_inKeySet hkeys hkey
          ((hmem _).mp (List.mem_map_of_mem (List.mem_filter.mpr ⟨hkey, ht⟩)))
      · intro he
        obtain ⟨key₁, hk, heq⟩ := List.mem_map.mp ((hmem _).mpr ⟨key, hkey, he, rfl⟩)
        obtain ⟨hk, ht⟩ := List.mem_filter.mp hk
        exact mem_of_inKeySet (p := fun key => taken arrayParent key = true) hkeys hkey ⟨key₁, hk, ht, heq.symm⟩
    have hdirect : ∀ key, keyIsDirectBelow arrayParent key = some true → elektraArrayValidateName key ≠ 0 →
        taken arrayParent key = true := fun key hd hv => by
      rw [taken, decide_eq_true hd, decide_eq_true hv]
      rfl
    refine ⟨fun key hkey Q hQ _ => ⟨hall key hkey, fun hv => ⟨fun hd => ?_, fun hd => ?_⟩⟩,
      fun key hkey hd hv => ?_, (arrayFound_of_taken hkeys hat hall htaken).mp hfound⟩
    · obtain ⟨Q', hQ', hd', -⟩ := (htaken key hkey).mp (hdirect key hd (by rw [hv]; decide))
      rwa [hQ.unique hQ']
    · have ht := (htaken key hkey).mpr ⟨Q, hQ, hd, hv⟩
      rw [taken, Bool.and_eq_true, decide_eq_true_eq] at ht
      exact ht.1
    · obtain ⟨-, -, -, hone⟩ := (htaken key hkey).mp (hdirect key hd (by rw [hv]; decide))
      rw [hv] at hone
      exact absurd hone (by decide)
  · intro hset
    have hall : ∀ key ∈ keys, (keyIsDirectBelow arrayParent key).isSome := by
      intro key hkey
      obtain ⟨Q, hQ⟩ := hat key hkey
      by_cases hc : P.Crossed Q
      · exact (hset.crossed key hkey Q hQ hc).1
      · rw [keyIsDirectBelow_eq hP hQ hc]
        rfl
    refine (arrayFound_of_taken hkeys hat hall fun key hkey => ?_).mpr hset.last
    obtain ⟨Q, hQ⟩ := hat key hkey
    have hjudged : elektraArrayValidateName key = 1 →
        (keyIsDirectBelow arrayParent key = some true ↔ P.DirectlyAbove Q) := by
      by_cases hc : P.Crossed Q
      · exact (hset.crossed key hkey Q hQ hc).2
      · intro _
        rw [keyIsDirectBelow_eq hP hQ hc]
        simp
    rw [taken, Bool.and_eq_true, decide_eq_true_eq, decide_eq_true_eq]
    constructor
    · rintro ⟨hd, hv⟩
      have hone := ((validate_cases key).resolve_left (hset.children key hkey hd)).resolve_left hv
      exact ⟨Q, hQ, (hjudged hone).mp hd, hone⟩
    · rintro ⟨Q', hQ', hd, hone⟩
      rw [hQ'.unique hQ] at hd
      exact ⟨(hjudged hone).mpr hd, by rw [hone]; decide⟩

end Filter

/-- `user/a/#0` -/
def userElement : Key := inKeySet (keyNewName (str "user/a/#0"))

/-- `user/a/x` -/
def userChild : Key := inKeySet (keyNewName (str "user/a/x"))

theorem hasName_userElement : HasName userElement (userA.add (arrayName 0)) :=
  ⟨by decide +kernel, by decide +kernel, by decide +kernel, by decide +kernel⟩

theorem arrayFound_userElement : ArrayFound (keyNewName (str "user/a")) userA [userElement] := by
  refine (arrayFound_iff ⟨rfl, rfl, rfl, rfl⟩ ⟨List.pairwise_singleton _ _, ?_, ?_, ?_⟩ ?_).mpr
    ⟨fun key hkey Q hQ hc => ?_, fun key hkey _ => ?_, fun key hkey _ _ => ?_⟩
  all_goals try intro key hkey
  all_goals obtain rfl := List.mem_singleton.mp hkey
  · exact hasName_userElement.sized
  · decide +kernel
  · rfl
  · exact ⟨_, hasName_userElement⟩
  · rw [hQ.unique hasName_userElement] at hc
    exact absurd hc.2.1 (by decide)
  · decide +kernel
  · have hbase : keyBaseName userElement = elektraWriteArrayNumber 0 := by decide +kernel
    rw [hbase]
    exact (scanned_write 0).followed.mpr (by decide)

/-- A key directly below that is no element is taken for one. -/
theorem not_arrayFound : ¬ ArrayFound (keyNewName (str "user/a")) userA [userElement, userChild] := by
  rintro ⟨arrayKeys, hget, hmem, -⟩
  have hall : elektraArrayGet (keyNewName (str "user/a")) [userElement, userChild] =
      some [userElement, userChild] := by decide +kernel
  obtain rfl := Option.some.inj (hall.symm.trans hget)
  obtain ⟨key₀, hkey₀, ⟨Q, -, -, hv⟩, heq⟩ := (hmem userChild).mp (by decide +kernel)
  obtain rfl | hkey₀ := List.mem_cons.mp hkey₀
  · exact absurd heq (by decide +kernel)
  · rw [List.mem_singleton.mp hkey₀] at hv
    exact absurd hv (by decide +kernel)

end Elektra.Ease
