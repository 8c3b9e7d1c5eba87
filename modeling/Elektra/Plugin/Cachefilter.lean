import Elektra.KeySet.Payload

/-!
# The cachefilter plugin

A get hands the keys below its parent to the caller, and appends the others to a cache; a set appends
the cache to the keys of the caller. What the storage has changed since then, and what the caller has
changed outside the last parent, is not taken into account.

* `elektraCachefilterGet`, `elektraCachefilterSet`;
* `Get`, `session`: gets of what the storage has, and a set of what the caller has made of it;
* `expected`, `Yields`: the keys of the last get, with those of the caller;
* `cached`, **`session_spec`**: the cache by names;
* `UpToDate`, **`session_yields_iff`**.
-/

namespace Elektra.Cachefilter

open SortedArray

/-! ## The plugin -/

def modules : Str := str "system/elektra/modules/cachefilter"

/-- The key set returned, and the data of the plugin; `contract` are the keys that describe it. -/
def elektraCachefilterGet (contract : List Key) (h : Heap) (data : Option KeySet) (returned : KeySet)
    (parentKey : KeyRef) : Heap × Option KeySet × KeySet :=
  if keyName (h.cell parentKey) = modules then
    let (h, contract) := readKeys h contract
    let (_, h, returned) := ksAppend h returned contract
    (ksDel h contract, data, returned)
  else
    let (h, toBeCached) :=
      match data with
      | some cachedData => (h, cachedData)
      | none => ksNew h returned.size []
    let (h, returned, temp) := ksCut h returned parentKey
    let (_, h, toBeCached) := ksAppend h toBeCached returned
    let (h, returned) := ksClear h returned
    match temp with
    | none => (h, some toBeCached, returned)
    | some temp =>
      let (_, h, returned) := ksAppend h returned temp
      (ksDel h temp, some toBeCached, returned)

/-- None without a get before. -/
def elektraCachefilterSet (h : Heap) (data : Option KeySet) (returned : KeySet) : Option (Heap × KeySet) :=
  data.map fun cachedKeys => (ksAppend h returned cachedKeys).2

/-! ## Sessions -/

/-- A get: what the storage has, and the key that the caller gets. -/
structure Get where
  storage : Stored
  parent : Key
  named : Storable parent

/-- The storage makes new keys for each get. -/
def get (contract : List Key) (st : Heap × Option KeySet) (g : Get) : Heap × Option KeySet :=
  let (h, returned) := readKeys st.1 g.storage.keys
  let (parentKey, h) := h.alloc g.parent
  let (h, data, _) := elektraCachefilterGet contract h st.2 returned parentKey
  (h, data)

/-- The keys for the storage after gets and a set of the keys `edited`. -/
def session (contract : List Key) (gets : List Get) (edited : Stored) : Option (List Key) :=
  let (h, data) := gets.foldl (get contract) (Heap.ofList [], none)
  let (h, returned) := readKeys h edited.keys
  (elektraCachefilterSet h data returned).map fun r => r.2.array.map r.1.cell

/-! ## What is expected -/

/-- The key is not at or below the parent. -/
def Get.outside (g : Get) (key : Key) : Bool := (cutTests g.parent).all fun test => !test key

/-- The keys of the caller, and those that the last get found outside its parent. -/
def expected (g : Get) (edited : Stored) (id : Ident) : Option Key :=
  (lookup ident edited.keys id).or (lookup ident (g.storage.keys.filter g.outside) id)

/-- The set yields the keys that are expected. -/
def Yields (g : Get) (edited : Stored) (result : Option (List Key)) : Prop :=
  ∃ keys, result = some keys ∧ Sorted ident identCmp keys ∧
    ∀ id, (lookup ident keys id).map payload = (expected g edited id).map payload

/-! ## The cache -/

/-- The get asks for the contract of the plugin. -/
def Get.contract (g : Get) : Prop := keyName g.parent = modules

instance (g : Get) : Decidable g.contract := inferInstanceAs (Decidable (_ = _))

/-- The keys that a get leaves to the cache. -/
def Get.left (g : Get) : List Key := if g.contract then [] else leftOver g.parent g.storage.keys

/-- The key of a name that was left last. -/
def cached (gets : List Get) (id : Ident) : Option Key :=
  gets.foldl (fun key g => (lookup ident g.left id).or key) none

/-- A key that some get left is, as it was left last, what the caller sets and, where the caller sets no
key of the name, what the last get found outside its parent. -/
structure UpToDate (gets : List Get) (g : Get) (edited : Stored) : Prop where
  kept : ∀ id, ∀ key ∈ cached (gets ++ [g]) id, ∀ e ∈ lookup ident edited.keys id,
    payload e = payload key
  removed : ∀ id, ∀ key ∈ cached (gets ++ [g]) id, lookup ident edited.keys id = none →
    ∃ s ∈ lookup ident (g.storage.keys.filter g.outside) id, payload s = payload key
  /-- when the last get asks for the contract -/
  contract : g.contract → (∃ g' ∈ gets, ¬g'.contract) ∧
    ∀ id, ∀ s ∈ lookup ident (g.storage.keys.filter g.outside) id, lookup ident edited.keys id = none →
      ∃ key ∈ cached gets id, payload key = payload s

/-! ## What the cache holds -/

section Proofs

variable {contract : List Key} {st : Heap × Option KeySet} {gets : List Get}

theorem cached_append (gets : List Get) (g : Get) (id : Ident) :
    cached (gets ++ [g]) id = (lookup ident g.left id).or (cached gets id) := by
  rw [cached, List.foldl_append]
  rfl

/-- The cache after gets. -/
structure Caches (st : Heap × Option KeySet) (gets : List Get) : Prop where
  none : st.2 = none → ∀ g ∈ gets, g.contract
  some : ∀ ks, st.2 = some ks → (∃ g ∈ gets, ¬g.contract) ∧
    Shows st.1 ks fun id => (cached gets id).map payload

theorem cached_of_contract (h : ∀ g ∈ gets, g.contract) (id : Ident) : cached gets id = none := by
  induction gets using List.reverseRecOn with
  | nil => rfl
  | append_singleton gets g ih =>
    rw [cached_append, ih fun g hg => h g (List.mem_append_left _ hg), Get.left,
      if_pos (h g (by simp))]
    rfl

theorem caches_nil (h : Heap) : Caches (h, none) [] where
  none _ _ hg := by cases hg
  some _ h := by cases h

theorem elektraCachefilterGet_spec {h : Heap} {data : Option KeySet} {ks : KeySet}
    {m : Ident → Option KeyRef} {parentKey : KeyRef} {cell : KeyRef → Key}
    {f : Ident → Option Payload}
    (hp : keyName (h.cell parentKey) ≠ modules) (hks : ks.Holds h m) (he : Entry h parentKey)
    (hc : parentKey ∉ ks.array)
    (hcell : ∀ k ∈ ks.array, Alike (cell k) (h.cell k) ∧ payload (h.cell k) = payload (cell k))
    (hnone : data = none → f = fun _ => none) (hsome : ∀ d, data = some d → Shows h d f) :
    ∃ toBeCached, (elektraCachefilterGet contract h data ks parentKey).2.1 = some toBeCached ∧
      Shows (elektraCachefilterGet contract h data ks parentKey).1 toBeCached fun id =>
        ((lookup ident (leftOver (h.cell parentKey) (ks.array.map cell)) id).map payload).or (f id) := by
  obtain ⟨toBeCached, heq, hshows⟩ : ∃ toBeCached,
      (match data with
        | some cachedData => (h, cachedData)
        | none => ksNew h ks.size []) = (h, toBeCached) ∧ Shows h toBeCached f := by
    cases data with
    | some d => exact ⟨d, rfl, hsome d rfl⟩
    | none =>
      refine ⟨(ksNew h ks.size []).2, Prod.ext (ksNew_empty h _) rfl, ?_⟩
      rw [hnone rfl]
      have hempty := shows_empty h ks.size
      rwa [ksNew_empty] at hempty
  obtain ⟨temp, htemp, hcut, hleft⟩ := shows_cut hks he hc hcell
  have hcache := (hshows.unchanged hcut).append hleft
  unfold elektraCachefilterGet
  simp only [hp, if_false, heq, htemp]
  exact ⟨_, rfl, hcache.unchanged
    ((unchanged_clear _ _).trans ((unchanged_append _ _ _).trans (unchanged_del _ _)))⟩

theorem get_eq (contract : List Key) (st : Heap × Option KeySet) (g : Get) {h₁ h₂ : Heap} {ks : KeySet}
    {parentKey : KeyRef} (hr : readKeys st.1 g.storage.keys = (h₁, ks))
    (ha : h₁.alloc g.parent = (parentKey, h₂)) :
    get contract st g = ((elektraCachefilterGet contract h₂ st.2 ks parentKey).1,
      (elektraCachefilterGet contract h₂ st.2 ks parentKey).2.1) := by
  rw [get, hr]
  simp only [ha]

theorem elektraCachefilterGet_contract {h : Heap} {data : Option KeySet} {ks : KeySet}
    {parentKey : KeyRef} (hp : keyName (h.cell parentKey) = modules) :
    Unchanged h (elektraCachefilterGet contract h data ks parentKey).1 ∧
      (elektraCachefilterGet contract h data ks parentKey).2.1 = data := by
  unfold elektraCachefilterGet
  simp only [hp, if_true]
  exact ⟨(unchanged_read h contract).trans ((unchanged_append _ _ _).trans (unchanged_del _ _)), trivial⟩

theorem get_caches (h : Caches st gets) (g : Get) : Caches (get contract st g) (gets ++ [g]) := by
  obtain ⟨⟨m, hks⟩, harray, hmap⟩ := readKeys_spec st.1 g.storage
  have hread := unchanged_read st.1 g.storage.keys
  have hnew : Unchanged (st.1.addKeys g.storage.keys) (readKeys st.1 g.storage.keys).1 :=
    unchanged_new _ _ _
  generalize hr : readKeys st.1 g.storage.keys = r at hks harray hmap hread hnew
  obtain ⟨h₁, ks⟩ := r
  have halloc := unchanged_alloc h₁ g.parent
  have hparent : (h₁.alloc g.parent).2.cell h₁.next = g.parent := Function.update_self ..
  have hnext : (h₁.alloc g.parent).2.next = h₁.next + 1 := rfl
  have hfst : (h₁.alloc g.parent).1 = h₁.next := rfl
  generalize ha : h₁.alloc g.parent = a at halloc hparent hnext hfst
  obtain ⟨parentKey, h₂⟩ := a
  dsimp only at hks harray hmap hread hnew halloc hparent hnext hfst
  subst hfst
  rw [get_eq contract st g hr ha]
  have hold : Unchanged st.1 h₂ := hread.trans halloc
  by_cases hg : g.contract
  · obtain ⟨hh, hdata⟩ := @elektraCachefilterGet_contract contract h₂ st.2 ks h₁.next
      (by rw [hparent]; exact hg)
    have hcached : cached (gets ++ [g]) = cached gets := by
      funext id
      rw [cached_append, Get.left, if_pos hg]
      rfl
    refine ⟨fun hn g' hg' => ?_, fun d hd => ?_⟩
    · rw [hdata] at hn
      obtain hg' | hg' := List.mem_append.mp hg'
      · exact h.none hn g' hg'
      · rwa [List.mem_singleton.mp hg']
    · rw [hdata] at hd
      obtain ⟨⟨g', hg', hproper⟩, hshows⟩ := h.some d hd
      rw [hcached]
      exact ⟨⟨g', List.mem_append_left _ hg', hproper⟩, hshows.unchanged (hold.trans hh)⟩
  · have hlt : ∀ k ∈ ks.array, k < h₁.next := fun k hk => (hks.entry k hk).lt
    have hadd : ∀ k ∈ ks.array, k < (st.1.addKeys g.storage.keys).next := by
      intro k hk
      rw [harray] at hk
      obtain ⟨i, hi, rfl⟩ := List.mem_range'.mp hk
      rw [Nat.one_mul]
      exact Nat.add_lt_add_left hi _
    have hcells := hnew.trans halloc
    obtain ⟨d, hd, hshows⟩ := @elektraCachefilterGet_spec contract h₂ st.2 ks m h₁.next
      (st.1.addKeys g.storage.keys).cell (fun id => (cached gets id).map payload)
      (by rw [hparent]; exact hg) (hks.keeps halloc.toKeeps)
      ⟨by rw [hnext]; exact Nat.lt_succ_self _, by rw [hparent]; exact g.named.1,
        by rw [hparent]; exact g.named.2⟩
      (fun hk => Nat.lt_irrefl _ (hlt _ hk))
      (fun k hk => ⟨hcells.cell k (hadd k hk), hcells.payload k (hadd k hk)⟩)
      (fun hn => funext fun id => by rw [cached_of_contract (h.none hn)]; rfl)
      (fun d hd => (h.some d hd).2.unchanged hold)
    refine ⟨fun hn => ?_, fun d' hd' => ?_⟩
    · cases hn.symm.trans hd
    · cases hd.symm.trans hd'
      refine ⟨⟨g, by simp, hg⟩, ?_⟩
      rw [hparent, hmap] at hshows
      have hcached : (fun id => (cached (gets ++ [g]) id).map payload) = fun id =>
          ((lookup ident (leftOver g.parent g.storage.keys) id).map payload).or
            ((cached gets id).map payload) := by
        funext id
        rw [cached_append, Get.left, if_neg hg, Option.map_or]
      rwa [hcached]

/-- **The set yields the cache, and the keys of the caller that are not in it.** -/
theorem session_spec (contract : List Key) (gets : List Get) (edited : Stored) :
    ((∀ g ∈ gets, g.contract) ∧ session contract gets edited = none) ∨
      ((∃ g ∈ gets, ¬g.contract) ∧ ∃ keys, session contract gets edited = some keys ∧
        Sorted ident identCmp keys ∧ ∀ id, (lookup ident keys id).map payload =
          ((cached gets id).or (lookup ident edited.keys id)).map payload) := by
  have hcaches : Caches (gets.foldl (get contract) (Heap.ofList [], none)) gets := by
    induction gets using List.reverseRecOn with
    | nil => exact caches_nil _
    | append_singleton gets g ih =>
      rw [List.foldl_append]
      exact get_caches ih g
  unfold session
  generalize gets.foldl (get contract) (Heap.ofList [], none) = st at hcaches ⊢
  obtain ⟨h, data⟩ := st
  have hread := shows_read h edited
  have hh := unchanged_read h edited.keys
  dsimp only
  generalize readKeys h edited.keys = r at hread hh ⊢
  obtain ⟨h₁, ks⟩ := r
  cases data with
  | none => exact .inl ⟨hcaches.none rfl, rfl⟩
  | some d =>
    obtain ⟨hproper, hshows⟩ := hcaches.some d rfl
    have happ := (hread.append (hshows.unchanged hh)).lookup
    refine .inr ⟨hproper, _, rfl, happ.1, fun id => ?_⟩
    rw [Option.map_or]
    exact happ.2 id

end Proofs

theorem left_of_outside {g : Get} (hg : ¬g.contract) {id : Ident}
    (h : lookup ident g.left id = none) : lookup ident (g.storage.keys.filter g.outside) id = none := by
  rw [Get.left, if_neg hg, lookup_eq_none] at h
  rw [lookup_eq_none]
  intro key hkey
  obtain ⟨hmem, hout⟩ := List.mem_filter.mp hkey
  refine h key (mem_leftOver hmem fun test ht => ?_)
  simpa using List.all_eq_true.mp hout test ht

/-- **A set yields what is expected exactly when the caller's keys are up to date with the cache.** -/
theorem session_yields_iff (contract : List Key) (gets : List Get) (g : Get) (edited : Stored) :
    Yields g edited (session contract (gets ++ [g]) edited) ↔ UpToDate gets g edited := by
  constructor
  · rintro ⟨keys, hkeys, -, hmap⟩
    obtain ⟨-, hnone⟩ | ⟨⟨g', hg', hproper⟩, keys', hkeys', -, hmap'⟩ := session_spec contract (gets ++ [g]) edited
    · cases hnone.symm.trans hkeys
    cases hkeys.symm.trans hkeys'
    have hboth := fun id => (hmap' id).symm.trans (hmap id)
    constructor
    · intro id key hkey e he
      have hid := hboth id
      rw [Option.mem_def.mp hkey, expected, Option.mem_def.mp he] at hid
      exact (Option.some.inj hid).symm
    · intro id key hkey he
      have hid := hboth id
      rw [Option.mem_def.mp hkey, expected, he, Option.none_or] at hid
      obtain ⟨s, hs, hc⟩ := Option.map_eq_some_iff.mp hid.symm
      exact ⟨s, hs, hc⟩
    · intro hg
      constructor
      · obtain hg' | hg' := List.mem_append.mp hg'
        · exact ⟨g', hg', hproper⟩
        · rw [List.mem_singleton.mp hg'] at hproper
          exact absurd hg hproper
      · intro id s hs he
        have hid := hboth id
        have hcached : cached (gets ++ [g]) id = cached gets id := by
          rw [cached_append, Get.left, if_pos hg]
          rfl
        rw [hcached, expected, he, Option.or_none, Option.none_or, Option.mem_def.mp hs] at hid
        obtain ⟨key, hkey, hc⟩ := Option.map_eq_some_iff.mp hid
        exact ⟨key, hkey, hc⟩
  · intro h
    obtain ⟨hall, -⟩ | ⟨-, keys, hkeys, hsorted, hmap⟩ := session_spec contract (gets ++ [g]) edited
    · obtain ⟨g', hg', hproper⟩ := (h.contract (hall g (by simp))).1
      exact absurd (hall g' (List.mem_append_left _ hg')) hproper
    refine ⟨keys, hkeys, hsorted, fun id => ?_⟩
    rw [hmap id, expected]
    cases hc : cached (gets ++ [g]) id with
    | some key =>
      cases he : lookup ident edited.keys id with
      | some e => exact congrArg some (h.kept id key hc e he).symm
      | none =>
        obtain ⟨s, hs, hcontent⟩ := h.removed id key hc he
        rw [Option.mem_def.mp hs]
        exact congrArg some hcontent.symm
    | none =>
      cases he : lookup ident edited.keys id with
      | some e => rfl
      | none =>
        have houtside : lookup ident (g.storage.keys.filter g.outside) id = none := by
          by_cases hg : g.contract
          · rw [cached_append, Get.left, if_pos hg, lookup_nil, Option.none_or] at hc
            refine Option.eq_none_iff_forall_ne_some.mpr fun s hs => ?_
            obtain ⟨key, hkey, -⟩ := (h.contract hg).2 id s hs he
            cases hc.symm.trans hkey
          · rw [cached_append, Option.or_eq_none_iff] at hc
            exact left_of_outside hg hc.1
        rw [houtside]

/-- `user/a`, and `user/b` with the value. -/
def values (b : Str) : Stored where
  keys := [{ keyNewName (str "user/a") with data := some (str "1") },
    { keyNewName (str "user/b") with data := some b }]
  sorted := by simp [Sorted, List.pairwise_cons]; rfl
  named := by
    intro key hkey
    rcases List.mem_cons.mp hkey with rfl | hkey
    · exact ⟨by nofun, rfl⟩
    · cases List.mem_singleton.mp hkey
      exact ⟨by nofun, rfl⟩

/-- The storage has the two keys in both gets, which are of `user/a` and of `user/b`; the caller changes
`user/b`, and gets the old value into the storage. -/
theorem not_session_yields : ¬ Yields ⟨values (str "1"), keyNewName (str "user/b"), by decide⟩
    (values (str "2")) (session [] [⟨values (str "1"), keyNewName (str "user/a"), by decide⟩,
      ⟨values (str "1"), keyNewName (str "user/b"), by decide⟩] (values (str "2"))) := by
  rintro ⟨keys, hkeys, -, hmap⟩
  have hold : (session [] [⟨values (str "1"), keyNewName (str "user/a"), by decide⟩,
      ⟨values (str "1"), keyNewName (str "user/b"), by decide⟩] (values (str "2"))).bind
        (fun keys => (lookup ident keys (ident (keyNewName (str "user/b")))).map payload) =
      some (some (str "user/b"), some (str "1"), []) := by decide +kernel
  have hnew : (expected ⟨values (str "1"), keyNewName (str "user/b"), by decide⟩ (values (str "2"))
      (ident (keyNewName (str "user/b")))).map payload =
        some (some (str "user/b"), some (str "2"), []) := by decide +kernel
  rw [hkeys, Option.bind_some, hmap, hnew] at hold
  cases hold

end Elektra.Cachefilter
