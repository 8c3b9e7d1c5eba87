import Elektra.Split.Appoint
import Elektra.Split.Flags

/-!
# The entry that a key belongs to

A key belongs to the entry of the deepest mountpoint at or above it; where there is none, to that of the default
backend in its namespace. A split has at most one such entry, and the search finds it.

* `BelongsTo`, `belongsTo_iff`: by the backend of the key and its namespace;
* `Finds`: what the search looks for; `SplitOf`: a split of a handle; **`routed_iff`**;
* `Divided`, `Appointed`, `Merged`, **`split_places`**.
-/

namespace Elektra

variable {W : Type} {mp : BackendRef → Option Path} {d : BackendRef} {used : List BackendRef} {kdb : KDB W}
  {mounts listed : List (Path × BackendRef)} {split : Split} {e : SplitEntry} {key : Key} {P : Path}

/-! ## Belonging -/

/-- The key belongs to the entry. -/
inductive BelongsTo (mounts : List (Path × BackendRef)) (d : BackendRef) (e : SplitEntry) (key : Key) : Prop
  | mounted (P M : Path) (b : BackendRef) (hkey : HasName key P) (parent : HasName e.parent M) (handle : e.handle = some b)
      (above : M.AtOrAbove P) (last : lastMounted mounts M = some b)
      (deepest : ∀ m ∈ mounts, m.1.AtOrAbove P → m.1.parts.length ≤ M.parts.length)
  | default (P M : Path) (hkey : HasName key P) (parent : HasName e.parent M) (handle : e.handle = some d)
      (root : M.root = P.root) (free : ∀ m ∈ mounts, ¬ m.1.AtOrAbove P)

/-- The entry is one of the handle, with a key set of its own. -/
structure CopyOf (kdb : KDB W) (e : SplitEntry) : Prop where
  entry : ∃ e₀ ∈ kdb.split, e.handle = e₀.handle ∧ (∀ M, HasName e₀.parent M → HasName e.parent M) ∧
    test_bit e.syncbits SPLIT_FLAG_CASCADING = test_bit e₀.syncbits SPLIT_FLAG_CASCADING

theorem CopyOf.place (h : CopyOf kdb e) (hl : Listed mp d used kdb mounts listed) :
    ∃ l ∈ listed, e.handle = some l.2 ∧ HasName e.parent l.1 := by
  obtain ⟨e₀, he₀, hhandle, hparent, -⟩ := h.entry
  obtain ⟨l, hmem, hback, hname⟩ := hl.lists.of_mem he₀
  exact ⟨l, hmem, hhandle.trans hback, hparent _ hname⟩

/-- **Belonging, by the backend and the namespace.** -/
theorem belongsTo_iff (hl : Listed mp d used kdb mounts listed) (hdef : kdb.defaultBackend = some d) (he : CopyOf kdb e)
    (hP : HasName key P) {M : Path} (hM : HasName e.parent M) :
    BelongsTo mounts d e key ↔ M.root = P.root ∧ kdb.owner P = e.handle := by
  have hm := hl.state.mounted
  constructor
  · rintro (⟨P', M', b, hP', hM', hb, habove, hlast, hdeepest⟩ | ⟨P', M', hP', hM', hb, hroot, hfree⟩)
    · obtain rfl := hP.unique hP'
      obtain rfl := hM.unique hM'
      exact ⟨habove.1, (owner_of_owns hm ⟨M, habove, hlast, hdeepest⟩).trans hb.symm⟩
    · obtain rfl := hP.unique hP'
      obtain rfl := hM.unique hM'
      obtain ⟨b, N, hN, hlast, -⟩ | ⟨-, howner⟩ := owner_cases hm P
      · exact absurd hN (hfree _ (mem_of_lastMounted hlast))
      · exact ⟨hroot, howner.trans (hdef.trans hb.symm)⟩
  · rintro ⟨hroot, howner⟩
    obtain ⟨b, hown⟩ | ⟨hfree, hnone⟩ := owner_cases hm P
    · have hb : e.handle = some b := howner.symm.trans (owner_of_owns hm hown)
      obtain ⟨N, hN, hlast, hdeepest⟩ := hown
      obtain ⟨l, hmem, hback, hname⟩ := he.place hl
      -- the backend is listed at one place of the namespace only
      have hsame : (N, b) = l := by
        refine List.inj_on_of_nodup_map hl.distinct (hl.mounts_listed _ (mem_of_lastMounted hlast)) hmem ?_
        have hback' : l.2 = b := Option.some.inj (hback.symm.trans hb)
        have hroot' : N.root = l.1.root := by
          rw [hN.1, ← hroot, hM.unique hname]
        rw [hback', hroot']
      obtain rfl : N = M := (congrArg Prod.fst hsame).trans (hname.unique hM)
      exact .mounted P N b hP hM hb hN hlast hdeepest
    · exact .default P M hP hM (howner.symm.trans (hnone.trans hdef)) hroot hfree

/-! ## What the search finds -/

/-- The tests of the entry are passed. -/
structure Finds (backend : Option BackendRef) (key : Key) (e : SplitEntry) : Prop where
  handle : backend = e.handle
  test : test_bit e.syncbits SPLIT_FLAG_CASCADING = true →
    ∃ test, parentTest (keyGetNamespace key) = some test ∧ test e.parent = true

theorem finds_of_search {backend : Option BackendRef} : ∀ {split : Split} {i : ℕ},
    splitSearchBackend split backend key = some i → ∃ e, split[i]? = some e ∧ Finds backend key e
  | [], _, h => by cases h
  | e :: split, i, h => by
    have hnext : (splitSearchBackend split backend key).map (· + 1) = some i →
        ∃ e', (e :: split)[i]? = some e' ∧ Finds backend key e' := by
      intro h
      obtain ⟨j, hj, rfl⟩ := Option.map_eq_some_iff.mp h
      obtain ⟨e', he', hfinds⟩ := finds_of_search hj
      exact ⟨e', he', hfinds⟩
    rw [splitSearchBackend] at h
    by_cases hb : backend = e.handle
    · rw [if_pos hb] at h
      by_cases hc : test_bit e.syncbits SPLIT_FLAG_CASCADING = true
      · rw [if_pos hc] at h
        cases ht : parentTest (keyGetNamespace key) with
        | none =>
          rw [ht] at h
          cases h
        | some test =>
          rw [ht] at h
          dsimp only at h
          by_cases hp : test e.parent = true
          · rw [if_pos hp] at h
            obtain rfl := Option.some.inj h
            exact ⟨e, rfl, hb, fun _ => ⟨test, ht, hp⟩⟩
          · rw [if_neg hp] at h
            exact hnext h
      · rw [if_neg hc] at h
        obtain rfl := Option.some.inj h
        exact ⟨e, rfl, hb, fun hc' => absurd hc' hc⟩
    · rw [if_neg hb] at h
      exact hnext h

/-- Where an entry passes the tests and none before it ends the search, some entry is found. -/
theorem search_of_finds {backend : Option BackendRef} : ∀ {split : Split},
    (∀ e ∈ split, backend = e.handle → test_bit e.syncbits SPLIT_FLAG_CASCADING = true →
      parentTest (keyGetNamespace key) ≠ none) →
    (∃ e ∈ split, Finds backend key e) → splitSearchBackend split backend key ≠ none
  | [], _, ⟨_, he, _⟩ => absurd he List.not_mem_nil
  | e :: split, hends, ⟨e', he', hfinds⟩ => by
    have hnext : e' ∈ split → (splitSearchBackend split backend key).map (· + 1) ≠ none := fun he' h =>
      search_of_finds (fun e he => hends e (List.mem_cons_of_mem _ he)) ⟨e', he', hfinds⟩ (Option.map_eq_none_iff.mp h)
    have hhead : ¬ Finds backend key e → e' ∈ split := by
      intro hno
      obtain rfl | he' := List.mem_cons.mp he'
      · exact absurd hfinds hno
      · exact he'
    rw [splitSearchBackend]
    by_cases hb : backend = e.handle
    · rw [if_pos hb]
      by_cases hc : test_bit e.syncbits SPLIT_FLAG_CASCADING = true
      · rw [if_pos hc]
        obtain ⟨test, ht⟩ := Option.ne_none_iff_exists'.mp (hends e List.mem_cons_self hb hc)
        rw [ht]
        dsimp only
        by_cases hp : test e.parent = true
        · rw [if_pos hp]
          exact Option.some_ne_none 0
        · rw [if_neg hp]
          refine hnext (hhead fun hf => ?_)
          obtain ⟨test', ht', hp'⟩ := hf.test hc
          obtain rfl := Option.some.inj (ht.symm.trans ht')
          exact hp hp'
      · rw [if_neg hc]
        exact Option.some_ne_none 0
    · rw [if_neg hb]
      exact hnext (hhead fun hf => hb hf.handle)

theorem parentTest_iff (hP : HasName key P) {parent : Key} {M : Path} (hM : HasName parent M) {test : Key → Bool}
    (ht : parentTest (keyGetNamespace key) = some test) : test parent = true ↔ M.root = P.root := by
  have hroot := keyGetNamespace_root hP
  have hspec : keyIsSpec parent = true ↔ M.root = .ns .spec := by
    rw [keyIsSpec, hM.key]
    exact keyNameIs_path .spec M
  have hdir : keyIsDir parent = true ↔ M.root = .ns .dir := by
    rw [keyIsDir, hM.key]
    exact keyNameIs_path .dir M
  cases hns : keyGetNamespace key <;> rw [hns] at hroot ht <;> cases ht <;> rw [← Option.some.inj hroot]
  · exact hspec
  · exact hdir
  · exact keyIsUser_eq hM
  · exact keyIsSystem_eq hM

theorem parentTest_roots (hP : HasName key P) {ns : Namespace} (hns : ns ∈ rootNamespaces) (hroot : P.root = .ns ns) :
    parentTest (keyGetNamespace key) ≠ none := by
  have hkey := keyGetNamespace_root hP
  rw [hroot] at hkey
  cases hn : keyGetNamespace key <;> rw [hn] at hkey <;> cases hkey <;>
    first | exact Option.some_ne_none _ | exact absurd hns (by decide)

theorem flag_cases (hl : Listed mp d used kdb mounts listed) (hf : Flags mp d kdb) (he : CopyOf kdb e) {M : Path}
    (hM : HasName e.parent M) :
    (test_bit e.syncbits SPLIT_FLAG_CASCADING = true ∧ ∃ ns ∈ rootNamespaces, M.root = .ns ns) ∨
      (test_bit e.syncbits SPLIT_FLAG_CASCADING = false ∧ ∃ b, e.handle = some b ∧ b ≠ d ∧ mountPlaces (mp b) = [M]) := by
  obtain ⟨e₀, he₀, hhandle, hparent, hbit⟩ := he.entry
  obtain ⟨l, hmem, hback, hname⟩ := hl.lists.of_mem he₀
  obtain rfl := (hparent _ hname).unique hM
  rw [hbit]
  obtain ⟨hbits, ns, hns, hroot⟩ | ⟨hbits, hne, hplaces⟩ := (hf.flagged e₀ he₀).bits
  · rw [keyGetNamespace_root hname] at hroot
    rw [hbits]
    exact .inl ⟨rfl, ns, hns, Option.some.inj hroot⟩
  · obtain ⟨M, hsingle⟩ := hplaces l.2 hback
    have hd : l.2 ≠ d := fun h => hne (hback.trans (congrArg some h))
    have hplace : l.1 ∈ mountPlaces (mp l.2) := by
      obtain hmount | ⟨h, -⟩ := hl.listed_mounts l hmem
      · exact hl.places l hmount
      · exact absurd h hd
    rw [hsingle, List.mem_singleton] at hplace
    rw [hbits]
    exact .inr ⟨rfl, l.2, hhandle.trans hback, hd, hplace ▸ hsingle⟩

/-- **What passes the tests is what the key belongs to.** -/
theorem finds_iff (hl : Listed mp d used kdb mounts listed) (hf : Flags mp d kdb) (hdef : kdb.defaultBackend = some d)
    (he : CopyOf kdb e) (hP : HasName key P) : Finds (kdb.owner P) key e ↔ BelongsTo mounts d e key := by
  obtain ⟨l, hmem, hback, hM⟩ := he.place hl
  rw [belongsTo_iff hl hdef he hP hM]
  obtain ⟨hbit, ns, hns, hroot⟩ | ⟨hbit, b, hb, hbd, hsingle⟩ := flag_cases hl hf he hM
  · constructor
    · intro hfinds
      obtain ⟨test, ht, hp⟩ := hfinds.test hbit
      exact ⟨(parentTest_iff hP hM ht).mp hp, hfinds.handle⟩
    · rintro ⟨hsame, howner⟩
      refine ⟨howner, fun _ => ?_⟩
      obtain ⟨test, ht⟩ := Option.ne_none_iff_exists'.mp (parentTest_roots hP hns (hsame ▸ hroot))
      exact ⟨test, ht, (parentTest_iff hP hM ht).mpr hsame⟩
  · refine ⟨fun hfinds => ⟨?_, hfinds.handle⟩, fun h => ⟨h.2, fun hbit' => ?_⟩⟩
    · -- the mountpoint of the backend is the only one
      obtain ⟨b', N, hN, hlast, hdeepest⟩ | ⟨-, hnone⟩ := owner_cases hl.state.mounted P
      · have howner := owner_of_owns hl.state.mounted ⟨N, hN, hlast, hdeepest⟩
        obtain rfl : b' = b := Option.some.inj (howner.symm.trans (hfinds.handle.trans hb))
        have hplace := hl.places _ (mem_of_lastMounted hlast)
        rw [hsingle, List.mem_singleton] at hplace
        rw [← hplace]
        exact hN.1
      · exact absurd (Option.some.inj (hb.symm.trans (hfinds.handle.symm.trans (hnone.trans hdef)))) hbd
    · rw [hbit] at hbit'
      cases hbit'

/-! ## Splits of a handle -/

/-- The entries are some of the handle's. -/
structure SplitOf (kdb : KDB W) (split : Split) : Prop where
  once : (split.map SplitEntry.pair).Nodup
  copies : ∀ e ∈ split, CopyOf kdb e

/-- The key has a canonical name, or one that is in no namespace. -/
structure Placeable (key : Key) : Prop where
  name : AtPath key ∨ keyGetNamespace key = .empty ∨ keyGetNamespace key = .metaName
  nul : 0 ∉ keyName key
  size : key.key ≠ none → key.keySize = (keyName key).length + 1

/-- **A key belongs to one entry at most.** -/
theorem SplitOf.unique (hs : SplitOf kdb split) (hl : Listed mp d used kdb mounts listed)
    (hdef : kdb.defaultBackend = some d) {i j : ℕ} {e' : SplitEntry} (hi : split[i]? = some e) (hj : split[j]? = some e')
    (hb : BelongsTo mounts d e key) (hb' : BelongsTo mounts d e' key) : i = j := by
  have hpair : ∀ {i : ℕ} {e : SplitEntry}, split[i]? = some e → BelongsTo mounts d e key →
      ∃ P, HasName key P ∧ (split.map SplitEntry.pair)[i]? = some (kdb.owner P, some P.root) := by
    intro i e hi hb
    have he := hs.copies e (List.mem_of_getElem? hi)
    obtain ⟨l, -, -, hM⟩ := he.place hl
    obtain ⟨P, hP⟩ : ∃ P, HasName key P := by
      cases hb with
      | mounted P _ _ hP => exact ⟨P, hP⟩
      | default P _ hP => exact ⟨P, hP⟩
    obtain ⟨hroot, howner⟩ := (belongsTo_iff hl hdef he hP hM).mp hb
    refine ⟨P, hP, ?_⟩
    rw [List.getElem?_map, hi, Option.map_some, SplitEntry.pair, keyGetNamespace_root hM, hroot, howner]
  obtain ⟨P, hP, hpi⟩ := hpair hi hb
  obtain ⟨P', hP', hpj⟩ := hpair hj hb'
  obtain rfl := hP.unique hP'
  have hlt : i < (split.map SplitEntry.pair).length := (List.getElem?_eq_some_iff.mp hpi).1
  exact (List.getElem?_inj hlt hs.once).mp (hpi.trans hpj.symm)

theorem metaName_not (m : Namespace) : ∀ {n : Str}, keyGetNameNamespace (some n) = .metaName →
    ¬ keyNameIs m.name n = true
  | [], h => by cases h
  | c :: s, h => by
    rw [keyGetNameNamespace] at h
    split_ifs at h with _ hspec hproc hdir huser hsystem
    rw [keyNameIsUser, Bool.or_eq_true, not_or] at huser
    cases m with
    | spec => exact hspec
    | proc => exact hproc
    | dir => exact hdir
    | user => exact huser.1
    | system => exact hsystem

theorem metaName_free {m : Namespace} {n : Str} (hn : keyGetNameNamespace (some n) = .metaName) :
    ¬ m.name ++ [pathSeparator] <+: n ++ [pathSeparator] := by
  intro hpre
  refine metaName_not m hn ?_
  rw [keyNameIs, Bool.or_eq_true, decide_eq_true_iff, List.isPrefixOf_iff_prefix]
  exact (List.prefix_concat_iff.mp hpre).imp_left List.append_cancel_right

theorem parentTest_empty (h : keyGetNamespace key = .empty ∨ keyGetNamespace key = .metaName) :
    parentTest (keyGetNamespace key) = none := by
  obtain h | h := h <;> rw [h] <;> rfl

theorem placeable_default (hl : Listed mp d used kdb mounts listed) (hdef : kdb.defaultBackend = some d)
    (hk : Placeable key) (hns : keyGetNamespace key = .empty ∨ keyGetNamespace key = .metaName) :
    mountGetBackend kdb (some key) = some d := by
  have hm := hl.state.mounted
  by_cases hempty : keyName key = []
  · rw [mountGetBackend, if_pos hempty, hdef]
  obtain ⟨n, hn⟩ : ∃ n, key.key = some n := by
    cases hkey : key.key with
    | none => exact absurd (by rw [keyName, hkey]; rfl) hempty
    | some n => exact ⟨n, rfl⟩
  have hname : keyName key = n := by rw [keyName, hn]; rfl
  have hmeta : keyGetNameNamespace (some n) = .metaName := by
    obtain h | h := hns
    · rw [keyGetNamespace, hn] at h
      cases n with
      | nil => exact absurd hname hempty
      | cons c s =>
        have hspec := namespace_spec (c :: s)
        rw [h] at hspec
        cases hspec
    · rwa [keyGetNamespace, hn] at h
  rw [mountGetBackend, if_neg hempty, hm.trie, trieLookup_trieOf _ hk.size hk.nul, hdef]
  refine Option.or_eq_right_of_none ?_
  rw [Longest.longest_eq_none]
  intro p hp
  rw [lastInserted_eq_none]
  rintro m hmem rfl
  obtain ⟨l, hlm, rfl⟩ := List.mem_map.mp hmem
  obtain ⟨⟨r, ps⟩, b⟩ := l
  cases r with
  | cascading => exact hm.root _ hlm rfl
  | ns m =>
    have hpre : m.name ++ [pathSeparator] <+: (mountName ⟨.ns m, ps⟩).1 := by
      change _ <+: (Path.mk (.ns m) ps).name ++ [pathSeparator]
      rw [Path.name_ns, List.append_assoc]
      obtain hj | ⟨t, hj⟩ := join_cases (escapes ps) <;> rw [hj] <;> simp
    rw [hname] at hp
    exact metaName_free hmeta (hpre.trans hp)

theorem BelongsTo.atPath (h : BelongsTo mounts d e key) : AtPath key := by
  cases h with
  | mounted P _ _ hP => exact ⟨P, hP⟩
  | default P _ hP => exact ⟨P, hP⟩

theorem not_atPath (hns : keyGetNamespace key = .empty ∨ keyGetNamespace key = .metaName) : ¬ AtPath key := by
  rintro ⟨P, hP⟩
  have hroot := keyGetNamespace_root hP
  obtain h | h := hns <;> rw [h] at hroot <;> cases hroot

/-- **A key is placed where it belongs.** -/
theorem routed_iff (hs : SplitOf kdb split) (hl : Listed mp d used kdb mounts listed) (hf : Flags mp d kdb)
    (hdef : kdb.defaultBackend = some d) (hk : Placeable key) {i : ℕ} :
    routed kdb split key = some i ↔ ∃ e, split[i]? = some e ∧ BelongsTo mounts d e key := by
  obtain ⟨P, hP⟩ | hns := hk.name
  · have hroute : routed kdb split key = splitSearchBackend split (kdb.owner P) key := by
      rw [routed, owner_eq hl.state.mounted hP]
    have hfinds := fun e he => finds_iff hl hf hdef (hs.copies e he) hP
    rw [hroute]
    constructor
    · intro h
      obtain ⟨e, he, hfind⟩ := finds_of_search h
      exact ⟨e, he, (hfinds e (List.mem_of_getElem? he)).mp hfind⟩
    · rintro ⟨e, he, hb⟩
      have hmem := List.mem_of_getElem? he
      obtain ⟨l, -, -, hM⟩ := (hs.copies e hmem).place hl
      obtain ⟨hroot, howner⟩ := (belongsTo_iff hl hdef (hs.copies e hmem) hP hM).mp hb
      have hends : ∀ e' ∈ split, kdb.owner P = e'.handle → test_bit e'.syncbits SPLIT_FLAG_CASCADING = true →
          parentTest (keyGetNamespace key) ≠ none := by
        intro e' he' howner' hbit'
        obtain ⟨l', hmem', hback', hM'⟩ := (hs.copies e' he').place hl
        obtain ⟨-, ns, hns, hroot'⟩ | ⟨hbit, -⟩ := flag_cases hl hf (hs.copies e' he') hM'
        · obtain ⟨-, ns', hns', hroot''⟩ | ⟨-, b, hbe, hbd, hsingle⟩ := flag_cases hl hf (hs.copies e hmem) hM
          · exact parentTest_roots hP hns' (hroot ▸ hroot'')
          · -- both entries are at the one place of the backend
            have hbl : l'.2 = b := Option.some.inj (hback'.symm.trans (howner'.symm.trans (howner.trans hbe)))
            have hplace : l'.1 ∈ mountPlaces (mp b) := by
              obtain hmount | ⟨h, -⟩ := hl.listed_mounts l' hmem'
              · exact hbl ▸ hl.places l' hmount
              · exact absurd (hbl.symm.trans h) hbd
            rw [hsingle, List.mem_singleton] at hplace
            exact parentTest_roots hP hns (hroot ▸ hplace ▸ hroot')
        · rw [hbit] at hbit'
          cases hbit'
      obtain ⟨j, hj⟩ := Option.ne_none_iff_exists'.mp
        (search_of_finds hends ⟨e, hmem, (hfinds e hmem).mpr hb⟩)
      obtain ⟨e', he', hfind⟩ := finds_of_search hj
      rw [hj, hs.unique hl hdef he he' hb ((hfinds e' (List.mem_of_getElem? he')).mp hfind)]
  · have hback := placeable_default hl hdef hk hns
    rw [routed, hback]
    constructor
    · intro h
      obtain ⟨e, he, hfind⟩ := finds_of_search h
      have hmem := List.mem_of_getElem? he
      obtain ⟨l, -, -, hM⟩ := (hs.copies e hmem).place hl
      obtain ⟨hbit, -⟩ | ⟨-, b, hb, hbd, -⟩ := flag_cases hl hf (hs.copies e hmem) hM
      · obtain ⟨test, ht, -⟩ := hfind.test hbit
        rw [parentTest_empty hns] at ht
        cases ht
      · exact absurd (Option.some.inj (hb.symm.trans hfind.handle.symm)) hbd
    · rintro ⟨e, -, hb⟩
      exact absurd hb.atPath (not_atPath hns)

/-! ## Dividing, appointing and merging -/

/-- The keys that belong to the entry, each once and in their order. -/
structure Holding (mounts : List (Path × BackendRef)) (d : BackendRef) (ks : List Key) (e : SplitEntry) (keys : List Key) :
    Prop where
  sublist : keys.Sublist ks
  mem_iff : ∀ key ∈ ks, key ∈ keys ↔ BelongsTo mounts d e key

/-- What `splitDivide` makes of a split. -/
structure Divided (mounts : List (Path × BackendRef)) (d : BackendRef) (ks : List Key) (split divided : Split) : Prop where
  length : divided.length = split.length
  entry : ∀ (i : ℕ) e, split[i]? = some e → ∃ e', divided[i]? = some e' ∧ SameRoute e e' ∧
    Holding mounts d ks e e'.keyset ∧
    (test_bit e'.syncbits SPLIT_FLAG_SYNC = true ↔ ∃ key ∈ ks, BelongsTo mounts d e key ∧ keyNeedSync key = true)

/-- What checking for updates leaves of an entry: the sync bit tells whether to update. -/
structure CheckedEntry (e e' : SplitEntry) : Prop where
  handle : e'.handle = e.handle
  parent : ∀ M, HasName e.parent M → HasName e'.parent M
  cascading : test_bit e'.syncbits SPLIT_FLAG_CASCADING = test_bit e.syncbits SPLIT_FLAG_CASCADING
  keyset : e'.keyset = []

/-- What `splitAppoint` makes of a split. -/
structure Appointed (mounts : List (Path × BackendRef)) (d : BackendRef) (ks : List Key) (split appointed : Split) :
    Prop where
  length : appointed.length = split.length + 1
  entry : ∀ (i : ℕ) e, split[i]? = some e → ∃ e', appointed[i]? = some e' ∧
    if test_bit e.syncbits SPLIT_FLAG_SYNC then e' = e
    else SameRoute e e' ∧ e'.syncbits = e.syncbits ∧ Holding mounts d ks e e'.keyset
  bypass : ∃ e', appointed[split.length]? = some e' ∧ e'.handle = none ∧ e'.syncbits = 0 ∧ e'.keyset.Sublist ks ∧
    ∀ key ∈ ks, key ∈ e'.keyset ↔ ∀ e ∈ split, ¬ BelongsTo mounts d e key

/-- What an update leaves of an entry: the keys of one that is not updated, or new ones of its own. -/
structure UpdatedEntry (mounts : List (Path × BackendRef)) (d : BackendRef) (ks : List Key) (e e' : SplitEntry) : Prop where
  kept : test_bit e.syncbits SPLIT_FLAG_SYNC = false → e'.keyset = e.keyset
  valid : test_bit e.syncbits SPLIT_FLAG_SYNC = true → ValidKeys e'.keyset
  belongs : test_bit e.syncbits SPLIT_FLAG_SYNC = true → ∀ key ∈ e'.keyset, BelongsTo mounts d e key
  /-- A new key is not taken for one that is in no namespace. -/
  apart : test_bit e.syncbits SPLIT_FLAG_SYNC = true → ∀ key ∈ e'.keyset, ∀ k ∈ ks, ¬ AtPath k → ident k ≠ ident key

structure Updated (mounts : List (Path × BackendRef)) (d : BackendRef) (ks : List Key) (appointed updated : Split) :
    Prop where
  length : updated.length = appointed.length
  entry : ∀ (i : ℕ) e e', appointed[i]? = some e → updated[i]? = some e' → UpdatedEntry mounts d ks e e'

/-- The key belongs to no entry that is to be updated. -/
def Stays (mounts : List (Path × BackendRef)) (d : BackendRef) (split : Split) (key : Key) : Prop :=
  ∀ e ∈ split, test_bit e.syncbits SPLIT_FLAG_SYNC = true → ¬ BelongsTo mounts d e key

/-- What `splitMerge` makes of the updated entries. -/
structure Merged (mounts : List (Path × BackendRef)) (d : BackendRef) (ks : List Key) (split updated : Split)
    (keys : List Key) : Prop where
  valid : ValidKeys keys
  mem_iff : ∀ key, key ∈ keys ↔ key ∈ ks ∧ Stays mounts d split key ∨
    ∃ (i : ℕ) (e e' : SplitEntry), split[i]? = some e ∧ updated[i]? = some e' ∧
      test_bit e.syncbits SPLIT_FLAG_SYNC = true ∧ key ∈ e'.keyset

/-- What becomes of the keys of a key set. -/
structure PlacesKeys (mounts : List (Path × BackendRef)) (d : BackendRef) (handle : KDB W) (split : Split)
    (ks : List Key) : Prop where
  once : ∀ (key : Key) (i j : ℕ) e e', split[i]? = some e → split[j]? = some e' → BelongsTo mounts d e key →
    BelongsTo mounts d e' key → i = j
  divided : Divided mounts d ks split (splitDivide split handle ks).2
  appointed : ∀ checked, List.Forall₂ CheckedEntry split checked → (splitAppoint checked handle ks).1 = 1 ∧
    Appointed mounts d ks checked (splitAppoint checked handle ks).2
  merged : ∀ checked, List.Forall₂ CheckedEntry split checked → ∀ updated,
    Updated mounts d ks (splitAppoint checked handle ks).2 updated →
    Merged mounts d ks checked updated (splitMerge updated []).2

section Places

variable {ks : List Key}

theorem holding_of_filter (hks : ValidKeys ks) {p : Key → Bool} (hp : ∀ key ∈ ks, p key = true ↔ BelongsTo mounts d e key) :
    Holding mounts d ks e ((ks.filter p).foldl ksAppendValue []) := by
  rw [foldl_append_sublist hks List.filter_sublist]
  refine ⟨List.filter_sublist, fun key hkey => ?_⟩
  rw [List.mem_filter, and_iff_right hkey, hp key hkey]

theorem test_set_sync (bits : ℕ) : test_bit (set_bit bits SPLIT_FLAG_SYNC) SPLIT_FLAG_SYNC = true := by
  rw [test_bit, set_bit, Nat.and_or_distrib_right, decide_eq_true_iff]
  intro h
  obtain ⟨-, h1⟩ := Nat.or_eq_zero_iff.mp h
  cases h1

/-- The keys that are routed to an entry are those that belong to it. -/
theorem routed_entry (hs : SplitOf kdb split) (hl : Listed mp d used kdb mounts listed) (hf : Flags mp d kdb)
    (hdef : kdb.defaultBackend = some d) {i : ℕ} (hi : split[i]? = some e) (hk : Placeable key) :
    routed kdb split key = some i ↔ BelongsTo mounts d e key := by
  rw [routed_iff hs hl hf hdef hk, hi]
  simp only [Option.some.injEq, exists_eq_left']

/-- **Dividing.** -/
theorem splitDivide_divided (hs : SplitOf kdb split) (hl : Listed mp d used kdb mounts listed) (hf : Flags mp d kdb)
    (hdef : kdb.defaultBackend = some d) (hks : ValidKeys ks) (hplace : ∀ key ∈ ks, Placeable key)
    (hempty : ∀ e ∈ split, e.keyset = [] ∧ test_bit e.syncbits SPLIT_FLAG_SYNC = false) :
    Divided mounts d ks split (splitDivide split kdb ks).2 := by
  have hback : kdb.defaultBackend ≠ none := hdef.trans_ne (Option.some_ne_none d)
  obtain ⟨-, hget⟩ := splitDivideLoop_spec ks split 0 fun key _ => getBackend_ne_none hback key
  have heq : (splitDivide split kdb ks).2 = split.mapIdx fun i e => e.fill (keysFor kdb split ks i) :=
    List.ext_getElem? fun i => by
      rw [List.getElem?_mapIdx]
      exact hget i
  refine ⟨by rw [heq, List.length_mapIdx], fun i e hi => ?_⟩
  obtain ⟨hkeyset, hbit⟩ := hempty e (List.mem_of_getElem? hi)
  have hrouted := fun key hkey => routed_entry hs hl hf hdef hi (hplace key hkey)
  refine ⟨e.fill (keysFor kdb split ks i), by rw [heq, List.getElem?_mapIdx, hi, Option.map_some],
    SplitEntry.fill_route _ e, ?_, ?_⟩
  · rw [SplitEntry.fill_keyset, hkeyset]
    exact holding_of_filter hks fun key hkey => decide_eq_true_iff.trans (hrouted key hkey)
  · have hany : (keysFor kdb split ks i).any keyNeedSync = true ↔
        ∃ key ∈ ks, BelongsTo mounts d e key ∧ keyNeedSync key = true := by
      rw [List.any_eq_true]
      refine exists_congr fun key => ?_
      rw [keysFor, List.mem_filter, decide_eq_true_iff, and_assoc]
      exact and_congr_right fun hkey => and_congr_left' (hrouted key hkey)
    rw [SplitEntry.fill_syncbits, ← hany]
    split_ifs with hneed
    · exact iff_of_true (test_set_sync _) hneed
    · rw [hbit]
      exact iff_of_false Bool.false_ne_true hneed

theorem splitSearchBackend_bypass {b : BackendRef} {e : SplitEntry} (he : e.handle = none) : ∀ split : Split,
    splitSearchBackend (split ++ [e]) (some b) key = splitSearchBackend split (some b) key
  | [] => by
    have hne : some b ≠ e.handle := he ▸ Option.some_ne_none b
    change splitSearchBackend [e] (some b) key = none
    rw [splitSearchBackend, if_neg hne]
    rfl
  | e' :: split => by
    rw [List.cons_append, splitSearchBackend, splitSearchBackend, splitSearchBackend_bypass he split]

theorem routed_bypass (hback : kdb.defaultBackend ≠ none) (split : Split) (key : Key) :
    routed kdb (splitAppend split none keyNew 0) key = routed kdb split key := by
  obtain ⟨b, hb⟩ := Option.ne_none_iff_exists'.mp (getBackend_ne_none hback key)
  rw [routed, routed, hb]
  exact splitSearchBackend_bypass rfl split

/-- **Appointing.** -/
theorem splitAppoint_appointed (hs : SplitOf kdb split) (hl : Listed mp d used kdb mounts listed) (hf : Flags mp d kdb)
    (hdef : kdb.defaultBackend = some d) (hks : ValidKeys ks) (hplace : ∀ key ∈ ks, Placeable key)
    (hempty : ∀ e ∈ split, e.keyset = []) :
    (splitAppoint split kdb ks).1 = 1 ∧ Appointed mounts d ks split (splitAppoint split kdb ks).2 := by
  have hback : kdb.defaultBackend ≠ none := hdef.trans_ne (Option.some_ne_none d)
  obtain ⟨hret, hget⟩ := splitAppointLoop_spec split.length ks (splitAppend split none keyNew 0)
    fun key _ => getBackend_ne_none hback key
  have heq : (splitAppoint split kdb ks).2 = (splitAppend split none keyNew 0).mapIdx fun i e =>
      e.appoint (keysAt kdb (splitAppend split none keyNew 0) split.length ks i) :=
    List.ext_getElem? fun i => by
      rw [List.getElem?_mapIdx]
      exact hget i
  have happ : ∀ key, appointed kdb (splitAppend split none keyNew 0) split.length key =
      (routed kdb split key).getD split.length := fun key => by
    rw [appointed, routed_bypass hback]
  have hlt : ∀ key i, routed kdb split key = some i → i < split.length := fun key i hi => splitSearchBackend_lt hi
  refine ⟨hret, ?_, fun i e hi => ?_, ?_⟩
  · rw [heq, List.length_mapIdx, splitAppend, List.length_append, List.length_singleton]
  · have hlen : i < split.length := (List.getElem?_eq_some_iff.mp hi).1
    have hentry : (splitAppend split none keyNew 0)[i]? = some e := by
      rw [splitAppend, List.getElem?_append_left hlen, hi]
    refine ⟨_, by rw [heq, List.getElem?_mapIdx, hentry, Option.map_some], ?_⟩
    rw [SplitEntry.appoint]
    split_ifs with hsync
    · rfl
    · refine ⟨SplitEntry.gather_route _ e, rfl, ?_⟩
      have hiff : ∀ key ∈ ks, decide (appointed kdb (splitAppend split none keyNew 0) split.length key = i) = true ↔
          BelongsTo mounts d e key := fun key hkey => by
        rw [decide_eq_true_iff, happ, ← routed_entry hs hl hf hdef hi (hplace key hkey)]
        cases hr : routed kdb split key with
        | none => simp only [Option.getD_none, reduceCtorEq, iff_false]; omega
        | some j => rw [Option.getD_some, Option.some.injEq]
      have hkeyset : (e.gather (keysAt kdb (splitAppend split none keyNew 0) split.length ks i)).keyset =
          (keysAt kdb (splitAppend split none keyNew 0) split.length ks i).foldl ksAppendValue [] := by
        rw [SplitEntry.gather, hempty e (List.mem_of_getElem? hi)]
      rw [hkeyset]
      exact holding_of_filter hks hiff
  · have hentry : (splitAppend split none keyNew 0)[split.length]? =
        some { keyset := [], handle := none, parent := keyNew, syncbits := 0 } := by
      rw [splitAppend, List.getElem?_concat_length]
    refine ⟨_, by rw [heq, List.getElem?_mapIdx, hentry, Option.map_some], rfl, rfl, ?_⟩
    have hkeyset : (SplitEntry.appoint { keyset := [], handle := none, parent := keyNew, syncbits := 0 }
        (keysAt kdb (splitAppend split none keyNew 0) split.length ks split.length)).keyset =
        keysAt kdb (splitAppend split none keyNew 0) split.length ks split.length :=
      foldl_append_sublist hks List.filter_sublist
    rw [hkeyset]
    refine ⟨List.filter_sublist, fun key hkey => ?_⟩
    rw [keysAt, List.mem_filter, and_iff_right hkey, decide_eq_true_iff, happ]
    cases hr : routed kdb split key with
    | none =>
      refine iff_of_true rfl fun e he hb => ?_
      obtain ⟨i, hi⟩ := List.mem_iff_getElem?.mp he
      rw [(routed_entry hs hl hf hdef hi (hplace key hkey)).mpr hb] at hr
      cases hr
    | some i =>
      obtain ⟨e, hi, hb⟩ := (routed_iff hs hl hf hdef (hplace key hkey)).mp hr
      refine iff_of_false ?_ fun hno => hno e (List.mem_of_getElem? hi) hb
      rw [Option.getD_some]
      exact (hlt key i hr).ne

/-! ### Merging -/

/-- An entry that is updated gets keys of its own. -/
structure Fresh (mounts : List (Path × BackendRef)) (d : BackendRef) (ks : List Key) (e : SplitEntry) (key : Key) : Prop where
  sync : test_bit e.syncbits SPLIT_FLAG_SYNC = true
  belongs : BelongsTo mounts d e key
  apart : ∀ k ∈ ks, ¬ AtPath k → ident k ≠ ident key

variable {appointed updated : Split}

theorem Updated.cases (happ : Appointed mounts d ks split appointed) (hup : Updated mounts d ks appointed updated)
    {i : ℕ} {e' : SplitEntry} (hi : updated[i]? = some e') :
    (∃ e, split[i]? = some e ∧ test_bit e.syncbits SPLIT_FLAG_SYNC = true ∧ UpdatedEntry mounts d ks e e') ∨
      (∃ e, split[i]? = some e ∧ test_bit e.syncbits SPLIT_FLAG_SYNC = false ∧ Holding mounts d ks e e'.keyset) ∨
      (i = split.length ∧ e'.keyset.Sublist ks ∧
        ∀ key ∈ ks, key ∈ e'.keyset ↔ ∀ e ∈ split, ¬ BelongsTo mounts d e key) := by
  have hlen : i < split.length + 1 := by
    rw [← happ.length, ← hup.length]
    exact (List.getElem?_eq_some_iff.mp hi).1
  obtain hlt | rfl := Nat.lt_succ_iff_lt_or_eq.mp hlen
  · have hsome : split[i]? = some split[i] := List.getElem?_eq_getElem hlt
    obtain ⟨e₁, he₁, hentry⟩ := happ.entry i _ hsome
    have hupdated := hup.entry i e₁ e' he₁ hi
    by_cases hsync : test_bit split[i].syncbits SPLIT_FLAG_SYNC = true
    · rw [if_pos hsync] at hentry
      exact .inl ⟨_, hsome, hsync, hentry ▸ hupdated⟩
    · rw [if_neg hsync] at hentry
      obtain ⟨-, hbits, hhold⟩ := hentry
      have hfalse := Bool.eq_false_iff.mpr hsync
      refine .inr (.inl ⟨_, hsome, hfalse, ?_⟩)
      rw [hupdated.kept (hbits ▸ hfalse)]
      exact hhold
  · obtain ⟨e₁, he₁, -, hbits, hsub, hmem⟩ := happ.bypass
    have hkept := (hup.entry _ e₁ e' he₁ hi).kept (by rw [hbits]; rfl)
    rw [← hkept] at hsub hmem
    exact .inr (.inr ⟨rfl, hsub, hmem⟩)

theorem Updated.origin (hs : SplitOf kdb split) (hl : Listed mp d used kdb mounts listed)
    (hdef : kdb.defaultBackend = some d) (happ : Appointed mounts d ks split appointed)
    (hup : Updated mounts d ks appointed updated) {i : ℕ} {e' : SplitEntry} (hi : updated[i]? = some e')
    (hkey : key ∈ e'.keyset) :
    key ∈ ks ∧ Stays mounts d split key ∨ ∃ e, split[i]? = some e ∧ Fresh mounts d ks e key := by
  obtain ⟨e, he, hsync, hupdated⟩ | ⟨e, he, hsync, hhold⟩ | ⟨-, hsub, hmem⟩ := hup.cases happ hi
  · exact .inr ⟨e, he, hsync, hupdated.belongs hsync key hkey, hupdated.apart hsync key hkey⟩
  · have hks := hhold.sublist.subset hkey
    refine .inl ⟨hks, fun e₁ he₁ hsync₁ hb => ?_⟩
    -- a key belongs to one entry only
    obtain ⟨j, hj⟩ := List.mem_iff_getElem?.mp he₁
    obtain rfl := hs.unique hl hdef he hj ((hhold.mem_iff key hks).mp hkey) hb
    obtain rfl := Option.some.inj (he.symm.trans hj)
    rw [hsync] at hsync₁
    cases hsync₁
  · have hks := hsub.subset hkey
    exact .inl ⟨hks, fun e he _ => (hmem key hks).mp hkey e he⟩

theorem BelongsTo.of_name {key' : Key} (h : BelongsTo mounts d e key) (hP : HasName key P) (hP' : HasName key' P) :
    BelongsTo mounts d e key' := by
  cases h with
  | mounted Q M b hQ hM hb habove hlast hdeepest =>
    obtain rfl := hP.unique hQ
    exact .mounted P M b hP' hM hb habove hlast hdeepest
  | default Q M hQ hM hb hroot hfree =>
    obtain rfl := hP.unique hQ
    exact .default P M hP' hM hb hroot hfree

theorem BelongsTo.of_ident {key' : Key} (h : BelongsTo mounts d e key) (hk' : AtPath key')
    (heq : ident key = ident key') : BelongsTo mounts d e key' := by
  obtain ⟨P, hP⟩ := h.atPath
  obtain ⟨P', hP'⟩ := hk'
  have huname : P.uname = P'.uname := by
    rw [← hP.ukey, ← hP'.ukey]
    exact congrArg Prod.fst heq
  obtain rfl := Path.uname_injective huname
  exact h.of_name hP hP'

theorem Fresh.ne {key' : Key} (h : Fresh mounts d ks e key) (he : e ∈ split) (hks : key' ∈ ks)
    (hstays : Stays mounts d split key') : ident key' ≠ ident key := by
  intro heq
  by_cases hat : AtPath key'
  · exact hstays e he h.sync (h.belongs.of_ident hat heq.symm)
  · exact h.apart key' hks hat heq

theorem Updated.apart (hs : SplitOf kdb split) (hl : Listed mp d used kdb mounts listed)
    (hdef : kdb.defaultBackend = some d) (hks : ValidKeys ks) (happ : Appointed mounts d ks split appointed)
    (hup : Updated mounts d ks appointed updated) : Apart updated := by
  have hvalid : ∀ e' ∈ updated, ValidKeys e'.keyset := by
    intro e' he'
    obtain ⟨i, hi⟩ := List.mem_iff_getElem?.mp he'
    obtain ⟨e, -, hsync, hupdated⟩ | ⟨e, -, -, hhold⟩ | ⟨-, hsub, -⟩ := hup.cases happ hi
    · exact hupdated.valid hsync
    · exact hks.sublist hhold.sublist
    · exact hks.sublist hsub
  refine ⟨hvalid, fun e₁ he₁ e₂ he₂ key hkey key' hkey' heq => ?_⟩
  obtain ⟨i, hi⟩ := List.mem_iff_getElem?.mp he₁
  obtain ⟨j, hj⟩ := List.mem_iff_getElem?.mp he₂
  obtain ⟨hmem, hstays⟩ | ⟨e, he, hfresh⟩ := hup.origin hs hl hdef happ hi hkey <;>
    obtain ⟨hmem', hstays'⟩ | ⟨e', he', hfresh'⟩ := hup.origin hs hl hdef happ hj hkey'
  · exact hks.agree key hmem key' hmem' heq
  · exact absurd heq (hfresh'.ne (List.mem_of_getElem? he') hmem hstays)
  · exact absurd heq.symm (hfresh.ne (List.mem_of_getElem? he) hmem' hstays')
  · -- both are new keys of the same entry
    have hsame : i = j :=
      hs.unique hl hdef he he' (hfresh.belongs.of_ident hfresh'.belongs.atPath heq) hfresh'.belongs
    rw [← hsame, hi] at hj
    rw [← Option.some.inj hj] at hkey'
    exact (hvalid e₁ he₁).agree key hkey key' hkey' heq

theorem Updated.kept (happ : Appointed mounts d ks split appointed) (hup : Updated mounts d ks appointed updated)
    (hkey : key ∈ ks) (hstays : Stays mounts d split key) : ∃ e' ∈ updated, key ∈ e'.keyset := by
  have hsome : ∀ i < split.length + 1, ∃ e', updated[i]? = some e' := fun i hi => by
    rw [← happ.length, ← hup.length] at hi
    exact ⟨_, List.getElem?_eq_getElem hi⟩
  by_cases hany : ∃ e ∈ split, BelongsTo mounts d e key
  · obtain ⟨e, he, hb⟩ := hany
    obtain ⟨i, hi⟩ := List.mem_iff_getElem?.mp he
    have hlt : i < split.length := (List.getElem?_eq_some_iff.mp hi).1
    obtain ⟨e', he'⟩ := hsome i (by omega)
    obtain ⟨e₁, he₁, hsync, -⟩ | ⟨e₁, he₁, -, hhold⟩ | ⟨hlen, -⟩ := hup.cases happ he'
    · rw [← Option.some.inj (hi.symm.trans he₁)] at hsync
      exact absurd hb (hstays e he hsync)
    · rw [← Option.some.inj (hi.symm.trans he₁)] at hhold
      exact ⟨e', List.mem_of_getElem? he', (hhold.mem_iff key hkey).mpr hb⟩
    · omega
  · obtain ⟨e', he'⟩ := hsome split.length (Nat.lt_succ_self _)
    obtain ⟨e₁, he₁, -⟩ | ⟨e₁, he₁, -⟩ | ⟨-, -, hbypass⟩ := hup.cases happ he'
    · exact absurd (List.getElem?_eq_some_iff.mp he₁).1 (lt_irrefl _)
    · exact absurd (List.getElem?_eq_some_iff.mp he₁).1 (lt_irrefl _)
    · exact ⟨e', List.mem_of_getElem? he', (hbypass key hkey).mpr fun e he hb => hany ⟨e, he, hb⟩⟩

/-- **Merging.** -/
theorem splitMerge_merged (hs : SplitOf kdb split) (hl : Listed mp d used kdb mounts listed)
    (hdef : kdb.defaultBackend = some d) (hks : ValidKeys ks) (happ : Appointed mounts d ks split appointed)
    (hup : Updated mounts d ks appointed updated) : Merged mounts d ks split updated (splitMerge updated []).2 := by
  obtain ⟨hmerged, hmem⟩ := splitMerge_spec (hup.apart hs hl hdef hks happ) validKeys_nil
    fun _ _ _ hkey => absurd hkey List.not_mem_nil
  refine ⟨hmerged, fun key => (hmem key).trans ?_⟩
  rw [or_iff_right List.not_mem_nil]
  constructor
  · rintro ⟨e', he', hkey⟩
    obtain ⟨i, hi⟩ := List.mem_iff_getElem?.mp he'
    obtain hold | ⟨e, he, hfresh⟩ := hup.origin hs hl hdef happ hi hkey
    · exact .inl hold
    · exact .inr ⟨i, e, e', he, hi, hfresh.sync, hkey⟩
  · rintro (⟨hkey, hstays⟩ | ⟨i, e, e', -, hi, -, hkey⟩)
    · exact hup.kept happ hkey hstays
    · exact ⟨e', List.mem_of_getElem? hi, hkey⟩

/-! ### Splits that were built up -/

theorem splitBuildup_of (hl : Listed mp d used kdb mounts listed) {parentKey : Option Key}
    (hP : ParentAt parentKey P) :
    SplitOf kdb (splitBuildup [] kdb parentKey).2 ∧
      ∀ e ∈ (splitBuildup [] kdb parentKey).2, ∃ e₀ ∈ kdb.split, e = e₀.copy := by
  have hcopies : ∀ e ∈ (splitBuildup [] kdb parentKey).2, ∃ e₀ ∈ kdb.split, e = e₀.copy := by
    intro e he
    obtain ⟨-, hout⟩ | ⟨-, test, -, hout⟩ := splitBuildup_cases hl hP
    · rw [hout] at he
      obtain ⟨e₀, he₀, rfl⟩ := List.mem_map.mp he
      exact ⟨e₀, he₀, rfl⟩
    · rw [hout] at he
      obtain ⟨Q, -, he⟩ := List.mem_flatMap.mp he
      obtain ⟨e₀, he₀, rfl⟩ := List.mem_map.mp he
      exact ⟨e₀, (List.mem_filter.mp he₀).1, rfl⟩
  refine ⟨⟨splitBuildup_nodup hl hP, fun e he => ?_⟩, hcopies⟩
  obtain ⟨e₀, he₀, rfl⟩ := hcopies e he
  exact ⟨e₀, he₀, rfl, fun M hM => hM.dup, rfl⟩

theorem copy_empty (hf : Flags mp d kdb) {e₀ : SplitEntry} (he₀ : e₀ ∈ kdb.split) :
    e₀.copy.keyset = [] ∧ test_bit e₀.copy.syncbits SPLIT_FLAG_SYNC = false := by
  refine ⟨rfl, ?_⟩
  change test_bit e₀.syncbits SPLIT_FLAG_SYNC = false
  obtain ⟨hbits, -⟩ | ⟨hbits, -⟩ := (hf.flagged e₀ he₀).bits <;> rw [hbits] <;> rfl

theorem SplitOf.checked (hs : SplitOf kdb split) (hl : Listed mp d used kdb mounts listed) {checked : Split}
    (hc : List.Forall₂ CheckedEntry split checked) :
    SplitOf kdb checked ∧ ∀ e ∈ checked, e.keyset = [] := by
  have hpairs : checked.map SplitEntry.pair = split.map SplitEntry.pair ∧
      ∀ e' ∈ checked, CopyOf kdb e' ∧ e'.keyset = [] := by
    have hcopies := hs.copies
    clear hs
    induction hc with
    | nil => exact ⟨rfl, fun _ h => absurd h List.not_mem_nil⟩
    | @cons e e' split checked hentry _ ih =>
      obtain ⟨hpair, hmem⟩ := ih fun e he => hcopies e (List.mem_cons_of_mem _ he)
      have he := hcopies e List.mem_cons_self
      obtain ⟨l, -, -, hM⟩ := he.place hl
      constructor
      · rw [List.map_cons, List.map_cons, hpair, SplitEntry.pair, SplitEntry.pair, hentry.handle,
          keyGetNamespace_root hM, keyGetNamespace_root (hentry.parent _ hM)]
      · intro e₁ he₁
        obtain rfl | he₁ := List.mem_cons.mp he₁
        · obtain ⟨e₀, he₀, hhandle, hparent, hbit⟩ := he.entry
          exact ⟨⟨e₀, he₀, hentry.handle.trans hhandle, fun M hM => hentry.parent M (hparent M hM),
            hentry.cascading.trans hbit⟩, hentry.keyset⟩
        · exact hmem e₁ he₁
  exact ⟨⟨hpairs.1 ▸ hs.once, fun e he => (hpairs.2 e he).1⟩, fun e he => (hpairs.2 e he).2⟩

end Places

/-- `system/b`, as a member of a key set. -/
def systemBKey : Key := { keyNewName (str "system/b") with roName := true }

end Elektra
