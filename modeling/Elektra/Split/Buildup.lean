import Elektra.Split.Model
import Elektra.Mount.Route

/-!
# What a split is built up of

The handle lists every backend at the places where it is mounted, and the default backend at the
roots that are its own. A parent key asks for the backends of the keys at or below it. A place that
is mounted twice is listed twice, but all its keys belong to the backend that came last; and the
default backend may own keys of a root at which it is not listed.

* `Listed`, **`Opened.listed`**: what the list of a handle holds after it was opened;
* `KDB.owner`, `Holds`: whom the keys at and below a path belong to, **`holds_iff`**;
* `BuildsUp`, `Covered`, **`splitBuildup_exact`**.
-/

namespace Elektra

/-! ## Names of mountpoints -/

theorem levels_join_separator {ps : List Str} (h : ∀ p ∈ ps, IsLevel p ∧ Closed p) :
    levels (join ps ++ [pathSeparator]) = ps := by
  induction ps with
  | nil => rfl
  | cons p ps ih =>
    obtain ⟨hp, hc⟩ := h p List.mem_cons_self
    have htail : ∃ t, join ps ++ [pathSeparator] = pathSeparator :: t := by
      obtain hj | ⟨t, hj⟩ := join_cases ps <;> rw [hj] <;> exact ⟨_, rfl⟩
    rw [join_cons, List.cons_append, List.cons_append, levels_separator, List.append_assoc,
      levels_cons hp (Or.inr ⟨hc, htail⟩), ih fun q hq => h q (List.mem_cons_of_mem _ hq)]

theorem closed_concat (s : Str) : Closed (s ++ [pathSeparator]) := by
  rw [Closed, escAfter_append, escAfter, if_neg separator_ne_escape]
  simp

theorem not_allBackslashes_concat (s : Str) : ¬ AllBackslashes (s ++ [pathSeparator]) := by
  intro h
  have hmem : pathSeparator ∈ s ++ [pathSeparator] := by simp
  rw [h] at hmem
  exact absurd (List.eq_of_mem_replicate hmem) separator_ne_escape

theorem isPart_escapes {ps : List CString} {p : Str} (hp : p ∈ escapes ps) : IsPart p :=
  Path.isPart_of_mem (P := ⟨.cascading, ps⟩) hp

theorem pathReduce_escapes (ps : List CString) : pathReduce [] (escapes ps) = escapes ps := by
  rw [pathReduce_parts _ _ fun q hq => isPart_escapes hq, List.nil_append]

theorem keyNewName_separator {m : Namespace} {ps : List CString} (hps : ps ≠ []) :
    HasName (keyNewName (mountName ⟨.ns m, ps⟩).1) ⟨.ns m, ps⟩ := by
  have hparts : ∀ p ∈ escapes ps, IsLevel p ∧ Closed p := fun _ hp =>
    ⟨(isPart_escapes hp).toIsLevel, (isPart_escapes hp).closed⟩
  obtain ⟨p, qs, rfl⟩ := List.exists_cons_of_ne_nil hps
  have hname : (mountName ⟨.ns m, p :: qs⟩).1 =
      m.name ++ pathSeparator :: (elektraEscapeKeyNamePart p.1 ++ join (escapes qs) ++ [pathSeparator]) := by
    change (Path.mk (.ns m) (p :: qs)).name ++ [pathSeparator] = _
    rw [Path.name_ns]
    simp [escapes]
  have harg : pathArgument (mountName ⟨.ns m, p :: qs⟩).1 =
      elektraEscapeKeyNamePart p.1 ++ join (escapes qs) ++ [pathSeparator] := by
    rw [hname, pathArgument, if_neg (m.head_ne _), levelSize_root]
    simp
  have hjoin : pathSeparator :: (elektraEscapeKeyNamePart p.1 ++ join (escapes qs) ++ [pathSeparator]) =
      join (escapes (p :: qs)) ++ [pathSeparator] := by
    simp [escapes]
  have hclosed : Closed (elektraEscapeKeyNamePart p.1 ++ join (escapes qs) ++ [pathSeparator]) := by
    have h := closed_concat (join (escapes (p :: qs)))
    rwa [← hjoin, Closed, escAfter, if_neg separator_ne_escape] at h
  have hlevels : levels (elektraEscapeKeyNamePart p.1 ++ join (escapes qs) ++ [pathSeparator]) =
      escapes (p :: qs) := by
    rw [← levels_separator, hjoin, levels_join_separator hparts]
  have hvalid := (validate_iff (List.append_ne_nil_of_right_ne_nil _ (List.cons_ne_nil _ _))
    (not_allBackslashes_concat (elektraEscapeKeyNamePart p.1 ++ join (escapes qs)))).mpr hclosed
  have hroot : (keyGetNameNamespace (some (mountName ⟨.ns m, p :: qs⟩).1)).root = some (.ns m) := by
    rw [hname]
    cases m <;> rfl
  obtain ⟨-, h⟩ | ⟨-, -, -, Q, hQ, hr, he⟩ := @keySetName_spec keyNew rfl
    (mountName ⟨.ns m, p :: qs⟩).1 (by rw [hname]; simp) (mountName _).2
    (by rw [harg]; exact fun h => not_allBackslashes_concat _ h.1)
  · rw [harg, hroot, hvalid] at h
    simp at h
  · rw [harg, hlevels, pathReduce_escapes] at he
    rw [hroot] at hr
    obtain rfl : Path.mk (.ns m) (p :: qs) = Q := Path.ext_escaped (Option.some.inj hr) he.symm
    exact hQ

theorem splitNamespaceKey_hasName {parentKey : Key} {ps : List CString} (ns : Namespace)
    (h : HasName parentKey ⟨.cascading, ps⟩) (hps : ps ≠ []) :
    HasName (splitNamespaceKey ns parentKey) ⟨.ns ns, ps⟩ := by
  have hn : keyName parentKey = join (escapes ps) := by
    rw [keyName, h.key, Option.getD_some, Path.name_cascading hps]
  have hparts : ∀ p ∈ escapes ps, IsLevel p ∧ Closed p := fun _ hp =>
    ⟨(isPart_escapes hp).toIsLevel, (isPart_escapes hp).closed⟩
  have hroot : HasName (keyNewName ns.name) ⟨.ns ns, []⟩ := by cases ns <;> exact ⟨rfl, rfl, rfl, rfl⟩
  have hne : join (escapes ps) ≠ [] := by
    obtain ⟨p, qs, rfl⟩ := List.exists_cons_of_ne_nil hps
    simp [escapes]
  have hnul : 0 ∉ join (escapes ps) := by
    rw [← Path.name_cascading hps]
    exact Path.nul_name _
  have hall : ¬ AllBackslashes (join (escapes ps)) := by
    intro h
    obtain ⟨p, qs, rfl⟩ := List.exists_cons_of_ne_nil hps
    have hmem : pathSeparator ∈ join (escapes (p :: qs)) := by simp [escapes]
    rw [h] at hmem
    exact absurd (List.eq_of_mem_replicate hmem) separator_ne_escape
  have hvalid := (validate_iff hne hall).mpr (closed_join fun q hq => (hparts q hq).2)
  rw [splitNamespaceKey, hn]
  obtain ⟨-, h⟩ | ⟨-, -, -, Q, hQ, hr, he⟩ := keyAddName_spec hroot.key hroot.keySize
    (by cases ns <;> rfl) hne hnul fun h => hall h.1
  · exact absurd hvalid h
  · rw [levels_join hparts, Path.escaped_nil, pathReduce_escapes] at he
    obtain rfl : Path.mk (.ns ns) ps = Q := Path.ext_escaped hr.symm he.symm
    exact hQ

/-! ## What the handle lists -/

/-- What an entry of a split is for. -/
def SplitEntry.place (e : SplitEntry) : Option BackendRef × Key := (e.handle, e.parent)

/-- The entries of a split, each by its place and its backend. -/
def Lists (split : Split) (listed : List (Path × BackendRef)) : Prop :=
  List.Forall₂ (fun p l => p.1 = some l.2 ∧ HasName p.2 l.1) (split.map SplitEntry.place) listed

section Lists

variable {W : Type} {kdb : KDB W} {split : Split} {listed : List (Path × BackendRef)} {b : BackendRef}
  {mp : BackendRef → Option Path}

theorem Lists.append (h : Lists split listed) {M : Path} {parent : Key} (hM : HasName parent M)
    (bits : ℕ) : Lists (splitAppend split (some b) parent bits) (listed ++ [(M, b)]) := by
  rw [Lists, splitAppend, List.map_append]
  exact List.rel_append h (.cons ⟨rfl, hM⟩ .nil)

theorem Lists.foldl_at {ps : List CString} {name : Namespace → Str} {parent : Namespace → Key}
    (hM : ∀ ns, HasName (parent ns) ⟨.ns ns, ps⟩) (bits : ℕ) (l : List Namespace) {kdb : KDB W}
    {listed : List (Path × BackendRef)} (h : Lists kdb.split listed) :
    Lists (l.foldl (fun kdb ns => mountAt kdb b (name ns) (parent ns) bits) kdb).split
      (listed ++ (l.map fun ns => Path.mk (.ns ns) ps).map (·, b)) := by
  induction l generalizing kdb listed with
  | nil => simpa using h
  | cons ns l ih =>
    have happ : Lists (mountAt kdb b (name ns) (parent ns) bits).split
        (listed ++ [(⟨.ns ns, ps⟩, b)]) := h.append (hM ns) bits
    have h' := ih happ
    rwa [List.append_assoc] at h'

theorem HasName.data {key : Key} {P : Path} (h : HasName key P) (value : Option Str) :
    HasName { key with data := value } P := ⟨h.key, h.keySize, h.ukey, h.keyUSize⟩

theorem HasName.dup {key : Key} {P : Path} (h : HasName key P) : HasName (keyDup key) P :=
  ⟨h.key, h.keySize, h.ukey, h.keyUSize⟩

theorem keyNewName_root (ns : Namespace) : HasName (keyNewName ns.name) ⟨.ns ns, []⟩ := by
  cases ns <;> exact ⟨rfl, rfl, rfl, rfl⟩

@[simp] theorem setRefcounter_split (kdb : KDB W) (b : BackendRef) (n : ℕ) :
    (kdb.setRefcounter b n).split = kdb.split := rfl

/-- **A backend is listed at the places of its mountpoint.** -/
theorem Lists.backend (h : Lists kdb.split listed) (hb : HasMountpoint (kdb.backend b) (mp b)) :
    Lists (mountBackend kdb b).split (listed ++ placesOf mp b) := by
  obtain ⟨key, hkey, hname⟩ := hb
  rw [mountBackend, hkey, Option.getD_some, placesOf]
  cases hmp : mp b with
  | none =>
    rw [hmp] at hname
    have hn : keyName key = [] := hname
    simp only [hn, if_true]
    exact h.append (M := systemElektra) ⟨rfl, rfl, rfl, rfl⟩ 0
  | some M =>
    rw [hmp] at hname
    obtain ⟨r, ps⟩ := M
    have hM : HasName key ⟨r, ps⟩ := hname
    have hn : keyName key = (Path.mk r ps).name := by rw [keyName, hM.key]; rfl
    have hne : keyName key ≠ [] := hn ▸ Path.name_ne_nil _
    cases r with
    | cascading =>
      cases ps with
      | nil =>
        have hroot : keyName key = [pathSeparator] := hn
        simp only [hroot, List.cons_ne_self, if_false, if_true]
        rw [setRefcounter_split]
        exact Lists.foldl_at (fun ns => (keyNewName_root ns).data _) 2 rootNamespaces h
      | cons p ps =>
        have hroot : keyName key ≠ [pathSeparator] := by
          rw [hn, Ne, Path.name_eq_slash, Path.stem_eq_nil]
          exact fun h => List.cons_ne_nil p ps h.2
        have hhead : (keyName key).head? = some pathSeparator := by
          rw [hn, Path.head_name]
        simp only [hne, hroot, hhead, if_false, if_true]
        rw [setRefcounter_split]
        refine Lists.foldl_at (fun ns => ?_) 2 cascadingNamespaces h
        have hplace : (mountName ⟨.ns ns, p :: ps⟩).1 = ns.name ++ keyName key ++ [pathSeparator] := by
          change (Path.mk (.ns ns) (p :: ps)).name ++ _ = _
          rw [Path.name_ns, hn, Path.name_cascading (List.cons_ne_nil p ps)]
        rw [← hplace]
        exact (keyNewName_separator (List.cons_ne_nil p ps)).data _
    | ns m =>
      have hhead : (keyName key).head? ≠ some pathSeparator := by
        rw [hn, Ne, Path.head_name]
        exact Root.ns_ne m
      have hroot : keyName key ≠ [pathSeparator] := fun he => hhead (he ▸ rfl)
      simp only [hne, hroot, hhead, if_false]
      exact h.append hM.dup 0

theorem Lists.shared (h : Lists kdb.split listed) : Lists (mountShared kdb b).split listed := by
  have hplace : (mountShared kdb b).split.map SplitEntry.place = kdb.split.map SplitEntry.place := by
    change (kdb.split.dropLast ++ kdb.split.getLast?.toList.map
      fun e : SplitEntry => { e with syncbits := 2 }).map _ = _
    obtain h | ⟨split, e, h⟩ := List.eq_nil_or_concat kdb.split
    · rw [h]; rfl
    · rw [h]
      simp [SplitEntry.place]
  rw [Lists, hplace]
  exact h

/-- What opening keeps: `used` are the backends that were mounted, `d` the default one. -/
structure Listed (mp : BackendRef → Option Path) (d : BackendRef) (used : List BackendRef) (kdb : KDB W)
    (mounts listed : List (Path × BackendRef)) : Prop where
  state : MountState mp kdb mounts
  lists : Lists kdb.split listed
  places : ∀ e ∈ mounts, e.1 ∈ mountPlaces (mp e.2)
  mounts_listed : ∀ e ∈ mounts, e ∈ listed
  listed_mounts : ∀ e ∈ listed, e ∈ mounts ∨ e.2 = d ∧ ∃ ns, e.1 = ⟨.ns ns, []⟩
  distinct : (listed.map fun e => (e.2, e.1.root)).Nodup
  mem_used : ∀ e ∈ listed, e.2 ∈ used

variable {d : BackendRef} {used : List BackendRef} {mounts : List (Path × BackendRef)}

theorem Listed.mono (h : Listed mp d used kdb mounts listed) {used' : List BackendRef}
    (hu : used ⊆ used') : Listed mp d used' kdb mounts listed :=
  { h with mem_used := fun e he => hu (h.mem_used e he) }

theorem nodup_mountPlaces (mp : Option Path) : ((mountPlaces mp).map Path.root).Nodup := by
  rcases mp with _ | ⟨_ | m, _ | ⟨p, ps⟩⟩
  · exact List.nodup_singleton _
  · change [Root.ns .spec, .ns .dir, .ns .user, .ns .system].Nodup
    decide
  · change [Root.ns .dir, .ns .user, .ns .system].Nodup
    decide
  · exact List.nodup_singleton _
  · exact List.nodup_singleton _

theorem mem_placesOf {e : Path × BackendRef} :
    e ∈ placesOf mp b ↔ e.1 ∈ mountPlaces (mp b) ∧ e.2 = b := by
  simp only [placesOf, List.mem_map]
  constructor
  · rintro ⟨M, hM, rfl⟩
    exact ⟨hM, rfl⟩
  · rintro ⟨hM, rfl⟩
    exact ⟨e.1, hM, rfl⟩

/-- **Mounting a backend at namespaces in which it is not listed.** -/
theorem Listed.mount (h : Listed mp d used kdb mounts listed) (hu : b ∈ used)
    (hb : ∀ e ∈ listed, e.2 = b → ∀ M ∈ mountPlaces (mp b), e.1.root ≠ M.root) :
    Listed mp d used (mountBackend kdb b) (mounts ++ placesOf mp b) (listed ++ placesOf mp b) where
  state := h.state.mount b
  lists := h.lists.backend (h.state.mountpoints b)
  places := by
    intro e he
    obtain he | he := List.mem_append.mp he
    · exact h.places e he
    · obtain ⟨hM, hb'⟩ := mem_placesOf.mp he
      rw [hb']
      exact hM
  mounts_listed := by
    intro e he
    rw [List.mem_append] at he ⊢
    exact he.imp_left (h.mounts_listed e)
  listed_mounts := by
    intro e he
    rw [List.mem_append] at he ⊢
    obtain he | he := he
    · exact (h.listed_mounts e he).imp_left Or.inl
    · exact Or.inl (Or.inr he)
  distinct := by
    rw [List.map_append, List.nodup_append]
    refine ⟨h.distinct, ?_, ?_⟩
    · have hinj : Function.Injective fun r : Root => (b, r) := fun _ _ he => congrArg Prod.snd he
      have hmap := (nodup_mountPlaces (mp b)).map hinj
      rw [List.map_map] at hmap
      rw [placesOf, List.map_map]
      exact hmap
    · intro p hp q hq hpq
      obtain ⟨e, he, rfl⟩ := List.mem_map.mp hp
      obtain ⟨e', he', rfl⟩ := List.mem_map.mp hq
      obtain ⟨hM, hb'⟩ := mem_placesOf.mp he'
      obtain ⟨hback, hroot⟩ := Prod.mk.inj hpq
      exact hb e he (hback.trans hb') e'.1 hM hroot
  mem_used := by
    intro e he
    obtain he | he := List.mem_append.mp he
    · exact h.mem_used e he
    · rw [(mem_placesOf.mp he).2]
      exact hu

theorem Listed.mount_new (h : Listed mp d used kdb mounts listed) (hb : b ∉ used) :
    Listed mp d (used ++ [b]) (mountBackend kdb b) (mounts ++ placesOf mp b)
      (listed ++ placesOf mp b) :=
  (h.mono (List.subset_append_left used [b])).mount (by simp) fun e he heb =>
    absurd (heb ▸ h.mem_used e he) hb

theorem Listed.shared (h : Listed mp d used kdb mounts listed) (b : BackendRef) :
    Listed mp d used (mountShared kdb b) mounts listed :=
  { h with state := h.state.shared b, lists := h.lists.shared }

theorem Listed.own_root (h : Listed mp d used kdb mounts listed) (hu : d ∈ used) {ns : Namespace}
    (hns : ∀ e ∈ listed, e.2 = d → e.1.root ≠ .ns ns) :
    Listed mp d used
      { kdb with split := splitAppend kdb.split (some d) (keyNewValue ns.name (str "default")) 2 } mounts
      (listed ++ [(⟨.ns ns, []⟩, d)]) where
  state := ⟨⟨h.state.mounted.trie, h.state.mounted.root⟩, h.state.mountpoints⟩
  lists := h.lists.append ((keyNewName_root ns).data _) 2
  places := h.places
  mounts_listed := fun e he => List.mem_append_left _ (h.mounts_listed e he)
  listed_mounts := by
    intro e he
    obtain he | he := List.mem_append.mp he
    · exact h.listed_mounts e he
    · rw [List.mem_singleton.mp he]
      exact Or.inr ⟨rfl, ns, rfl⟩
  distinct := by
    rw [List.map_append, List.nodup_append]
    refine ⟨h.distinct, List.nodup_singleton _, ?_⟩
    intro p hp q hq hpq
    obtain ⟨e, he, rfl⟩ := List.mem_map.mp hp
    rw [List.map_singleton, List.mem_singleton] at hq
    obtain ⟨hback, hroot⟩ := Prod.mk.inj (hpq.trans hq)
    exact hns e he hback hroot
  mem_used := by
    intro e he
    obtain he | he := List.mem_append.mp he
    · exact h.mem_used e he
    · rw [List.mem_singleton.mp he]
      exact hu

/-- **A round of `mountDefault`.** -/
theorem Listed.root (h : Listed mp d used kdb mounts listed) (hdef : kdb.defaultBackend = some d)
    (hu : d ∈ used) (ns : Namespace) (hns : ∀ e ∈ listed, e.2 = d → e.1.root ≠ .ns ns) :
    ∃ listed', Listed mp d used (mountDefaultRoot kdb ns) mounts listed' ∧
      ∀ e ∈ listed', e ∈ listed ∨ e.1.root = .ns ns := by
  unfold mountDefaultRoot
  dsimp only
  split_ifs with hne
  · exact ⟨listed, h, fun e => Or.inl⟩
  · rw [not_not] at hne
    rw [hne.trans hdef]
    refine ⟨_, h.own_root hu hns, fun e he => ?_⟩
    refine (List.mem_append.mp he).imp_right fun he => ?_
    rw [List.mem_singleton.mp he]

theorem Listed.roots (h : Listed mp d used kdb mounts listed) (hdef : kdb.defaultBackend = some d)
    (hu : d ∈ used) (hd : ∀ e ∈ listed, e.2 ≠ d) :
    ∃ listed', Listed mp d used
        (mountDefaultRoot (mountDefaultRoot (mountDefaultRoot kdb .spec) .dir) .user) mounts listed' ∧
      ∀ e ∈ listed', e.2 = d → e.1.root ≠ .ns .system := by
  obtain ⟨-, hdef1, -⟩ := mountDefaultRoot_eq kdb .spec
  obtain ⟨-, hdef2, -⟩ := mountDefaultRoot_eq (mountDefaultRoot kdb .spec) .dir
  obtain ⟨l1, h1, hl1⟩ := h.root hdef hu .spec fun e he heb => absurd heb (hd e he)
  have hroot1 : ∀ e ∈ l1, e.2 = d → e.1.root = .ns .spec := fun e he heb =>
    (hl1 e he).resolve_left fun he => hd e he heb
  obtain ⟨l2, h2, hl2⟩ := h1.root (hdef1.trans hdef) hu .dir fun e he heb => by
    rw [hroot1 e he heb]
    nofun
  have hroot2 : ∀ e ∈ l2, e.2 = d → e.1.root = .ns .spec ∨ e.1.root = .ns .dir := fun e he heb =>
    (hl2 e he).imp_left fun he => hroot1 e he heb
  obtain ⟨l3, h3, hl3⟩ := h2.root (hdef2.trans (hdef1.trans hdef)) hu .user fun e he heb => by
    obtain hr | hr := hroot2 e he heb <;> rw [hr] <;> nofun
  refine ⟨l3, h3, fun e he heb => ?_⟩
  obtain he | hr := hl3 e he
  · obtain hr | hr := hroot2 e he heb <;> rw [hr] <;> nofun
  · rw [hr]
    nofun

theorem mountBackend_default (kdb : KDB W) (b : BackendRef) :
    (mountBackend kdb b).defaultBackend = kdb.defaultBackend := (mountBackend_frame kdb b).2

theorem Listed.default (h : Listed mp d used kdb mounts listed) (hd : d ∉ used) {i : Option BackendRef}
    (hi : ∀ b ∈ i, b ∉ used ∧ b ≠ d) (hmp : mp d = none) (inFallback : Bool) :
    ∃ listed', Listed mp d (used ++ d :: i.toList) (mountDefault kdb (some d) i inFallback).2
        (mounts ++ (MountCall.default (some d) i inFallback).mounts mp kdb) listed' ∧
      (mountDefault kdb (some d) i inFallback).2.defaultBackend = some d := by
  have hused : used ++ [d] ⊆ used ++ d :: i.toList := by
    intro b hb
    simp only [List.mem_append, List.mem_cons, List.not_mem_nil] at hb ⊢
    tauto
  have hstart : ∀ i', Listed mp d (used ++ [d])
      { kdb with defaultBackend := some d, initBackend := i' } mounts listed := fun i' =>
    { h.mono (List.subset_append_left used [d]) with
      state := ⟨⟨h.state.mounted.trie, h.state.mounted.root⟩, h.state.mountpoints⟩
      lists := h.lists }
  have hnew : ∀ e ∈ listed, e.2 ≠ d := fun e he heb => hd (heb ▸ h.mem_used e he)
  have hroots := fun i' => (hstart i').roots rfl (by simp) hnew
  have hrounds := fun i' => (hstart i').state.roots
  cases inFallback with
  | true =>
    obtain ⟨l, hl, hsys⟩ := hroots none
    obtain ⟨-, ht, hdef, -⟩ := hrounds none
    have hback := mountGetBackend_congr ht hdef (some (keyNewName KDB_SYSTEM_ELEKTRA))
    have hsame : mountGetBackend { kdb with defaultBackend := some d, initBackend := none }
        (some (keyNewName KDB_SYSTEM_ELEKTRA)) =
        mountGetBackend { kdb with defaultBackend := some d } (some (keyNewName KDB_SYSTEM_ELEKTRA)) :=
      mountGetBackend_congr rfl rfl _
    simp only [mountDefault, false_and, if_false, if_true, mountDefaultSystem, not_true_eq_false,
      MountCall.mounts]
    rw [hback, hsame]
    generalize mountDefaultRoot _ .user = k at hl hdef ⊢
    by_cases hown : mountGetBackend { kdb with defaultBackend := some d }
        (some (keyNewName KDB_SYSTEM_ELEKTRA)) = some d
    · rw [hown, if_neg (not_not.mpr hdef.symm), if_neg (not_not.mpr rfl), List.append_nil]
      exact ⟨_, (hl.own_root (by simp) hsys).mono hused, hdef⟩
    · -- `system/elektra` is another one's: the default backend is mounted there
      have hne : mountGetBackend { kdb with defaultBackend := some d }
          (some (keyNewName KDB_SYSTEM_ELEKTRA)) ≠ k.defaultBackend := fun h => hown (h.trans hdef)
      rw [if_pos hne, if_pos hown]
      refine ⟨_, ((hl.mount (by simp) ?_).shared d).mono hused, (mountBackend_default _ d).trans hdef⟩
      intro e he heb M hM
      rw [hmp, mountPlaces, List.mem_singleton] at hM
      rw [hM]
      exact hsys e he heb
  | false =>
    cases i with
    | none =>
      refine ⟨listed, ?_, ?_⟩
      · simpa [mountDefault, MountCall.mounts] using (hstart none).mono hused
      · simp [mountDefault]
    | some i =>
      obtain ⟨l, hl, hsys⟩ := hroots (some i)
      obtain ⟨-, -, hdef, hinit⟩ := hrounds (some i)
      obtain ⟨hiu, hid⟩ := hi i rfl
      simp only [mountDefault, Bool.false_eq_true, if_false, mountDefaultSystem, not_false_eq_true,
        true_and, reduceCtorEq, hinit, MountCall.mounts, Option.toList_some, List.flatMap_singleton]
      have hi' : i ∉ used ++ [d] := by simp [hiu, hid]
      have hmount := (hl.mount_new hi').shared i
      have hdef' : (mountShared (mountBackend (mountDefaultRoot (mountDefaultRoot (mountDefaultRoot
          { kdb with defaultBackend := some d, initBackend := some i } .spec) .dir) .user) i) i).defaultBackend =
          some d := (mountBackend_default _ i).trans hdef
      obtain ⟨l', hl', -⟩ := hmount.root hdef' (by simp) .system fun e he heb => by
        obtain he | he := List.mem_append.mp he
        · exact hsys e he heb
        · exact absurd ((mem_placesOf.mp he).2.symm.trans heb) hid
      refine ⟨l', by simpa using hl', ?_⟩
      rw [(mountDefaultRoot_eq _ .system).2.1, hdef']

theorem Listed.foldl (bs : List BackendRef) {kdb : KDB W} {used : List BackendRef}
    {mounts listed : List (Path × BackendRef)} (h : Listed mp d used kdb mounts listed)
    (hbs : (used ++ bs).Nodup) :
    Listed mp d (used ++ bs) (bs.foldl mountBackend kdb) (mounts ++ bs.flatMap (placesOf mp))
      (listed ++ bs.flatMap (placesOf mp)) := by
  induction bs generalizing kdb used mounts listed with
  | nil => simpa using h
  | cons b bs ih =>
    have hb : b ∉ used := fun hb => (List.nodup_append.mp hbs).2.2 b hb b List.mem_cons_self rfl
    have h' := ih (h.mount_new hb) (by simpa using hbs)
    simpa using h'

theorem foldl_mountBackend_default (bs : List BackendRef) (kdb : KDB W) :
    (bs.foldl mountBackend kdb).defaultBackend = kdb.defaultBackend := by
  induction bs generalizing kdb with
  | nil => rfl
  | cons b bs ih => rw [List.foldl_cons, ih, mountBackend_default]

end Lists

/-! ## Opening a handle -/

/-- What `kdbOpen` mounts: the configured backends, the default ones, and those for information. -/
def kdbMount {W : Type} (kdb : KDB W) (backends : List (Option BackendRef)) (d : BackendRef)
    (i : Option BackendRef) (inFallback : Bool) (later : List BackendRef) : KDB W :=
  runMounts kdb (.open backends :: .default (some d) i inFallback :: later.map .backend)

/-- The places that `kdbOpen` mounts at. -/
def kdbMounts {W : Type} (mp : BackendRef → Option Path) (kdb : KDB W) (backends : List (Option BackendRef))
    (d : BackendRef) (i : Option BackendRef) (inFallback : Bool) (later : List BackendRef) :
    List (Path × BackendRef) :=
  allMounts mp kdb (.open backends :: .default (some d) i inFallback :: later.map .backend)

/-- A new handle and backends that were opened for it. -/
structure Openable {W : Type} (mp : BackendRef → Option Path) (kdb : KDB W)
    (backends : List (Option BackendRef)) (d : BackendRef) (i : Option BackendRef)
    (later : List BackendRef) : Prop where
  trie : kdb.trie = .null
  split : kdb.split = []
  mountpoints : HasMountpoints kdb mp
  /-- The mountpoint of the default backend has an empty name. -/
  default : mp d = none
  distinct : (backends.reduceOption ++ d :: i.toList ++ later).Nodup

/-- **The handle lists what was mounted, and roots of the default backend.** -/
theorem Openable.listed {W : Type} {mp : BackendRef → Option Path} {kdb : KDB W}
    {backends : List (Option BackendRef)} {d : BackendRef} {i : Option BackendRef}
    {later : List BackendRef} (h : Openable mp kdb backends d i later) (inFallback : Bool) :
    ∃ listed, Listed mp d (backends.reduceOption ++ d :: i.toList ++ later)
        (kdbMount kdb backends d i inFallback later) (kdbMounts mp kdb backends d i inFallback later) listed ∧
      (kdbMount kdb backends d i inFallback later).defaultBackend = some d := by
  have hstart : Listed mp d [] kdb [] [] :=
    { state := ⟨⟨h.trie, nofun⟩, h.mountpoints⟩
      lists := by rw [Lists, h.split]; exact .nil
      places := nofun
      mounts_listed := nofun
      listed_mounts := nofun
      distinct := List.nodup_nil
      mem_used := nofun }
  have hdistinct := h.distinct
  rw [List.append_assoc] at hdistinct
  obtain ⟨hbs, hrest, hdisj⟩ := List.nodup_append.mp hdistinct
  have hopen := hstart.foldl backends.reduceOption hbs
  rw [List.nil_append, ← mountOpen_eq h.mountpoints] at hopen
  have hd : d ∉ backends.reduceOption := fun hd => hdisj d hd d (by simp) rfl
  have hi : ∀ b ∈ i, b ∉ backends.reduceOption ∧ b ≠ d := by
    rintro b rfl
    refine ⟨fun hb => hdisj b hb b (by simp) rfl, ?_⟩
    rintro rfl
    simp at hrest
  obtain ⟨listed, hl, hdef⟩ := hopen.default hd hi h.default inFallback
  have hrun := hl.foldl later h.distinct
  have heq : kdbMount kdb backends d i inFallback later =
      later.foldl mountBackend (mountDefault (mountOpen kdb backends).2 (some d) i inFallback).2 := by
    simp only [kdbMount, runMounts, List.foldl_cons, List.foldl_map, MountCall.run]
  have hplaces : kdbMounts mp kdb backends d i inFallback later = backends.reduceOption.flatMap (placesOf mp) ++
      (MountCall.default (some d) i inFallback).mounts mp (mountOpen kdb backends).2 ++
        later.flatMap (placesOf mp) := by
    rw [kdbMounts, allMounts, allMounts, allMounts_backend, ← List.append_assoc, ← open_places]
    rfl
  rw [← heq, List.nil_append, ← hplaces] at hrun
  refine ⟨_, hrun, ?_⟩
  rw [heq, foldl_mountBackend_default, hdef]

/-! ## Whom keys belong to -/

/-- A key with the name of a path. -/
def keyAt (P : Path) : Key := elektraFinalizeName keyNew P.name

theorem hasName_keyAt (P : Path) : HasName (keyAt P) P := hasName_finalize keyNew P

section Owner

variable {W : Type}

/-- The backend of the keys of a path. -/
def KDB.owner (kdb : KDB W) (P : Path) : Option BackendRef := mountGetBackend kdb (some (keyAt P))

/-- Some key at or below `Q` belongs to the backend. -/
def Holds (kdb : KDB W) (b : BackendRef) (Q : Path) : Prop :=
  ∃ key P, HasName key P ∧ Q.AtOrAbove P ∧ mountGetBackend kdb (some key) = some b

variable {kdb : KDB W} {mounts : List (Path × BackendRef)} {b : BackendRef} {Q : Path}

theorem owner_eq (h : Mounted kdb mounts) {key : Key} {P : Path} (hP : HasName key P) :
    mountGetBackend kdb (some key) = kdb.owner P := by
  rw [KDB.owner, mountGetBackend_eq h hP, mountGetBackend_eq h (hasName_keyAt P)]

theorem owner_of_owns (h : Mounted kdb mounts) {P : Path} (hb : Owns mounts P b) :
    kdb.owner P = some b := by
  rw [KDB.owner, mountGetBackend_eq h (hasName_keyAt P), (longest_owns h.root).mpr hb,
    Option.some_or]

/-- A key belongs to the backend of a mountpoint, or to the default backend. -/
theorem owner_cases (h : Mounted kdb mounts) (P : Path) :
    (∃ b, Owns mounts P b) ∨
      (∀ e ∈ mounts, ¬ e.1.AtOrAbove P) ∧ kdb.owner P = kdb.defaultBackend := by
  rw [KDB.owner, mountGetBackend_eq h (hasName_keyAt P)]
  cases hl : Longest.longest (lastInserted (mounts.map fun e => (mountName e.1, e.2)))
      (P.name ++ [pathSeparator]) with
  | some b => exact Or.inl ⟨b, (longest_owns h.root).mp hl⟩
  | none =>
    refine Or.inr ⟨fun e he hP => ?_, rfl⟩
    have hnone := Longest.longest_eq_none.mp hl _ ((mountName_prefix_iff (h.root e he)).mpr hP)
    exact lastInserted_ne_none he hnone

theorem Path.AtOrAbove.refl (P : Path) : P.AtOrAbove P := ⟨rfl, List.prefix_rfl⟩

theorem Path.AtOrAbove.trans {P Q R : Path} (h : P.AtOrAbove Q) (h' : Q.AtOrAbove R) : P.AtOrAbove R :=
  ⟨h.1.trans h'.1, h.2.trans h'.2⟩

/-- **The keys at and below a path belong to its backend and to those mounted below.** -/
theorem holds_iff (h : Mounted kdb mounts) :
    Holds kdb b Q ↔ kdb.owner Q = some b ∨
      ∃ M, (M, b) ∈ mounts ∧ Q.AtOrAbove M ∧ kdb.owner M = some b := by
  constructor
  · rintro ⟨key, P, hP, hQP, hb⟩
    rw [owner_eq h hP] at hb
    obtain ⟨b', hown⟩ | ⟨hno, hdef⟩ := owner_cases h P
    · obtain rfl : b' = b := Option.some.inj ((owner_of_owns h hown).symm.trans hb)
      obtain ⟨M, hM, hlast, hmax⟩ := hown
      have hmem := mem_of_lastMounted hlast
      by_cases hlen : Q.parts.length ≤ M.parts.length
      · -- the mountpoint is at `Q` or below it
        refine Or.inr ⟨M, hmem, hQP.comparable hM hlen, owner_of_owns h ⟨M, .refl M, hlast, ?_⟩⟩
        exact fun e he heM => hmax e he (heM.trans hM)
      · refine Or.inl (owner_of_owns h ⟨M, hM.comparable hQP (by omega), hlast, ?_⟩)
        exact fun e he heQ => hmax e he (heQ.trans hQP)
    · obtain ⟨b', M, hM, hlast, -⟩ | ⟨-, hdef'⟩ := owner_cases h Q
      · exact absurd (hM.trans hQP) (hno _ (mem_of_lastMounted hlast))
      · exact Or.inl (hdef'.trans (hdef.symm.trans hb))
  · rintro (hb | ⟨M, -, hQM, hb⟩)
    · exact ⟨keyAt Q, Q, hasName_keyAt Q, .refl Q, hb⟩
    · exact ⟨keyAt M, M, hasName_keyAt M, hQM, hb⟩

end Owner

/-! ## The entries that are appended -/

/-- The parent key is at `P`; no key and a key without name ask for everything, like `/`. -/
def ParentAt (parentKey : Option Key) (P : Path) : Prop :=
  match parentKey with
  | none => P = ⟨.cascading, []⟩
  | some key => if keyName key = [] then P = ⟨.cascading, []⟩ else HasName key P

/-- What a parent key asks for. -/
def requests (P : Path) : List Path :=
  match P.root with
  | .ns _ => [P]
  | .cascading => rootNamespaces.map fun ns => ⟨.ns ns, P.parts⟩

/-- `keyRel` compares owners: an entry of the same name is taken for another one where its parent
has not the owner that is asked for. -/
def Seen (parentKey : Option Key) (P Q : Path) (e : SplitEntry) : Prop :=
  P = ⟨.cascading, []⟩ ∨ (HasName e.parent Q → keyGetMeta e.parent (str "owner") =
    if P.root = .cascading then none else parentKey.bind (keyGetMeta · (str "owner")))

/-- The pair of backend and namespace of an entry. -/
def SplitEntry.pair (e : SplitEntry) : Option BackendRef × Option Root :=
  (e.handle, (keyGetNamespace e.parent).root)

/-- **The entries of `kdb`** for the parent key: each pair of a backend and a namespace that holds
keys of interest exactly once, under the name of the mountpoint. -/
structure BuildsUp {W : Type} (mp : BackendRef → Option Path) (d : BackendRef) (kdb : KDB W)
    (parentKey : Option Key) (P : Path) : Prop where
  once : ((splitBuildup [] kdb parentKey).2.map SplitEntry.pair).Nodup
  mem_iff : ∀ b m, (some b, some (.ns m)) ∈ (splitBuildup [] kdb parentKey).2.map SplitEntry.pair ↔
    ∃ Q ∈ requests P, Q.root = .ns m ∧ Holds kdb b Q
  parents : ∀ e ∈ (splitBuildup [] kdb parentKey).2, ∃ b M, e.handle = some b ∧ HasName e.parent M ∧
    (M ∈ mountPlaces (mp b) ∨ b = d ∧ ∃ ns, M = ⟨.ns ns, []⟩)

/-- Every listed place at or below `Q` belongs to the backend it is listed for, or that one owns
`Q`; and a place of the owner of `Q` is listed at, above or below it. -/
structure Covered {W : Type} (kdb : KDB W) (parentKey : Option Key) (P Q : Path) : Prop where
  below : ∀ e ∈ kdb.split, ∀ M, HasName e.parent M → Q.AtOrAbove M → Seen parentKey P Q e →
    kdb.owner M = e.handle ∨ kdb.owner Q = e.handle
  owner : ∃ e ∈ kdb.split, ∃ M, HasName e.parent M ∧ (M.AtOrAbove Q ∨ Q.AtOrAbove M) ∧
    Seen parentKey P Q e ∧ e.handle = kdb.owner Q

/-- What is asked for is covered; and `/` does not ask for `proc`. -/
structure Covers {W : Type} (kdb : KDB W) (parentKey : Option Key) (P : Path) : Prop where
  requests : ∀ Q ∈ requests P, Covered kdb parentKey P Q
  proc : P = ⟨.cascading, []⟩ → ∀ e ∈ kdb.split, ∀ M, HasName e.parent M → M.root ≠ .ns .proc

section Buildup

variable {W : Type} {mp : BackendRef → Option Path} {d : BackendRef} {used : List BackendRef}
  {kdb : KDB W} {mounts listed : List (Path × BackendRef)} {b : BackendRef} {m : Namespace}
  {parentKey : Option Key} {P Q : Path}

/-- The entry that is appended. -/
def SplitEntry.copy (e : SplitEntry) : SplitEntry :=
  { keyset := [], handle := e.handle, parent := keyDup e.parent, syncbits := e.syncbits }

@[simp] theorem copy_pair (e : SplitEntry) : e.copy.pair = e.pair := rfl

theorem splitBuildupLoop_eq (split : Split) (kdb : KDB W) (parentKey : Option Key) :
    splitBuildupLoop split kdb parentKey = split ++
      (kdb.split.filter (splitBuildupTest (mountGetBackend kdb parentKey) parentKey)).map
        SplitEntry.copy := by
  have hfold : ∀ (test : SplitEntry → Bool) (l split : Split),
      l.foldl (fun split e =>
        if test e then splitAppend split e.handle (keyDup e.parent) e.syncbits else split) split =
        split ++ (l.filter test).map SplitEntry.copy := by
    intro test l
    induction l with
    | nil => simp
    | cons e l ih =>
      intro split
      rw [List.foldl_cons, ih]
      by_cases he : test e = true
      · rw [if_pos he, List.filter_cons_of_pos he, List.map_cons, splitAppend, List.append_assoc]
        rfl
      · rw [if_neg he, List.filter_cons_of_neg he]
  exact hfold _ _ _

theorem Lists.of_mem {split : Split} (h : Lists split listed) {e : SplitEntry} (he : e ∈ split) :
    ∃ l ∈ listed, e.handle = some l.2 ∧ HasName e.parent l.1 := by
  induction split generalizing listed with
  | nil => cases he
  | cons e' split ih =>
    cases h with
    | cons hhead htail =>
      obtain rfl | he := List.mem_cons.mp he
      · exact ⟨_, List.mem_cons_self, hhead⟩
      · obtain ⟨l, hl, hrest⟩ := ih htail he
        exact ⟨l, List.mem_cons_of_mem _ hl, hrest⟩

theorem Lists.mem_of {split : Split} (h : Lists split listed) {l : Path × BackendRef} (hl : l ∈ listed) :
    ∃ e ∈ split, e.handle = some l.2 ∧ HasName e.parent l.1 := by
  induction split generalizing listed with
  | nil => cases h; cases hl
  | cons e split ih =>
    cases h with
    | cons hhead htail =>
      obtain rfl | hl := List.mem_cons.mp hl
      · exact ⟨e, List.mem_cons_self, hhead⟩
      · obtain ⟨e', he', hrest⟩ := ih htail hl
        exact ⟨e', List.mem_cons_of_mem _ he', hrest⟩

theorem Lists.pairs {split : Split} (h : Lists split listed) :
    split.map SplitEntry.pair = listed.map fun l => (some l.2, some l.1.root) := by
  induction split generalizing listed with
  | nil => cases h; rfl
  | cons e split ih =>
    cases h with
    | @cons _ l _ _ hhead htail =>
      have hpair : e.pair = (some l.2, some l.1.root) :=
        Prod.ext hhead.1 (keyGetNamespace_root hhead.2)
      rw [List.map_cons, List.map_cons, ih htail, hpair]

/-- **A backend is listed once in a namespace.** -/
theorem Listed.nodup (h : Listed mp d used kdb mounts listed) : (kdb.split.map SplitEntry.pair).Nodup := by
  have hinj : Function.Injective fun p : BackendRef × Root => (some p.1, some p.2) := by
    rintro ⟨b, r⟩ ⟨b', r'⟩ he
    simpa using he
  have hmap := h.distinct.map hinj
  rw [List.map_map] at hmap
  rw [h.lists.pairs]
  exact hmap

theorem Listed.root_ne (h : Listed mp d used kdb mounts listed) {l : Path × BackendRef} (hl : l ∈ listed) :
    l.1.root ≠ .cascading := by
  obtain hl | ⟨-, ns, hns⟩ := h.listed_mounts l hl
  · exact h.state.mounted.root l hl
  · rw [hns]
    exact Root.ns_ne ns

theorem keyRelated_iff {key check : Key} (hk : HasName key P) (hc : HasName check Q)
    (hP : P.root ≠ .cascading) (hQ : Q.root ≠ .cascading) :
    keyRelated key check = true ↔ P.AtOrAbove Q ∧
      (P = Q → keyGetMeta key (str "owner") = keyGetMeta check (str "owner")) := by
  have hcross : ¬ P.Crossed Q := fun h => hQ h.2.1
  have habove : P.Above Q ↔ P.AtOrAbove Q ∧ P ≠ Q := by
    have hext : P = Q ↔ P.root = Q.root ∧ P.parts = Q.parts := by cases P; cases Q; simp
    simp only [Path.Above, Path.AtOrAbove, ne_eq, hext]
    tauto
  rw [keyRelated, keyRel_eq hk hc hcross, Option.any_some, decide_eq_true_iff, Path.relation]
  by_cases hsame : P = Q ∧ keyGetMeta key (str "owner") = keyGetMeta check (str "owner")
  · rw [if_pos hsame]
    exact iff_of_true le_rfl ⟨hsame.1 ▸ .refl P, fun _ => hsame.2⟩
  · have hright : P.AtOrAbove Q ∧ (P = Q → keyGetMeta key (str "owner") =
        keyGetMeta check (str "owner")) ↔ P.Above Q := by
      rw [habove]
      tauto
    rw [if_neg hsame, hright]
    by_cases ha : P.Above Q
    · rw [if_pos ha]
      refine iff_of_true ?_ ha
      split_ifs <;> decide
    · rw [if_neg fun hd => ha hd.1, if_neg ha]
      refine iff_of_false ?_ ha
      split_ifs <;> decide

/-- **The test of an entry.** -/
theorem splitBuildupTest_iff (hm : Mounted kdb mounts) {key : Key} (hk : HasName key Q)
    (hQ : Q.root ≠ .cascading) {e : SplitEntry} {M : Path} (hM : HasName e.parent M)
    (hroot : M.root ≠ .cascading) :
    splitBuildupTest (mountGetBackend kdb (some key)) (some key) e = true ↔
      (kdb.owner Q = e.handle ∧ M.AtOrAbove Q ∨ Q.AtOrAbove M) ∧
      (HasName e.parent Q → keyGetMeta e.parent (str "owner") = keyGetMeta key (str "owner")) := by
  have hsame : HasName e.parent Q ↔ M = Q := ⟨hM.unique, fun h => h ▸ hM⟩
  rw [splitBuildupTest, Bool.or_eq_true, Bool.and_eq_true, decide_eq_true_iff, owner_eq hm hk,
    keyRelated_iff hM hk hroot hQ, keyRelated_iff hk hM hQ hroot, hsame]
  constructor
  · rintro (⟨ho, ha, hs⟩ | ⟨ha, hs⟩)
    · exact ⟨Or.inl ⟨ho, ha⟩, hs⟩
    · exact ⟨Or.inr ha, fun h => (hs h.symm).symm⟩
  · rintro ⟨⟨ho, ha⟩ | ha, hs⟩
    · exact Or.inl ⟨ho, ha, hs⟩
    · exact Or.inr ⟨ha, fun h => (hs h.symm).symm⟩

/-- The key of a request below a cascading parent key. -/
def requestKey (parentKey : Key) (Q : Path) : Key :=
  match Q.root with
  | .ns ns => splitNamespaceKey ns parentKey
  | .cascading => parentKey

theorem requests_root (hQ : Q ∈ requests P) : ∃ m, Q.root = .ns m := by
  obtain ⟨_ | m, ps⟩ := P
  · obtain ⟨ns, -, rfl⟩ := List.mem_map.mp hQ
    exact ⟨ns, rfl⟩
  · exact ⟨m, (List.mem_singleton.mp hQ) ▸ rfl⟩

theorem requests_unique {Q' : Path} (hQ : Q ∈ requests P) (hQ' : Q' ∈ requests P)
    (h : Q.root = Q'.root) : Q = Q' := by
  obtain ⟨_ | m, ps⟩ := P
  · obtain ⟨ns, -, rfl⟩ := List.mem_map.mp hQ
    obtain ⟨ns', -, rfl⟩ := List.mem_map.mp hQ'
    obtain rfl : ns = ns' := Root.ns.inj h
    rfl
  · rw [List.mem_singleton.mp hQ, List.mem_singleton.mp hQ']

/-- The entries that the parent key asks for at `Q`. -/
def Asked (kdb : KDB W) (parentKey : Option Key) (P Q : Path) (e : SplitEntry) : Prop :=
  ∃ M, HasName e.parent M ∧ (kdb.owner Q = e.handle ∧ M.AtOrAbove Q ∨ Q.AtOrAbove M) ∧
    Seen parentKey P Q e

theorem Asked.root {e : SplitEntry} (h : Asked kdb parentKey P Q e) :
    (keyGetNamespace e.parent).root = some Q.root := by
  obtain ⟨M, hM, hrel, -⟩ := h
  rw [keyGetNamespace_root hM]
  obtain ⟨-, ha⟩ | ha := hrel
  · rw [ha.1]
  · rw [ha.1]

theorem keyAddName_metaKeys (key : Key) (newName : Option Str) :
    (keyAddName key newName).2.metaKeys = key.metaKeys := by
  unfold keyAddName
  split_ifs
  · rfl
  · cases key.key with
    | none => rfl
    | some name =>
      cases name with
      | nil => rfl
      | cons c name =>
        cases newName with
        | none => rfl
        | some newName =>
          dsimp only
          split_ifs <;> rfl

theorem splitNamespaceKey_owner (ns : Namespace) (parentKey : Key) :
    keyGetMeta (splitNamespaceKey ns parentKey) (str "owner") = none := by
  rw [keyGetMeta, splitNamespaceKey, keyAddName_metaKeys]
  cases ns <;> rfl

theorem splitBuildupLoop_none (kdb : KDB W) :
    splitBuildupLoop [] kdb none = kdb.split.map SplitEntry.copy := by
  have hall : ∀ e ∈ kdb.split, splitBuildupTest (mountGetBackend kdb none) none e = true := fun _ _ => rfl
  rw [splitBuildupLoop_eq, List.nil_append, List.filter_eq_self.mpr hall]

theorem asked_iff (h : Listed mp d used kdb mounts listed) {key : Key} (hk : HasName key Q)
    (hQ : Q.root ≠ .cascading) (hroot : P ≠ ⟨.cascading, []⟩)
    (howner : keyGetMeta key (str "owner") =
      if P.root = .cascading then none else parentKey.bind (keyGetMeta · (str "owner")))
    {e : SplitEntry} (he : e ∈ kdb.split) :
    splitBuildupTest (mountGetBackend kdb (some key)) (some key) e = true ↔
      Asked kdb parentKey P Q e := by
  obtain ⟨l, hl, -, hM⟩ := h.lists.of_mem he
  rw [splitBuildupTest_iff h.state.mounted hk hQ hM (h.root_ne hl), howner]
  constructor
  · rintro ⟨hrel, hs⟩
    exact ⟨l.1, hM, hrel, Or.inr hs⟩
  · rintro ⟨M, hM', hrel, hs⟩
    obtain rfl := hM.unique hM'
    exact ⟨hrel, hs.resolve_left hroot⟩

/-- The parts of `splitBuildup`: for each request the entries that are asked for; `/` asks for all
of them at once. -/
theorem splitBuildup_cases (h : Listed mp d used kdb mounts listed) (hP : ParentAt parentKey P) :
    (P = ⟨.cascading, []⟩ ∧ (splitBuildup [] kdb parentKey).2 = kdb.split.map SplitEntry.copy) ∨
    (P ≠ ⟨.cascading, []⟩ ∧ ∃ test : Path → SplitEntry → Bool,
      (∀ Q ∈ requests P, ∀ e ∈ kdb.split, test Q e = true ↔ Asked kdb parentKey P Q e) ∧
      (splitBuildup [] kdb parentKey).2 =
        (requests P).flatMap fun Q => (kdb.split.filter (test Q)).map SplitEntry.copy) := by
  cases parentKey with
  | none => exact Or.inl ⟨hP, splitBuildupLoop_none kdb⟩
  | some key =>
    simp only [ParentAt] at hP
    by_cases hne : keyName key = []
    · rw [if_pos hne] at hP
      refine Or.inl ⟨hP, ?_⟩
      simp only [splitBuildup, hne, true_or, if_true]
      exact splitBuildupLoop_none kdb
    · rw [if_neg hne] at hP
      have hn : keyName key = P.name := by rw [keyName, hP.key]; rfl
      obtain ⟨r, ps⟩ := P
      cases r with
      | ns m =>
        have hhead : (keyName key).head? ≠ some pathSeparator := by
          rw [hn, Ne, Path.head_name]
          exact Root.ns_ne m
        have hslash : keyName key ≠ [pathSeparator] := fun he => hhead (he ▸ rfl)
        refine Or.inr ⟨fun he => Root.ns_ne m (congrArg Path.root he), fun _ => splitBuildupTest (mountGetBackend kdb (some key)) (some key), ?_, ?_⟩
        · intro Q hQ e he
          obtain rfl : Q = ⟨.ns m, ps⟩ := List.mem_singleton.mp hQ
          refine asked_iff h hP (Root.ns_ne m) ?_ ?_ he
          · exact fun he => Root.ns_ne m (congrArg Path.root he)
          · rfl
        · simp only [splitBuildup, hne, hslash, hhead, or_self, if_false, splitBuildupLoop_eq,
            List.nil_append]
          exact (List.flatMap_singleton _ _).symm
      | cascading =>
        have hhead : (keyName key).head? = some pathSeparator := by rw [hn, Path.head_name]
        by_cases hps : ps = []
        · subst hps
          have hslash : keyName key = [pathSeparator] := hn
          refine Or.inl ⟨rfl, ?_⟩
          simp only [splitBuildup, hslash, or_true, if_true]
          exact splitBuildupLoop_none kdb
        · have hslash : keyName key ≠ [pathSeparator] := by
            rw [hn, Ne, Path.name_eq_slash, Path.stem_eq_nil]
            exact fun hs => hps hs.2
          have hroot : Path.mk .cascading ps ≠ ⟨.cascading, []⟩ := by simpa using hps
          refine Or.inr ⟨hroot, fun Q => splitBuildupTest (mountGetBackend kdb (some (requestKey key Q)))
            (some (requestKey key Q)), ?_, ?_⟩
          · intro Q hQ e he
            obtain ⟨ns, -, rfl⟩ := List.mem_map.mp hQ
            exact asked_iff h (splitNamespaceKey_hasName ns hP hps) (Root.ns_ne ns) hroot
              (splitNamespaceKey_owner ns key) he
          · simp only [splitBuildup, hne, hslash, hhead, or_self, if_false, if_true, requests, requestKey,
              rootNamespaces, List.foldl_cons, List.foldl_nil, splitBuildupLoop_eq, List.nil_append,
              List.map_cons, List.map_nil, List.flatMap_cons, List.flatMap_nil, List.append_nil,
              List.append_assoc]

theorem requests_pairwise (P : Path) : (requests P).Pairwise fun Q Q' => Q.root ≠ Q'.root := by
  obtain ⟨_ | m, ps⟩ := P
  · simp [requests, rootNamespaces]
  · exact List.pairwise_singleton _ _

theorem pair_root {test : SplitEntry → Bool}
    (htest : ∀ e ∈ kdb.split, test e = true ↔ Asked kdb parentKey P Q e)
    {p : Option BackendRef × Option Root}
    (hp : p ∈ ((kdb.split.filter test).map SplitEntry.copy).map SplitEntry.pair) : p.2 = some Q.root := by
  obtain ⟨e', he', rfl⟩ := List.mem_map.mp hp
  obtain ⟨e, he, rfl⟩ := List.mem_map.mp he'
  obtain ⟨he, ht⟩ := List.mem_filter.mp he
  exact ((htest e he).mp ht).root

/-- **No pair is appended twice.** -/
theorem splitBuildup_nodup (h : Listed mp d used kdb mounts listed) (hP : ParentAt parentKey P) :
    ((splitBuildup [] kdb parentKey).2.map SplitEntry.pair).Nodup := by
  have hcopy : ∀ l : Split, (l.map SplitEntry.copy).map SplitEntry.pair = l.map SplitEntry.pair := by
    intro l
    rw [List.map_map]
    rfl
  obtain ⟨-, hout⟩ | ⟨-, test, htest, hout⟩ := splitBuildup_cases h hP
  · rw [hout, hcopy]
    exact h.nodup
  · rw [hout, List.map_flatMap, List.nodup_flatMap]
    refine ⟨fun Q _ => ?_, (requests_pairwise P).imp_of_mem fun {Q Q'} hQ hQ' hne => ?_⟩
    · rw [hcopy]
      exact h.nodup.sublist (List.filter_sublist.map _)
    · rw [Function.onFun, List.disjoint_left]
      intro p hp hp'
      have hroot := (pair_root (htest Q hQ) hp).symm.trans (pair_root (htest Q' hQ') hp')
      exact hne (Option.some.inj hroot)

/-- **The pairs that are appended.** -/
theorem mem_splitBuildup (h : Listed mp d used kdb mounts listed) (hP : ParentAt parentKey P)
    (hproc : P = ⟨.cascading, []⟩ → ∀ e ∈ kdb.split, ∀ M, HasName e.parent M → M.root ≠ .ns .proc) :
    (some b, some (.ns m)) ∈ (splitBuildup [] kdb parentKey).2.map SplitEntry.pair ↔
      ∃ Q ∈ requests P, Q.root = .ns m ∧ ∃ e ∈ kdb.split, e.handle = some b ∧ Asked kdb parentKey P Q e := by
  obtain ⟨rfl, hout⟩ | ⟨-, test, htest, hout⟩ := splitBuildup_cases h hP
  · rw [hout, List.mem_map]
    constructor
    · rintro ⟨e', he', hpair⟩
      obtain ⟨e, he, rfl⟩ := List.mem_map.mp he'
      obtain ⟨l, hl, -, hM⟩ := h.lists.of_mem he
      obtain ⟨hb, hm⟩ := Prod.mk.inj hpair
      have hroot : l.1.root = .ns m := by
        have hcopy : HasName e.copy.parent l.1 := hM.dup
        rw [keyGetNamespace_root hcopy] at hm
        exact Option.some.inj hm
      have hmem : m ∈ rootNamespaces := by
        have := hproc rfl e he l.1 hM
        rw [hroot] at this
        cases m <;> simp [rootNamespaces] at this ⊢
      exact ⟨⟨.ns m, []⟩, List.mem_map_of_mem hmem, rfl, e, he, hb, l.1, hM,
        Or.inr ⟨hroot.symm, List.nil_prefix⟩, Or.inl rfl⟩
    · rintro ⟨Q, -, hQ, e, he, hb, hasked⟩
      exact ⟨e.copy, List.mem_map_of_mem he, Prod.ext hb (by rw [← hQ]; exact hasked.root)⟩
  · rw [hout, List.map_flatMap, List.mem_flatMap]
    constructor
    · rintro ⟨Q, hQ, hp⟩
      have hroot := pair_root (htest Q hQ) hp
      obtain ⟨e', he', hpair⟩ := List.mem_map.mp hp
      obtain ⟨e, he, rfl⟩ := List.mem_map.mp he'
      obtain ⟨he, ht⟩ := List.mem_filter.mp he
      exact ⟨Q, hQ, (Option.some.inj hroot).symm, e, he, congrArg Prod.fst hpair, (htest Q hQ e he).mp ht⟩
    · rintro ⟨Q, hQ, hm, e, he, hb, hasked⟩
      refine ⟨Q, hQ, List.mem_map.mpr ⟨e.copy, List.mem_map_of_mem (List.mem_filter.mpr ⟨he, ?_⟩), ?_⟩⟩
      · exact (htest Q hQ e he).mpr hasked
      · exact Prod.ext hb (by rw [← hm]; exact hasked.root)

theorem seen_of_ne {e : SplitEntry} {M : Path} (hM : HasName e.parent M) (hne : M ≠ Q) :
    Seen parentKey P Q e := Or.inr fun hQ => absurd (hM.unique hQ) hne

/-- **At a request, the right backends are asked for when it is covered.** -/
theorem covered_iff (h : Listed mp d used kdb mounts listed) (hdef : kdb.defaultBackend = some d) :
    (∀ b, Holds kdb b Q ↔ ∃ e ∈ kdb.split, e.handle = some b ∧ Asked kdb parentKey P Q e) ↔
      Covered kdb parentKey P Q := by
  have hm := h.state.mounted
  constructor
  · intro hall
    refine ⟨fun e he M hM hQM hs => ?_, ?_⟩
    · obtain ⟨l, hl, hb, hM'⟩ := h.lists.of_mem he
      obtain rfl := hM'.unique hM
      rw [hb]
      obtain howner | ⟨N, hN, hQN, howner⟩ := (holds_iff hm).mp ((hall l.2).mpr
        ⟨e, he, hb, l.1, hM, Or.inr hQM, hs⟩)
      · exact Or.inr howner
      · -- the backend has one place in the namespace
        have hsame : (N, l.2) = l := by
          refine List.inj_on_of_nodup_map h.distinct (h.mounts_listed _ hN) hl ?_
          exact Prod.ext rfl (hQN.1.symm.trans hQM.1)
        rw [← congrArg Prod.fst hsame]
        exact Or.inl howner
    · obtain ⟨b, howner⟩ : ∃ b, kdb.owner Q = some b := by
        obtain ⟨b, hb⟩ | ⟨-, hown⟩ := owner_cases hm Q
        · exact ⟨b, owner_of_owns hm hb⟩
        · exact ⟨d, hown.trans hdef⟩
      obtain ⟨e, he, hb, M, hM, hrel, hs⟩ := (hall b).mp ((holds_iff hm).mpr (Or.inl howner))
      exact ⟨e, he, M, hM, hrel.imp_left And.right, hs, hb.trans howner.symm⟩
  · intro hc b
    constructor
    · intro hb
      by_cases howner : kdb.owner Q = some b
      · obtain ⟨e, he, M, hM, hrel, hs, hown⟩ := hc.owner
        exact ⟨e, he, hown.trans howner, M, hM, hrel.imp_left fun ha => ⟨hown.symm, ha⟩, hs⟩
      · obtain ⟨M, hM, hQM, hown⟩ := ((holds_iff hm).mp hb).resolve_left howner
        obtain ⟨e, he, heb, heM⟩ := h.lists.mem_of (h.mounts_listed _ hM)
        refine ⟨e, he, heb, M, heM, Or.inr hQM, seen_of_ne heM ?_⟩
        rintro rfl
        exact howner hown
    · rintro ⟨e, he, hb, M, hM, ⟨howner, -⟩ | hQM, hs⟩
      · exact (holds_iff hm).mpr (Or.inl (howner.trans hb))
      · obtain howner | howner := hc.below e he M hM hQM hs
        · exact ⟨keyAt M, M, hasName_keyAt M, hQM, howner.trans hb⟩
        · exact (holds_iff hm).mpr (Or.inl (howner.trans hb))

end Buildup

/-- **`splitBuildup` appends, for what the parent key asks for, each backend that holds keys there
exactly once, if and only if the handle covers the parent key.** -/
theorem splitBuildup_exact {W : Type} {mp : BackendRef → Option Path} {kdb : KDB W}
    {backends : List (Option BackendRef)} {d : BackendRef} {i : Option BackendRef}
    {later : List BackendRef} (h : Openable mp kdb backends d i later) (inFallback : Bool)
    {parentKey : Option Key} {P : Path} (hP : ParentAt parentKey P) :
    BuildsUp mp d (kdbMount kdb backends d i inFallback later) parentKey P ↔
      Covers (kdbMount kdb backends d i inFallback later) parentKey P := by
  obtain ⟨listed, hl, hdef⟩ := h.listed inFallback
  generalize kdbMount kdb backends d i inFallback later = kdb at hl hdef ⊢
  constructor
  · intro hb
    have hproc : P = ⟨.cascading, []⟩ → ∀ e ∈ kdb.split, ∀ M, HasName e.parent M → M.root ≠ .ns .proc := by
      rintro rfl e he M hM hroot
      obtain ⟨l, -, hback, -⟩ := hl.lists.of_mem he
      obtain ⟨-, hout⟩ | ⟨hne, -⟩ := splitBuildup_cases hl hP
      · have hpair : e.copy.pair = (some l.2, some (.ns .proc)) := by
          rw [copy_pair, SplitEntry.pair, hback, keyGetNamespace_root hM, hroot]
        obtain ⟨Q, hQ, hQroot, -⟩ := (hb.mem_iff l.2 .proc).mp
          (hpair ▸ hout ▸ List.mem_map_of_mem (List.mem_map_of_mem he))
        obtain ⟨ns, hns, rfl⟩ := List.mem_map.mp hQ
        obtain rfl : ns = .proc := Root.ns.inj hQroot
        simp [rootNamespaces] at hns
      · exact absurd rfl hne
    refine ⟨fun Q hQ => (covered_iff hl hdef).mp fun b => ?_, hproc⟩
    obtain ⟨m, hm⟩ := requests_root hQ
    have hmem := (mem_splitBuildup hl hP hproc).symm.trans (hb.mem_iff b m)
    constructor
    · intro hh
      obtain ⟨Q', hQ', hm', hasked⟩ := hmem.mpr ⟨Q, hQ, hm, hh⟩
      obtain rfl := requests_unique hQ hQ' (hm.trans hm'.symm)
      exact hasked
    · intro hasked
      obtain ⟨Q', hQ', hm', hh⟩ := hmem.mp ⟨Q, hQ, hm, hasked⟩
      obtain rfl := requests_unique hQ hQ' (hm.trans hm'.symm)
      exact hh
  · intro hc
    refine ⟨splitBuildup_nodup hl hP, fun b m => ?_, fun e he => ?_⟩
    · rw [mem_splitBuildup hl hP hc.proc]
      refine exists_congr fun Q => and_congr_right fun hQ => and_congr_right fun _ => ?_
      exact ((covered_iff hl hdef).mpr (hc.requests Q hQ) b).symm
    · obtain ⟨e', he', rfl⟩ : ∃ e' ∈ kdb.split, e = e'.copy := by
        obtain ⟨-, hout⟩ | ⟨-, test, -, hout⟩ := splitBuildup_cases hl hP
        · rw [hout] at he
          obtain ⟨e', he', rfl⟩ := List.mem_map.mp he
          exact ⟨e', he', rfl⟩
        · rw [hout] at he
          obtain ⟨Q, -, he⟩ := List.mem_flatMap.mp he
          obtain ⟨e', he', rfl⟩ := List.mem_map.mp he
          exact ⟨e', (List.mem_filter.mp he').1, rfl⟩
      obtain ⟨l, hmem, hback, hM⟩ := hl.lists.of_mem he'
      refine ⟨l.2, l.1, hback, hM.dup, ?_⟩
      exact (hl.listed_mounts l hmem).imp_left (hl.places l)

/-- As `0` a backend at `system/elektra`; the others have the mountpoint of a default backend. -/
def elektraMounted : KDB Unit :=
  kdbNew fun b => bareBackend (if b = 0 then keyNewName KDB_SYSTEM_ELEKTRA else keyNewName [])

theorem openable_elektraMounted :
    Openable (fun b => if b = 0 then some systemElektra else none) elektraMounted [some 0] 1 none [] where
  trie := rfl
  split := rfl
  mountpoints := by
    intro b
    by_cases hb : b = 0
    · subst hb
      exact ⟨_, rfl, rfl, rfl, rfl, rfl⟩
    · refine ⟨keyNewName [], by simp [elektraMounted, kdbNew, bareBackend, hb], ?_⟩
      simp only [hb, if_false]
      rfl
  default := rfl
  distinct := by decide

theorem nul_b : 0 ∉ str "b" := by decide

/-- `system/b` -/
def systemB : Path := ⟨.ns .system, [⟨str "b", nul_b⟩]⟩

theorem splitBuildup_exact_systemB :
    BuildsUp (fun b => if b = 0 then some systemElektra else none) 1
        (kdbMount elektraMounted [some 0] 1 none true []) (some (keyNewName (str "system/b"))) systemB ↔
      Covers (kdbMount elektraMounted [some 0] 1 none true []) (some (keyNewName (str "system/b")))
        systemB :=
  splitBuildup_exact openable_elektraMounted true ⟨rfl, rfl, rfl, rfl⟩

/-- In the fallback, where `system/elektra` is not the default backend's, this one is not listed at
`system`, and the keys there are nobody's. -/
theorem splitBuildup_fallback : ¬ ∀ (mp : BackendRef → Option Path) (kdb : KDB Unit) backends d i later
    inFallback parentKey P, Openable mp kdb backends d i later → ParentAt parentKey P →
    BuildsUp mp d (kdbMount kdb backends d i inFallback later) parentKey P := by
  intro h
  have hb := h _ _ _ _ _ _ true (some (keyNewName (str "system/b"))) systemB openable_elektraMounted
    ⟨rfl, rfl, rfl, rfl⟩
  have hholds : Holds (kdbMount elektraMounted [some 0] 1 none true []) 1 systemB :=
    ⟨keyNewName (str "system/b"), systemB, ⟨rfl, rfl, rfl, rfl⟩, .refl _, by decide +kernel⟩
  exact absurd ((hb.mem_iff 1 .system).mpr ⟨systemB, List.mem_singleton.mpr rfl, rfl, hholds⟩)
    (by decide +kernel)

end Elektra
