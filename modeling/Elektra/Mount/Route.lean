import Mathlib.Data.List.ReduceOption
import Elektra.Mount.Model

/-!
# Which backend a key belongs to

A mountpoint stands in the trie under its name and a separator. An escaped part does not end in an
open escape, so that the separator is that of the next part: a prefix of the names is a prefix of
the parts.

* `Path.AtOrAbove`, `mountName`, **`mountName_prefix_iff`**;
* `mountPlaces`: where a backend is mounted; `Mounted`: what the trie of a handle was made of;
* `MountCall`, **`run_mounted`**: what sequences of calls mount;
* **`mountGetBackend_deepest`**.
-/

namespace Elektra

/-- `Q` is at `P` or below it, in the same root. -/
def Path.AtOrAbove (P Q : Path) : Prop := P.root = Q.root ∧ P.parts <+: Q.parts

instance (P Q : Path) : Decidable (P.AtOrAbove Q) := inferInstanceAs (Decidable (_ ∧ _))

/-! ## Prefixes of names -/

/-- What begins with a separator, or ends. -/
def StartsPart (s : Str) : Prop := s = [] ∨ s.head? = some pathSeparator

theorem startsPart_join (ps : List CString) (s : Str) :
    StartsPart (join (escapes ps) ++ pathSeparator :: s) := by
  obtain hj | ⟨t, hj⟩ := join_cases (escapes ps) <;> rw [hj] <;> exact Or.inr rfl

theorem part_of_append {p q : CString} {v s : Str} (h : elektraEscapeKeyNamePart q.1 =
    elektraEscapeKeyNamePart p.1 ++ v) (hs : StartsPart (v ++ s)) (hne : v ++ s ≠ []) : v = [] := by
  cases v with
  | nil => rfl
  | cons c v =>
    obtain rfl : c = pathSeparator := Option.some.inj (hs.resolve_left hne)
    have hbr := (isPart_escape q.1).unbroken
    rw [h, ← List.append_nil (_ ++ _)] at hbr
    exact (closed_separator (isPart_escape p.1).closed hbr).elim

theorem part_prefix_iff {p q : CString} {s t : Str} (hs : StartsPart s) (hs0 : s ≠ []) (ht : StartsPart t) :
    elektraEscapeKeyNamePart p.1 ++ s <+: elektraEscapeKeyNamePart q.1 ++ t ↔ p = q ∧ s <+: t := by
  have heq : elektraEscapeKeyNamePart p.1 = elektraEscapeKeyNamePart q.1 → p = q := fun h =>
    Subtype.ext (by rw [← unescape_escape p.1, h, unescape_escape])
  constructor
  · rintro ⟨u, hu⟩
    rw [List.append_assoc] at hu
    obtain ⟨v, hv, hv'⟩ | ⟨v, hv, hv'⟩ := List.append_eq_append_iff.mp hu
    · have hstart : StartsPart (v ++ t) := by
        rw [← hv']
        obtain ⟨c, s, rfl⟩ := List.exists_cons_of_ne_nil hs0
        exact Or.inr (hs.resolve_left hs0)
      have hne : v ++ t ≠ [] := by
        rw [← hv']
        exact List.append_ne_nil_of_left_ne_nil hs0 u
      obtain rfl := part_of_append hv hstart hne
      rw [List.append_nil] at hv
      exact ⟨heq hv.symm, u, hv'⟩
    · by_cases hv0 : v = []
      · subst hv0
        rw [List.append_nil] at hv
        exact ⟨heq hv, u, hv'.symm⟩
      · have hne : v ++ (s ++ u) ≠ [] := List.append_ne_nil_of_left_ne_nil hv0 _
        have hstart : StartsPart (v ++ (s ++ u)) := by
          rw [← hv']
          exact ht
        exact absurd (part_of_append hv hstart hne) hv0
  · rintro ⟨rfl, hst⟩
    exact (List.prefix_append_right_inj _).mpr hst

/-- A prefix of the names, each with a separator behind it, is a prefix of the parts. -/
theorem join_separator_prefix_iff : ∀ {ps qs : List CString},
    join (escapes ps) ++ [pathSeparator] <+: join (escapes qs) ++ [pathSeparator] ↔ ps <+: qs
  | [], qs => by
    obtain hj | ⟨t, hj⟩ := join_cases (escapes qs) <;> rw [hj] <;> simp [escapes, List.cons_prefix_cons]
  | p :: ps, [] => by
    have hne := (isPart_escape p.1).ne_nil
    simp [escapes, List.cons_prefix_cons, hne]
  | p :: ps, q :: qs => by
    have hcons : ∀ (r : CString) (rs : List CString), join (escapes (r :: rs)) ++ [pathSeparator] =
        pathSeparator :: (elektraEscapeKeyNamePart r.1 ++ (join (escapes rs) ++ [pathSeparator])) := by
      intro r rs
      simp [escapes]
    rw [hcons, hcons, List.cons_prefix_cons, part_prefix_iff (startsPart_join ps [])
      (by simp) (startsPart_join qs []), join_separator_prefix_iff, List.cons_prefix_cons]
    simp

/-- The name under which a mountpoint stands in the trie. -/
def mountName (M : Path) : CString :=
  ⟨M.name ++ [pathSeparator], by
    rw [List.mem_append, not_or]
    exact ⟨M.nul_name, by decide⟩⟩

/-- **A mountpoint is a prefix of the names at and below it, and of no others.** -/
theorem mountName_prefix_iff {M P : Path} (hM : M.root ≠ .cascading) :
    (mountName M).1 <+: P.name ++ [pathSeparator] ↔ M.AtOrAbove P := by
  obtain ⟨r, ps⟩ := M
  obtain ⟨r', qs⟩ := P
  cases r with
  | cascading => exact absurd rfl hM
  | ns m =>
    change (Path.mk (.ns m) ps).name ++ [pathSeparator] <+: _ ↔ _
    rw [Path.name_ns, Path.AtOrAbove]
    cases r' with
    | cascading =>
      obtain ⟨t, ht⟩ := List.head?_eq_some_iff.mp ((Path.mk .cascading qs).head_name.mpr rfl)
      rw [ht]
      cases m <;> simp [Namespace.name, str, pathSeparator, List.cons_prefix_cons]
    | ns m' =>
      rw [Path.name_ns, List.append_assoc, List.append_assoc]
      constructor
      · intro h
        obtain rfl := Namespace.eq_of_prefix h
        exact ⟨rfl, join_separator_prefix_iff.mp ((List.prefix_append_right_inj _).mp h)⟩
      · rintro ⟨hm, hpre⟩
        obtain rfl : m = m' := Root.ns.inj hm
        exact (List.prefix_append_right_inj _).mpr (join_separator_prefix_iff.mpr hpre)

theorem mountName_injective : Function.Injective mountName := by
  intro M N h
  exact Path.name_injective (List.append_cancel_right (congrArg Subtype.val h))

/-! ## Where backends are mounted -/

/-- `system/elektra` -/
def systemElektra : Path := ⟨.ns .system, [⟨str "elektra", by decide⟩]⟩

/-- The places of a mountpoint; `none` is the empty name, that of a default backend. -/
def mountPlaces : Option Path → List Path
  | none => [systemElektra]
  | some ⟨.cascading, []⟩ => rootNamespaces.map fun ns => ⟨.ns ns, []⟩
  | some ⟨.cascading, p :: ps⟩ => cascadingNamespaces.map fun ns => ⟨.ns ns, p :: ps⟩
  | some ⟨.ns m, ps⟩ => [⟨.ns m, ps⟩]

/-- The mountpoint has the name of a path, or none. -/
def HasMountpoint {W : Type} (backend : Backend W) (mp : Option Path) : Prop :=
  ∃ key, backend.mountpoint = some key ∧
    match mp with
    | none => keyName key = []
    | some M => HasName key M

/-- The mountpoints in the trie of a handle, in the order in which they were mounted. -/
structure Mounted {W : Type} (kdb : KDB W) (mounts : List (Path × BackendRef)) : Prop where
  trie : kdb.trie = trieOf (mounts.map fun e => (mountName e.1, e.2))
  root : ∀ e ∈ mounts, e.1.root ≠ .cascading

section Mounts

variable {W : Type} {kdb : KDB W} {mounts : List (Path × BackendRef)} {b : BackendRef}

theorem Mounted.at (h : Mounted kdb mounts) {M : Path} (hM : M.root ≠ .cascading) {name : Str}
    (hn : name = M.name ++ [pathSeparator]) (parent : Key) (bits : ℕ) :
    Mounted (mountAt kdb b name parent bits) (mounts ++ [(M, b)]) where
  trie := by
    rw [List.map_append, trieOf, List.foldl_append, ← trieOf, ← h.trie, hn]
    rfl
  root := by
    intro e he
    obtain he | he := List.mem_append.mp he
    · exact h.root e he
    · rw [List.mem_singleton.mp he]
      exact hM

theorem Mounted.foldl_at (h : Mounted kdb mounts) {ps : List CString} {name : Namespace → Str}
    (hn : ∀ ns, name ns = (Path.mk (.ns ns) ps).name ++ [pathSeparator]) (parent : Namespace → Key)
    (bits : ℕ) (l : List Namespace) :
    Mounted (l.foldl (fun kdb ns => mountAt kdb b (name ns) (parent ns) bits) kdb)
      (mounts ++ (l.map fun ns => Path.mk (.ns ns) ps).map (·, b)) := by
  induction l generalizing kdb mounts with
  | nil => simpa using h
  | cons ns l ih =>
    have h' := ih (h.at (b := b) (Root.ns_ne ns) (hn ns) (parent ns) bits)
    rwa [List.append_assoc] at h'

theorem Mounted.setRefcounter (h : Mounted kdb mounts) (n : ℕ) : Mounted (kdb.setRefcounter b n) mounts :=
  ⟨h.trie, h.root⟩

theorem Mounted.shared (h : Mounted kdb mounts) : Mounted (mountShared kdb b) mounts :=
  ⟨h.trie, h.root⟩

/-- **A backend is mounted at the places of its mountpoint.** -/
theorem Mounted.backend (h : Mounted kdb mounts) {mp : Option Path}
    (hb : HasMountpoint (kdb.backend b) mp) :
    Mounted (mountBackend kdb b) (mounts ++ (mountPlaces mp).map (·, b)) := by
  obtain ⟨key, hkey, hname⟩ := hb
  rw [mountBackend, hkey, Option.getD_some]
  cases mp with
  | none =>
    have hn : keyName key = [] := hname
    simp only [hn, if_true]
    exact (h.at (M := systemElektra) (Root.ns_ne .system) rfl _ _).setRefcounter 1
  | some M =>
    obtain ⟨r, ps⟩ := M
    have hM : HasName key ⟨r, ps⟩ := hname
    have hn : keyName key = (Path.mk r ps).name := by rw [keyName, hM.key]; rfl
    have hne : keyName key ≠ [] := hn ▸ Path.name_ne_nil _
    cases r with
    | cascading =>
      cases ps with
      | nil =>
        have hroot : keyName key = [pathSeparator] := hn
        simp only [hroot, List.cons_ne_self, if_false, if_true]
        refine (@Mounted.foldl_at _ _ _ b h [] _ (fun ns => ?_) _ 2 rootNamespaces).setRefcounter 4
        rw [Path.name_ns, escapes, List.map_nil, join_nil, List.append_nil]
      | cons p ps =>
        have hroot : keyName key ≠ [pathSeparator] := by
          rw [hn, Ne, Path.name_eq_slash, Path.stem_eq_nil]
          exact fun h => List.cons_ne_nil p ps h.2
        have hhead : (keyName key).head? = some pathSeparator := by
          rw [hn, Path.head_name]
        simp only [hne, hroot, hhead, if_false, if_true]
        refine (@Mounted.foldl_at _ _ _ b h (p :: ps) _ (fun ns => ?_) _ 2 cascadingNamespaces).setRefcounter 3
        rw [Path.name_ns, hn, Path.name_cascading (List.cons_ne_nil p ps)]
    | ns m =>
      have hhead : (keyName key).head? ≠ some pathSeparator := by
        rw [hn, Ne, Path.head_name]
        exact Root.ns_ne m
      have hroot : keyName key ≠ [pathSeparator] := fun he => hhead (he ▸ rfl)
      simp only [hne, hroot, hhead, if_false]
      exact (h.at (Root.ns_ne m) (congrArg (· ++ [pathSeparator]) hn) _ _).setRefcounter 1

end Mounts

/-! ## Sequences of calls -/

/-- The calls that mount. -/
inductive MountCall
  | backend (b : BackendRef)
  | open (backends : List (Option BackendRef))
  | default (defaultBackend initBackend : Option BackendRef) (inFallback : Bool)

section Calls

variable {W : Type}

def MountCall.run (kdb : KDB W) : MountCall → KDB W
  | .backend b => mountBackend kdb b
  | .open backends => (mountOpen kdb backends).2
  | .default d i inFallback => (mountDefault kdb d i inFallback).2

/-- The places of a backend, `mp` telling mountpoints. -/
def placesOf (mp : BackendRef → Option Path) (b : BackendRef) : List (Path × BackendRef) :=
  (mountPlaces (mp b)).map (·, b)

/-- What a call mounts. In the fallback, the default backend is mounted where `system/elektra` is
not its own already. -/
def MountCall.mounts (mp : BackendRef → Option Path) (kdb : KDB W) :
    MountCall → List (Path × BackendRef)
  | .backend b => placesOf mp b
  | .open backends => backends.flatMap fun b => b.toList.flatMap (placesOf mp)
  | .default none _ _ => []
  | .default (some d) _ true =>
    if mountGetBackend { kdb with defaultBackend := some d } (some (keyNewName KDB_SYSTEM_ELEKTRA)) ≠
      some d then placesOf mp d else []
  | .default (some _) i false => i.toList.flatMap (placesOf mp)

def runMounts (kdb : KDB W) (calls : List MountCall) : KDB W := calls.foldl MountCall.run kdb

/-- What the calls mount, in order. -/
def allMounts (mp : BackendRef → Option Path) (kdb : KDB W) : List MountCall → List (Path × BackendRef)
  | [] => []
  | c :: calls => c.mounts mp kdb ++ allMounts mp (c.run kdb) calls

/-- The mountpoints of the backends of a handle. -/
def HasMountpoints (kdb : KDB W) (mp : BackendRef → Option Path) : Prop :=
  ∀ b, HasMountpoint (kdb.backend b) (mp b)

variable {kdb : KDB W} {mounts : List (Path × BackendRef)} {mp : BackendRef → Option Path}

theorem HasMountpoints.of_eq {kdb' : KDB W} (h : HasMountpoints kdb mp)
    (hb : ∀ b, (kdb'.backend b).mountpoint = (kdb.backend b).mountpoint) : HasMountpoints kdb' mp := by
  intro b
  obtain ⟨key, hkey, hname⟩ := h b
  exact ⟨key, (hb b).trans hkey, hname⟩

theorem setRefcounter_mountpoint (kdb : KDB W) (b c : BackendRef) (n : ℕ) :
    ((kdb.setRefcounter b n).backend c).mountpoint = (kdb.backend c).mountpoint := by
  by_cases h : c = b
  · simp [KDB.setRefcounter, h]
  · simp [KDB.setRefcounter, h]

theorem mountBackend_frame (kdb : KDB W) (b : BackendRef) :
    (∀ c, ((mountBackend kdb b).backend c).mountpoint = (kdb.backend c).mountpoint) ∧
      (mountBackend kdb b).defaultBackend = kdb.defaultBackend := by
  unfold mountBackend
  dsimp only
  split_ifs <;> exact ⟨fun c => setRefcounter_mountpoint _ _ _ _, rfl⟩

theorem HasMountpoints.mount (h : HasMountpoints kdb mp) (b : BackendRef) :
    HasMountpoints (mountBackend kdb b) mp := h.of_eq (mountBackend_frame kdb b).1

/-- What a run keeps. -/
structure MountState (mp : BackendRef → Option Path) (kdb : KDB W) (mounts : List (Path × BackendRef)) :
    Prop where
  mounted : Mounted kdb mounts
  mountpoints : HasMountpoints kdb mp

theorem MountState.mount (h : MountState mp kdb mounts) (b : BackendRef) :
    MountState mp (mountBackend kdb b) (mounts ++ placesOf mp b) :=
  ⟨h.mounted.backend (h.mountpoints b), h.mountpoints.mount b⟩

theorem MountState.shared (h : MountState mp kdb mounts) (b : BackendRef) :
    MountState mp (mountShared kdb b) mounts :=
  ⟨h.mounted.shared, h.mountpoints.of_eq fun c => setRefcounter_mountpoint kdb b c _⟩

theorem MountState.root (h : MountState mp kdb mounts) (ns : Namespace) :
    MountState mp (mountDefaultRoot kdb ns) mounts := by
  unfold mountDefaultRoot
  dsimp only
  split_ifs
  · exact h
  · exact ⟨⟨h.mounted.trie, h.mounted.root⟩, h.mountpoints⟩

theorem mountDefaultRoot_eq (kdb : KDB W) (ns : Namespace) :
    (mountDefaultRoot kdb ns).trie = kdb.trie ∧
      (mountDefaultRoot kdb ns).defaultBackend = kdb.defaultBackend ∧
      (mountDefaultRoot kdb ns).initBackend = kdb.initBackend := by
  unfold mountDefaultRoot
  dsimp only
  split_ifs <;> exact ⟨rfl, rfl, rfl⟩

theorem mountGetBackend_congr {kdb' : KDB W} (ht : kdb'.trie = kdb.trie)
    (hd : kdb'.defaultBackend = kdb.defaultBackend) (key : Option Key) :
    mountGetBackend kdb' key = mountGetBackend kdb key := by
  cases key with
  | none => exact hd
  | some key => rw [mountGetBackend, mountGetBackend, ht, hd]

theorem getBackend_ne_none (hdef : kdb.defaultBackend ≠ none) (key : Key) :
    mountGetBackend kdb (some key) ≠ none := by
  obtain ⟨d, hd⟩ := Option.ne_none_iff_exists'.mp hdef
  rw [mountGetBackend, hd]
  split_ifs
  · exact Option.some_ne_none d
  · cases trieLookup kdb.trie (some key) <;> exact Option.some_ne_none _

theorem mountOpen_eq (h : HasMountpoints kdb mp) (backends : List (Option BackendRef)) :
    (mountOpen kdb backends).2 = backends.reduceOption.foldl mountBackend kdb := by
  have hfold : ∀ (l : List (Option BackendRef)) (st : ℤ × KDB W), HasMountpoints st.2 mp →
      (l.foldl openStep st).2 = l.reduceOption.foldl mountBackend st.2 := by
    intro l
    induction l with
    | nil => intro st _; rfl
    | cons b l ih =>
      intro st h
      rw [List.foldl_cons]
      cases b with
      | none => exact ih _ h
      | some b =>
        obtain ⟨key, hkey, -⟩ := h b
        have hne : (st.2.backend b).mountpoint ≠ none := hkey ▸ Option.some_ne_none key
        rw [List.reduceOption_cons_of_some b l, List.foldl_cons, openStep]
        simp only [hne, if_false]
        exact ih _ (h.mount b)
  exact hfold backends (0, kdb) h

theorem MountState.foldl (bs : List BackendRef) {kdb : KDB W} {mounts : List (Path × BackendRef)}
    (h : MountState mp kdb mounts) :
    MountState mp (bs.foldl mountBackend kdb) (mounts ++ bs.flatMap (placesOf mp)) := by
  induction bs generalizing kdb mounts with
  | nil => simpa using h
  | cons b bs ih =>
    have h' := ih (h.mount b)
    rwa [List.append_assoc] at h'

theorem open_places (backends : List (Option BackendRef)) :
    (backends.flatMap fun b => b.toList.flatMap (placesOf mp)) = backends.reduceOption.flatMap (placesOf mp) := by
  induction backends with
  | nil => rfl
  | cons b l ih =>
    cases b with
    | none => simpa using ih
    | some b => simp [ih, List.reduceOption_cons_of_some b l]

theorem MountState.open (h : MountState mp kdb mounts) (backends : List (Option BackendRef)) :
    MountState mp (mountOpen kdb backends).2
      (mounts ++ backends.flatMap fun b => b.toList.flatMap (placesOf mp)) := by
  rw [mountOpen_eq h.mountpoints, open_places]
  exact h.foldl backends.reduceOption

theorem MountState.roots (h : MountState mp kdb mounts) :
    MountState mp (mountDefaultRoot (mountDefaultRoot (mountDefaultRoot kdb .spec) .dir) .user) mounts ∧
    (mountDefaultRoot (mountDefaultRoot (mountDefaultRoot kdb .spec) .dir) .user).trie = kdb.trie ∧
    (mountDefaultRoot (mountDefaultRoot (mountDefaultRoot kdb .spec) .dir) .user).defaultBackend =
      kdb.defaultBackend ∧
    (mountDefaultRoot (mountDefaultRoot (mountDefaultRoot kdb .spec) .dir) .user).initBackend =
      kdb.initBackend := by
  obtain ⟨ht1, hd1, hi1⟩ := mountDefaultRoot_eq kdb .spec
  obtain ⟨ht2, hd2, hi2⟩ := mountDefaultRoot_eq (mountDefaultRoot kdb .spec) .dir
  obtain ⟨ht3, hd3, hi3⟩ := mountDefaultRoot_eq (mountDefaultRoot (mountDefaultRoot kdb .spec) .dir) .user
  exact ⟨((h.root .spec).root .dir).root .user, by rw [ht3, ht2, ht1], by rw [hd3, hd2, hd1],
    by rw [hi3, hi2, hi1]⟩

theorem MountState.default (h : MountState mp kdb mounts) (d i : Option BackendRef) (inFallback : Bool) :
    MountState mp (mountDefault kdb d i inFallback).2
      (mounts ++ (MountCall.default d i inFallback).mounts mp kdb) := by
  have hd : ∀ d i, MountState mp { kdb with defaultBackend := d, initBackend := i } mounts := fun _ _ =>
    ⟨⟨h.mounted.trie, h.mounted.root⟩, h.mountpoints⟩
  cases d with
  | none => simpa [mountDefault, MountCall.mounts] using hd none none
  | some d =>
    cases inFallback with
    | true =>
      obtain ⟨hst, ht, hdef, -⟩ := (hd (some d) none).roots
      simp only [mountDefault, false_and, if_false, if_true, mountDefaultSystem, not_true_eq_false,
        MountCall.mounts]
      rw [mountGetBackend_congr ht hdef, hdef]
      have hsame : mountGetBackend { kdb with defaultBackend := some d, initBackend := none }
          (some (keyNewName KDB_SYSTEM_ELEKTRA)) =
          mountGetBackend { kdb with defaultBackend := some d } (some (keyNewName KDB_SYSTEM_ELEKTRA)) :=
        mountGetBackend_congr rfl rfl _
      rw [hsame]
      split_ifs with hne
      · exact (hst.mount d).shared d
      · rw [List.append_nil]
        exact ⟨⟨hst.mounted.trie, hst.mounted.root⟩, hst.mountpoints⟩
    | false =>
      cases i with
      | none => simpa [mountDefault, MountCall.mounts] using hd (some d) none
      | some i =>
        obtain ⟨hst, -, -, hi⟩ := (hd (some d) (some i)).roots
        simp only [mountDefault, Bool.false_eq_true, if_false, mountDefaultSystem, not_false_eq_true,
          true_and, reduceCtorEq, hi, MountCall.mounts, Option.toList_some, List.flatMap_singleton]
        exact ((hst.mount i).shared i).root .system

/-- **What sequences of calls mount.** -/
theorem run_mounted (calls : List MountCall) (h : MountState mp kdb mounts) :
    MountState mp (runMounts kdb calls) (mounts ++ allMounts mp kdb calls) := by
  induction calls generalizing kdb mounts with
  | nil => simpa [runMounts, allMounts] using h
  | cons c calls ih =>
    have hstep : MountState mp (c.run kdb) (mounts ++ c.mounts mp kdb) := by
      cases c with
      | backend b => exact h.mount b
      | «open» backends => exact h.open backends
      | default d i inFallback => exact h.default d i inFallback
    have hrun := ih hstep
    rwa [List.append_assoc] at hrun

theorem allMounts_backend : ∀ (bs : List BackendRef) (kdb : KDB W),
    allMounts mp kdb (bs.map .backend) = bs.flatMap (placesOf mp)
  | [], _ => rfl
  | b :: bs, kdb => by
    rw [List.map_cons, allMounts, allMounts_backend bs, List.flatMap_cons]
    rfl

/-! ## The deepest mountpoint -/

/-- The backend that was mounted last at a place. -/
def lastMounted (mounts : List (Path × BackendRef)) (M : Path) : Option BackendRef :=
  (mounts.reverse.find? fun e => e.1 = M).map Prod.snd

/-- `b` is mounted at the deepest place that is `P` or above it. -/
def Owns (mounts : List (Path × BackendRef)) (P : Path) (b : BackendRef) : Prop :=
  ∃ M : Path, M.AtOrAbove P ∧ lastMounted mounts M = some b ∧
    ∀ e ∈ mounts, e.1.AtOrAbove P → e.1.parts.length ≤ M.parts.length

theorem mem_of_lastMounted {M : Path} {b : BackendRef} (h : lastMounted mounts M = some b) :
    (M, b) ∈ mounts := by
  obtain ⟨e, he, rfl⟩ := Option.map_eq_some_iff.mp h
  have hM := List.find?_some he
  rw [decide_eq_true_iff] at hM
  exact hM ▸ List.mem_reverse.mp (List.mem_of_find?_eq_some he)

theorem lastInserted_mountName (mounts : List (Path × BackendRef)) (M : Path) :
    lastInserted (mounts.map fun e => (mountName e.1, e.2)) (mountName M).1 = lastMounted mounts M := by
  have htest : ((fun e : CString × BackendRef => decide (e.1.1 = (mountName M).1)) ∘
      fun e : Path × BackendRef => (mountName e.1, e.2)) = fun e => decide (e.1 = M) := by
    funext e
    rw [Function.comp_apply, decide_eq_decide, ← Subtype.ext_iff, mountName_injective.eq_iff]
  rw [lastInserted, lastMounted, ← List.map_reverse, List.find?_map, Option.map_map, htest]
  rfl

theorem lastInserted_ne_none {e : Path × BackendRef} (he : e ∈ mounts) :
    lastInserted (mounts.map fun e => (mountName e.1, e.2)) (mountName e.1).1 ≠ none := by
  rw [Ne, lastInserted_eq_none]
  exact fun h => h (mountName e.1, e.2) (List.mem_map.mpr ⟨e, he, rfl⟩) rfl

theorem Path.AtOrAbove.comparable {M N P : Path} (hM : M.AtOrAbove P) (hN : N.AtOrAbove P)
    (h : M.parts.length ≤ N.parts.length) : M.AtOrAbove N :=
  ⟨hM.1.trans hN.1.symm, List.prefix_of_prefix_length_le hM.2 hN.2 h⟩

theorem mountName_length {M N : Path} (hM : M.root ≠ .cascading) (h : M.AtOrAbove N) :
    (mountName M).1.length ≤ (mountName N).1.length :=
  ((mountName_prefix_iff hM).mpr h).length_le

/-- **The longest match is the deepest mountpoint.** -/
theorem longest_owns (hroot : ∀ e ∈ mounts, e.1.root ≠ .cascading) {P : Path} {b : BackendRef} :
    Longest.longest (lastInserted (mounts.map fun e => (mountName e.1, e.2)))
      (P.name ++ [pathSeparator]) = some b ↔ Owns mounts P b := by
  rw [Longest.longest_eq_some]
  have hplace : ∀ {p : Str}, (lastInserted (mounts.map fun e => (mountName e.1, e.2)) p).isSome →
      ∃ e ∈ mounts, p = (mountName e.1).1 := by
    intro p hp
    by_contra hno
    push Not at hno
    have hnone : lastInserted (mounts.map fun e => (mountName e.1, e.2)) p = none := by
      rw [lastInserted_eq_none]
      rintro e he rfl
      obtain ⟨e', he', rfl⟩ := List.mem_map.mp he
      exact hno e' he' rfl
    rw [hnone] at hp
    cases hp
  constructor
  · rintro ⟨p, hp, hv, hmax⟩
    obtain ⟨⟨M, b'⟩, hM, rfl⟩ := hplace (by rw [hv]; rfl)
    have hMP : M.AtOrAbove P := (mountName_prefix_iff (hroot _ hM)).mp hp
    rw [lastInserted_mountName] at hv
    refine ⟨M, hMP, hv, fun e he heP => ?_⟩
    by_contra hlt
    -- a deeper place would have a longer name
    have hMe : M.AtOrAbove e.1 := hMP.comparable heP (by omega)
    have hpre := (mountName_prefix_iff (hroot _ hM)).mpr hMe
    have hlen := hmax _ ((mountName_prefix_iff (hroot e he)).mpr heP)
      (Option.isSome_iff_ne_none.mpr (lastInserted_ne_none he))
    obtain rfl : M = e.1 := mountName_injective (Subtype.ext (hpre.eq_of_length_le hlen))
    exact hlt le_rfl
  · rintro ⟨M, hMP, hlast, hmax⟩
    have hM := mem_of_lastMounted hlast
    refine ⟨_, (mountName_prefix_iff (hroot _ hM)).mpr hMP, (lastInserted_mountName mounts M).trans hlast,
      fun q hq hsome => ?_⟩
    obtain ⟨e, he, rfl⟩ := hplace hsome
    have heP := (mountName_prefix_iff (hroot e he)).mp hq
    exact mountName_length (hroot e he) (heP.comparable hMP (hmax e he heP))

theorem mountGetBackend_eq (h : Mounted kdb mounts) {key : Key} {P : Path} (hP : HasName key P) :
    mountGetBackend kdb (some key) =
      (Longest.longest (lastInserted (mounts.map fun e => (mountName e.1, e.2)))
        (P.name ++ [pathSeparator])).or kdb.defaultBackend := by
  have hn : keyName key = P.name := by rw [keyName, hP.key]; rfl
  rw [mountGetBackend, if_neg (hn ▸ P.name_ne_nil), h.trie,
    trieLookup_trieOf _ (fun _ => by rw [hn]; exact hP.keySize) (hn ▸ P.nul_name), hn]

/-- **Whatever was mounted, a key belongs to the backend of the deepest mountpoint at or above it,
or to the default backend.** -/
theorem mountGetBackend_deepest (calls : List MountCall) (hnull : kdb.trie = .null)
    (hmp : HasMountpoints kdb mp) {key : Key} {P : Path} (hP : HasName key P) :
    (∀ b, Owns (allMounts mp kdb calls) P b →
      mountGetBackend (runMounts kdb calls) (some key) = some b) ∧
    ((∃ e ∈ allMounts mp kdb calls, e.1.AtOrAbove P) → ∃ b, Owns (allMounts mp kdb calls) P b) ∧
    ((∀ e ∈ allMounts mp kdb calls, ¬ e.1.AtOrAbove P) →
      mountGetBackend (runMounts kdb calls) (some key) = (runMounts kdb calls).defaultBackend) := by
  have hst : MountState mp kdb [] := ⟨⟨hnull, nofun⟩, hmp⟩
  have hrun := (run_mounted calls hst).mounted
  rw [List.nil_append] at hrun
  rw [mountGetBackend_eq hrun hP]
  refine ⟨fun b hb => ?_, ?_, fun hno => ?_⟩
  · rw [(longest_owns hrun.root).mpr hb, Option.some_or]
  · rintro ⟨e, he, heP⟩
    obtain ⟨b, hb⟩ := Option.ne_none_iff_exists'.mp (mt Longest.longest_eq_none.mp fun h =>
      lastInserted_ne_none he (h _ ((mountName_prefix_iff (hrun.root e he)).mpr heP)))
    exact ⟨b, (longest_owns hrun.root).mp hb⟩
  · rw [Option.or_eq_right_of_none]
    rw [Longest.longest_eq_none]
    intro p hp
    rw [lastInserted_eq_none]
    rintro e he rfl
    obtain ⟨e', he', rfl⟩ := List.mem_map.mp he
    exact hno e' he' ((mountName_prefix_iff (hrun.root e' he')).mp hp)

end Calls

/-- A new handle. -/
def kdbNew {W : Type} (backend : BackendRef → Backend W) : KDB W :=
  { trie := .null, split := [], defaultBackend := none, initBackend := none,
    globalPlugins := fun _ => none, backend := backend }

/-- A backend without plugins. -/
def bareBackend (mountpoint : Key) : Backend Unit :=
  { mountpoint := some mountpoint, setplugins := fun _ => none, getplugins := fun _ => none,
    errorplugins := fun _ => none, specsize := -1, dirsize := -1, usersize := -1, systemsize := -1,
    refcounter := 1 }

/-- `/` and, as `0`, `user/a`. -/
def rootAndUserA : KDB Unit :=
  kdbNew fun b => bareBackend (keyNewName (if b = 0 then str "user/a" else str "/"))

theorem mountGetBackend_deepest_userA :
    mountGetBackend (runMounts rootAndUserA [.backend 0, .backend 1])
      (some (keyNewName (str "user/a/b"))) = some 0 := by
  have hmp : HasMountpoints rootAndUserA
      fun b => if b = 0 then some userA else some ⟨.cascading, []⟩ := by
    intro b
    by_cases hb : b = 0
    · subst hb
      exact ⟨_, rfl, hasName_userA⟩
    · refine ⟨keyNewName (str "/"), by simp [rootAndUserA, kdbNew, bareBackend, hb], ?_⟩
      simp only [hb, if_false]
      exact ⟨rfl, rfl, rfl, rfl⟩
  have hP : HasName (keyNewName (str "user/a/b")) (userA.add ⟨str "b", by decide⟩) :=
    ⟨rfl, rfl, rfl, rfl⟩
  exact (mountGetBackend_deepest [.backend 0, .backend 1] rfl hmp hP).1 0
    ⟨userA, by decide, by decide +kernel, by decide +kernel⟩

end Elektra
