import Elektra.Split.Buildup

/-!
# The cascading bits of a handle

A backend that is listed in several namespaces has the cascading bit at every one of its entries. Without the bit
the first entry of a backend is taken, and then there is only one.

* `Flagged`, `Flags`: the bits of an entry and of a handle;
* `mountBackend_entries`: what is listed for a backend;
* **`Openable.flags`**.
-/

namespace Elektra

variable {W : Type} {mp : BackendRef → Option Path} {d b : BackendRef} {kdb : KDB W}

/-- The entry is of one of the namespaces that are searched by. -/
def InRoots (e : SplitEntry) : Prop := ∃ ns ∈ rootNamespaces, (keyGetNamespace e.parent).root = some (.ns ns)

/-- The entry has the cascading bit, or its backend has only one place. -/
structure Flagged (mp : BackendRef → Option Path) (d : BackendRef) (e : SplitEntry) : Prop where
  handle : e.handle ≠ none
  keyset : e.keyset = []
  bits : e.syncbits = SPLIT_FLAG_CASCADING ∧ InRoots e ∨
    e.syncbits = 0 ∧ e.handle ≠ some d ∧ ∀ b, e.handle = some b → ∃ M, mountPlaces (mp b) = [M]

/-- What opening keeps. -/
structure Flags (mp : BackendRef → Option Path) (d : BackendRef) (kdb : KDB W) : Prop where
  mountpoints : HasMountpoints kdb mp
  flagged : ∀ e ∈ kdb.split, Flagged mp d e

/-! ## What is listed for a backend -/

theorem foldl_mountAt_split {name : Namespace → Str} {parent : Namespace → Key} (bits : ℕ) :
    ∀ (l : List Namespace) (kdb : KDB W),
      (l.foldl (fun kdb ns => mountAt kdb b (name ns) (parent ns) bits) kdb).split = kdb.split ++ l.map fun ns =>
        { keyset := [], handle := some b, parent := parent ns, syncbits := bits }
  | [], kdb => (List.append_nil _).symm
  | ns :: l, kdb => by
    rw [List.foldl_cons, foldl_mountAt_split bits l]
    exact List.append_assoc _ _ _

/-- An entry of a backend that was just mounted. -/
structure NewEntry (mp : BackendRef → Option Path) (b : BackendRef) (e : SplitEntry) : Prop where
  handle : e.handle = some b
  keyset : e.keyset = []
  bits : e.syncbits = SPLIT_FLAG_CASCADING ∧ InRoots e ∨ e.syncbits = 0 ∧ ∃ M, mountPlaces (mp b) = [M]

theorem newEntry_root {parent : Key} {ns : Namespace} {ps : List CString} (hns : ns ∈ rootNamespaces)
    (hparent : HasName parent ⟨.ns ns, ps⟩) :
    NewEntry mp b { keyset := [], handle := some b, parent := parent, syncbits := 2 } :=
  ⟨rfl, rfl, .inl ⟨rfl, ns, hns, keyGetNamespace_root hparent⟩⟩

theorem newEntry_single {parent : Key} {M : Path} (hM : mountPlaces (mp b) = [M]) :
    NewEntry mp b { keyset := [], handle := some b, parent := parent, syncbits := 0 } :=
  ⟨rfl, rfl, .inr ⟨rfl, M, hM⟩⟩

theorem mountBackend_entries (hb : HasMountpoint (kdb.backend b) (mp b)) :
    ∃ new, (mountBackend kdb b).split = kdb.split ++ new ∧ ∀ e ∈ new, NewEntry mp b e := by
  obtain ⟨key, hkey, hname⟩ := hb
  rw [mountBackend, hkey, Option.getD_some]
  cases hmp : mp b with
  | none =>
    rw [hmp] at hname
    have hn : keyName key = [] := hname
    simp only [hn, if_true]
    refine ⟨_, rfl, fun e he => ?_⟩
    rw [List.mem_singleton.mp he]
    exact newEntry_single (congrArg mountPlaces hmp)
  | some M =>
    rw [hmp] at hname
    obtain ⟨r, ps⟩ := M
    have hM : HasName key ⟨r, ps⟩ := hname
    have hn : keyName key = (Path.mk r ps).name := by rw [keyName, hM.key]; rfl
    have hne : keyName key ≠ [] := hn ▸ Path.name_ne_nil _
    cases r with
    | cascading =>
      cases ps with
      | nil =>
        have hroot : keyName key = [pathSeparator] := hn
        simp only [hroot, List.cons_ne_self, if_false, if_true]
        rw [setRefcounter_split, foldl_mountAt_split]
        refine ⟨_, rfl, fun e he => ?_⟩
        obtain ⟨ns, hns, rfl⟩ := List.mem_map.mp he
        exact newEntry_root hns ((keyNewName_root ns).data _)
      | cons p ps =>
        have hroot : keyName key ≠ [pathSeparator] := by
          rw [hn, Ne, Path.name_eq_slash, Path.stem_eq_nil]
          exact fun h => List.cons_ne_nil p ps h.2
        have hhead : (keyName key).head? = some pathSeparator := by
          rw [hn, Path.head_name]
        simp only [hne, hroot, hhead, if_false, if_true]
        rw [setRefcounter_split, foldl_mountAt_split]
        refine ⟨_, rfl, fun e he => ?_⟩
        obtain ⟨ns, hns, rfl⟩ := List.mem_map.mp he
        have hplace : (mountName ⟨.ns ns, p :: ps⟩).1 = ns.name ++ keyName key ++ [pathSeparator] := by
          change (Path.mk (.ns ns) (p :: ps)).name ++ _ = _
          rw [Path.name_ns, hn, Path.name_cascading (List.cons_ne_nil p ps)]
        rw [← hplace]
        have hsub : cascadingNamespaces ⊆ rootNamespaces := by decide
        exact newEntry_root (hsub hns) ((keyNewName_separator (List.cons_ne_nil p ps)).data _)
    | ns m =>
      have hhead : (keyName key).head? ≠ some pathSeparator := by
        rw [hn, Ne, Path.head_name]
        exact Root.ns_ne m
      have hroot : keyName key ≠ [pathSeparator] := fun he => hhead (he ▸ rfl)
      simp only [hne, hroot, hhead, if_false]
      refine ⟨_, rfl, fun e he => ?_⟩
      rw [List.mem_singleton.mp he]
      exact newEntry_single (congrArg mountPlaces hmp)

theorem mountBackend_elektra (hb : HasMountpoint (kdb.backend b) none) :
    ∃ e, (mountBackend kdb b).split = kdb.split ++ [e] ∧ e.handle = some b ∧ e.keyset = [] ∧ InRoots e := by
  obtain ⟨key, hkey, hname⟩ := hb
  have hn : keyName key = [] := hname
  rw [mountBackend, hkey, Option.getD_some]
  simp only [hn, if_true]
  exact ⟨_, rfl, rfl, rfl, .system, by decide, keyGetNamespace_root (P := systemElektra) ⟨rfl, rfl, rfl, rfl⟩⟩

/-! ## Mounting -/

theorem NewEntry.flagged {e : SplitEntry} (h : NewEntry mp b e) (hb : b ≠ d) : Flagged mp d e where
  handle := by
    rw [h.handle]
    exact Option.some_ne_none b
  keyset := h.keyset
  bits := h.bits.imp_right fun ⟨hbits, hM⟩ => ⟨hbits, by
    rw [h.handle]
    exact fun heq => hb (Option.some.inj heq), fun b' hb' => by
    obtain rfl := Option.some.inj (h.handle.symm.trans hb')
    exact hM⟩

theorem Flags.mount (h : Flags mp d kdb) (hb : b ≠ d) : Flags mp d (mountBackend kdb b) where
  mountpoints := h.mountpoints.mount b
  flagged e he := by
    obtain ⟨new, hsplit, hnew⟩ := mountBackend_entries (h.mountpoints b)
    rw [hsplit] at he
    obtain he | he := List.mem_append.mp he
    · exact h.flagged e he
    · exact (hnew e he).flagged hb

theorem Flags.mount_shared (h : Flags mp d kdb) (hb : mp b = none) :
    Flags mp d (mountShared (mountBackend kdb b) b) where
  mountpoints := (h.mountpoints.mount b).of_eq fun c => setRefcounter_mountpoint _ b c _
  flagged e he := by
    obtain ⟨new, hsplit, hhandle, hkeyset, hroot⟩ := mountBackend_elektra (hb ▸ h.mountpoints b)
    have hshared : (mountShared (mountBackend kdb b) b).split =
        kdb.split ++ [{ new with syncbits := 2 }] := by
      change (mountBackend kdb b).split.dropLast ++ (mountBackend kdb b).split.getLast?.toList.map _ = _
      rw [hsplit, List.dropLast_concat, List.getLast?_concat]
      rfl
    rw [hshared] at he
    obtain he | he := List.mem_append.mp he
    · exact h.flagged e he
    · rw [List.mem_singleton.mp he]
      refine ⟨?_, hkeyset, .inl ⟨rfl, hroot⟩⟩
      dsimp only
      rw [hhandle]
      exact Option.some_ne_none b

theorem flagged_root {ns : Namespace} (hns : ns ∈ rootNamespaces) : Flagged mp d
    { keyset := [], handle := some d, parent := keyNewValue ns.name (str "default"), syncbits := 2 } :=
  ⟨Option.some_ne_none d, rfl, .inl ⟨rfl, ns, hns, keyGetNamespace_root ((keyNewName_root ns).data _)⟩⟩

theorem Flags.append (h : Flags mp d kdb) {e : SplitEntry} (he : Flagged mp d e) :
    Flags mp d { kdb with split := kdb.split ++ [e] } where
  mountpoints := h.mountpoints
  flagged e' he' := by
    obtain he' | he' := List.mem_append.mp he'
    · exact h.flagged e' he'
    · rw [List.mem_singleton.mp he']
      exact he

theorem Flags.root (h : Flags mp d kdb) (hdef : kdb.defaultBackend = some d) {ns : Namespace}
    (hns : ns ∈ rootNamespaces) :
    Flags mp d (mountDefaultRoot kdb ns) ∧ (mountDefaultRoot kdb ns).defaultBackend = some d := by
  refine ⟨?_, (mountDefaultRoot_eq kdb ns).2.1.trans hdef⟩
  unfold mountDefaultRoot
  dsimp only
  split_ifs with hne
  · exact h
  · rw [not_not] at hne
    rw [hne.trans hdef]
    exact h.append (flagged_root hns)

theorem Flags.roots (h : Flags mp d kdb) (hdef : kdb.defaultBackend = some d) :
    Flags mp d (mountDefaultRoot (mountDefaultRoot (mountDefaultRoot kdb .spec) .dir) .user) ∧
      (mountDefaultRoot (mountDefaultRoot (mountDefaultRoot kdb .spec) .dir) .user).defaultBackend = some d := by
  obtain ⟨h1, hdef1⟩ := h.root hdef (by decide : Namespace.spec ∈ rootNamespaces)
  obtain ⟨h2, hdef2⟩ := h1.root hdef1 (by decide : Namespace.dir ∈ rootNamespaces)
  exact h2.root hdef2 (by decide)

theorem Flags.default (h : Flags mp d kdb) (hd : mp d = none) {i : Option BackendRef} (hi : ∀ b ∈ i, mp b = none)
    (inFallback : Bool) : Flags mp d (mountDefault kdb (some d) i inFallback).2 := by
  have hstart : ∀ i', Flags mp d { kdb with defaultBackend := some d, initBackend := i' } := fun _ =>
    ⟨h.mountpoints, h.flagged⟩
  have hroots := fun i' => (hstart i').roots rfl
  cases inFallback with
  | true =>
    obtain ⟨hflags, hdef⟩ := hroots none
    simp only [mountDefault, false_and, if_false, if_true, mountDefaultSystem, not_true_eq_false]
    generalize mountDefaultRoot _ .user = k at hflags hdef ⊢
    split_ifs with hne
    · exact hflags.mount_shared hd
    · rw [not_not] at hne
      rw [hne.trans hdef]
      exact hflags.append (flagged_root (by decide : Namespace.system ∈ rootNamespaces))
  | false =>
    cases i with
    | none => simpa [mountDefault] using hstart none
    | some i =>
      obtain ⟨hflags, hdef⟩ := hroots (some i)
      have hinit : (mountDefaultRoot (mountDefaultRoot (mountDefaultRoot
          { kdb with defaultBackend := some d, initBackend := some i } .spec) .dir) .user).initBackend = some i := by
        rw [(mountDefaultRoot_eq _ .user).2.2, (mountDefaultRoot_eq _ .dir).2.2, (mountDefaultRoot_eq _ .spec).2.2]
      simp only [mountDefault, Bool.false_eq_true, if_false, mountDefaultSystem, not_false_eq_true, true_and,
        reduceCtorEq, hinit]
      generalize mountDefaultRoot _ .user = k at hflags hdef ⊢
      have hdef' : (mountShared (mountBackend k i) i).defaultBackend = some d := (mountBackend_default k i).trans hdef
      exact ((hflags.mount_shared (hi i rfl)).root hdef' (by decide)).1

theorem Flags.foldl : ∀ (bs : List BackendRef) {kdb : KDB W}, Flags mp d kdb → (∀ b ∈ bs, b ≠ d) →
    Flags mp d (bs.foldl mountBackend kdb)
  | [], _, h, _ => h
  | b :: bs, _, h, hbs =>
    Flags.foldl bs (h.mount (hbs b List.mem_cons_self)) fun b' hb' => hbs b' (List.mem_cons_of_mem b hb')

/-- **The bits after opening**, where the backend for `system/elektra` has no mountpoint of its own. -/
theorem Openable.flags {backends : List (Option BackendRef)} {i : Option BackendRef} {later : List BackendRef}
    (h : Openable mp kdb backends d i later) (hi : ∀ b ∈ i, mp b = none) (inFallback : Bool) :
    Flags mp d (kdbMount kdb backends d i inFallback later) := by
  have hstart : Flags mp d kdb := ⟨h.mountpoints, by rw [h.split]; nofun⟩
  have hdistinct := h.distinct
  rw [List.append_assoc] at hdistinct
  obtain ⟨-, hrest, hdisj⟩ := List.nodup_append.mp hdistinct
  have hopen := hstart.foldl backends.reduceOption fun b hb hbd => hdisj b hb d (by simp) hbd
  rw [← mountOpen_eq h.mountpoints] at hopen
  have hlater : ∀ b ∈ later, b ≠ d := by
    rintro b hb rfl
    rw [List.cons_append, List.nodup_cons, List.mem_append] at hrest
    exact hrest.1 (.inr hb)
  have hrun := (hopen.default h.default hi inFallback).foldl later hlater
  simpa only [kdbMount, runMounts, List.foldl_cons, List.foldl_map, MountCall.run] using hrun

end Elektra
