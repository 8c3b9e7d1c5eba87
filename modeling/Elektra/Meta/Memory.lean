import Elektra.Lookup.References
import Elektra.Meta.KeyMeta

/-!
# Keys and their metadata

Each key has metadata of its own; the metakeys may be shared.

* `Memory`, `Memory.getMeta`: `keyGetMeta` of one of the keys;
* `IsMetaKey`, `Memory.Valid`;
* `tried`, `candidate`, `found`: the metakeys that a name may stand for;
* **`getMeta_spec`**: the metakey that is found.
-/

namespace Elektra.KeyMeta

open Choice

/-- All keys, and the metadata of each: `metaKeys` of a cell stands for nothing here. -/
structure Memory where
  heap : Heap
  /-- `key->meta` -/
  metas : KeyRef → Option KeySet

namespace Memory

/-- One of the keys, as `keyGetMeta` and `keySetMeta` see it. -/
def state (s : Memory) (k : KeyRef) : MetaState :=
  { heap := s.heap, keyset := s.metas k, roMeta := (s.heap.cell k).roMeta, sync := (s.heap.cell k).sync }

/-- `keyGetMeta (k, metaName)` -/
def getMeta (fuel : ℕ) (s : Memory) (k : KeyRef) (metaName : Str) : Except Stop (Option KeyRef × Memory) := do
  let (ret, t) ← keyGetMeta fuel (s.state k) (some metaName)
  .ok (ret, { heap := t.heap, metas := Function.update s.metas k t.keyset })

/-- The metakeys of a key. -/
def metadata (s : Memory) (k : KeyRef) : List KeyRef := (s.metas k).elim [] KeySet.array

/-- The metadata of a key, as lookups see it. -/
def content (s : Memory) (k : KeyRef) : Content := (s.metas k).elim (fun _ => none) (Elektra.content s.heap)

end Memory

/-- A metakey has a name and a string, and no metadata of its own but that of callbacks. -/
structure IsMetaKey (key : Key) : Prop where
  named : ∃ name, Finalized key (some name)
  string : ∃ v, 0 ∉ v ∧ key.data = some (v ++ [0])
  bare : ∀ m, isCallbackMeta m = false → Elektra.keyGetMeta key m = none

/-- The metadata of a key. -/
structure Memory.ValidMeta (s : Memory) (k : KeyRef) : Prop where
  holds : ∀ ks, s.metas k = some ks → ∃ m, ks.Holds s.heap m
  metaKey : ∀ r ∈ s.metadata k, IsMetaKey (s.heap.cell r)

/-! ## What a name stands for -/

/-- The names that a metadata name may stand for, in the order in which they are tried. -/
def tried (name : Str) : List Str :=
  if name.head? = some pathSeparator then namespaces.map (fun ns => ns.name ++ name) ++ [name] else [name]

/-- The metakey that is found where `q` is tried. One with the name of the specification is not taken as
it is, but where the name begins otherwise than with `spec/`. -/
def candidate (c : Content) (name q : Str) : Option KeyRef :=
  ((c q).filter fun s => q ≠ str "spec" ++ name || !(str "spec/").isPrefixOf s.name).map KeyInfo.ref

def found (c : Content) (name : Str) : Option KeyRef := (tried name).findSome? (candidate c name)

/-- What `keyGetMeta` finds. -/
def Memory.found (s : Memory) (k : KeyRef) (metaName : Str) : Option KeyRef :=
  (metaKey metaName).key.bind (KeyMeta.found (s.content k))

/-- The keys specify nothing, and are found by their unescaped names. -/
structure Bare (c : Content) : Prop where
  overrides : ∀ name s, c name = some s → s.overrides = []
  namespaces : ∀ name s, c name = some s → s.namespaces = []
  fallbacks : ∀ name s, c name = some s → s.fallbacks = []
  default : ∀ name s, c name = some s → s.default = none
  congr : ∀ name name', unameOf name = unameOf name' → c name = c name'
  uname : ∀ name s, c name = some s → unameOf s.name = unameOf name

theorem unameOf_ns (m : Namespace) (t : Str) :
    unameOf (m.name ++ pathSeparator :: t) = m.name ++ unameOf (pathSeparator :: t) := by
  have hlevels : levels (m.name ++ pathSeparator :: t) = m.name :: levels (pathSeparator :: t) :=
    levels_cons m.isLevel (.inr ⟨m.closed, t, rfl⟩)
  have hhead : (m.name ++ pathSeparator :: t).head? ≠ some pathSeparator := by
    cases m <;> simp [Namespace.name, str, pathSeparator]
  have hleft : elektraUnescapeKeyName (m.name ++ pathSeparator :: t) =
      m.name ++ [0] ++ (levels (pathSeparator :: t)).flatMap fun l => unescapeLevel l ++ [0] := by
    rw [elektraUnescapeKeyName, if_neg hhead, hlevels, List.flatMap_cons, m.unescape_name, List.nil_append]
  have hright : elektraUnescapeKeyName (pathSeparator :: t) =
      [0] ++ (levels (pathSeparator :: t)).flatMap fun l => unescapeLevel l ++ [0] := rfl
  rw [unameOf, unameOf, if_neg (by simp), if_neg (by simp), hleft, hright, List.append_assoc]

theorem first_findSome {P Q A E B : Type} {run : Q → Except E (Option A)} {q : P → Q} {o : P → Option B} {f : B → A} :
    ∀ {l : List P}, (∀ x ∈ l, run (q x) = .ok ((o x).map f)) → first run (l.map q) = .ok ((l.findSome? o).map f)
  | [], _ => rfl
  | x :: l, h => by
    rw [List.map_cons, first_cons, h x List.mem_cons_self, List.findSome?_cons]
    cases o x with
    | some b => rfl
    | none => exact first_findSome fun y hy => h y (List.mem_cons_of_mem x hy)

theorem candidate_eq {c : Content} {name q : Str} (hq : q ≠ str "spec" ++ name) :
    candidate c name q = (c q).map KeyInfo.ref := by
  rw [candidate]
  cases c q with
  | none => rfl
  | some s => rw [Option.filter_some, if_pos (by simp [hq])]

theorem ne_spec {m : Namespace} (hm : m ≠ .spec) (name : Str) : m.name ++ name ≠ str "spec" ++ name := fun h =>
  hm (Namespace.name_injective (List.append_cancel_right (h : m.name ++ name = Namespace.spec.name ++ name)))

theorem self_ne_spec (name : Str) : name ≠ str "spec" ++ name := fun h => by
  have hlen := congrArg List.length h
  simp only [str, List.length_append] at hlen
  exact absurd hlen (Nat.ne_of_lt (Nat.lt_add_of_pos_left (by decide)))

theorem findSome_congr {A B : Type} {f g : A → Option B} : ∀ {l : List A}, (∀ x ∈ l, f x = g x) →
    l.findSome? f = l.findSome? g
  | [], _ => rfl
  | a :: l, h => by
    rw [List.findSome?_cons, List.findSome?_cons, h a List.mem_cons_self,
      findSome_congr fun x hx => h x (List.mem_cons_of_mem a hx)]

theorem found_cascading {c : Content} {name : Str} (hhead : name.head? = some pathSeparator) :
    found c name = ((candidate c name (str "spec" ++ name)).or
      (((([.proc, .dir, .user, .system] : List Namespace).map fun ns => ns.name ++ name) ++ [name]).findSome?
        fun q => (c q).map KeyInfo.ref)) := by
  have hrest : ∀ q ∈ (([.proc, .dir, .user, .system] : List Namespace).map fun ns => ns.name ++ name) ++ [name],
      candidate c name q = (c q).map KeyInfo.ref := by
    intro q hq
    obtain hq | hq := List.mem_append.mp hq
    · obtain ⟨ns, hns, rfl⟩ := List.mem_map.mp hq
      exact candidate_eq (ne_spec (by rintro rfl; exact absurd hns (by decide)) name)
    · rw [List.mem_singleton.mp hq]
      exact candidate_eq (self_ne_spec name)
  have htried : tried name = (str "spec" ++ name) ::
      ((([.proc, .dir, .user, .system] : List Namespace).map fun ns => ns.name ++ name) ++ [name]) := if_pos hhead
  rw [found, htried, List.findSome?_cons, findSome_congr hrest]
  cases candidate c name (str "spec" ++ name) <;> rfl

/-- One lookup after the other, in the namespaces and for the name itself. -/
theorem eval_cascading {c : Content} {name : Str} {o : Options} (n : ℕ) :
    first (eval (resolution c) .fuel (n + 1)) ((([.proc, .dir, .user, .system] : List Namespace).map
      fun ns => .lookup (some (ns.name ++ name)) o) ++ [.lookup (some name) { nocascading := true }]) =
    .ok ((((([.proc, .dir, .user, .system] : List Namespace).map fun ns => ns.name ++ name) ++ [name]).findSome?
      fun q => (c q).map KeyInfo.ref).map .found) := by
  have hns : ∀ ns : Namespace, eval (resolution c) .fuel (n + 1) (.lookup (some (ns.name ++ name)) o) =
      .ok (((c (ns.name ++ name)).map KeyInfo.ref).map .found) := fun ns => by
    rw [eval_direct c ((Bool.or_eq_true _ _).mpr (.inr (by cases ns <;> rfl))), Option.map_map]
    rfl
  have hself : eval (resolution c) .fuel (n + 1) (.lookup (some name) { nocascading := true }) =
      .ok (((c name).map KeyInfo.ref).map .found) := by
    rw [eval_direct c rfl, Option.map_map]
    rfl
  rw [first_append, first_findSome fun ns _ => hns ns, first_singleton, hself, List.findSome?_append,
    List.findSome?_map, List.findSome?_singleton]
  simp only [Function.comp_def]
  cases ([.proc, .dir, .user, .system] : List Namespace).findSome? fun ns => (c (ns.name ++ name)).map KeyInfo.ref <;> rfl

/-- **A name resolves to the first of its candidates.** -/
theorem eval_found {c : Content} (hc : Bare c) (name : Str) (n : ℕ) :
    eval (resolution c) .fuel (n + 2) (.lookup (some name) {}) = .ok ((found c name).map .found) := by
  by_cases hhead : name.head? = some pathSeparator
  · obtain ⟨t, rfl⟩ : ∃ t, name = pathSeparator :: t := by
      obtain ⟨d, t, rfl⟩ := List.exists_cons_of_ne_nil (fun h : name = [] => by rw [h] at hhead; cases hhead)
      exact ⟨t, by rw [Option.some.inj hhead]⟩
    have hd : ¬ direct (pathSeparator :: t) {} = true := by simp [direct]
    rw [eval, resolution, if_neg hd]
    dsimp only
    rw [found_cascading hhead, candidate, attempts, if_neg Bool.false_ne_true]
    cases hs : c (str "spec" ++ pathSeparator :: t) with
    | none => exact eval_cascading n
    | some s =>
      by_cases hpre : (str "spec/").isPrefixOf s.name = true
      · -- the specification says nothing: the namespaces are tried below its name
        obtain ⟨u, hu⟩ := List.isPrefixOf_iff_prefix.mp hpre
        have hname : s.name = Namespace.spec.name ++ pathSeparator :: u := hu.symm
        have hdrop : s.name.dropWhile (· ≠ pathSeparator) = pathSeparator :: u := by rw [hname]; rfl
        have huname : unameOf (pathSeparator :: u) = unameOf (pathSeparator :: t) := by
          have h := hc.uname _ s hs
          rw [hname] at h
          exact List.append_cancel_left
            ((unameOf_ns .spec u).symm.trans (h.trans (unameOf_ns .spec t)))
        have hns : ∀ ns : Namespace, c (ns.name ++ pathSeparator :: u) = c (ns.name ++ pathSeparator :: t) :=
          fun ns => hc.congr _ _ (by rw [unameOf_ns, unameOf_ns, huname])
        have hattempts : specAttempts s {} = (([.proc, .dir, .user, .system] : List Namespace).map
            fun ns => .lookup (some (ns.name ++ pathSeparator :: u)) { nospec := true, nodefault := true }) ++
              [.lookup (some (pathSeparator :: u)) { nocascading := true }] := by
          rw [specAttempts, hdrop, hc.overrides _ s hs, hc.fallbacks _ s hs, namespaceAttempts, hc.namespaces _ s hs,
            defaultAttempts, hc.default _ s hs]
          rfl
        dsimp only
        have hrest : ((([.proc, .dir, .user, .system] : List Namespace).map fun ns => ns.name ++ pathSeparator :: u) ++
            [pathSeparator :: u]).findSome? (fun q => (c q).map KeyInfo.ref) =
            ((([.proc, .dir, .user, .system] : List Namespace).map fun ns => ns.name ++ pathSeparator :: t) ++
            [pathSeparator :: t]).findSome? fun q => (c q).map KeyInfo.ref := by
          simp only [List.map_cons, List.map_nil, List.cons_append, List.nil_append, List.findSome?_cons, hns,
            hc.congr _ _ huname]
        rw [if_pos hpre, hattempts, eval_cascading, hrest, Option.filter_some, if_neg (by simp [hpre])]
        rfl
      · have hnot : (!(str "spec/").isPrefixOf s.name) = true := by
          rw [Bool.eq_false_of_not_eq_true hpre]
          rfl
        dsimp only
        rw [if_neg hpre, Option.filter_some, if_pos (by rw [hnot, Bool.or_true]), first_singleton]
        rfl
  · have hd : direct name {} = true := by simp [direct, hhead]
    rw [eval_direct c hd (n + 1), found, tried, if_neg hhead, List.findSome?_cons, candidate_eq (self_ne_spec name)]
    cases c name <;> rfl

/-! ## Reading -/

section Reading

variable {s s' s'' : Memory} {k : KeyRef}

/-- The references of the metadata of a key, and those from elsewhere. -/
def Memory.refs (s : Memory) (k : KeyRef) (N : KeyRef → ℕ) (r : KeyRef) : ℕ := (s.metadata k).count r + N r

/-- The cursors are somewhere else, and there may be more keys. -/
structure Reads (s s' : Memory) : Prop where
  frame : Frame s.heap s'.heap
  metas : ∀ j, (s'.metas j).map (fun ks => (ks.array, ks.alloc)) = (s.metas j).map fun ks => (ks.array, ks.alloc)

theorem Reads.refl (s : Memory) : Reads s s := ⟨Frame.refl _, fun _ => rfl⟩

theorem Reads.trans (h : Reads s s') (h' : Reads s' s'') : Reads s s'' :=
  ⟨h.frame.trans h'.frame, fun j => (h'.metas j).trans (h.metas j)⟩

theorem Reads.metadata (h : Reads s s') (j : KeyRef) : s'.metadata j = s.metadata j := by
  have hm := congrArg (fun o : Option (List KeyRef × ℕ) => o.elim [] Prod.fst) (h.metas j)
  unfold Memory.metadata
  cases hj : s.metas j <;> cases hj' : s'.metas j <;> rw [hj, hj'] at hm <;> exact hm

theorem IsMetaKey.alike {key key' : Key} (h : IsMetaKey key) (ha : Alike key key') : IsMetaKey key' where
  named := h.named.imp fun _ hname => ha.finalized hname
  string := by rw [ha.data]; exact h.string
  bare m hm := (ha.getMeta m hm).trans (h.bare m hm)

theorem Memory.ValidMeta.lt (hv : s.ValidMeta k) {r : KeyRef} (hr : r ∈ s.metadata k) : r < s.heap.next := by
  cases hks : s.metas k with
  | none =>
    rw [Memory.metadata, hks] at hr
    cases hr
  | some ks =>
    obtain ⟨m, hm⟩ := hv.holds ks hks
    rw [Memory.metadata, hks] at hr
    exact (hm.entry r hr).lt

theorem Memory.ValidMeta.reads (hv : s.ValidMeta k) (h : Reads s s') : s'.ValidMeta k where
  holds ks' hks' := by
    have hm := h.metas k
    rw [hks'] at hm
    cases hks : s.metas k with
    | none =>
      rw [hks] at hm
      cases hm
    | some ks =>
      rw [hks] at hm
      obtain ⟨harray, halloc⟩ := Prod.mk.inj (Option.some.inj hm)
      obtain ⟨m, hm⟩ := hv.holds ks hks
      exact ⟨m, (hm.of_array harray (halloc ▸ hm.room) (halloc ▸ hm.least)).keeps h.frame.keeps⟩
  metaKey r hr := by
    rw [h.metadata] at hr
    exact (hv.metaKey r hr).alike (h.frame.cell r (hv.lt hr)).toAlike

theorem bare_content (hv : s.ValidMeta k) {ks : KeySet} (hks : s.metas k = some ks) : Bare (content s.heap ks) := by
  have hmeta : ∀ {name info}, content s.heap ks name = some info → ∃ r, IsMetaKey (s.heap.cell r) ∧
      info = describe s.heap r ∧ (s.heap.cell r).ukey = unameOf name := by
    intro name info h
    obtain ⟨r, hr, rfl⟩ := Option.map_eq_some_iff.mp h
    obtain ⟨hmem, hu⟩ := findByName_some hr
    exact ⟨r, hv.metaKey r (by rw [Memory.metadata, hks]; exact hmem), rfl, hu⟩
  have hlinks : ∀ {r buffer}, IsMetaKey (s.heap.cell r) →
      isCallbackMeta (buffer ++ elektraWriteArrayNumber 0) = false → linkValues (s.heap.cell r) buffer = [] := by
    intro r buffer hr hb
    rw [linkValues, linkLoop, hr.bare _ hb]
  constructor
  · intro name info h
    obtain ⟨r, hr, rfl, -⟩ := hmeta h
    exact hlinks hr rfl
  · intro name info h
    obtain ⟨r, hr, rfl, -⟩ := hmeta h
    exact hlinks hr rfl
  · intro name info h
    obtain ⟨r, hr, rfl, -⟩ := hmeta h
    exact hlinks hr rfl
  · intro name info h
    obtain ⟨r, hr, rfl, -⟩ := hmeta h
    exact hr.bare _ rfl
  · intro name name' h
    rw [content, content, h]
  · intro name info h
    obtain ⟨r, hr, rfl, hu⟩ := hmeta h
    obtain ⟨q, hq⟩ := hr.named
    have hname : keyName (s.heap.cell r) = q := by rw [keyName, hq.key]; rfl
    rw [← hu, hq.ukey q rfl, describe, hname]

theorem refs_eq {ks : KeySet} (hks : s.metas k = some ks) (N : KeyRef → ℕ) : s.refs k N = ks.refs N := by
  funext r
  rw [Memory.refs, Memory.metadata, hks]
  rfl

theorem lookup_found (fuel : ℕ) (hv : s.ValidMeta k) {ks : KeySet} (hks : s.metas k = some ks) (n : Str) :
    ∃ w, lookup (fuel + 2) { heap := (s.heap.alloc (metaKey n)).2, ks := ks } s.heap.next {} =
        .ok (s.found k n, w) ∧ Frame s.heap w.heap ∧ w.ks.array = ks.array ∧ w.ks.alloc = ks.alloc ∧
      ∀ N, Counted s.heap (ks.refs N) → Counted w.heap (ks.refs N) ∧ s.heap.next < w.heap.next := by
  obtain ⟨m, hm⟩ := hv.holds ks hks
  have hcell := alloc_cell s.heap (metaKey n)
  have hframe := frame_alloc s.heap (metaKey n)
  have hlt : s.heap.next < (s.heap.alloc (metaKey n)).2.next := Nat.lt_succ_self _
  have hfound : s.found k n = (metaKey n).key.bind fun name => found (content s.heap ks) name := by
    rw [Memory.found, Memory.content, hks]
    rfl
  have href : (metaKey n).ksReference = 0 := keySetName_reference _ _ _
  by_cases hn : (metaKey n).key = none
  · have hunnamed : (World.cell { heap := (s.heap.alloc (metaKey n)).2, ks := ks } s.heap.next).key = none := by
      rw [World.cell, hcell]
      exact hn
    rw [hfound, hn, lookup_unnamed hunnamed]
    exact ⟨_, rfl, hframe, rfl, rfl, fun N hc => ⟨(hc.alloc href : Counts false _ _ _ _).counted, hlt⟩⟩
  · have hf := metaKey_finalized hn
    have hname : (metaKey n).key = some (keyName (metaKey n)) := hf.key
    have hcontent : content (s.heap.alloc (metaKey n)).2 ks = content s.heap ks :=
      content_congr rfl fun r hr => hframe.keeps.cell r (hm.entry r hr).lt
    have hfin : Finalized (World.cell { heap := (s.heap.alloc (metaKey n)).2, ks := ks } s.heap.next)
        (some (keyName (metaKey n))) := by
      rw [World.cell, hcell]
      exact hf
    have hrefines := ksLookup_refines transparent_noCallback _ (fuel + 2)
      (w := { heap := (s.heap.alloc (metaKey n)).2, ks := ks }) ⟨⟨m, hm.keeps hframe.keeps⟩, hcontent⟩ hlt hfin
      plain_default
    rw [eval_found (bare_content hv hks)] at hrefines
    have hmoves := @ksLookup_moves false noCallback balanced_noCallback (fuel + 2)
      { heap := (s.heap.alloc (metaKey n)).2, ks := ks } s.heap.next {} hlt (fun _ => hfin.sized)
      fun h => by cases h
    rw [hfound, hname, Option.bind_some]
    unfold lookup
    rcases hx : ksLookup noCallback (fuel + 2) { heap := (s.heap.alloc (metaKey n)).2, ks := ks } s.heap.next {}
      with e | ⟨ret, w⟩
    · rw [hx] at hrefines
      exact hrefines.elim
    · rw [hx] at hrefines
      obtain ⟨hw, hd⟩ := hrefines
      have hcounts := (hmoves ret w hx).counts ⟨m, hm.keeps hframe.keeps⟩
      obtain ⟨hret, hsame⟩ : ret = found (content s.heap ks) (keyName (metaKey n)) ∧
          Same { heap := (s.heap.alloc (metaKey n)).2, ks := ks } w := by
        cases hr : found (content s.heap ks) (keyName (metaKey n)) <;> rw [hr] at hd <;> exact hd
      refine ⟨w, by rw [hret], hframe.trans hw, hsame.array, hsame.alloc, fun N hc => ⟨?_, ?_⟩⟩
      · have h := (hcounts N (hc.alloc href : Counts false _ _ _ _).counted).counted
        rwa [show w.ks.refs N = ks.refs N from refs_congr hsame.array] at h
      · exact lt_of_lt_of_le hlt hw.next

/-- **`keyGetMeta` finds the first of the candidates.** -/
theorem getMeta_spec (fuel : ℕ) (hv : s.ValidMeta k) (n : Str) :
    ∃ s', s.getMeta (fuel + 2) k n = .ok (s.found k n, s') ∧ Reads s s' ∧
      ∀ N, Counted s.heap (s.refs k N) → Counted s'.heap (s.refs k N) := by
  unfold Memory.getMeta keyGetMeta
  cases hks : s.metas k with
  | none =>
    have hfound : s.found k n = none := by
      have hempty : s.content k = fun _ => none := by rw [Memory.content, hks]; rfl
      rw [Memory.found, hempty]
      cases (metaKey n).key with
      | none => rfl
      | some name => exact List.findSome?_eq_none_iff.mpr fun q _ => rfl
    have hstate : (s.state k).keyset = none := hks
    rw [hfound, hstate]
    refine ⟨_, rfl, ⟨Frame.refl _, fun j => ?_⟩, fun N hc => hc⟩
    dsimp only
    rw [Memory.state, Function.update_eq_self]
  | some ks =>
    obtain ⟨w, hw, hframe, harray, halloc, hcount⟩ := lookup_found fuel hv hks n
    have hstate : (s.state k).keyset = some ks := hks
    rw [hstate]
    simp only [World.alloc]
    change ∃ s', ((lookup (fuel + 2) { heap := (s.heap.alloc (metaKey n)).2, ks := ks } s.heap.next {} >>= _) >>= _) =
      .ok (s.found k n, s') ∧ _
    rw [hw]
    refine ⟨_, rfl, ⟨hframe.trans (frame_del _ _), fun j => ?_⟩, fun N hc => ?_⟩
    · dsimp only
      by_cases hj : j = k
      · subst hj
        rw [Function.update_self, hks, Option.map_some, Option.map_some, harray, halloc]
      · rw [Function.update_of_ne hj]
    · rw [refs_eq hks] at hc ⊢
      obtain ⟨hc', hlt⟩ := hcount N hc
      exact (hc'.del hlt : Counts false _ _ _ _).counted

end Reading

end Elektra.KeyMeta
