import Elektra.Lookup.Return
import Elektra.Meta.Compare

/-!
# Copying metadata

`keyCopyMeta` shares a metakey of one key with another one, `keyCopyAllMeta` shares all of them.

* `keyCopyMeta`, `keyCopyAllMeta`;
* `Memory.named`, `vain`: the metakeys by unescaped name, and the names that are tried in vain;
* `Merges`: metakeys are put in the places of their names; **`found_merges_iff`**;
* **`popMeta_quiet`**, **`popMeta_loses`**, **`appendMeta_put`**;
* **`copiesMeta_iff`**.
-/

namespace Elektra.KeyMeta

/-! ## The functions -/

section Code

variable (fuel : ℕ) (s : Memory) (dest source : KeyRef)

/-- `ksLookup (dest->meta, search, KDB_O_POP)`, and `keyDel` of what it returns. A null pointer is not
looked up. -/
def popMeta (search : Option KeyRef) : Except Stop Memory :=
  match search, s.metas dest with
  | none, _ => .ok s
  | some _, none => .ok s
  | some search, some ks => do
    let (r, w) ← lookup fuel { heap := s.heap, ks := ks } search { pop := true }
    .ok { heap := r.elim w.heap (keyDel w.heap), metas := Function.update s.metas dest (some w.ks) }

/-- `ksAppendKey (dest->meta, ret)`; `dest->meta` is created where there is none. -/
def appendMeta (ret : KeyRef) : Memory :=
  let ks := (s.metas dest).getD (ksNew s.heap 0 []).2
  { heap := (ksAppendKey s.heap ks ret).2.1,
    metas := Function.update s.metas dest (some (ksAppendKey s.heap ks ret).2.2) }

def keyCopyMeta (metaName : Str) : Except Stop (ℤ × Memory) :=
  if (s.heap.cell dest).roMeta then .ok (-1, s)
  else do
    let (ret, s) ← s.getMeta fuel source metaName
    let s ← popMeta fuel s dest ret
    match ret with
    | none => .ok (0, s)
    | some ret => .ok (1, appendMeta s dest ret)

def keyCopyAllMeta : ℤ × Memory :=
  if (s.heap.cell dest).roMeta then (-1, s)
  else
    match s.metas source with
    | none => (0, s)
    | some sourceMeta =>
      match s.metas dest with
      | some destMeta =>
        let (_, h, ks) := ksAppend s.heap destMeta sourceMeta
        (1, { heap := h, metas := Function.update s.metas dest (some ks) })
      | none =>
        let (h, ks) := ksDup s.heap sourceMeta
        (1, { heap := h, metas := Function.update s.metas dest (some ks) })

end Code

/-! ## Metakeys by name -/

/-- The metakey with an unescaped name. -/
def Memory.named (s : Memory) (k : KeyRef) (uname : Str) : Option KeyRef :=
  (s.metas k).bind fun ks => findByName s.heap ks uname

/-- The names that are tried without finding anything. -/
def vain (c : Content) (name : Str) : List Str := (tried name).takeWhile fun q => (candidate c name q).isNone

section Named

variable {s s' : Memory} {k r : KeyRef} {u name q : Str}

theorem content_named (s : Memory) (k : KeyRef) (q : Str) :
    s.content k q = (s.named k (unameOf q)).map (describe s.heap) := by
  unfold Memory.content Memory.named
  cases s.metas k <;> rfl

theorem named_iff (hv : s.ValidMeta k) : s.named k u = some r ↔ r ∈ s.metadata k ∧ (s.heap.cell r).ukey = u := by
  unfold Memory.named
  cases hks : s.metas k with
  | none =>
    rw [Memory.metadata, hks]
    exact ⟨fun h => (by cases h), fun h => absurd h.1 List.not_mem_nil⟩
  | some ks =>
    obtain ⟨m, hm⟩ := hv.holds ks hks
    have harray : s.metadata k = ks.array := by rw [Memory.metadata, hks]; rfl
    rw [harray]
    refine ⟨findByName_some, fun h => ?_⟩
    obtain ⟨hr, hu⟩ := h
    rw [Option.bind_some]
    cases hf : findByName s.heap ks u with
    | none => exact absurd hu (findByName_none hm hf r hr)
    | some r' =>
      obtain ⟨hr', hu'⟩ := findByName_some hf
      have howner : ∀ a ∈ ks.array, s.heap.ident a = ((s.heap.cell a).ukey, none) := fun a ha =>
        Prod.ext rfl ((hv.metaKey a (harray ▸ ha)).bare _ rfl)
      rw [hm.sorted.unique hr' hr (by rw [howner r' hr', howner r hr, hu', hu])]

theorem IsMetaKey.ident {key : Key} (h : IsMetaKey key) : ident key = (key.ukey, none) :=
  Prod.ext rfl (h.bare _ rfl)

theorem metadata_eq {ks : KeySet} (hks : s.metas k = some ks) : s.metadata k = ks.array := by
  rw [Memory.metadata, hks]
  rfl

theorem named_map (hv : s.ValidMeta k) {ks : KeySet} (hks : s.metas k = some ks) {m : Ident → Option KeyRef}
    (hm : ks.Holds s.heap m) (u : Str) : s.named k u = m (u, none) := by
  refine Option.ext fun r => ?_
  rw [named_iff hv, hm.mem, metadata_eq hks]
  refine and_congr_right fun hr => ?_
  rw [Heap.ident, (hv.metaKey r (by rw [metadata_eq hks]; exact hr)).ident]
  exact ⟨fun h => by rw [h], fun h => congrArg Prod.fst h⟩

theorem candidate_iff : candidate (s.content k) name q = some r ↔ s.named k (unameOf q) = some r ∧
    (q = str "spec" ++ name → (str "spec/").isPrefixOf (keyName (s.heap.cell r)) = false) := by
  rw [candidate, content_named]
  cases s.named k (unameOf q) with
  | none => exact ⟨fun h => (by cases h), fun h => by cases h.1⟩
  | some a =>
    rw [Option.map_some, Option.filter_some]
    by_cases hq : q = str "spec" ++ name
    · have hdesc : (describe s.heap a).name = keyName (s.heap.cell a) := rfl
      cases hp : (str "spec/").isPrefixOf (keyName (s.heap.cell a)) with
      | true =>
        rw [if_neg (by simp [hq, hdesc, hp])]
        refine ⟨fun h => (by cases h), fun h => ?_⟩
        obtain ⟨h, h'⟩ := h
        obtain rfl := Option.some.inj h
        rw [hp] at h'
        cases h' hq
      | false =>
        rw [if_pos (by simp [hdesc, hp])]
        refine ⟨fun h => ?_, fun h => h.1⟩
        obtain rfl : a = r := Option.some.inj h
        exact ⟨rfl, fun _ => hp⟩
    · rw [if_pos (by simp [hq])]
      exact ⟨fun h => ⟨h, fun h => absurd h hq⟩, fun h => h.1⟩

end Named

section Vain

variable {c : Content} {name : Str} {r : KeyRef}

theorem vain_none : ∀ q ∈ vain c name, candidate c name q = none := fun _ hq =>
  Option.isNone_iff_eq_none.mp (List.mem_takeWhile_imp (p := fun q => (candidate c name q).isNone) hq)

theorem found_some (h : found c name = some r) :
    ∃ q post, tried name = vain c name ++ q :: post ∧ candidate c name q = some r := by
  obtain ⟨pre, q, post, htried, hq, hpre⟩ := List.findSome?_eq_some_iff.mp h
  refine ⟨q, post, ?_, hq⟩
  have hall : ∀ x ∈ pre, (candidate c name x).isNone = true := fun x hx =>
    Option.isNone_iff_eq_none.mpr (hpre x hx)
  have hvain : vain c name = pre := by
    rw [vain, htried, List.takeWhile_append_of_pos hall, List.takeWhile_cons_of_neg (by rw [hq]; simp), List.append_nil]
  rw [hvain, htried]

theorem found_none (h : found c name = none) : vain c name = tried name :=
  List.takeWhile_eq_self_iff.mpr fun q hq => Option.isNone_iff_eq_none.mpr (List.findSome?_eq_none_iff.mp h q hq)

theorem tried_nodup (name : Str) : ((tried name).map unameOf).Nodup := by
  by_cases hhead : name.head? = some pathSeparator
  · obtain ⟨t, rfl⟩ : ∃ t, name = pathSeparator :: t := by
      obtain ⟨d, t, rfl⟩ := List.exists_cons_of_ne_nil (fun h : name = [] => by rw [h] at hhead; cases hhead)
      exact ⟨t, by rw [Option.some.inj hhead]⟩
    have hmap : (tried (pathSeparator :: t)).map unameOf =
        (namespaces.map fun ns => ns.name ++ unameOf (pathSeparator :: t)) ++ [unameOf (pathSeparator :: t)] := by
      rw [tried, if_pos hhead, List.map_append, List.map_map]
      exact congrArg (· ++ _) (List.map_congr_left fun ns _ => unameOf_ns ns t)
    rw [hmap, List.nodup_append]
    refine ⟨List.Nodup.map (fun a b h => Namespace.name_injective (List.append_cancel_right h)) (by decide),
      List.nodup_singleton _, fun a ha b hb => ?_⟩
    obtain ⟨ns, -, rfl⟩ := List.mem_map.mp ha
    rw [List.mem_singleton.mp hb]
    intro h
    have hlen := congrArg List.length h
    have hpos := List.length_pos_of_ne_nil ns.name_ne_nil
    rw [List.length_append] at hlen
    omega
  · rw [tried, if_neg hhead]
    exact List.nodup_singleton _

end Vain

/-! ## Putting metakeys -/

/-- Metakeys are put in the places of their names. -/
structure Merges (s s' : Memory) (k : KeyRef) (p : Str → Option KeyRef) : Prop where
  keeps : Keeps s.heap s'.heap
  named : ∀ u, s'.named k u = (p u).or (s.named k u)

/-- One of them. -/
def single (h : Heap) (r : KeyRef) (u : Str) : Option KeyRef := if u = (h.cell r).ukey then some r else none

section Merges

variable {s s' : Memory} {dest source r : KeyRef} {p : Str → Option KeyRef} {name q : Str}

theorem Merges.same_candidate (hp : Merges s s' dest p) (hv : s.ValidMeta dest) (hq : p (unameOf q) = none) :
    candidate (s'.content dest) name q = candidate (s.content dest) name q := by
  refine Option.ext fun a => ?_
  rw [candidate_iff, candidate_iff, hp.named, hq, Option.none_or]
  refine and_congr_right fun ha => ?_
  rw [keyName, keyName, (hp.keeps.cell a (hv.lt ((named_iff hv).mp ha).1)).key]

/-- What is put comes from `source`: a name stands for the same there. -/
theorem Merges.source_candidate (hp : Merges s s' dest p) (hs : s.ValidMeta source) {a : KeyRef}
    (ha : p (unameOf q) = some a) (hsource : s.named source (unameOf q) = some a) :
    candidate (s'.content dest) name q = candidate (s.content source) name q := by
  refine Option.ext fun b => ?_
  rw [candidate_iff, candidate_iff, hp.named, ha, Option.some_or, hsource]
  refine and_congr_right fun hb => ?_
  obtain rfl := Option.some.inj hb
  rw [keyName, keyName, (hp.keeps.cell a (hs.lt ((named_iff hs).mp hsource).1)).key]

/-- **What is put is found where what is tried before it is not there.** -/
theorem found_merges_iff (hp : Merges s s' dest p) (hd : s.ValidMeta dest) (hs : s.ValidMeta source)
    (hsub : ∀ u a, p u = some a → s.named source u = some a) (hr : p (s.heap.cell r).ukey = some r)
    (hf : found (s.content source) name = some r) : found (s'.content dest) name = some r ↔
      ∀ q ∈ vain (s.content source) name, p (unameOf q) = none → candidate (s.content dest) name q = none := by
  obtain ⟨q0, post, htried, hq0⟩ := found_some hf
  obtain ⟨hnamed, -⟩ := candidate_iff.mp hq0
  obtain ⟨-, hu⟩ := (named_iff hs).mp hnamed
  have hnodup := tried_nodup name
  rw [htried, List.map_append, List.nodup_append] at hnodup
  have hne : ∀ q ∈ vain (s.content source) name, unameOf q ≠ (s.heap.cell r).ukey := fun q hq => by
    rw [hu]
    exact hnodup.2.2 _ (List.mem_map_of_mem hq) _ (List.mem_map_of_mem List.mem_cons_self)
  have hq0' : candidate (s'.content dest) name q0 = some r := by
    rw [hu] at hr
    rw [hp.source_candidate hs hr hnamed, hq0]
  have hput : ∀ q ∈ vain (s.content source) name, p (unameOf q) ≠ none →
      candidate (s'.content dest) name q = none := fun q hq hne => by
    obtain ⟨a, ha⟩ := Option.ne_none_iff_exists'.mp hne
    rw [hp.source_candidate hs ha (hsub _ a ha), vain_none q hq]
  rw [found, htried, List.findSome?_append]
  constructor
  · intro h q hq hnone
    rw [← hp.same_candidate hd hnone]
    by_contra hq'
    -- the first one of these that is there is found
    cases hfirst : (vain (s.content source) name).findSome? (candidate (s'.content dest) name) with
    | none => exact hq' (List.findSome?_eq_none_iff.mp hfirst q hq)
    | some a =>
      obtain ⟨q', hqm, hqa⟩ := List.exists_of_findSome?_eq_some hfirst
      rw [hfirst, Option.some_or] at h
      obtain rfl := Option.some.inj h
      by_cases hp' : p (unameOf q') = none
      · rw [hp.same_candidate hd hp'] at hqa
        exact hne q' hqm ((named_iff hd).mp (candidate_iff.mp hqa).1).2.symm
      · rw [hput q' hqm hp'] at hqa
        cases hqa
  · intro h
    have hnone : (vain (s.content source) name).findSome? (candidate (s'.content dest) name) = none := by
      refine List.findSome?_eq_none_iff.mpr fun q hq => ?_
      by_cases hp' : p (unameOf q) = none
      · rw [hp.same_candidate hd hp', h q hq hp']
      · exact hput q hq hp'
    rw [hnone, Option.none_or, List.findSome?_cons, hq0']

theorem found_single_iff (hp : Merges s s' dest (single s.heap r)) (hd : s.ValidMeta dest) (hs : s.ValidMeta source)
    (hf : found (s.content source) name = some r) : found (s'.content dest) name = some r ↔
      ∀ q ∈ vain (s.content source) name, candidate (s.content dest) name q = none := by
  obtain ⟨q0, post, htried, hq0⟩ := found_some hf
  obtain ⟨hnamed, -⟩ := candidate_iff.mp hq0
  obtain ⟨-, hu⟩ := (named_iff hs).mp hnamed
  have hnodup := tried_nodup name
  rw [htried, List.map_append, List.nodup_append] at hnodup
  rw [found_merges_iff hp hd hs (fun u a ha => ?_) (if_pos rfl) hf]
  · refine forall₂_congr fun q hq => ⟨fun h => h (if_neg ?_), fun h _ => h⟩
    rw [hu]
    exact hnodup.2.2 _ (List.mem_map_of_mem hq) _ (List.mem_map_of_mem List.mem_cons_self)
  · rw [single] at ha
    split_ifs at ha with he
    obtain rfl := Option.some.inj ha
    rw [he, hu]
    exact hnamed

end Merges

/-! ## Taking one metakey out, and appending it -/

section Steps

variable {s : Memory} {dest r : KeyRef}

/-- A metakey that may be appended or searched. -/
structure Usable (h : Heap) (r : KeyRef) : Prop where
  lt : r < h.next
  metaKey : IsMetaKey (h.cell r)

theorem Usable.entry {h : Heap} (hr : Usable h r) : Entry h r := by
  obtain ⟨name, hname⟩ := hr.metaKey.named
  exact ⟨hr.lt, by rw [hname.key]; exact Option.some_ne_none _, hname.sized⟩

theorem Usable.keeps {h h' : Heap} (hr : Usable h r) (hk : Keeps h h') : Usable h' r :=
  ⟨lt_of_lt_of_le hr.lt hk.next, hr.metaKey.alike (hk.cell r hr.lt)⟩

/-- What the two steps leave as it is. -/
structure Touches (s s' : Memory) (dest : KeyRef) : Prop where
  keeps : Keeps s.heap s'.heap
  metas : ∀ j ≠ dest, s'.metas j = s.metas j
  valid : s'.ValidMeta dest

/-- **A metakey is appended in the place of its name.** -/
theorem appendMeta_put (hv : s.ValidMeta dest) (hr : Usable s.heap r) :
    Merges s (appendMeta s dest r) dest (single s.heap r) ∧ Touches s (appendMeta s dest r) dest := by
  obtain ⟨ks, m, hks, hm, hsub, hmap⟩ : ∃ ks m, (s.metas dest).getD (ksNew s.heap 0 []).2 = ks ∧
      ks.Holds s.heap m ∧ (∀ a ∈ ks.array, a ∈ s.metadata dest) ∧ ∀ u, s.named dest u = m (u, none) := by
    cases hks : s.metas dest with
    | none =>
      have hnew := @ksNew_holds s.heap 0 [] nofun
      rw [ksNew_empty] at hnew
      refine ⟨_, _, rfl, hnew, fun a ha => ?_, fun u => ?_⟩
      · exact absurd ha List.not_mem_nil
      · rw [Memory.named, hks]
        rfl
    | some ks =>
      obtain ⟨m, hm⟩ := hv.holds ks hks
      exact ⟨ks, m, rfl, hm, fun a ha => by rw [metadata_eq hks]; exact ha, named_map hv hks hm⟩
  have hkeeps := keeps_appendKey s.heap ks r
  have hmetas : (appendMeta s dest r).metas dest = some (ksAppendKey s.heap ks r).2.2 := by
    rw [appendMeta, hks]
    exact Function.update_self _ _ _
  have hheap : (appendMeta s dest r).heap = (ksAppendKey s.heap ks r).2.1 := by rw [appendMeta, hks]
  have hholds := ksAppendKey_holds hm hr.entry
  have hvalid : (appendMeta s dest r).ValidMeta dest := by
    refine ⟨fun ks' hks' => ?_, fun a ha => ?_⟩
    · rw [hmetas] at hks'
      obtain rfl := Option.some.inj hks'
      rw [hheap]
      exact ⟨_, hholds⟩
    · rw [metadata_eq hmetas] at ha
      rw [hheap]
      obtain ha | rfl := mem_appendKey _ _ _ a ha
      · exact (hv.metaKey a (hsub a ha)).alike (hkeeps.cell a (hv.lt (hsub a ha)))
      · exact hr.metaKey.alike (hkeeps.cell a hr.lt)
  refine ⟨⟨hheap ▸ hkeeps, fun u => ?_⟩, hheap ▸ hkeeps, fun j hj => Function.update_of_ne hj _ _, hvalid⟩
  rw [named_map hvalid hmetas (hheap ▸ hholds), Heap.ident, hr.metaKey.ident, Function.update_apply, hmap, single]
  simp only [Prod.mk.injEq, and_true]
  split_ifs <;> rfl

theorem refs_none (hks : s.metas dest = none) (N : KeyRef → ℕ) : s.refs dest N = N := by
  funext a
  rw [Memory.refs, Memory.metadata, hks]
  exact Nat.zero_add _

theorem appendMeta_counts (hv : s.ValidMeta dest) (hr : Usable s.heap r) (hl : s.heap.freed r = false)
    {N : KeyRef → ℕ} (hc : Counted s.heap (s.refs dest N)) :
    Counted (appendMeta s dest r).heap ((appendMeta s dest r).refs dest N) := by
  obtain ⟨ks, m, hks, hm, hrefs⟩ : ∃ ks m, (s.metas dest).getD (ksNew s.heap 0 []).2 = ks ∧
      ks.Holds s.heap m ∧ s.refs dest N = ks.refs N := by
    cases hks : s.metas dest with
    | none =>
      have hnew := @ksNew_holds s.heap 0 [] nofun
      rw [ksNew_empty] at hnew
      exact ⟨_, _, rfl, hnew, (refs_none hks N).trans (refs_new s.heap 0 N).symm⟩
    | some ks =>
      obtain ⟨m, hm⟩ := hv.holds ks hks
      exact ⟨ks, m, rfl, hm, refs_eq hks N⟩
  rw [hrefs] at hc
  have hmetas : (appendMeta s dest r).metas dest = some (ksAppendKey s.heap ks r).2.2 := by
    rw [appendMeta, hks]
    exact Function.update_self _ _ _
  have hheap : (appendMeta s dest r).heap = (ksAppendKey s.heap ks r).2.1 := by rw [appendMeta, hks]
  rw [refs_eq hmetas, hheap]
  exact (ksAppendKey_counts hm (fun _ => hr.entry) hr.lt hl hc : Counts false _ _ _ _).counted

theorem freed_appendKey {h : Heap} {a : KeyRef} (ha : h.freed a = true) (ks : KeySet) (k : KeyRef) :
    (ksAppendKey h ks k).2.1.freed a = true := by
  have hreplace : ∀ (h : Heap) (old : KeyRef), h.freed a = true →
      (keyIncRef (keyDel (keyDecRef h old) old) k).freed a = true := fun h old ha =>
    freed_del (h := keyDecRef h old) ha old
  unfold ksAppendKey
  dsimp only
  split_ifs
  · exact freed_del ha k
  · exact ha
  · exact hreplace _ _ ha
  all_goals exact ha

theorem popMeta_run (fuel : ℕ) (hv : s.ValidMeta dest) (hr : r < s.heap.next) {ks : KeySet}
    (hks : s.metas dest = some ks) {name : Str} (hname : Finalized (s.heap.cell r) (some name))
    (hq : name.head? ≠ some pathSeparator ∨ Quiet (s.content dest) name) :
    ∃ w, lookup (fuel + 2) { heap := s.heap, ks := ks } r { pop := true } =
        .ok (s.named dest (s.heap.cell r).ukey, w) ∧
      Pops Frame { heap := s.heap, ks := ks } w (s.named dest (s.heap.cell r).ukey) := by
  obtain ⟨m, hm⟩ := hv.holds ks hks
  have hcontent : s.content dest = content s.heap ks := by rw [Memory.content, hks]; rfl
  have hfind : s.named dest (s.heap.cell r).ukey = findByName s.heap ks (unameOf name) := by
    rw [Memory.named, hks, hname.ukey name rfl]
    rfl
  rw [hcontent] at hq
  rw [hfind]
  exact ksLookup_quiet (w := { heap := s.heap, ks := ks }) transparent_noCallback ⟨plain_default, rfl⟩ rfl ⟨⟨m, hm⟩, rfl⟩ hr hname
    (hq.imp_left fun h => by simp [direct, h]) fuel

/-- **The metakey of a name is taken out,** where the name is not one that stands for others. -/
theorem popMeta_quiet (fuel : ℕ) (hv : s.ValidMeta dest) (hr : r < s.heap.next) {name : Str}
    (hname : Finalized (s.heap.cell r) (some name))
    (hq : name.head? ≠ some pathSeparator ∨ Quiet (s.content dest) name) :
    ∃ s', popMeta (fuel + 2) s dest (some r) = .ok s' ∧ Touches s s' dest ∧
      (∀ u, s'.named dest u = if u = (s.heap.cell r).ukey then none else s.named dest u) ∧
      ∀ N, Counted s.heap (s.refs dest N) → Counted s'.heap (s'.refs dest N) ∧
        (r ∈ s.metadata dest → N r = 0 → s'.heap.freed r = true) := by
  cases hks : s.metas dest with
  | none =>
    refine ⟨s, by unfold popMeta; rw [hks], ⟨Keeps.refl _, fun _ _ => rfl, hv⟩, fun u => ?_, fun N hc => ⟨hc, fun h => ?_⟩⟩
    · have hnone : s.named dest u = none := by rw [Memory.named, hks]; rfl
      rw [hnone, ite_self]
    · rw [Memory.metadata, hks] at h
      exact absurd h List.not_mem_nil
  | some ks =>
    obtain ⟨w, hw, hp⟩ := popMeta_run fuel hv hr hks hname hq
    generalize hret : s.named dest (s.heap.cell r).ukey = ret at hw hp
    obtain ⟨m, hm⟩ := hv.holds ks hks
    have hmoves := @ksLookup_moves true noCallback balanced_noCallback (fuel + 2) { heap := s.heap, ks := ks } r
      { pop := true } hr (fun _ => hname.sized) (fun _ => rfl) ret w hw
    set s' : Memory := { heap := ret.elim w.heap (keyDel w.heap), metas := Function.update s.metas dest (some w.ks) }
      with hs'
    have hmetas : s'.metas dest = some w.ks := Function.update_self _ _ _
    have hdel : Keeps w.heap s'.heap := by
      rw [hs']
      cases ret with
      | none => exact Keeps.refl _
      | some a => exact keeps_del _ a
    have hkeeps := hp.frame.keeps.trans hdel
    have hholds := (hp.holds m hm).keeps hdel
    have hvalid : s'.ValidMeta dest := by
      refine ⟨fun ks' hks' => ?_, fun a ha => ?_⟩
      · rw [hmetas] at hks'
        obtain rfl := Option.some.inj hks'
        exact ⟨_, hholds⟩
      · rw [metadata_eq hmetas, hp.array] at ha
        have ha' : a ∈ s.metadata dest := by
          rw [metadata_eq hks]
          exact List.mem_of_mem_filter ha
        exact (hv.metaKey a ha').alike (hkeeps.cell a (hv.lt ha'))
    refine ⟨s', ?_, ⟨hkeeps, fun j hj => Function.update_of_ne hj _ _, hvalid⟩, fun u => ?_, fun N hc => ?_⟩
    · unfold popMeta
      rw [hks]
      dsimp only
      rw [hw]
      rfl
    · rw [named_map hvalid hmetas hholds, named_map hv hks hm]
      cases ret with
      | none =>
        rw [named_map hv hks hm] at hret
        by_cases hu : u = (s.heap.cell r).ukey
        · rw [if_pos hu, hu]
          exact hret
        · rw [if_neg hu]
          rfl
      | some a =>
        obtain ⟨ha, hua⟩ := (named_iff hv).mp hret
        have hid : s.heap.ident a = ((s.heap.cell r).ukey, none) := by
          rw [Heap.ident, (hv.metaKey a ha).ident, hua]
        dsimp only [popMap]
        rw [hid, Function.update_apply]
        simp only [Prod.mk.injEq, and_true]
    · rw [refs_eq hks] at hc
      have hcounted := (hmoves.counts ⟨m, hm⟩ N hc).counted
      rw [refs_eq hmetas]
      refine ⟨?_, fun hr' hN => ?_⟩
      · cases ret with
        | none => exact hcounted
        | some a =>
          have ha := (named_iff hv).mp hret
          exact (hcounted.del (lt_of_lt_of_le (hv.lt ha.1) hmoves.next) : Counts false _ _ _ _).counted
      · -- the last reference is dropped
        obtain rfl : some r = ret := ((named_iff hv).mpr ⟨hr', rfl⟩).symm.trans hret
        have hcount : (w.heap.cell r).ksReference = 0 := by
          rw [hcounted.count r (lt_of_lt_of_le hr hmoves.next), KeySet.refs, hN, hp.array, Nat.add_zero,
            List.count_eq_zero]
          intro hmem
          exact absurd rfl (of_decide_eq_true (List.mem_filter.mp hmem).2)
        rw [hs', Option.elim_some, keyDel, hcount, if_neg (Nat.lt_irrefl 0)]
        exact Function.update_self _ _ _

/-- **A cascading name takes out another metakey,** where there is one that it stands for. -/
theorem popMeta_loses (fuel : ℕ) (hv : s.ValidMeta dest) (hr : r < s.heap.next) {name : Str}
    (hname : Finalized (s.heap.cell r) (some name)) (hhead : name.head? = some pathSeparator)
    (hq : ¬ Quiet (s.content dest) name) {s' : Memory} (hpop : popMeta (fuel + 2) s dest (some r) = .ok s') :
    ∃ a ∈ s.metadata dest, (s.heap.cell a).ukey ≠ (s.heap.cell r).ukey ∧
      (keyName (s.heap.cell a)).head? ≠ some pathSeparator ∧ a ∉ s'.metadata dest := by
  obtain ⟨t, rfl⟩ : ∃ t, name = pathSeparator :: t := by
    obtain ⟨d, t, rfl⟩ := List.exists_cons_of_ne_nil (fun h : name = [] => by rw [h] at hhead; cases hhead)
    exact ⟨t, by rw [Option.some.inj hhead]⟩
  have hur : (s.heap.cell r).ukey = unameOf (pathSeparator :: t) := hname.ukey _ rfl
  have hns : ∀ (m : Namespace) (t t' : Str), unameOf (m.name ++ pathSeparator :: t') ≠ unameOf (pathSeparator :: t) := by
    intro m t t' h
    have hzero : (unameOf (pathSeparator :: t)).head? = some 0 := rfl
    rw [← h, unameOf_ns] at hzero
    cases m <;> cases hzero
  -- what the name stands for is in a namespace
  have hother : ∀ a ∈ s.metadata dest, ∀ (m : Namespace) (t' : Str),
      (s.heap.cell a).ukey = unameOf (m.name ++ pathSeparator :: t') →
      (s.heap.cell a).ukey ≠ (s.heap.cell r).ukey ∧ (keyName (s.heap.cell a)).head? ≠ some pathSeparator := by
    intro a ha m t' hu
    refine ⟨by rw [hu, hur]; exact hns m t t', fun h => ?_⟩
    obtain ⟨q, hqname⟩ := (hv.metaKey a ha).named
    obtain ⟨d, u, hdu⟩ := List.exists_cons_of_ne_nil (fun h' : keyName (s.heap.cell a) = [] => by rw [h'] at h; cases h)
    rw [hdu] at h
    obtain rfl := Option.some.inj h
    have hq' : q = pathSeparator :: u := by rw [← hdu, keyName, hqname.key]; rfl
    exact hns m u t' (by rw [← hu, hqname.ukey q rfl, hq'])
  unfold popMeta at hpop
  cases hks : s.metas dest with
  | none =>
    have hempty : s.content dest = fun _ => none := by rw [Memory.content, hks]; rfl
    exact absurd (fun ns _ => by rw [hempty]) hq
  | some ks =>
    rw [hks] at hpop
    obtain ⟨m, hm⟩ := hv.holds ks hks
    have hcontent : s.content dest = content s.heap ks := by rw [Memory.content, hks]; rfl
    obtain ⟨⟨ret, w⟩, hw, he⟩ := except_bind_ok hpop
    obtain rfl := Except.ok.inj he
    rw [metadata_eq hks] at hother ⊢
    rw [metadata_eq (Function.update_self _ _ _)]
    have ho : ({ pop := true } : Options).Popping := ⟨plain_default, rfl⟩
    have hready : Ready (content s.heap ks) { heap := s.heap, ks := ks } := ⟨⟨m, hm⟩, rfl⟩
    by_cases hspec : ConsultsSpec (content s.heap ks) (pathSeparator :: t) { pop := true }
    · obtain ⟨a, ha, hpre, hgone, -⟩ := ksLookup_loses (w := { heap := s.heap, ks := ks }) transparent_noCallback ho
        hready hr hname hspec hw
      obtain ⟨q, hqname⟩ := (hv.metaKey a (by rw [metadata_eq hks]; exact ha)).named
      obtain ⟨u, hu⟩ := List.isPrefixOf_iff_prefix.mp hpre
      have hq' : q = Namespace.spec.name ++ pathSeparator :: u := by
        rw [show q = keyName (s.heap.cell a) by rw [keyName, hqname.key]; rfl]
        exact hu.symm
      obtain ⟨hne, hfirst⟩ := hother a ha .spec u (by rw [hqname.ukey q rfl, hq'])
      exact ⟨a, ha, hne, hfirst, hgone⟩
    · obtain ⟨ret', w', hw', hp, hstray⟩ := ksLookup_pops (w := { heap := s.heap, ks := ks }) transparent_noCallback
        ho hready hr hname hspec fuel
      obtain ⟨rfl, rfl⟩ := Prod.mk.inj (Except.ok.inj (hw'.symm.trans hw))
      rw [hcontent] at hq
      obtain ⟨ns, -, info, hinfo, rfl⟩ := (hstray rfl rfl).resolve_left hq
      obtain ⟨a, ha, rfl⟩ := Option.map_eq_some_iff.mp hinfo
      obtain ⟨hmem, hu⟩ := findByName_some ha
      obtain ⟨hne, hfirst⟩ := hother a hmem ns t hu
      refine ⟨a, hmem, hne, hfirst, ?_⟩
      rw [hp.array]
      exact fun h => absurd rfl (of_decide_eq_true (List.mem_filter.mp h).2)

/-- **Taken out and appended:** the metakey stands in the place of its name. All metadata is alive when the
metakey is also referred to from elsewhere; without it, the metakey was freed. -/
theorem replaceMeta_put (fuel : ℕ) (hv : s.ValidMeta dest) (hr : Usable s.heap r) {name : Str}
    (hname : Finalized (s.heap.cell r) (some name))
    (hq : name.head? ≠ some pathSeparator ∨ Quiet (s.content dest) name) :
    ∃ s', popMeta (fuel + 2) s dest (some r) = .ok s' ∧ Merges s (appendMeta s' dest r) dest (single s.heap r) ∧
      Touches s (appendMeta s' dest r) dest ∧ ∀ N, Counted s.heap (s.refs dest N) →
        (N r ≠ 0 → ∀ a ∈ (appendMeta s' dest r).metadata dest, (appendMeta s' dest r).heap.freed a = false) ∧
        (r ∈ s.metadata dest → N r = 0 → (appendMeta s' dest r).heap.freed r = true) := by
  obtain ⟨s', hpop, ht, hnamed, hcount⟩ := popMeta_quiet fuel hv hr.lt hname hq
  have hr' := hr.keeps ht.keeps
  have hukey : (s'.heap.cell r).ukey = (s.heap.cell r).ukey := (ht.keeps.cell r hr.lt).ukey
  obtain ⟨hput, ht'⟩ := appendMeta_put ht.valid hr'
  refine ⟨s', hpop, ⟨ht.keeps.trans hput.keeps, fun u => ?_⟩,
    ⟨ht.keeps.trans ht'.keeps, fun j hj => (ht'.metas j hj).trans (ht.metas j hj), ht'.valid⟩, fun N hc => ⟨?_, ?_⟩⟩
  · rw [hput.named, hnamed, single, single, hukey]
    split_ifs <;> rfl
  · intro hN a ha
    obtain ⟨hc', -⟩ := hcount N hc
    have hlive := (hc'.live r (Nat.add_pos_right _ (Nat.pos_of_ne_zero hN))).2
    have hc'' := appendMeta_counts ht.valid hr' hlive hc'
    exact (hc''.live a (Nat.add_pos_left (List.count_pos_iff.mpr ha) _)).2
  · intro hmem hN
    exact freed_appendKey ((hcount N hc).2 hmem hN) _ r

end Steps

/-! ## keyCopyMeta -/

/-- The counters are those of the references, to which the metadata of the two keys belongs. -/
def Memory.Accounted (s : Memory) (dest source : KeyRef) : Prop :=
  ∃ N, Counted s.heap (s.refs dest (if dest = source then N else s.refs source N))

/-- The unescaped name of what is copied. -/
def Memory.copied (s : Memory) (source : KeyRef) (metaName : Str) : Str :=
  ((s.found source metaName).map fun r => (s.heap.cell r).ukey).getD (metaKey metaName).ukey

/-- What `keyGetMeta` returns. -/
def Memory.Gives (s : Memory) (k : KeyRef) (metaName : Str) (ret : Option KeyRef) : Prop :=
  ∀ fuel, (s.getMeta (fuel + 2) k metaName).map Prod.fst = .ok ret

/-- Both keys have the metakey that `source` had, and the rest of the metadata of `dest` is as before. -/
structure Shares (s s' : Memory) (dest source : KeyRef) (metaName : Str) : Prop where
  target : ∃ ret, s.Gives source metaName ret ∧ s'.Gives source metaName ret ∧ s'.Gives dest metaName ret
  alive : ∀ r ∈ s'.metadata dest, s'.heap.freed r = false
  keeps : Keeps s.heap s'.heap
  others : ∀ u ≠ s.copied source metaName, s'.named dest u = s.named dest u

/-- `keyCopyMeta` does what it is for. -/
def CopiesMeta (fuel : ℕ) (s : Memory) (dest source : KeyRef) (metaName : Str) : Prop :=
  ∃ ret s', keyCopyMeta fuel s dest source metaName = .ok (ret, s') ∧ Shares s s' dest source metaName

/-- When it does: what is tried in vain for `source` is not there in `dest`, a cascading metakey stands
for no other one of `dest`, and a metakey that is copied to its own place is shared with another key. -/
structure Applies (s : Memory) (dest source : KeyRef) (metaName : Str) : Prop where
  clear : ∀ name, (metaKey metaName).key = some name → ∀ q ∈ vain (s.content source) name,
    candidate (s.content dest) name q = none
  quiet : ∀ r, s.found source metaName = some r → (keyName (s.heap.cell r)).head? = some pathSeparator →
    Quiet (s.content dest) (keyName (s.heap.cell r))
  shared : dest = source → ∀ r, s.found source metaName = some r → 1 < (s.heap.cell r).ksReference

section CopyMeta

variable {s s' s1 : Memory} {dest source k r : KeyRef} {n : Str}

theorem content_keeps (hm : (s'.metas k).map KeySet.array = (s.metas k).map KeySet.array)
    (hk : Keeps s.heap s'.heap) (hv : s.ValidMeta k) :
    s'.content k = s.content k ∧ ∀ u, s'.named k u = s.named k u := by
  unfold Memory.content Memory.named
  cases hks : s.metas k with
  | none =>
    rw [hks] at hm
    rw [Option.map_eq_none_iff.mp hm]
    exact ⟨rfl, fun _ => rfl⟩
  | some ks =>
    rw [hks] at hm
    obtain ⟨ks', hks', ha⟩ := Option.map_eq_some_iff.mp hm
    obtain ⟨m, hm⟩ := hv.holds ks hks
    have hcells : ∀ a ∈ ks.array, Alike (s.heap.cell a) (s'.heap.cell a) := fun a ha => hk.cell a (hm.entry a ha).lt
    rw [hks']
    exact ⟨content_congr ha hcells, fun u => findByName_congr ha (fun a ha => (hcells a ha).ukey) u⟩

theorem Memory.ValidMeta.keeps (hv : s.ValidMeta k) (hm : s'.metas k = s.metas k) (hk : Keeps s.heap s'.heap) :
    s'.ValidMeta k where
  holds ks hks := (hv.holds ks (hm ▸ hks)).imp fun _ h => h.keeps hk
  metaKey r hr := by
    rw [Memory.metadata, hm] at hr
    exact (hv.metaKey r hr).alike (hk.cell r (hv.lt hr))

theorem Reads.arrays (h : Reads s s') (k : KeyRef) :
    (s'.metas k).map KeySet.array = (s.metas k).map KeySet.array := by
  have hm := congrArg (Option.map Prod.fst) (h.metas k)
  rwa [Option.map_map, Option.map_map] at hm

theorem Reads.refs (h : Reads s s') (k : KeyRef) (N : KeyRef → ℕ) : s'.refs k N = s.refs k N := by
  funext a
  rw [Memory.refs, Memory.refs, h.metadata]

theorem refs_comm (s : Memory) (j k : KeyRef) (N : KeyRef → ℕ) : s.refs j (s.refs k N) = s.refs k (s.refs j N) := by
  funext a
  simp only [Memory.refs]
  omega

theorem mem_of_named {u : Str} (h : s.named k u = some r) : r ∈ s.metadata k := by
  obtain ⟨ks, hks, hr⟩ := Option.bind_eq_some_iff.mp h
  rw [metadata_eq hks]
  exact (findByName_some hr).1

theorem mem_appendMeta {a : KeyRef} (h : a ∈ (appendMeta s dest r).metadata dest) : a ∈ s.metadata dest ∨ a = r := by
  rw [metadata_eq (Function.update_self _ _ _)] at h
  refine (mem_appendKey _ _ _ a h).imp_left fun h => ?_
  cases hks : s.metas dest with
  | none =>
    rw [hks] at h
    exact absurd h List.not_mem_nil
  | some ks =>
    rw [hks] at h
    rw [metadata_eq hks]
    exact h

theorem found_mem (hv : s.ValidMeta k) (h : s.found k n = some r) : r ∈ s.metadata k := by
  obtain ⟨name, -, hf⟩ := Option.bind_eq_some_iff.mp h
  obtain ⟨q, -, -, hq⟩ := found_some hf
  exact ((named_iff hv).mp (candidate_iff.mp hq).1).1

theorem getMeta_gives (hv : s.ValidMeta k) {ret : Option KeyRef} : s.Gives k n ret ↔ s.found k n = ret := by
  have hspec : ∀ fuel, (s.getMeta (fuel + 2) k n).map Prod.fst = .ok (s.found k n) := fun fuel => by
    obtain ⟨s1, hget, -, -⟩ := getMeta_spec fuel hv n
    rw [hget]
    rfl
  exact ⟨fun h => Except.ok.inj ((hspec 0).symm.trans (h 0)), fun h fuel => h ▸ hspec fuel⟩

theorem Shares.found (h : Shares s s' dest source n) (hs : s.ValidMeta source) (hd' : s'.ValidMeta dest) :
    s'.found dest n = s.found source n := by
  obtain ⟨ret, hret, -, hdest⟩ := h.target
  rw [(getMeta_gives hd').mp hdest, (getMeta_gives hs).mp hret]

theorem found_of_content (h : s'.content k = s.content k) (n : Str) : s'.found k n = s.found k n := by
  rw [Memory.found, Memory.found, h]

theorem keyCopyMeta_none {fuel : ℕ} (hro : (s.heap.cell dest).roMeta = false)
    (hget : s.getMeta fuel source n = .ok (none, s1)) : keyCopyMeta fuel s dest source n = .ok (0, s1) := by
  unfold keyCopyMeta
  rw [hro, if_neg Bool.false_ne_true, hget]
  rfl

theorem keyCopyMeta_some {fuel : ℕ} (hro : (s.heap.cell dest).roMeta = false)
    (hget : s.getMeta fuel source n = .ok (some r, s1)) : keyCopyMeta fuel s dest source n =
      (popMeta fuel s1 dest (some r)).map fun s2 => (1, appendMeta s2 dest r) := by
  unfold keyCopyMeta
  rw [hro, if_neg Bool.false_ne_true, hget]
  cases hpop : popMeta fuel s1 dest (some r) <;> simp only [bind, Except.bind, Except.map, hpop]

theorem copiesMeta_none (fuel : ℕ) (hd : s.ValidMeta dest) (hs : s.ValidMeta source)
    (hro : (s.heap.cell dest).roMeta = false) (hc : s.Accounted dest source) (hf : s.found source n = none) :
    CopiesMeta (fuel + 2) s dest source n ↔ Applies s dest source n := by
  obtain ⟨s1, hget, hread, hcount⟩ := getMeta_spec fuel hs n
  rw [hf] at hget
  have hrun := keyCopyMeta_none hro hget
  have hdest := content_keeps (hread.arrays dest) hread.frame.keeps hd
  have hsource := content_keeps (hread.arrays source) hread.frame.keeps hs
  constructor
  · rintro ⟨ret, s', hs', hshare⟩
    obtain ⟨-, rfl⟩ := Prod.mk.inj (Except.ok.inj (hrun.symm.trans hs'))
    refine ⟨fun name hname q hq => ?_, fun r hr => ?_, fun _ r hr => ?_⟩
    · have htarget := hshare.found hs (hd.reads hread)
      rw [hf, found_of_content hdest.1, Memory.found, hname] at htarget
      exact List.findSome?_eq_none_iff.mp htarget q ((List.takeWhile_prefix _).subset hq)
    · rw [hf] at hr
      cases hr
    · rw [hf] at hr
      cases hr
  · rintro ⟨hclear, -, -⟩
    refine ⟨0, s1, hrun, ⟨none, (getMeta_gives hs).mpr hf, (getMeta_gives (hs.reads hread)).mpr ?_,
      (getMeta_gives (hd.reads hread)).mpr ?_⟩, fun r hr => ?_, hread.frame.keeps, fun u _ => hdest.2 u⟩
    · rw [found_of_content hsource.1, hf]
    · rw [found_of_content hdest.1]
      cases hname : (metaKey n).key with
      | none => rw [Memory.found, hname]; rfl
      | some name =>
        rw [Memory.found, hname, Option.bind_some] at hf ⊢
        refine List.findSome?_eq_none_iff.mpr fun q hq => hclear name hname q ?_
        rw [found_none hf]
        exact hq
    · -- the counters are as before
      obtain ⟨N, hN⟩ := hc
      have hcounted : Counted s1.heap (s.refs dest (if dest = source then N else s.refs source N)) := by
        by_cases he : dest = source
        · rw [if_pos he, he] at hN ⊢
          exact hcount N hN
        · rw [if_neg he, refs_comm] at hN ⊢
          exact hcount _ hN
      refine (hcounted.live r ?_).2
      rw [hread.metadata] at hr
      exact Nat.add_pos_left (List.count_pos_iff.mpr hr) _

/-- The references to a metakey of `source` beside those from the metadata of `dest`. -/
theorem shared_iff (hs : s.ValidMeta source) (hr : r ∈ s.metadata source) {N : KeyRef → ℕ}
    (hN : Counted s.heap (s.refs dest (if dest = source then N else s.refs source N))) :
    (if dest = source then N else s.refs source N) r ≠ 0 ↔ (dest = source → 1 < (s.heap.cell r).ksReference) := by
  have hpos := List.count_pos_iff.mpr hr
  by_cases he : dest = source
  · rw [if_pos he] at hN ⊢
    have hone : (s.metadata source).count r = 1 := by
      cases hks : s.metas source with
      | none =>
        rw [Memory.metadata, hks] at hr
        exact absurd hr List.not_mem_nil
      | some ks =>
        obtain ⟨m, hm⟩ := hs.holds ks hks
        rw [metadata_eq hks] at hr ⊢
        exact List.count_eq_one_of_mem hm.sorted.nodup hr
    have hcount := hN.count r (hs.lt hr)
    rw [Memory.refs, he, hone] at hcount
    rw [hcount]
    exact ⟨fun h _ => by omega, fun h => by have := h he; omega⟩
  · rw [if_neg he]
    exact ⟨fun _ h => absurd h he, fun _ => by rw [Memory.refs]; omega⟩

theorem copiesMeta_some (fuel : ℕ) (hd : s.ValidMeta dest) (hs : s.ValidMeta source)
    (hro : (s.heap.cell dest).roMeta = false) (hc : s.Accounted dest source) (hf : s.found source n = some r) :
    CopiesMeta (fuel + 2) s dest source n ↔ Applies s dest source n := by
  obtain ⟨s1, hget, hread, hcount⟩ := getMeta_spec fuel hs n
  rw [hf] at hget
  have hrun := keyCopyMeta_some hro hget
  have hk := hread.frame.keeps
  have hdest := content_keeps (hread.arrays dest) hk hd
  have hsource := content_keeps (hread.arrays source) hk hs
  have hmem := found_mem hs hf
  have hr : Usable s.heap r := ⟨hs.lt hmem, hs.metaKey r hmem⟩
  have hr1 := hr.keeps hk
  have hd1 := hd.reads hread
  obtain ⟨name, hname⟩ := hr.metaKey.named
  have hname1 := (hk.cell r hr.lt).finalized hname
  have hkeyName : keyName (s.heap.cell r) = name := by rw [keyName, hname.key]; rfl
  have hukey : (s1.heap.cell r).ukey = (s.heap.cell r).ukey := (hk.cell r hr.lt).ukey
  have hcopied : s.copied source n = (s.heap.cell r).ukey := by rw [Memory.copied, hf]; rfl
  obtain ⟨N, hN⟩ := hc
  have hshared := shared_iff hs hmem hN
  have hN1 : Counted s1.heap (s1.refs dest (if dest = source then N else s.refs source N)) := by
    rw [hread.refs]
    by_cases he : dest = source
    · rw [if_pos he, he] at hN ⊢
      exact hcount N hN
    · rw [if_neg he, refs_comm] at hN ⊢
      exact hcount _ hN
  obtain ⟨mname, hmname, hfound⟩ := Option.bind_eq_some_iff.mp hf
  -- what is done where the name stands for nothing else
  have hdone : name.head? ≠ some pathSeparator ∨ Quiet (s.content dest) name → ∃ s',
      keyCopyMeta (fuel + 2) s dest source n = .ok (1, s') ∧ Merges s s' dest (single s.heap r) ∧ Touches s1 s' dest ∧
      ((if dest = source then N else s.refs source N) r ≠ 0 → ∀ a ∈ s'.metadata dest, s'.heap.freed a = false) ∧
      (r ∈ s.metadata dest → (if dest = source then N else s.refs source N) r = 0 → s'.heap.freed r = true) := by
    intro hq
    rw [← hdest.1] at hq
    obtain ⟨s2, hpop, hput, ht, hcounts⟩ := replaceMeta_put fuel hd1 hr1 hname1 hq
    rw [hpop] at hrun
    refine ⟨_, hrun, ⟨hk.trans hput.keeps, fun u => ?_⟩, ht, (hcounts _ hN1).1, fun h => (hcounts _ hN1).2 ?_⟩
    · rw [hput.named, hdest.2, single, single, hukey]
    · rw [hread.metadata]
      exact h
  have hput_iff : ∀ {s'}, Merges s s' dest (single s.heap r) → (s'.found dest n = some r ↔
      ∀ q ∈ vain (s.content source) mname, candidate (s.content dest) mname q = none) := fun hput => by
    rw [Memory.found, hmname]
    exact found_single_iff hput hd hs hfound
  constructor
  · rintro ⟨ret, s', hs', hshare⟩
    have hquiet : name.head? ≠ some pathSeparator ∨ Quiet (s.content dest) name := by
      by_contra hq
      rw [not_or, not_not] at hq
      -- another metakey is taken out
      rw [hrun] at hs'
      cases hpop : popMeta (fuel + 2) s1 dest (some r) with
      | error e =>
        rw [hpop] at hs'
        cases hs'
      | ok s2 =>
        rw [hpop] at hs'
        obtain ⟨-, rfl⟩ := Prod.mk.inj (Except.ok.inj hs')
        obtain ⟨a, ha, hne, -, hgone⟩ := popMeta_loses fuel hd1 hr1.lt hname1 hq.1 (hdest.1 ▸ hq.2) hpop
        rw [hread.metadata] at ha
        rw [hukey, (hk.cell a (hd.lt ha)).ukey] at hne
        have hnamed := hshare.others _ (by rw [hcopied]; exact hne)
        rw [(named_iff hd).mpr ⟨ha, rfl⟩] at hnamed
        obtain h | rfl := mem_appendMeta (mem_of_named hnamed)
        · exact hgone h
        · exact hne rfl
    obtain ⟨s'', hs'', hput, ht, -, hfreed⟩ := hdone hquiet
    obtain ⟨-, rfl⟩ := Prod.mk.inj (Except.ok.inj (hs''.symm.trans hs'))
    refine ⟨fun name' hname' => ?_, fun a ha hhead => ?_, fun he a ha => ?_⟩
    · obtain rfl := Option.some.inj (hmname.symm.trans hname')
      exact (hput_iff hput).mp ((hshare.found hs ht.valid).trans hf)
    · obtain rfl := Option.some.inj (hf.symm.trans ha)
      rw [hkeyName] at hhead ⊢
      exact hquiet.resolve_left (not_not.mpr hhead)
    · obtain rfl := Option.some.inj (hf.symm.trans ha)
      refine hshared.mp (fun h0 => ?_) he
      have hdead := hfreed (he ▸ hmem) h0
      have hin : r ∈ s''.metadata dest := mem_of_named (by rw [hput.named, single, if_pos rfl, Option.some_or])
      rw [hshare.alive r hin] at hdead
      cases hdead
  · rintro ⟨hclear, hquiet, hown⟩
    have hq : name.head? ≠ some pathSeparator ∨ Quiet (s.content dest) name := by
      by_cases hhead : name.head? = some pathSeparator
      · have := hquiet r hf (by rw [hkeyName]; exact hhead)
        rw [hkeyName] at this
        exact .inr this
      · exact .inl hhead
    obtain ⟨s', hs', hput, ht, halive, -⟩ := hdone hq
    have htarget := (hput_iff hput).mpr (hclear mname hmname)
    refine ⟨1, s', hs', ⟨some r, (getMeta_gives hs).mpr hf, ?_, (getMeta_gives ht.valid).mpr htarget⟩,
      halive (hshared.mpr fun he => hown he r hf), hput.keeps, fun u hu => ?_⟩
    · by_cases he : source = dest
      · rw [he]
        exact (getMeta_gives ht.valid).mpr htarget
      · have hs1 := hs.reads hread
        have hkept := content_keeps (congrArg (Option.map KeySet.array) (ht.metas source he)) ht.keeps hs1
        refine (getMeta_gives (hs1.keeps (ht.metas source he) ht.keeps)).mpr ?_
        rw [found_of_content hkept.1, found_of_content hsource.1, hf]
    · rw [hcopied] at hu
      rw [hput.named, single, if_neg hu, Option.none_or]

end CopyMeta

/-! ## keyCopyAllMeta -/

/-- Both keys have the metakeys of `source`, and the rest of the metadata of `dest` is as before. -/
structure SharesAll (s s' : Memory) (dest source : KeyRef) : Prop where
  target : ∀ n r, s.Gives source n (some r) → s'.Gives dest n (some r)
  origin : ∀ n ret, s.Gives source n ret → s'.Gives source n ret
  alive : ∀ r ∈ s'.metadata dest, s'.heap.freed r = false
  keeps : Keeps s.heap s'.heap
  others : ∀ u, s.named source u = none → s'.named dest u = s.named dest u

/-- `keyCopyAllMeta` does what it is for. -/
def CopiesAllMeta (s : Memory) (dest source : KeyRef) : Prop := SharesAll s (keyCopyAllMeta s dest source).2 dest source

/-- When it does: what is tried in vain for `source` is not there in `dest` but for what is replaced. -/
def AppliesAll (s : Memory) (dest source : KeyRef) : Prop :=
  ∀ n name, (metaKey n).key = some name → s.found source n ≠ none →
    ∀ q ∈ vain (s.content source) name, s.named source (unameOf q) = none → candidate (s.content dest) name q = none

section CopyAllMeta

variable {s : Memory} {dest source : KeyRef}

theorem allMeta_put (hd : s.ValidMeta dest) (hs : s.ValidMeta source) (hro : (s.heap.cell dest).roMeta = false)
    {sourceMeta : KeySet} (hks : s.metas source = some sourceMeta) :
    Merges s (keyCopyAllMeta s dest source).2 dest (s.named source) ∧
      Touches s (keyCopyAllMeta s dest source).2 dest ∧
      (s.Accounted dest source → ∀ r ∈ (keyCopyAllMeta s dest source).2.metadata dest,
        (keyCopyAllMeta s dest source).2.heap.freed r = false) := by
  obtain ⟨m', hm'⟩ := hs.holds sourceMeta hks
  obtain ⟨h, ks, hrun, hholds, hkeeps, hmem, hcounts⟩ : ∃ h ks, (keyCopyAllMeta s dest source).2 =
      { heap := h, metas := Function.update s.metas dest (some ks) } ∧
      (∃ m, ks.Holds h m ∧ ∀ u, m (u, none) = (s.named source u).or (s.named dest u)) ∧ Keeps s.heap h ∧
      (∀ a ∈ ks.array, a ∈ s.metadata dest ∨ a ∈ s.metadata source) ∧
      (s.Accounted dest source → ∃ N, Counted h (ks.refs N)) := by
    unfold keyCopyAllMeta
    rw [hro, if_neg Bool.false_ne_true, hks]
    cases hkd : s.metas dest with
    | some destMeta =>
      obtain ⟨m, hm⟩ := hd.holds destMeta hkd
      refine ⟨_, _, rfl, ⟨_, ksAppend_holds hm hm', fun u => ?_⟩, keeps_append _ _ _, fun a ha => ?_, ?_⟩
      · rw [named_map hs hks hm', named_map hd hkd hm]
      · rw [metadata_eq hkd, metadata_eq hks]
        obtain h | ⟨-, h⟩ := Option.or_eq_some_iff.mp ((ksAppend_holds hm hm').of_mem ha)
        · exact .inr (hm'.mem.mp h).1
        · exact .inl (hm.mem.mp h).1
      · rintro ⟨N, hN⟩
        rw [refs_eq hkd] at hN
        by_cases he : dest = source
        · obtain rfl : destMeta = sourceMeta := Option.some.inj (hkd.symm.trans (he ▸ hks))
          exact ⟨_, (ksAppend_self hm hN : Counts false _ _ _ _).counted⟩
        · rw [if_neg he] at hN
          refine ⟨_, (ksAppend_counts hm hm' (fun a ha => ?_) hN : Counts false _ _ _ _).counted⟩
          rw [Memory.refs, metadata_eq hks]
          exact Nat.add_pos_left (List.count_pos_iff.mpr ha) _
    | none =>
      have hdup := ksDup_holds hm'
      refine ⟨_, _, rfl, ⟨_, hdup, fun u => ?_⟩, keeps_dup _ _, fun a ha => .inr ?_, ?_⟩
      · have hnone : s.named dest u = none := by rw [Memory.named, hkd]; rfl
        rw [named_map hs hks hm', hnone, Option.or_none]
      · rw [metadata_eq hks]
        exact (hm'.mem.mp (hdup.of_mem ha)).1
      · rintro ⟨N, hN⟩
        have he : dest ≠ source := by
          rintro rfl
          rw [hks] at hkd
          cases hkd
        rw [refs_none hkd, if_neg he] at hN
        refine ⟨_, (ksDup_counts hm' (fun a ha => ?_) hN : Counts false _ _ _ _).counted⟩
        rw [Memory.refs, metadata_eq hks]
        exact Nat.add_pos_left (List.count_pos_iff.mpr ha) _
  rw [hrun]
  have hmetas : Function.update s.metas dest (some ks) dest = some ks := Function.update_self _ _ _
  obtain ⟨m, hm, hmap⟩ := hholds
  have hvalid : ({ heap := h, metas := Function.update s.metas dest (some ks) } : Memory).ValidMeta dest := by
    refine ⟨fun ks' hks' => ?_, fun a ha => ?_⟩
    · obtain rfl := Option.some.inj (hmetas.symm.trans hks')
      exact ⟨m, hm⟩
    · rw [metadata_eq hmetas] at ha
      obtain ha | ha := hmem a ha
      · exact (hd.metaKey a ha).alike (hkeeps.cell a (hd.lt ha))
      · exact (hs.metaKey a ha).alike (hkeeps.cell a (hs.lt ha))
  refine ⟨⟨hkeeps, fun u => ?_⟩, ⟨hkeeps, fun j hj => Function.update_of_ne hj _ _, hvalid⟩, fun hc a ha => ?_⟩
  · rw [named_map hvalid hmetas hm, hmap]
  · obtain ⟨N, hN⟩ := hcounts hc
    rw [metadata_eq hmetas] at ha
    exact (hN.live a (Nat.add_pos_left (List.count_pos_iff.mpr ha) _)).2

/-- **`keyCopyAllMeta` shares the metakeys** where nothing in `dest` stands before them. -/
theorem copiesAllMeta_iff (hd : s.ValidMeta dest) (hs : s.ValidMeta source)
    (hro : (s.heap.cell dest).roMeta = false) (hc : s.Accounted dest source) :
    CopiesAllMeta s dest source ↔ AppliesAll s dest source := by
  cases hks : s.metas source with
  | none =>
    have hrun : (keyCopyAllMeta s dest source).2 = s := by
      unfold keyCopyAllMeta
      rw [hro, if_neg Bool.false_ne_true, hks]
    have hnone : ∀ n, s.found source n ≠ none → False := fun n hn => by
      obtain ⟨r, hr⟩ := Option.ne_none_iff_exists'.mp hn
      have hmem := found_mem hs hr
      rw [Memory.metadata, hks] at hmem
      exact absurd hmem List.not_mem_nil
    rw [CopiesAllMeta, hrun]
    refine ⟨fun _ n _ _ hn => (hnone n hn).elim, fun _ => ⟨fun n r hr => ?_, fun _ _ h => h, fun r hr => ?_,
      Keeps.refl _, fun _ _ => rfl⟩⟩
    · exact (hnone n (by rw [(getMeta_gives hs).mp hr]; exact Option.some_ne_none r)).elim
    · obtain ⟨N, hN⟩ := hc
      exact (hN.live r (Nat.add_pos_left (List.count_pos_iff.mpr hr) _)).2
  | some sourceMeta =>
    obtain ⟨hput, ht, halive⟩ := allMeta_put hd hs hro hks
    generalize hs' : (keyCopyAllMeta s dest source).2 = s' at hput ht halive
    have hiff : ∀ {n name r}, (metaKey n).key = some name → s.found source n = some r → (s'.found dest n = some r ↔
        ∀ q ∈ vain (s.content source) name, s.named source (unameOf q) = none →
          candidate (s.content dest) name q = none) := fun {n name r} hname hf => by
      have hr : s.named source (s.heap.cell r).ukey = some r := (named_iff hs).mpr ⟨found_mem hs hf, rfl⟩
      rw [Memory.found, hname, Option.bind_some] at hf ⊢
      exact found_merges_iff hput hd hs (fun _ _ => id) hr hf
    rw [CopiesAllMeta, hs']
    constructor
    · intro h n name hname hn
      obtain ⟨r, hr⟩ := Option.ne_none_iff_exists'.mp hn
      exact (hiff hname hr).mp ((getMeta_gives ht.valid).mp (h.target n r ((getMeta_gives hs).mpr hr)))
    · intro h
      refine ⟨fun n r hr => (getMeta_gives ht.valid).mpr ?_, fun n ret hret => ?_, halive hc, hput.keeps,
        fun u hu => by rw [hput.named, hu, Option.none_or]⟩
      · have hf := (getMeta_gives hs).mp hr
        obtain ⟨name, hname, -⟩ := Option.bind_eq_some_iff.mp hf
        exact (hiff hname hf).mpr (h n name hname (by rw [hf]; exact Option.some_ne_none r))
      · rw [getMeta_gives hs] at hret
        by_cases he : source = dest
        · -- each metakey is put where it is
          subst he
          refine (getMeta_gives ht.valid).mpr (Eq.trans ?_ hret)
          rw [Memory.found, Memory.found]
          refine congrArg _ (funext fun name => findSome_congr fun q _ => ?_)
          cases hq : s.named source (unameOf q) with
          | none => exact hput.same_candidate hd hq
          | some a => exact hput.source_candidate hs hq hq
        · have hkept := content_keeps (congrArg (Option.map KeySet.array) (ht.metas source he)) ht.keeps hs
          refine (getMeta_gives (hs.keeps (ht.metas source he) ht.keeps)).mpr ?_
          rw [found_of_content hkept.1, hret]

end CopyAllMeta

/-- **Copied metadata is shared,** exactly where nothing else of `dest` is in its way and where it is not a
metakey that only its own key refers to. -/
theorem copiesMeta_iff (fuel : ℕ) {s : Memory} {dest source : KeyRef} (hd : s.ValidMeta dest)
    (hs : s.ValidMeta source) (hro : (s.heap.cell dest).roMeta = false) (hc : s.Accounted dest source) :
    (∀ n, CopiesMeta (fuel + 2) s dest source n ↔ Applies s dest source n) ∧
      (CopiesAllMeta s dest source ↔ AppliesAll s dest source) := by
  refine ⟨fun n => ?_, copiesAllMeta_iff hd hs hro hc⟩
  cases hf : s.found source n with
  | none => exact copiesMeta_none fuel hd hs hro hc hf
  | some r => exact copiesMeta_some fuel hd hs hro hc hf

/-- `user/b` gets the `a` of `user/a`. -/
theorem copiesMeta_threeKeys : CopiesMeta 2 threeKeys 3 2 (str "a") := by
  have hc : threeKeys.Accounted 3 2 := by
    refine ⟨fun _ => 0, fun r hr => ⟨?_, rfl⟩, by decide +kernel, fun _ _ => rfl⟩
    -- only the two metakeys are referred to
    obtain h | h := Nat.add_pos_iff_pos_or_pos.mp hr
    · rw [List.mem_singleton.mp (List.count_pos_iff.mp h)]
      decide
    · rw [List.mem_singleton.mp (List.count_pos_iff.mp (h : 0 < [0].count r))]
      decide
  refine ((copiesMeta_iff 0 (validMeta_threeKeys (r := 1) (by decide) rfl) (validMeta_threeKeys (r := 0) (by decide) rfl)
    (by decide) hc).1 _).mpr ⟨fun name hname q hq => ?_, fun r hr hhead => ?_, fun h => absurd h (by decide)⟩
  · obtain rfl := Option.some.inj ((by decide +kernel : (metaKey (str "a")).key = some (str "a")).symm.trans hname)
    rw [(by decide +kernel : vain (threeKeys.content 2) (str "a") = [])] at hq
    exact absurd hq List.not_mem_nil
  · obtain rfl := Option.some.inj ((by decide +kernel : threeKeys.found 2 (str "a") = some 0).symm.trans hr)
    exact absurd hhead (by decide +kernel)

/-- `user/c` has no metadata, `user/a` keeps its own. -/
theorem not_copiesMeta : ¬ CopiesMeta 2 threeKeys 2 4 (str "a") := by
  rintro ⟨ret, s', hs', ⟨a, hsource, -, hdest⟩, -⟩
  have hnone : (threeKeys.getMeta 2 4 (str "a")).map Prod.fst = .ok none := rfl
  obtain rfl := Except.ok.inj ((hsource 0).symm.trans hnone)
  have hrun : (keyCopyMeta 2 threeKeys 2 4 (str "a") >>= fun r => (r.2.getMeta 2 2 (str "a")).map Prod.fst) =
      .ok (some 0) := by
    rfl
  rw [hs'] at hrun
  cases Except.ok.inj ((hdest 0).symm.trans hrun)

end Elektra.KeyMeta
