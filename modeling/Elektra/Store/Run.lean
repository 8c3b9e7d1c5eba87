import Elektra.Store.Model

/-!
# Runs on several key sets

Each call that fits leaves key sets that are valid and hold just the maps that they should; so does
every sequence of such calls.

* `Store.Holds`;
* `step_holds`: one call;
* **`run_holds`**: a sequence of calls.
-/

namespace Elektra

open Choice

/-- Each key set is valid and holds its map. -/
def Store.Holds (st : Store) (ms : Maps) : Prop :=
  ∀ i, Option.Rel (fun ks m => ks.Holds st.heap m) (st.sets i) (ms i)

section Holds

variable {st : Store} {ms : Maps} {i j : ℕ} {h : Heap} {ks : KeySet} {m : Ident → Option KeyRef}

theorem Store.Holds.keeps (hst : st.Holds ms) (hh : Keeps st.heap h) :
    Store.Holds { st with heap := h } ms := by
  intro i
  have hi := hst i
  dsimp only
  generalize st.sets i = o at hi
  generalize ms i = p at hi
  cases hi with
  | none => exact .none
  | some hks => exact .some (hks.keeps hh)

theorem Store.Holds.some (hst : st.Holds ms) (hi : st.sets i = .some ks) :
    ∃ m, ms i = .some m ∧ ks.Holds st.heap m := by
  have h := hst i
  rw [hi] at h
  generalize ms i = p at h
  cases h with
  | some hks => exact ⟨_, rfl, hks⟩

theorem Store.Holds.put (hst : st.Holds ms) (hh : Keeps st.heap h) (hks : ks.Holds h m) :
    (st.put i h ks).Holds (Function.update ms i (.some m)) := by
  intro j
  rw [Store.put]
  dsimp only
  by_cases hj : j = i
  · subst hj
    rw [Function.update_self, Function.update_self]
    exact .some hks
  · rw [Function.update_of_ne hj, Function.update_of_ne hj]
    exact hst.keeps hh j

theorem modify_some {f : (Ident → Option KeyRef) → Ident → Option KeyRef} (hi : ms i = .some m) :
    ms.modify i f = Function.update ms i (.some (f m)) := by
  rw [Maps.modify, hi, Option.map_some]

theorem Store.Holds.put_modify (hst : st.Holds ms) (hi : ms i = .some m) (hh : Keeps st.heap h)
    {f : (Ident → Option KeyRef) → Ident → Option KeyRef} (hks : ks.Holds h (f m)) :
    (st.put i h ks).Holds (ms.modify i f) := by
  rw [modify_some hi]
  exact hst.put hh hks

theorem Store.Holds.put_same (hst : st.Holds ms) (hi : ms i = .some m) (hh : Keeps st.heap h)
    (hks : ks.Holds h m) : (st.put i h ks).Holds ms := by
  have := hst.put hh hks (i := i)
  rwa [← hi, Function.update_eq_self] at this

end Holds

/-! ## One call -/

section Step

variable {cb : Callback} {st st' : Store} {ms : Maps} {i j : ℕ} {ret : Ret}

theorem step_new (hst : st.Holds ms) {alloc : ℕ} {keys : List KeyRef}
    (hv : ∀ k ∈ keys, Entry st.heap k) (h : step cb st (.new i alloc keys) = some (st', ret)) :
    st'.Holds ((Call.new i alloc keys).apply st'.heap ret ms) := by
  cases h
  have hh := keeps_new st.heap alloc keys
  have hident : ∀ k ∈ if alloc = 0 then [] else keys,
      (ksNew st.heap alloc keys).1.ident k = st.heap.ident k := by
    intro k hk
    split_ifs at hk
    · cases hk
    · exact hh.ident (hv k hk).lt
  have hnew := ksNew_holds alloc hv
  have hmap : appendAll st.heap.ident (fun _ => none) (if alloc = 0 then [] else keys) =
      appendAll (ksNew st.heap alloc keys).1.ident (fun _ => none) (if alloc = 0 then [] else keys) :=
    List.foldl_ext _ _ _ fun m k hk => by rw [hident k hk]
  rw [hmap] at hnew
  exact hst.put hh hnew

theorem step_appendKey (hst : st.Holds ms) {k : KeyRef} (hv : Entry st.heap k)
    (h : step cb st (.appendKey i k) = some (st', ret)) :
    st'.Holds ((Call.appendKey i k).apply st'.heap ret ms) := by
  obtain ⟨ks, hi, h⟩ := Option.bind_eq_some_iff.mp h
  cases h
  obtain ⟨m, hm, hks⟩ := hst.some hi
  have hh := keeps_appendKey st.heap ks k
  refine hst.put_modify hm hh ?_
  change KeySet.Holds _ _ (Function.update m ((ksAppendKey st.heap ks k).2.1.ident k) (some k))
  rw [hh.ident hv.lt]
  exact ksAppendKey_holds hks hv

theorem step_append (hst : st.Holds ms) (h : step cb st (.append i j) = some (st', ret)) :
    st'.Holds ((Call.append i j).apply st'.heap ret ms) := by
  obtain ⟨ks, hi, h⟩ := Option.bind_eq_some_iff.mp h
  obtain ⟨other, hj, h⟩ := Option.bind_eq_some_iff.mp h
  cases h
  obtain ⟨m, hm, hks⟩ := hst.some hi
  obtain ⟨m', hm', hother⟩ := hst.some hj
  refine hst.put_modify hm (keeps_append st.heap ks other) ?_
  rw [hm']
  exact ksAppend_holds hks hother

theorem step_pop (hst : st.Holds ms) (h : step cb st (.pop i) = some (st', ret)) :
    st'.Holds ((Call.pop i).apply st'.heap ret ms) := by
  obtain ⟨ks, hi, h⟩ := Option.bind_eq_some_iff.mp h
  obtain ⟨m, hm, hks⟩ := hst.some hi
  have hh := keeps_pop st.heap ks
  cases hlast : ks.array.getLast? with
  | none =>
    have hpop : ksPop st.heap ks = (none, st.heap, { ks with sync := true }) := by
      rw [ksPop]
      dsimp only
      rw [hlast]
    rw [hpop] at h
    cases h
    exact hst.put_same hm (Keeps.refl _) (hks.of_array rfl hks.room hks.least)
  | some k =>
    obtain ⟨hret, hnew⟩ := ksPop_holds hks hlast
    have hident := hh.ident (hks.entry k (List.mem_of_getLast? hlast)).lt
    generalize ksPop st.heap ks = x at h hh hret hnew hident
    obtain ⟨r, h', ks'⟩ := x
    dsimp only at hret hnew hident
    subst hret
    cases h
    rw [← hident] at hnew
    exact hst.put_modify hm hh hnew

theorem step_popAtCursor (hst : st.Holds ms) {pos : ℤ}
    (h : step cb st (.popAtCursor i pos) = some (st', ret)) :
    st'.Holds ((Call.popAtCursor i pos).apply st'.heap ret ms) := by
  obtain ⟨ks, hi, h⟩ := Option.bind_eq_some_iff.mp h
  obtain ⟨m, hm, hks⟩ := hst.some hi
  have hh := keeps_popAtCursor st.heap ks pos
  -- a position outside of the array
  have hnone : elektraKsPopAtCursor st.heap ks pos = (none, st.heap, ks) →
      st'.Holds ((Call.popAtCursor i pos).apply st'.heap ret ms) := by
    intro he
    rw [he] at h
    cases h
    exact hst.put_same hm (Keeps.refl _) hks
  by_cases hpos : pos < 0
  · exact hnone (by rw [elektraKsPopAtCursor, if_pos hpos])
  obtain ⟨p, rfl⟩ := Int.eq_ofNat_of_zero_le (not_lt.mp hpos)
  cases hget : ks.array[p]? with
  | none =>
    refine hnone ?_
    rw [elektraKsPopAtCursor, if_neg hpos, Int.toNat_natCast, hget]
  | some k =>
    obtain ⟨hret, -, hnew⟩ := elektraKsPopAtCursor_holds hks hget
    have hident := hh.ident (hks.entry k (List.mem_of_getElem? hget)).lt
    generalize elektraKsPopAtCursor st.heap ks p = x at h hh hret hnew hident
    obtain ⟨r, h', ks'⟩ := x
    dsimp only at hret hnew hident
    subst hret
    cases h
    rw [← hident] at hnew
    exact hst.put_modify hm hh hnew

theorem step_cut (hst : st.Holds ms) {cutpoint : KeyRef} (hv : Entry st.heap cutpoint)
    (hf : ∀ ks, st.sets i = some ks → Cascading (st.heap.cell cutpoint) → cutpoint ∉ ks.array)
    (h : step cb st (.cut i j cutpoint) = some (st', ret)) :
    st'.Holds ((Call.cut i j cutpoint).apply st'.heap ret ms) := by
  obtain ⟨ks, hi, h⟩ := Option.bind_eq_some_iff.mp h
  obtain ⟨m, hm, hks⟩ := hst.some hi
  obtain ⟨returned, hret, hh, -, hrest, hcut⟩ := ksCut_spec hks hv (hf ks hi)
  generalize ksCut st.heap ks cutpoint = x at h hh hret hrest hcut
  obtain ⟨h', ks', r⟩ := x
  dsimp only at hret hh hrest hcut
  subst hret
  cases h
  have hput := hst.put_modify (f := fun m id => (m id).filter (· ∉ returned.array)) hm hh hrest
  change Store.Holds _ (Function.update (ms.modify i fun m id => (m id).filter (· ∉ returned.array)) j
    ((ms i).map fun m id => (m id).filter (· ∈ returned.array)))
  rw [hm]
  exact hput.put (Keeps.refl _) hcut

theorem step_dup (hst : st.Holds ms) (h : step cb st (.dup i j) = some (st', ret)) :
    st'.Holds ((Call.dup i j).apply st'.heap ret ms) := by
  obtain ⟨ks, hj, h⟩ := Option.bind_eq_some_iff.mp h
  cases h
  obtain ⟨m, hm, hks⟩ := hst.some hj
  rw [Call.apply, hm]
  exact hst.put (keeps_dup st.heap ks) (ksDup_holds hks)

theorem step_copy (hst : st.Holds ms)
    (hf : i = j → ∀ ks, st.sets i = some ks → ks.array = [])
    (h : step cb st (.copy i j) = some (st', ret)) :
    st'.Holds ((Call.copy i j).apply st'.heap ret ms) := by
  obtain ⟨ks, hi, h⟩ := Option.bind_eq_some_iff.mp h
  obtain ⟨other, hj, h⟩ := Option.bind_eq_some_iff.mp h
  obtain ⟨m', hm', hother⟩ := hst.some hj
  -- what is copied holds the map of the source
  have hsource : (if i = j then (ksClear st.heap ks).2 else other).Holds st.heap m' := by
    split_ifs with hij
    · subst hij
      obtain rfl : ks = other := Option.some.inj (hi.symm.trans hj)
      have hempty : m' = fun _ => none := by
        rw [hother.map, hf rfl ks hi, SortedArray.lookup_nil]
      rw [hempty]
      exact holds_empty _ rfl le_rfl
    · exact hother
  have hh := keeps_copy st.heap ks (some (if i = j then (ksClear st.heap ks).2 else other))
  have hnew := ksCopy_holds ks hsource
  dsimp only at h
  generalize ksCopy st.heap ks (some (if i = j then (ksClear st.heap ks).2 else other)) = x
    at h hh hnew
  obtain ⟨r, h', ks'⟩ := x
  cases h
  rw [Call.apply, hm']
  exact hst.put hh hnew

theorem step_clear (hst : st.Holds ms) (h : step cb st (.clear i) = some (st', ret)) :
    st'.Holds ((Call.clear i).apply st'.heap ret ms) := by
  obtain ⟨ks, hi, h⟩ := Option.bind_eq_some_iff.mp h
  cases h
  obtain ⟨m, hm, -⟩ := hst.some hi
  exact hst.put_modify hm (keeps_close _ _) (ksClear_holds st.heap ks)

theorem step_resize (hst : st.Holds ms) {alloc : ℕ}
    (hf : ∀ ks, st.sets i = some ks → alloc + 1 = ks.size → ks.size < KEYSET_SIZE)
    (h : step cb st (.resize i alloc) = some (st', ret)) :
    st'.Holds ((Call.resize i alloc).apply st'.heap ret ms) := by
  obtain ⟨ks, hi, h⟩ := Option.bind_eq_some_iff.mp h
  cases h
  obtain ⟨m, hm, hks⟩ := hst.some hi
  exact hst.put_same hm (Keeps.refl _) (ksResize_holds hks (hf ks hi))

/-- A lookup without `KDB_O_POP` keeps the key set, or adds the default key that it returns. -/
theorem lookup_plain_holds (hcb : Transparent cb) {w w' : World} {m : Ident → Option KeyRef}
    (hks : w.ks.Holds w.heap m) {key : KeyRef} {name : Option Str} {o : Options}
    (hlt : key < w.heap.next) (hk : Finalized (w.cell key) name) (ho : o.Plain) {fuel : ℕ}
    {r : Option KeyRef} (h : ksLookup cb fuel w key o = .ok (r, w')) :
    Keeps w.heap w'.heap ∧ w'.ks.Holds w'.heap (r.elim m fun k =>
      if (w'.heap.cell k).key = none then m else Function.update m (w'.heap.ident k) (some k)) := by
  have hr : Ready (content w.heap w.ks) w := ⟨⟨m, hks⟩, rfl⟩
  have href := ksLookup_refines hcb _ fuel hr hlt hk ho
  rw [h] at href
  rcases he : eval (resolution (content w.heap w.ks)) .fuel fuel (.lookup name o) with e | a
  · rw [he] at href
    exact href.elim
  rw [he] at href
  obtain ⟨hf, hd⟩ := href
  refine ⟨hf.keeps, ?_⟩
  have hsame : ∀ hs : Same w w', w'.ks.Holds w'.heap m := fun hs =>
    hs.holds hks (hf.but w.heap.next) hr.new_not_mem
  match a, hd with
  | none, ⟨hret, hs⟩ =>
    rw [hret]
    exact hsame hs
  | some (.found k), ⟨hret, hs⟩ =>
    -- the key is one of the key set, so that the update does nothing
    have hmem : k ∈ w.ks.array := by
      obtain hq | ⟨n, s, hs, rfl⟩ := found_of_resolves (resolves_of_eval he) k rfl
      · cases hq
      · obtain ⟨k', hfind, rfl⟩ := Option.map_eq_some_iff.mp hs
        exact (findByName_some hfind).1
    have hnew := hsame hs
    have hmem' : k ∈ w'.ks.array := hs.array ▸ hmem
    rw [hret, Option.elim_some, if_neg (hnew.entry k hmem').named, ← hnew.of_mem hmem',
      Function.update_eq_self]
    exact hnew
  | some (.default n v), ⟨k, hret, hadd⟩ =>
    rw [hret, Option.elim_some]
    obtain ⟨hname, hs⟩ | ⟨m', hm', hnew⟩ := hadd.added
    · have hnone : (w'.heap.cell k).key = none := hadd.cell.key.trans hname
      rw [if_pos hnone]
      exact hsame hs
    · obtain rfl : m' = m := hm'.map.trans hks.map.symm
      have hmem : k ∈ w'.ks.array := (hnew.mem.mp (Function.update_self _ _ _)).1
      rw [if_neg (hnew.entry k hmem).named]
      exact hnew

theorem lookup_popping_holds (hcb : Transparent cb) {w w' : World} {m : Ident → Option KeyRef}
    (hks : w.ks.Holds w.heap m) {key : KeyRef} {name : Option Str} {o : Options}
    (hlt : key < w.heap.next) (hk : Finalized (w.cell key) name) (ho : o.Popping)
    (hf : ∀ n, name = some n → ¬ ConsultsSpec (content w.heap w.ks) n o) {fuel : ℕ}
    {r : Option KeyRef} (h : ksLookup cb fuel w key o = .ok (r, w')) :
    Keeps w.heap w'.heap ∧ w'.ks.Holds w'.heap (r.elim m fun k =>
      Function.update m (w'.heap.ident k) none) := by
  have hr : Ready (content w.heap w.ks) w := ⟨⟨m, hks⟩, rfl⟩
  suffices hpops : Pops Frame w w' r by
    have hkeeps := hpops.frame.keeps
    have hnew := hpops.holds m hks
    refine ⟨hkeeps, ?_⟩
    cases r with
    | none => exact hnew
    | some k =>
      rw [Option.elim_some, hkeeps.ident (hks.entry k (hpops.mem k rfl)).lt]
      exact hnew
  cases fuel with
  | zero => cases h
  | succ n =>
    cases name with
    | none =>
      rw [ksLookup] at h
      dsimp only at h
      rw [hk.key] at h
      cases h
      exact pops_none (Frame.refl _) (Same.refl w) fun _ => id
    | some name =>
      by_cases hd : direct name o = true
      · obtain ⟨w1, hret, hpops⟩ := @ksLookup_direct_pops w key o _ cb n hcb name ho hr hk hd
        rw [h] at hret
        cases hret
        exact hpops
      · cases n with
        | zero => cases (ksLookup_one ho hlt hk (Bool.eq_false_of_not_eq_true hd)).symm.trans h
        | succ n =>
          obtain ⟨r', w1, hret, hpops, -⟩ := ksLookup_pops hcb ho hr hlt hk (hf name rfl) n
          rw [h] at hret
          cases hret
          exact hpops

theorem step_lookup (hcb : Transparent cb) (hst : st.Holds ms) {key : KeyRef} {o : Options}
    {fuel : ℕ} (hv : (Call.lookup i key o fuel).Valid st) (hf : (Call.lookup i key o fuel).Fits st)
    (h : step cb st (.lookup i key o fuel) = some (st', ret)) :
    st'.Holds ((Call.lookup i key o fuel).apply st'.heap ret ms) := by
  obtain ⟨hlt, ⟨name, hk⟩, ho⟩ := hv
  obtain ⟨ks, hi, h⟩ := Option.bind_eq_some_iff.mp h
  obtain ⟨m, hm, hks⟩ := hst.some hi
  obtain ⟨⟨r, w⟩, hr, h⟩ := Option.bind_eq_some_iff.mp h
  cases h
  have hok : ksLookup cb fuel { heap := st.heap, ks := ks } key o = .ok (r, w) := by
    cases hx : ksLookup cb fuel { heap := st.heap, ks := ks } key o with
    | error e =>
      rw [hx] at hr
      cases hr
    | ok x =>
      rw [hx] at hr
      cases hr
      rfl
  obtain ho | ho := ho
  · obtain ⟨hh, hnew⟩ := lookup_plain_holds hcb (w := { heap := st.heap, ks := ks }) hks hlt hk ho hok
    cases r with
    | none => exact hst.put_same hm hh hnew
    | some k =>
      rw [Option.elim_some] at hnew
      rw [Call.apply, ho.pop, if_neg Bool.false_ne_true]
      change Store.Holds _ (if (w.heap.cell k).key = none then _ else _)
      split_ifs at hnew ⊢
      · exact hst.put_same hm hh hnew
      · exact hst.put_modify hm hh hnew
  · have hspec : ∀ n, name = some n → ¬ ConsultsSpec (content st.heap ks) n o := fun n hn =>
      hf ks n hi (hk.key.trans hn) ho.pop
    obtain ⟨hh, hnew⟩ := lookup_popping_holds hcb (w := { heap := st.heap, ks := ks }) hks hlt hk ho
      hspec hok
    cases r with
    | none => exact hst.put_same hm hh hnew
    | some k =>
      rw [Call.apply, ho.pop, if_pos rfl]
      exact hst.put_modify hm hh hnew

/-- **One call that fits leaves valid key sets, which hold the maps that they should.** -/
theorem step_holds (hcb : Transparent cb) (hst : st.Holds ms) {c : Call} (hv : c.Valid st)
    (hf : c.Fits st) (h : step cb st c = some (st', ret)) : st'.Holds (c.apply st'.heap ret ms) := by
  cases c with
  | new i alloc keys => exact step_new hst hv h
  | appendKey i k => exact step_appendKey hst hv h
  | append i toAppend => exact step_append hst h
  | pop i => exact step_pop hst h
  | popAtCursor i pos => exact step_popAtCursor hst h
  | cut i returned cutpoint => exact step_cut hst hv hf h
  | lookup i key o fuel => exact step_lookup hcb hst hv hf h
  | dup i source => exact step_dup hst h
  | copy dest source => exact step_copy hst hf h
  | clear i => exact step_clear hst h
  | resize i alloc => exact step_resize hst hf h

end Step

/-! ## Runs -/

theorem init_holds (h : Heap) : (Store.init h).Holds fun _ => none := fun _ => .none

/-- The key set has no room, or it and its map disagree on the key `k`. -/
def disagrees (st : Store) (ms : Maps) (i : ℕ) (k : KeyRef) : Bool :=
  match st.sets i, ms i with
  | some ks, some m =>
    decide (ks.alloc ≤ ks.size) || decide (k ∈ ks.array) != decide (m (st.heap.ident k) = some k)
  | _, _ => false

theorem not_holds_of_disagrees {st : Store} {ms : Maps} {i : ℕ} {k : KeyRef}
    (h : disagrees st ms i k = true) : ¬ st.Holds ms := by
  intro hst
  have hi := hst i
  unfold disagrees at h
  generalize st.sets i = o at h hi
  generalize ms i = p at h hi
  cases hi with
  | none => cases h
  | @some ks m hks =>
    have hmem : k ∈ ks.array ↔ m (st.heap.ident k) = some k :=
      ⟨hks.of_mem, fun hk => (hks.mem.mp hk).1⟩
    simp only [hmem, bne_self_eq_false, Bool.or_false, decide_eq_true_eq] at h
    exact absurd hks.room (not_lt.mpr h)

/-- The calls leave key sets that do not hold the maps that they should. -/
def GoesWrong (keys : List Key) (calls : List Call) : Prop :=
  ∃ st ms, run noCallback (.init (.ofList keys)) (fun _ => none) calls = some (st, ms) ∧ ¬ st.Holds ms

theorem goesWrong_of {keys : List Key} {calls : List Call} (i : ℕ) (k : KeyRef)
    (h : ((run noCallback (.init (.ofList keys)) (fun _ => none) calls).any
      fun x => disagrees x.1 x.2 i k) = true) : GoesWrong keys calls := by
  cases hrun : run noCallback (.init (.ofList keys)) (fun _ => none) calls with
  | none =>
    rw [hrun] at h
    cases h
  | some x =>
    rw [hrun] at h
    exact ⟨x.1, x.2, hrun, not_holds_of_disagrees h⟩

/-- `user/a` to `user/p` -/
def sixteen : List Key := (List.range 16).map fun i => keyNewName (str "user/" ++ [97 + UInt8.ofNat i])

end Elektra
