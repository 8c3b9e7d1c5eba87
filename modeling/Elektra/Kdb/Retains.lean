import Elektra.Kdb.Get
import Elektra.KeySet.Payload

/-!
# The key set where kdbGet fails

A call of `kdbGet` that returns `0` or `-1` should leave the key set alone. The plugins of the backends do not get at
its keys: they fill key sets of their own, and the keys that are appointed go to the others. But global plugins work on
the key set itself, the parent key may be one of its keys, and the plugins behind the storage are called after the key
set was merged, where there are global plugins for the end.

* `Spares`, `Avoids`: the keys of the caller, and key sets without them;
* `getCheckLoop_spares`, `getUpdateLoop_spares`, `appointLoop_spares`: what the steps do;
* `hookUpdateLoop_first`, `hookUpdateLoop_last`: the two passes;
* `Setting`, `Retains`, **`kdbGet_retains_iff`**.
-/

namespace Elektra

/-! ## The keys of the caller -/

/-- The keys of `K` are as before, but for the lock of their names and references. -/
structure Spares (K : List KeyRef) (h h' : Heap) : Prop where
  next : h.next ≤ h'.next
  cell : ∀ k ∈ K, ∃ b r, h'.cell k = { h.cell k with roName := b, ksReference := r }

/-- The key set has none of the keys of `K`. -/
def Avoids (K : List KeyRef) (ks : KeySet) : Prop := ∀ k ∈ ks.array, k ∉ K

section Spares

variable {K : List KeyRef} {h h' h'' : Heap}

theorem SameKeys.spares (hs : SameKeys h h') (hn : h.next ≤ h'.next) : Spares K h h' := ⟨hn, fun k _ => hs k⟩

theorem Spares.refl (h : Heap) : Spares K h h := (SameKeys.refl h).spares le_rfl

theorem Spares.trans (h₁ : Spares K h h') (h₂ : Spares K h' h'') : Spares K h h'' := by
  refine ⟨h₁.next.trans h₂.next, fun k hk => ?_⟩
  obtain ⟨_, _, hb⟩ := h₁.cell k hk
  obtain ⟨b, r, hc⟩ := h₂.cell k hk
  exact ⟨b, r, by rw [hc, hb]⟩

theorem spares_appendKey (h : Heap) (ks : KeySet) (k : KeyRef) : Spares K h (ksAppendKey h ks k).2.1 :=
  (sameKeys_appendKey h ks k).spares (keeps_appendKey h ks k).next

theorem spares_splitDel : ∀ (split : List SplitPart) (h : Heap), Spares K h (Memory.splitDel split h)
  | [], h => .refl h
  | part :: split, h =>
    ((sameKeys_close part.keyset.array h).spares (keeps_close part.keyset.array h).next).trans (spares_splitDel split _)

end Spares

section Calls

variable {W : Type} {K : List KeyRef} {parentKey : KeyRef} {st : GetState W} {ks : KeySet}

theorem spares_modify (hp : parentKey ∉ K) (st : GetState W) (f : Key → Key) :
    Spares K st.heap (st.modify parentKey f).heap := by
  refine ⟨le_rfl, fun k hk => ?_⟩
  have hne : k ≠ parentKey := fun he => hp (he ▸ hk)
  exact ⟨_, _, set_cell_ne hne⟩

/-- **A plugin does not get at the keys of the caller.** -/
theorem spares_call (hp : parentKey ∉ K) (hK : ∀ k ∈ K, k < st.heap.next) (plugin : MemPlugin W) {ks : KeySet}
    (hks : Avoids K ks) :
    Spares K st.heap (st.call plugin ks parentKey).2.2.heap ∧ Avoids K (st.call plugin ks parentKey).2.1 := by
  refine ⟨⟨plugin.reaches.next _ _ _ _, fun k hk => ?_⟩, fun k hk hin => ?_⟩
  · have hne : k ≠ parentKey := fun he => hp (he ▸ hk)
    exact ⟨_, _, plugin.reaches.frame st.world st.heap ks parentKey k (hK k hk) (fun hmem => hks k hmem hk) hne⟩
  · obtain hold | rfl | hnew := plugin.reaches.known st.world st.heap ks parentKey k hk
    · exact hks k hold hin
    · exact hp hin
    · exact absurd (hK k hin) (Nat.not_lt.mpr hnew)

/-- The plugin changes neither the key set nor its keys, the parent key apart. -/
def MemPlugin.Idle (plugin : MemPlugin W) : Prop :=
  ∀ w (h : Heap) (ks : KeySet) p, (plugin.call w h ks p).ks.array = ks.array ∧
    ∀ k ∈ ks.array, k ≠ p → ∃ b r, (plugin.call w h ks p).heap.cell k = { h.cell k with roName := b, ksReference := r }

theorem spares_callGlobal {plugin : Option (MemPlugin W)} (hidle : ∀ p, plugin = some p → p.Idle)
    (hp : parentKey ∉ ks.array) (st : GetState W) : (st.callGlobal plugin ks parentKey).1.array = ks.array ∧
      Spares ks.array st.heap (st.callGlobal plugin ks parentKey).2.heap := by
  cases plugin with
  | none => exact ⟨rfl, .refl _⟩
  | some plugin =>
    obtain ⟨harray, hcell⟩ := hidle plugin rfl st.world st.heap ks parentKey
    exact ⟨harray, plugin.reaches.next _ _ _ _, fun k hk => hcell k hk fun he => hp (he ▸ hk)⟩

theorem spares_updateFileName (hp : parentKey ∉ K) (split : List SplitPart) (st : GetState W) :
    Spares K st.heap (splitUpdateFileName split parentKey st).heap := by
  unfold splitUpdateFileName
  cases mountGetBackend st.kdb (some (st.heap.cell parentKey)) with
  | none => exact .refl _
  | some b =>
    dsimp only
    cases splitSearchBackend (split.map SplitPart.entry) (some b) (st.heap.cell parentKey) with
    | none => exact .refl _
    | some i => exact spares_modify hp st _

end Calls

/-! ## The steps -/

section Steps

variable {W : Type} {getplugins : BackendRef → ℕ → Option (MemPlugin W)} {K : List KeyRef} {parentKey : KeyRef}

theorem Spares.below {h h' : Heap} (hs : Spares K h h') (hK : ∀ k ∈ K, k < h.next) : ∀ k ∈ K, k < h'.next :=
  fun k hk => (hK k hk).trans_le hs.next

theorem getCheckLoop_spares (getplugins : BackendRef → ℕ → Option (MemPlugin W)) (hp : parentKey ∉ K) :
    ∀ (split : List SplitPart) (st : GetState W) (n : ℤ),
    (∀ k ∈ K, k < st.heap.next) → (∀ part ∈ split, Avoids K part.keyset) →
      Spares K st.heap (getCheckLoop getplugins parentKey split st n).2.2.heap ∧
        ∀ part ∈ (getCheckLoop getplugins parentKey split st n).2.1, Avoids K part.keyset
  | [], _, _, _, _ => ⟨.refl _, fun _ hp => absurd hp List.not_mem_nil⟩
  | part :: split, st, n, hK, havoid => by
    obtain ⟨hpart, hsplit⟩ := List.forall_mem_cons.mp havoid
    rw [getCheckLoop]
    cases getplugins (part.handle.getD 0) RESOLVER_PLUGIN with
    | none => exact ⟨.refl _, List.forall_mem_cons.mpr ⟨hpart, hsplit⟩⟩
    | some plugin =>
      dsimp only
      set st₁ := (st.nameParent parentKey (keyName part.parent)).stringParent parentKey []
      have h₁ : Spares K st.heap st₁.heap := (spares_modify hp st _).trans (spares_modify hp _ _)
      have hrewound : Avoids K (ksRewind part.keyset) := hpart
      obtain ⟨hcall, hret⟩ := spares_call hp (h₁.below hK) plugin hrewound
      have h₂ := h₁.trans hcall
      generalize st₁.call plugin (ksRewind part.keyset) parentKey = x at hret h₂ ⊢
      obtain ⟨ret, keyset, st₂⟩ := x
      dsimp only at hret h₂ ⊢
      have hrest := fun m => getCheckLoop_spares getplugins hp split (st₂.updateSize { part with
        keyset := keyset, syncbits := clear_bit part.syncbits 1
        parent := keySetString part.parent (keyString (st₂.heap.cell parentKey)) } 0) m (h₂.below hK) hsplit
      split_ifs
      · exact ⟨h₂.trans (hrest _).1, List.forall_mem_cons.mpr ⟨hret, (hrest _).2⟩⟩
      · exact ⟨h₂.trans (hrest _).1, List.forall_mem_cons.mpr ⟨hret, (hrest _).2⟩⟩
      · exact ⟨h₂, List.forall_mem_cons.mpr ⟨hret, hsplit⟩⟩

theorem getPositionsLoop_spares (hp : parentKey ∉ K) (plugins : ℕ → Option (MemPlugin W)) :
    ∀ (ps : List ℕ) {ks : KeySet} {st : GetState W}, (∀ k ∈ K, k < st.heap.next) → Avoids K ks →
      Spares K st.heap (getPositionsLoop parentKey plugins ps ks st).2.2.heap
  | [], _, _, _, _ => .refl _
  | p :: ps, ks, st, hK, hks => by
    rw [getPositionsLoop]
    cases plugins p with
    | none => exact getPositionsLoop_spares hp plugins ps hK hks
    | some plugin =>
      obtain ⟨hcall, hret⟩ := spares_call hp hK plugin hks
      dsimp only
      generalize st.call plugin ks parentKey = x at hcall hret ⊢
      obtain ⟨ret, keyset, st₁⟩ := x
      dsimp only at hcall hret ⊢
      split_ifs
      · exact hcall
      · exact hcall.trans (getPositionsLoop_spares hp plugins ps (hcall.below hK) hret)

theorem getUpdateLoop_spares (getplugins : BackendRef → ℕ → Option (MemPlugin W)) (hp : parentKey ∉ K)
    (positions : List ℕ) : ∀ (split : List SplitPart) {st : GetState W},
    (∀ k ∈ K, k < st.heap.next) →
    (∀ part ∈ split, test_bit part.syncbits SPLIT_FLAG_SYNC = true → Avoids K part.keyset) →
      Spares K st.heap (getUpdateLoop getplugins parentKey positions split st).2.2.heap
  | [], _, _, _ => .refl _
  | part :: split, st, hK, havoid => by
    obtain ⟨hpart, hsplit⟩ := List.forall_mem_cons.mp havoid
    rw [getUpdateLoop]
    split_ifs with hsync
    · have h₁ : Spares K st.heap (enterPart parentKey part st).heap :=
        (spares_modify hp st _).trans (spares_modify hp _ _)
      have hrewound : Avoids K (ksRewind part.keyset) := hpart hsync
      have hloop := h₁.trans (getPositionsLoop_spares hp (getplugins (part.handle.getD 0)) positions
        (h₁.below hK) hrewound)
      generalize getPositionsLoop parentKey (getplugins (part.handle.getD 0)) positions (ksRewind part.keyset)
        (enterPart parentKey part st) = x at hloop ⊢
      obtain ⟨ret, keyset, st₁⟩ := x
      dsimp only at hloop ⊢
      split_ifs
      · exact hloop
      · exact hloop.trans (getUpdateLoop_spares getplugins hp positions split (hloop.below hK) hsplit)
    · exact getUpdateLoop_spares getplugins hp positions split hK hsplit

theorem elektraGetDoUpdate_spares (getplugins : BackendRef → ℕ → Option (MemPlugin W)) (hp : parentKey ∉ K)
    {split : List SplitPart} {st : GetState W}
    (hK : ∀ k ∈ K, k < st.heap.next)
    (havoid : ∀ part ∈ split, test_bit part.syncbits SPLIT_FLAG_SYNC = true → Avoids K part.keyset) :
    Spares K st.heap (elektraGetDoUpdate getplugins parentKey split st).2.2.heap :=
  getUpdateLoop_spares getplugins hp _ split.dropLast hK fun part hpart => havoid part (List.dropLast_subset _ hpart)

/-! ### Appointing -/

theorem ksNext_array (ks : KeySet) : (ksNext ks).2.array = ks.array := by
  obtain ⟨-, -, harray, -⟩ | ⟨k, rest, -, hnext, -, -⟩ := ksNext_cases ks
  · exact harray
  · rw [hnext]

theorem appointKey_spares (defFound : ℕ) (b : BackendRef) (split : List SplitPart) (h : Heap) (k : KeyRef) :
    Spares K h (Memory.appointKey defFound b split h k).1 ∧
      ((∀ part ∈ split, test_bit part.syncbits SPLIT_FLAG_SYNC = true → Avoids K part.keyset) →
        ∀ part ∈ (Memory.appointKey defFound b split h k).2, test_bit part.syncbits SPLIT_FLAG_SYNC = true →
          Avoids K part.keyset) := by
  unfold Memory.appointKey
  dsimp only
  generalize (splitSearchBackend (split.map SplitPart.entry) (some b) (h.cell k)).getD defFound = i
  cases hi : split[i]? with
  | none => exact ⟨.refl h, id⟩
  | some part =>
    dsimp only
    split_ifs with hsync
    · exact ⟨.refl h, id⟩
    · refine ⟨spares_appendKey h part.keyset k, fun havoid q hq hq' => ?_⟩
      obtain hold | rfl := List.mem_or_eq_of_mem_set hq
      · exact havoid q hold hq'
      · exact absurd hq' hsync

theorem appointLoop_spares (kdb : KDB Unit) (defFound : ℕ) : ∀ (fuel : ℕ) (split : List SplitPart) (h : Heap)
    (ks : KeySet), (Memory.appointLoop kdb defFound fuel split h ks).2.2.2.array = ks.array ∧
      Spares K h (Memory.appointLoop kdb defFound fuel split h ks).2.2.1 ∧
      ((∀ part ∈ split, test_bit part.syncbits SPLIT_FLAG_SYNC = true → Avoids K part.keyset) →
        ∀ part ∈ (Memory.appointLoop kdb defFound fuel split h ks).2.1,
          test_bit part.syncbits SPLIT_FLAG_SYNC = true → Avoids K part.keyset)
  | 0, _, _, _ => ⟨rfl, .refl _, id⟩
  | fuel + 1, split, h, ks => by
    have harray := ksNext_array ks
    rw [Memory.appointLoop]
    generalize ksNext ks = x at harray ⊢
    obtain ⟨_ | k, ks'⟩ := x
    · exact ⟨harray, .refl h, id⟩
    · dsimp only at harray ⊢
      cases mountGetBackend kdb (some (h.cell k)) with
      | none => exact ⟨harray, .refl h, id⟩
      | some b =>
        dsimp only
        obtain ⟨hkey, havoid⟩ := @appointKey_spares K defFound b split h k
        generalize Memory.appointKey defFound b split h k = y at hkey havoid ⊢
        obtain ⟨h', split'⟩ := y
        obtain ⟨hsame, hrest, havoid'⟩ := appointLoop_spares kdb defFound fuel split' h' ks'
        exact ⟨hsame.trans harray, hkey.trans hrest, havoid' ∘ havoid⟩

end Steps

/-! ## The passes with global plugins -/

section Passes

variable {W : Type} {cb : Callback} {n : ℕ} {getplugins : BackendRef → ℕ → Option (MemPlugin W)} {parentKey : KeyRef} {initialParent : Key}

theorem hookPositionsLoop_first {storage cleanup : Option (MemPlugin W)} (part : SplitPart) (ks : KeySet) :
    ∀ (ps : List ℕ) (keyset : KeySet) (st : GetState W), (∀ p ∈ ps, p ≤ STORAGE_PLUGIN) →
      hookPositionsLoop cb n getplugins storage cleanup parentKey initialParent part ps keyset ⟨st, ks, false, false⟩ =
        let r := getPositionsLoop parentKey (getplugins (part.handle.getD 0)) ps keyset st
        .ok (r.1, r.2.1, ⟨r.2.2, ks, false, false⟩)
  | [], _, _, _ => rfl
  | p :: ps, keyset, st, hps => by
    obtain ⟨hp, hps⟩ := List.forall_mem_cons.mp hps
    have hpos : p ≠ STORAGE_PLUGIN + 1 ∧ p ≠ NR_OF_PLUGINS - 1 := by
      unfold STORAGE_PLUGIN at hp ⊢
      unfold NR_OF_PLUGINS
      omega
    have hhook : getHook storage cleanup parentKey initialParent part p ⟨st, ks, false, false⟩ = ⟨st, ks, false, false⟩ := by
      rw [getHook]
      simp [hpos.1, hpos.2]
    rw [hookPositionsLoop, hhook, getPositionsLoop]
    cases getplugins (part.handle.getD 0) p with
    | none => exact hookPositionsLoop_first part ks ps keyset st hps
    | some plugin =>
      dsimp only
      rw [if_pos hp]
      split_ifs
      · rfl
      · exact hookPositionsLoop_first part ks ps _ _ hps

theorem hookUpdateLoop_first {storage cleanup : Option (MemPlugin W)} (ks : KeySet) {ps : List ℕ}
    (hps : ∀ p ∈ ps, p ≤ STORAGE_PLUGIN) : ∀ (split : List SplitPart) (st : GetState W),
      hookUpdateLoop cb n getplugins storage cleanup parentKey initialParent ps split ⟨st, ks, false, false⟩ =
        let r := getUpdateLoop getplugins parentKey ps split st
        .ok (r.1, r.2.1, ⟨r.2.2, ks, false, false⟩)
  | [], _ => rfl
  | part :: split, st => by
    rw [hookUpdateLoop, getUpdateLoop]
    by_cases hsync : test_bit part.syncbits SPLIT_FLAG_SYNC = true
    · rw [if_pos hsync, if_pos hsync]
      have hloop := @hookPositionsLoop_first W cb n getplugins parentKey initialParent storage cleanup part ks ps (ksRewind part.keyset)
        (enterPart parentKey part st) hps
      dsimp only at hloop ⊢
      rw [hloop]
      dsimp only [bind, Except.bind]
      split_ifs
      · rfl
      · rw [hookUpdateLoop_first ks hps split]
    · rw [if_neg hsync, if_neg hsync, hookUpdateLoop_first ks hps split]
      rfl

theorem hookPositionsLoop_none {storage cleanup : Option (MemPlugin W)} (part : SplitPart) :
    ∀ (ps : List ℕ) (keyset : KeySet) (st : HookState W), (∀ b, ∀ p ∈ ps, getplugins b p = none) →
      ∃ st', hookPositionsLoop cb n getplugins storage cleanup parentKey initialParent part ps keyset st = .ok (0, keyset, st')
  | [], _, st, _ => ⟨st, rfl⟩
  | p :: ps, keyset, st, hnone => by
    rw [hookPositionsLoop, hnone _ p List.mem_cons_self]
    exact hookPositionsLoop_none part ps keyset _ fun b q hq => hnone b q (List.mem_cons_of_mem p hq)

theorem hookUpdateLoop_none {storage cleanup : Option (MemPlugin W)} {ps : List ℕ}
    (hnone : ∀ b, ∀ p ∈ ps, getplugins b p = none) : ∀ (split : List SplitPart) (st : HookState W),
      ∃ split' st', hookUpdateLoop cb n getplugins storage cleanup parentKey initialParent ps split st = .ok (0, split', st')
  | [], st => ⟨[], st, rfl⟩
  | part :: split, st => by
    rw [hookUpdateLoop]
    split_ifs
    · obtain ⟨st₁, h₁⟩ := @hookPositionsLoop_none W cb n getplugins parentKey initialParent storage cleanup part ps
        (ksRewind part.keyset) { st with toGetState := enterPart parentKey part st.toGetState } hnone
      obtain ⟨split', st₂, h₂⟩ := hookUpdateLoop_none hnone split st₁
      rw [h₁]
      dsimp only [bind, Except.bind]
      rw [if_neg (by decide), h₂]
      exact ⟨_, _, rfl⟩
    · obtain ⟨split', st₂, h₂⟩ := hookUpdateLoop_none hnone split st
      rw [h₂]
      exact ⟨_, _, rfl⟩

end Passes

/-! ## The whole call -/

/-- The key set has the keys that it had, and they are as before. -/
structure AsBefore (h : Heap) (ks : KeySet) (h' : Heap) (ks' : KeySet) : Prop where
  array : ks'.array = ks.array
  cell : ∀ k ∈ ks.array, ∃ b r, h'.cell k = { h.cell k with roName := b, ksReference := r }

section Whole

variable {W : Type} {env : Environment} {cb : Callback} {n : ℕ} {handle : GetHandle W} {parentKey : KeyRef}
  {initialParent oldError : Key} {h₀ : Heap} {ks₀ ks : KeySet} {st : GetState W} {split : List SplitPart}

theorem kdbGetEnd_asBefore (hp : parentKey ∉ ks₀.array) (ret : ℤ) (hks : ks.array = ks₀.array)
    (hst : Spares ks₀.array h₀ st.heap) : AsBefore h₀ ks₀ (kdbGetEnd parentKey ret initialParent split ks st).heap
      (kdbGetEnd parentKey ret initialParent split ks st).ks := by
  refine ⟨hks, Spares.cell ?_⟩
  have hname := hst.trans (spares_modify hp st fun key => (keySetName key (some (keyName initialParent))).2)
  exact (hname.trans (spares_updateFileName hp split _)).trans (spares_splitDel split _)

theorem kdbGetError_asBefore (hpost : ∀ p, handle.globalPlugins .postGetStorage = some p → p.Idle)
    (hp : parentKey ∉ ks₀.array) (hks : ks.array = ks₀.array) (hst : Spares ks₀.array h₀ st.heap) :
    AsBefore h₀ ks₀ (kdbGetError handle parentKey initialParent split ks st).heap
      (kdbGetError handle parentKey initialParent split ks st).ks := by
  have hname := hst.trans (spares_modify hp st fun key => (keySetName key (some (keyName initialParent))).2)
  obtain ⟨harray, hcall⟩ := spares_callGlobal hpost (hks.symm ▸ hp)
    (st.nameParent parentKey (keyName initialParent))
  rw [hks] at harray hcall
  exact kdbGetEnd_asBefore hp (-1) harray (hname.trans hcall)

theorem kdbGetUpdate_asBefore (hpost : ∀ p, handle.globalPlugins .postGetStorage = some p → p.Idle)
    (hp : parentKey ∉ ks₀.array) (hks : ks.array = ks₀.array) (hst : Spares ks₀.array h₀ st.heap)
    (hK : ∀ k ∈ ks₀.array, k < h₀.next)
    (havoid : ∀ part ∈ split, test_bit part.syncbits SPLIT_FLAG_SYNC = true → Avoids ks₀.array part.keyset) {r : GetResult W}
    (hr : kdbGetUpdate env handle parentKey initialParent oldError split ks st = r) (hret : r.ret = 0 ∨ r.ret = -1) :
    AsBefore h₀ ks₀ r.heap r.ks := by
  have hclear := hst.trans (spares_modify hp st clearError)
  have hloop := hclear.trans (elektraGetDoUpdate_spares handle.getplugins hp (hclear.below hK) havoid)
  unfold kdbGetUpdate at hr
  generalize elektraGetDoUpdate handle.getplugins parentKey split (st.modify parentKey clearError) = x at hr hloop
  obtain ⟨ret, split', st'⟩ := x
  dsimp only at hr hloop
  split_ifs at hr
  · subst hr
    exact kdbGetError_asBefore hpost hp hks hloop
  · subst hr
    exact absurd hret (by decide : ¬ ((1 : ℤ) = 0 ∨ (1 : ℤ) = -1))

theorem kdbGetUpdateHooks_asBefore (hpost : ∀ p, handle.globalPlugins .postGetStorage = some p → p.Idle)
    (hlate : ∀ b, ∀ p ∈ UpdatePass.last.positions, handle.getplugins b p = none)
    (hp : parentKey ∉ ks₀.array) (hks : ks.array = ks₀.array) (hst : Spares ks₀.array h₀ st.heap)
    (hK : ∀ k ∈ ks₀.array, k < h₀.next)
    (havoid : ∀ part ∈ split, test_bit part.syncbits SPLIT_FLAG_SYNC = true → Avoids ks₀.array part.keyset) {r : GetResult W}
    (hr : kdbGetUpdateHooks env cb n handle parentKey initialParent oldError split ks st = .ok r)
    (hret : r.ret = 0 ∨ r.ret = -1) : AsBefore h₀ ks₀ r.heap r.ks := by
  have hclear := hst.trans (spares_modify hp st clearError)
  have hfirst : ∀ p ∈ UpdatePass.first.positions, p ≤ STORAGE_PLUGIN := by decide
  have hloop := hclear.trans (getUpdateLoop_spares handle.getplugins hp UpdatePass.first.positions
    split.dropLast (hclear.below hK) fun part hpart => havoid part (List.dropLast_subset _ hpart))
  unfold kdbGetUpdateHooks elektraGetDoUpdateWithGlobalHooks at hr
  dsimp only at hr
  rw [hookUpdateLoop_first _ hfirst] at hr
  dsimp only [bind, Except.bind] at hr
  generalize getUpdateLoop handle.getplugins parentKey UpdatePass.first.positions split.dropLast (st.modify parentKey clearError) =
    x at hr hloop
  obtain ⟨ret, split', st'⟩ := x
  dsimp only at hr hloop
  split_ifs at hr
  · obtain rfl := Except.ok.inj hr
    exact kdbGetError_asBefore hpost hp hks hloop
  · -- the second pass succeeds
    generalize kdbGetMerge env parentKey (split' ++ split.getLast?.toList) ks
      ((st'.modify parentKey fun key => copyError key oldError).nameParent parentKey (keyName initialParent)) = y at hr
    obtain ⟨split₂, ks₂, st₂⟩ := y
    dsimp only at hr
    obtain ⟨split₃, st₃, hlast⟩ := @hookUpdateLoop_none W cb n handle.getplugins parentKey initialParent
      (handle.globalPlugins .postGetStorage) (handle.globalPlugins .postGetCleanup) UpdatePass.last.positions hlate split₂.dropLast ⟨st₂.modify parentKey clearError, ks₂, false, false⟩
    rw [hlast] at hr
    dsimp only at hr
    rw [if_neg (by decide)] at hr
    obtain rfl := Except.ok.inj hr
    exact absurd hret (by decide : ¬ ((1 : ℤ) = 0 ∨ (1 : ℤ) = -1))

theorem avoids_part {K : List KeyRef} {split : Split} : ∀ part ∈ split.map SplitEntry.part, Avoids K part.keyset := by
  intro part hpart k hk
  obtain ⟨e, -, rfl⟩ := List.mem_map.mp hpart
  cases hk

/-- **A call that fails leaves the key set alone**, unless the parent key is one of its keys, or global plugins change
it, or there are both global plugins for the end and plugins behind the storage. -/
theorem kdbGet_asBefore (hpre : ∀ p, handle.globalPlugins .preGetStorage = some p → p.Idle)
    (hpost : ∀ p, handle.globalPlugins .postGetStorage = some p → p.Idle)
    (hlate : ((handle.globalPlugins .postGetStorage).isSome || (handle.globalPlugins .postGetCleanup).isSome) = true →
      ∀ b, ∀ p ∈ UpdatePass.last.positions, handle.getplugins b p = none)
    (hp : parentKey ∉ ks.array) (hK : ∀ k ∈ ks.array, k < h₀.next) {world : W} {r : GetResult W}
    (hr : kdbGet env cb n handle parentKey world h₀ ks = .ok r) (hret : r.ret = 0 ∨ r.ret = -1) :
    AsBefore h₀ ks r.heap r.ks := by
  unfold kdbGet at hr
  dsimp only at hr
  set start : GetState W := { world := world, heap := h₀, kdb := handle.kdb }
  by_cases hmeta : keyGetNamespace (h₀.cell parentKey) = .metaName
  · rw [if_pos hmeta] at hr
    obtain rfl := Except.ok.inj hr
    exact ⟨rfl, (spares_modify hp start fun key =>
      env.setError 104 (clearError key) (keyName (h₀.cell parentKey))).cell⟩
  · rw [if_neg hmeta] at hr
    set st₁ := if keyGetNamespace (h₀.cell parentKey) = .empty then
        start.modify parentKey fun key => env.addWarning 105 key (str "invalid key name passed to kdbGet")
      else start with hst₁
    have h₁ : Spares ks.array h₀ st₁.heap := by
      rw [hst₁]
      split_ifs
      · exact spares_modify hp start _
      · exact .refl _
    clear_value st₁
    obtain ⟨harray, hcall⟩ := spares_callGlobal hpre hp st₁
    have h₂ := h₁.trans hcall
    generalize keyDup (st₁.heap.cell parentKey) = initialParent at hr
    generalize st₁.callGlobal (handle.globalPlugins .preGetStorage) ks parentKey = x at hr harray h₂
    obtain ⟨ks₁, st₂⟩ := x
    dsimp only at hr harray h₂
    generalize splitBuildup [] st₂.kdb (some (st₂.heap.cell parentKey)) = x at hr
    obtain ⟨built, split⟩ := x
    dsimp only at hr
    by_cases hbuilt : built = -1
    · rw [if_pos hbuilt] at hr
      obtain rfl := Except.ok.inj hr
      exact kdbGetError_asBefore hpost hp harray (h₂.trans (spares_modify hp st₂ _))
    · rw [if_neg hbuilt] at hr
      obtain ⟨hcheck, havoid⟩ := getCheckLoop_spares handle.getplugins hp (split.map SplitEntry.part) st₂ 0
        (h₂.below hK) avoids_part
      have h₃ := h₂.trans hcheck
      unfold elektraGetCheckUpdateNeeded at hr
      generalize getCheckLoop handle.getplugins parentKey (split.map SplitEntry.part) st₂ 0 = x at hr havoid h₃
      obtain ⟨needed, split', st₃⟩ := x
      dsimp only at hr havoid h₃
      by_cases hzero : needed = 0
      · rw [if_pos hzero] at hr
        obtain rfl := Except.ok.inj hr
        exact kdbGetEnd_asBefore hp 0 harray h₃
      by_cases hfail : needed = -1
      · rw [if_neg hzero, if_pos hfail] at hr
        obtain rfl := Except.ok.inj hr
        exact kdbGetError_asBefore hpost hp harray h₃
      · rw [if_neg hzero, if_neg hfail] at hr
        obtain ⟨hsame, happ, hsync⟩ := @appointLoop_spares ks.array st₃.kdb split'.length (ks₁.size + 1)
          (split' ++ [SplitEntry.part { keyset := [], handle := none, parent := keyNew, syncbits := 0 }]) st₃.heap
          (ksRewind ks₁)
        have havoid' := hsync fun part hpart _ => by
          obtain hpart | hpart := List.mem_append.mp hpart
          · exact havoid part hpart
          · rw [List.mem_singleton.mp hpart]
            exact fun k hk => absurd hk List.not_mem_nil
        have h₄ := h₃.trans happ
        unfold Memory.splitAppoint at hr
        generalize Memory.appointLoop st₃.kdb split'.length (ks₁.size + 1)
          (split' ++ [SplitEntry.part { keyset := [], handle := none, parent := keyNew, syncbits := 0 }]) st₃.heap
          (ksRewind ks₁) = x at hr hsame havoid' h₄
        obtain ⟨appointed, split₂, h, ks₂⟩ := x
        dsimp only at hr hsame havoid' h₄
        have hks₂ : ks₂.array = ks.array := hsame.trans harray
        have hst : Spares ks.array h₀ ({ st₃ with heap := h } : GetState W).heap := h₄
        split_ifs at hr with happ hhooks
        · obtain rfl := Except.ok.inj hr
          exact kdbGetError_asBefore hpost hp hks₂ (h₄.trans (spares_modify hp { st₃ with heap := h } _))
        · exact kdbGetUpdateHooks_asBefore hpost (hlate hhooks) hp hks₂ hst hK havoid' hr hret
        · exact kdbGetUpdate_asBefore hpost hp hks₂ hst hK havoid' (Except.ok.inj hr) hret

end Whole

/-! ## Which calls leave the key set alone -/

/-- The positions where there are global plugins, whether a backend has plugins behind the storage, and whether the
parent key is in the key set. -/
structure Setting where
  occupied : GlobalpluginPositions → Bool
  late : Bool
  member : Bool

/-- A call in this setting. -/
structure Setting.Fits {W : Type} (s : Setting) (handle : GetHandle W) (parentKey : KeyRef) (ks : KeySet) : Prop where
  occupied : ∀ pos, (handle.globalPlugins pos).isSome = s.occupied pos
  late : s.late = true ↔ ∃ b, ∃ p ∈ UpdatePass.last.positions, (handle.getplugins b p).isSome = true
  member : s.member = true ↔ parentKey ∈ ks.array

/-- All calls in the setting that return `0` or `-1` leave the key set alone, whatever their plugins do; the global
ones satisfy a condition. -/
def Retains (s : Setting) (Global : ∀ W : Type, MemPlugin W → Prop) : Prop :=
  ∀ (W : Type) (env : Environment) (cb : Callback) (n : ℕ) (handle : GetHandle W) (parentKey : KeyRef) (world : W)
    (h : Heap) (ks : KeySet) (m : Ident → Option KeyRef) (r : GetResult W),
    ks.Holds h m → parentKey < h.next → s.Fits handle parentKey ks →
    (∀ pos plugin, handle.globalPlugins pos = some plugin → Global W plugin) →
    kdbGet env cb n handle parentKey world h ks = .ok r → r.ret = 0 ∨ r.ret = -1 → AsBefore h ks r.heap r.ks

theorem retains_of {s : Setting} {Global : ∀ W : Type, MemPlugin W → Prop} (hmember : s.member = false)
    (hpre : s.occupied .preGetStorage = true → ∀ W plugin, Global W plugin → plugin.Idle)
    (hpost : s.occupied .postGetStorage = true → ∀ W plugin, Global W plugin → plugin.Idle)
    (hlate : s.occupied .postGetStorage = true ∨ s.occupied .postGetCleanup = true → s.late = false) :
    Retains s Global := by
  intro W env cb n handle parentKey world h ks m r hks _ hfits hglobal hr hret
  have hidle : ∀ pos, (s.occupied pos = true → ∀ W plugin, Global W plugin → plugin.Idle) →
      ∀ plugin, handle.globalPlugins pos = some plugin → plugin.Idle := fun pos h plugin hplugin => by
    refine h ?_ W plugin (hglobal pos plugin hplugin)
    rw [← hfits.occupied, hplugin]
    rfl
  have hp : parentKey ∉ ks.array := fun hmem => by
    rw [hfits.member.mpr hmem] at hmember
    cases hmember
  refine kdbGet_asBefore (hidle _ hpre) (hidle _ hpost) (fun hends b p hpos => ?_) hp (fun k hk => (hks.entry k hk).lt)
    hr hret
  rw [hfits.occupied, hfits.occupied, Bool.or_eq_true] at hends
  by_contra hne
  have hsome := hfits.late.mpr ⟨b, p, hpos, Option.isSome_iff_ne_none.mpr hne⟩
  rw [hlate hends] at hsome
  cases hsome

/-! ### Calls that do not -/

/-- A plugin that does nothing. -/
def idlePlugin (ret : ℤ) : MemPlugin Unit where
  call w h ks _ := { ret := ret, world := w, heap := h, ks := ks }
  reaches := ⟨fun _ _ _ _ _ _ _ _ => rfl, fun _ _ _ _ => le_rfl, fun _ _ _ _ _ hk => .inl hk⟩

theorem idle_idlePlugin (ret : ℤ) : (idlePlugin ret).Idle := fun _ _ _ _ => ⟨rfl, fun _ _ _ => ⟨_, _, rfl⟩⟩

/-- A plugin that clears its key set. -/
def clearPlugin : MemPlugin Unit where
  call w h ks _ := { ret := 1, world := w, heap := (ksClear h ks).1, ks := (ksClear h ks).2 }
  reaches := by
    refine ⟨fun _ h ks _ k _ hk _ => closeLoop_cell ks.array h hk, fun _ h ks _ => (keeps_close ks.array h).next, ?_⟩
    intro _ _ _ _ _ hk
    cases hk

/-- The handle of `system/elektra`; every backend has a resolver, and maybe a plugin at the end, which fails. -/
def failingHandle (resolver : ℤ) (late : Bool) (plugin : MemPlugin Unit) (occupied : GlobalpluginPositions → Bool) :
    GetHandle Unit where
  kdb := kdbMount elektraMounted [some 0] 1 none true []
  getplugins _ p :=
    if p = RESOLVER_PLUGIN then some (idlePlugin resolver)
    else if late && p = NR_OF_PLUGINS - 1 then some (idlePlugin (-1)) else none
  globalPlugins pos := if occupied pos then some plugin else none

/-- `user/b/c` with the value `v`; the key `1` is `user/b`. -/
def callerSet : Heap × KeySet :=
  ksNew (.ofList [keyNewValue (str "user/b/c") (str "v"), keyNewName (str "user/b")]) 2 [0]

theorem callerSet_holds : ∃ m, callerSet.2.Holds callerSet.1 m :=
  ⟨_, ksNew_holds 2 fun k hk => by
    obtain rfl := List.mem_singleton.mp hk
    exact ⟨by decide, by decide, rfl⟩⟩

/-- What is seen of a call. -/
def getOutcome (resolver : ℤ) (late : Bool) (plugin : MemPlugin Unit) (occupied : GlobalpluginPositions → Bool)
    (parentKey : KeyRef) : Except Stop (ℤ × List KeyRef × Option Str) :=
  (kdbGet silent noCallback 4 (failingHandle resolver late plugin occupied) parentKey () callerSet.1 callerSet.2).map
    fun r => (r.ret, r.ks.array, (r.heap.cell 0).data)

/-- The positions that `kdbGet` looks at. -/
def atGet (pre post cleanup : Bool) : GlobalpluginPositions → Bool
  | .preGetStorage => pre
  | .postGetStorage => post
  | .postGetCleanup => cleanup
  | _ => false

theorem getOutcome_positions (resolver : ℤ) (late : Bool) (plugin : MemPlugin Unit)
    (occupied : GlobalpluginPositions → Bool) (parentKey : KeyRef) :
    getOutcome resolver late plugin occupied parentKey = getOutcome resolver late plugin
      (atGet (occupied .preGetStorage) (occupied .postGetStorage) (occupied .postGetCleanup)) parentKey := by
  unfold getOutcome kdbGet kdbGetUpdateHooks kdbGetUpdate kdbGetError
  rfl

theorem not_retains {s : Setting} {Global : ∀ W : Type, MemPlugin W → Prop} (resolver : ℤ) {plugin : MemPlugin Unit}
    (hglobal : Global Unit plugin) {parentKey : KeyRef} (hlt : parentKey < callerSet.1.next)
    (hmember : s.member = true ↔ parentKey ∈ callerSet.2.array) {ret : ℤ} {array : List KeyRef} {data : Option Str}
    (hrun : getOutcome resolver s.late plugin (atGet (s.occupied .preGetStorage) (s.occupied .postGetStorage)
      (s.occupied .postGetCleanup)) parentKey = .ok (ret, array, data))
    (hret : ret = 0 ∨ ret = -1) (hchanged : array ≠ [0] ∨ data ≠ some (str "v" ++ [0])) : ¬ Retains s Global := by
  intro hretains
  rw [← getOutcome_positions] at hrun
  obtain ⟨m, hm⟩ := callerSet_holds
  have hfits : s.Fits (failingHandle resolver s.late plugin s.occupied) parentKey callerSet.2 := by
    refine ⟨fun pos => ?_, ?_, hmember⟩
    · change (if s.occupied pos then some plugin else none).isSome = s.occupied pos
      cases s.occupied pos <;> rfl
    · have hpositions : UpdatePass.last.positions = [6, 7, 8, 9] := by decide
      rw [hpositions]
      cases s.late with
      | true => exact iff_of_true rfl ⟨0, 9, by decide, rfl⟩
      | false =>
        refine iff_of_false Bool.false_ne_true fun ⟨b, p, hp, hsome⟩ => ?_
        have hno : p ≠ RESOLVER_PLUGIN := by
          rintro rfl
          exact absurd hp (by decide)
        change (if p = RESOLVER_PLUGIN then _ else _ : Option (MemPlugin Unit)).isSome = true at hsome
        rw [if_neg hno] at hsome
        cases hsome
  rcases hget : kdbGet silent noCallback 4 (failingHandle resolver s.late plugin s.occupied) parentKey () callerSet.1
    callerSet.2 with e | r
  · rw [getOutcome, hget] at hrun
    cases hrun
  · rw [getOutcome, hget] at hrun
    obtain ⟨rfl, rfl, rfl⟩ : r.ret = ret ∧ r.ks.array = array ∧ (r.heap.cell 0).data = data := by
      simpa [Except.map] using hrun
    have hbefore := hretains Unit silent noCallback 4 _ parentKey () callerSet.1 callerSet.2 m r hm hlt hfits
      (fun pos q hq => by
        obtain rfl : plugin = q := by
          change (if s.occupied pos then some plugin else none) = some q at hq
          split_ifs at hq
          exact Option.some.inj hq
        exact hglobal) hget hret
    have harray : callerSet.2.array = [0] := by decide +kernel
    obtain hne | hne := hchanged
    · exact hne (hbefore.array.trans harray)
    · obtain ⟨b, n, hcell⟩ := hbefore.cell 0 (by rw [harray]; exact List.mem_singleton_self 0)
      have hvalue : (callerSet.1.cell 0).data = some (str "v" ++ [0]) := by decide +kernel
      rw [hcell] at hne
      exact hne hvalue

/-- **The calls that return `0` or `-1` leave the key set alone exactly where the parent key is not one of its keys, no
global plugin works on it on the way, and not both global plugins for the end and plugins behind the storage are
there.** Where the global plugins do nothing to it themselves, the first and the last of these conditions remain. -/
theorem kdbGet_retains_iff (s : Setting) :
    (Retains s (fun _ _ => True) ↔ s.member = false ∧ s.occupied .preGetStorage = false ∧
      s.occupied .postGetStorage = false ∧ (s.occupied .postGetCleanup = true → s.late = false)) ∧
    (Retains s (fun _ plugin => plugin.Idle) ↔ s.member = false ∧
      (s.occupied .postGetStorage = true ∨ s.occupied .postGetCleanup = true → s.late = false)) := by
  have hmember : ∀ {Global : ∀ W : Type, MemPlugin W → Prop}, Global Unit (idlePlugin 0) → Retains s Global →
      s.member = false := fun hglobal hretains => by
    rw [← Bool.not_eq_true]
    intro hmem
    have hrun : ∀ late a b c, getOutcome 0 late (idlePlugin 0) (atGet a b c) 0 = .ok (0, [0], none) := by decide +kernel
    exact not_retains 0 hglobal (by decide) (iff_of_true hmem (by decide +kernel)) (hrun _ _ _ _) (.inl rfl)
      (.inr (by decide)) hretains
  have hlate : ∀ {Global : ∀ W : Type, MemPlugin W → Prop}, Global Unit (idlePlugin 0) → s.member = false →
      Retains s Global → s.occupied .postGetStorage = true ∨ s.occupied .postGetCleanup = true → s.late = false := by
    intro Global hglobal hmem hretains hends
    rw [← Bool.not_eq_true]
    intro hl
    have hrun : ∀ a b c, (b || c) = true →
        getOutcome 1 true (idlePlugin 0) (atGet a b c) 1 = .ok (-1, [], some (str "v" ++ [0])) := by decide +kernel
    refine not_retains 1 hglobal (by decide) (iff_of_false ?_ (by decide +kernel)) (hl ▸ hrun _ _ _ ?_) (.inr rfl)
      (.inl (by decide)) hretains
    · rw [hmem]
      exact Bool.false_ne_true
    · rwa [Bool.or_eq_true]
  refine ⟨⟨fun hretains => ?_, fun ⟨hmem, hpre, hpost, hclean⟩ => ?_⟩, ⟨fun hretains => ?_, fun ⟨hmem, hends⟩ => ?_⟩⟩
  · have hmem := hmember trivial hretains
    have hnot : s.member = true ↔ 1 ∈ callerSet.2.array := by
      rw [hmem]
      exact iff_of_false Bool.false_ne_true (by decide +kernel)
    refine ⟨hmem, ?_, ?_, fun hclean => hlate trivial hmem hretains (.inr hclean)⟩
    · rw [← Bool.not_eq_true]
      intro hpre
      have hrun : ∀ late b c, getOutcome 0 late clearPlugin (atGet true b c) 1 = .ok (0, [], some (str "v" ++ [0])) := by
        decide +kernel
      exact not_retains 0 trivial (by decide) hnot (hpre ▸ hrun _ _ _) (.inl rfl) (.inl (by decide)) hretains
    · rw [← Bool.not_eq_true]
      intro hpost
      have hrun : ∀ late a c,
          getOutcome (-1) late clearPlugin (atGet a true c) 1 = .ok (-1, [], some (str "v" ++ [0])) := by decide +kernel
      exact not_retains (-1) trivial (by decide) hnot (hpost ▸ hrun _ _ _) (.inr rfl) (.inl (by decide)) hretains
  · refine retains_of hmem (fun h => ?_) (fun h => ?_) fun h => hclean (h.resolve_left fun h => ?_)
    · rw [hpre] at h
      cases h
    · rw [hpost] at h
      cases h
    · rw [hpost] at h
      cases h
  · have hmem := hmember (idle_idlePlugin 0) hretains
    exact ⟨hmem, hlate (idle_idlePlugin 0) hmem hretains⟩
  · exact retains_of hmem (fun _ _ _ h => h) (fun _ _ _ h => h) hends

/-- The last plugin of the backend fails, and a global plugin for the end is there: the key set is empty. -/
theorem not_kdbGet_retains : ¬ ∀ s : Setting, Retains s fun _ _ => True := by
  intro h
  have hrun : getOutcome 1 true (idlePlugin 0) (atGet false false true) 1 = .ok (-1, [], some (str "v" ++ [0])) := by
    decide +kernel
  have hnot : 1 ∉ callerSet.2.array := by decide +kernel
  refine not_retains (s := ⟨atGet false false true, true, false⟩) 1 trivial (by decide : 1 < callerSet.1.next)
    (iff_of_false Bool.false_ne_true hnot) hrun (.inr rfl) (.inl (by decide)) (h _)

end Elektra
