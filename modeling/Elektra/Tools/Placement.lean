import Elektra.Tools.Plugins

/-!
# Every plugin in its slots

* `Placed`: each plugin has one slot for each placement that it declares, and the slots between the
  counters are free;
* `checkPlacements_spec`, `addPlacements_placed`: what the checks say, and what the assignments keep;
* `Reached`, `Fits`: the backends that calls lead to, and the calls that stay clear of the defect;
* **`addPlugin_placed`**.

The defect is that the check of a stacking plugin for `postgetstorage` compares its counter with the
end of the range, not with `revPostGet`: it is given a slot that a plugin from the other end has.
-/

namespace Elektra.Tools

/-! ## What the checks say -/

namespace Plugins

variable (p : Plugins) (plugin : Plugin)

/-- The test of `checkPlacement`. -/
def available (which : Placement) : Bool :=
  if plugin.fromBehind which then decide ((p.placementInfo .postgetstorage).current ≤ p.revPostGet)
  else decide ((p.placementInfo which).current ≤ (p.placementInfo which).max)

theorem checkPlacement_eq (which : Placement) :
    (p.checkPlacement plugin which = .ok (plugin.declares which) ∧
      (plugin.declares which = true → p.available plugin which = true)) ∨
    ((∃ m, p.checkPlacement plugin which = .error (.tooManyPlugins m)) ∧
      plugin.declares which = true ∧ p.available plugin which = false) := by
  unfold checkPlacement available
  cases hd : plugin.declares which with
  | false => exact Or.inl ⟨rfl, nofun⟩
  | true =>
    dsimp only
    rw [Bool.not_true, if_neg Bool.false_ne_true]
    split_ifs with h1 h2 h3
    · exact Or.inl ⟨rfl, fun _ => decide_eq_true h2⟩
    · exact Or.inr ⟨⟨_, rfl⟩, rfl, decide_eq_false h2⟩
    · exact Or.inr ⟨⟨_, rfl⟩, rfl, decide_eq_false (not_le.mpr h3)⟩
    · exact Or.inl ⟨rfl, fun _ => decide_eq_true (not_lt.mp h3)⟩

/-- All declared placements of a list are available, or the exception is `TooManyPlugins`. -/
theorem checkPlacements_spec (l : List Placement) :
    (p.checkPlacements plugin l = .ok (l.any plugin.declares) ∧
      ∀ w ∈ l, plugin.declares w = true → p.available plugin w = true) ∨
    ((∃ m, p.checkPlacements plugin l = .error (.tooManyPlugins m)) ∧
      ∃ w ∈ l, plugin.declares w = true ∧ p.available plugin w = false) := by
  have hfold : ∀ (l : List Placement) (b : Bool),
      (l.foldlM (fun willBeAdded which => do .ok (willBeAdded || (← p.checkPlacement plugin which))) b =
          (.ok (b || l.any plugin.declares) : Except PluginCheckException Bool) ∧
        ∀ w ∈ l, plugin.declares w = true → p.available plugin w = true) ∨
      ((∃ m, l.foldlM (fun willBeAdded which => do
          .ok (willBeAdded || (← p.checkPlacement plugin which))) b =
            (.error (.tooManyPlugins m) : Except PluginCheckException Bool)) ∧
        ∃ w ∈ l, plugin.declares w = true ∧ p.available plugin w = false) := by
    intro l
    induction l with
    | nil => exact fun b => Or.inl ⟨by simp; rfl, fun w hw => absurd hw List.not_mem_nil⟩
    | cons w l ih =>
      intro b
      rw [List.foldlM_cons]
      obtain ⟨hw, hav⟩ | ⟨⟨m, hm⟩, hd, hav⟩ := p.checkPlacement_eq plugin w
      · obtain ⟨hl, hall⟩ | ⟨⟨m, hm⟩, x, hx, hd⟩ := ih (b || plugin.declares w)
        · refine Or.inl ⟨?_, fun x hx hd => ?_⟩
          · rw [hw]
            refine hl.trans ?_
            rw [List.any_cons, Bool.or_assoc]
          · obtain rfl | hx := List.mem_cons.mp hx
            · exact hav hd
            · exact hall x hx hd
        · refine Or.inr ⟨⟨m, ?_⟩, x, List.mem_cons_of_mem w hx, hd⟩
          rw [hw]
          exact hm
      · refine Or.inr ⟨⟨m, ?_⟩, w, List.mem_cons_self, hd, hav⟩
        rw [hm]
        rfl
  exact hfold l false

end Plugins

/-! ## Slots -/

/-- The slots of a placement. -/
def Placement.InRange (w : Placement) (s : ℕ) : Prop := w.place.current ≤ s ∧ s ≤ w.place.max

/-- The ranges of the placements of a list are disjoint. -/
def Apart (ws : List Placement) : Prop :=
  ∀ w ∈ ws, ∀ w' ∈ ws, w ≠ w' → w.place.max < w'.place.current ∨ w'.place.max < w.place.current

instance (ws : List Placement) : Decidable (Apart ws) :=
  inferInstanceAs (Decidable (∀ w ∈ ws, ∀ w' ∈ ws, w ≠ w' →
    w.place.max < w'.place.current ∨ w'.place.max < w.place.current))

theorem Apart.unique {ws : List Placement} (h : Apart ws) {w w' : Placement} (hw : w ∈ ws)
    (hw' : w' ∈ ws) {s : ℕ} (hs : w.InRange s) (hs' : w'.InRange s) : w = w' := by
  by_contra hne
  have hlt := h w hw w' hw' hne
  obtain ⟨h1, h2⟩ := hs
  obtain ⟨h3, h4⟩ := hs'
  omega

/-- The last slot that is still free. -/
def Plugins.lastFree (p : Plugins) (w : Placement) : ℕ :=
  if w = .postgetstorage then p.revPostGet else w.place.max

/-- The counters are within the ranges, and the slots between them are free. -/
structure Counted (ws : List Placement) (p : Plugins) : Prop where
  max : ∀ w, (p.placementInfo w).max = w.place.max
  lower : ∀ w, w.place.current ≤ (p.placementInfo w).current
  rev : p.revPostGet ≤ NR_OF_PLUGINS - 1
  free : ∀ w ∈ ws, ∀ s, (p.placementInfo w).current ≤ s → s ≤ p.lastFree w → p.plugins s = none

theorem Counted.lastFree_le {ws : List Placement} {p : Plugins} (h : Counted ws p) (w : Placement) :
    p.lastFree w ≤ w.place.max := by
  rw [Plugins.lastFree]
  split_ifs with hw
  · subst hw
    exact h.rev
  · exact le_rfl

/-- The plugin is in exactly one slot of the placement. -/
def Plugins.HasSlot (p : Plugins) (ref : PluginRef) (w : Placement) : Prop :=
  ∃! s, w.InRange s ∧ p.plugins s = some ref

/-- Each plugin is in one slot for each placement of the list that it declares. -/
structure Placed (ws : List Placement) (plugins : List Plugin) (p : Plugins) : Prop
    extends Counted ws p where
  slot : ∀ i plugin, plugins[i]? = some plugin → ∀ w ∈ ws, plugin.declares w = true → p.HasSlot i w
  old : ∀ s i, p.plugins s = some i → i < plugins.length

/-- No slot that was given to a plugin is given to another one. -/
def Kept (p p' : Plugins) : Prop := ∀ s i, p.plugins s = some i → p'.plugins s = some i

theorem Kept.refl (p : Plugins) : Kept p p := fun _ _ h => h

theorem Kept.trans {p p' p'' : Plugins} (h : Kept p p') (h' : Kept p' p'') : Kept p p'' :=
  fun s i hs => h' s i (h s i hs)

/-! ## One assignment -/

section Assign

variable {ws : List Placement} {p : Plugins} {plugin : Plugin} {ref : PluginRef} {w : Placement}

/-- There is a free slot at the counter that the plugin is taken from. -/
def Plugins.Room (p : Plugins) (w : Placement) : Prop := (p.placementInfo w).current ≤ p.lastFree w

theorem lastFree_of_ne {p' : Plugins} (hw : w ≠ .postgetstorage) : p'.lastFree w = w.place.max :=
  if_neg hw

/-- What an assignment of a declared placement does: it fills a free slot of the range, and moves no
other counter. -/
theorem addPlugin_assigns (hp : Counted ws p) (hap : Apart ws) (hw : w ∈ ws) (hroom : p.Room w)
    (hd : plugin.declares w = true) :
    ∃ s, w.InRange s ∧ p.plugins s = none ∧
      (p.addPlugin plugin ref w).plugins = Function.update p.plugins s (some ref) ∧
      Counted ws (p.addPlugin plugin ref w) ∧
      ∀ w' ∈ ws, w' ≠ w → ((p.addPlugin plugin ref w).Room w' ↔ p.Room w') := by
  have hlast := hp.lastFree_le w
  have hlow := hp.lower w
  unfold Plugins.Room at hroom
  cases hb : plugin.fromBehind w with
  | true =>
    obtain ⟨rfl, -⟩ : w = .postgetstorage ∧ plugin.lookupInfo (str "stacking") = [] := by
      simpa [Plugin.fromBehind] using hb
    have hrev : p.lastFree .postgetstorage = p.revPostGet := if_pos rfl
    rw [hrev] at hroom hlast
    have hadd : p.addPlugin plugin ref .postgetstorage = { p with
        plugins := Function.update p.plugins p.revPostGet (some ref)
        revPostGet := p.revPostGet - 1 } := by
      rw [Plugins.addPlugin, hd, hb]
      rfl
    have hpos : 1 ≤ p.revPostGet := le_trans (by decide) (hlow.trans hroom)
    refine ⟨p.revPostGet, ⟨hlow.trans hroom, hlast⟩,
      hp.free _ hw _ hroom (by rw [hrev]), by rw [hadd], ?_, fun w' hw' hne => ?_⟩
    · rw [hadd]
      refine ⟨hp.max, hp.lower, (Nat.sub_le _ _).trans hp.rev, fun w' hw' s hs hs' => ?_⟩
      have hne : s ≠ p.revPostGet := by
        rintro rfl
        by_cases hpost : w' = .postgetstorage
        · subst hpost
          have : ({ p with plugins := Function.update p.plugins p.revPostGet (some ref), revPostGet := p.revPostGet - 1 } : Plugins).lastFree .postgetstorage = p.revPostGet - 1 := if_pos rfl
          rw [this] at hs'
          omega
        · rw [lastFree_of_ne hpost] at hs'
          exact hpost (hap.unique hw' hw ⟨(hp.lower w').trans hs, hs'⟩ ⟨hlow.trans hroom, hlast⟩)
      dsimp only
      rw [Function.update_of_ne hne]
      refine hp.free w' hw' s hs (hs'.trans ?_)
      unfold Plugins.lastFree
      split_ifs
      · exact Nat.sub_le _ _
      · exact le_rfl
    · rw [hadd]
      unfold Plugins.Room
      rw [lastFree_of_ne hne, lastFree_of_ne hne]
  | false =>
    have hadd : p.addPlugin plugin ref w = { p with
        plugins := Function.update p.plugins (p.placementInfo w).current (some ref)
        placementInfo := Function.update p.placementInfo w
          { p.placementInfo w with current := (p.placementInfo w).current + 1 } } := by
      rw [Plugins.addPlugin, hd, hb]
      rfl
    refine ⟨(p.placementInfo w).current, ⟨hlow, hroom.trans hlast⟩, hp.free w hw _ le_rfl hroom,
      by rw [hadd], ?_, fun w' hw' hne => ?_⟩
    · rw [hadd]
      refine ⟨fun w' => ?_, fun w' => ?_, hp.rev, fun w' hw' s hs hs' => ?_⟩
      · dsimp only
        by_cases hne : w' = w
        · subst hne
          rw [Function.update_self]
          exact hp.max w'
        · rw [Function.update_of_ne hne]
          exact hp.max w'
      · dsimp only
        by_cases hne : w' = w
        · subst hne
          rw [Function.update_self]
          exact Nat.le_succ_of_le hlow
        · rw [Function.update_of_ne hne]
          exact hp.lower w'
      · dsimp only at hs ⊢
        by_cases hne : w' = w
        · subst hne
          rw [Function.update_self] at hs
          rw [Function.update_of_ne (by dsimp only at hs; omega)]
          exact hp.free w' hw' s (Nat.le_of_succ_le hs) hs'
        · rw [Function.update_of_ne hne] at hs
          have hs'' : s ≤ p.lastFree w' := hs'
          rw [Function.update_of_ne]
          · exact hp.free w' hw' s hs hs''
          · rintro rfl
            exact hne (hap.unique hw' hw ⟨(hp.lower w').trans hs, hs''.trans (hp.lastFree_le w')⟩
              ⟨hlow, hroom.trans hlast⟩)
    · rw [hadd]
      unfold Plugins.Room
      dsimp only
      rw [Function.update_of_ne hne]
      rfl

/-- What the assignments of several placements do. -/
structure Assigns (ws l : List Placement) (plugin : Plugin) (ref : PluginRef) (p p' : Plugins) : Prop where
  counted : Counted ws p'
  kept : Kept p p'
  new : ∀ s i, p'.plugins s = some i → p.plugins s = some i ∨ i = ref ∧ ∃ w ∈ l, w.InRange s
  slot : ∀ w ∈ l, plugin.declares w = true → p'.HasSlot ref w

theorem addPlacements_spec (hap : Apart ws) : ∀ (l : List Placement) (p : Plugins), l ⊆ ws → l.Nodup →
    Counted ws p → (∀ w ∈ l, plugin.declares w = true → p.Room w) →
    (∀ w ∈ l, ∀ s, w.InRange s → p.plugins s ≠ some ref) →
    Assigns ws l plugin ref p (addPlacements p plugin ref l)
  | [], p, _, _, hp, _, _ =>
    ⟨hp, Kept.refl p, fun _ _ h => Or.inl h, fun w hw => absurd hw List.not_mem_nil⟩
  | w :: l, p, hsub, hnodup, hp, hroom, hfresh => by
    obtain ⟨hwl, hnodup⟩ := List.nodup_cons.mp hnodup
    have hw : w ∈ ws := hsub List.mem_cons_self
    have hsub' : l ⊆ ws := fun x hx => hsub (List.mem_cons_of_mem w hx)
    have hne : ∀ w' ∈ l, w' ≠ w := fun w' hw' he => hwl (he ▸ hw')
    cases hd : plugin.declares w with
    | false =>
      have hsame : p.addPlugin plugin ref w = p := by
        rw [Plugins.addPlugin, hd]
        rfl
      obtain ⟨hcounted, hkept, hnew, hslot⟩ := addPlacements_spec hap l p hsub' hnodup hp
        (fun x hx => hroom x (List.mem_cons_of_mem w hx))
        fun x hx => hfresh x (List.mem_cons_of_mem w hx)
      rw [addPlacements, List.foldl_cons, hsame]
      refine ⟨hcounted, hkept, fun s i hs => ?_, fun x hx hdx => ?_⟩
      · exact (hnew s i hs).imp_right fun ⟨hi, x, hx, hr⟩ => ⟨hi, x, List.mem_cons_of_mem w hx, hr⟩
      · obtain rfl | hx := List.mem_cons.mp hx
        · rw [hd] at hdx
          cases hdx
        · exact hslot x hx hdx
    | true =>
      obtain ⟨s₀, hs₀, hfree, hupd, hp₁, hroom₁⟩ :=
        @addPlugin_assigns ws p plugin ref w hp hap hw (hroom w List.mem_cons_self hd) hd
      generalize hp1 : p.addPlugin plugin ref w = p₁ at hupd hp₁ hroom₁
      have hout : ∀ w' ∈ l, ¬ w'.InRange s₀ := fun w' hw' hr =>
        hne w' hw' (hap.unique (hsub' hw') hw hr hs₀)
      obtain ⟨hcounted, hkept, hnew, hslot⟩ := addPlacements_spec hap l p₁ hsub' hnodup hp₁
        (fun x hx hdx => (hroom₁ x (hsub' hx) (hne x hx)).mpr (hroom x (List.mem_cons_of_mem w hx) hdx))
        (fun x hx s hs => by
          have hs' : s ≠ s₀ := fun he => hout x hx (he ▸ hs)
          rw [hupd, Function.update_of_ne hs']
          exact hfresh x (List.mem_cons_of_mem w hx) s hs)
      rw [addPlacements, List.foldl_cons, hp1]
      refine ⟨hcounted, fun s i hs => ?_, fun s i hs => ?_, fun x hx hdx => ?_⟩
      · apply hkept
        rw [hupd, Function.update_of_ne, hs]
        rintro rfl
        rw [hfree] at hs
        cases hs
      · obtain hs | ⟨hi, x, hx, hr⟩ := hnew s i hs
        · rw [hupd] at hs
          by_cases he : s = s₀
          · subst he
            rw [Function.update_self] at hs
            exact Or.inr ⟨(Option.some.inj hs).symm, w, List.mem_cons_self, hs₀⟩
          · rw [Function.update_of_ne he] at hs
            exact Or.inl hs
        · exact Or.inr ⟨hi, x, List.mem_cons_of_mem w hx, hr⟩
      · obtain rfl | hx := List.mem_cons.mp hx
        · refine ⟨s₀, ⟨hs₀, hkept s₀ ref (by rw [hupd, Function.update_self])⟩, ?_⟩
          rintro s ⟨hr, hs⟩
          obtain hs | ⟨-, y, hy, hr'⟩ := hnew s ref hs
          · rw [hupd] at hs
            by_contra he
            rw [Function.update_of_ne he] at hs
            exact hfresh x List.mem_cons_self s hr hs
          · exact absurd (hap.unique (hsub' hy) hw hr' hr) (hne y hy)
        · exact hslot x hx hdx

end Assign

/-- **A plugin whose declared placements have room is placed, and all others stay where they are.** -/
theorem Placed.addPlacements {ws : List Placement} {plugins : List Plugin} {p : Plugins}
    (hp : Placed ws plugins p) (hap : Apart ws) (hnodup : ws.Nodup) (plugin : Plugin)
    (hroom : ∀ w ∈ ws, plugin.declares w = true → p.Room w) :
    Placed ws (plugins ++ [plugin]) (addPlacements p plugin plugins.length ws) ∧
      Kept p (Tools.addPlacements p plugin plugins.length ws) := by
  obtain ⟨hcounted, hkept, hnew, hslot⟩ := addPlacements_spec hap ws p (List.Subset.refl ws) hnodup
    hp.toCounted hroom fun w _ s _ hs => (hp.old s _ hs).false
  refine ⟨⟨hcounted, fun i x hi w hw hd => ?_, fun s i hs => ?_⟩, hkept⟩
  · by_cases hlt : i < plugins.length
    · rw [List.getElem?_append_left hlt] at hi
      obtain ⟨s, ⟨hr, hs⟩, huniq⟩ := hp.slot i x hi w hw hd
      refine ⟨s, ⟨hr, hkept s i hs⟩, ?_⟩
      rintro s' ⟨hr', hs'⟩
      obtain hs' | ⟨rfl, -⟩ := hnew s' i hs'
      · exact huniq s' ⟨hr', hs'⟩
      · exact absurd hlt (lt_irrefl _)
    · obtain ⟨rfl, rfl⟩ : i = plugins.length ∧ x = plugin := by
        have hi' := (List.getElem?_eq_some_iff.mp hi).1
        rw [List.length_append, List.length_singleton] at hi'
        have hlen : i = plugins.length := Nat.le_antisymm (Nat.lt_succ_iff.mp hi') (not_lt.mp hlt)
        subst hlen
        simpa using hi.symm
      exact hslot w hw hd
  · rw [List.length_append, List.length_singleton]
    obtain hs | ⟨rfl, -⟩ := hnew s i hs
    · exact Nat.lt_succ_of_lt (hp.old s i hs)
    · exact Nat.lt_succ_self _

/-! ## What the other checks leave -/

/-- The slots and their counters are the same; the numbers of storages and resolvers may differ. -/
structure SameSlots (p p' : Plugins) : Prop where
  plugins : p'.plugins = p.plugins
  placementInfo : p'.placementInfo = p.placementInfo
  revPostGet : p'.revPostGet = p.revPostGet

theorem SameSlots.refl (p : Plugins) : SameSlots p p := ⟨rfl, rfl, rfl⟩

theorem SameSlots.trans {p p' p'' : Plugins} (h : SameSlots p p') (h' : SameSlots p' p'') :
    SameSlots p p'' :=
  ⟨h'.plugins.trans h.plugins, h'.placementInfo.trans h.placementInfo,
    h'.revPostGet.trans h.revPostGet⟩

theorem sameSlots_addInfo (p : Plugins) (plugin : Plugin) : SameSlots p (p.addInfo plugin) :=
  ⟨rfl, rfl, rfl⟩

theorem SameSlots.kept {p p' : Plugins} (h : SameSlots p p') : Kept p p' := fun s i hs => by
  rw [h.plugins]
  exact hs

theorem SameSlots.room {p p' : Plugins} (h : SameSlots p p') (w : Placement) : p'.Room w ↔ p.Room w := by
  rw [Plugins.Room, Plugins.Room, Plugins.lastFree, Plugins.lastFree, h.placementInfo, h.revPostGet]

theorem SameSlots.placed {ws : List Placement} {plugins : List Plugin} {p p' : Plugins}
    (h : SameSlots p p') (hp : Placed ws plugins p) : Placed ws plugins p' := by
  have hlast : ∀ w, p'.lastFree w = p.lastFree w := fun w => by
    rw [Plugins.lastFree, Plugins.lastFree, h.revPostGet]
  refine ⟨⟨?_, ?_, ?_, ?_⟩, ?_, ?_⟩
  · rw [h.placementInfo]
    exact hp.max
  · rw [h.placementInfo]
    exact hp.lower
  · rw [h.revPostGet]
    exact hp.rev
  · intro w hw s hs hs'
    rw [h.placementInfo] at hs
    rw [hlast] at hs'
    rw [h.plugins]
    exact hp.free w hw s hs hs'
  · intro i plugin hi w hw hd
    unfold Plugins.HasSlot
    rw [h.plugins]
    exact hp.slot i plugin hi w hw hd
  · rw [h.plugins]
    exact hp.old

/-- There is at most one storage and one resolver. -/
def AtMostOne (p : Plugins) : Prop := p.nrStoragePlugins ≤ 1 ∧ p.nrResolverPlugins ≤ 1

/-- The plugin is no second storage or resolver. -/
def FirstOne (p : Plugins) (plugin : Plugin) : Prop :=
  (plugin.findInfo (str "storage") (str "provides") = true → p.nrStoragePlugins = 0) ∧
    (plugin.findInfo (str "resolver") (str "provides") = true → p.nrResolverPlugins = 0)

section Counts

variable {p : Plugins} {plugin : Plugin}

theorem checkStorage_spec (h : AtMostOne p) : SameSlots p (p.checkStorage plugin).2 ∧
    AtMostOne (p.checkStorage plugin).2 ∧
    (p.checkStorage plugin).2.nrResolverPlugins = p.nrResolverPlugins ∧
    (FirstOne p plugin → (p.checkStorage plugin).1 = none) := by
  obtain ⟨hs, hr⟩ := h
  unfold Plugins.checkStorage FirstOne
  cases hst : plugin.findInfo (str "storage") (str "provides") with
  | true =>
    dsimp only
    rw [if_pos rfl]
    split_ifs with hlt
    · refine ⟨⟨rfl, rfl, rfl⟩, ⟨?_, hr⟩, rfl, fun hf => ?_⟩
      · exact (Nat.add_sub_cancel p.nrStoragePlugins 1).le.trans hs
      · rw [hf.1 rfl] at hlt
        exact absurd hlt (lt_irrefl 1)
    · exact ⟨⟨rfl, rfl, rfl⟩, ⟨not_lt.mp hlt, hr⟩, rfl, fun _ => rfl⟩
  | false =>
    dsimp only
    rw [if_neg Bool.false_ne_true, if_neg (not_lt.mpr hs)]
    exact ⟨SameSlots.refl p, ⟨hs, hr⟩, rfl, fun _ => rfl⟩

theorem checkResolver_spec (h : AtMostOne p) : SameSlots p (p.checkResolver plugin).2 ∧
    AtMostOne (p.checkResolver plugin).2 ∧
    ((plugin.findInfo (str "resolver") (str "provides") = true → p.nrResolverPlugins = 0) →
      (p.checkResolver plugin).1 = none) := by
  obtain ⟨hs, hr⟩ := h
  unfold Plugins.checkResolver
  cases hst : plugin.findInfo (str "resolver") (str "provides") with
  | true =>
    dsimp only
    rw [if_pos rfl]
    split_ifs with hlt
    · refine ⟨⟨rfl, rfl, rfl⟩, ⟨hs, ?_⟩, fun hf => ?_⟩
      · exact (Nat.add_sub_cancel p.nrResolverPlugins 1).le.trans hr
      · rw [hf rfl] at hlt
        exact absurd hlt (lt_irrefl 1)
    · exact ⟨⟨rfl, rfl, rfl⟩, ⟨hs, not_lt.mp hlt⟩, fun _ => rfl⟩
  | false =>
    dsimp only
    rw [if_neg Bool.false_ne_true, if_neg (not_lt.mpr hr)]
    exact ⟨SameSlots.refl p, ⟨hs, hr⟩, fun _ => rfl⟩

theorem tryCounts_spec (h : AtMostOne p) (symbol : Str) (storage : Bool)
    (checks : Except PluginCheckException Bool) :
    SameSlots p (p.tryCounts plugin symbol storage checks).2 ∧
    AtMostOne (p.tryCounts plugin symbol storage checks).2 ∧
    (∀ e, checks = .error e → (p.tryCounts plugin symbol storage checks).1 = some e) ∧
    ((∃ b, checks = .ok b ∧ (b = true → plugin.hasSymbol symbol = true)) → FirstOne p plugin →
      (p.tryCounts plugin symbol storage checks).1 = none) := by
  match checks with
  | .error e =>
    refine ⟨SameSlots.refl p, h, fun e' he => congrArg some (Except.error.inj he), ?_⟩
    rintro ⟨b, hb, -⟩
    cases hb
  | .ok false => exact ⟨SameSlots.refl p, h, nofun, fun _ _ => rfl⟩
  | .ok true =>
    unfold Plugins.tryCounts
    dsimp only
    cases hsym : plugin.hasSymbol symbol with
    | false =>
      refine ⟨SameSlots.refl p, h, nofun, ?_⟩
      rintro ⟨b, hb, hsym⟩
      exact absurd (hsym (Except.ok.inj hb).symm) Bool.false_ne_true
    | true =>
      rw [Bool.not_true, if_neg Bool.false_ne_true]
      obtain ⟨hsame, hone, hres, hnone⟩ := @checkStorage_spec p plugin h
      have hst : ∀ r, r = (if storage = true then p.checkStorage plugin else (none, p)) →
          SameSlots p r.2 ∧ AtMostOne r.2 ∧ r.2.nrResolverPlugins = p.nrResolverPlugins ∧
          (FirstOne p plugin → r.1 = none) := by
        rintro r rfl
        split_ifs
        · exact ⟨hsame, hone, hres, hnone⟩
        · exact ⟨SameSlots.refl p, h, rfl, fun _ => rfl⟩
      generalize (if storage = true then p.checkStorage plugin else (none, p)) = r at hst ⊢
      obtain ⟨hsame, hone, hres, hnone⟩ := hst r rfl
      obtain ⟨_ | e, p₁⟩ := r
      · obtain ⟨hsame', hone', hnone'⟩ := @checkResolver_spec p₁ plugin hone
        refine ⟨hsame.trans hsame', hone', nofun, fun _ hf => hnone' fun hr => ?_⟩
        exact hres.trans (hf.2 hr)
      · exact ⟨hsame, hone, nofun, fun _ hf => absurd (hnone hf) (Option.some_ne_none e)⟩

/-! ## Trying a list -/

/-- What a list asks for, the free slots apart. -/
structure ListAdmits (ws : List Placement) (symbol : Str) (p : Plugins) (plugin : Plugin) : Prop where
  symbol : ws.any plugin.declares = true → plugin.hasSymbol symbol = true
  first : FirstOne p plugin

/-- What `tryPlugin` of a list does, where `admits` says that no other check throws. -/
structure Tried (ws : List Placement) (admits : Prop) (p : Plugins) (plugin : Plugin)
    (r : Option PluginCheckException × Plugins) : Prop where
  same : SameSlots p r.2
  one : AtMostOne r.2
  returns : r.1 = none → ∀ w ∈ ws, plugin.declares w = true → p.available plugin w = true
  rejects : admits → (∃ w ∈ ws, plugin.declares w = true ∧ p.available plugin w = false) →
    ∃ m, r.1 = some (.tooManyPlugins m)
  accepts : admits → (∀ w ∈ ws, plugin.declares w = true → p.available plugin w = true) → r.1 = none

theorem tried_of_checks {ws : List Placement} {symbol : Str} (h : AtMostOne p) (storage : Bool) :
    Tried ws (ListAdmits ws symbol p plugin) p plugin
      (p.tryCounts plugin symbol storage (p.checkPlacements plugin ws)) := by
  obtain ⟨hsame, hone, herr, hok⟩ :=
    @tryCounts_spec p plugin h symbol storage (p.checkPlacements plugin ws)
  obtain ⟨hchk, hall⟩ | ⟨⟨m, hm⟩, w, hw, hd, hav⟩ := p.checkPlacements_spec plugin ws
  · refine ⟨hsame, hone, fun _ => hall, fun _ ⟨w, hw, hd, hav⟩ => ?_, fun hadm _ => ?_⟩
    · rw [hall w hw hd] at hav
      cases hav
    · exact hok ⟨_, hchk, hadm.symbol⟩ hadm.first
  · refine ⟨hsame, hone, fun hnone => ?_, fun _ _ => ⟨m, herr _ hm⟩, fun _ hall => ?_⟩
    · rw [herr _ hm] at hnone
      cases hnone
    · rw [hall w hw hd] at hav
      cases hav

theorem Tried.tooMany {ws : List Placement} {admits : Prop}
    {r : Option PluginCheckException × Plugins} (h : Tried ws admits p plugin r) (hadm : admits)
    {e : PluginCheckException} (he : r.1 = some e) : ∃ m, e = .tooManyPlugins m := by
  by_cases hall : ∀ w ∈ ws, plugin.declares w = true → p.available plugin w = true
  · exact absurd (he.symm.trans (h.accepts hadm hall)) (Option.some_ne_none e)
  · push Not at hall
    obtain ⟨w, hw, hd, hav⟩ := hall
    obtain ⟨m, hm⟩ := h.rejects hadm ⟨w, hw, hd, Bool.not_eq_true _ ▸ hav⟩
    exact ⟨m, Option.some.inj (he.symm.trans hm)⟩

theorem errorPlugins_tried (h : AtMostOne p) :
    Tried errorPlacements (p.checkOrdering plugin = .ok () ∧ p.checkConflicts plugin = .ok () ∧
      ListAdmits errorPlacements (str "error") p plugin) p plugin (ErrorPlugins.tryPlugin p plugin) := by
  unfold ErrorPlugins.tryPlugin
  cases hord : p.checkOrdering plugin with
  | error e => exact ⟨SameSlots.refl p, h, nofun, nofun, nofun⟩
  | ok _ =>
    cases hcon : p.checkConflicts plugin with
    | error e => exact ⟨SameSlots.refl p, h, nofun, nofun, nofun⟩
    | ok _ =>
      obtain ⟨hsame, hone, hret, hrej, hacc⟩ :=
        @tried_of_checks p plugin errorPlacements (str "error") h false
      exact ⟨hsame, hone, hret, fun hadm => hrej hadm.2.2, fun hadm => hacc hadm.2.2⟩

end Counts

/-! ## Backends -/

namespace Backend

variable {Spec : Type} {load : Load Spec} {b : Backend} {spec : Spec} {plugin : Plugin}

/-- Each plugin of the backend has its slots in the three lists. -/
structure Placed (b : Backend) : Prop where
  error : Tools.Placed errorPlacements b.plugins b.errorplugins
  get : Tools.Placed getPlacements b.plugins b.getplugins
  set : Tools.Placed setPlacements b.plugins b.setplugins

structure Kept (b b' : Backend) : Prop where
  error : Tools.Kept b.errorplugins b'.errorplugins
  get : Tools.Kept b.getplugins b'.getplugins
  set : Tools.Kept b.setplugins b'.setplugins

/-- Each list has at most one storage and one resolver. -/
structure Single (b : Backend) : Prop where
  error : AtMostOne b.errorplugins
  get : AtMostOne b.getplugins
  set : AtMostOne b.setplugins

/-- A declared placement has no free slot in its range. -/
def NoFreeSlot (b : Backend) (plugin : Plugin) : Prop :=
  (∃ w ∈ errorPlacements, plugin.declares w = true ∧ ∀ s, w.InRange s → b.errorplugins.plugins s ≠ none) ∨
  (∃ w ∈ getPlacements, plugin.declares w = true ∧ ∀ s, w.InRange s → b.getplugins.plugins s ≠ none) ∨
  ∃ w ∈ setPlacements, plugin.declares w = true ∧ ∀ s, w.InRange s → b.setplugins.plugins s ≠ none

/-- What the backend asks for, the free slots apart. -/
structure Admits (b : Backend) (plugin : Plugin) : Prop where
  ordering : b.errorplugins.checkOrdering plugin = .ok ()
  conflicts : b.errorplugins.checkConflicts plugin = .ok ()
  error : ListAdmits errorPlacements (str "error") b.errorplugins plugin
  get : ListAdmits getPlacements (str "get") b.getplugins plugin
  set : ListAdmits setPlacements (str "set") b.setplugins plugin

/-- A stacking plugin for `postgetstorage` does not meet the plugins from the other end, except where
the counter has run out of the range. -/
def Fits (load : Load Spec) (b : Backend) (spec : Spec) : Prop :=
  ∀ plugin, load spec = .ok plugin → plugin.declares .postgetstorage = true →
    plugin.lookupInfo (str "stacking") ≠ [] →
    (b.getplugins.placementInfo .postgetstorage).current ≤ (b.getplugins.placementInfo .postgetstorage).max →
    (b.getplugins.placementInfo .postgetstorage).current ≤ b.getplugins.revPostGet

/-- The declared placements are available in all lists. -/
structure Available (b : Backend) (plugin : Plugin) : Prop where
  error : ∀ w ∈ errorPlacements, plugin.declares w = true → b.errorplugins.available plugin w = true
  get : ∀ w ∈ getPlacements, plugin.declares w = true → b.getplugins.available plugin w = true
  set : ∀ w ∈ setPlacements, plugin.declares w = true → b.setplugins.available plugin w = true

/-- The slots of all lists are the same. -/
structure SameSlots (b b' : Backend) : Prop where
  error : Tools.SameSlots b.errorplugins b'.errorplugins
  get : Tools.SameSlots b.getplugins b'.getplugins
  set : Tools.SameSlots b.setplugins b'.setplugins

/-- What `tryPlugin` does with a loaded plugin. -/
structure TriedAll (b : Backend) (plugin : Plugin) (r : Except PluginCheckException Plugin × Backend) :
    Prop where
  same : SameSlots b r.2
  single : Single r.2
  returns : ∀ x, r.1 = .ok x → x = plugin ∧ Available b plugin ∧ r.2.plugins = b.plugins ++ [plugin]
  throws : ∀ e, r.1 = .error e → r.2.plugins = b.plugins
  rejects : Admits b plugin → ¬ Available b plugin → ∃ m, r.1 = .error (.tooManyPlugins m)

theorem tryPlugin_spec (hone : Single b) (hload : load spec = .ok plugin) :
    TriedAll b plugin (b.tryPlugin load spec) := by
  have he := @errorPlugins_tried b.errorplugins plugin hone.error
  have hg := @tried_of_checks b.getplugins plugin getPlacements (str "get") hone.get true
  have hs := @tried_of_checks b.setplugins plugin setPlacements (str "set") hone.set true
  unfold tryPlugin GetPlugins.tryPlugin SetPlugins.tryPlugin
  rw [hload]
  dsimp only
  generalize ErrorPlugins.tryPlugin b.errorplugins plugin = re at he ⊢
  generalize b.getplugins.tryCounts plugin (str "get") true
    (b.getplugins.checkPlacements plugin getPlacements) = rg at hg ⊢
  generalize b.setplugins.tryCounts plugin (str "set") true
    (b.setplugins.checkPlacements plugin setPlacements) = rs at hs ⊢
  obtain ⟨_ | e, pe⟩ := re
  · obtain ⟨_ | e, pg⟩ := rg
    · obtain ⟨_ | e, ps⟩ := rs
      · have hall : Available b plugin := ⟨he.returns rfl, hg.returns rfl, hs.returns rfl⟩
        dsimp only
        split_ifs with hdup
        · exact ⟨⟨he.same, hg.same, hs.same⟩, ⟨he.one, hg.one, hs.one⟩, nofun, fun _ _ => rfl,
            fun _ h => absurd hall h⟩
        · exact ⟨⟨he.same, hg.same, hs.same⟩, ⟨he.one, hg.one, hs.one⟩,
            fun x hx => ⟨(Except.ok.inj hx).symm, hall, rfl⟩, nofun, fun _ h => absurd hall h⟩
      · refine ⟨⟨he.same, hg.same, hs.same⟩, ⟨he.one, hg.one, hs.one⟩, nofun, fun _ _ => rfl,
          fun hadm _ => ?_⟩
        obtain ⟨m, rfl⟩ := hs.tooMany hadm.set rfl
        exact ⟨m, rfl⟩
    · refine ⟨⟨he.same, hg.same, SameSlots.refl _⟩, ⟨he.one, hg.one, hone.set⟩, nofun,
        fun _ _ => rfl, fun hadm _ => ?_⟩
      obtain ⟨m, rfl⟩ := hg.tooMany hadm.get rfl
      exact ⟨m, rfl⟩
  · refine ⟨⟨he.same, SameSlots.refl _, SameSlots.refl _⟩, ⟨he.one, hone.get, hone.set⟩, nofun,
      fun _ _ => rfl, fun hadm _ => ?_⟩
    obtain ⟨m, rfl⟩ := he.tooMany ⟨hadm.ordering, hadm.conflicts, hadm.error⟩ rfl
    exact ⟨m, rfl⟩

/-! ## From the checks to the slots -/

/-- Where the check tells the truth, an available placement has room. -/
theorem room_of_available {ws : List Placement} {p : Plugins} {w : Placement} (hp : Counted ws p)
    (hfits : plugin.declares w = true → w = .postgetstorage → plugin.lookupInfo (str "stacking") ≠ [] →
      (p.placementInfo w).current ≤ (p.placementInfo w).max → (p.placementInfo w).current ≤ p.revPostGet)
    (hd : plugin.declares w = true) (hav : p.available plugin w = true) : p.Room w := by
  unfold Plugins.available at hav
  unfold Plugins.Room Plugins.lastFree
  by_cases hw : w = .postgetstorage
  · subst hw
    rw [if_pos rfl]
    cases hb : plugin.fromBehind .postgetstorage with
    | true =>
      rw [hb, if_pos rfl] at hav
      exact of_decide_eq_true hav
    | false =>
      rw [hb, if_neg Bool.false_ne_true] at hav
      refine hfits hd rfl (fun hst => ?_) (of_decide_eq_true hav)
      rw [Plugin.fromBehind, hst] at hb
      cases hb
  · have hb : plugin.fromBehind w = false := by
      rw [Plugin.fromBehind, decide_eq_false hw, Bool.false_and]
    rw [hb, if_neg Bool.false_ne_true] at hav
    rw [if_neg hw, ← hp.max w]
    exact of_decide_eq_true hav

theorem free_of_room {ws : List Placement} {p : Plugins} {w : Placement} (hp : Counted ws p) (hw : w ∈ ws)
    (h : p.Room w) : ∃ s, w.InRange s ∧ p.plugins s = none :=
  ⟨(p.placementInfo w).current, ⟨hp.lower w, h.trans (hp.lastFree_le w)⟩, hp.free w hw _ le_rfl h⟩

/-- Each declared placement has room. -/
structure RoomFor (b : Backend) (plugin : Plugin) : Prop where
  error : ∀ w ∈ errorPlacements, plugin.declares w = true → b.errorplugins.Room w
  get : ∀ w ∈ getPlacements, plugin.declares w = true → b.getplugins.Room w
  set : ∀ w ∈ setPlacements, plugin.declares w = true → b.setplugins.Room w

theorem Available.roomFor (h : Available b plugin) (hp : b.Placed) (hfits : Fits load b spec)
    (hload : load spec = .ok plugin) : RoomFor b plugin := by
  refine ⟨fun w hw hd => ?_, fun w hw hd => ?_, fun w hw hd => ?_⟩
  · refine room_of_available hp.error.toCounted (fun _ he => ?_) hd (h.error w hw hd)
    subst he
    exact absurd hw (by decide)
  · refine room_of_available hp.get.toCounted (fun hd he => ?_) hd (h.get w hw hd)
    subst he
    exact hfits plugin hload hd
  · refine room_of_available hp.set.toCounted (fun _ he => ?_) hd (h.set w hw hd)
    subst he
    exact absurd hw (by decide)

theorem NoFreeSlot.not_available (h : NoFreeSlot b plugin) (hp : b.Placed) (hfits : Fits load b spec)
    (hload : load spec = .ok plugin) : ¬ Available b plugin := by
  intro hav
  obtain ⟨he, hg, hs⟩ := hav.roomFor hp hfits hload
  obtain ⟨w, hw, hd, hfull⟩ | ⟨w, hw, hd, hfull⟩ | ⟨w, hw, hd, hfull⟩ := h
  · obtain ⟨s, hr, hfree⟩ := free_of_room hp.error.toCounted hw (he w hw hd)
    exact hfull s hr hfree
  · obtain ⟨s, hr, hfree⟩ := free_of_room hp.get.toCounted hw (hg w hw hd)
    exact hfull s hr hfree
  · obtain ⟨s, hr, hfree⟩ := free_of_room hp.set.toCounted hw (hs w hw hd)
    exact hfull s hr hfree

theorem SameSlots.placed {b' : Backend} (h : SameSlots b b') (hplugins : b'.plugins = b.plugins)
    (hp : b.Placed) : b'.Placed := by
  refine ⟨?_, ?_, ?_⟩
  all_goals rw [hplugins]
  · exact h.error.placed hp.error
  · exact h.get.placed hp.get
  · exact h.set.placed hp.set

theorem SameSlots.kept {b' : Backend} (h : SameSlots b b') : b.Kept b' :=
  ⟨h.error.kept, h.get.kept, h.set.kept⟩

theorem Kept.refl (b : Backend) : b.Kept b := ⟨Tools.Kept.refl _, Tools.Kept.refl _, Tools.Kept.refl _⟩

theorem Kept.trans {b' b'' : Backend} (h : b.Kept b') (h' : b'.Kept b'') : b.Kept b'' :=
  ⟨h.error.trans h'.error, h.get.trans h'.get, h.set.trans h'.set⟩

/-! ## Calls -/

/-- What holds of a backend between two calls. -/
structure Good (b : Backend) : Prop where
  placed : b.Placed
  single : Single b

theorem placed_init (ws : List Placement) : Tools.Placed ws [] Plugins.init :=
  ⟨⟨fun _ => rfl, fun _ => le_rfl, le_rfl, fun _ _ _ _ _ => rfl⟩, nofun, nofun⟩

theorem good_init : Good Backend.init :=
  ⟨⟨placed_init _, placed_init _, placed_init _⟩, ⟨by decide, by decide⟩, ⟨by decide, by decide⟩,
    ⟨by decide, by decide⟩⟩

theorem addPlacements_counts (plugin : Plugin) (ref : PluginRef) : ∀ (l : List Placement) (p : Plugins),
    (addPlacements p plugin ref l).nrStoragePlugins = p.nrStoragePlugins ∧
      (addPlacements p plugin ref l).nrResolverPlugins = p.nrResolverPlugins
  | [], _ => ⟨rfl, rfl⟩
  | w :: l, p => by
    have hone : (p.addPlugin plugin ref w).nrStoragePlugins = p.nrStoragePlugins ∧
        (p.addPlugin plugin ref w).nrResolverPlugins = p.nrResolverPlugins := by
      unfold Plugins.addPlugin
      split_ifs
      · exact ⟨rfl, rfl⟩
      · exact ⟨rfl, rfl⟩
      · exact ⟨rfl, rfl⟩
    obtain ⟨hst, hre⟩ := addPlacements_counts plugin ref l (p.addPlugin plugin ref w)
    exact ⟨hst.trans hone.1, hre.trans hone.2⟩

theorem atMostOne_addPlacements {p : Plugins} {ws : List Placement} {ref : PluginRef} (h : AtMostOne p) :
    AtMostOne (addPlacements p plugin ref ws) := by
  obtain ⟨hst, hre⟩ := addPlacements_counts plugin ref ws p
  unfold AtMostOne
  rw [hst, hre]
  exact h

/-- What one call does. -/
structure Called (load : Load Spec) (spec : Spec) (b : Backend)
    (r : Option PluginCheckException × Backend) : Prop where
  good : Good r.2
  kept : b.Kept r.2
  accepts : ∀ plugin, load spec = .ok plugin → r.1 = none → r.2.plugins = b.plugins ++ [plugin]
  throws : ∀ e, r.1 = some e → r.2.plugins = b.plugins
  rejects : ∀ plugin, load spec = .ok plugin → NoFreeSlot b plugin → r.1 ≠ none ∧
    (Admits b plugin → ∃ m, r.1 = some (.tooManyPlugins m))

theorem addPlugin_called (hg : Good b) (hfits : Fits load b spec) :
    Called load spec b (b.addPlugin load spec) := by
  obtain ⟨hp, hsingle⟩ := hg
  unfold addPlugin
  cases hload : load spec with
  | error e =>
    have htry : b.tryPlugin load spec = (.error e, b) := by
      rw [tryPlugin, hload]
    have hnot : ∀ x, load spec ≠ .ok x := fun x hx => by
      rw [hload] at hx
      cases hx
    rw [htry]
    exact ⟨⟨hp, hsingle⟩, Kept.refl b, fun x hx => absurd hx (hnot x), fun _ _ => rfl,
      fun x hx => absurd hx (hnot x)⟩
  | ok plugin =>
    have htried := @tryPlugin_spec Spec load b spec plugin hsingle hload
    have hthis : ∀ x, load spec = .ok x → x = plugin := fun x hx => by
      rw [hload] at hx
      exact (Except.ok.inj hx).symm
    generalize b.tryPlugin load spec = r at htried ⊢
    obtain ⟨e | x, b'⟩ := r
    · refine ⟨⟨htried.same.placed (htried.throws e rfl) hp, htried.single⟩, htried.same.kept, nofun,
        fun _ _ => htried.throws e rfl, fun x hx hfull => ⟨Option.some_ne_none e, fun hadm => ?_⟩⟩
      obtain rfl := hthis x hx
      obtain ⟨m, hm⟩ := htried.rejects hadm (hfull.not_available hp hfits hload)
      exact ⟨m, congrArg some (Except.error.inj hm)⟩
    · obtain ⟨rfl, hav, hplugins⟩ := htried.returns x rfl
      obtain ⟨⟨hes, hgs, hss⟩, ⟨heo, hgo, hso⟩⟩ := And.intro htried.same htried.single
      obtain ⟨hre, hrg, hrs⟩ := hav.roomFor hp hfits hload
      have href : b'.plugins.length - 1 = b.plugins.length := by
        rw [show b'.plugins = b.plugins ++ [x] from hplugins, List.length_append]
        rfl
      obtain ⟨hpe, hke⟩ := (hes.placed hp.error).addPlacements (by decide) (by decide) x
        fun w hw hd => (hes.room w).mpr (hre w hw hd)
      obtain ⟨hpg, hkg⟩ := (hgs.placed hp.get).addPlacements (by decide) (by decide) x
        fun w hw hd => (hgs.room w).mpr (hrg w hw hd)
      obtain ⟨hps, hks⟩ := (hss.placed hp.set).addPlacements (by decide) (by decide) x
        fun w hw hd => (hss.room w).mpr (hrs w hw hd)
      dsimp only
      rw [href]
      refine ⟨⟨⟨?_, ?_, ?_⟩, ⟨?_, ?_, ?_⟩⟩, ⟨?_, ?_, ?_⟩, fun y hy _ => ?_, nofun, fun y hy hfull => ?_⟩
      · rw [show b'.plugins = b.plugins ++ [x] from hplugins]
        exact (sameSlots_addInfo _ x).placed hpe
      · rw [show b'.plugins = b.plugins ++ [x] from hplugins]
        exact hpg
      · rw [show b'.plugins = b.plugins ++ [x] from hplugins]
        exact hps
      · exact atMostOne_addPlacements heo
      · exact atMostOne_addPlacements hgo
      · exact atMostOne_addPlacements hso
      · exact (hes.kept.trans hke).trans (sameSlots_addInfo _ x).kept
      · exact hgs.kept.trans hkg
      · exact hss.kept.trans hks
      · obtain rfl := hthis y hy
        exact hplugins
      · obtain rfl := hthis y hy
        exact absurd hav (hfull.not_available hp hfits hload)

/-- The backends that calls lead to. -/
inductive Calls (load : Load Spec) (b : Backend) : Backend → Prop
  | refl : Calls load b b
  | call {b' : Backend} (spec : Spec) :
    Calls load b b' → Fits load b' spec → Calls load b (b'.addPlugin load spec).2

theorem Calls.good {b' : Backend} (h : Calls load b b') (hg : Good b) : Good b' ∧ b.Kept b' := by
  induction h with
  | refl => exact ⟨hg, Kept.refl b⟩
  | call spec _ hfits ih =>
    have hcall := addPlugin_called ih.1 hfits
    exact ⟨hcall.good, ih.2.trans hcall.kept⟩

/-- **In a run of calls that stay clear of the defect, every accepted plugin has exactly one slot for each
placement that it declares, in the range of the placement; no later call gives the slot to another
plugin; and a plugin without a free slot is rejected, with `TooManyPlugins` unless another check
throws.** -/
theorem addPlugin_placed (load : Load Spec) {b : Backend} (h : Calls load Backend.init b) :
    b.Placed ∧ (∀ b', Calls load b b' → b.Kept b') ∧
    ∀ spec plugin, load spec = .ok plugin → Fits load b spec →
      ((b.addPlugin load spec).1 = none → (b.addPlugin load spec).2.plugins = b.plugins ++ [plugin]) ∧
      (b.NoFreeSlot plugin → (b.addPlugin load spec).1 ≠ none ∧
        (b.Admits plugin → ∃ m, (b.addPlugin load spec).1 = some (.tooManyPlugins m))) := by
  obtain ⟨hg, -⟩ := h.good good_init
  refine ⟨hg.placed, fun b' h' => (h'.good hg).2, fun spec plugin hload hfits => ?_⟩
  have hcall := addPlugin_called hg hfits
  exact ⟨hcall.accepts plugin hload, hcall.rejects plugin hload⟩

/-- A plugin that does only the work after `getstorage`. -/
def filter (name : Str) (stacking : Bool) : Plugin where
  name := name
  fullName := name
  lookupInfo item :=
    if item = str "placements" then str "postgetstorage"
    else if item = str "stacking" && stacking then str "yes" else []
  hasSymbol _ := true
  neededConfig := []

/-- The first four plugins do not stack, the fifth does. -/
def filters : Load ℕ := fun i => .ok (filter (Plugins.number i) (i = 4))

/-- The four plugins have all slots from six to nine. -/
def crowded : Backend := [0, 1, 2, 3].foldl (fun b i => (b.addPlugin filters i).2) Backend.init

theorem addPlugin_placed_filter : (Backend.init.addPlugin filters 0).2.Placed :=
  (addPlugin_placed filters (Calls.refl.call 0 fun plugin hload _ hst => by
    cases hload
    exact absurd rfl hst)).1

/-- **The fifth plugin is accepted and takes the slot of the fourth one, which has none left.** -/
theorem not_addPlugin_placed :
    crowded.getplugins.plugins 6 = some 3 ∧ (crowded.addPlugin filters 4).1 = none ∧
      (crowded.addPlugin filters 4).2.getplugins.plugins 6 = some 4 ∧
      ¬ (crowded.addPlugin filters 4).2.getplugins.HasSlot 3 .postgetstorage := by
  have hslots : crowded.getplugins.plugins 6 = some 3 ∧ (crowded.addPlugin filters 4).1 = none ∧
      (crowded.addPlugin filters 4).2.getplugins.plugins 6 = some 4 ∧
      ∀ s < 10, (crowded.addPlugin filters 4).2.getplugins.plugins s ≠ some 3 := by decide +kernel
  obtain ⟨h3, hnone, h4, hlost⟩ := hslots
  refine ⟨h3, hnone, h4, ?_⟩
  rintro ⟨s, ⟨⟨-, hs⟩, hslot⟩, -⟩
  exact hlost s (Nat.lt_succ_of_le hs) hslot

end Backend

end Elektra.Tools
