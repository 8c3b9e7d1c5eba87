import Elektra.Context.Current

/-!
# What contextual values read

* `Inv`, `update_inv`, `assign_inv`: the cache of a value is what was last assigned under its name, and a
  lookup of any other name gives what was last assigned under that;
* **`values_read`**.
-/

namespace Elektra.ContextualValue

open Contextual

/-! ## What the values keep -/

section Inv

variable {ι : Type} [LinearOrder ι] {T : ι → Type} {S : Values ι T} {owner : Str → ι} {ks₀ : Keys}
  {s s' : State ι T} {i : ι}

/-- What a value should read under a name: what was last assigned, or else what a lookup in the initial key
set gives. -/
def State.expected (S : Values ι T) (ks₀ : Keys) (s : State ι T) (i : ι) (n : Str) : Option (T i) :=
  (s.last i n).or (reading S ks₀ i n)

/-- What is read is what was last assigned to the value while it had its name, or else what a lookup of the
name in the initial key set gives; and no default has become persistent. -/
structure Right (S : Values ι T) (ks₀ : Keys) (s : State ι T) : Prop where
  reads : ∀ i v, s.values i = some v →
    (s.last i (cascadingName (s.keys.name v.key))).or (reading S ks₀ i (cascadingName (s.keys.name v.key))) =
      some v.cache
  persists : ∀ n, n.head? = some pathSeparator → s.keys.content (Namespace.user.name ++ n) ≠ none →
    ks₀.content (Namespace.user.name ++ n) ≠ none ∨ ∃ i, s.last i n ≠ none

/-- Names belong to values. -/
structure Inv (S : Values ι T) (owner : Str → ι) (ks₀ : Keys) (s : State ι T) : Prop where
  bound : ∀ i v, s.values i = some v → ∃ n, IsName n ∧ owner n = i ∧
    found s.keys.content n = some v.key ∧ s.expected S ks₀ i n = some v.cache
  stored : ∀ n, n.head? = some pathSeparator →
    (∀ v, s.values (owner n) = some v → found s.keys.content n ≠ some v.key) →
    reading S s.keys (owner n) n = s.expected S ks₀ (owner n) n
  persists : ∀ n, n.head? = some pathSeparator → s.keys.content (Namespace.user.name ++ n) ≠ none →
    ks₀.content (Namespace.user.name ++ n) ≠ none ∨ ∃ i, s.last i n ≠ none
  kept : ∀ n, ks₀.content n ≠ none → s.keys.content n ≠ none
  assigned : ∀ i n, s.last i n ≠ none → ∃ m ∈ namespacePlaces n, s.keys.content m ≠ none

omit [LinearOrder ι] in
theorem inv_start (ks₀ : Keys) : Inv S owner ks₀ (State.start ks₀) where
  bound _ _ h := nomatch h
  stored _ _ _ := rfl
  persists _ _ h := .inl h
  kept _ h := h
  assigned _ _ h := absurd rfl h

/-- A value is bound to the key of a name of its own; nothing else changes. -/
theorem rebound_inv {ks ks' : Keys} {n : Str} {k : KeyRef} {v : Value (T i)} (h : Rebound S ks ks' i n k)
    (hinv : Inv S owner ks₀ s) (hext : Extends s.keys ks')
    (hown : owner n = i) (hvalues : s'.values = Function.update s.values i (some v)) (hkeys : s'.keys = ks')
    (hlast : s'.last = s.last) (hkey : v.key = k) (hcache : S.get i (ks'.value k) = some v.cache)
    (hbound : ∀ j v, j ≠ i → s.values j = some v → ∃ n, IsName n ∧ owner n = j ∧
      found ks.content n = some v.key ∧ s.expected S ks₀ j n = some v.cache)
    (hstored : ∀ n, n.head? = some pathSeparator →
      (owner n ≠ i → ∀ v, s.values (owner n) = some v → found ks.content n ≠ some v.key) →
      reading S ks (owner n) n = s.expected S ks₀ (owner n) n)
    (huser : ∀ n, ks.content (Namespace.user.name ++ n) = s.keys.content (Namespace.user.name ++ n)) :
    Inv S owner ks₀ s' := by
  have hexpected : ∀ j m, s'.expected S ks₀ j m = s.expected S ks₀ j m := fun j m => by
    rw [State.expected, hlast, State.expected]
  have hself : s'.values i = some v := by rw [hvalues, Function.update_self]
  have hothers : ∀ j, j ≠ i → s'.values j = s.values j := fun j hj => by
    rw [hvalues, Function.update_of_ne hj]
  refine ⟨fun j w hw => ?_, fun m hm hfree => ?_, fun m hm hsome => ?_, fun m hm => ?_, fun j m hm => ?_⟩
  · by_cases hj : j = i
    · subst hj
      cases hself.symm.trans hw
      refine ⟨n, h.isName, hown, by rw [hkeys, hkey, h.found], ?_⟩
      have hread := hstored n h.isName.head fun hne => absurd hown hne
      rw [hown] at hread
      rw [hexpected, ← hread, ← h.value, hcache]
    · rw [hothers j hj] at hw
      obtain ⟨m, hm, howner, hfound, hcache'⟩ := hbound j w hj hw
      have hne : m ≠ n := by
        rintro rfl
        exact hj (howner.symm.trans hown)
      exact ⟨m, hm, howner, by rw [hkeys, (h.other m hm.head hne).1, hfound], (hexpected j m).trans hcache'⟩
  · have hne : m ≠ n := by
      rintro rfl
      rw [hown] at hfree
      exact hfree v hself (by rw [hkeys, hkey, h.found])
    obtain ⟨hfound, hread⟩ := h.other m hm hne
    rw [hexpected, hkeys, hread]
    refine hstored m hm fun howner w hw => ?_
    rw [← hfound, ← hkeys]
    exact hfree w ((hothers _ howner).trans hw)
  · rw [hkeys, h.user, huser] at hsome
    rw [hlast]
    exact hinv.persists m hm hsome
  · rw [hkeys]
    exact hext.content m (hinv.kept m hm)
  · rw [hlast] at hm
    rw [hkeys]
    exact (hinv.assigned j m hm).imp fun p hp => ⟨hp.1, hext.content p hp.2⟩

/-- A value that is flushed has not changed, unless its key is no default; and its text reads back. -/
def Fits (S : Values ι T) (s : State ι T) (i : ι) : Prop :=
  ∀ v, s.values i = some v → s.evaluatedName S i ≠ s.keys.name v.key →
    ¬(v.hasChanged = true ∧ (s.keys.name v.key).head? = some pathSeparator) ∧
      S.get i (S.set i v.cache) = some v.cache

/-- The name that a value gets is one of its own. -/
def Own (S : Values ι T) (owner : Str → ι) (s : State ι T) (i : ι) : Prop :=
  ∀ n, setName (s.evaluatedName S i) = some n → owner n = i

instance [∀ i, DecidableEq (T i)] (s : State ι T) (i : ι) : Decidable (Fits S s i) :=
  inferInstanceAs (Decidable (∀ v ∈ s.values i, s.evaluatedName S i ≠ s.keys.name v.key →
    ¬(v.hasChanged = true ∧ (s.keys.name v.key).head? = some pathSeparator) ∧
      S.get i (S.set i v.cache) = some v.cache))

instance (s : State ι T) (i : ι) : Decidable (Own S owner s i) :=
  inferInstanceAs (Decidable (∀ n ∈ setName (s.evaluatedName S i), owner n = i))

omit [LinearOrder ι] in
theorem head_evaluatedName (hs : ∀ i, Plain (S.spec i)) (s : State ι T) (i : ι) :
    (s.evaluatedName S i).head? = some pathSeparator := head_evaluate _ (hs i).name

theorem construct_inv (hs : ∀ i, Plain (S.spec i)) (h : Inv S owner ks₀ s) (hown : Own S owner s i)
    (hrun : s.construct S i = some s') : Inv S owner ks₀ s' := by
  obtain ⟨k, ks', cache, hnone, hget, hcache, rfl⟩ := State.construct_cases hrun
  obtain ⟨n, hset, hrebound⟩ := rebound hs (head_evaluatedName hs s i) hget
  refine rebound_inv hrebound h (extends_update hget) (hown n hset) rfl rfl rfl rfl hcache
    (fun j v _ hv => h.bound j v hv) (fun m hm hfree => h.stored m hm fun v hv => ?_) fun _ => rfl
  by_cases howner : owner m = i
  · subst howner
    cases hnone.symm.trans hv
  · exact hfree howner v hv

theorem update_inv (hs : ∀ i, Plain (S.spec i)) (h : Inv S owner ks₀ s) (hown : Own S owner s i)
    (hfits : Fits S s i) (hrun : s.updateContext S i = some s') : Inv S owner ks₀ s' := by
  obtain ⟨rfl, -⟩ | ⟨v, v', ks, k, ks', cache, hv, hname, hflush, hget, hcache, rfl⟩ :=
    State.updateContext_cases hrun
  · exact h
  · obtain ⟨hnot, hback⟩ := hfits v hv hname
    rw [unsafeSyncKeySet, if_neg hnot] at hflush
    cases hflush
    obtain ⟨n, hset, hrebound⟩ := rebound hs (head_evaluatedName hs s i) hget
    have hext : Extends s.keys ks' := (extends_setString s.keys v.key _).trans (extends_update hget)
    refine rebound_inv hrebound h hext (hown n hset) rfl rfl rfl rfl hcache (fun j w _ hw => h.bound j w hw)
      (fun m hm hfree => ?_) fun _ => rfl
    by_cases hf : found s.keys.content m = some v.key
    · -- the name that the value has had
      obtain ⟨m', hm', howner, hfound, hexpected⟩ := h.bound i v hv
      have he : m = m' := (name_of_found hm hf).symm.trans (name_of_found hm'.head hfound)
      subst he
      rw [howner, hexpected, ← hback]
      have hf' : found (s.keys.setString v.key (S.set i v.cache)).content m = some v.key := hf
      rw [reading_of_found (hs i) hm hf']
      exact congrArg (S.get i) (Function.update_self _ _ _)
    · rw [reading_setString (hs _) hm hf]
      refine h.stored m hm fun w hw => ?_
      by_cases howner : owner m = i
      · subst howner
        cases hv.symm.trans hw
        exact hf
      · exact hfree howner w hw

/-- What an assignment to a value changes in the keys. -/
structure Written (S : Values ι T) (ks ks' : Keys) (n : Str) (k : KeyRef) : Prop where
  found : found ks'.content n = some k
  place : ∃ m ∈ namespacePlaces n, ks'.content m ≠ none
  other : ∀ m, m.head? = some pathSeparator → m ≠ n →
    ContextualValue.found ks'.content m = ContextualValue.found ks.content m ∧
      (∀ j, reading S ks' j m = reading S ks j m) ∧
        ks'.content (Namespace.user.name ++ m) = ks.content (Namespace.user.name ++ m)

omit [LinearOrder ι] in
/-- The key that was found is written, or one of the namespace `user` is put before a default. -/
theorem sync_written (hs : ∀ i, Plain (S.spec i)) {ks ks' : Keys} {n : Str} {v v' : Value (T i)}
    (hn : IsName n) (hfound : found ks.content n = some v.key) (hchanged : v.hasChanged = true)
    (h : unsafeSyncKeySet S ks i v = some (v', ks')) : v'.cache = v.cache ∧ Written S ks ks' n v'.key := by
  rw [unsafeSyncKeySet] at h
  split_ifs at h with hdefault
  · obtain ⟨hname, -⟩ := namespaces_of_default hn.head hfound hdefault.2
    obtain ⟨n', hset, h⟩ := Option.bind_eq_some_iff.mp h
    rw [hname] at hset
    obtain rfl := hn.again n' hset
    cases h
    have huser := @found_append_user ks n' v.key (plainKey (Namespace.user.name ++ n')) [] hn.head hfound
      hdefault.2 rfl
    have hput := append_content_ne ks (plainKey (Namespace.user.name ++ n')) []
    refine ⟨rfl, huser, ⟨_, List.mem_map.mpr ⟨.user, by decide, rfl⟩, hput⟩, fun m hm hne => ?_⟩
    have hplace : (plainKey (Namespace.user.name ++ n')).name ∉ places m := by
      intro hmem
      have hm' := cascadingName_places hm hmem
      exact hne (hm'.symm.trans (cascadingName_ns .user hn.head))
    have hsame := @found_append_of_ne ks m (plainKey (Namespace.user.name ++ n')) [] hplace
    have huser' : Namespace.user.name ++ m ≠ Namespace.user.name ++ n' := fun he =>
      hne (List.append_cancel_left he)
    refine ⟨hsame, fun j => reading_congr (hs j) hm hsame fun k hk => ?_, Function.update_of_ne huser' _ _⟩
    have hold : k ≠ ks.next := (mem_of_found hk).2.ne
    exact (Function.update_of_ne hold _ _).trans (Function.update_of_ne hold _ _)
  · cases h
    have hplace : ks.name v.key ∈ namespacePlaces n := by
      refine (List.mem_append.mp (mem_of_found hfound).1).resolve_right fun hm => hdefault ⟨hchanged, ?_⟩
      rw [List.mem_singleton.mp hm]
      exact hn.head
    refine ⟨rfl, hfound, ⟨_, hplace, content_of_found hfound⟩,
      fun m hm hne => ⟨rfl, fun j => reading_setString (hs j) hm (fun hf => ?_) _, rfl⟩⟩
    exact hne ((name_of_found hm hf).symm.trans (name_of_found hn.head hfound))

omit [LinearOrder ι] in
theorem key_eq {j : ι} (hj : j = i) {w : Value (T j)} {v : Value (T i)} (hw : s.values j = some w)
    (hv : s.values i = some v) : w.key = v.key := by
  subst hj
  cases hv.symm.trans hw
  rfl

theorem assign_inv (hs : ∀ i, Plain (S.spec i)) (h : Inv S owner ks₀ s) {f : T i → T i}
    (hrun : s.assign S i f = some s') : Inv S owner ks₀ s' := by
  obtain ⟨v, v', ks', hv, hsync, rfl⟩ := State.assign_cases hrun
  obtain ⟨n, hn, rfl, hfound, -⟩ := h.bound i v hv
  obtain ⟨hcache, hwritten⟩ :=
    sync_written (v := { v with cache := f v.cache, hasChanged := true }) hs hn hfound rfl hsync
  have hname : cascadingName (s.keys.name v.key) = n := name_of_found hn.head hfound
  rw [hname]
  -- the names of the other values, and the other names of the value
  have hlast : ∀ j m, j ≠ owner n ∨ m ≠ n → Function.update s.last (owner n)
      (Function.update (s.last (owner n)) n (some (f v.cache))) j m = s.last j m := by
    intro j m hne
    by_cases hj : j = owner n
    · subst hj
      rw [Function.update_self, Function.update_of_ne (hne.resolve_left fun h => h rfl)]
    · rw [Function.update_of_ne hj]
  have hext : Extends s.keys ks' := extends_sync hsync
  refine ⟨fun j w hw => ?_, fun m hm hfree => ?_, fun m hm huser => ?_,
    fun m hm => hext.content m (h.kept m hm), fun j m hm => ?_⟩
  · by_cases hj : j = owner n
    · subst hj
      dsimp only at hw
      rw [Function.update_self] at hw
      cases hw
      refine ⟨n, hn, rfl, hwritten.found, ?_⟩
      rw [State.expected]
      dsimp only
      rw [Function.update_self, Function.update_self, Option.some_or, hcache]
    · dsimp only at hw
      rw [Function.update_of_ne hj] at hw
      obtain ⟨m, hm, howner, hfound', hexpected⟩ := h.bound j w hw
      have hne : m ≠ n := by
        rintro rfl
        exact hj howner.symm
      refine ⟨m, hm, howner, (hwritten.other m hm.head hne).1.trans hfound', ?_⟩
      rw [State.expected]
      dsimp only
      rw [hlast j m (.inl hj)]
      exact hexpected
  · have hne : m ≠ n := by
      rintro rfl
      exact hfree v' (Function.update_self _ _ _) hwritten.found
    obtain ⟨hsame, hread, -⟩ := hwritten.other m hm hne
    rw [State.expected]
    dsimp only
    rw [hlast _ _ (.inr hne), hread]
    refine h.stored m hm fun w hw => ?_
    by_cases howner : owner m = owner n
    · rw [key_eq howner hw hv]
      exact fun hf => hne ((name_of_found hm hf).symm.trans hname)
    · rw [← hsame]
      exact hfree w ((Function.update_of_ne howner _ _).trans hw)
  · by_cases hne : m = n
    · refine .inr ⟨owner n, ?_⟩
      rw [hne]
      dsimp only
      rw [Function.update_self, Function.update_self]
      exact Option.some_ne_none _
    · rw [(hwritten.other m hm hne).2.2] at huser
      refine (h.persists m hm huser).imp_right fun hassigned => ?_
      obtain ⟨j, hj⟩ := hassigned
      refine ⟨j, ?_⟩
      dsimp only
      rwa [hlast j m (.inr hne)]
  · by_cases hjm : j = owner n ∧ m = n
    · rw [hjm.2]
      exact hwritten.place
    · dsimp only at hm
      rw [hlast j m (not_and_or.mp hjm)] at hm
      exact (h.assigned j m hm).imp fun p hp => ⟨hp.1, hext.content p hp.2⟩

/-- The defect is reached exactly there: a value that has changed is flushed to a default, which becomes
persistent. -/
theorem not_right_of_flush (h : Inv S owner ks₀ s) {v : Value (T i)} (hv : s.values i = some v)
    (hname : s.evaluatedName S i ≠ s.keys.name v.key)
    (hdefault : v.hasChanged = true ∧ (s.keys.name v.key).head? = some pathSeparator)
    (hrun : s.updateContext S i = some s') : ¬ Right S ks₀ s' := by
  obtain ⟨n, hn, -, hfound, -⟩ := h.bound i v hv
  obtain ⟨hkey, hnone⟩ := namespaces_of_default hn.head hfound hdefault.2
  have huser : Namespace.user.name ++ n ∈ namespacePlaces n := List.mem_map.mpr ⟨.user, by decide, rfl⟩
  obtain ⟨rfl, hsame⟩ | ⟨w, v', ks, k, ks', cache, hw, -, hflush, hget, -, rfl⟩ :=
    State.updateContext_cases hrun
  · exact absurd (hsame v hv) hname
  cases hv.symm.trans hw
  rw [unsafeSyncKeySet, if_pos hdefault, hkey] at hflush
  obtain ⟨n', hset, hput⟩ := Option.bind_eq_some_iff.mp hflush
  obtain rfl := hn.again n' hset
  cases hput
  have hput := append_content_ne s.keys (plainKey (Namespace.user.name ++ n')) []
  intro hright
  obtain hinitial | ⟨j, hj⟩ := hright.persists n' hn.head ((extends_update hget).content _ hput)
  · exact h.kept _ hinitial (hnone _ huser)
  · obtain ⟨m, hm, hsome⟩ := h.assigned j n' hj
    exact hsome (hnone m hm)

theorem updateAll_inv (hs : ∀ i, Plain (S.spec i)) {l : List ι} (h : Inv S owner ks₀ s)
    (hown : s.EachUpdate S (Own S owner) l) (hfits : s.EachUpdate S (Fits S) l)
    (hrun : s.updateAll S l = some s') : Inv S owner ks₀ s' := by
  induction l generalizing s with
  | nil =>
    cases hrun
    exact h
  | cons i l ih =>
    obtain ⟨s₁, hi, hrun⟩ := Option.bind_eq_some_iff.mp hrun
    exact ih (update_inv hs h hown.1 hfits.1 hi) (hown.2 s₁ hi) (hfits.2 s₁ hi) hrun

theorem act_inv (hs : ∀ i, Plain (S.spec i)) (h : Inv S owner ks₀ s) {e : Event ι T}
    (hown : s.AtEvent S (Own S owner) e) {events : List Str}
    (hrun : s.act S e = some (s', events)) : Inv S owner ks₀ s' := by
  cases e with
  | construct i =>
    obtain ⟨s₁, hi, hrun⟩ := Option.map_eq_some_iff.mp hrun
    cases hrun
    exact construct_inv hs h hown.1 hi
  | assign i f =>
    obtain ⟨s₁, hi, hrun⟩ := Option.map_eq_some_iff.mp hrun
    cases hrun
    exact assign_inv hs h hi
  | activate layer =>
    cases hrun
    exact ⟨h.bound, h.stored, h.persists, h.kept, h.assigned⟩
  | deactivate layer =>
    cases hrun
    exact ⟨h.bound, h.stored, h.persists, h.kept, h.assigned⟩
  | enter chain =>
    cases hrun
    exact ⟨h.bound, h.stored, h.persists, h.kept, h.assigned⟩
  | leave =>
    rw [State.act] at hrun
    cases hcalls : s.calls with
    | nil =>
      rw [hcalls] at hrun
      cases hrun
    | cons withStack calls =>
      rw [hcalls] at hrun
      cases hrun
      exact ⟨h.bound, h.stored, h.persists, h.kept, h.assigned⟩

theorem run_inv (hs : ∀ i, Plain (S.spec i)) {es : List (Event ι T)} (h : Inv S owner ks₀ s)
    (hown : s.Each S (Own S owner) es) (hfits : s.Each S (Fits S) es) (hrun : s.run S es = some s') :
    Inv S owner ks₀ s' := by
  induction es generalizing s with
  | nil =>
    cases hrun
    exact h
  | cons e es ih =>
    obtain ⟨s₁, hstep, hrun⟩ := Option.bind_eq_some_iff.mp hrun
    obtain ⟨⟨s₂, events⟩, hact, hnotify⟩ := Option.bind_eq_some_iff.mp hstep
    have hinv := updateAll_inv hs (act_inv hs h hown.1 hact) (hown.1.2 _ hact) (hfits.1.2 _ hact) hnotify
    exact ih hinv (hown.2 s₁ hstep) (hfits.2 s₁ hstep) hrun

end Inv

/-! ## Reading -/

section Reading

variable {ι : Type} [LinearOrder ι] {T : ι → Type} {S : Values ι T} {ks₀ : Keys}

omit [LinearOrder ι] in
theorem Inv.right {owner : Str → ι} {s : State ι T} (h : Inv S owner ks₀ s) : Right S ks₀ s where
  reads i v hv := by
    obtain ⟨n, hn, -, hfound, hexpected⟩ := h.bound i v hv
    rw [name_of_found hn.head hfound]
    exact hexpected
  persists := h.persists

/-- **Values whose names are their own read what was last assigned under their names, as long as no value
that has changed is flushed to a default; and their names are those under the context.** -/
theorem values_read (hs : ∀ i, Plain (S.spec i)) {owner : Str → ι} {es : List (Event ι T)} {s : State ι T}
    (hown : (State.start ks₀).Each S (Own S owner) es) (hfits : (State.start ks₀).Each S (Fits S) es)
    (hrun : (State.start ks₀).run S es = some s) :
    Right S ks₀ s ∧ ((∀ e ∈ es, e.Fixed) → ∀ i v, s.values i = some v → Named S s i v) :=
  ⟨(run_inv hs (inv_start ks₀) hown hfits hrun).right, fun hes i v hv =>
    (run_current hs hes (current_start ks₀) hrun).named i v hv List.not_mem_nil⟩

end Reading

/-! ## A value for each of two layers -/

section One

/-- A string for each user; there are no keys at first. -/
def oneString : Values Unit fun _ => Str where
  spec := fun _ => { plainKey (str "/%user%/name") with value := [] }
  get := fun _ text => some text
  set := fun _ cache => cache
  depth := 0

def noKeys : Keys where
  content := fun _ => none
  name := fun _ => []
  value := fun _ => []
  next := 0
  named := fun _ _ h => nomatch h
  old := fun _ _ h => nomatch h

def userLayer (value : Str) : Layer Str (Answer Unit) := ⟨str "user", fun _ => value⟩

theorem plain_oneString (i : Unit) : Plain (oneString.spec i) := ⟨rfl, rfl, rfl, rfl⟩

/-- The string is changed for two users, one after the other, and the first becomes active again. -/
def changedOnce : List (Event Unit fun _ => Str) :=
  [.construct (), .activate (userLayer (str "x")), .assign () fun _ => str "a",
    .activate (userLayer (str "y")), .assign () fun _ => str "b", .activate (userLayer (str "x"))]

theorem values_read_once : ∃ s, (State.start noKeys).run oneString changedOnce = some s ∧
    Right oneString noKeys s := by
  have hsome : ((State.start noKeys).run oneString changedOnce).isSome = true := by decide +kernel
  obtain ⟨s, hs⟩ := Option.isSome_iff_exists.mp hsome
  have hfits : (State.start noKeys).Each oneString (Fits oneString) changedOnce := by decide +kernel
  have hown : (State.start noKeys).Each oneString (Own oneString fun _ => ()) changedOnce := by decide +kernel
  exact ⟨s, hs, (values_read plain_oneString hown hfits hs).1⟩

/-- The string is changed twice for one user, and two others become active. -/
def changedTwice : List (Event Unit fun _ => Str) :=
  [.construct (), .assign () fun _ => str "a", .assign () fun _ => str "b", .activate (userLayer (str "x")),
    .activate (userLayer (str "y"))]

/-- **The default of the user in between has become persistent.** -/
theorem not_values_read : ¬ ∀ s, (State.start noKeys).run oneString changedTwice = some s →
    Right oneString noKeys s := by
  intro h
  have hrun : ((State.start noKeys).run oneString changedTwice).map (fun s =>
      ((s.keys.content (str "user/x/name")).isSome, (s.last () (str "/x/name")).isSome)) =
        some (true, false) := by
    decide +kernel
  obtain ⟨s, hs, hpair⟩ := Option.map_eq_some_iff.mp hrun
  obtain ⟨huser, hlast⟩ := Prod.mk.inj hpair
  obtain hinitial | ⟨i, hi⟩ := (h s hs).persists (str "/x/name") rfl (Option.isSome_iff_ne_none.mp huser)
  · exact hinitial rfl
  · rw [Option.isSome_eq_false_iff, Option.isNone_iff_eq_none] at hlast
    exact hi hlast

end One

end Elektra.ContextualValue
