import Elektra.Lookup.Refine

/-!
# What a lookup returns, and when it ends

* **`ksLookup_resolves`**: a lookup returns the answer of the resolution, and keeps its key;
* **`ksLookup_ends_iff`**: it ends exactly when no chain of names that it follows is infinite;
* `documented`, `ksLookup_departs`: where options, and default keys of earlier lookups, change the
  answer;
* `not_ksLookup_ends_self`: a key that overrides itself.
-/

namespace Elektra

open Choice

/-! ## Some key sets -/

/-- No callback is called. -/
def noCallback : Callback := fun _ w _ found _ => (found, w)

theorem transparent_noCallback : Transparent noCallback :=
  ⟨fun _ _ _ _ _ => rfl, fun _ _ _ _ _ => rfl, fun _ _ _ _ _ => Frame.refl _⟩

/-- Some keys in a key set, and the key `/a`, which is not. -/
def worldOf (keys : List Key) : World where
  heap := (ksNew (.ofList (keys ++ [keyNewName (str "/a")])) keys.length (List.range keys.length)).1
  ks := (ksNew (.ofList (keys ++ [keyNewName (str "/a")])) keys.length (List.range keys.length)).2

theorem worldOf_holds {keys : List Key} (h : ∀ key ∈ keys, key.key ≠ none ∧ Sized key) :
    ∃ m, (worldOf keys).ks.Holds (worldOf keys).heap m := by
  refine ⟨_, ksNew_holds keys.length fun k hk => ?_⟩
  have hlt := List.mem_range.mp hk
  have hcell : (Heap.ofList (keys ++ [keyNewName (str "/a")])).cell k = keys[k] := by
    simp [Heap.ofList, List.getD_eq_getElem?_getD, List.getElem?_append_left hlt, hlt]
  obtain ⟨hnamed, hsized⟩ := h _ (List.getElem_mem hlt)
  refine ⟨?_, hcell ▸ hnamed, hcell ▸ hsized⟩
  rw [Heap.ofList, List.length_append]
  exact Nat.lt_add_right _ hlt

theorem worldOf_finalized (keys : List Key) :
    Finalized ((worldOf keys).cell keys.length) (some (str "/a")) := by
  have hname : Finalized (keyNewName (str "/a")) (some (str "/a")) :=
    ⟨rfl, fun n hn => by obtain rfl := Option.some.inj hn; rfl, rfl⟩
  have hcell : (Heap.ofList (keys ++ [keyNewName (str "/a")])).cell keys.length =
      keyNewName (str "/a") := by
    simp [Heap.ofList, List.getD_eq_getElem?_getD]
  have hlt : keys.length < (Heap.ofList (keys ++ [keyNewName (str "/a")])).next := by
    rw [Heap.ofList, List.length_append]
    exact Nat.lt_succ_self _
  refine ((keeps_new _ _ _).cell _ hlt).finalized ?_
  rw [hcell]
  exact hname

/-- `spec/a` with one metakey. -/
def specA (metaName value : Str) : Key :=
  (keySetMeta (keyNewName (str "spec/a")) metaName (some value)).2

theorem worldOf_specA_holds (metaName value : Str) :
    ∃ m, (worldOf [specA metaName value]).ks.Holds (worldOf [specA metaName value]).heap m := by
  refine worldOf_holds fun key hkey => ?_
  obtain rfl := List.mem_singleton.mp hkey
  have hname : (specA metaName value).key = some (str "spec/a") := rfl
  exact ⟨hname ▸ Option.some_ne_none _, rfl⟩

/-! ## Answers -/

section Resolves

variable {cb : Callback} {w : World} {key : KeyRef} {name : Option Str} {o : Options}

/-- **A lookup returns the answer to which the name of its key resolves, and the name of the key, its
unescaped name and their sizes are as before.** -/
theorem ksLookup_resolves (hcb : Transparent cb) (hks : ∃ m, w.ks.Holds w.heap m)
    (hlt : key < w.heap.next) (hk : Finalized (w.cell key) name) (ho : o.Plain) :
    (∀ n ret w', ksLookup cb n w key o = .ok (ret, w') → Alike (w.cell key) (w'.cell key) ∧
      ∃ a, Resolution (content w.heap w.ks) (.lookup name o) a ∧ Delivers w w' ret a) ∧
    ∀ a, Resolution (content w.heap w.ks) (.lookup name o) a →
      ∃ n ret w', ksLookup cb n w key o = .ok (ret, w') ∧ Delivers w w' ret a := by
  have href := fun n => ksLookup_refines hcb (content w.heap w.ks) n ⟨hks, rfl⟩ hlt hk ho
  constructor
  · intro n ret w' hret
    have h := href n
    rw [hret] at h
    cases he : eval (resolution (content w.heap w.ks)) .fuel n (.lookup name o) with
    | error e =>
      rw [he] at h
      exact h.elim
    | ok a =>
      rw [he] at h
      exact ⟨(h.1.cell key hlt).toAlike, a, resolves_of_eval he, h.2⟩
  · intro a ha
    obtain ⟨n, hn⟩ := @eval_of_resolves _ _ _ _ Stop.fuel _ _ ha
    have h := href n
    rw [hn] at h
    rcases hret : ksLookup cb n w key o with e | ⟨ret, w'⟩
    · rw [hret] at h
      exact h.elim
    · rw [hret] at h
      exact ⟨n, ret, w', hret, h.2⟩

/-- The default of `spec/a`. -/
theorem ksLookup_resolves_specA :
    (∀ n ret w', ksLookup noCallback n (worldOf [specA (str "default") (str "x")]) 1 {} = .ok (ret, w') →
      Alike ((worldOf [specA (str "default") (str "x")]).cell 1) (w'.cell 1) ∧
      ∃ a, Resolution (content (worldOf [specA (str "default") (str "x")]).heap
          (worldOf [specA (str "default") (str "x")]).ks) (.lookup (some (str "/a")) {}) a ∧
        Delivers (worldOf [specA (str "default") (str "x")]) w' ret a) ∧
    ∀ a, Resolution (content (worldOf [specA (str "default") (str "x")]).heap
        (worldOf [specA (str "default") (str "x")]).ks) (.lookup (some (str "/a")) {}) a →
      ∃ n ret w', ksLookup noCallback n (worldOf [specA (str "default") (str "x")]) 1 {} =
        .ok (ret, w') ∧ Delivers (worldOf [specA (str "default") (str "x")]) w' ret a :=
  ksLookup_resolves transparent_noCallback (worldOf_specA_holds _ _) (by decide)
    (worldOf_finalized [_]) plain_default

theorem ksLookup_fuel_iff (hcb : Transparent cb) (hks : ∃ m, w.ks.Holds w.heap m)
    (hlt : key < w.heap.next) (hk : Finalized (w.cell key) name) (ho : o.Plain) (n : ℕ) :
    ksLookup cb n w key o = .error .fuel ↔
      eval (resolution (content w.heap w.ks)) .fuel n (.lookup name o) = .error .fuel := by
  have h := ksLookup_refines hcb (content w.heap w.ks) n ⟨hks, rfl⟩ hlt hk ho
  obtain ⟨s, hx, he⟩ | ⟨w', hx, he, -⟩ | ⟨k, w', a, hx, he, -⟩ := h.cases
  · rw [hx, he]
    simp
  · rw [hx, he]
    simp
  · rw [hx, he]
    simp

theorem ksLookup_error_iff (n : ℕ) (e : Stop) : ksLookup cb n w key o = .error e ↔
    ksLookup cb n w key { o with del := false, create := false } = .error e := by
  cases n with
  | zero => exact Iff.rfl
  | succ n =>
    unfold ksLookup
    dsimp only
    cases (w.cell key).key with
    | none => simp
    | some name =>
      have hret : lookupRet (ksLookup cb n) cb w key name { o with del := false, create := false } =
          lookupRet (ksLookup cb n) cb w key name o := rfl
      dsimp only
      rw [hret]
      rcases lookupRet (ksLookup cb n) cb w key name o with s | x
      · exact Iff.rfl
      · constructor <;> intro h <;> cases h

/-- **A lookup ends exactly when there is no infinite chain of names, each tried for the one
before.** -/
theorem ksLookup_ends_iff (hcb : Transparent cb) (hks : ∃ m, w.ks.Holds w.heap m)
    (hlt : key < w.heap.next) (hk : Finalized (w.cell key) name)
    (ho : ({ o with del := false, create := false } : Options).Plain) :
    (∃ n, ksLookup cb n w key o ≠ .error .fuel) ↔
      Acc (Follows (resolution (content w.heap w.ks)))
        (.lookup name { o with del := false, create := false }) := by
  rw [← halts_iff_acc fun q e => resolution_error]
  refine exists_congr fun n => not_congr ?_
  rw [ksLookup_error_iff, ksLookup_fuel_iff hcb hks hlt hk ho]

theorem ksLookup_ends_specA :
    (∃ n, ksLookup noCallback n (worldOf [specA (str "default") (str "x")]) 1 {} ≠ .error .fuel) ↔
      Acc (Follows (resolution (content (worldOf [specA (str "default") (str "x")]).heap
        (worldOf [specA (str "default") (str "x")]).ks))) (.lookup (some (str "/a")) {}) :=
  ksLookup_ends_iff transparent_noCallback (worldOf_specA_holds _ _) (by decide)
    (worldOf_finalized [_]) plain_default

end Resolves

/-! ## The documented order -/

/-- The attempts by a key of the specification, as the documentation of `ksLookup` orders them. -/
def documentedSpec (s : KeyInfo) (name : Str) : List Query :=
  let links (l : List Str) : List Query := l.map fun m => .lookup (linkName m) {}
  let listed := if s.namespaces = [] then [str "proc", str "dir", str "user", str "system"]
    else s.namespaces
  links s.overrides ++ listed.map (fun ns => .lookup (some (ns ++ name)) {}) ++ links s.fallbacks ++
    s.default.toList.map (.default name)

/-- The documented resolution, whatever the options. -/
def documented (c : Content) : Query → Step Query Answer Stop
  | .lookup none _ => .answer none
  | .lookup (some name) o =>
    if direct name o then .answer ((c name).map fun s => .found s.ref)
    else
      match c (str "spec" ++ name) with
      | none => .attempt (cascadingAttempts name {})
      | some s => .attempt (documentedSpec s name)
  | .key k => .answer (some (.found k))
  | .default name value => .answer (some (.default name value))
  | .overflow => .error .buffer

/-- The lookup returns something else than what is documented. -/
def Departs (w : World) (key : KeyRef) (name : Str) (o : Options) : Prop :=
  ∃ n ret w' a, ksLookup noCallback n w key o = .ok (ret, w') ∧
    Resolves (documented (content w.heap w.ks)) (.lookup (some name) {}) a ∧ ¬ Delivers w w' ret a

/-- What can be seen of `Delivers` without the key set. -/
def agrees (next : KeyRef) (ret : Option KeyRef) : Option Answer → Bool
  | none => ret.isNone
  | some (.found k) => ret = some k
  | some (.default _ _) => ret.any (next ≤ ·)

theorem agrees_of_delivers {w w' : World} {ret : Option KeyRef} {a : Option Answer}
    (h : Delivers w w' ret a) : agrees w.heap.next ret a = true := by
  match a, h with
  | none, ⟨hret, _⟩ => rw [hret]; rfl
  | some (.found k), ⟨hret, _⟩ => simp [hret, agrees]
  | some (.default _ _), ⟨r, hret, hadd⟩ => simpa [hret, agrees] using hadd.new

theorem departs_of {w : World} {key : KeyRef} {name : Str} {o : Options} (n : ℕ)
    (ret : Option KeyRef) (a : Option Answer)
    (hcode : (ksLookup noCallback n w key o).map Prod.fst = .ok ret)
    (hdoc : eval (documented (content w.heap w.ks)) .fuel n (.lookup (some name) {}) = .ok a)
    (hne : agrees w.heap.next ret a = false) : Departs w key name o := by
  rcases hx : ksLookup noCallback n w key o with e | ⟨r, w'⟩
  · rw [hx] at hcode
    cases hcode
  · rw [hx] at hcode
    obtain rfl : r = ret := Except.ok.inj hcode
    exact ⟨n, r, w', a, hx, resolves_of_eval hdoc, fun hd =>
      Bool.false_ne_true (hne.symm.trans (agrees_of_delivers hd))⟩

/-- The key `user/a`, with an owner. -/
def ownedA : Key := (keySetMeta (keyNewName (str "user/a")) (str "owner") (some (str "x"))).2

/-- With options that change the search, or with the default key of an earlier lookup. -/
theorem ksLookup_departs :
    Departs (worldOf [specA (str "default") (str "x")]) 1 (str "/a") { nodefault := true } ∧
    Departs (worldOf [specA (str "default") (str "x"), keyNewName (str "/a")]) 2 (str "/a") {} ∧
    Departs (worldOf [specA (str "default") (str "x")]) 1 (str "/a") { nospec := true } ∧
    Departs (worldOf [specA (str "default") (str "x")]) 1 (str "/a") { spec := true } ∧
    Departs (worldOf [keyNewName (str "user/a")]) 1 (str "/a") { nocascading := true } ∧
    Departs { worldOf [keyNewName (str "user/a")] with
      ks := ksSetCursor (worldOf [keyNewName (str "user/a")]).ks (some 0) } 1 (str "/a")
      { noall := true } ∧
    Departs (worldOf [keyNewName (str "user/A"), keyNewName (str "user/B"), keyNewName (str "user/a")])
      3 (str "/a") { nocase := true } ∧
    Departs (worldOf [ownedA]) 1 (str "/a") { withowner := true } := by
  refine ⟨departs_of 4 none (some (.default (str "/a") (str "x"))) ?_ ?_ ?_,
    departs_of 4 (some 1) (some (.default (str "/a") (str "x"))) ?_ ?_ ?_,
    departs_of 4 none (some (.default (str "/a") (str "x"))) ?_ ?_ ?_,
    departs_of 4 none (some (.default (str "/a") (str "x"))) ?_ ?_ ?_,
    departs_of 4 none (some (.found 0)) ?_ ?_ ?_, departs_of 4 none (some (.found 0)) ?_ ?_ ?_,
    departs_of 4 (some 0) (some (.found 2)) ?_ ?_ ?_, departs_of 4 none (some (.found 0)) ?_ ?_ ?_⟩
  all_goals decide +kernel

/-! ## Chains without end -/

theorem not_acc_of_self {α : Type} {r : α → α → Prop} {a : α} (h : r a a) : ¬ Acc r a := by
  intro hacc
  induction hacc with
  | intro a _ ih => exact ih a h h

theorem ksLookup_self (n : ℕ) :
    ksLookup noCallback n (worldOf [specA (str "override/#0") (str "/a")]) 1 {} = .error .fuel := by
  set w := worldOf [specA (str "override/#0") (str "/a")] with hw
  have hlink : linkName (str "/a") = some (str "/a") := rfl
  have hspec : content w.heap w.ks (str "spec" ++ str "/a") = some (describe w.heap 0) := by
    have hfind : findByName w.heap w.ks (unameOf (str "spec" ++ str "/a")) = some 0 := by
      decide +kernel
    rw [content, hfind, Option.map_some]
  have hname : (str "spec/").isPrefixOf (describe w.heap 0).name = true := by decide +kernel
  have hover : (describe w.heap 0).overrides = [str "/a"] := by decide +kernel
  -- the override is the first attempt
  have hstep : ∀ o : Options, o.nocascading = false → o.nospec = false →
      Follows (resolution (content w.heap w.ks)) (link (str "/a")) (.lookup (some (str "/a")) o) := by
    intro o hcascading hnospec
    have hdirect : direct (str "/a") o = false := by rw [direct, hcascading]; rfl
    obtain ⟨post, hpost⟩ : ∃ post, specAttempts (describe w.heap 0) o = link (str "/a") :: post :=
      ⟨_, by rw [specAttempts, hover]; rfl⟩
    refine ⟨[], post, ?_, fun x hx => absurd hx List.not_mem_nil⟩
    rw [resolution, hdirect, if_neg Bool.false_ne_true, attempts, hnospec,
      if_neg Bool.false_ne_true, hspec]
    dsimp only
    rw [if_pos hname, hpost, List.nil_append]
  have hself : Follows (resolution (content w.heap w.ks)) (link (str "/a")) (link (str "/a")) := by
    have := hstep { nodefault := true } rfl rfl
    rwa [← hlink] at this
  have hacc : ¬ Acc (Follows (resolution (content w.heap w.ks))) (.lookup (some (str "/a")) {}) :=
    fun h => not_acc_of_self hself (h.inv (hstep {} rfl rfl))
  have hholds : ∃ m, w.ks.Holds w.heap m := hw ▸ worldOf_specA_holds _ _
  have hkey : Finalized (w.cell 1) (some (str "/a")) :=
    hw ▸ worldOf_finalized [specA (str "override/#0") (str "/a")]
  rw [ksLookup_fuel_iff transparent_noCallback hholds (by decide) hkey plain_default]
  by_contra hne
  exact hacc ((halts_iff_acc fun _ _ => resolution_error).mp ⟨n, hne⟩)

/-- A key that overrides itself is looked up for ever. -/
theorem not_ksLookup_ends_self :
    ¬ ∃ n, ksLookup noCallback n (worldOf [specA (str "override/#0") (str "/a")]) 1 {} ≠
      .error .fuel := by
  rintro ⟨n, h⟩
  exact h (ksLookup_self n)

end Elektra
