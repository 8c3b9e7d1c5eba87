import Elektra.Context.Values
import Elektra.Lookup.Refine

/-!
# The keys that values are bound to

A specification without links has its value read the first key that has the name in a namespace, or the
default key of that name, which is created where there is none.

* `IsName`, `isName_setName`: names that are given back;
* `found`, `get_eq`: the key that is bound;
* `reading`: what a value reads under a name; `reading_congr`, `reading_setString`;
* **`rebound`**: what a lookup for a value changes.
-/

namespace Elektra.ContextualValue

open Choice Contextual

/-! ## Names -/

/-- A name that `setName` gives to a cascading key, and gives back. -/
structure IsName (n : Str) : Prop where
  head : n.head? = some pathSeparator
  again : ∀ n', setName n = some n' → n' = n

theorem takeWhile_nul {n : Str} (h : 0 ∉ n) : n.takeWhile (· ≠ 0) = n :=
  List.takeWhile_eq_self_iff.mpr fun c hc => by
    simpa using fun h0 : c = 0 => h (h0 ▸ hc)

theorem isName_path {P : Path} (hP : P.root = .cascading) : IsName P.name := by
  refine ⟨P.head_name.mpr hP, fun n' h => ?_⟩
  rw [setName, takeWhile_nul P.nul_name] at h
  obtain ⟨hret, -⟩ | ⟨hret, -, hname⟩ := @keySetName_name keyNew rfl P
  · rw [if_pos hret] at h
    exact nomatch h
  · rw [if_neg hret, keyName, hname.key] at h
    exact (Option.some.inj h).symm

theorem isName_dangling {d : Str} (hd : OddRun d) (h0 : 0 ∉ d) : IsName (pathSeparator :: d) := by
  refine ⟨rfl, fun n' h => ?_⟩
  have hnul : (0 : UInt8) ∉ pathSeparator :: d := by
    rw [List.mem_cons]
    exact fun h => h.elim (fun h => absurd h (by decide)) h0
  have hargument : pathArgument (pathSeparator :: d) = d := rfl
  rw [setName, takeWhile_nul hnul] at h
  obtain ⟨hret, -⟩ | ⟨hret, R, hR, hname⟩ := @keySetName_shape keyNew _ (List.cons_ne_nil _ d) hnul rfl
  · rw [if_pos hret] at h
    exact nomatch h
  · rw [hargument] at hname
    obtain ⟨-, hname⟩ | ⟨hnot, -⟩ := hname
    · cases hR
      rw [if_neg hret, keyName, hname.key] at h
      exact (Option.some.inj h).symm
    · exact absurd hd hnot

theorem isName_setName {name n : Str} (hname : name.head? = some pathSeparator) (h : setName name = some n) :
    IsName n := by
  obtain ⟨t, rfl⟩ := List.head?_eq_some_iff.mp hname
  set m := (pathSeparator :: t).takeWhile (· ≠ 0) with hm
  have hcons : m = pathSeparator :: t.takeWhile (· ≠ 0) := List.takeWhile_cons_of_pos (by decide)
  have hnul : 0 ∉ m := fun h0 => by simpa using List.mem_takeWhile_imp h0
  have hroot : (keyGetNameNamespace (some m)).root = some .cascading := by rw [hcons]; rfl
  rw [setName, ← hm] at h
  obtain ⟨hret, -⟩ | ⟨hret, R, hR, hkey⟩ :=
    @keySetName_shape keyNew m (hcons ▸ List.cons_ne_nil _ _) hnul rfl
  · rw [if_pos hret] at h
    exact nomatch h
  · cases hroot.symm.trans hR
    rw [if_neg hret] at h
    obtain ⟨hodd, hdangling⟩ | ⟨-, Q, hQ, hroot, -⟩ := hkey
    · rw [keyName, hdangling.key] at h
      cases h
      refine isName_dangling hodd fun h0 => hnul ?_
      rw [hcons] at h0 ⊢
      exact List.mem_cons_of_mem _ h0
    · rw [keyName, hQ.key] at h
      cases h
      exact isName_path hroot

theorem cascadingName_eq {n : Str} (h : n.head? = some pathSeparator) : cascadingName n = n := by
  obtain ⟨t, rfl⟩ := List.head?_eq_some_iff.mp h
  rfl

theorem cascadingName_ns (ns : Namespace) {n : Str} (h : n.head? = some pathSeparator) :
    cascadingName (ns.name ++ n) = n := by
  obtain ⟨t, rfl⟩ := List.head?_eq_some_iff.mp h
  cases ns <;> rfl

/-! ## Lookups -/

/-- The names under which a lookup of a cascading name looks in the namespaces, in order. -/
def namespacePlaces (n : Str) : List Str :=
  ([.proc, .dir, .user, .system] : List Namespace).map fun ns => ns.name ++ n

def places (n : Str) : List Str := namespacePlaces n ++ [n]

/-- The key that there is for a cascading name. -/
def found (c : Content) (n : Str) : Option KeyRef := (places n).findSome? fun m => (c m).map fun s => s.ref

/-- The specification neither has links nor lists namespaces, and its name is one of a cascading key. -/
structure Plain (s : Spec) : Prop where
  name : s.name.head? = some pathSeparator
  overrides : s.overrides = []
  namespaces : s.namespaces = []
  fallbacks : s.fallbacks = []

/-- The string of the key that is created where none is found. -/
def Spec.created (s : Spec) : Str := s.default.getD s.value

section Lookup

variable {c : Content} {ks : Keys} {n m : Str} {k : KeyRef} {s : Spec} {info : KeyInfo} {value : Str}

theorem cascadingName_places (hn : n.head? = some pathSeparator) (hm : m ∈ places n) :
    cascadingName m = n := by
  obtain hm | hm := List.mem_append.mp hm
  · obtain ⟨ns, -, rfl⟩ := List.mem_map.mp hm
    exact cascadingName_ns ns hn
  · rw [List.mem_singleton.mp hm]
    exact cascadingName_eq hn

theorem mem_of_found (h : found ks.content n = some k) : ks.name k ∈ places n ∧ k < ks.next := by
  obtain ⟨m, hm, hk⟩ := List.exists_of_findSome?_eq_some h
  obtain ⟨s, hs, rfl⟩ := Option.map_eq_some_iff.mp hk
  exact ⟨ks.named m s hs ▸ hm, ks.old m s hs⟩

theorem content_of_found (h : found ks.content n = some k) : ks.content (ks.name k) ≠ none := by
  obtain ⟨m, hm, hk⟩ := List.exists_of_findSome?_eq_some h
  obtain ⟨s, hs, rfl⟩ := Option.map_eq_some_iff.mp hk
  rw [ks.named m s hs, hs]
  exact Option.some_ne_none s

theorem name_of_found (hn : n.head? = some pathSeparator) (h : found ks.content n = some k) :
    cascadingName (ks.name k) = n := cascadingName_places hn (mem_of_found h).1

theorem findSome_congr {α β : Type} {f g : α → Option β} : ∀ {l : List α}, (∀ a ∈ l, f a = g a) →
    l.findSome? f = l.findSome? g
  | [], _ => rfl
  | a :: l, h => by
    rw [List.findSome?_cons, List.findSome?_cons, h a List.mem_cons_self,
      findSome_congr fun b hb => h b (List.mem_cons_of_mem a hb)]

theorem found_congr {c' : Content} (h : ∀ m ∈ places n, c' m = c m) : found c' n = found c n :=
  findSome_congr fun m hm => by rw [h m hm]

theorem first_direct (depth : ℕ) : ∀ {l : List Query} {names : List Str},
    List.Forall₂ (fun q m => ∃ o, q = .lookup (some m) o ∧ direct m o = true) l names →
    first (eval (resolution c) Stop.fuel (depth + 1)) l =
      .ok ((names.findSome? fun m => (c m).map fun s => s.ref).map .found)
  | [], [], _ => rfl
  | q :: l, m :: names, h => by
    obtain ⟨⟨o, rfl, hd⟩, hrest⟩ := List.forall₂_cons.mp h
    rw [first_cons, eval_direct c hd, List.findSome?_cons]
    cases hm : c m with
    | none =>
      rw [Option.map_none, orElse_none]
      exact first_direct depth hrest
    | some s => rfl

theorem direct_ns (ns : Namespace) (n : Str) (o : Options) : direct (ns.name ++ n) o = true := by
  rw [direct, Bool.or_eq_true]
  exact .inr (decide_eq_true (ns.head_ne n))

theorem first_plain (depth : ℕ) (hs : Plain s) (hn : n.head? = some pathSeparator) :
    first (eval (resolution c) Stop.fuel (depth + 1)) (specAttempts { s.toKeyInfo with name := n } {}) =
      .ok ((found c n).elim (s.default.map (Answer.default n)) fun k => some (.found k)) := by
  have hattempts : specAttempts { s.toKeyInfo with name := n } {} =
      (([.proc, .dir, .user, .system] : List Namespace).map (fun ns =>
        Query.lookup (some (ns.name ++ n)) { nospec := true, nodefault := true }) ++
          [.lookup (some n) { nocascading := true }]) ++ s.default.toList.map (.default n) := by
    have hname : n.dropWhile (· ≠ pathSeparator) = n := cascadingName_eq hn
    simp only [specAttempts, namespaceAttempts, cascadingAttempts, defaultAttempts, hs.overrides,
      hs.namespaces, hs.fallbacks, hname]
    rfl
  have hfound : first (eval (resolution c) Stop.fuel (depth + 1))
      (([.proc, .dir, .user, .system] : List Namespace).map (fun ns =>
        Query.lookup (some (ns.name ++ n)) { nospec := true, nodefault := true }) ++
          [.lookup (some n) { nocascading := true }]) = .ok ((found c n).map .found) := by
    exact first_direct depth (.cons ⟨_, rfl, direct_ns .proc n _⟩ (.cons ⟨_, rfl, direct_ns .dir n _⟩
      (.cons ⟨_, rfl, direct_ns .user n _⟩ (.cons ⟨_, rfl, direct_ns .system n _⟩
        (.cons ⟨_, rfl, rfl⟩ .nil)))))
  rw [hattempts, first_append, hfound]
  cases found c n with
  | some k => rfl
  | none =>
    cases s.default with
    | none => rfl
    | some value => rfl

theorem get_eq (depth : ℕ) (hs : Plain s) (hn : n.head? = some pathSeparator) :
    DefaultGetPolicy.get depth ks { s with name := n } = match found ks.content n with
      | some k => some (k, ks)
      | none => match s.default with
        | some value => (setName n).map fun name => ks.append (plainKey name) value
        | none => some (ks.append ({ s with name := n } : Spec).toKeyInfo s.value) := by
  rw [DefaultGetPolicy.get, first_plain depth hs hn]
  cases found ks.content n with
  | some k => rfl
  | none =>
    cases s.default with
    | none => rfl
    | some value => rfl

theorem get_cases {depth : ℕ} {ks' : Keys} (hs : Plain s) (hn : IsName n)
    (h : DefaultGetPolicy.get depth ks { s with name := n } = some (k, ks')) :
    (found ks.content n = some k ∧ ks' = ks) ∨
    (found ks.content n = none ∧ ∃ info, info.name = n ∧ (k, ks') = ks.append info s.created) := by
  rw [get_eq depth hs hn.head] at h
  cases hf : found ks.content n with
  | some k' =>
    rw [hf] at h
    cases h
    exact .inl ⟨rfl, rfl⟩
  | none =>
    rw [hf] at h
    refine .inr ⟨rfl, ?_⟩
    cases hd : s.default with
    | none =>
      rw [hd] at h
      rw [Spec.created, hd]
      exact ⟨_, rfl, (Option.some.inj h).symm⟩
    | some value =>
      rw [hd] at h
      obtain ⟨name, hname, hadd⟩ := Option.map_eq_some_iff.mp h
      rw [Spec.created, hd]
      exact ⟨plainKey name, hn.again name hname, hadd.symm⟩

theorem found_append_of_ne (h : info.name ∉ places n) :
    found (ks.append info value).2.content n = found ks.content n :=
  found_congr fun m hm => Function.update_of_ne (fun he : m = info.name => h (he ▸ hm)) _ _

theorem ns_ne (ns : Namespace) (hn : n.head? = some pathSeparator) : ns.name ++ m ≠ n := fun he =>
  ns.head_ne m (he ▸ hn)

theorem found_append_self (hn : n.head? = some pathSeparator) (hf : found ks.content n = none)
    (hinfo : info.name = n) : found (ks.append info value).2.content n = some ks.next := by
  have hnone := List.findSome?_eq_none_iff.mp hf
  have hns : (namespacePlaces n).findSome?
      (fun m => ((ks.append info value).2.content m).map fun s => s.ref) = none := by
    refine List.findSome?_eq_none_iff.mpr fun m hm => ?_
    rw [← hnone m (List.mem_append_left _ hm)]
    obtain ⟨ns, -, rfl⟩ := List.mem_map.mp hm
    have hne : ns.name ++ n ≠ info.name := hinfo.symm ▸ ns_ne ns hn
    rw [show (ks.append info value).2.content (ns.name ++ n) = ks.content (ns.name ++ n) from
      Function.update_of_ne hne _ _]
  have hself : (ks.append info value).2.content n = some (ks.entry info) := by
    rw [← hinfo]
    exact Function.update_self _ _ _
  rw [found, places, List.findSome?_append, hns, Option.none_or, List.findSome?_cons, hself]
  rfl

theorem namespaces_of_default (hn : n.head? = some pathSeparator) (hf : found ks.content n = some k)
    (hk : (ks.name k).head? = some pathSeparator) :
    ks.name k = n ∧ ∀ m ∈ namespacePlaces n, ks.content m = none := by
  obtain ⟨hmem, -⟩ := mem_of_found hf
  have hname : ks.name k = n := by
    obtain hm | hm := List.mem_append.mp hmem
    · obtain ⟨ns, -, he⟩ := List.mem_map.mp hm
      rw [← he] at hk
      exact absurd hk (ns.head_ne n)
    · exact List.mem_singleton.mp hm
  refine ⟨hname, fun m hm => ?_⟩
  by_contra hne
  have hsome : ((namespacePlaces n).findSome? fun m => (ks.content m).map fun s => s.ref).isSome := by
    rw [List.findSome?_isSome_iff]
    exact ⟨m, hm, by rw [Option.isSome_map]; exact Option.isSome_iff_ne_none.mpr hne⟩
  obtain ⟨k', hk'⟩ := Option.isSome_iff_exists.mp hsome
  rw [found, places, List.findSome?_append, hk', Option.some_or] at hf
  cases hf
  obtain ⟨m', hm', hs'⟩ := List.exists_of_findSome?_eq_some hk'
  obtain ⟨s, hs, rfl⟩ := Option.map_eq_some_iff.mp hs'
  rw [ks.named m' s hs] at hname
  obtain ⟨ns, -, rfl⟩ := List.mem_map.mp hm'
  exact ns_ne ns hn hname

theorem found_append_user (hn : n.head? = some pathSeparator) (hf : found ks.content n = some k)
    (hk : (ks.name k).head? = some pathSeparator) (hinfo : info.name = Namespace.user.name ++ n) :
    found (ks.append info value).2.content n = some ks.next := by
  obtain ⟨-, hnone⟩ := namespaces_of_default hn hf hk
  have hother : ∀ ns : Namespace, ns ≠ .user → ns.name ++ n ∈ namespacePlaces n →
      (ks.append info value).2.content (ns.name ++ n) = none := by
    intro ns hns hm
    rw [← hnone _ hm]
    refine Function.update_of_ne (fun he => hns ?_) _ _
    rw [hinfo] at he
    exact Namespace.name_injective (List.append_cancel_right he)
  have hself : (ks.append info value).2.content (Namespace.user.name ++ n) = some (ks.entry info) := by
    rw [← hinfo]
    exact Function.update_self _ _ _
  rw [found, places, namespacePlaces]
  simp only [List.map_cons, List.cons_append, List.findSome?_cons]
  rw [hother .proc (by decide) (List.mem_map.mpr ⟨.proc, by decide, rfl⟩),
    hother .dir (by decide) (List.mem_map.mpr ⟨.dir, by decide, rfl⟩), hself]
  rfl

end Lookup

/-! ## Readings -/

section Readings

variable {ι : Type} {T : ι → Type} {S : Values ι T} {ks ks' : Keys} {i : ι} {n : Str} {k : KeyRef}

/-- What a value reads under a name. -/
def reading (S : Values ι T) (ks : Keys) (i : ι) (n : Str) : Option (T i) := do
  let (k, ks) ← DefaultGetPolicy.get S.depth ks { S.spec i with name := n }
  S.get i (ks.value k)

theorem reading_of_get (h : DefaultGetPolicy.get S.depth ks { S.spec i with name := n } = some (k, ks')) :
    reading S ks i n = S.get i (ks'.value k) := by
  rw [reading, h]
  rfl

theorem reading_of_found (hs : Plain (S.spec i)) (hn : n.head? = some pathSeparator)
    (hf : found ks.content n = some k) : reading S ks i n = S.get i (ks.value k) := by
  refine reading_of_get ?_
  rw [get_eq S.depth hs hn, hf]

theorem append_value (ks : Keys) (info : KeyInfo) (value : Str) :
    (ks.append info value).2.value (ks.append info value).1 = value := Function.update_self _ _ _

theorem reading_congr (hs : Plain (S.spec i)) (hn : n.head? = some pathSeparator)
    (hf : found ks'.content n = found ks.content n)
    (hv : ∀ k, found ks.content n = some k → ks'.value k = ks.value k) :
    reading S ks' i n = reading S ks i n := by
  cases hk : found ks.content n with
  | some k => rw [reading_of_found hs hn hk, reading_of_found hs hn (hf.trans hk), hv k hk]
  | none =>
    rw [reading, reading, get_eq S.depth hs hn, get_eq S.depth hs hn, hf, hk]
    dsimp only
    cases (S.spec i).default with
    | some value =>
      cases setName n with
      | none => rfl
      | some name =>
        change S.get i _ = S.get i _
        rw [append_value, append_value]
    | none =>
      change S.get i _ = S.get i _
      rw [append_value, append_value]

theorem reading_setString (hs : Plain (S.spec i)) (hn : n.head? = some pathSeparator)
    (hf : found ks.content n ≠ some k) (value : Str) :
    reading S (ks.setString k value) i n = reading S ks i n :=
  reading_congr hs hn rfl fun _ hk => Function.update_of_ne (fun he => hf (by rw [hk, he])) _ _

/-- What a lookup for a value changes. -/
structure Rebound (S : Values ι T) (ks ks' : Keys) (i : ι) (n : Str) (k : KeyRef) : Prop where
  isName : IsName n
  found : found ks'.content n = some k
  value : S.get i (ks'.value k) = reading S ks i n
  other : ∀ m, m.head? = some pathSeparator → m ≠ n →
    ContextualValue.found ks'.content m = ContextualValue.found ks.content m ∧
      ∀ j, reading S ks' j m = reading S ks j m
  user : ∀ m, ks'.content (Namespace.user.name ++ m) = ks.content (Namespace.user.name ++ m)

theorem rebound (hs : ∀ i, Plain (S.spec i)) {evaluatedName : Str}
    (hname : evaluatedName.head? = some pathSeparator)
    (h : unsafeUpdateKeyUsingContext S ks i evaluatedName = some (k, ks')) :
    ∃ n, setName evaluatedName = some n ∧ Rebound S ks ks' i n k := by
  obtain ⟨n, hset, hget⟩ := Option.bind_eq_some_iff.mp h
  have hn : IsName n := isName_setName hname hset
  have hvalue := (reading_of_get hget).symm
  refine ⟨n, hset, ?_⟩
  obtain ⟨hf, rfl⟩ | ⟨hf, info, hinfo, hadd⟩ := get_cases (hs i) hn hget
  · exact ⟨hn, hf, hvalue, fun _ _ _ => ⟨rfl, fun _ => rfl⟩, fun _ => rfl⟩
  · obtain ⟨rfl, rfl⟩ := Prod.mk.inj hadd
    have hother : ∀ m, m.head? = some pathSeparator → m ≠ n → info.name ∉ places m := by
      intro m hm hne hmem
      have hm' := cascadingName_places hm hmem
      rw [hinfo, cascadingName_eq hn.head] at hm'
      exact hne hm'.symm
    refine ⟨hn, found_append_self hn.head hf hinfo, hvalue, fun m hm hne => ?_, fun m => ?_⟩
    · have hfound := @found_append_of_ne ks m info (S.spec i).created (hother m hm hne)
      exact ⟨hfound, fun j => reading_congr (hs j) hm hfound fun k' hk' =>
        Function.update_of_ne (mem_of_found hk').2.ne _ _⟩
    · exact Function.update_of_ne (hinfo ▸ ns_ne .user hn.head) _ _

end Readings

end Elektra.ContextualValue
