import Elektra.Tools.Builder
import Elektra.KeySet.Compare
import Elektra.KeySet.Payload

/-!
# The keys of the plugins

* `PluginSpec.path`, `hasName_depKey`: the name of the key of a plugin;
* `Deps`, **`deps_depsOf`**: the key set, of the last plugin of each name;
* `Depending`, **`depending_orders`**: the dependencies that the words of `ordering` give.
-/

namespace Elektra.Tools

/-! ## The names -/

/-- What plugins' names are made of. -/
def plain (c : UInt8) : Bool := isLetter c || isdigit c || c = 95

theorem plain_ne {c : UInt8} (h : plain c = true) :
    c ≠ pathEscape ∧ c ≠ pathSeparator ∧ c ≠ 0 ∧ c ≠ 46 ∧ c ≠ 37 := by
  refine ⟨?_, ?_, ?_, ?_, ?_⟩ <;> rintro rfl <;> exact absurd h (by decide)

theorem escape_plain {s : Str} (hs : s ≠ []) (h : ∀ c ∈ s, plain c = true) :
    elektraEscapeKeyNamePart s = s := by
  refine escape_self hs ⟨fun hhead => ?_, fun hhead => ?_⟩ fun c hc => ?_
  · exact (plain_ne (h _ (List.mem_of_head? hhead))).2.2.2.2 rfl
  · exact (plain_ne (h _ (List.mem_of_head? hhead))).2.2.2.1 rfl
  · exact ⟨(plain_ne (h c hc)).1, (plain_ne (h c hc)).2.1⟩

theorem plain_of_validate {n : Str} (h : validate n = true) : n ≠ [] ∧ ∀ c ∈ n, plain c = true := by
  rw [validate, Bool.and_eq_true] at h
  refine ⟨?_, List.all_eq_true.mp h.2⟩
  rintro rfl
  exact absurd h.1 Bool.false_ne_true

theorem plain_of_validRefName {n : Str} (h : validRefName n = true) : n ≠ [] ∧ ∀ c ∈ n, plain c = true := by
  rw [validRefName, Bool.or_eq_true] at h
  obtain h | h := h
  · exact plain_of_validate h
  · rw [Bool.and_eq_true, decide_eq_true_iff] at h
    refine ⟨h.1, fun c hc => ?_⟩
    rw [plain, List.all_eq_true.mp h.2 c hc, Bool.or_true, Bool.true_or]

/-- A name as a part. -/
def partOf (n : Str) (h : ∀ c ∈ n, plain c = true) : CString := ⟨n, fun h0 => (plain_ne (h 0 h0)).2.2.1 rfl⟩

namespace PluginSpec

variable (ps : PluginSpec)

def namePart : CString := partOf ps.name (plain_of_validate ps.validName).2

def refPart : CString := partOf ps.refname (plain_of_validRefName ps.validRef).2

/-- The place of the key of a plugin. -/
def path : Path := ⟨.cascading, if ps.name = ps.refname then [ps.namePart] else [ps.namePart, ps.refPart]⟩

/-- The name that the words of `ordering` are compared with. -/
def keyedName : Str := ps.name ++ if ps.name = ps.refname then [] else pathSeparator :: ps.refname

variable {ps} {ps' : PluginSpec}

theorem path_inj : ps.path = ps'.path ↔ ps.name = ps'.name ∧ ps.refname = ps'.refname := by
  constructor
  · intro h
    have hparts := congrArg (fun P : Path => P.parts.map Subtype.val) h
    unfold path at hparts
    split_ifs at hparts with h1 h2 h2
    · obtain ⟨hn, -⟩ := List.cons.inj hparts
      exact ⟨hn, h1.symm.trans (hn.trans h2)⟩
    · cases (List.cons.inj hparts).2
    · cases (List.cons.inj hparts).2
    · obtain ⟨hn, hr⟩ := List.cons.inj hparts
      exact ⟨hn, (List.cons.inj hr).1⟩
  · rintro ⟨hn, hr⟩
    obtain ⟨n, r, _, _, _⟩ := ps
    obtain ⟨n', r', _, _, _⟩ := ps'
    obtain rfl : n = n' := hn
    obtain rfl : r = r' := hr
    rfl

theorem hash_split {a b a' b' : Str} (ha : ∀ c ∈ a, plain c = true) (ha' : ∀ c ∈ a', plain c = true)
    (h : a ++ str "#" ++ b = a' ++ str "#" ++ b') : a = a' ∧ b = b' := by
  have hhash : ∀ c, plain c = true → (c ≠ 35) := by
    rintro c hc rfl
    exact absurd hc (by decide)
  have htake : ∀ {a b : Str}, (∀ c ∈ a, plain c = true) →
      (a ++ str "#" ++ b).takeWhile (fun c => decide (c ≠ 35)) = a := by
    intro a b ha
    rw [List.append_assoc, List.takeWhile_append_of_pos fun c hc => decide_eq_true (hhash c (ha c hc))]
    exact List.append_nil a
  have heq : a = a' := by
    rw [← htake (b := b) ha, ← htake (b := b') ha', h]
  subst heq
  exact ⟨rfl, List.append_cancel_left h⟩

theorem fullName_inj : ps.getFullName = ps'.getFullName ↔ ps.path = ps'.path := by
  rw [path_inj]
  constructor
  · exact hash_split (plain_of_validate ps.validName).2 (plain_of_validate ps'.validName).2
  · rintro ⟨hn, hr⟩
    rw [getFullName, getFullName, hn, hr]

theorem path_name : ps.path.name = pathSeparator :: ps.keyedName := by
  have hn := plain_of_validate ps.validName
  have hr := plain_of_validRefName ps.validRef
  have hen : elektraEscapeKeyNamePart ps.namePart.1 = ps.name := escape_plain hn.1 hn.2
  have her : elektraEscapeKeyNamePart ps.refPart.1 = ps.refname := escape_plain hr.1 hr.2
  unfold Path.name Path.stem Path.escaped path keyedName
  split_ifs with h1 h2 h2
  · simp [Root.level, hen] at h2
  · simp [Root.level, hen]
  · simp [Root.level, hen, her] at h2
  · simp [Root.level, hen, her]

end PluginSpec

/-! ## The key -/

theorem keySetNameBelow_fields (key : Key) (n : Str) :
    (elektraKeySetNameBelow key n).2.data = key.data ∧
      (elektraKeySetNameBelow key n).2.roValue = key.roValue ∧
      (elektraKeySetNameBelow key n).2.roMeta = key.roMeta ∧
      (elektraKeySetNameBelow key n).2.metaKeys = key.metaKeys := by
  have hrest := keySetNameBelow_rest key n
  exact ⟨congrArg Prod.fst hrest, keySetNameBelow_roValue key n, congrArg (fun r => r.2.2) hrest,
    congrArg (fun r => r.2.1) hrest⟩

/-- A key at a place, without value and metadata. -/
structure BlankAt (P : Path) (key : Key) : Prop where
  name : HasName key P
  data : key.data = none
  roValue : key.roValue = false
  roMeta : key.roMeta = false
  metaKeys : key.metaKeys = []

/-- The key is in no key set yet. -/
structure NewAt (P : Path) (key : Key) : Prop extends BlankAt P key where
  roName : key.roName = false

theorem newAt_keyNewName {P : Path} (hr : P.root = .cascading) (hb : ¬ BackslashPart P.escaped) :
    NewAt P (keyNewName P.name) := by
  have hro : keyNew.roName = false := rfl
  obtain ⟨-, hback⟩ | ⟨-, -, hname⟩ := keySetName_name hro P
  · exact absurd hback hb
  · have hns : keyGetNameNamespace (some P.name) = .cascading := by
      have hhead := P.head_name.mpr hr
      generalize P.name = n at hhead
      cases n with
      | nil => cases hhead
      | cons c s =>
        obtain rfl : c = pathSeparator := Option.some.inj hhead
        rw [keyGetNameNamespace, if_pos rfl]
    have hset := keySetName_eq hro P.name
    rw [hns] at hset
    obtain ⟨name, hfinal⟩ := keySetName_finalized P.name
    obtain ⟨hdata, hval, hmeta, hkeys⟩ := keySetNameBelow_fields
      { keySetOwner (elektraRemoveKeyName keyNew) none with keyUSize := 1, keySize := 2 } P.name
    have hsnd := congrArg Prod.snd hset
    refine ⟨⟨hname, ?_, ?_, ?_, ?_⟩, (hfinal keyNew hro).2⟩
    · exact (congrArg Key.data hsnd).trans hdata
    · exact (congrArg Key.roValue hsnd).trans hval
    · exact (congrArg Key.roMeta hsnd).trans hmeta
    · exact (congrArg Key.metaKeys hsnd).trans hkeys

theorem not_allBackslashes {p : Str} (hp : p ≠ []) (h : ∀ c ∈ p, plain c = true) : ¬ AllBackslashes p := by
  intro hall
  obtain ⟨c, t, rfl⟩ := List.exists_cons_of_ne_nil hp
  have hc : c = pathEscape := by
    rw [AllBackslashes, elektraWriteBackslashes, List.length_cons, List.replicate_succ] at hall
    exact (List.cons.inj hall).1
  exact (plain_ne (h c List.mem_cons_self)).1 hc

theorem newAt_depKey (ps : PluginSpec) : NewAt ps.path (depKey ps) := by
  have hn := plain_of_validate ps.validName
  have hone : NewAt ⟨.cascading, [ps.namePart]⟩ (keyNewName (str "/" ++ ps.name)) := by
    have he : elektraEscapeKeyNamePart ps.namePart.1 = ps.name := escape_plain hn.1 hn.2
    have hname : (Path.mk .cascading [ps.namePart]).name = str "/" ++ ps.name := by
      simp [Path.name, Path.stem, Path.escaped, Root.level, he]
      rfl
    rw [← hname]
    refine newAt_keyNewName rfl ?_
    show ¬ AllBackslashes (elektraEscapeKeyNamePart ps.namePart.1)
    rw [he]
    exact not_allBackslashes hn.1 hn.2
  unfold depKey PluginSpec.path
  by_cases h : ps.name = ps.refname
  · rw [if_neg (not_not.mpr h), if_pos h]
    exact hone
  · rw [if_pos h, if_neg h]
    obtain ⟨-, hro, hadd⟩ := keyAddBaseName_spec hone.name hone.roName ps.refPart
    have hrun : ∃ name, (keyAddBaseName (keyNewName (str "/" ++ ps.name)) (some ps.refname)).2 =
        elektraFinalizeName (keyNewName (str "/" ++ ps.name)) name := by
      unfold keyAddBaseName
      dsimp only
      rw [hone.roName, if_neg Bool.false_ne_true, hone.name.key]
      exact ⟨_, rfl⟩
    obtain ⟨name, hname⟩ := hrun
    refine ⟨⟨hadd, ?_, ?_, ?_, ?_⟩, hro⟩
    all_goals rw [hname]
    · exact hone.data
    · exact hone.roValue
    · exact hone.roMeta
    · exact hone.metaKeys

/-! ## The key set -/

/-- The key of the plugin with this index. -/
structure IsDep (ps : PluginSpec) (i : ℕ) (key : Key) : Prop where
  name : HasName key ps.path
  roMeta : key.roMeta = false
  data : key.data = stringData (digits i)
  order : keyGetMeta key (str "order") = some (digits i)
  other : ∀ m, m ≠ str "order" → keyGetMeta key m = none

theorem IsDep.congr {ps : PluginSpec} {i : ℕ} {key key' : Key} (h : IsDep ps i key)
    (hk : ∃ b r, key' = { key with roName := b, ksReference := r }) : IsDep ps i key' := by
  obtain ⟨b, r, rfl⟩ := hk
  exact ⟨⟨h.name.key, h.name.keySize, h.name.ukey, h.name.keyUSize⟩, h.roMeta, h.data, h.order, h.other⟩

theorem IsDep.ident {ps : PluginSpec} {i : ℕ} {key : Key} (h : IsDep ps i key) :
    Elektra.ident key = (ps.path.uname, none) := by
  rw [Elektra.ident, h.name.ukey, h.other _ (by decide)]

/-- The key set of the plugins that were appended. -/
structure Deps (toAdd : List PluginSpec) (h : Heap) (deps : KeySet) : Prop where
  next : h.next = toAdd.length
  dep : ∀ i ps, toAdd[i]? = some ps → IsDep ps i (h.cell i)
  holds : deps.Holds h (appendAll h.ident (fun _ => none) (List.range toAdd.length))

theorem holds_of_ident {h h' : Heap} {ks : KeySet} {m : Ident → Option KeyRef} (hks : ks.Holds h m)
    (hn : h.next ≤ h'.next) (hid : ∀ k ∈ ks.array, h'.ident k = h.ident k)
    (hsized : ∀ k ∈ ks.array, (h'.cell k).key ≠ none ∧ Sized (h'.cell k))
    (hro : ∀ k ∈ ks.array, (h'.cell k).roName = (h.cell k).roName) : ks.Holds h' m where
  sorted := hks.sorted.congr hid
  entry k hk := ⟨lt_of_lt_of_le (hks.entry k hk).lt hn, (hsized k hk).1, (hsized k hk).2⟩
  locked k hk := (hro k hk).trans (hks.locked k hk)
  room := hks.room
  least := hks.least
  map := by
    rw [hks.map]
    exact (SortedArray.lookup_key_congr hid).symm

theorem appendAll_congr {f g : KeyRef → Ident} (m : Ident → Option KeyRef) (l : List KeyRef)
    (hfg : ∀ k ∈ l, f k = g k) : appendAll f m l = appendAll g m l :=
  List.foldl_ext _ _ _ fun m k hk => by rw [hfg k hk]

theorem appendAll_concat (f : KeyRef → Ident) (m : Ident → Option KeyRef) (l : List KeyRef) (k : KeyRef) :
    appendAll f m (l ++ [k]) = Function.update (appendAll f m l) (f k) (some k) := by
  rw [appendAll, List.foldl_append]
  rfl

theorem isDep_set {ps : PluginSpec} {key : Key} (hn : BlankAt ps.path key) (i : ℕ) :
    IsDep ps i (keySetMeta (keySetString key (digits i)) (str "order") (some (digits i))).2 := by
  obtain ⟨hname, hdata, hval, hmeta, hkeys⟩ := hn
  have hget : ∀ m, keyGetMeta (keySetMeta key (str "binary") none).2 m = none := fun m => by
    rw [keyGetMeta_keySetMeta hmeta]
    split_ifs
    · rfl
    · rw [keyGetMeta, hkeys]
      rfl
  obtain ⟨l, b, hbin⟩ := metaOnly_set key (str "binary") none
  generalize hk : (keySetMeta key (str "binary") none).2 = k at hget hbin
  have hstring : keySetString key (digits i) = { k with data := stringData (digits i), sync := true } := by
    unfold keySetString
    rw [hk, hbin]
    dsimp only
    rw [hval, if_neg Bool.false_ne_true]
  have hro : (keySetString key (digits i)).roMeta = false := by
    rw [hstring, hbin]
    exact hmeta
  obtain ⟨l', b', horder⟩ := metaOnly_set (keySetString key (digits i)) (str "order") (some (digits i))
  refine ⟨?_, ?_, ?_, ?_, fun m hm => ?_⟩
  · rw [horder, hstring, hbin]
    exact ⟨hname.key, hname.keySize, hname.ukey, hname.keyUSize⟩
  · rw [horder]
    exact hro
  · rw [horder, hstring]
  · rw [keyGetMeta_keySetMeta hro, if_pos rfl]
  · rw [keyGetMeta_keySetMeta hro, if_neg hm, hstring]
    exact hget m

theorem BlankAt.ident {P : Path} {key : Key} (h : BlankAt P key) : Elektra.ident key = (P.uname, none) := by
  rw [Elektra.ident, h.name.ukey, keyGetMeta, h.metaKeys]
  rfl

theorem deps_addDep {toAdd : List PluginSpec} {h : Heap} {deps : KeySet} (hd : Deps toAdd h deps)
    (ps : PluginSpec) : Deps (toAdd ++ [ps]) (addDep h deps ps toAdd.length).1
      (addDep h deps ps toAdd.length).2 := by
  obtain ⟨hnext, hdep, hholds⟩ := hd
  have hnew := newAt_depKey ps
  unfold addDep
  generalize hh1 : (h.alloc (depKey ps)).2 = h1
  have hfst : (h.alloc (depKey ps)).1 = toAdd.length := hnext
  have hcell1 : h1.cell toAdd.length = depKey ps := by
    rw [← hh1, ← hnext]
    exact Function.update_self _ _ _
  have hkeep1 : Keeps h h1 := hh1 ▸ keeps_alloc h _
  have hold1 : ∀ i < toAdd.length, h1.cell i = h.cell i := fun i hi => by
    rw [← hh1]
    exact Function.update_of_ne (by rw [hnext]; exact hi.ne) _ _
  have hnext1 : h1.next = toAdd.length + 1 := by
    rw [← hh1, ← hnext]
    rfl
  dsimp only
  rw [hfst, hh1]
  have hentry : Entry h1 toAdd.length :=
    HasName.entry (P := ps.path) (by rw [hcell1]; exact hnew.name) (by rw [hnext1]; exact Nat.lt_succ_self _)
  have hholds2 := ksAppendKey_holds (hholds.keeps hkeep1) hentry
  have hkeep2 := keeps_appendKey h1 deps toAdd.length
  have hsame2 := sameKeys_appendKey h1 deps toAdd.length
  have hnext2 : (ksAppendKey h1 deps toAdd.length).2.1.next = toAdd.length + 1 := by
    rw [next_appendKey, hnext1]
  generalize (ksAppendKey h1 deps toAdd.length).2.1 = h2 at *
  generalize (ksAppendKey h1 deps toAdd.length).2.2 = deps2 at *
  -- the key in its cell is the new one but for its lock and its references
  have hblank : BlankAt ps.path (h2.cell toAdd.length) := by
    obtain ⟨b, r, hk⟩ := hsame2 toAdd.length
    rw [hk, hcell1]
    have hname := hnew.name
    exact ⟨⟨hname.key, hname.keySize, hname.ukey, hname.keyUSize⟩, hnew.data, hnew.roValue, hnew.roMeta,
      hnew.metaKeys⟩
  have hset := isDep_set hblank toAdd.length
  have hro : (keySetMeta (keySetString (h2.cell toAdd.length) (digits toAdd.length)) (str "order")
      (some (digits toAdd.length))).2.roName = (h2.cell toAdd.length).roName := by
    rw [keySetMeta_roName]
    unfold keySetString
    dsimp only
    split_ifs
    · rw [keySetMeta_roName]
    · exact keySetMeta_roName _ _ _
  generalize (keySetMeta (keySetString (h2.cell toAdd.length) (digits toAdd.length))
    (str "order") (some (digits toAdd.length))).2 = key at hset hro
  have hdep2 : ∀ i ps', toAdd[i]? = some ps' → IsDep ps' i (h2.cell i) := fun i ps' hi => by
    have hlt := (List.getElem?_eq_some_iff.mp hi).1
    refine (hdep i ps' hi).congr ?_
    rw [← hold1 i hlt]
    exact hsame2 i
  have hdep3 : ∀ i ps', (toAdd ++ [ps])[i]? = some ps' → IsDep ps' i ((h2.set toAdd.length key).cell i) := by
    intro i ps' hi
    by_cases hlt : i < toAdd.length
    · rw [List.getElem?_append_left hlt] at hi
      rw [set_cell_ne hlt.ne]
      exact hdep2 i ps' hi
    · have hi' := (List.getElem?_eq_some_iff.mp hi).1
      rw [List.length_append, List.length_singleton] at hi'
      obtain rfl : i = toAdd.length := by omega
      rw [List.getElem?_concat_length] at hi
      obtain rfl := Option.some.inj hi
      rw [set_cell_self]
      exact hset
  have hid : ∀ i < toAdd.length + 1, (h2.set toAdd.length key).ident i = h2.ident i := by
    intro i hi
    by_cases he : i = toAdd.length
    · subst he
      rw [Heap.ident, Heap.ident, set_cell_self, hset.ident, hblank.ident]
    · rw [Heap.ident, Heap.ident, set_cell_ne he]
  have hlen : (toAdd ++ [ps]).length = toAdd.length + 1 := List.length_append
  refine ⟨hnext2.trans hlen.symm, hdep3, ?_⟩
  have hmap : appendAll (h2.set toAdd.length key).ident (fun _ => none) (List.range (toAdd ++ [ps]).length) =
      Function.update (appendAll h.ident (fun _ => none) (List.range toAdd.length)) (h1.ident toAdd.length)
        (some toAdd.length) := by
    have hlast : (h2.set toAdd.length key).ident toAdd.length = h1.ident toAdd.length := by
      rw [hid _ (Nat.lt_succ_self _), hkeep2.ident hentry.lt]
    rw [hlen, List.range_succ, appendAll_concat, hlast]
    refine congrArg (fun m => Function.update m _ _) (appendAll_congr _ _ fun k hk => ?_)
    have hlt := List.mem_range.mp hk
    obtain ⟨ps', hps⟩ : ∃ ps', toAdd[k]? = some ps' := ⟨_, List.getElem?_eq_getElem hlt⟩
    rw [hid k (Nat.lt_succ_of_lt hlt), Heap.ident, Heap.ident, (hdep2 k ps' hps).ident, (hdep k ps' hps).ident]
  rw [hmap]
  refine holds_of_ident hholds2 le_rfl (fun k hk => hid k ?_) (fun k hk => ?_) fun k hk => ?_
  · exact hnext2 ▸ (hholds2.entry k hk).lt
  · have hlt : k < (toAdd ++ [ps]).length := by
      rw [hlen, ← hnext2]
      exact (hholds2.entry k hk).lt
    have hname := (hdep3 k _ (List.getElem?_eq_getElem hlt)).name
    exact ⟨by rw [hname.key]; exact Option.some_ne_none _, hname.sized⟩
  · by_cases he : k = toAdd.length
    · subst he
      rw [set_cell_self]
      exact hro
    · rw [set_cell_ne he]

theorem deps_loop : ∀ (rest done : List PluginSpec) {h : Heap} {deps : KeySet}, Deps done h deps →
    Deps (done ++ rest) (depLoopFrom done.length rest h deps).1 (depLoopFrom done.length rest h deps).2
  | [], done, _, _, hd => by
    rw [List.append_nil]
    exact hd
  | ps :: rest, done, h, deps, hd => by
    have hstep := deps_loop rest (done ++ [ps]) (deps_addDep hd ps)
    rw [List.append_assoc, List.length_append] at hstep
    exact hstep

/-- **The key set that is sorted.** -/
theorem deps_depsOf (toAdd : List PluginSpec) : Deps toAdd (depsOf toAdd).1 (depsOf toAdd).2 := by
  have hempty : Deps [] (ksNew (Heap.ofList []) 0 []).1 (ksNew (Heap.ofList []) 0 []).2 := by
    refine ⟨?_, nofun, ?_⟩
    · rw [ksNew_empty]
      rfl
    · exact ksNew_holds 0 nofun
  exact deps_loop toAdd [] hempty

/-! ## Its members -/

theorem appendAll_range (f : KeyRef → Ident) (id : Ident) (k : ℕ) : ∀ n : ℕ,
    appendAll f (fun _ => none) (List.range n) id = some k ↔
      k < n ∧ f k = id ∧ ∀ j : ℕ, k < j → j < n → f j ≠ id
  | 0 => ⟨nofun, fun h => absurd h.1 (Nat.not_lt_zero k)⟩
  | n + 1 => by
    have ih := appendAll_range f id k n
    rw [List.range_succ, appendAll_concat]
    by_cases hid : f n = id
    · subst hid
      rw [Function.update_self]
      constructor
      · intro h
        obtain rfl := Option.some.inj h
        exact ⟨Nat.lt_succ_self n, rfl, fun j hj hj' => by omega⟩
      · rintro ⟨hk, -, hlast⟩
        obtain hk | rfl := Nat.lt_succ_iff_lt_or_eq.mp hk
        · exact absurd rfl (hlast n hk (Nat.lt_succ_self n))
        · rfl
    · rw [Function.update_of_ne (Ne.symm hid), ih]
      constructor
      · rintro ⟨hk, he, hlast⟩
        refine ⟨Nat.lt_succ_of_lt hk, he, fun j hj hj' => ?_⟩
        obtain hj' | rfl := Nat.lt_succ_iff_lt_or_eq.mp hj'
        · exact hlast j hj hj'
        · exact hid
      · rintro ⟨hk, he, hlast⟩
        refine ⟨?_, he, fun j hj hj' => hlast j hj (Nat.lt_succ_of_lt hj')⟩
        obtain hk | rfl := Nat.lt_succ_iff_lt_or_eq.mp hk
        · exact hk
        · exact absurd he hid

theorem appendAll_isSome (f : KeyRef → Ident) (j : KeyRef) : ∀ n, j < n →
    ∃ k, appendAll f (fun _ => none) (List.range n) (f j) = some k
  | n + 1, hj => by
    rw [List.range_succ, appendAll_concat]
    by_cases hid : f j = f n
    · exact ⟨n, by rw [hid, Function.update_self]⟩
    · rw [Function.update_of_ne hid]
      refine appendAll_isSome f j n ?_
      obtain hj | rfl := Nat.lt_succ_iff_lt_or_eq.mp hj
      · exact hj
      · exact absurd rfl hid

/-- The plugins that no later one has the name of, by their indices. -/
def IsLast (toAdd : List PluginSpec) (i : ℕ) : Prop :=
  ∃ ps, toAdd[i]? = some ps ∧ ∀ j ps', i < j → toAdd[j]? = some ps' → ps'.path ≠ ps.path

section Members

variable {toAdd : List PluginSpec} {h : Heap} {deps : KeySet}

theorem Deps.ident_eq (hd : Deps toAdd h deps) {i : ℕ} {ps : PluginSpec} (hi : toAdd[i]? = some ps) :
    h.ident i = (ps.path.uname, none) := (hd.dep i ps hi).ident

theorem Deps.ident_inj (hd : Deps toAdd h deps) {i j : ℕ} {ps ps' : PluginSpec} (hi : toAdd[i]? = some ps)
    (hj : toAdd[j]? = some ps') : h.ident j = h.ident i ↔ ps'.path = ps.path := by
  rw [hd.ident_eq hi, hd.ident_eq hj, Prod.mk.injEq, Path.uname_injective.eq_iff, and_iff_left rfl]

theorem Deps.mem_array (hd : Deps toAdd h deps) (k : KeyRef) : k ∈ deps.array ↔ IsLast toAdd k := by
  have hmem := @KeySet.Holds.mem h deps _ hd.holds k (h.ident k)
  rw [and_iff_left rfl, appendAll_range] at hmem
  rw [← hmem]
  constructor
  · rintro ⟨hk, -, hlast⟩
    refine ⟨toAdd[k], List.getElem?_eq_getElem hk, fun j ps' hj hps hpath => ?_⟩
    have hlt := (List.getElem?_eq_some_iff.mp hps).1
    exact hlast j hj hlt ((hd.ident_inj (List.getElem?_eq_getElem hk) hps).mpr hpath)
  · rintro ⟨ps, hps, hlast⟩
    refine ⟨(List.getElem?_eq_some_iff.mp hps).1, rfl, fun j hj hj' hid => ?_⟩
    have hps' := List.getElem?_eq_getElem hj'
    exact hlast j _ hj hps' ((hd.ident_inj hps hps').mp hid)

theorem Deps.exists_mem (hd : Deps toAdd h deps) {j : ℕ} {ps : PluginSpec} (hj : toAdd[j]? = some ps) :
    ∃ k ∈ deps.array, ∃ ps', toAdd[k]? = some ps' ∧ ps'.path = ps.path := by
  obtain ⟨k, hk⟩ := appendAll_isSome h.ident j toAdd.length (List.getElem?_eq_some_iff.mp hj).1
  obtain ⟨hmem, hid⟩ := hd.holds.mem.mp hk
  obtain ⟨ps', hps', -⟩ := (hd.mem_array k).mp hmem
  exact ⟨k, hmem, ps', hps', (hd.ident_inj hj hps').mp hid⟩

theorem Deps.unique (hd : Deps toAdd h deps) {i j : ℕ} {ps ps' : PluginSpec} (hi : i ∈ deps.array)
    (hj : j ∈ deps.array) (hpi : toAdd[i]? = some ps) (hpj : toAdd[j]? = some ps')
    (hpath : ps.path = ps'.path) : i = j :=
  hd.holds.sorted.unique hi hj ((hd.ident_inj hpj hpi).mpr hpath)

theorem Deps.perm (hd : Deps toAdd h deps) (hnodup : (toAdd.map PluginSpec.path).Nodup) :
    deps.array.Perm (List.range toAdd.length) := by
  refine (List.perm_ext_iff_of_nodup hd.holds.sorted.nodup List.nodup_range).mpr fun k => ?_
  rw [hd.mem_array, List.mem_range]
  constructor
  · rintro ⟨ps, hps, -⟩
    exact (List.getElem?_eq_some_iff.mp hps).1
  · intro hk
    refine ⟨toAdd[k], List.getElem?_eq_getElem hk, fun j ps' hj hps hpath => ?_⟩
    obtain ⟨hj', rfl⟩ := List.getElem?_eq_some_iff.mp hps
    have hpath' : (toAdd.map PluginSpec.path)[j]? = (toAdd.map PluginSpec.path)[k]? := by
      rw [List.getElem?_map, List.getElem?_map, hps, List.getElem?_eq_getElem hk, Option.map_some, Option.map_some,
        hpath]
    have hlen : k < (toAdd.map PluginSpec.path).length := by
      rw [List.length_map]
      exact hk
    exact hj.ne ((List.getElem?_inj hlen hnodup).mp hpath'.symm)

end Members

/-! ## The dependencies -/

/-- Keys with different names and no owner. -/
structure Named (h : Heap) (keys : List KeyRef) (P : KeyRef → Path) : Prop where
  name : ∀ k ∈ keys, HasName (h.cell k) (P k)
  owner : ∀ k ∈ keys, keyGetMeta (h.cell k) (str "owner") = none
  inj : ∀ k ∈ keys, ∀ k' ∈ keys, P k = P k' → k = k'
  unlocked : ∀ k ∈ keys, (h.cell k).roMeta = false
  nodup : keys.Nodup

/-- `h'` is `h` but for dependencies; those of each key are the names `l`. -/
structure Depending (h h' : Heap) (keys : List KeyRef) (l : KeyRef → List Str) : Prop where
  only : ∀ k, MetaOnly (h.cell k) (h'.cell k)
  array : ∀ k ∈ keys, MetaArray (h'.cell k) (str "dep") (l k)
  other : ∀ k m, (str "dep").isPrefixOf m = false → keyGetMeta (h'.cell k) m = keyGetMeta (h.cell k) m

section Depending

variable {h h' : Heap} {keys : List KeyRef} {P : KeyRef → Path} {l : KeyRef → List Str}

theorem Depending.name (hd : Depending h h' keys l) (hn : Named h keys P) {k : KeyRef} (hk : k ∈ keys) :
    HasName (h'.cell k) (P k) := by
  obtain ⟨_, _, he⟩ := hd.only k
  have := hn.name k hk
  rw [he]
  exact ⟨this.key, this.keySize, this.ukey, this.keyUSize⟩

theorem Depending.roMeta (hd : Depending h h' keys l) (hn : Named h keys P) {k : KeyRef} (hk : k ∈ keys) :
    (h'.cell k).roMeta = false := by
  obtain ⟨_, _, he⟩ := hd.only k
  rw [he]
  exact hn.unlocked k hk

theorem Depending.keyCmp (hd : Depending h h' keys l) (hn : Named h keys P) {k i : KeyRef} (hk : k ∈ keys)
    (hi : i ∈ keys) : Elektra.keyCmp (h'.cell k) (h'.cell i) = .eq ↔ k = i := by
  have hnk := hd.name hn hk
  have hni := hd.name hn hi
  have howner : ∀ k ∈ keys, keyGetMeta (h'.cell k) (str "owner") = none := fun k hk => by
    rw [hd.other k _ (by decide)]
    exact hn.owner k hk
  unfold Elektra.keyCmp
  dsimp only
  rw [hnk.key, hni.key]
  dsimp only
  rw [keyCompareByNameOwner_eq hnk.sized hni.sized, identCmp_eq_iff, Elektra.ident, Elektra.ident,
    howner k hk, howner i hi, Prod.mk.injEq, and_iff_left rfl, hnk.ukey, hni.ukey, Path.uname_injective.eq_iff]
  exact ⟨hn.inj k hk i hi, congrArg P⟩

theorem depending_add (hd : Depending h h' keys l) (hn : Named h keys P) {self : KeyRef} (hs : self ∈ keys)
    (name : Str) : Depending h (h'.set self (elektraMetaArrayAdd (h'.cell self) (str "dep") name)) keys
      (Function.update l self (l self ++ [name])) := by
  have hro := hd.roMeta hn hs
  have harray := hd.array self hs
  refine ⟨fun k => ?_, fun k hk => ?_, fun k m hm => ?_⟩ <;> by_cases he : k = self
  · subst he
    rw [set_cell_self]
    exact (hd.only k).trans (metaOnly_add _ _ _)
  · rw [set_cell_ne he]
    exact hd.only k
  · subst he
    rw [set_cell_self, Function.update_self]
    exact harray.add hro name
  · rw [set_cell_ne he, Function.update_of_ne he]
    exact hd.array k hk
  · subst he
    have hne : ∀ t, m ≠ str "dep" ++ t := by
      rintro t rfl
      rw [List.isPrefixOf_iff_prefix.mpr (List.prefix_append _ _)] at hm
      cases hm
    rw [set_cell_self, keyGetMeta_add hro harray, if_neg, if_neg]
    · exact hd.other k m hm
    · rw [List.append_assoc]
      exact hne _
    · rw [← List.append_nil (str "dep")]
      exact hne []
  · rw [set_cell_ne he]
    exact hd.other k m hm

/-- The names of the others. -/
def others (P : KeyRef → Path) (keys : List KeyRef) (self : KeyRef) : List Str :=
  (keys.filter (· ≠ self)).map fun k => (P k).name

theorem depending_addDeps (hn : Named h keys P) {self : KeyRef} (hs : self ∈ keys) :
    ∀ (rest : List KeyRef) {h' : Heap} {l : KeyRef → List Str}, rest ⊆ keys → Depending h h' keys l →
      Depending h (addDeps rest h' self) keys (Function.update l self (l self ++ others P rest self))
  | [], h', l, _, hd => by
    rw [others, List.filter_nil, List.map_nil, List.append_nil, Function.update_eq_self]
    exact hd
  | k :: rest, h', l, hsub, hd => by
    have hk : k ∈ keys := hsub List.mem_cons_self
    have hsub' : rest ⊆ keys := fun x hx => hsub (List.mem_cons_of_mem k hx)
    have hcmp := hd.keyCmp hn hk hs
    rw [addDeps, List.foldl_cons, ← addDeps]
    by_cases he : k = self
    · rw [if_pos (hcmp.mpr he), others, List.filter_cons_of_neg (by simpa using he)]
      exact depending_addDeps hn hs rest hsub' hd
    · have hname : keyName (h'.cell k) = (P k).name := by
        rw [keyName, (hd.name hn hk).key, Option.getD_some]
      have hstep := depending_addDeps hn hs rest hsub' (depending_add hd hn hs (P k).name)
      rw [Function.update_self, Function.update_idem, List.append_assoc] at hstep
      rw [if_neg (mt hcmp.mp he), hname, others, List.filter_cons_of_pos (by simpa using he), List.map_cons]
      exact hstep

theorem depending_word (hn : Named h keys P) (order : Str) : ∀ (rest : List KeyRef) {h' : Heap}
    {l : KeyRef → List Str}, rest.Nodup → rest ⊆ keys → Depending h h' keys l →
      Depending h (rest.foldl (fun h' self =>
        if isRelevant order (h'.cell self) then addDeps keys h' self else h') h') keys
        (fun k => if k ∈ rest ∧ order.isPrefixOf ((P k).name.drop 1) then l k ++ others P keys k else l k)
  | [], h', l, _, _, hd => by
    simpa using hd
  | self :: rest, h', l, hnodup, hsub, hd => by
    obtain ⟨hself, hnodup⟩ := List.nodup_cons.mp hnodup
    have hs : self ∈ keys := hsub List.mem_cons_self
    have hsub' : rest ⊆ keys := fun x hx => hsub (List.mem_cons_of_mem self hx)
    have hrel : isRelevant order (h'.cell self) = order.isPrefixOf ((P self).name.drop 1) := by
      rw [isRelevant, keyName, (hd.name hn hs).key, Option.getD_some]
    rw [List.foldl_cons, hrel]
    cases hr : order.isPrefixOf ((P self).name.drop 1) with
    | true =>
      rw [if_pos rfl]
      refine cast (congrArg (Depending h _ keys) (funext fun k => ?_))
        (depending_word hn order rest hnodup hsub' (depending_addDeps hn hs keys (List.Subset.refl keys) hd))
      by_cases he : k = self
      · subst he
        rw [if_neg fun h => hself h.1, if_pos ⟨List.mem_cons_self, hr⟩, Function.update_self]
      · rw [Function.update_of_ne he]
        exact if_congr (by rw [List.mem_cons, or_iff_right he]) rfl rfl
    | false =>
      rw [if_neg Bool.false_ne_true]
      refine cast (congrArg (Depending h _ keys) (funext fun k => if_congr ?_ rfl rfl))
        (depending_word hn order rest hnodup hsub' hd)
      rw [List.mem_cons]
      constructor
      · exact fun h => ⟨Or.inr h.1, h.2⟩
      · rintro ⟨rfl | hk, hk'⟩
        · rw [hr] at hk'
          cases hk'
        · exact ⟨hk, hk'⟩

/-- How many words stand at the beginning of the name. -/
def hits (words : List Str) (P : Path) : ℕ := words.countP fun order => order.isPrefixOf (P.name.drop 1)

/-- What the words make a key depend on. -/
def dependencies (P : KeyRef → Path) (keys : List KeyRef) (words : List Str) (k : KeyRef) : List Str :=
  (List.replicate (hits words (P k)) (others P keys k)).flatten

/-- **All words of `ordering`.** -/
theorem depending_orders (hn : Named h keys P) : ∀ (done words : List Str) {h' : Heap},
    Depending h h' keys (dependencies P keys done) →
      Depending h (words.foldl (dependOn keys) h') keys (dependencies P keys (done ++ words))
  | done, [], h', hd => by
    rw [List.append_nil]
    exact hd
  | done, order :: words, h', hd => by
    have hword := depending_word hn order keys hn.nodup (List.Subset.refl keys) hd
    have hone : Depending h (dependOn keys h' order) keys (dependencies P keys (done ++ [order])) := by
      refine ⟨hword.only, fun k hk => ?_, hword.other⟩
      have harray := hword.array k hk
      unfold dependencies hits at harray ⊢
      rw [List.countP_append, List.countP_singleton]
      by_cases hrel : order.isPrefixOf ((P k).name.drop 1) = true
      · rw [if_pos ⟨hk, hrel⟩] at harray
        rw [if_pos hrel, List.replicate_add, List.flatten_append, List.replicate_one, List.flatten_singleton]
        exact harray
      · rw [if_neg fun h => hrel h.2] at harray
        rw [if_neg hrel]
        exact harray
    have hstep := depending_orders hn (done ++ [order]) words hone
    rw [List.append_assoc] at hstep
    exact hstep

end Depending

end Elektra.Tools
