import Elektra.Ease.Index
import Elektra.Ease.RelativeName
import Elektra.Name.Rename
import Elektra.Plugin.Value
import Elektra.Split.Values

/-!
# Key sets as records

What a plugin reads is a key set; what counts of a key is its path, its value and its metadata.

* `Record`, `Is`, `Work`: what a key is, in a key set and while it is made;
* **`Recorded`**, `Recorded.put`, `Recorded.putAll`: a key set is that of records; keys are appended to it;
* **`Recorded.forall₂`**: the keys stand in the order of their paths.
-/

namespace Elektra.Records

open Ease

/-- A key as its path, its value and its metadata. -/
structure Record where
  path : Path
  value : Str
  metadata : Str → Option Str

structure Is (k : Key) (r : Record) : Prop where
  name : HasName k r.path
  value : keyString k = r.value
  metadata : ∀ m, keyGetMeta k m = r.metadata m

/-- A key that the code works with. -/
structure Work (k : Key) (r : Record) : Prop extends Is k r where
  roName : k.roName = false
  unlocked : Unlocked k

/-- The keys of a key set are those of records. -/
structure Recorded (R : Record → Prop) (owner : Option Str) (ks : List Key) : Prop where
  valid : ValidKeys ks
  owner : ∀ r, R r → r.metadata (str "owner") = owner
  record : ∀ k ∈ ks, ∃ r, R r ∧ Is k r
  key : ∀ r, R r → ∃ k ∈ ks, Is k r

section Record

variable {k key : Key} {r : Record} {R R' : Record → Prop} {owner : Option Str} {ks : List Key} {name value : Str}

theorem Is.ident (h : Is k r) : ident k = (r.path.uname, r.metadata (str "owner")) := by
  rw [Elektra.ident, h.name.ukey, h.metadata]

theorem Is.locked (h : Is k r) : Is { k with roName := true } r :=
  ⟨⟨h.name.key, h.name.keySize, h.name.ukey, h.name.keyUSize⟩, h.value, h.metadata⟩

theorem Is.named (h : Is k r) : k.key ≠ none := by
  rw [h.name.key]
  exact Option.some_ne_none _

theorem Is.dup (h : Is k r) : Work (keyDup k) r :=
  ⟨⟨hasName_keyDup h.name, h.value, h.metadata⟩, rfl, unlocked_keyDup k⟩

theorem keyString_of_fields (hdata : key.data = k.data) (hmeta : key.metaKeys = k.metaKeys) : keyString key = keyString k := by
  rw [keyString, keyString, hdata, keyGetMeta, keyGetMeta, hmeta]

theorem Work.addBaseName (h : Work k r) (s : CString) :
    Work (keyAddBaseName k (some s.1)).2 { r with path := r.path.add s } := by
  obtain ⟨-, hro, hname⟩ := keyAddBaseName_spec h.name h.roName s
  obtain ⟨n, hfields⟩ : ∃ n, (keyAddBaseName k (some s.1)).2 = elektraFinalizeName k n := by
    simp only [keyAddBaseName, h.roName, h.name.key, Bool.false_eq_true, if_false]
    exact ⟨_, rfl⟩
  rw [hfields] at hname hro ⊢
  exact ⟨⟨hname, (keyString_of_fields rfl rfl).trans h.value, h.metadata⟩, hro, h.unlocked.value, h.unlocked.metadata⟩

theorem Work.setString (h : Work k r) (h0 : 0 ∉ value) : Work (keySetString k value)
    { r with value := value, metadata := fun m => if m = str "binary" then none else r.metadata m } := by
  obtain ⟨-, -, hdata, hunlocked, hbinary, hmeta⟩ := keySetString_spec h.unlocked value
  refine ⟨⟨hasName_keySetString h.name value, keyString_of_data hbinary h0 hdata, fun m => ?_⟩,
    (keySetString_roName k value).trans h.roName, hunlocked⟩
  dsimp only
  split_ifs with hm
  · rw [hm]
    exact Option.not_isSome_iff_eq_none.mp (by rw [← keyIsBinary, hbinary]; decide)
  · exact (hmeta m hm).trans (h.metadata m)

theorem Work.setMeta (h : Work k r) (hname : name ≠ str "binary") (value : Option Str) : Work (keySetMeta k name value).2
    { r with metadata := fun m => if m = name then value else r.metadata m } := by
  obtain ⟨l, b, he⟩ := keySetMeta_fields k name value
  have hget := keyGetMeta_keySetMeta h.unlocked.metadata name value
  rw [he] at hget ⊢
  have hbinary : keyGetMeta { k with metaKeys := l, sync := b } (str "binary") = keyGetMeta k (str "binary") := by
    rw [hget, if_neg hname.symm]
  refine ⟨⟨⟨h.name.key, h.name.keySize, h.name.ukey, h.name.keyUSize⟩, ?_, fun m => ?_⟩, h.roName,
    h.unlocked.value, h.unlocked.metadata⟩
  · refine Eq.trans ?_ h.value
    rw [keyString, keyString, hbinary]
  · rw [hget, h.metadata]

theorem work_keyNewName {P : Path} (h : ¬ BackslashPart P.escaped) : Work (keyNewName P.name) ⟨P, [], fun _ => none⟩ := by
  have hro : keyNew.roName = false := rfl
  obtain ⟨-, hback⟩ | ⟨-, -, hP⟩ := keySetName_name hro P
  · exact absurd hback h
  · have hrest : (keyNewName P.name).rest = (none, [], false) := keySetName_rest hro P
    have hdata : (keyNewName P.name).data = none := congrArg Prod.fst hrest
    have hmeta : (keyNewName P.name).metaKeys = [] := congrArg (fun r => r.2.1) hrest
    obtain ⟨n, hfinal⟩ := keySetName_finalized P.name
    refine ⟨⟨hP, ?_, fun m => ?_⟩, (hfinal keyNew hro).2, keySetName_roValue hro P.name,
      congrArg (fun r => r.2.2) hrest⟩
    · rw [keyString, hdata]
    · rw [keyGetMeta, hmeta]
      rfl

theorem Work.addRest (h : Work k r) {Q : Path} (habove : r.path.Above Q) (hroot : r.path.root = Q.root)
    (hall : ¬ AllBackslashes ((join (Ease.rest r.path Q).escaped).drop 1)) :
    (keyAddName k (some ((join (Ease.rest r.path Q).escaped).drop 1))).1 ≠ -1 ∧
      Work (keyAddName k (some ((join (Ease.rest r.path Q).escaped).drop 1))).2 { r with path := Q } := by
  obtain ⟨hret, hname⟩ := keyAddName_parts h.name h.roName (escaped_rest_ne habove) hall hroot.symm
    (escaped_rest habove.2.1)
  have hrest := keyAddName_rest k (some ((join (Ease.rest r.path Q).escaped).drop 1))
  obtain ⟨hval, hro⟩ := keyAddName_flags k (some ((join (Ease.rest r.path Q).escaped).drop 1))
  have hmeta := congrArg (fun r => r.2.1) hrest
  refine ⟨hret, ⟨hname, (keyString_of_fields (congrArg Prod.fst hrest) hmeta).trans h.value, fun m => ?_⟩,
    hro.trans h.roName, hval.trans h.unlocked.value, (congrArg (fun r => r.2.2) hrest).trans h.unlocked.metadata⟩
  exact (congrArg (List.lookup m) hmeta).trans (h.metadata m)

/-! ### Key sets -/

theorem Recorded.congr (h : Recorded R owner ks) (hR : ∀ r, R r ↔ R' r) : Recorded R' owner ks := by
  have heq : R = R' := funext fun r => propext (hR r)
  rwa [← heq]

theorem Recorded.ident_iff (h : Recorded R owner ks) {r' : Record} (hr : R r) (hk : Is k r) (hkey : Is key r')
    (howner : r'.metadata (str "owner") = owner) : ident k = ident key ↔ r.path = r'.path := by
  rw [hk.ident, hkey.ident, howner, h.owner r hr, Prod.mk.injEq, and_iff_left rfl, Path.uname_injective.eq_iff]

/-- **A key that is appended replaces the one of its path.** -/
theorem Recorded.put (h : Recorded R owner ks) (hkey : Is key r) (howner : r.metadata (str "owner") = owner) :
    Recorded (fun r' => r' = r ∨ R r' ∧ r'.path ≠ r.path) owner (ksAppendValue ks key) := by
  obtain ⟨hvalid, hmem⟩ := ksAppendValue_put h.valid hkey.name.sized hkey.named
  refine ⟨hvalid, ?_, fun k hk => ?_, ?_⟩
  · rintro r' (rfl | ⟨hr', -⟩)
    · exact howner
    · exact h.owner r' hr'
  · obtain rfl | ⟨hk, hne⟩ := (hmem k).mp hk
    · exact ⟨r, .inl rfl, hkey.locked⟩
    · obtain ⟨r', hr', his⟩ := h.record k hk
      exact ⟨r', .inr ⟨hr', fun hpath => hne ((h.ident_iff hr' his hkey howner).mpr hpath)⟩, his⟩
  · rintro r' (rfl | ⟨hr', hpath⟩)
    · exact ⟨_, (hmem _).mpr (.inl rfl), hkey.locked⟩
    · obtain ⟨k, hk, his⟩ := h.key r' hr'
      exact ⟨k, (hmem k).mpr (.inr ⟨hk, fun he => hpath ((h.ident_iff hr' his hkey howner).mp he)⟩), his⟩

theorem Recorded.length_put (h : Recorded R owner ks) (hkey : Is key r) (howner : r.metadata (str "owner") = owner) :
    (ksAppendValue ks key).length = ks.length + 1 ↔ ∀ r', R r' → r'.path ≠ r.path := by
  rw [length_ksAppendValue h.valid hkey.name.sized hkey.named]
  constructor
  · intro hno r' hr' hpath
    obtain ⟨k, hk, his⟩ := h.key r' hr'
    exact hno k hk ((h.ident_iff hr' his hkey howner).mpr hpath)
  · intro hno k hk hid
    obtain ⟨r', hr', his⟩ := h.record k hk
    exact hno r' hr' ((h.ident_iff hr' his hkey howner).mp hid)

theorem recorded_singleton (hkey : Is key r) : Recorded (fun r' => r' = r) (r.metadata (str "owner")) (ksAppendValue [] key) := by
  have hnone : Recorded (fun _ => False) (r.metadata (str "owner")) [] :=
    ⟨validKeys_nil, fun _ hr => hr.elim, fun _ hk => absurd hk List.not_mem_nil, fun _ hr => hr.elim⟩
  exact (hnone.put hkey rfl).congr fun r' => ⟨fun hr => hr.resolve_right fun hfalse => hfalse.1, .inl⟩

/-- **Keys are appended**, each replacing the one of its path. -/
theorem Recorded.putAll {keys : List Key} {rs : List Record} (hkeys : List.Forall₂ Is keys rs) :
    ∀ {R : Record → Prop} {ks : List Key}, Recorded R owner ks → (∀ r ∈ rs, r.metadata (str "owner") = owner) →
    rs.Pairwise (fun r r' => r.path ≠ r'.path) →
    Recorded (fun r => r ∈ rs ∨ R r ∧ ∀ r' ∈ rs, r.path ≠ r'.path) owner (keys.foldl ksAppendValue ks) := by
  induction hkeys with
  | nil =>
    exact fun h _ _ => h.congr fun r =>
      ⟨fun hr => .inr ⟨hr, fun _ hmem => absurd hmem List.not_mem_nil⟩, fun hr => (hr.resolve_left List.not_mem_nil).1⟩
  | @cons key r keys rs his _ ih =>
    intro R ks h howner hpaths
    rw [List.pairwise_cons] at hpaths
    have hput := h.put his (howner r List.mem_cons_self)
    refine (ih hput (fun r' hr' => howner r' (List.mem_cons_of_mem r hr')) hpaths.2).congr fun r' => ?_
    constructor
    · rintro (hr' | ⟨rfl | ⟨hr', hne⟩, hrest⟩)
      · exact .inl (List.mem_cons_of_mem r hr')
      · exact .inl List.mem_cons_self
      · refine .inr ⟨hr', fun r'' hr'' => ?_⟩
        obtain rfl | hr'' := List.mem_cons.mp hr''
        · exact hne
        · exact hrest r'' hr''
    · rintro (hr' | ⟨hr', hrest⟩)
      · obtain rfl | hr' := List.mem_cons.mp hr'
        · exact .inr ⟨.inl rfl, hpaths.1⟩
        · exact .inl hr'
      · exact .inr ⟨.inr ⟨hr', hrest r List.mem_cons_self⟩, fun r'' hr'' => hrest r'' (List.mem_cons_of_mem r hr'')⟩

theorem exists_partner {α β : Type} {T : α → β → Prop} {as : List α} {bs : List β} (h : List.Forall₂ T as bs) :
    ∀ a ∈ as, ∃ b ∈ bs, T a b := by
  induction h with
  | nil => exact fun a ha => absurd ha List.not_mem_nil
  | @cons a b as bs hab _ ih =>
    intro a' ha'
    obtain rfl | ha' := List.mem_cons.mp ha'
    · exact ⟨b, List.mem_cons_self, hab⟩
    · obtain ⟨b', hb', hT⟩ := ih a' ha'
      exact ⟨b', List.mem_cons_of_mem b hb', hT⟩

theorem sorted_of_forall₂ {keys : List Key} {rs : List Record} (h : List.Forall₂ Is keys rs) :
    (∀ r ∈ rs, r.metadata (str "owner") = owner) →
    (rs.Pairwise fun r r' => compare r.path.uname r'.path.uname = .lt) → SortedArray.Sorted ident identCmp keys := by
  induction h with
  | nil => exact fun _ _ => SortedArray.sorted_nil
  | @cons key r keys rs his hall ih =>
    intro howner hrs
    rw [List.pairwise_cons] at hrs
    refine List.pairwise_cons.mpr ⟨fun k hk => ?_, ih (fun r' hr' => howner r' (List.mem_cons_of_mem r hr')) hrs.2⟩
    obtain ⟨r', hr', his'⟩ := exists_partner hall k hk
    rw [his.ident, his'.ident, identCmp_eq, hrs.1 r' hr']
    rfl

/-- **The keys stand in the order of their paths.** -/
theorem Recorded.forall₂ (h : Recorded R owner ks) {rs : List Record} (hR : ∀ r, R r ↔ r ∈ rs)
    (hrs : rs.Pairwise fun r r' => compare r.path.uname r'.path.uname = .lt) : List.Forall₂ Is ks rs := by
  have hpartners : ∀ {rs : List Record}, (∀ r ∈ rs, R r) → ∃ keys, List.Forall₂ Is keys rs ∧ ∀ k ∈ keys, k ∈ ks := by
    intro rs
    induction rs with
    | nil => exact fun _ => ⟨[], .nil, fun _ hk => absurd hk List.not_mem_nil⟩
    | cons r rs ih =>
      intro hin
      obtain ⟨keys, hkeys, hsub⟩ := ih fun r' hr' => hin r' (List.mem_cons_of_mem r hr')
      obtain ⟨k, hk, his⟩ := h.key r (hin r List.mem_cons_self)
      refine ⟨k :: keys, .cons his hkeys, fun k' hk' => ?_⟩
      obtain rfl | hk' := List.mem_cons.mp hk'
      · exact hk
      · exact hsub k' hk'
  obtain ⟨keys, hkeys, hsub⟩ := hpartners fun r hr => (hR r).mpr hr
  have hsorted := sorted_of_forall₂ hkeys (fun r hr => h.owner r ((hR r).mpr hr)) hrs
  have hvalid : ValidKeys keys := .of_valid hsorted fun k hk => h.valid.valid (hsub k hk)
  have heq : ks = keys := by
    refine h.valid.eq_of_mem hvalid fun k => ⟨fun hk => ?_, hsub k⟩
    obtain ⟨r, hr, his⟩ := h.record k hk
    obtain ⟨k', hk', his'⟩ := exists_partner hkeys.flip r ((hR r).mp hr)
    have hident : ident k = ident k' := by rw [his.ident, Is.ident his']
    rw [h.valid.sorted.unique hk (hsub k' hk') hident]
    exact hk'
  rw [heq]
  exact hkeys

end Record

end Elektra.Records
