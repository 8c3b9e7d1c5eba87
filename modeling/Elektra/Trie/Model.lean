import Elektra.KeySet.Model
import Elektra.Trie.Longest

/-!
# The trie of mountpoints

A node of the trie has, for every first byte, the text of an edge, the backend that is stored at its
end and the node behind it. A mountpoint that is inserted again is stored behind its edge, as the
empty value of the node there.

* `Trie`, `elektraTrieStartsWith`, `trieInsert`, `elektraTriePrefixLookup`, `trieLookup`;
* `Trie.find`: what is stored under a name; `Trie.WF`;
* **`find_insert`**, `wf_insert`: an insertion is an update of the map;
* **`prefixLookup_eq`**: looking up is finding the longest match;
* **`trieLookup_longest`**.
-/

namespace Elektra

open Longest

variable {β : Type}

/-- `struct _Trie`; `null` is the null pointer. The length of a text is not stored. -/
inductive Trie (β : Type)
  | null
  | node (children : UInt8 → Trie β) (text : UInt8 → Option Str) (value : UInt8 → Option β)
      (emptyValue : Option β)

/-- The index of the first mismatch in `substr`, `none` where `str` starts with it. -/
def elektraTrieStartsWith : Str → Str → Option ℕ
  | _, [] => none
  | [], _ :: _ => some 0
  | c :: str, d :: substr => if d ≠ c then some 0 else (elektraTrieStartsWith str substr).map (· + 1)

/-- `name[0]` -/
def firstByte (name : Str) : UInt8 := name.headD 0

/-- `trieInsert (NULL, name, value)` -/
def trieNew (name : Str) (value : β) : Trie β :=
  if name = [] then .node (fun _ => .null) (fun _ => none) (fun _ => none) (some value)
  else
    .node (fun _ => .null) (Function.update (fun _ => none) (firstByte name) (some name))
      (Function.update (fun _ => none) (firstByte name) (some value)) none

/-- What the split entry becomes in the new node. -/
def trieMove (trie : Trie β) (newname : Str) (value : Option β) (child : Trie β) : Trie β :=
  match trie with
  | .null => .null
  | .node children text values emptyValue =>
    let idx2 := firstByte newname
    .node (Function.update children idx2 child) (Function.update text idx2 (some newname))
      (Function.update values idx2 value) emptyValue

def trieInsert : Trie β → Str → β → Trie β
  | .null, name, value => trieNew name value
  | .node children text values emptyValue, name, value =>
    let idx := firstByte name
    if name = [] then .node children text values (some value)
    else
      match text idx with
      | some t =>
        match elektraTrieStartsWith name t with
        | none =>
          .node (Function.update children idx (trieInsert (children idx) (name.drop t.length) value))
            text values emptyValue
        | some p =>
          let newname := t.drop p
          .node (Function.update children idx
              (trieMove (trieNew (name.drop p) value) newname (values idx) (children idx)))
            (Function.update text idx (some (t.take p))) (Function.update values idx none) emptyValue
      | none =>
        .node children (Function.update text idx (some name))
          (Function.update values idx (some value)) emptyValue

def elektraTriePrefixLookup : Trie β → Str → Option β
  | .null, _ => none
  | .node children text values emptyValue, name =>
    let idx := firstByte name
    match text idx with
    | none => emptyValue
    | some t =>
      match elektraTrieStartsWith name t with
      | none =>
        match elektraTriePrefixLookup (children idx) (name.drop t.length), values idx with
        | some ret, _ => some ret
        | none, some value => some value
        | none, none => emptyValue
      | some _ => emptyValue

def keyGetNameSize (key : Key) : ℕ := if key.key = none then 1 else key.keySize

/-- The buffer is read as a C string. -/
def trieLookup (trie : Trie β) (key : Option Key) : Option β :=
  match key with
  | none => none
  | some key =>
    let len := keyGetNameSize key + 1
    if len ≤ 1 then none
    else
      let buffer := (keyName key ++ List.replicate len 0).take len
      elektraTriePrefixLookup trie ((buffer.set (len - 2) pathSeparator).takeWhile (· ≠ 0))

/-! ## What is stored -/

/-- What an edge leads to: behind it, else at its end. -/
def edgeFind (text : Option Str) (child : Str → Option β) (value : Option β) (name : Str) :
    Option β :=
  match text with
  | none => none
  | some t =>
    if t <+: name then (child (name.drop t.length)).or (if name = t then value else none) else none

namespace Trie

/-- What is stored under a name. -/
def find : Trie β → Str → Option β
  | null, _ => none
  | node children text values emptyValue, name =>
    if name = [] then emptyValue
    else edgeFind (text (firstByte name)) (find (children (firstByte name))) (values (firstByte name)) name

/-- Every text begins with the byte it stands for, and only behind texts there are nodes. -/
def WF : Trie β → Prop
  | null => True
  | node children text _ _ =>
    (∀ c, text c = none → children c = null) ∧
    (∀ c t, text c = some t → t.head? = some c ∧ 0 ∉ t) ∧ ∀ c, (children c).WF

end Trie

/-! ## Mismatches -/

theorem startsWith_eq_none : ∀ {str substr : Str},
    elektraTrieStartsWith str substr = none ↔ substr <+: str
  | str, [] => by simp [elektraTrieStartsWith]
  | [], d :: substr => by simp [elektraTrieStartsWith]
  | c :: str, d :: substr => by
    rw [elektraTrieStartsWith]
    split_ifs with h
    · simp [List.cons_prefix_cons, h]
    · rw [Option.map_eq_none_iff, startsWith_eq_none, List.cons_prefix_cons]
      simp [not_not.mp h]

/-- A mismatch: a common part, and in `substr` a byte behind it that is not that of `str`. -/
theorem startsWith_eq_some : ∀ {str substr : Str} {p : ℕ}, elektraTrieStartsWith str substr = some p →
    ∃ common d rest other, substr = common ++ d :: rest ∧ str = common ++ other ∧
      common.length = p ∧ other.head? ≠ some d
  | str, [], p, h => by simp [elektraTrieStartsWith] at h
  | [], d :: substr, p, h => by
    obtain rfl := Option.some.inj h
    exact ⟨[], d, substr, [], rfl, rfl, rfl, nofun⟩
  | c :: str, d :: substr, p, h => by
    rw [elektraTrieStartsWith] at h
    split_ifs at h with hdc
    · obtain rfl := Option.some.inj h
      exact ⟨[], d, substr, c :: str, rfl, rfl, rfl, fun he => hdc (Option.some.inj he).symm⟩
    · obtain ⟨q, hq, rfl⟩ := Option.map_eq_some_iff.mp h
      obtain ⟨common, e, rest, other, rfl, rfl, rfl, hne⟩ := startsWith_eq_some hq
      exact ⟨c :: common, e, rest, other, by rw [not_not.mp hdc]; rfl, rfl, rfl, hne⟩

/-! ## Edges -/

theorem edgeFind_of_not_prefix {t name : Str} {child : Str → Option β} {value : Option β}
    (h : ¬ t <+: name) : edgeFind (some t) child value name = none :=
  if_neg h

theorem edgeFind_append (a b q : Str) (child : Str → Option β) (value : Option β) :
    edgeFind (some (a ++ b)) child value (a ++ q) = edgeFind (some b) child value q := by
  simp only [edgeFind, List.prefix_append_right_inj, List.append_cancel_left_eq,
    List.length_append, List.drop_length_add_append]

theorem edgeFind_self (t q : Str) (child : Str → Option β) (value : Option β) :
    edgeFind (some t) child value (t ++ q) = (child q).or (if q = [] then value else none) := by
  simp [edgeFind]

theorem edgeFind_update {t n : Str} (h : t <+: n) (child : Str → Option β) (value : Option β) (v : β) :
    edgeFind (some t) (Function.update child (n.drop t.length) (some v)) value =
      Function.update (edgeFind (some t) child value) n (some v) := by
  obtain ⟨m, rfl⟩ := h
  funext p
  by_cases hp : t <+: p
  · obtain ⟨q, rfl⟩ := hp
    rw [edgeFind_self, List.drop_left]
    by_cases hq : q = m
    · simp [hq]
    · have hne : t ++ q ≠ t ++ m := fun he => hq (List.append_cancel_left he)
      rw [Function.update_of_ne hq, Function.update_of_ne hne, edgeFind_self]
  · have hne : p ≠ t ++ m := fun he => hp ⟨m, he.symm⟩
    rw [Function.update_of_ne hne, edgeFind_of_not_prefix hp, edgeFind_of_not_prefix hp]

theorem edgeFind_new (n : Str) (v : β) :
    edgeFind (some n) (fun _ => none) (some v) = Function.update (fun _ => none) n (some v) := by
  funext p
  by_cases hp : p = n
  · simp [edgeFind, hp]
  · simp [edgeFind, hp]

namespace Trie

@[simp] theorem find_null (name : Str) : (null : Trie β).find name = none := rfl

theorem find_nil (children : UInt8 → Trie β) (text : UInt8 → Option Str) (values : UInt8 → Option β)
    (emptyValue : Option β) : (node children text values emptyValue).find [] = emptyValue := if_pos rfl

theorem find_node {children : UInt8 → Trie β} {text : UInt8 → Option Str} {values : UInt8 → Option β}
    {emptyValue : Option β} {c : UInt8} {s : Str} :
    (node children text values emptyValue).find (c :: s) =
      edgeFind (text c) (children c).find (values c) (c :: s) :=
  if_neg (List.cons_ne_nil c s)

end Trie

open Trie

theorem find_new (n : Str) (v : β) : (trieNew n v).find = Function.update (fun _ => none) n (some v) := by
  funext p
  cases n with
  | nil =>
    cases p with
    | nil => rfl
    | cons c s => rfl
  | cons d n =>
    rw [trieNew, if_neg (List.cons_ne_nil d n)]
    cases p with
    | nil => rfl
    | cons c s =>
      rw [find_node, firstByte, List.headD_cons]
      by_cases hc : c = d
      · subst hc
        rw [Function.update_self, Function.update_self]
        exact congrFun (edgeFind_new (c :: n) v) (c :: s)
      · have hne : c :: s ≠ d :: n := fun he => hc (List.cons.inj he).1
        rw [Function.update_of_ne hc, Function.update_of_ne hne]
        rfl

/-! ## Insertion -/

theorem new_ne_null (n : Str) (v : β) : trieNew n v ≠ null := by
  rw [trieNew]
  split_ifs <;> nofun

theorem find_move {trie : Trie β} (hne : trie ≠ null) (d : UInt8) (rest : Str) (value : Option β)
    (child : Trie β) (q : Str) : (trieMove trie (d :: rest) value child).find q =
      if q.head? = some d then edgeFind (some (d :: rest)) child.find value q else trie.find q := by
  cases trie with
  | null => exact absurd rfl hne
  | node children text values emptyValue =>
    cases q with
    | nil => rfl
    | cons e q =>
      rw [trieMove, find_node, find_node, firstByte, List.headD_cons, List.head?_cons]
      by_cases he : e = d
      · subst he
        rw [if_pos rfl, Function.update_self, Function.update_self, Function.update_self]
      · rw [if_neg fun h => he (Option.some.inj h), Function.update_of_ne he, Function.update_of_ne he,
          Function.update_of_ne he]

theorem find_split {other rest : Str} {d : UInt8} (hne : other.head? ≠ some d) (v : β)
    (value : Option β) (child : Trie β) :
    (trieMove (trieNew other v) (d :: rest) value child).find =
      Function.update (edgeFind (some (d :: rest)) child.find value) other (some v) := by
  funext q
  rw [find_move (new_ne_null other v), find_new]
  by_cases hd : q.head? = some d
  · have ho : q ≠ other := by
      rintro rfl
      exact hne hd
    rw [if_pos hd, Function.update_of_ne ho]
  · have hpre : ¬ d :: rest <+: q := by
      rintro ⟨u, rfl⟩
      exact hd rfl
    rw [if_neg hd]
    by_cases ho : q = other
    · rw [ho, Function.update_self, Function.update_self]
    · rw [Function.update_of_ne ho, Function.update_of_ne ho, edgeFind_of_not_prefix hpre]

theorem edgeFind_split {common other rest : Str} {d : UInt8} (hne : other.head? ≠ some d) (v : β)
    (value : Option β) (child : Trie β) :
    edgeFind (some common) (trieMove (trieNew other v) (d :: rest) value child).find none =
      Function.update (edgeFind (some (common ++ d :: rest)) child.find value) (common ++ other)
        (some v) := by
  rw [find_split hne]
  funext p
  by_cases hp : common <+: p
  · obtain ⟨q, rfl⟩ := hp
    rw [edgeFind_self, ite_self, Option.or_none]
    by_cases hq : q = other
    · simp [hq]
    · have hne' : common ++ q ≠ common ++ other := fun he => hq (List.append_cancel_left he)
      rw [Function.update_of_ne hq, Function.update_of_ne hne', edgeFind_append]
  · have hpo : p ≠ common ++ other := fun he => hp ⟨other, he.symm⟩
    have hpt : ¬ common ++ d :: rest <+: p := fun h => hp ((List.prefix_append _ _).trans h)
    rw [Function.update_of_ne hpo, edgeFind_of_not_prefix hp, edgeFind_of_not_prefix hpt]

theorem find_update {children children' : UInt8 → Trie β} {text text' : UInt8 → Option Str}
    {values values' : UInt8 → Option β} {emptyValue : Option β} {c : UInt8} {n : Str} {v : β}
    (hchild : ∀ d, d ≠ c → children' d = children d) (htext : ∀ d, d ≠ c → text' d = text d)
    (hvalue : ∀ d, d ≠ c → values' d = values d)
    (h : edgeFind (text' c) (children' c).find (values' c) =
      Function.update (edgeFind (text c) (children c).find (values c)) (c :: n) (some v)) :
    (node children' text' values' emptyValue).find =
      Function.update (node children text values emptyValue).find (c :: n) (some v) := by
  funext p
  cases p with
  | nil => rfl
  | cons d s =>
    by_cases hd : d = c
    · subst hd
      rw [find_node, h]
      by_cases hs : s = n
      · rw [hs, Function.update_self, Function.update_self]
      · have hne : d :: s ≠ d :: n := fun he => hs (List.cons.inj he).2
        rw [Function.update_of_ne hne, Function.update_of_ne hne, find_node]
    · have hne : d :: s ≠ c :: n := fun he => hd (List.cons.inj he).1
      rw [Function.update_of_ne hne, find_node, find_node, hchild d hd, htext d hd, hvalue d hd]

/-- **An insertion updates the map.** -/
theorem find_insert {trie : Trie β} (hw : trie.WF) (n : Str) (v : β) :
    (trieInsert trie n v).find = Function.update trie.find n (some v) := by
  induction trie generalizing n with
  | null => exact find_new n v
  | node children text values emptyValue ih =>
    obtain ⟨hnull, htext, hchildren⟩ := hw
    cases n with
    | nil =>
      rw [trieInsert]
      funext p
      cases p <;> rfl
    | cons c n =>
      rw [trieInsert]
      simp only [firstByte, List.headD_cons, reduceCtorEq, if_false]
      cases ht : text c with
      | none =>
        dsimp only
        refine find_update (fun _ _ => rfl) (fun d hd => Function.update_of_ne hd _ _)
          (fun d hd => Function.update_of_ne hd _ _) ?_
        rw [Function.update_self, Function.update_self, hnull c ht, ht]
        exact edgeFind_new (c :: n) v
      | some t =>
        dsimp only
        cases hs : elektraTrieStartsWith (c :: n) t with
        | none =>
          dsimp only
          refine find_update (fun d hd => Function.update_of_ne hd _ _) (fun _ _ => rfl)
            (fun _ _ => rfl) ?_
          rw [Function.update_self, ih c (hchildren c), ht]
          exact edgeFind_update (startsWith_eq_none.mp hs) _ _ v
        | some p =>
          obtain ⟨common, d, rest, other, rfl, hn, rfl, hne⟩ := startsWith_eq_some hs
          dsimp only
          refine find_update (fun d hd => Function.update_of_ne hd _ _)
            (fun d hd => Function.update_of_ne hd _ _) (fun d hd => Function.update_of_ne hd _ _) ?_
          rw [Function.update_self, Function.update_self, Function.update_self, ht, hn, List.drop_left,
            List.drop_left, List.take_left]
          exact edgeFind_split hne v _ _

theorem wf_update {children : UInt8 → Trie β} {text : UInt8 → Option Str}
    {values values' : UInt8 → Option β} {emptyValue emptyValue' : Option β} {c : UInt8} {t : Str}
    {child : Trie β} (hw : (node children text values emptyValue).WF) (hhead : t.head? = some c)
    (h0 : 0 ∉ t) (hc : child.WF) :
    (node (Function.update children c child) (Function.update text c (some t)) values' emptyValue').WF := by
  obtain ⟨hnull, htext, hchildren⟩ := hw
  refine ⟨fun d h => ?_, fun d u h => ?_, fun d => ?_⟩
  · by_cases hd : d = c
    · rw [hd, Function.update_self] at h
      cases h
    · rw [Function.update_of_ne hd] at h ⊢
      exact hnull d h
  · by_cases hd : d = c
    · rw [hd, Function.update_self] at h
      obtain rfl := Option.some.inj h
      exact ⟨hd ▸ hhead, h0⟩
    · rw [Function.update_of_ne hd] at h
      exact htext d u h
  · by_cases hd : d = c
    · rw [hd, Function.update_self]
      exact hc
    · rw [Function.update_of_ne hd]
      exact hchildren d

theorem wf_new {n : Str} (h0 : 0 ∉ n) (v : β) : (trieNew n v).WF := by
  have hempty : (node (fun _ => null) (fun _ => none) (fun _ => none) (none : Option β)).WF :=
    ⟨fun _ _ => rfl, nofun, fun _ => trivial⟩
  cases n with
  | nil => exact hempty
  | cons c n =>
    have h := @wf_update β _ _ _ (Function.update (fun _ => none) c (some v)) _ none c (c :: n) null
      hempty rfl h0 trivial
    rwa [Function.update_eq_self] at h

theorem wf_move {trie child : Trie β} (hw : trie.WF) (hc : child.WF) {d : UInt8} {rest : Str}
    (h0 : 0 ∉ d :: rest) (value : Option β) : (trieMove trie (d :: rest) value child).WF := by
  cases trie with
  | null => exact hw
  | node children text values emptyValue => exact wf_update hw rfl h0 hc

theorem wf_insert {trie : Trie β} (hw : trie.WF) {n : Str} (h0 : 0 ∉ n) (v : β) :
    (trieInsert trie n v).WF := by
  induction trie generalizing n with
  | null => exact wf_new h0 v
  | node children text values emptyValue ih =>
    cases n with
    | nil => exact hw
    | cons c n =>
      have hchild : (children c).WF := hw.2.2 c
      rw [trieInsert]
      simp only [firstByte, List.headD_cons, reduceCtorEq, if_false]
      cases ht : text c with
      | none =>
        have h := @wf_update β _ _ _ (Function.update values c (some v)) _ emptyValue c (c :: n)
          (children c) hw rfl h0 hchild
        rwa [Function.update_eq_self] at h
      | some t =>
        obtain ⟨hhead, ht0⟩ := hw.2.1 c t ht
        dsimp only
        cases hs : elektraTrieStartsWith (c :: n) t with
        | none =>
          have hrest : 0 ∉ (c :: n).drop t.length := fun h => h0 (List.mem_of_mem_drop h)
          have h := @wf_update β _ _ _ values _ emptyValue c t _ hw hhead ht0 (ih c hchild hrest)
          rwa [← ht, Function.update_eq_self] at h
        | some p =>
          obtain ⟨common, e, rest, other, rfl, hn, rfl, hne⟩ := startsWith_eq_some hs
          have hcommon : common ≠ [] := by
            rintro rfl
            rw [List.nil_append] at hn hhead
            exact hne (hn ▸ hhead.symm)
          have hother : 0 ∉ other := fun h => h0 (hn ▸ List.mem_append_right _ h)
          rw [List.head?_append_of_ne_nil _ hcommon] at hhead
          dsimp only
          rw [hn, List.drop_left, List.drop_left, List.take_left]
          exact wf_update hw hhead (fun h => ht0 (List.mem_append_left _ h))
            (wf_move (wf_new hother v) hchild (fun h => ht0 (List.mem_append_right _ h)) _)

/-! ## Lookup -/

/-- **Looking up is finding the longest match.** -/
theorem prefixLookup_eq {trie : Trie β} (hw : trie.WF) (n : Str) :
    elektraTriePrefixLookup trie n = longest trie.find n := by
  induction trie generalizing n with
  | null => exact (longest_eq_none.mpr fun _ _ => rfl).symm
  | node children text values emptyValue ih =>
    obtain ⟨hnull, htext, hchildren⟩ := hw
    rw [elektraTriePrefixLookup]
    cases n with
    | nil =>
      have h0 : text 0 = none := by
        cases ht : text 0 with
        | none => rfl
        | some t =>
          obtain ⟨hhead, ht0⟩ := htext 0 t ht
          exact absurd (List.mem_of_mem_head? hhead) ht0
      simp only [firstByte, List.headD_nil, h0]
      rfl
    | cons c n =>
      simp only [firstByte, List.headD_cons]
      have hmiss : (∀ p, p <+: c :: n → edgeFind (text c) (children c).find (values c) p = none) →
          emptyValue = longest (node children text values emptyValue).find (c :: n) := by
        intro h
        rw [longest_miss]
        · rfl
        · intro p hp hne
          obtain ⟨d, s, rfl⟩ := List.exists_cons_of_ne_nil hne
          obtain ⟨rfl, -⟩ := List.cons_prefix_cons.mp hp
          rw [find_node]
          exact h _ hp
      cases ht : text c with
      | none => exact hmiss fun _ _ => by rw [ht]; rfl
      | some t =>
        dsimp only
        cases hs : elektraTrieStartsWith (c :: n) t with
        | some i =>
          refine hmiss fun p hp => ?_
          have hnp : ¬ t <+: c :: n := fun h => by
            rw [startsWith_eq_none.mpr h] at hs
            cases hs
          rw [ht]
          exact edgeFind_of_not_prefix fun h => hnp (h.trans hp)
        | none =>
          obtain ⟨r, hr⟩ := startsWith_eq_none.mp hs
          obtain ⟨hhead, -⟩ := htext c t ht
          have htne : t ≠ [] := by
            rintro rfl
            cases hhead
          have hfind : ∀ p, p ≠ [] → p.head? = some c → (node children text values emptyValue).find p =
              edgeFind (some t) (children c).find (values c) p := by
            intro p hp hc
            obtain ⟨d, s, rfl⟩ := List.exists_cons_of_ne_nil hp
            obtain rfl := Option.some.inj hc
            rw [find_node, ht]
          have hskip : ∀ p, p <+: t → p ≠ [] → p ≠ t →
              (node children text values emptyValue).find p = none := by
            intro p hp hne hpt
            have hc : p.head? = some c := by
              obtain ⟨u, rfl⟩ := hp
              rwa [List.head?_append_of_ne_nil _ hne] at hhead
            rw [hfind p hne hc, edgeFind_of_not_prefix fun h => hpt (hp.eq_of_length_le h.length_le)]
          have hrest : (fun p => (node children text values emptyValue).find (t ++ p)) =
              fun p => ((children c).find p).or (if p = [] then values c else none) := by
            funext p
            rw [hfind _ (List.append_ne_nil_of_left_ne_nil htne p)
              (by rwa [List.head?_append_of_ne_nil _ htne]), edgeFind_self]
          dsimp only
          rw [← hr, longest_skip htne hskip, hrest, longest_or_root, List.drop_left, ih c (hchildren c),
            find_nil]
          cases longest (children c).find r <;> cases values c <;> rfl

theorem trieLookup_eq (trie : Trie β) {key : Key}
    (hsize : key.key ≠ none → key.keySize = (keyName key).length + 1) (h0 : 0 ∉ keyName key) :
    trieLookup trie (some key) = elektraTriePrefixLookup trie (keyName key ++ [pathSeparator]) := by
  have hlen : keyGetNameSize key = (keyName key).length + 1 := by
    rw [keyGetNameSize]
    split_ifs with hn
    · simp [keyName, hn]
    · exact hsize hn
  have hbuffer : (keyName key ++ List.replicate ((keyName key).length + 2) 0).take
      ((keyName key).length + 2) = keyName key ++ [0, 0] := by
    rw [List.take_length_add_append]
    rfl
  have hread : ((keyName key ++ [0, 0]).set (keyName key).length pathSeparator).takeWhile (· ≠ 0) =
      keyName key ++ [pathSeparator] := by
    have hpos : ∀ c ∈ keyName key, decide (c ≠ 0) = true := by
      intro c hc
      refine decide_eq_true ?_
      rintro rfl
      exact h0 hc
    rw [List.set_append_right _ _ le_rfl, Nat.sub_self, List.set_cons_zero,
      List.takeWhile_append_of_pos hpos]
    rfl
  rw [trieLookup]
  simp only [hlen]
  rw [if_neg (by omega), hbuffer]
  exact congrArg _ hread

/-! ## Sequences of insertions -/

/-- The trie that insertions build. -/
def trieOf (inserts : List (CString × β)) : Trie β :=
  inserts.foldl (fun trie e => trieInsert trie e.1.1 e.2) .null

/-- The last insertion of a name. -/
def lastInserted (inserts : List (CString × β)) (name : Str) : Option β :=
  (inserts.reverse.find? fun e => e.1.1 = name).map Prod.snd

theorem insertAll_spec : ∀ (inserts : List (CString × β)) {trie : Trie β}, trie.WF →
    (inserts.foldl (fun trie e => trieInsert trie e.1.1 e.2) trie).WF ∧
      ∀ p, (inserts.foldl (fun trie e => trieInsert trie e.1.1 e.2) trie).find p =
        (lastInserted inserts p).or (trie.find p)
  | [], _, hw => ⟨hw, fun _ => rfl⟩
  | (n, v) :: inserts, trie, hw => by
    obtain ⟨hw', hfind⟩ := insertAll_spec inserts (wf_insert hw n.2 v)
    refine ⟨hw', fun p => (hfind p).trans ?_⟩
    rw [find_insert hw, lastInserted, lastInserted, List.reverse_cons, List.find?_append]
    cases inserts.reverse.find? fun e => e.1.1 = p with
    | some e => rfl
    | none =>
      by_cases hp : p = n.1
      · simp [hp]
      · simp [Function.update_of_ne hp, Ne.symm hp]

/-- **What insertions build holds the last value of every name.** -/
theorem find_trieOf (inserts : List (CString × β)) :
    (trieOf inserts).WF ∧ (trieOf inserts).find = lastInserted inserts := by
  have hnull : (null : Trie β).WF := trivial
  have h := insertAll_spec inserts hnull
  exact ⟨h.1, funext fun p => (h.2 p).trans Option.or_none⟩

theorem lastInserted_eq_none {inserts : List (CString × β)} {name : Str} :
    lastInserted inserts name = none ↔ ∀ e ∈ inserts, e.1.1 ≠ name := by
  simp [lastInserted]

theorem trieLookup_trieOf (inserts : List (CString × β)) {key : Key}
    (hsize : key.key ≠ none → key.keySize = (keyName key).length + 1) (h0 : 0 ∉ keyName key) :
    trieLookup (trieOf inserts) (some key) =
      longest (lastInserted inserts) (keyName key ++ [pathSeparator]) := by
  obtain ⟨hw, hfind⟩ := find_trieOf inserts
  rw [trieLookup_eq _ hsize h0, prefixLookup_eq hw, hfind]

/-- **Whatever was inserted, the longest mountpoint that is a prefix of the name wins.** -/
theorem trieLookup_longest (inserts : List (CString × β)) {key : Key}
    (hsize : key.key ≠ none → key.keySize = (keyName key).length + 1) (h0 : 0 ∉ keyName key) :
    (∀ v, trieLookup (trieOf inserts) (some key) = some v ↔
      ∃ p, p <+: keyName key ++ [pathSeparator] ∧ lastInserted inserts p = some v ∧
        ∀ e ∈ inserts, e.1.1 <+: keyName key ++ [pathSeparator] → e.1.1.length ≤ p.length) ∧
    (trieLookup (trieOf inserts) (some key) = none ↔
      ∀ e ∈ inserts, ¬ e.1.1 <+: keyName key ++ [pathSeparator]) := by
  rw [trieLookup_trieOf inserts hsize h0]
  constructor
  · intro v
    rw [longest_eq_some]
    refine exists_congr fun p => and_congr_right fun _ => and_congr_right fun _ => ?_
    constructor
    · intro hmax e he hpre
      refine hmax _ hpre (Option.isSome_iff_ne_none.mpr fun hnone => ?_)
      exact lastInserted_eq_none.mp hnone e he rfl
    · intro hmax q hq hsome
      obtain ⟨e, he, rfl⟩ : ∃ e ∈ inserts, e.1.1 = q := by
        by_contra hno
        push Not at hno
        rw [lastInserted_eq_none.mpr hno] at hsome
        cases hsome
      exact hmax e he hq
  · rw [longest_eq_none]
    constructor
    · intro h e he hpre
      exact lastInserted_eq_none.mp (h _ hpre) e he rfl
    · intro h p hp
      exact lastInserted_eq_none.mpr fun e he hep => h e he (hep ▸ hp)

/-- `user/a/`, then `user/`, then `user/a/` again. -/
theorem trieLookup_longest_user :
    trieLookup (trieOf [((⟨str "user/a/", by decide⟩ : CString), 1), (⟨str "user/", by decide⟩, 2),
      (⟨str "user/a/", by decide⟩, 3)]) (some (keyNewName (str "user/a/b"))) = some 3 :=
  ((trieLookup_longest _ (fun _ => by decide +kernel) (by decide +kernel)).1 3).mpr
    ⟨str "user/a/", by decide +kernel, by decide +kernel, by decide +kernel⟩

end Elektra
