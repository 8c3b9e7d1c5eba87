import Elektra.Plugin.Hosts

/-!
# Comments of the hosts plugin

The comments of a host are an array in its metadata, whose first element is the comment at the end of the line.

* `Comment`, `metaFrom`: comments as metadata;
* `elektraAddLineComment_eq`, `elektraAddInlineComment_eq`: one comment more;
* `Commented`, **`writeLineComments_eq`**, **`writeInlineComment_eq`**: the comments are written.
-/

namespace Elektra.Hosts

open Ease
open Csvstorage (newline)

/-- A comment with the blanks before it; without a sharp there is no text. -/
structure Comment where
  spaces : ℕ
  sharp : Bool
  text : Str
  line : newline ∉ text
  nul : 0 ∉ text
  bare : sharp = false → text = []

/-- The end of a line. -/
def noComment : Comment := ⟨0, false, [], List.not_mem_nil, List.not_mem_nil, fun _ => rfl⟩

def Comment.start (c : Comment) : Option Str := if c.sharp then some (str "#") else none

def Comment.data (c : Comment) : Option Str := if c.sharp then some c.text else none

/-- A comment as it is written. -/
def Comment.written (c : Comment) : Str := List.replicate c.spaces 32 ++ (if c.sharp then 35 :: c.text else [])

/-- The name of the comment `n`. -/
def numbered (n : ℕ) : Str := commentName (elektraWriteArrayNumber n)

/-- The metadata of the comment `n`. -/
def commentMeta (n : ℕ) (c : Comment) : MetaSet :=
  (numbered n, c.text) :: ((if c.sharp ∨ 0 < c.spaces then [(numbered n ++ str "/space", digits c.spaces)] else []) ++
    if c.sharp then [(numbered n ++ str "/start", str "#")] else [])

/-- The metadata of comments from `n` on. -/
def metaFrom : ℕ → List Comment → MetaSet
  | _, [] => []
  | n, c :: comments => commentMeta n c ++ metaFrom (n + 1) comments

/-- The comments of a host: the one at the end of the line stands before the others. -/
def held (inline : Option Comment) (before : List Comment) : List Comment :=
  if inline.isNone ∧ before = [] then [] else inline.getD noComment :: before

/-! ## Names -/

section Names

variable {i j n : ℕ} {x y : Str} {c : Comment}

theorem scanned_numbered (n : ℕ) (h : ∀ b, x.head? = some b → isdigit b = false) :
    Ease.Scanned (elektraWriteArrayNumber n ++ x) (digits n) x := by
  have hs := scanned_write n
  refine ⟨?_, hs.ne, hs.digit, h⟩
  conv_lhs => rw [hs.eq]
  rw [List.append_nil, List.cons_append, List.append_assoc]

theorem compare_numbered (hij : i < j) (hx : ∀ b, x.head? = some b → isdigit b = false)
    (hy : ∀ b, y.head? = some b → isdigit b = false) : compare (numbered i ++ x) (numbered j ++ y) = .lt := by
  have hlt : (digits i).length < (digits j).length ∨
      (digits i).length = (digits j).length ∧ value (digits i) < value (digits j) := by
    rw [value_digits, value_digits]
    obtain hlen | hlen := (digits_length_mono hij.le).lt_or_eq
    · exact .inl hlen
    · exact .inr ⟨hlen, hij⟩
  rw [numbered, numbered, commentName, commentName, List.append_assoc, List.append_assoc, compare_append rfl,
    Std.ReflOrd.compare_self, Ordering.then]
  exact (scanned_numbered i hx).lt (scanned_numbered j hy) hlt

/-- What stands behind the number in a name. -/
def tails : List Str := [[], str "/space", str "/start"]

theorem head_tails (hx : x ∈ tails) : ∀ b, x.head? = some b → isdigit b = false := by
  intro b hb
  simp only [tails, List.mem_cons, List.not_mem_nil, or_false] at hx
  obtain rfl | rfl | rfl := hx
  · cases hb
  · cases hb
    rfl
  · cases hb
    rfl

theorem numbered_ne (hij : i ≠ j) (hx : x ∈ tails) (hy : y ∈ tails) : numbered i ++ x ≠ numbered j ++ y := by
  intro he
  obtain hlt | hlt := lt_or_gt_of_ne hij
  · have hcompare := compare_numbered hlt (head_tails hx) (head_tails hy)
    rw [he, Std.ReflOrd.compare_self] at hcompare
    cases hcompare
  · have hcompare := compare_numbered hlt (head_tails hy) (head_tails hx)
    rw [he, Std.ReflOrd.compare_self] at hcompare
    cases hcompare

theorem mem_commentMeta {m : Str × Str} (hm : m ∈ commentMeta n c) : ∃ x ∈ tails, m.1 = numbered n ++ x := by
  rw [commentMeta, List.mem_cons, List.mem_append] at hm
  obtain rfl | hm | hm := hm
  · exact ⟨[], by decide, (List.append_nil _).symm⟩
  · split_ifs at hm
    · exact ⟨_, by decide, congrArg Prod.fst (List.mem_singleton.mp hm)⟩
    · cases hm
  · split_ifs at hm
    · exact ⟨_, by decide, congrArg Prod.fst (List.mem_singleton.mp hm)⟩
    · cases hm

theorem mem_metaFrom {m : Str × Str} : ∀ {comments : List Comment} {n : ℕ}, m ∈ metaFrom n comments →
    ∃ i, n ≤ i ∧ i < n + comments.length ∧ ∃ x ∈ tails, m.1 = numbered i ++ x
  | [], _, hm => absurd hm List.not_mem_nil
  | c :: comments, n, hm => by
    obtain hm | hm := List.mem_append.mp hm
    · exact ⟨n, le_rfl, by simp, mem_commentMeta hm⟩
    · obtain ⟨i, hni, hi, hx⟩ := mem_metaFrom hm
      exact ⟨i, by omega, by rw [List.length_cons]; omega, hx⟩

/-! ## The metadata in order -/

theorem ksAppendMeta_between {l r : MetaSet} {name value : Str} (hl : ∀ m ∈ l, compare m.1 name = .lt)
    (hr : ∀ m ∈ r, compare name m.1 = .lt) : ksAppendMeta (l ++ r) name value = l ++ (name, value) :: r := by
  have hgt : ∀ m ∈ r, compare m.1 name = .gt := fun m hm => Std.OrientedCmp.gt_of_lt (hr m hm)
  have hlt_l : l.filter (fun m => compare m.1 name = .lt) = l :=
    List.filter_eq_self.mpr fun m hm => decide_eq_true (hl m hm)
  have hlt_r : r.filter (fun m => compare m.1 name = .lt) = [] :=
    List.filter_eq_nil_iff.mpr fun m hm h => by simp [hgt m hm] at h
  have hgt_l : l.filter (fun m => compare m.1 name = .gt) = [] :=
    List.filter_eq_nil_iff.mpr fun m hm h => by simp [hl m hm] at h
  have hgt_r : r.filter (fun m => compare m.1 name = .gt) = r :=
    List.filter_eq_self.mpr fun m hm => decide_eq_true (hgt m hm)
  rw [ksAppendMeta, List.filter_append, List.filter_append, hlt_l, hlt_r, hgt_l, hgt_r, List.append_nil, List.nil_append]

theorem ksAppendMeta_replace {l r : MetaSet} {name value old : Str} :
    ksAppendMeta (l ++ (name, old) :: r) name value = ksAppendMeta (l ++ r) name value := by
  rw [ksAppendMeta, ksAppendMeta, List.filter_append, List.filter_append, List.filter_append, List.filter_append,
    List.filter_cons_of_neg (by simp), List.filter_cons_of_neg (by simp)]

theorem compare_self_append {b : UInt8} : compare x (x ++ b :: y) = .lt := by
  have happend := compare_append (l := x) rfl [] (b :: y)
  rw [List.append_nil, Std.ReflOrd.compare_self, Ordering.then] at happend
  rw [happend]
  rfl

/-- **A comment is put between others**, where none or one of its number was. -/
theorem elektraAddCommentInfo_eq {l old r : MetaSet} (c : Comment) (hold : old = [] ∨ ∃ text, old = [(numbered n, text)])
    (hl : ∀ m ∈ l, ∃ i < n, ∃ x ∈ tails, m.1 = numbered i ++ x)
    (hr : ∀ m ∈ r, ∃ i, n < i ∧ ∃ x ∈ tails, m.1 = numbered i ++ x) :
    elektraAddCommentInfo (l ++ (old ++ r)) (numbered n) c.spaces c.start c.data = l ++ (commentMeta n c ++ r) := by
  have hbefore : ∀ {x}, x ∈ tails → ∀ m ∈ l, compare m.1 (numbered n ++ x) = .lt := fun hx m hm => by
    obtain ⟨i, hi, y, hy, hname⟩ := hl m hm
    rw [hname]
    exact compare_numbered hi (head_tails hy) (head_tails hx)
  have hbehind : ∀ {x}, x ∈ tails → ∀ m ∈ r, compare (numbered n ++ x) m.1 = .lt := fun hx m hm => by
    obtain ⟨i, hi, y, hy, hname⟩ := hr m hm
    rw [hname]
    exact compare_numbered hi (head_tails hx) (head_tails hy)
  have hnil : numbered n ++ [] = numbered n := List.append_nil _
  have hspace : compare (numbered n) (numbered n ++ str "/space") = .lt := compare_self_append
  have hstart : compare (numbered n) (numbered n ++ str "/start") = .lt := compare_self_append
  have hspaceStart : compare (numbered n ++ str "/space") (numbered n ++ str "/start") = .lt := by
    rw [compare_append rfl, Std.ReflOrd.compare_self]
    decide
  have hput : ∀ {s : MetaSet} (text : Str), (∀ m ∈ s, compare (numbered n) m.1 = .lt) →
      ksAppendMeta (l ++ (old ++ s)) (numbered n) text = l ++ (numbered n, text) :: s := fun text hs => by
    have hbetween := @ksAppendMeta_between l _ (numbered n) text (fun m hm => hnil ▸ hbefore (by decide) m hm) hs
    obtain rfl | ⟨text', rfl⟩ := hold
    · exact hbetween
    · rw [List.singleton_append, ksAppendMeta_replace]
      exact hbetween
  have hold' : ∀ m ∈ old, compare m.1 (numbered n ++ str "/start") = .lt := fun m hm => by
    obtain rfl | ⟨text, rfl⟩ := hold
    · cases hm
    · rw [List.mem_singleton.mp hm]
      exact hstart
  have hlist : ∀ {s : MetaSet} (text : Str), (∀ m ∈ s, compare (numbered n ++ str "/space") m.1 = .lt) →
      ksAppendMeta (l ++ (numbered n, text) :: s) (numbered n ++ str "/space") (digits c.spaces) =
        l ++ (numbered n, text) :: (numbered n ++ str "/space", digits c.spaces) :: s := fun text hs => by
    rw [List.append_cons, ksAppendMeta_between (fun m hm => ?_) hs, ← List.append_cons]
    obtain hm | hm := List.mem_append.mp hm
    · exact hbefore (by decide) m hm
    · rw [List.mem_singleton.mp hm]
      exact hspace
  cases hsharp : c.sharp with
  | true =>
    have hs : ∀ m ∈ (numbered n ++ str "/start", str "#") :: r, ∀ x, x = [] ∨ x = str "/space" →
        compare (numbered n ++ x) m.1 = .lt := fun m hm x hx => by
      obtain rfl | hm := List.mem_cons.mp hm
      · obtain rfl | rfl := hx
        · rw [hnil]
          exact hstart
        · exact hspaceStart
      · obtain rfl | rfl := hx
        · exact hbehind (by decide) m hm
        · exact hbehind (by decide) m hm
    have hfirst : ksAppendMeta (l ++ (old ++ r)) (numbered n ++ str "/start") (str "#") =
        l ++ (old ++ (numbered n ++ str "/start", str "#") :: r) := by
      rw [← List.append_assoc, ksAppendMeta_between (fun m hm => ?_) (hbehind (by decide)), List.append_assoc]
      obtain hm | hm := List.mem_append.mp hm
      · exact hbefore (by decide) m hm
      · exact hold' m hm
    unfold elektraAddCommentInfo
    rw [Comment.start, Comment.data, if_pos hsharp, if_pos hsharp]
    dsimp only
    rw [hfirst, Option.getD_some, hput c.text fun m hm => hnil ▸ hs m hm [] (.inl rfl), if_pos (.inl rfl),
      hlist c.text fun m hm => hs m hm _ (.inr rfl), commentMeta, if_pos (.inl hsharp), if_pos hsharp]
    rfl
  | false =>
    have hnot : ¬ c.sharp = true := by rw [hsharp]; exact Bool.false_ne_true
    have htext := c.bare hsharp
    unfold elektraAddCommentInfo
    rw [Comment.start, Comment.data, if_neg hnot, if_neg hnot]
    dsimp only
    rw [Option.getD_none, hput [] fun m hm => hnil ▸ hbehind (x := []) (by decide) m hm, commentMeta, htext, if_neg hnot,
      List.append_nil]
    by_cases hspaces : 0 < c.spaces
    · rw [if_pos (.inr hspaces), if_pos (.inr hspaces), hlist [] (hbehind (by decide))]
      rfl
    · rw [if_neg (by simpa using hspaces), if_neg (by simpa [hsharp] using hspaces)]
      rfl

/-! ## The array -/

theorem plain_write : ∀ b ∈ elektraWriteArrayNumber n, b ≠ pathSeparator := by
  intro b hb
  have hs := scanned_write n
  rw [hs.eq, List.append_nil, List.mem_cons, List.mem_append] at hb
  obtain rfl | hb | hb := hb
  · decide
  · rw [List.eq_of_mem_replicate hb]
    decide
  · rintro rfl
    exact absurd (hs.digit _ hb) (by decide)

theorem isComment_numbered (n : ℕ) : isComment (numbered n) = true := by
  have hdrop : (numbered n).drop 8 = elektraWriteArrayNumber n := rfl
  have hhead : (str "comment/").isPrefixOf (numbered n) = true := List.isPrefixOf_iff_prefix.mpr (List.prefix_append _ _)
  have hplain : (elektraWriteArrayNumber n).contains pathSeparator = false := by
    rw [Bool.eq_false_iff, Ne, List.contains_iff_mem]
    exact fun hb => plain_write _ hb rfl
  have hvalid : validateBaseName (elektraWriteArrayNumber n) ≠ 0 := by
    rw [(scanned_write n).validate]
    split_ifs <;> decide
  rw [isComment, hdrop, hhead, hplain, decide_eq_true hvalid]
  rfl

theorem isComment_below (hx : x ∈ tails) (hne : x ≠ []) : isComment (numbered n ++ x) = false := by
  have hdrop : (numbered n ++ x).drop 8 = elektraWriteArrayNumber n ++ x := rfl
  have hsep : (elektraWriteArrayNumber n ++ x).contains pathSeparator = true := by
    rw [List.contains_iff_mem, List.mem_append]
    simp only [tails, List.mem_cons, List.not_mem_nil, or_false] at hx
    obtain rfl | rfl | rfl := hx
    · exact absurd rfl hne
    · exact .inr List.mem_cons_self
    · exact .inr List.mem_cons_self
  rw [isComment, hdrop, hsep, Bool.not_true, Bool.and_false, Bool.false_and]

/-- The elements of the array from `n` on. -/
def arrayFrom : ℕ → List Comment → MetaSet
  | _, [] => []
  | n, c :: comments => (numbered n, c.text) :: arrayFrom (n + 1) comments

theorem elektraArrayGet_append (l r : MetaSet) : elektraArrayGet (l ++ r) = elektraArrayGet l ++ elektraArrayGet r :=
  List.filter_append l r

theorem elektraArrayGet_commentMeta (n : ℕ) (c : Comment) : elektraArrayGet (commentMeta n c) = [(numbered n, c.text)] := by
  have hnone : ∀ x ∈ tails, x ≠ [] → ∀ value, elektraArrayGet [(numbered n ++ x, value)] = [] := fun x hx hne value => by
    rw [elektraArrayGet, List.filter_singleton, isComment_below hx hne]
    rfl
  have hself : elektraArrayGet [(numbered n, c.text)] = [(numbered n, c.text)] := by
    rw [elektraArrayGet, List.filter_singleton, isComment_numbered]
    rfl
  have hrest : elektraArrayGet ((if c.sharp ∨ 0 < c.spaces then [(numbered n ++ str "/space", digits c.spaces)] else []) ++
      if c.sharp then [(numbered n ++ str "/start", str "#")] else []) = [] := by
    rw [elektraArrayGet_append]
    split_ifs
    · rw [hnone _ (by decide) (by decide), hnone _ (by decide) (by decide), List.append_nil]
    · rw [hnone _ (by decide) (by decide)]
      rfl
    · rw [hnone _ (by decide) (by decide)]
      rfl
    · rfl
  rw [commentMeta, ← List.singleton_append, elektraArrayGet_append, hself, hrest, List.append_nil]

theorem elektraArrayGet_metaFrom : ∀ (n : ℕ) (comments : List Comment),
    elektraArrayGet (metaFrom n comments) = arrayFrom n comments
  | _, [] => rfl
  | n, c :: comments => by
    rw [metaFrom, elektraArrayGet_append, elektraArrayGet_commentMeta, elektraArrayGet_metaFrom, arrayFrom]
    rfl

theorem getLast_arrayFrom (c : Comment) : ∀ (n : ℕ) (comments : List Comment),
    ∃ text, (arrayFrom n (c :: comments)).getLast? = some (numbered (n + comments.length), text)
  | n, [] => ⟨c.text, rfl⟩
  | n, d :: comments => by
    obtain ⟨text, hlast⟩ := getLast_arrayFrom d (n + 1) comments
    refine ⟨text, ?_⟩
    rw [arrayFrom, arrayFrom, List.getLast?_cons_cons, ← arrayFrom, hlast, List.length_cons, Nat.add_right_comm]
    rfl

/-! ## One comment more -/

theorem metaFrom_append : ∀ (n : ℕ) (l r : List Comment), metaFrom n (l ++ r) = metaFrom n l ++ metaFrom (n + l.length) r
  | _, [], _ => rfl
  | n, c :: l, r => by
    rw [List.cons_append, metaFrom, metaFrom_append, metaFrom, List.append_assoc, List.length_cons, Nat.add_right_comm]
    rfl

theorem metaFrom_singleton (n : ℕ) (c : Comment) : metaFrom n [c] = commentMeta n c := List.append_nil _

theorem addComment_behind (c : Comment) (comments : List Comment) :
    elektraAddCommentInfo (metaFrom 0 comments) (numbered comments.length) c.spaces c.start c.data =
      metaFrom 0 (comments ++ [c]) := by
  have hadd := @elektraAddCommentInfo_eq comments.length (metaFrom 0 comments) [] [] c (.inl rfl)
    (fun m hm => by
      obtain ⟨i, -, hi, hx⟩ := mem_metaFrom hm
      exact ⟨i, by omega, hx⟩) fun _ hm => absurd hm List.not_mem_nil
  rw [List.append_nil, List.append_nil, List.append_nil] at hadd
  rw [hadd, metaFrom_append, metaFrom_singleton, Nat.zero_add]

theorem elektraArrayGetNextKey_eq (c : Comment) (comments : List Comment) (hlen : comments.length + 1 < 10 ^ 10) :
    elektraArrayGetNextKey (arrayFrom 0 (c :: comments)) = some (some (numbered (comments.length + 1))) := by
  obtain ⟨text, hlast⟩ := getLast_arrayFrom c 0 comments
  have hdrop : (numbered (0 + comments.length)).drop 8 = elektraWriteArrayNumber comments.length := by
    rw [Nat.zero_add]
    rfl
  rw [elektraArrayGetNextKey, hlast]
  dsimp only
  rw [hdrop, incBaseName_write (by omega), if_pos hlen]
  rfl

/-- **A comment on a line of its own**, as far as there are names. -/
theorem elektraAddLineComment_eq (c : Comment) (before : List Comment) (hlen : before.length + 1 < 10 ^ 10) :
    elektraAddLineComment (metaFrom 0 (held none before)) c.spaces c.start c.data =
      some (metaFrom 0 (held none (before ++ [c]))) := by
  have hheld : held none (before ++ [c]) = noComment :: (before ++ [c]) := if_neg (by simp)
  have hnext := elektraArrayGetNextKey_eq noComment before hlen
  unfold elektraAddLineComment
  rw [hheld]
  by_cases hnil : before = []
  · subst hnil
    change (elektraArrayGetNextKey (arrayFrom 0 [noComment])).map _ = _
    rw [hnext, Option.map_some]
    exact congrArg some (addComment_behind c [noComment])
  · have hbefore : held none before = noComment :: before := if_neg fun h => hnil h.2
    have hsize : (metaFrom 0 (noComment :: before)).length ≠ 0 := Nat.succ_ne_zero _
    rw [hbefore, if_neg hsize]
    dsimp only
    rw [if_neg hsize, elektraArrayGet_metaFrom, hnext, Option.map_some]
    exact congrArg some (addComment_behind c (noComment :: before))

/-- **The comment at the end of a line.** -/
theorem elektraAddInlineComment_eq (c : Comment) (before : List Comment) :
    elektraAddInlineComment (metaFrom 0 (held none before)) c.spaces c.start c.data =
      some (metaFrom 0 (held (some c) before)) := by
  have hheld : held (some c) before = c :: before := if_neg fun h => Bool.false_ne_true h.1
  have hbehind : ∀ m ∈ metaFrom 1 before, ∃ i, 0 < i ∧ ∃ x ∈ tails, m.1 = numbered i ++ x := fun m hm => by
    obtain ⟨i, hi, -, hx⟩ := mem_metaFrom hm
    exact ⟨i, hi, hx⟩
  have hadd : ∀ old : MetaSet, (old = [] ∨ ∃ text, old = [(numbered 0, text)]) →
      elektraAddCommentInfo (old ++ metaFrom 1 before) (numbered 0) c.spaces c.start c.data = metaFrom 0 (c :: before) :=
    fun old hold => @elektraAddCommentInfo_eq 0 [] old _ c hold (fun _ hm => absurd hm List.not_mem_nil) hbehind
  rw [hheld]
  by_cases hnil : before = []
  · subst hnil
    exact congrArg some (hadd [] (.inl rfl))
  · have hbefore : held none before = noComment :: before := if_neg fun h => hnil h.2
    rw [hbefore]
    exact congrArg some (hadd [(numbered 0, [])] (.inr ⟨[], rfl⟩))

/-! ## Lookups -/

theorem lookup_eq_none_of {l : MetaSet} {name : Str} (h : ∀ m ∈ l, m.1 ≠ name) : l.lookup name = none :=
  List.lookup_eq_none_iff.mpr fun m hm => bne_iff_ne.mpr (h m hm).symm

theorem lookup_metaFrom (hx : x ∈ tails) : ∀ {comments : List Comment} {n i : ℕ}, comments[i]? = some c →
    (metaFrom n comments).lookup (numbered (n + i) ++ x) = (commentMeta (n + i) c).lookup (numbered (n + i) ++ x)
  | [], _, _, h => by cases h
  | d :: comments, n, 0, h => by
    cases h
    have hnone : (metaFrom (n + 1) comments).lookup (numbered n ++ x) = none := lookup_eq_none_of fun m hm he => by
      obtain ⟨j, hj, -, y, hy, hname⟩ := mem_metaFrom hm
      exact numbered_ne (Nat.ne_of_gt hj) hy hx (hname.symm.trans he)
    rw [metaFrom, Nat.add_zero, List.lookup_append, hnone, Option.or_none]
  | d :: comments, n, i + 1, h => by
    have hnone : (commentMeta n d).lookup (numbered (n + (i + 1)) ++ x) = none := lookup_eq_none_of fun m hm he => by
      obtain ⟨y, hy, hname⟩ := mem_commentMeta hm
      exact numbered_ne (by omega) hy hx (hname.symm.trans he)
    have ih := @lookup_metaFrom hx comments (n + 1) i h
    rw [metaFrom, List.lookup_append, hnone, Option.none_or]
    rwa [Nat.add_right_comm, Nat.add_assoc] at ih

theorem lookup_commentMeta (n : ℕ) (c : Comment) : (commentMeta n c).lookup (numbered n) = some c.text ∧
    (commentMeta n c).lookup (numbered n ++ str "/space") =
      (if c.sharp ∨ 0 < c.spaces then some (digits c.spaces) else none) ∧
    (commentMeta n c).lookup (numbered n ++ str "/start") = c.start := by
  have hne : ∀ x y : Str, x ≠ y → (numbered n ++ x == numbered n ++ y) = false := fun x y hxy =>
    beq_eq_false_iff_ne.mpr fun he => hxy (List.append_cancel_left he)
  have hnil : ∀ x : Str, x ≠ [] → (numbered n ++ x == numbered n) = false := fun x hx => by
    have h := hne x [] hx
    rwa [List.append_nil] at h
  have hspace := hne (str "/space") (str "/start") (by decide)
  have hstart := hne (str "/start") (str "/space") (by decide)
  refine ⟨List.lookup_cons_self, ?_, ?_⟩
  · rw [commentMeta, List.lookup_cons, hnil _ (by decide)]
    split_ifs
    · exact List.lookup_cons_self
    · exact List.lookup_cons_self
    · rw [List.nil_append, List.lookup_cons, hspace]
      rfl
    · rfl
  · rw [commentMeta, List.lookup_cons, hnil _ (by decide), Comment.start]
    split_ifs
    · rw [List.singleton_append, List.lookup_cons, hstart]
      exact List.lookup_cons_self
    · rw [List.append_nil, List.lookup_cons, hstart]
      rfl
    · exact List.lookup_cons_self
    · rfl

/-! ## Writing -/

theorem digits_head (k : ℕ) : ∃ d ds, digits k = d :: ds ∧ isspace d = false ∧ d ≠ 45 ∧ d ≠ 43 := by
  obtain ⟨d, ds, hd⟩ := List.exists_cons_of_ne_nil (List.ne_nil_of_length_pos (digits_length_pos k))
  have hdigit := isdigit_iff.mp (isdigit_digits k d (hd ▸ List.mem_cons_self))
  refine ⟨d, ds, hd, ?_, ?_, ?_⟩
  · rw [isspace, Bool.or_eq_false_iff, Bool.and_eq_false_iff]
    refine ⟨decide_eq_false fun he => ?_, .inr (decide_eq_false fun he => ?_)⟩
    · rw [he] at hdigit
      exact absurd hdigit (by decide)
    · have : d.toNat ≤ 13 := he
      omega
  · rintro rfl
    exact absurd hdigit (by decide)
  · rintro rfl
    exact absurd hdigit (by decide)

theorem atoiSigned_digits (k : ℕ) : Rename.atoiSigned (digits k) = k := by
  obtain ⟨d, ds, hd, hspace, hminus, hplus⟩ := digits_head k
  have hskip : (digits k).dropWhile (fun c => c = 32 || (9 ≤ c && c ≤ 13)) = digits k := by
    rw [hd]
    exact List.dropWhile_cons_of_neg (by rw [← isspace, hspace]; decide)
  rw [Rename.atoiSigned, hskip]
  split
  · next he =>
    rw [hd] at he
    exact absurd (List.cons.inj he).1 hminus
  · next he =>
    rw [hd] at he
    exact absurd (List.cons.inj he).1 hplus
  · rw [atoi_digits]

theorem strtol_digits (k : ℕ) : strtol (digits k) = ((k : ℤ), []) := by
  obtain ⟨d, ds, hd, hspace, hminus, hplus⟩ := digits_head k
  have hskip : (digits k).dropWhile isspace = digits k := by
    rw [hd]
    exact List.dropWhile_cons_of_neg (by rw [hspace]; decide)
  have hhead : ¬ ((digits k).head? = some 45 ∨ (digits k).head? = some 43) := by
    rw [hd]
    exact not_or.mpr ⟨fun he => hminus (Option.some.inj he), fun he => hplus (Option.some.inj he)⟩
  have htake : (digits k).takeWhile isdigit = digits k := List.takeWhile_eq_self_iff.mpr (isdigit_digits k)
  have hdrop : (digits k).dropWhile isdigit = [] := List.dropWhile_eq_nil_iff.mpr (isdigit_digits k)
  rw [strtol, hskip, if_neg hhead, htake, if_neg (hd ▸ List.cons_ne_nil d ds), hdrop, atoiSigned_digits]

theorem writeComment_eq (c : Comment) : writeComment (if c.sharp ∨ 0 < c.spaces then some (digits c.spaces) else none)
    c.start (some c.text) = c.written := by
  unfold writeComment
  rw [Comment.written, Comment.start]
  by_cases hsharp : c.sharp = true
  · rw [if_pos (.inl hsharp), if_pos hsharp, if_pos hsharp]
    dsimp only
    rw [strtol_digits, if_pos rfl, List.append_assoc]
    rfl
  · rw [if_neg hsharp, if_neg hsharp, c.bare (Bool.eq_false_of_not_eq_true hsharp)]
    by_cases hspaces : 0 < c.spaces
    · rw [if_pos (.inr hspaces)]
      dsimp only
      rw [strtol_digits, if_pos rfl]
      simp
    · rw [if_neg (not_or.mpr ⟨hsharp, hspaces⟩), Nat.eq_zero_of_not_pos hspaces]
      rfl

/-- The comments of a key. -/
def Commented (key : Key) (comments : List Comment) : Prop :=
  ∀ m, (str "comment").isPrefixOf m = true → keyGetMeta key m = (metaFrom 0 comments).lookup m

section Written

variable {key : Key} {comments : List Comment} {c : Comment} {i : ℕ}

theorem Commented.get (h : Commented key comments) (hget : comments[i]? = some c) :
    keyGetMeta key (numbered i) = some c.text ∧
      keyGetMeta key (numbered i ++ str "/space") = (if c.sharp ∨ 0 < c.spaces then some (digits c.spaces) else none) ∧
      keyGetMeta key (numbered i ++ str "/start") = c.start := by
  have hname : ∀ x, (str "comment").isPrefixOf (numbered i ++ x) = true := fun x =>
    List.isPrefixOf_iff_prefix.mpr ⟨str "/" ++ elektraWriteArrayNumber i ++ x, rfl⟩
  have hlookup : ∀ x ∈ tails, keyGetMeta key (numbered i ++ x) = (commentMeta i c).lookup (numbered i ++ x) :=
    fun x hx => by
      have hmeta := @lookup_metaFrom x c hx comments 0 i hget
      rw [Nat.zero_add] at hmeta
      exact (h _ (hname x)).trans hmeta
  obtain ⟨htext, hspace, hstart⟩ := lookup_commentMeta i c
  have hself := hlookup [] (by decide)
  rw [List.append_nil] at hself
  exact ⟨hself.trans htext, (hlookup _ (by decide)).trans hspace, (hlookup _ (by decide)).trans hstart⟩

/-! ### The metadata of a key -/

theorem mem_ksAppendMeta {ks : MetaSet} {name value : Str} {m : Str × Str} :
    m ∈ ksAppendMeta ks name value ↔ m = (name, value) ∨ m ∈ ks ∧ m.1 ≠ name := by
  rw [ksAppendMeta, List.mem_append, List.mem_cons, List.mem_filter, List.mem_filter, decide_eq_true_eq, decide_eq_true_eq]
  constructor
  · rintro (⟨hm, hlt⟩ | rfl | ⟨hm, hgt⟩)
    · exact .inr ⟨hm, SortedArray.ne_of_cmp hlt (by decide)⟩
    · exact .inl rfl
    · exact .inr ⟨hm, SortedArray.ne_of_cmp hgt (by decide)⟩
  · rintro (rfl | ⟨hm, hne⟩)
    · exact .inr (.inl rfl)
    · cases hcompare : compare m.1 name with
      | lt => exact .inl ⟨hm, rfl⟩
      | eq => exact absurd (Std.LawfulEqOrd.eq_of_compare hcompare) hne
      | gt => exact .inr (.inr ⟨hm, rfl⟩)

theorem sorted_ksAppendMeta {ks : MetaSet} (h : SortedArray.Sorted Prod.fst compare ks) (name value : Str) :
    SortedArray.Sorted Prod.fst compare (ksAppendMeta ks name value) := by
  refine List.pairwise_append.mpr ⟨h.sublist List.filter_sublist, List.pairwise_cons.mpr ⟨fun m hm => ?_,
    h.sublist List.filter_sublist⟩, fun m hm m' hm' => ?_⟩
  · exact Std.OrientedCmp.lt_of_gt (of_decide_eq_true (List.mem_filter.mp hm).2)
  · have hlt := of_decide_eq_true (List.mem_filter.mp hm).2
    obtain rfl | hm' := List.mem_cons.mp hm'
    · exact hlt
    · exact Std.TransCmp.lt_trans hlt (Std.OrientedCmp.lt_of_gt (of_decide_eq_true (List.mem_filter.mp hm').2))

theorem elektraKeyGetMetaKeySet_spec (key : Key) : SortedArray.Sorted Prod.fst compare (elektraKeyGetMetaKeySet key) ∧
    ∀ m, m ∈ elektraKeyGetMetaKeySet key ↔ keyGetMeta key m.1 = some m.2 := by
  rw [elektraKeyGetMetaKeySet]
  have hspec : ∀ l : List (Str × Str), SortedArray.Sorted Prod.fst compare
      (l.foldr (fun m ks => ksAppendMeta ks m.1 m.2) []) ∧
      ∀ m, m ∈ l.foldr (fun m ks => ksAppendMeta ks m.1 m.2) [] ↔ l.lookup m.1 = some m.2 := by
    intro l
    induction l with
    | nil => exact ⟨SortedArray.sorted_nil, fun m => by simp⟩
    | cons n l ih =>
      refine ⟨sorted_ksAppendMeta ih.1 n.1 n.2, fun m => ?_⟩
      rw [List.foldr_cons, mem_ksAppendMeta, ih.2, List.lookup_cons]
      by_cases hname : m.1 = n.1
      · rw [beq_iff_eq.mpr hname]
        simp [Prod.ext_iff, hname, eq_comm]
      · rw [beq_eq_false_iff_ne.mpr hname]
        simp [Prod.ext_iff, hname]
  exact hspec key.metaKeys

theorem sorted_commentMeta (n : ℕ) (c : Comment) : SortedArray.Sorted Prod.fst compare (commentMeta n c) := by
  have hspace : compare (numbered n) (numbered n ++ str "/space") = .lt := compare_self_append
  have hstart : compare (numbered n) (numbered n ++ str "/start") = .lt := compare_self_append
  have hspaceStart : compare (numbered n ++ str "/space") (numbered n ++ str "/start") = .lt := by
    rw [compare_append rfl, Std.ReflOrd.compare_self]
    decide
  rw [commentMeta]
  split_ifs <;> simp [SortedArray.Sorted, hspace, hstart, hspaceStart]

theorem sorted_metaFrom : ∀ (n : ℕ) (comments : List Comment), SortedArray.Sorted Prod.fst compare (metaFrom n comments)
  | _, [] => SortedArray.sorted_nil
  | n, c :: comments => by
    refine List.pairwise_append.mpr ⟨sorted_commentMeta n c, sorted_metaFrom (n + 1) comments, fun m hm m' hm' => ?_⟩
    obtain ⟨x, hx, hname⟩ := mem_commentMeta hm
    obtain ⟨i, hi, -, y, hy, hname'⟩ := mem_metaFrom hm'
    rw [hname, hname']
    exact compare_numbered hi (head_tails hx) (head_tails hy)

theorem lookup_iff_mem {l : MetaSet} (h : SortedArray.Sorted Prod.fst compare l) {m : Str × Str} :
    l.lookup m.1 = some m.2 ↔ m ∈ l := by
  rw [List.lookup_eq_some_iff]
  constructor
  · rintro ⟨l₁, l₂, rfl, -⟩
    exact List.mem_append_right _ List.mem_cons_self
  · intro hm
    obtain ⟨l₁, l₂, rfl⟩ := List.append_of_mem hm
    refine ⟨l₁, l₂, rfl, fun p hp => bne_iff_ne.mpr ?_⟩
    exact (SortedArray.key_ne_of_lt ((List.pairwise_append.mp h).2.2 p hp m List.mem_cons_self)).symm

theorem mem_elektraArrayGet {ks : MetaSet} {m : Str × Str} : m ∈ elektraArrayGet ks ↔ m ∈ ks ∧ isComment m.1 = true :=
  List.mem_filter

theorem elektraArrayGet_key (h : Commented key comments) :
    elektraArrayGet (elektraKeyGetMetaKeySet key) = arrayFrom 0 comments := by
  obtain ⟨hsorted, hmem⟩ := elektraKeyGetMetaKeySet_spec key
  rw [← elektraArrayGet_metaFrom]
  have hleft : SortedArray.Sorted Prod.fst compare (elektraArrayGet (elektraKeyGetMetaKeySet key)) :=
    hsorted.sublist List.filter_sublist
  have hright : SortedArray.Sorted Prod.fst compare (elektraArrayGet (metaFrom 0 comments)) :=
    (sorted_metaFrom 0 comments).sublist List.filter_sublist
  refine hleft.eq_of_mem hright fun m => ?_
  rw [mem_elektraArrayGet, mem_elektraArrayGet, hmem, ← lookup_iff_mem (sorted_metaFrom 0 comments)]
  refine and_congr_left fun hcomment => ?_
  rw [h]
  rw [isComment, Bool.and_eq_true, Bool.and_eq_true, List.isPrefixOf_iff_prefix] at hcomment
  exact List.isPrefixOf_iff_prefix.mpr ((List.prefix_append (str "comment") (str "/")).trans hcomment.1.1)

/-! ### What is written -/

/-- The comments on lines of their own. -/
def lineComments (comments : List Comment) : Str := comments.flatMap fun c => c.written ++ [newline]

theorem writeLines_from : ∀ {comments : List Comment} {n : ℕ}, 0 < n →
    (∀ i c, comments[i]? = some c → writeComment (keyGetMeta key (numbered (n + i) ++ str "/space"))
      (keyGetMeta key (numbered (n + i) ++ str "/start")) (keyGetMeta key (numbered (n + i))) = c.written) →
    ((arrayFrom n comments).flatMap fun current =>
      if current.1 = commentName (str "#0") then []
      else writeComment (keyGetMeta key (current.1 ++ str "/space")) (keyGetMeta key (current.1 ++ str "/start"))
        (keyGetMeta key current.1) ++ [newline]) = lineComments comments
  | [], _, _, _ => rfl
  | c :: comments, n, hn, h => by
    have hne : numbered n ≠ commentName (str "#0") := fun he => by
      have hzero := @numbered_ne n 0 [] [] (Nat.ne_of_gt hn) (by decide) (by decide)
      rw [List.append_nil, List.append_nil] at hzero
      exact hzero he
    have ih := @writeLines_from comments (n + 1) (Nat.succ_pos n) fun i d hd => by
      have hi := h (i + 1) d hd
      rwa [Nat.add_comm i, ← Nat.add_assoc] at hi
    have hc := h 0 c rfl
    rw [Nat.add_zero] at hc
    rw [arrayFrom, List.flatMap_cons, if_neg hne, hc, ih]
    rfl

/-- **The comments before a host are written.** -/
theorem writeLineComments_eq (h : Commented key comments) : writeLineComments key = lineComments comments.tail := by
  rw [writeLineComments, elektraArrayGet_key h]
  cases comments with
  | nil => rfl
  | cons c comments =>
    have hzero : (numbered 0, c.text).1 = commentName (str "#0") := rfl
    rw [arrayFrom, List.flatMap_cons, if_pos hzero, List.nil_append]
    refine writeLines_from Nat.one_pos fun i d hd => ?_
    obtain ⟨htext, hspace, hstart⟩ := h.get (i := i + 1) hd
    rw [Nat.add_comm 1, htext, hspace, hstart, writeComment_eq]

/-- **The comment at the end of the line is written.** -/
theorem writeInlineComment_eq (h : Commented key comments) :
    writeInlineComment key = comments.head?.elim [] Comment.written := by
  have hspaceName : commentName (str "#0/space") = numbered 0 ++ str "/space" := rfl
  have hstartName : commentName (str "#0/start") = numbered 0 ++ str "/start" := rfl
  have hname : commentName (str "#0") = numbered 0 := rfl
  rw [writeInlineComment, hspaceName, hstartName, hname]
  cases comments with
  | nil =>
    rw [h _ (by decide), h _ (by decide), h _ (by decide)]
    rfl
  | cons c comments =>
    obtain ⟨htext, hspace, hstart⟩ := h.get (i := 0) rfl
    rw [htext, hspace, hstart, writeComment_eq]
    rfl

end Written

end Names

end Elektra.Hosts
