import Elektra.Ease.MetaArray
import Elektra.Plugin.Line

/-!
# The enum plugin

The values that are allowed stand in quotes in the metadata `check/enum`, or below it as an array.

* `regexec`, `validateWithList`: the texts in quotes, one after the other; `listLoop_eq`: those of a list;
* `strtok`, `validateWithArray`: a value that was found is taken out; `arrayLoop_iff`;
* **`elektraEnumSet_decides`**: which values the two notations accept.
-/

namespace Elektra.Enum

open Ease

/-! ## Lists -/

def newline : UInt8 := 10

/-- `[^']`, which takes no newline because of `REG_NEWLINE`. -/
def inQuotes (c : UInt8) : Bool := c ≠ 39 && c ≠ newline

/-- Behind the closing quote: `\s*(,|$|([)]}])?)`, as far as it goes. -/
def behindQuote (s : Str) : Str :=
  let s := s.dropWhile isspace
  if s.head? = some 44 then s.tail else if (str ")\x7d]").isPrefixOf s then s.drop 3 else s

/-- `regexec` for `'([^']*)'\s*(,|$|([)]}])?)`, which `regcomp` takes: the submatch of the leftmost match, and what is
behind the match. -/
def regexec : Str → Option (Str × Str)
  | [] => none
  | c :: s =>
    if c = 39 ∧ (s.dropWhile inQuotes).head? = some 39 then
      some (s.takeWhile inQuotes, behindQuote (s.dropWhile inQuotes).tail)
    else regexec s

/-- The loop over the matches. Each of them has two quotes, so the size bounds the rounds. -/
def listLoop (toCheck : Str) : ℕ → Str → Bool
  | 0, _ => false
  | fuel + 1, ptr =>
    match regexec ptr with
    | none => false
    | some (value, ptr) => toCheck = value || listLoop toCheck fuel ptr

/-- The delimiter is the first character, which is the NUL of an empty string. -/
def validateWithList (key : Key) : ℤ :=
  let validValues := (keyGetMeta key (str "check/enum")).getD []
  match keyGetMeta key (str "check/enum/multi") with
  | none => if listLoop (keyString key) (validValues.length + 1) validValues then 1 else 0
  | some multiEnum =>
    let toCheck := (keyString key).splitOn (multiEnum.headD 0)
    if toCheck.any fun elem => elem ≠ [] && listLoop elem (validValues.length + 1) validValues then 1 else 0

/-! ## Arrays -/

/-- The tokens that `strtok` gives, one after the other. -/
def strtok (s delim : Str) : List Str := (s.splitOnP fun c => delim.contains c).filter (· ≠ [])

/-- The loop over the values: the first that is the same is popped. -/
def popValue (value : Str) : List Str → Option (List Str)
  | [] => none
  | cur :: rest => if value = cur then some rest else (popValue value rest).map (cur :: ·)

/-- The loop over the tokens. -/
def arrayLoop : List Str → List Str → Bool → Bool
  | [], _, isValid => isValid
  | value :: tokens, validValues, _ =>
    match popValue value validValues with
    | none => false
    | some validValues => arrayLoop tokens validValues true

/-- The key set begins with the metadata of the array itself. -/
def validateWithArray (key : Key) : Option ℤ :=
  let delim := (keyGetMeta key (str "check/enum/multi")).getD []
  (Ease.elektraMetaArrayToKS key (str "check/enum")).map fun ks =>
    let validValues := ks.elim [] fun r => r.1 :: r.2.map Prod.snd
    if arrayLoop (strtok (keyString key) delim) validValues false then 1 else 0

/-! ## The plugin -/

def validateKey (key : Key) : Option ℤ :=
  match keyGetMeta key (str "check/enum") with
  | none => some 1
  | some s => if s.head? ≠ some 35 then some (validateWithList key) else validateWithArray key

/-- There is nothing where the metadata are read behind the last name of an array. -/
def elektraEnumSet (env : Environment) : List Key → Key → Option (ℤ × Key)
  | [], parentKey => some (1, parentKey)
  | cur :: returned, parentKey =>
    match validateKey cur with
    | none => none
    | some ret =>
      if ret = 0 then
        some (-1, env.setError 121 parentKey
          (str "Validation of key \"" ++ keyName cur ++ str "\" with string \"" ++ keyString cur ++ str "\" failed."))
      else elektraEnumSet env returned parentKey

/-! ## The notation of a list -/

/-- The values in quotes, with white space around them and commas between them. -/
inductive IsList : List Str → Str → Prop
  | last {v ws ws' : Str} (hv : ∀ c ∈ v, inQuotes c = true) (hws : ∀ c ∈ ws ++ ws', isspace c = true) :
    IsList [v] (ws ++ 39 :: (v ++ 39 :: ws'))
  | cons {v ws ws' s : Str} {vs : List Str} (hv : ∀ c ∈ v, inQuotes c = true)
    (hws : ∀ c ∈ ws ++ ws', isspace c = true) (hrest : IsList vs s) : IsList (v :: vs) (ws ++ 39 :: (v ++ 39 :: (ws' ++ 44 :: s)))

section List

variable {v ws ws' s t : Str} {vs : List Str}

theorem regexec_quoted (hv : ∀ c ∈ v, inQuotes c = true) (hws : ∀ c ∈ ws, isspace c = true) (t : Str) :
    regexec (ws ++ 39 :: (v ++ 39 :: t)) = some (v, behindQuote t) := by
  induction ws with
  | nil =>
    obtain ⟨htake, hdrop⟩ := takeWhile_stop (p := inQuotes) (l := v) (r := 39 :: t) hv
      fun c hc => by rw [← Option.some.inj hc]; decide
    rw [List.nil_append, regexec, htake, hdrop, if_pos ⟨rfl, rfl⟩, List.tail_cons]
  | cons c ws ih =>
    rw [List.forall_mem_cons] at hws
    have hc : c ≠ 39 := by
      rintro rfl
      exact absurd hws.1 (by decide)
    rw [List.cons_append, regexec, if_neg fun h => hc h.1, ih hws.2]

/-- **The texts in quotes are compared one after the other.** -/
theorem listLoop_iff (h : IsList vs s) (toCheck : Str) : ∀ {fuel : ℕ}, s.length < fuel →
    (listLoop toCheck fuel s = true ↔ toCheck ∈ vs) := by
  induction h with
  | @last v ws ws' hv hws =>
    intro fuel hfuel
    rw [List.forall_mem_append] at hws
    obtain ⟨fuel, rfl⟩ := Nat.exists_eq_succ_of_ne_zero (Nat.ne_of_gt (Nat.zero_lt_of_lt hfuel))
    have hbehind : behindQuote ws' = [] := by
      rw [behindQuote, List.dropWhile_eq_nil_iff.mpr hws.2]
      rfl
    have hrest : listLoop toCheck fuel [] = false := by cases fuel <;> rfl
    rw [listLoop, regexec_quoted hv hws.1]
    dsimp only
    rw [hbehind, hrest, Bool.or_false, decide_eq_true_iff, List.mem_singleton]
  | @cons v ws ws' s vs hv hws _ ih =>
    intro fuel hfuel
    rw [List.forall_mem_append] at hws
    obtain ⟨fuel, rfl⟩ := Nat.exists_eq_succ_of_ne_zero (Nat.ne_of_gt (Nat.zero_lt_of_lt hfuel))
    have hbehind : behindQuote (ws' ++ 44 :: s) = s := by
      rw [behindQuote, (takeWhile_stop hws.2 fun c hc => by rw [← Option.some.inj hc]; decide).2]
      rfl
    have hlen : s.length < fuel := by
      simp only [List.length_append, List.length_cons] at hfuel
      omega
    rw [listLoop, regexec_quoted hv hws.1]
    dsimp only
    rw [hbehind, Bool.or_eq_true, decide_eq_true_iff, ih hlen, List.mem_cons]

end List

/-! ## Values that are taken out -/

section Array

variable {tokens validValues : List Str} {value head delim : Str}

theorem popValue_spec (value : Str) : ∀ validValues : List Str,
    (popValue value validValues = none ∧ value ∉ validValues) ∨
    ∃ rest, popValue value validValues = some rest ∧ validValues.Perm (value :: rest)
  | [] => .inl ⟨rfl, List.not_mem_nil⟩
  | cur :: validValues => by
    rw [popValue]
    by_cases hcur : value = cur
    · rw [if_pos hcur, hcur]
      exact .inr ⟨validValues, rfl, .refl _⟩
    · rw [if_neg hcur]
      obtain ⟨hnone, hmem⟩ | ⟨rest, hsome, hperm⟩ := popValue_spec value validValues
      · rw [hnone]
        exact .inl ⟨rfl, fun h => hmem ((List.mem_cons.mp h).resolve_left hcur)⟩
      · rw [hsome]
        exact .inr ⟨cur :: rest, rfl, (hperm.cons cur).trans (.swap value cur rest)⟩

/-- **Every token takes a value.** -/
theorem arrayLoop_iff : ∀ {tokens validValues : List Str} {isValid : Bool},
    arrayLoop tokens validValues isValid = true ↔ (tokens = [] → isValid = true) ∧ tokens.Subperm validValues
  | [], validValues, isValid => by
    rw [arrayLoop]
    exact ⟨fun h => ⟨fun _ => h, List.nil_subperm⟩, fun h => h.1 rfl⟩
  | value :: tokens, validValues, isValid => by
    rw [arrayLoop, and_iff_right fun hnil => by cases hnil]
    obtain ⟨hnone, hmem⟩ | ⟨rest, hsome, hperm⟩ := popValue_spec value validValues
    · rw [hnone]
      exact iff_of_false Bool.false_ne_true fun hsub => hmem (hsub.subset List.mem_cons_self)
    · rw [hsome, hperm.subperm_left, List.subperm_cons]
      exact arrayLoop_iff.trans (and_iff_right fun _ => rfl)

theorem subperm_of_head (h : head ∉ tokens) : tokens.Subperm (head :: validValues) ↔ tokens.Subperm validValues := by
  constructor
  · rintro ⟨l, hperm, hsub⟩
    cases hsub with
    | cons _ hsub => exact ⟨l, hperm, hsub⟩
    | cons_cons _ hsub => exact absurd (hperm.subset List.mem_cons_self) h
  · exact fun hsub => hsub.trans (List.sublist_cons_self head validValues).subperm

end Array

/-! ## Values that are accepted -/

/-- The value is accepted: the next key is looked at. -/
def Accepts (key : Key) : Prop := ∀ env returned parentKey,
  elektraEnumSet env (key :: returned) parentKey = elektraEnumSet env returned parentKey

def Rejects (key : Key) : Prop := ∀ env returned parentKey, ∃ failed,
  elektraEnumSet env (key :: returned) parentKey = some (-1, failed)

/-- The value is accepted exactly where `p` holds. -/
def Decides (key : Key) (p : Prop) : Prop := (p → Accepts key) ∧ (¬ p → Rejects key)

/-- The values of `check/enum`, as a list. -/
def InList (key : Key) (vs : List Str) : Prop :=
  ∃ s, keyGetMeta key (str "check/enum") = some s ∧ IsList vs s

/-- The values below `check/enum`, as an array. -/
structure InArray (key : Key) (last : Str) (vs : List Str) : Prop where
  get : keyGetMeta key (str "check/enum") = some last
  hash : last.head? = some 35
  links : IsLinks key (str "check/enum/") 0 vs
  short : vs.length < 10 ^ 10

def multi (key : Key) : Option Str := keyGetMeta key (str "check/enum/multi")

/-- The non-empty elements of the value. -/
def elements (key : Key) (delim : UInt8) : List Str := ((keyString key).splitOn delim).filter (· ≠ [])

section Accept

variable {key key' : Key} {last : Str} {vs : List Str} {delim : UInt8} {p : Prop} {ret : ℤ} {b : Bool}

theorem accepts_of (h : validateKey key = some ret) (hret : ret ≠ 0) : Accepts key := fun env returned parentKey => by
  rw [elektraEnumSet, h]
  exact if_neg hret

theorem rejects_of (h : validateKey key = some 0) : Rejects key := fun env returned parentKey => by
  rw [elektraEnumSet, h]
  exact ⟨_, if_pos rfl⟩

theorem decides_of (h : validateKey key = some (if b = true then 1 else 0)) (hb : b = true ↔ p) : Decides key p := by
  refine ⟨fun hp => accepts_of h ?_, fun hp => rejects_of ?_⟩
  · rw [if_pos (hb.mpr hp)]
    exact one_ne_zero
  · rw [h, if_neg fun htrue => hp (hb.mp htrue)]

theorem Decides.accepts_iff (h : Decides key p) : Accepts key ↔ p := by
  refine ⟨fun haccepts => by_contra fun hp => ?_, h.1⟩
  obtain ⟨failed, hrejects⟩ := h.2 hp Line.unreported [] keyNew
  cases (haccepts Line.unreported [] keyNew).symm.trans hrejects

theorem IsList.head {s : Str} (h : IsList vs s) : s.head? ≠ some 35 := by
  have hquote : ∀ {ws t : Str}, (∀ c ∈ ws, isspace c = true) → (ws ++ 39 :: t).head? ≠ some 35 := by
    intro ws t hws
    cases ws with
    | nil => exact fun hc => absurd (Option.some.inj hc) (by decide)
    | cons c ws =>
      intro hc
      have hspace := hws c List.mem_cons_self
      rw [Option.some.inj hc] at hspace
      exact absurd hspace (by decide)
  cases h with
  | last _ hws => exact hquote fun c hc => hws c (List.mem_append_left _ hc)
  | cons _ hws _ => exact hquote fun c hc => hws c (List.mem_append_left _ hc)

/-- **A list accepts a single value that stands in it.** -/
theorem decides_list (h : InList key vs) (hmulti : multi key = none) : Decides key (keyString key ∈ vs) := by
  obtain ⟨s, hget, hlist⟩ := h
  refine decides_of (b := listLoop (keyString key) (s.length + 1) s) ?_ (listLoop_iff hlist _ (Nat.lt_succ_self _))
  rw [validateKey, hget]
  dsimp only
  rw [if_pos hlist.head, validateWithList, hget, ← multi, hmulti]
  rfl

/-- With a delimiter, a list accepts a value if one of its elements stands in it. -/
theorem decides_list_multi (h : InList key vs) (hmulti : multi key = some [delim]) :
    Decides key (∃ elem ∈ elements key delim, elem ∈ vs) := by
  obtain ⟨s, hget, hlist⟩ := h
  refine decides_of (b := ((keyString key).splitOn delim).any fun elem =>
    elem ≠ [] && listLoop elem (s.length + 1) s) ?_ ?_
  · rw [validateKey, hget]
    dsimp only
    rw [if_pos hlist.head, validateWithList, hget, ← multi, hmulti]
    rfl
  · simp only [elements, List.any_eq_true, Bool.and_eq_true, decide_eq_true_iff, List.mem_filter, and_assoc,
      listLoop_iff hlist _ (Nat.lt_succ_self _)]

theorem decides_array_tokens (h : InArray key last vs) : Decides key
    (strtok (keyString key) ((multi key).getD []) ≠ [] ∧
      (strtok (keyString key) ((multi key).getD [])).Subperm (last :: vs)) := by
  have hks := elektraMetaArrayToKS_total h.get h.hash h.links h.short
  refine decides_of (b := arrayLoop (strtok (keyString key) ((multi key).getD [])) (last :: vs) false) ?_ ?_
  · rw [validateKey, h.get]
    dsimp only
    rw [if_neg (not_not.mpr h.hash), validateWithArray, hks, Option.map_some, Option.elim_some, map_snd_elements, multi]
  · rw [arrayLoop_iff]
    exact and_congr_left' ⟨fun hne hnil => Bool.false_ne_true (hne hnil), fun hne hnil => absurd hnil hne⟩

/-- **An array accepts a single value that is one of its elements**, but for the empty value and that of the array. -/
theorem decides_array (h : InArray key last vs) (hmulti : multi key = none) (hempty : keyString key = [] → [] ∉ vs)
    (hlast : keyString key = last → last ∈ vs) : Decides key (keyString key ∈ vs) := by
  have hdecides := decides_array_tokens h
  have hsplit : (keyString key).splitOnP (fun c => ([] : Str).contains c) = [keyString key] :=
    List.splitOnP_eq_singleton fun _ _ => rfl
  rw [hmulti, Option.getD_none, strtok, hsplit] at hdecides
  by_cases hnil : keyString key = []
  · rw [hnil] at hdecides ⊢
    exact ⟨fun hmem => absurd hmem (hempty hnil), fun _ => hdecides.2 fun h => h.1 rfl⟩
  · have hfilter : [keyString key].filter (· ≠ []) = [keyString key] :=
      List.filter_eq_self.mpr fun s hs => decide_eq_true (by
        rw [List.mem_singleton.mp hs]
        exact hnil)
    rw [hfilter, List.singleton_subperm_iff, List.mem_cons, and_iff_right (List.cons_ne_nil _ _)] at hdecides
    have hiff : keyString key = last ∨ keyString key ∈ vs ↔ keyString key ∈ vs :=
      or_iff_right_of_imp fun he => by
        rw [he]
        exact hlast he
    rwa [hiff] at hdecides

/-- **With a delimiter, every element of the value takes an element of the array.** -/
theorem decides_array_multi (h : InArray key last vs) (hmulti : multi key = some [delim])
    (hlast : last ∉ elements key delim) :
    Decides key (elements key delim ≠ [] ∧ (elements key delim).Subperm vs) := by
  have hdecides := decides_array_tokens h
  have htokens : strtok (keyString key) [delim] = elements key delim := by
    have hsep : (fun c => [delim].contains c) = (· == delim) := funext fun c => by
      rw [List.contains_cons, List.contains_nil, Bool.or_false]
    rw [strtok, hsep, elements, List.splitOn_eq_splitOnP]
  rw [hmulti, Option.getD_some, htokens, subperm_of_head hlast] at hdecides
  exact hdecides

/-- **What the two notations accept, and where they agree.** -/
theorem elektraEnumSet_decides (vs : List Str) :
    (∀ key, InList key vs → multi key = none → Decides key (keyString key ∈ vs)) ∧
    (∀ key last, InArray key last vs → multi key = none → (keyString key = [] → [] ∉ vs) →
      (keyString key = last → last ∈ vs) → Decides key (keyString key ∈ vs)) ∧
    (∀ key delim, InList key vs → multi key = some [delim] →
      (elements key delim ≠ [] → (∀ elem ∈ elements key delim, elem ∈ vs) → Accepts key) ∧
        ((∀ elem ∈ elements key delim, elem ∉ vs) → Rejects key)) ∧
    (∀ key last delim, InArray key last vs → multi key = some [delim] → last ∉ elements key delim →
      Decides key (elements key delim ≠ [] ∧ (elements key delim).Subperm vs)) ∧
    (∀ key key' last, InList key vs → InArray key' last vs → keyString key' = keyString key →
      multi key = none → multi key' = none → (keyString key = [] → [] ∉ vs) →
      (keyString key = last → last ∈ vs) → (Accepts key ↔ Accepts key')) ∧
    ∀ key key' last delim, InList key vs → InArray key' last vs → keyString key' = keyString key →
      multi key = some [delim] → multi key' = some [delim] → last ∉ elements key delim →
      (elements key delim).Nodup →
      (∀ elem ∈ elements key delim, elem ∈ vs) ∨ (∀ elem ∈ elements key delim, elem ∉ vs) →
      (Accepts key ↔ Accepts key') := by
  refine ⟨fun key => decides_list, fun key last => decides_array, fun key delim hlist hmulti => ?_,
    fun key last delim => decides_array_multi, fun key key' last hlist harray hsame hnone hnone' hempty hlast => ?_,
    fun key key' last delim hlist harray hsame hmulti hmulti' hlast hnodup hall => ?_⟩
  · have hdecides := decides_list_multi hlist hmulti
    refine ⟨fun hne hall => ?_, fun hno => hdecides.2 fun ⟨elem, helem, hmem⟩ => hno elem helem hmem⟩
    obtain ⟨elem, helem⟩ := List.exists_mem_of_ne_nil _ hne
    exact hdecides.1 ⟨elem, helem, hall elem helem⟩
  · rw [← hsame] at hempty hlast
    rw [(decides_list hlist hnone).accepts_iff, (decides_array harray hnone' hempty hlast).accepts_iff, hsame]
  · have helements : elements key' delim = elements key delim := by rw [elements, hsame, elements]
    rw [← helements] at hlast
    rw [(decides_list_multi hlist hmulti).accepts_iff, (decides_array_multi harray hmulti' hlast).accepts_iff, helements]
    constructor
    · rintro ⟨elem, helem, hmem⟩
      refine ⟨List.ne_nil_of_mem helem, hnodup.subperm fun elem' helem' => ?_⟩
      exact hall.resolve_right (fun hno => hno elem helem hmem) elem' helem'
    · rintro ⟨hne, hsub⟩
      obtain ⟨elem, helem⟩ := List.exists_mem_of_ne_nil _ hne
      exact ⟨elem, helem, hsub.subset helem⟩

end Accept

/-! ## Two keys -/

def sizes : List Str := [str "small", str "middle"]

/-- A list of two sizes. -/
def listKey (value : Str) (metadata : List (Str × Str)) : Key :=
  { Line.userKey with data := some value, metaKeys := (str "check/enum", str "'small', 'middle'") :: metadata }

/-- An array of two sizes. -/
def arrayKey (value : Str) (metadata : List (Str × Str)) : Key :=
  { Line.userKey with
    data := some value
    metaKeys := (str "check/enum", str "#1") :: (str "check/enum/#0", str "small") ::
      (str "check/enum/#1", str "middle") :: metadata }

theorem inList_listKey (value : Str) (metadata : List (Str × Str)) : InList (listKey value metadata) sizes := by
  refine ⟨str "'small', 'middle'", rfl, ?_⟩
  have hlast : IsList [str "middle"] ([32] ++ 39 :: (str "middle" ++ 39 :: [])) :=
    .last (by decide +kernel) (by decide +kernel)
  exact @IsList.cons (str "small") [] [] _ _ (by decide +kernel) (by decide +kernel) hlast

theorem inArray_arrayKey (value : Str) (metadata : List (Str × Str))
    (h : metadata.lookup (str "check/enum/" ++ elektraWriteArrayNumber 2) = none) :
    InArray (arrayKey value metadata) (str "#1") sizes :=
  ⟨rfl, by decide, ⟨rfl, rfl, h⟩, by decide⟩

/-- Two values, and one that is given twice. -/
theorem elektraEnumSet_sizes : Decides (listKey (str "small") []) (str "small" ∈ sizes) ∧
    Decides (arrayKey (str "middle_small") [(str "check/enum/multi", str "_")])
      (elements (arrayKey (str "middle_small") [(str "check/enum/multi", str "_")]) 95 ≠ [] ∧
        (elements (arrayKey (str "middle_small") [(str "check/enum/multi", str "_")]) 95).Subperm sizes) ∧
    Accepts (listKey (str "middle_small") [(str "check/enum/multi", str "_")]) ∧
    (Accepts (listKey (str "large") []) ↔ Accepts (arrayKey (str "large") [])) := by
  obtain ⟨hlist, -, hmulti, harray, hsame, -⟩ := elektraEnumSet_decides sizes
  exact ⟨hlist _ (inList_listKey _ _) rfl,
    harray _ _ _ (inArray_arrayKey _ _ (by decide)) rfl (by decide +kernel),
    (hmulti _ 95 (inList_listKey _ _) rfl).1 (by decide +kernel) (by decide +kernel),
    hsame _ _ _ (inList_listKey _ _) (inArray_arrayKey _ _ rfl) rfl rfl rfl (by decide +kernel) (by decide +kernel)⟩

/-- A value of the array that is given twice is not accepted, though every element is one of the values. -/
theorem not_elektraEnumSet_decides : InArray (arrayKey (str "middle_small_small") [(str "check/enum/multi", str "_")])
      (str "#1") sizes ∧
    ¬ Decides (arrayKey (str "middle_small_small") [(str "check/enum/multi", str "_")])
      (∀ elem ∈ elements (arrayKey (str "middle_small_small") [(str "check/enum/multi", str "_")]) 95, elem ∈ sizes) := by
  refine ⟨inArray_arrayKey _ _ (by decide), fun h => ?_⟩
  have hrun : (elektraEnumSet Line.unreported
      [arrayKey (str "middle_small_small") [(str "check/enum/multi", str "_")]] keyNew).map Prod.fst = some (-1) := by
    decide +kernel
  rw [h.1 (by decide +kernel) Line.unreported [] keyNew] at hrun
  cases hrun

end Elektra.Enum
