import Elektra.Tools.Database

/-!
# The arguments of a command line

The arguments are plugins, and configurations of the plugin before them.

* `parseArgumentList`: `parseArguments` for arguments that are separated already;
* `groups`: the plugins, each with the configurations behind it;
* `Parsed`: what is returned for the arguments;
* **`parseArgumentList_spec`**: the arguments are parsed so, or refused.
-/

namespace Elektra.Tools

/-- `parseArguments (first, last)` -/
def parseArgumentList (cmdline : List Str) : Except ResolveException (List PluginSpec) := do
  let (arguments, _) ← cmdline.foldlM processArgument ([], 0)
  fixArguments arguments

/-! ## What the arguments say -/

/-- Nothing but white space and commas -/
def Useless (argument : Str) : Prop := argument = [] ∨ argument.all (fun c => isspace c || c = 44) = true

instance (argument : Str) : Decidable (Useless argument) := inferInstanceAs (Decidable (_ ∨ _))

/-- The configurations before the first plugin, and the plugins with the configurations behind each of them. -/
def groups : List Str → List Str × List (Str × List Str)
  | [] => ([], [])
  | argument :: cmdline =>
    let (configs, plugins) := groups cmdline
    if Useless argument then (configs, plugins)
    else if (61 : UInt8) ∈ argument then (argument :: configs, plugins)
    else ([], (argument, configs) :: plugins)

/-- The keys of a configuration argument. -/
def argumentConfig (argument : Str) : List Key := parsePluginArguments argument.length argument []

/-- The configurations are appended one after the other. -/
def withConfigs (config : List Key) (configs : List Str) : List Key :=
  configs.foldl (fun config argument => (argumentConfig argument).foldl ksAppendValue config) config

/-- The specification for a plugin argument and its configurations: the name before the number sign, the reference
name behind it, if there is one, and the keys of these configurations. -/
structure Describes (group : Str × List Str) (spec : PluginSpec) : Prop where
  name : spec.name = group.1.takeWhile (· ≠ numberSign)
  refname : numberSign ∈ group.1 → spec.refname = (group.1.dropWhile (· ≠ numberSign)).tail
  config : spec.config = withConfigs [] group.2

/-- One specification for each plugin, in their order, with different reference names, of which the numbers are
consecutive. -/
structure Parsed (cmdline : List Str) (specs : List PluginSpec) : Prop where
  noConfigBefore : (groups cmdline).1 = []
  plugins : List.Forall₂ Describes (groups cmdline).2 specs
  distinct : (specs.map PluginSpec.refname).Nodup
  numbers : ∃ n, (specs.filter PluginSpec.isRefNumber).map PluginSpec.refname = (List.range n).map digits

/-! ## Reference names -/

theorem digits_injective {m n : ℕ} (h : digits m = digits n) : m = n := by
  rw [← atoi_digits m, h, atoi_digits]

theorem isRefNumber_setRefNumber (ps : PluginSpec) (n : ℕ) : (ps.setRefNumber n).isRefNumber = true :=
  List.all_eq_true.mpr (isdigit_digits n)

theorem not_isdigit_of_isLetter {c : UInt8} (h : isLetter c = true) : isdigit c = false := by
  simp only [isLetter, Bool.and_eq_true, decide_eq_true_eq, UInt8.le_iff_toNat_le] at h
  simp only [isdigit, Bool.and_eq_false_iff, decide_eq_false_iff_not, UInt8.le_iff_toNat_le]
  have h97 : UInt8.toNat 97 = 97 := rfl
  have h57 : UInt8.toNat 57 = 57 := rfl
  omega

theorem not_number_of_validate {n : Str} (h : validate n = true) : n.all isdigit = false := by
  cases n with
  | nil => cases h
  | cons c n =>
    rw [validate, Bool.and_eq_true] at h
    rw [List.all_cons, not_isdigit_of_isLetter h.1, Bool.false_and]

/-! ## The arguments one after the other -/

/-- The configurations of the last plugin. -/
def appendLast (specs : List PluginSpec) (configs : List Str) : List PluginSpec :=
  match specs.getLast? with
  | none => specs
  | some ps => specs.dropLast ++ [{ ps with config := withConfigs ps.config configs }]

theorem appendLast_nil (specs : List PluginSpec) : appendLast specs [] = specs := by
  rw [appendLast]
  cases h : specs.getLast? with
  | none => rfl
  | some ps =>
    obtain ⟨init, rfl⟩ := List.getLast?_eq_some_iff.mp h
    dsimp only
    rw [List.dropLast_concat]
    rfl

theorem appendLast_concat (specs : List PluginSpec) (ps : PluginSpec) (configs : List Str) :
    appendLast (specs ++ [ps]) configs = specs ++ [{ ps with config := withConfigs ps.config configs }] := by
  rw [appendLast, List.getLast?_concat, List.dropLast_concat]

/-- `Describes`, with an explicit reference name that is no number. -/
def Read (group : Str × List Str) (spec : PluginSpec) : Prop :=
  Describes group spec ∧ (numberSign ∈ group.1 → spec.isRefNumber = false)

theorem validated_self {n : Str} {v : {n : Str // validate n = true}} (h : PluginSpec.validated n = .ok v) : v.1 = n := by
  rw [PluginSpec.validated] at h
  split_ifs at h
  rw [← Except.ok.inj h]

theorem validated_error {n : Str} {e : ResolveException} (h : PluginSpec.validated n = .error e) :
    ∃ name, e = .badPluginName name := by
  rw [PluginSpec.validated] at h
  split_ifs at h
  all_goals exact ⟨_, (Except.error.inj h).symm⟩

theorem mem_iff_dropWhile {c : UInt8} {s : Str} : c ∈ s ↔ s.dropWhile (· ≠ c) ≠ [] := by
  rw [ne_eq, List.dropWhile_eq_nil_iff]
  push Not
  simp

/-- **A plugin argument is read**, or its name or reference name is not valid. -/
theorem ofFullName_cases (argument : Str) :
    (∃ ps, PluginSpec.ofFullName argument = .ok ps ∧ Read (argument, []) ps ∧ ps.config = []) ∨
    ∃ name, PluginSpec.ofFullName argument = .error (.badPluginName name) := by
  rw [PluginSpec.ofFullName]
  have hmem := @mem_iff_dropWhile numberSign argument
  cases hrest : argument.dropWhile (· ≠ numberSign) with
  | nil =>
    have hmem : numberSign ∉ argument := fun h => hmem.mp h hrest
    cases hn : PluginSpec.validated argument with
    | error e =>
      obtain ⟨name, rfl⟩ := validated_error hn
      exact Or.inr ⟨name, rfl⟩
    | ok n =>
      have hname := validated_self hn
      have htake : argument.takeWhile (· ≠ numberSign) = argument := by
        have h := List.takeWhile_append_dropWhile (p := (· ≠ numberSign)) (l := argument)
        rwa [hrest, List.append_nil] at h
      refine Or.inl ⟨PluginSpec.ofName n.1 n.2, rfl, ⟨⟨?_, fun h => absurd h hmem, rfl⟩, fun h => absurd h hmem⟩, rfl⟩
      exact hname.trans htake.symm
  | cons c rn =>
    dsimp only
    cases hn : PluginSpec.validated (argument.takeWhile (· ≠ numberSign)) with
    | error e =>
      obtain ⟨name, rfl⟩ := validated_error hn
      exact Or.inr ⟨name, rfl⟩
    | ok n =>
      cases hr : PluginSpec.validated rn with
      | error e =>
        obtain ⟨name, rfl⟩ := validated_error hr
        exact Or.inr ⟨name, rfl⟩
      | ok r =>
        refine Or.inl ⟨⟨n.1, r.1, [], n.2, PluginSpec.validRefName_name r.2⟩, rfl, ⟨⟨validated_self hn, fun _ => ?_, rfl⟩,
          fun _ => not_number_of_validate r.2⟩, rfl⟩
        rw [hrest]
        exact validated_self hr

theorem processArgument_useless {argument : Str} (h : Useless argument) (arguments : List PluginSpec × ℕ) :
    processArgument arguments argument = .ok arguments := if_pos h

/-- **A plugin is added behind the others**, or its name is not valid. -/
theorem processArgument_plugin {argument : Str} (hu : ¬ Useless argument) (hmem : (61 : UInt8) ∉ argument)
    (specs : List PluginSpec) (c : ℕ) :
    (∃ ps c', processArgument (specs, c) argument = .ok (specs ++ [ps], c') ∧ Read (argument, []) ps ∧
      ps.config = []) ∨
    ∃ name, processArgument (specs, c) argument = .error (.badPluginName name) := by
  have hu : ¬ (argument = [] ∨ (argument.all fun c => isspace c || c = 44) = true) := hu
  rw [processArgument, if_neg hu, if_pos hmem]
  obtain ⟨ps, hps, hread, hconfig⟩ | ⟨name, hps⟩ := ofFullName_cases argument
  · rw [hps]
    by_cases hsign : numberSign ∈ argument
    · exact Or.inl ⟨ps, c, if_neg (not_not.mpr hsign), hread, hconfig⟩
    · refine Or.inl ⟨ps.setRefNumber c, c + 1, if_pos hsign, ⟨⟨hread.1.name, fun h => absurd h hsign, hread.1.config⟩,
        fun h => absurd h hsign⟩, hconfig⟩
  · rw [hps]
    exact Or.inr ⟨name, rfl⟩

/-- **A configuration is added to the last plugin**, or there is none. -/
theorem processArgument_config {argument : Str} (hu : ¬ Useless argument) (hmem : (61 : UInt8) ∈ argument)
    (specs : List PluginSpec) (c : ℕ) :
    (specs ≠ [] ∧ processArgument (specs, c) argument = .ok (appendLast specs [argument], c)) ∨
    (specs = [] ∧ ∃ m, processArgument (specs, c) argument = .error (.parse m)) := by
  have hu : ¬ (argument = [] ∨ (argument.all fun c => isspace c || c = 44) = true) := hu
  rw [processArgument, if_neg hu, if_neg (not_not.mpr hmem)]
  cases h : specs.getLast? with
  | none => exact Or.inr ⟨List.getLast?_eq_none_iff.mp h, _, rfl⟩
  | some ps =>
    obtain ⟨init, rfl⟩ := List.getLast?_eq_some_iff.mp h
    refine Or.inl ⟨by simp, ?_⟩
    rw [appendLast_concat, List.dropLast_concat]
    rfl

theorem appendLast_cons {specs : List PluginSpec} (hne : specs ≠ []) (argument : Str) (configs : List Str) :
    appendLast (appendLast specs [argument]) configs = appendLast specs (argument :: configs) := by
  obtain ⟨init, ps, rfl⟩ := (List.eq_nil_or_concat' specs).resolve_left hne
  rw [appendLast_concat, appendLast_concat, appendLast_concat]
  rfl

/-- **What the loop over the arguments reads**, from the plugins that are there already. -/
theorem foldlM_processArgument (cmdline : List Str) (specs : List PluginSpec) (c : ℕ) :
    (∃ new c', cmdline.foldlM processArgument (specs, c) = .ok (appendLast specs (groups cmdline).1 ++ new, c') ∧
      List.Forall₂ Read (groups cmdline).2 new ∧ ((groups cmdline).1 ≠ [] → specs ≠ [])) ∨
    ∃ e, cmdline.foldlM processArgument (specs, c) = .error e ∧
      ((∃ m, e = .parse m) ∨ ∃ name, e = .badPluginName name) := by
  induction cmdline generalizing specs c with
  | nil => exact Or.inl ⟨[], c, by rw [groups, appendLast_nil, List.append_nil]; rfl, .nil, fun h => absurd rfl h⟩
  | cons argument cmdline ih =>
    rw [List.foldlM_cons, groups]
    dsimp only
    by_cases hu : Useless argument
    · rw [if_pos hu, processArgument_useless hu]
      exact ih specs c
    rw [if_neg hu]
    by_cases hmem : (61 : UInt8) ∈ argument
    · rw [if_pos hmem]
      obtain ⟨hne, hrun⟩ | ⟨-, m, hrun⟩ := processArgument_config hu hmem specs c
      · rw [hrun]
        obtain ⟨new, c', hrest, hread, -⟩ | ⟨e, hrest, he⟩ := ih (appendLast specs [argument]) c
        · refine Or.inl ⟨new, c', hrest.trans ?_, hread, fun _ => hne⟩
          rw [appendLast_cons hne]
        · exact Or.inr ⟨e, hrest, he⟩
      · rw [hrun]
        exact Or.inr ⟨_, rfl, Or.inl ⟨m, rfl⟩⟩
    · rw [if_neg hmem]
      obtain ⟨ps, c', hrun, hread, hconfig⟩ | ⟨name, hrun⟩ := processArgument_plugin hu hmem specs c
      · rw [hrun]
        obtain ⟨new, c'', hrest, hreads, -⟩ | ⟨e, hrest, he⟩ := ih (specs ++ [ps]) c'
        · refine Or.inl ⟨{ ps with config := withConfigs ps.config (groups cmdline).1 } :: new, c'', hrest.trans ?_,
            .cons ⟨⟨hread.1.name, hread.1.refname, ?_⟩, hread.2⟩ hreads, fun h => absurd rfl h⟩
          · rw [appendLast_concat, appendLast_nil, List.append_assoc]
            rfl
          · dsimp only
            rw [hconfig]
        · exact Or.inr ⟨e, hrest, he⟩
      · rw [hrun]
        exact Or.inr ⟨_, rfl, Or.inr ⟨name, rfl⟩⟩

/-! ## Fixing the reference names -/

/-- A reference name that is no number is kept, as are the name and the configuration. -/
structure Renamed (a b : PluginSpec) : Prop where
  name : b.name = a.name
  config : b.config = a.config
  refname : a.isRefNumber = false → b.refname = a.refname

theorem Renamed.refl (a : PluginSpec) : Renamed a a := ⟨rfl, rfl, fun _ => rfl⟩

/-- **The first loop**: the reference names it leaves are different, or it throws. -/
theorem fixNames_cases (fixed arguments : List PluginSpec) (h : (fixed.map PluginSpec.refname).Nodup) :
    (∃ new, fixNames fixed arguments = .ok (fixed ++ new) ∧ List.Forall₂ Renamed arguments new ∧
      ((fixed ++ new).map PluginSpec.refname).Nodup) ∨
    ∃ m, fixNames fixed arguments = .error (.parse m) := by
  induction arguments generalizing fixed with
  | nil => exact Or.inl ⟨[], by rw [fixNames, List.append_nil], .nil, by rwa [List.append_nil]⟩
  | cons a arguments ih =>
    obtain ⟨b, hb⟩ : ∃ b, b = if ((fixed ++ a :: arguments).countP fun spec => spec.name = a.name) = 1 ∧ a.isRefNumber then
        { a with refname := a.name, validRef := PluginSpec.validRefName_name a.validName } else a := ⟨_, rfl⟩
    have hrenamed : Renamed a b := by
      rw [hb]
      split_ifs with hcond
      · exact ⟨rfl, rfl, fun hno => absurd hcond.2 (by rw [hno]; exact Bool.false_ne_true)⟩
      · exact Renamed.refl a
    have hrun : fixNames fixed (a :: arguments) =
        if 1 < (fixed ++ b :: arguments).countP fun spec => spec.refname = b.refname then
          .error (.parse (str "identical reference names found for plugin: " ++ b.getFullName))
        else fixNames (fixed ++ [b]) arguments := by
      rw [fixNames, hb]
    rw [hrun]
    split_ifs with hidentical
    · exact Or.inr ⟨_, rfl⟩
    · -- `b` itself is the only one with its reference name
      have hnew : b.refname ∉ fixed.map PluginSpec.refname := by
        intro hmem
        obtain ⟨x, hx, he⟩ := List.mem_map.mp hmem
        have hpos : 0 < fixed.countP fun spec => spec.refname = b.refname :=
          List.countP_pos_iff.mpr ⟨x, hx, decide_eq_true he⟩
        have hself : (b :: arguments).countP (fun spec => spec.refname = b.refname) =
            arguments.countP (fun spec => spec.refname = b.refname) + 1 :=
          List.countP_cons_of_pos (decide_eq_true rfl)
        rw [List.countP_append, hself] at hidentical
        omega
      have hnodup : ((fixed ++ [b]).map PluginSpec.refname).Nodup := by
        rw [List.map_append, List.map_singleton]
        exact List.nodup_append.mpr ⟨h, List.nodup_singleton _, fun x hx y hy he =>
          hnew (List.mem_singleton.mp hy ▸ he ▸ hx)⟩
      obtain ⟨new, hrest, hall, hdistinct⟩ | ⟨m, hrest⟩ := ih (fixed ++ [b]) hnodup
      · rw [List.append_assoc] at hrest hdistinct
        exact Or.inl ⟨b :: new, hrest, .cons hrenamed hall, hdistinct⟩
      · exact Or.inr ⟨m, hrest⟩

theorem fixCounter_renamed (counter : ℕ) (arguments : List PluginSpec) :
    List.Forall₂ Renamed arguments (fixCounter counter arguments) := by
  induction arguments generalizing counter with
  | nil => exact .nil
  | cons a arguments ih =>
    rw [fixCounter]
    split_ifs with hnumber
    · exact .cons ⟨rfl, rfl, fun hno => absurd hnumber (by rw [hno]; exact Bool.false_ne_true)⟩ (ih _)
    · exact .cons (Renamed.refl a) (ih _)

/-- **The second loop**: the numbers are consecutive. -/
theorem fixCounter_numbers (counter : ℕ) (arguments : List PluginSpec) : ∃ n,
    ((fixCounter counter arguments).filter PluginSpec.isRefNumber).map PluginSpec.refname =
      (List.range' counter n).map digits := by
  induction arguments generalizing counter with
  | nil => exact ⟨0, rfl⟩
  | cons a arguments ih =>
    rw [fixCounter]
    split_ifs with hnumber
    · obtain ⟨n, hn⟩ := ih (counter + 1)
      refine ⟨n + 1, ?_⟩
      rw [List.filter_cons_of_pos (isRefNumber_setRefNumber a counter), List.map_cons, hn, List.range'_succ]
      rfl
    · obtain ⟨n, hn⟩ := ih counter
      exact ⟨n, by rw [List.filter_cons_of_neg hnumber, hn]⟩

theorem mem_fixCounter {counter : ℕ} {arguments : List PluginSpec} {b : PluginSpec}
    (h : b ∈ fixCounter counter arguments) :
    (∃ k, counter ≤ k ∧ b.refname = digits k) ∨ b ∈ arguments ∧ ¬ b.isRefNumber = true := by
  induction arguments generalizing counter with
  | nil => cases h
  | cons a arguments ih =>
    rw [fixCounter] at h
    split_ifs at h with hnumber
    · obtain rfl | h := List.mem_cons.mp h
      · exact Or.inl ⟨counter, le_rfl, rfl⟩
      · obtain ⟨k, hk, he⟩ | ⟨hmem, hno⟩ := ih h
        · exact Or.inl ⟨k, by omega, he⟩
        · exact Or.inr ⟨List.mem_cons_of_mem a hmem, hno⟩
    · obtain rfl | h := List.mem_cons.mp h
      · exact Or.inr ⟨List.mem_cons_self, hnumber⟩
      · exact (ih h).imp_right fun ⟨hmem, hno⟩ => ⟨List.mem_cons_of_mem a hmem, hno⟩

theorem fixCounter_nodup (counter : ℕ) {arguments : List PluginSpec}
    (h : (arguments.map PluginSpec.refname).Nodup) :
    ((fixCounter counter arguments).map PluginSpec.refname).Nodup := by
  have hdigits : ∀ (b : PluginSpec) k, b.refname = digits k → b.isRefNumber = true := by
    intro b k hb
    rw [PluginSpec.isRefNumber, hb]
    exact List.all_eq_true.mpr (isdigit_digits k)
  induction arguments generalizing counter with
  | nil => exact List.nodup_nil
  | cons a arguments ih =>
    obtain ⟨ha, hrest⟩ := List.nodup_cons.mp h
    rw [fixCounter]
    split_ifs with hnumber <;> rw [List.map_cons, List.nodup_cons] <;> refine ⟨fun hmem => ?_, ih _ hrest⟩
    · obtain ⟨b, hb, he⟩ := List.mem_map.mp hmem
      obtain ⟨k, hk, hbk⟩ | ⟨-, hno⟩ := mem_fixCounter hb
      · have := digits_injective (hbk.symm.trans he)
        omega
      · exact hno (hdigits b counter he)
    · obtain ⟨b, hb, he⟩ := List.mem_map.mp hmem
      obtain ⟨k, -, hbk⟩ | ⟨hmem', -⟩ := mem_fixCounter hb
      · exact hnumber (hdigits a k (he.symm.trans hbk))
      · exact ha (List.mem_map.mpr ⟨b, hmem', he⟩)

/-! ## The whole command line -/

theorem Renamed.isRefNumber {a b : PluginSpec} (h : Renamed a b) (ha : a.isRefNumber = false) :
    b.isRefNumber = false := by
  rw [PluginSpec.isRefNumber, h.refname ha]
  exact ha

theorem Renamed.trans {a b c : PluginSpec} (hab : Renamed a b) (hbc : Renamed b c) : Renamed a c :=
  ⟨hbc.name.trans hab.name, hbc.config.trans hab.config,
    fun ha => (hbc.refname (hab.isRefNumber ha)).trans (hab.refname ha)⟩

theorem forall₂_comp {α β γ : Type} {R : α → β → Prop} {S : β → γ → Prop} {T : α → γ → Prop}
    (h : ∀ a b c, R a b → S b c → T a c) {l : List α} {m : List β} {n : List γ} (hR : List.Forall₂ R l m)
    (hS : List.Forall₂ S m n) : List.Forall₂ T l n := by
  induction hR generalizing n with
  | nil =>
    cases hS
    exact .nil
  | cons hab _ ih =>
    cases hS with
    | cons hbc hrest => exact .cons (h _ _ _ hab hbc) (ih hrest)

theorem Renamed.describes {group : Str × List Str} {a b : PluginSpec} (h : Renamed a b) (ha : Read group a) :
    Describes group b :=
  ⟨h.name.trans ha.1.name, fun hsign => (h.refname (ha.2 hsign)).trans (ha.1.refname hsign),
    h.config.trans ha.1.config⟩

/-- **The arguments are parsed, or refused**: a configuration before any plugin and equal reference names with the
exception for parsing, an invalid name with the one for names. -/
theorem parseArgumentList_spec (cmdline : List Str) :
    (∃ specs, parseArgumentList cmdline = .ok specs ∧ Parsed cmdline specs) ∨
    ∃ e, parseArgumentList cmdline = .error e ∧ ((∃ m, e = .parse m) ∨ ∃ name, e = .badPluginName name) := by
  obtain ⟨read, c, hread, hplugins, hbefore⟩ | ⟨e, hread, he⟩ := foldlM_processArgument cmdline [] 0
  · have hnone : (groups cmdline).1 = [] := by
      by_contra hne
      exact hbefore hne rfl
    rw [hnone, appendLast_nil, List.nil_append] at hread
    obtain ⟨named, hnames, hrenamed, hdistinct⟩ | ⟨m, hnames⟩ := fixNames_cases [] read List.nodup_nil
    · rw [List.nil_append] at hnames hdistinct
      have hrun : parseArgumentList cmdline = .ok (fixCounter 0 named) := by
        rw [parseArgumentList, hread]
        change (fixNames [] read >>= _) = _
        rw [hnames]
        rfl
      refine Or.inl ⟨_, hrun, hnone, ?_, fixCounter_nodup 0 hdistinct, ?_⟩
      · have hboth : List.Forall₂ Renamed read (fixCounter 0 named) :=
          forall₂_comp (fun _ _ _ h h' => h.trans h') hrenamed (fixCounter_renamed 0 named)
        exact forall₂_comp (fun _ _ _ h h' => h'.describes h) hplugins hboth
      · obtain ⟨n, hn⟩ := fixCounter_numbers 0 named
        exact ⟨n, by rw [hn, List.range_eq_range']⟩
    · refine Or.inr ⟨_, ?_, Or.inl ⟨m, rfl⟩⟩
      rw [parseArgumentList, hread]
      change (fixNames [] read >>= _) = _
      rw [hnames]
      rfl
  · refine Or.inr ⟨e, ?_, he⟩
    rw [parseArgumentList, hread]
    rfl

/-- A capital letter is no exception for parsing. -/
theorem not_parsed : ¬ ∀ cmdline, (∃ specs, parseArgumentList cmdline = .ok specs ∧ Parsed cmdline specs) ∨
    ∃ m, parseArgumentList cmdline = .error (.parse m) := by
  intro h
  have hrun : parseArgumentList [str "A"] = .error (.badPluginName (str "A")) := rfl
  obtain ⟨specs, hspecs, -⟩ | ⟨m, hm⟩ := h [str "A"]
  · rw [hrun] at hspecs
    cases hspecs
  · rw [hrun] at hm
    cases hm

end Elektra.Tools
