import Elektra.Name.BaseName

/-!
# Sequences of name functions

* `NameCall`, `Named`: the name functions, and the keys that sequences of successful calls reach;
* `Rereadable`: the name of the key is accepted again and gives the same key;
* `rereadable_iff`: a key at a path is, unless its path is a single part made of backslashes;
* `Fits`, `NameState`, `nameState_run`: the calls that stay clear of such names, and what they keep;
* **`rereadable_of_named`**.

The defect is that `elektraValidateKeyName` stops at the first byte of the path unseen: a path of
backslashes alone is accepted where its length is odd, and rejected where it is even.
-/

namespace Elektra

/-- A call of a name function. -/
inductive NameCall
  | setName (newName : Option CString)
  | addName (newName : Option CString)
  | addBaseName (baseName : CString)
  | setBaseName (baseName : CString)

def NameCall.run : NameCall → Key → ℤ × Key
  | setName newName, key => keySetName key (newName.map Subtype.val)
  | addName newName, key => keyAddName key (newName.map Subtype.val)
  | addBaseName baseName, key => keyAddBaseName key (some baseName.1)
  | setBaseName baseName, key => keySetBaseName key (some baseName.1)

/-- The keys that successful calls make of a new key, each call under the condition `C` on the key
before it. -/
inductive Named (C : Key → NameCall → Prop) : Key → Prop
  | new : Named C keyNew
  | call {key : Key} {c : NameCall} : Named C key → C key c → (c.run key).1 ≠ -1 →
      Named C (c.run key).2

/-- The name can be set again, and gives the same name and unescaped name. -/
def Rereadable (key : Key) : Prop :=
  (keySetName keyNew (some (keyName key))).1 ≠ -1 ∧
    keyName (keySetName keyNew (some (keyName key))).2 = keyName key ∧
    keyUnescapedName (keySetName keyNew (some (keyName key))).2 = keyUnescapedName key

/-- The name of a path can be set again, unless it is a single part made of backslashes. -/
theorem rereadable_iff {key : Key} {P : Path} (h : HasName key P) :
    Rereadable key ↔ ¬ BackslashPart P.escaped := by
  have hname : keyName key = P.name := by simp [keyName, h.key]
  rw [Rereadable, hname]
  obtain ⟨hret, hb⟩ | ⟨hret, hb, hk⟩ := @keySetName_name keyNew rfl P
  · exact ⟨fun hr => absurd hret hr.1, fun hn => absurd hb hn⟩
  · refine ⟨fun _ => hb, fun _ => ⟨hret, by simp [keyName, hk.key], ?_⟩⟩
    simp [keyUnescapedName, hk.key, h.key, hk.ukey, h.ukey]

/-! ## The calls that stay clear of the defect -/

/-- The levels of the name of a key, but for its root. -/
def levelsBelowRoot (key : Key) : List Str :=
  if (keyName key).head? = some pathSeparator then levels (keyName key)
  else (levels (keyName key)).tail

/-- No path is an odd number of backslashes, and no name becomes a root and a single part made of
backslashes. -/
def Fits (key : Key) : NameCall → Prop
  | .setName none | .addName none => True
  | .setName (some n) => ¬ OddRun (pathArgument n.1) ∧
      ¬ BackslashPart (pathReduce [] (levels (pathArgument n.1)))
  | .addName (some n) => ¬ OddRun n.1 ∧
      ¬ BackslashPart (pathReduce (levelsBelowRoot key) (levels n.1))
  | .addBaseName s => ¬ (levelsBelowRoot key = [] ∧ s.1 ≠ [] ∧ AllBackslashes s.1)
  | .setBaseName s => ¬ ((levelsBelowRoot key).length = 1 ∧ s.1 ≠ [] ∧ AllBackslashes s.1)

/-- What a sequence of calls keeps: no name yet, the empty name, or that of a path which is not a
single part made of backslashes. -/
inductive NameState (key : Key) : Prop
  | new (h : key.key = none)
  | empty (h : key.key = some []) (hu : key.ukey = [0])
  | path (P : Path) (h : HasName key P) (hb : ¬ BackslashPart P.escaped)

theorem levelsBelowRoot_eq {key : Key} {P : Path} (h : HasName key P) :
    levelsBelowRoot key = P.escaped := by
  have hname : keyName key = P.name := by simp [keyName, h.key]
  simp only [levelsBelowRoot, hname, P.head_name, P.levels_name]
  cases P.root <;> simp

theorem unescapeLevel_backslashes {n : ℕ} (hn : n ≠ 0) :
    unescapeLevel (elektraWriteBackslashes n) = elektraWriteBackslashes (n / 2) := by
  have hbegin := unescapeBegin_run (k := n) (t := []) (by simp [NoRun])
  have hloop := unescapeLoop_backslashes n 0 []
  rw [List.append_nil, if_neg hn, if_neg (by decide)] at hbegin
  rw [List.append_nil, Nat.zero_add] at hloop
  rw [unescapeLevel, hbegin, Option.getD_none, elektraUnescapeKeyNamePart, hloop, unescapeLoop]

theorem allBackslashes_escape {s : Str} (h : AllBackslashes (elektraEscapeKeyNamePart s)) :
    s ≠ [] ∧ AllBackslashes s := by
  have hlen := List.length_pos_of_ne_nil (isPart_escape s).ne_nil
  have hs := unescape_escape s
  rw [h, unescapeLevel_backslashes hlen.ne'] at hs
  refine ⟨?_, ?_⟩
  · rintro rfl
    exact absurd h (by decide)
  · rw [AllBackslashes, ← hs]
    simp [elektraWriteBackslashes]

theorem backslashPart_concat {ps : List Str} {p : Str} :
    BackslashPart (ps ++ [p]) ↔ ps = [] ∧ AllBackslashes p := by
  cases ps with
  | nil => simp [BackslashPart]
  | cons q ps => cases ps <;> simp [BackslashPart]

section Step

variable {key : Key} (hro : key.roName = false)

include hro

theorem setName_state {n : Option CString} (hfit : Fits key (.setName n))
    (hret : ((NameCall.setName n).run key).1 ≠ -1) :
    NameState ((NameCall.setName n).run key).2 ∧ ((NameCall.setName n).run key).2.roName = false := by
  have hempty : ∀ o : Option Str, keyGetNameNamespace o = .empty →
      NameState (keySetName key o).2 ∧ (keySetName key o).2.roName = false := by
    intro o ho
    have hrun : keySetName key o =
        (0, elektraFinalizeEmptyName (keySetOwner (elektraRemoveKeyName key) none)) := by
      simp only [keySetName, elektraKeySetName, hro, ho, Bool.false_eq_true, if_false]
    rw [hrun]
    exact ⟨.empty rfl rfl, (keySetOwner_roName _ _).trans hro⟩
  obtain _ | ⟨n, h0⟩ := n
  · exact hempty none rfl
  · by_cases hn : n = []
    · subst hn; exact hempty (some []) rfl
    · obtain ⟨h, -⟩ | ⟨-, -, hro', Q, hQ, -, he⟩ := keySetName_spec hro hn h0 hfit.1
      · exact absurd h hret
      · exact ⟨.path Q hQ (by rw [he]; exact hfit.2), hro'⟩

theorem addName_state (hs : NameState key) {n : Option CString} (hfit : Fits key (.addName n))
    (hret : ((NameCall.addName n).run key).1 ≠ -1) :
    NameState ((NameCall.addName n).run key).2 ∧ ((NameCall.addName n).run key).2.roName = false := by
  simp only [NameCall.run] at hret ⊢
  cases hs with
  | new h => simp [keyAddName, hro, h] at hret
  | empty h hu => simp [keyAddName, hro, h] at hret
  | path P h hb =>
    obtain ⟨c, t, hname⟩ := List.exists_cons_of_ne_nil P.name_ne_nil
    have hkey : key.key = some (c :: t) := h.key.trans (congrArg some hname)
    obtain _ | ⟨n, h0⟩ := n
    · have hrun : keyAddName key none = (0, key) := by simp [keyAddName, hro, hkey]
      exact hrun ▸ ⟨.path P h hb, hro⟩
    · by_cases hn : n = []
      · have hrun : keyAddName key (some n) = (0, key) := by simp [keyAddName, hro, hkey, hn]
        exact hrun ▸ ⟨.path P h hb, hro⟩
      · obtain ⟨hneg, -⟩ | ⟨-, -, hro', Q, hQ, -, he⟩ :=
          keyAddName_spec h.key h.keySize hro hn h0 hfit.1
        · exact absurd hneg hret
        · refine ⟨.path Q hQ ?_, hro'⟩
          have := hfit.2
          rwa [levelsBelowRoot_eq h, ← he] at this

theorem addBaseName_state (hs : NameState key) {s : CString} (hfit : Fits key (.addBaseName s))
    (hret : ((NameCall.addBaseName s).run key).1 ≠ -1) :
    NameState ((NameCall.addBaseName s).run key).2 ∧
      ((NameCall.addBaseName s).run key).2.roName = false := by
  simp only [NameCall.run] at hret ⊢
  cases hs with
  | new h => simp [keyAddBaseName, hro, h] at hret
  | empty h hu =>
    -- a base name added to the empty name gives a cascading name
    have hname : pathSeparator :: elektraEscapeKeyNamePart s.1 = (Path.mk .cascading [s]).name := by
      simp [Path.name, Path.stem, Path.escaped, Root.level]
    have hrun : (keyAddBaseName key (some s.1)).2 =
        elektraFinalizeName key (Path.mk .cascading [s]).name := by
      rw [← hname]
      simp [keyAddBaseName, hro, h]
    rw [hrun]
    refine ⟨.path _ (hasName_finalize key _) fun hb => hfit ⟨?_, allBackslashes_escape hb⟩, hro⟩
    simp [levelsBelowRoot, keyName, h]
  | path P h hb =>
    obtain ⟨-, hro', hk⟩ := keyAddBaseName_spec h hro s
    refine ⟨.path _ hk fun hb' => ?_, hro'⟩
    rw [Path.escaped_add, backslashPart_concat] at hb'
    exact hfit ⟨(levelsBelowRoot_eq h).trans hb'.1, allBackslashes_escape hb'.2⟩

theorem setBaseName_state (hs : NameState key) {s : CString} (hfit : Fits key (.setBaseName s))
    (hret : ((NameCall.setBaseName s).run key).1 ≠ -1) :
    NameState ((NameCall.setBaseName s).run key).2 ∧
      ((NameCall.setBaseName s).run key).2.roName = false := by
  simp only [NameCall.run] at hret ⊢
  cases hs with
  | new h => simp [keySetBaseName, hro, h] at hret
  | empty h hu => simp [keySetBaseName, hro, h] at hret
  | path P h hb =>
    obtain hp | ⟨Q, t, rfl⟩ := P.cases_parts
    · -- a root has no base name to replace
      have hroot : levels P.name = [] ∨
          (levels P.name).length = 1 ∧ P.name.head? ≠ some pathSeparator := by
        rw [P.levels_name, Ne, P.head_name]
        by_cases hr : P.root = .cascading <;> simp [hr, Path.escaped, hp]
      simp [keySetBaseName, hro, h.key, hroot] at hret
    · obtain ⟨-, hro', hk⟩ := keySetBaseName_spec h hro s
      refine ⟨.path _ hk fun hb' => ?_, hro'⟩
      rw [Path.escaped_add, backslashPart_concat] at hb'
      refine hfit ⟨?_, allBackslashes_escape hb'.2⟩
      rw [levelsBelowRoot_eq h, Path.escaped_add, hb'.1]
      rfl

theorem nameState_step (hs : NameState key) {c : NameCall} (hfit : Fits key c)
    (hret : (c.run key).1 ≠ -1) : NameState (c.run key).2 ∧ (c.run key).2.roName = false := by
  cases c with
  | setName n => exact setName_state hro hfit hret
  | addName n => exact addName_state hro hs hfit hret
  | addBaseName s => exact addBaseName_state hro hs hfit hret
  | setBaseName s => exact setBaseName_state hro hs hfit hret

end Step

theorem nameState_run {key : Key} (h : Named Fits key) : NameState key ∧ key.roName = false := by
  induction h with
  | new => exact ⟨.new rfl, rfl⟩
  | call _ hfit hret ih => exact nameState_step ih.2 ih.1 hfit hret

/-- **Every key that successful calls make, none of them near a path of backslashes alone, has a
canonical name.** -/
theorem rereadable_of_named {key : Key} (h : Named Fits key) : Rereadable key := by
  obtain ⟨hs, -⟩ := nameState_run h
  have hempty : keyName key = [] → keyUnescapedName key = [0] → Rereadable key := by
    intro hn hu
    rw [Rereadable, hn, hu]
    exact ⟨by decide, rfl, rfl⟩
  cases hs with
  | new h => exact hempty (by simp [keyName, h]) (by simp [keyUnescapedName, h])
  | empty h hu => exact hempty (by simp [keyName, h]) (by simp [keyUnescapedName, h, hu])
  | path P h hb => exact (rereadable_iff h).mpr hb

/-- `user/a` and the base name `..`. -/
theorem rereadable_of_named_dots :
    Rereadable (keyAddBaseName (keySetName keyNew (some (str "user/a"))).2 (some (str ".."))).2 :=
  rereadable_of_named <|
    .call (c := .addBaseName ⟨str "..", by decide⟩)
      (.call (c := .setName (some ⟨str "user/a", by decide⟩)) .new
        ⟨fun h => absurd h.1 (by decide), by decide⟩ (by decide))
      (fun h => absurd h.1 (by decide)) (by decide)

/-- The base name of one backslash below `user` gives a name that cannot be set. -/
theorem not_rereadable_backslash : ¬ ∀ key, Named (fun _ _ => True) key → Rereadable key := fun h =>
  absurd (h _ (.call (c := .addBaseName ⟨str "\\", by decide⟩)
    (.call (c := .setName (some ⟨str "user", by decide⟩)) .new trivial (by decide))
    trivial (by decide))).1 (by decide)

end Elektra
