import Elektra.KeySet.Cut
import Elektra.Lookup.Resolve
import Elektra.Search.Buffer

/-!
# The names of elektraLookupBySpecNamespaces

The name of a namespace is written before the search name, into a buffer with room for the longest one.
What is written there are the values of `namespace/#0` and on, that nothing has checked.

* `buildName`: a round on the bytes of the buffer;
* **`buildName_eq`**, `buildName_long`, `specNamespacesLoop_round`: the name of the round, and when it does
  not fit;
* `NamespaceValue`, `ExactKey`, **`exactKey_iff`**: values that stand for themselves;
* **`namespaces_exact_iff`**.
-/

namespace Elektra

open Buffer

/-- `sizeof ("system")` -/
def ELEKTRA_MAX_NAMESPACE_SIZE : ℕ := 7

/-- The bytes from a pointer up to the NUL. -/
def cString (buf : Str) (start : ℕ) : Str := (buf.drop start).takeWhile (· ≠ 0)

/-- The names of a round: the value `m` before the search name, both in the buffer `newname`; `none`
where a write is outside of it. -/
def buildName (newname name m : Str) (specKey : Key) : Option (Str × Key) := do
  let namespaceSize : ℕ := m.length + 1
  let startOfName : ℤ := ELEKTRA_MAX_NAMESPACE_SIZE - namespaceSize
  -- `strncpy`
  let newname ← writeAt newname startOfName (m ++ [0])
  -- `strcpy`
  let newname ← writeAt newname (ELEKTRA_MAX_NAMESPACE_SIZE - 1) (name ++ [0])
  let keySize : ℕ := name.length + namespaceSize
  -- `elektraFinalizeName`, whose unescaped name is behind the name
  let newname ← writeAt newname (startOfName + keySize - 1) [0]
  let key := cString newname startOfName.toNat
  let newname ← writeAt newname (startOfName + keySize) (elektraUnescapeKeyName key)
  some (newname,
    { specKey with
      key := some (cString newname startOfName.toNat)
      keySize := keySize
      ukey := (newname.drop (startOfName + keySize).toNat).take (elektraUnescapeKeyName key).length
      keyUSize := (elektraUnescapeKeyName key).length
      sync := true })

/-! ## Unescaped levels -/

theorem length_unescapeLoop_le : ∀ (s : Str) (n : ℕ), (unescapeLoop n s).length ≤ n + s.length
  | [], n => by
    rw [unescapeLoop, elektraWriteBackslashes, List.length_replicate]
    exact (Nat.div_le_self n 2).trans (Nat.le_add_right n _)
  | c :: s, n => by
    have hnext := length_unescapeLoop_le s (n + 1)
    have hrest := length_unescapeLoop_le s 0
    rw [unescapeLoop]
    split_ifs <;> simp [elektraWriteBackslashes] <;> omega

theorem length_unescapeLevel_le (p : Str) : (unescapeLevel p).length ≤ p.length := by
  have hloop := length_unescapeLoop_le p 0
  rw [Nat.zero_add] at hloop
  obtain ⟨k, t, ht, rfl⟩ := exists_run p
  rw [unescapeLevel, unescapeBegin_run ht]
  split_ifs
  · exact Nat.zero_le _
  · exact hloop
  · simp [elektraWriteBackslashes]
  · exact hloop

theorem count_backslashes (n : ℕ) : (elektraWriteBackslashes n).count pathSeparator = 0 :=
  List.count_eq_zero.mpr fun h => absurd (List.eq_of_mem_replicate h) separator_ne_escape

theorem count_unescapeLoop : ∀ (s : Str) (n : ℕ),
    (unescapeLoop n s).count pathSeparator = s.count pathSeparator
  | [], n => count_backslashes _
  | c :: s, n => by
    have hnext := count_unescapeLoop s (n + 1)
    have hrest := count_unescapeLoop s 0
    rw [unescapeLoop]
    split_ifs with hc hs
    · rw [hnext, List.count_cons_of_ne (hc.symm ▸ separator_ne_escape.symm)]
    · rw [List.count_append, count_backslashes, Nat.zero_add, hs, List.count_cons_self, List.count_cons_self, hrest]
    · rw [List.count_append, count_backslashes, Nat.zero_add, List.count_cons_of_ne hs, List.count_cons_of_ne hs, hrest]

theorem count_unescapeLevel (p : Str) : (unescapeLevel p).count pathSeparator = p.count pathSeparator := by
  have hloop := count_unescapeLoop p 0
  obtain ⟨k, t, ht, rfl⟩ := exists_run p
  rw [unescapeLevel, unescapeBegin_run ht]
  split_ifs with hk hspecial hspecial
  · obtain rfl | rfl := hspecial
    · rw [hk]
      rfl
    · rw [hk]
      rfl
  · exact hloop
  · rw [Option.getD_some, List.count_append, List.count_append, count_backslashes, count_backslashes]
  · exact hloop

theorem length_flatMap_levels (s : Str) : s.head? = some pathSeparator ∧
      ((levels s).flatMap fun level => unescapeLevel level ++ [0]).length ≤ s.length ∨
    s.head? ≠ some pathSeparator ∧
      ((levels s).flatMap fun level => unescapeLevel level ++ [0]).length ≤ s.length + 1 := by
  induction s using levels_induction with
  | nil => exact .inr ⟨by simp, by simp⟩
  | sep s ih =>
    refine .inl ⟨rfl, ?_⟩
    rw [levels_separator, List.length_cons]
    exact ih.elim (fun h => h.2.trans (Nat.le_succ _)) fun h => h.2
  | level p s hp hs ih =>
    obtain ⟨c, q, hq, hc⟩ := hp.cons
    have hlen := length_unescapeLevel_le p
    refine .inr ⟨by simpa [hq] using hc, ?_⟩
    rw [levels_cons hp hs, List.flatMap_cons, List.length_append, List.length_append, List.length_append,
      List.length_singleton]
    obtain rfl | ⟨-, t, rfl⟩ := hs
    · simpa using hlen
    · have hrest := (ih.resolve_right fun h => h.1 rfl).2
      omega

theorem length_unescapeKeyName_le (s : Str) : (elektraUnescapeKeyName s).length ≤ s.length + 1 := by
  rw [elektraUnescapeKeyName, List.length_append]
  obtain ⟨hhead, hlen⟩ | ⟨hhead, hlen⟩ := length_flatMap_levels s
  · rw [if_pos hhead, List.length_singleton]
    omega
  · rw [if_neg hhead, List.length_nil]
    omega

/-! ## The bytes of a round -/

section Round

variable {newname name m : Str} {specKey : Key}

theorem cString_append {pre s post : Str} {start : ℕ} (hstart : pre.length = start) (hs : 0 ∉ s) :
    cString (pre ++ (s ++ 0 :: post)) start = s := by
  have hbytes : ∀ a ∈ s, decide (a ≠ 0) = true := fun a ha =>
    decide_eq_true fun h0 => hs (h0 ▸ ha)
  rw [cString, ← hstart, List.drop_left, List.takeWhile_append_of_pos hbytes, List.takeWhile_cons_of_neg (by decide),
    List.append_nil]

/-- **A value that fits is written before the name.** -/
theorem buildName_eq (hsize : newname.length = (name.length + ELEKTRA_MAX_NAMESPACE_SIZE) * 2)
    (hname : 0 ∉ name) (hm : 0 ∉ m) (hfits : m.length < ELEKTRA_MAX_NAMESPACE_SIZE) (specKey : Key) :
    ∃ newname', newname'.length = newname.length ∧
      buildName newname name m specKey = some (newname', elektraFinalizeName specKey (m ++ name)) := by
  have hmax : ELEKTRA_MAX_NAMESPACE_SIZE = 7 := rfl
  have huname := length_unescapeKeyName_le (m ++ name)
  rw [List.length_append] at huname
  -- the parts of the buffer: what is before, the value, the name with its NUL, and the unescaped name
  obtain ⟨pre, rest, rfl, hpre⟩ := exists_append (by omega : 6 - m.length ≤ newname.length)
  rw [List.length_append] at hsize
  obtain ⟨a, rest, rfl, ha⟩ := exists_append (by omega : m.length ≤ rest.length)
  rw [List.length_append] at hsize
  obtain ⟨b, rest, rfl, hb⟩ := exists_append (by omega : 1 ≤ rest.length)
  rw [List.length_append] at hsize
  obtain ⟨c, rest, rfl, hc⟩ := exists_append (by omega : name.length ≤ rest.length)
  rw [List.length_append] at hsize
  obtain ⟨d, post, rfl, hd⟩ :=
    exists_append (by omega : (elektraUnescapeKeyName (m ++ name)).length ≤ rest.length)
  have hvalue : writeAt (pre ++ (a ++ (b ++ (c ++ (d ++ post))))) (ELEKTRA_MAX_NAMESPACE_SIZE - (m.length + 1 : ℕ))
      (m ++ [0]) = some (pre ++ (m ++ (0 :: (c ++ (d ++ post))))) := by
    have hwrite := @writeAt_append _ pre (a ++ b) (c ++ (d ++ post)) (m ++ [0])
      (ELEKTRA_MAX_NAMESPACE_SIZE - (m.length + 1 : ℕ)) (by omega) (by simp [ha, hb])
    simpa using hwrite
  have hjoin : writeAt (pre ++ (m ++ (0 :: (c ++ (d ++ post))))) (ELEKTRA_MAX_NAMESPACE_SIZE - 1)
      (name ++ [0]) = some (pre ++ (m ++ (name ++ (0 :: (d ++ post))))) := by
    have hwrite := @writeAt_append _ (pre ++ m) (0 :: c) (d ++ post) (name ++ [0])
      (ELEKTRA_MAX_NAMESPACE_SIZE - 1) (by simp [hpre]; omega) (by simp [hc])
    simpa using hwrite
  have hend : writeAt (pre ++ (m ++ (name ++ (0 :: (d ++ post)))))
      ((ELEKTRA_MAX_NAMESPACE_SIZE - (m.length + 1 : ℕ) : ℤ) + (name.length + (m.length + 1) : ℕ) - 1) [0] =
      some (pre ++ (m ++ (name ++ (0 :: (d ++ post))))) := by
    have hwrite := @writeAt_append _ (pre ++ m ++ name) [0] (d ++ post) [0]
      ((ELEKTRA_MAX_NAMESPACE_SIZE - (m.length + 1 : ℕ) : ℤ) + (name.length + (m.length + 1) : ℕ) - 1)
      (by simp [hpre]; omega) rfl
    simpa using hwrite
  have huwrite : writeAt (pre ++ (m ++ (name ++ (0 :: (d ++ post)))))
      ((ELEKTRA_MAX_NAMESPACE_SIZE - (m.length + 1 : ℕ) : ℤ) + (name.length + (m.length + 1) : ℕ))
      (elektraUnescapeKeyName (m ++ name)) =
      some (pre ++ (m ++ (name ++ (0 :: (elektraUnescapeKeyName (m ++ name) ++ post))))) := by
    have hwrite := @writeAt_append _ (pre ++ m ++ name ++ [0]) d post (elektraUnescapeKeyName (m ++ name))
      ((ELEKTRA_MAX_NAMESPACE_SIZE - (m.length + 1 : ℕ) : ℤ) + (name.length + (m.length + 1) : ℕ))
      (by simp [hpre]; omega) hd
    simpa using hwrite
  have hstart : pre.length = (ELEKTRA_MAX_NAMESPACE_SIZE - (m.length + 1 : ℕ) : ℤ).toNat := by omega
  have hboth : 0 ∉ m ++ name := fun h => (List.mem_append.mp h).elim hm hname
  have hkey : ∀ rest, cString (pre ++ (m ++ (name ++ (0 :: rest))))
      (ELEKTRA_MAX_NAMESPACE_SIZE - (m.length + 1 : ℕ) : ℤ).toNat = m ++ name := fun rest => by
    rw [← List.append_assoc m]
    exact cString_append hstart hboth
  have hread : ((pre ++ (m ++ (name ++ (0 :: (elektraUnescapeKeyName (m ++ name) ++ post))))).drop
      ((ELEKTRA_MAX_NAMESPACE_SIZE - (m.length + 1 : ℕ) : ℤ) + (name.length + (m.length + 1) : ℕ)).toNat).take
      (elektraUnescapeKeyName (m ++ name)).length = elektraUnescapeKeyName (m ++ name) := by
    have hbefore : ((ELEKTRA_MAX_NAMESPACE_SIZE - (m.length + 1 : ℕ) : ℤ) + (name.length + (m.length + 1) : ℕ)).toNat =
        (pre ++ m ++ name ++ [0]).length := by
      simp [hpre]
      omega
    have hsplit : pre ++ (m ++ (name ++ (0 :: (elektraUnescapeKeyName (m ++ name) ++ post)))) =
        (pre ++ m ++ name ++ [0]) ++ (elektraUnescapeKeyName (m ++ name) ++ post) := by simp
    rw [hbefore, hsplit, List.drop_left, List.take_left]
  refine ⟨pre ++ (m ++ (name ++ (0 :: (elektraUnescapeKeyName (m ++ name) ++ post)))), ?_, ?_⟩
  · simp [ha, hb, hc, hd]
    omega
  · rw [buildName]
    simp only [hvalue, hjoin, hend, hkey, huwrite, hread, Option.bind_eq_bind, Option.bind_some]
    have hlen : (m ++ name).length + 1 = name.length + (m.length + 1) := by
      rw [List.length_append]
      omega
    rw [elektraFinalizeName, hlen]

theorem buildName_long (hlong : ELEKTRA_MAX_NAMESPACE_SIZE ≤ m.length) (specKey : Key) :
    buildName newname name m specKey = none := by
  rw [buildName, writeAt_negative (by omega)]
  rfl

end Round

/-! ## Values that stand for themselves -/

/-- The value is the name of a namespace, as far as the code can tell: it fits, and it is one level that is
unescaped to itself. -/
structure NamespaceValue (m : Str) : Prop where
  fits : m.length < ELEKTRA_MAX_NAMESPACE_SIZE
  level : levels (m ++ [pathSeparator]) = [m]
  plain : unescapeLevel m = m

instance (m : Str) : Decidable (NamespaceValue m) :=
  decidable_of_iff (m.length < ELEKTRA_MAX_NAMESPACE_SIZE ∧ levels (m ++ [pathSeparator]) = [m] ∧ unescapeLevel m = m)
    ⟨fun ⟨h, h', h''⟩ => ⟨h, h', h''⟩, fun ⟨h, h', h''⟩ => ⟨h, h', h''⟩⟩

/-- The key searched for is the one of the search name in the namespace `m`, and in no other. -/
structure ExactKey (m name : Str) (key : Key) : Prop where
  namespaced : ¬ Cascading key
  ukey : key.ukey = m ++ elektraUnescapeKeyName name

section Exact

variable {m name rest : Str}

theorem unescapeKeyName_separator (rest : Str) : elektraUnescapeKeyName (pathSeparator :: rest) =
    0 :: (levels rest).flatMap fun level => unescapeLevel level ++ [0] := by
  rw [elektraUnescapeKeyName, levels_separator]
  rfl

theorem unescapeKeyName_level {p s : Str} (hp : IsLevel p)
    (hs : s = [] ∨ Closed p ∧ ∃ t, s = pathSeparator :: t) :
    elektraUnescapeKeyName (p ++ s) =
      unescapeLevel p ++ 0 :: (levels s).flatMap fun level => unescapeLevel level ++ [0] := by
  obtain ⟨c, q, hq, hc⟩ := hp.cons
  have hhead : (p ++ s).head? ≠ some pathSeparator := by simpa [hq] using hc
  rw [elektraUnescapeKeyName, if_neg hhead, List.nil_append, levels_cons hp hs, List.flatMap_cons,
    List.append_assoc]
  rfl

theorem eq_of_append_nul {a b s t : Str} (ha : 0 ∉ a) (hb : 0 ∉ b) (h : a ++ 0 :: s = b ++ 0 :: t) : a = b := by
  have hfirst := congrArg (fun l => cString l 0) h
  have hread := fun {c u : Str} (hc : (0 : UInt8) ∉ c) => @cString_append [] c u 0 rfl hc
  simpa only [List.nil_append] using (hread ha).symm.trans (hfirst.trans (hread hb))

/-- A string that does not start with a separator starts with a level. -/
theorem exists_level {s : Str} (hne : s ≠ []) (hhead : s.head? ≠ some pathSeparator) : ∃ p t, s = p ++ t ∧ IsLevel p ∧
    (t = [] ∨ Closed p ∧ ∃ u, t = pathSeparator :: u) := by
  induction s using levels_induction with
  | nil => exact absurd rfl hne
  | sep s => exact absurd rfl hhead
  | level p t hp ht => exact ⟨p, t, rfl, hp, ht⟩

/-- **The key is the one in the namespace exactly for values that stand for themselves.** -/
theorem exactKey_iff (hm : 0 ∉ m) (hrest : 0 ∉ rest) (specKey : Key) :
    ExactKey m (pathSeparator :: rest) (elektraFinalizeName specKey (m ++ pathSeparator :: rest)) ↔
      levels (m ++ [pathSeparator]) = [m] ∧ unescapeLevel m = m := by
  have hname : keyName (elektraFinalizeName specKey (m ++ pathSeparator :: rest)) = m ++ pathSeparator :: rest := rfl
  have hukey : (elektraFinalizeName specKey (m ++ pathSeparator :: rest)).ukey =
      elektraUnescapeKeyName (m ++ pathSeparator :: rest) := rfl
  constructor
  · rintro ⟨hcascading, hsame⟩
    rw [Cascading, hname] at hcascading
    obtain ⟨p, t, hsplit, hp, ht⟩ := exists_level (by simp) hcascading
    rw [hukey, hsplit, unescapeKeyName_level hp ht, unescapeKeyName_separator] at hsame
    have hp0 : 0 ∉ p := fun h0 => by
      have hin : 0 ∈ m ++ pathSeparator :: rest := hsplit ▸ List.mem_append_left t h0
      simp [hm, hrest, pathSeparator] at hin
    have hpm : unescapeLevel p = m := eq_of_append_nul (nul_unescapeLevel hp0) hm hsame
    obtain rfl : p = m := by
      obtain ⟨q, hq, hsep⟩ | ⟨q, hq, -⟩ := List.append_eq_append_iff.mp hsplit
      · cases q with
        | nil => rw [hq, List.append_nil]
        | cons c q =>
          -- the level would have more separators than the value
          obtain ⟨rfl, -⟩ := List.cons.inj hsep
          have hcount := count_unescapeLevel p
          rw [hpm, hq, List.count_append, List.count_cons_self] at hcount
          omega
      · -- a level is not unescaped to something longer
        have hlen := length_unescapeLevel_le p
        rw [hpm, hq, List.length_append] at hlen
        obtain rfl := List.eq_nil_of_length_eq_zero (by omega : q.length = 0)
        rw [hq, List.append_nil]
    obtain rfl : pathSeparator :: rest = t := List.append_cancel_left hsplit
    obtain ⟨hclosed, -⟩ := ht.resolve_left (List.cons_ne_nil _ _)
    exact ⟨levels_cons hp (.inr ⟨hclosed, [], rfl⟩), hpm⟩
  · rintro ⟨hlevel, hplain⟩
    have hmem : m ∈ levels (m ++ [pathSeparator]) := by
      rw [hlevel]
      exact List.mem_singleton_self m
    have hp := isLevel_of_mem hmem
    have hend : Closed (m ++ [pathSeparator]) := by
      rw [Closed, escAfter_append, escAfter, if_neg separator_ne_escape]
      rfl
    obtain ⟨c, q, hq, hc⟩ := hp.cons
    refine ⟨?_, ?_⟩
    · rw [Cascading, hname, hq]
      simpa using hc
    · rw [hukey, unescapeKeyName_level hp (.inr ⟨closed_of_mem hend hmem, rest, rfl⟩), hplain,
        unescapeKeyName_separator, levels_separator]

end Exact

/-! ## All rounds -/

def namespaceMeta (specKey : Key) (i : ℕ) : Option Str :=
  keyGetMeta specKey (str "namespace/" ++ elektraWriteArrayNumber i)

/-- The value has a number, and so has one before each. -/
def Consulted (specKey : Key) (m : Str) : Prop :=
  ∃ i, namespaceMeta specKey i = some m ∧ ∀ j < i, namespaceMeta specKey j ≠ none

/-- Every round from `i` on stays inside of the buffer, and looks up the key of its namespace. -/
def RoundsExact (lookup : Lookup) (k : KeyRef) (name : Str) : ℕ → ℕ → Str → World → Prop
  | 0, _, _, _ => True
  | rounds + 1, i, newname, w => ∀ m, namespaceMeta (w.cell k) i = some m →
      ∃ newname' specKey, buildName newname name m (w.cell k) = some (newname', specKey) ∧
        ExactKey m name specKey ∧
        ∀ w', lookup (w.set k specKey) k {} = .ok (none, w') → RoundsExact lookup k name rounds (i + 1) newname' w'

/-- The callback leaves the metadata of the key that is looked up. -/
def KeepsNamespaces (cb : Callback) : Prop :=
  ∀ v w key found o i, namespaceMeta ((cb v w key found o).2.cell key) i = namespaceMeta (w.cell key) i

section Rounds

variable {cb : Callback} {w w' : World} {k : KeyRef} {m rest newname : Str} {ret : Option KeyRef}

theorem round_iff (hsize : newname.length = ((pathSeparator :: rest).length + ELEKTRA_MAX_NAMESPACE_SIZE) * 2)
    (hrest : 0 ∉ rest) (hm : 0 ∉ m) (specKey : Key) :
    (∃ newname' key, buildName newname (pathSeparator :: rest) m specKey = some (newname', key) ∧
        ExactKey m (pathSeparator :: rest) key) ↔ NamespaceValue m := by
  have hname : 0 ∉ pathSeparator :: rest := List.not_mem_cons_of_ne_of_not_mem (by decide) hrest
  constructor
  · rintro ⟨newname', key, hbuild, hexact⟩
    have hfits : m.length < ELEKTRA_MAX_NAMESPACE_SIZE := by
      by_contra hlong
      rw [buildName_long (not_lt.mp hlong)] at hbuild
      cases hbuild
    obtain ⟨bytes, -, heq⟩ := buildName_eq hsize hname hm hfits specKey
    rw [heq] at hbuild
    obtain ⟨-, rfl⟩ := Prod.mk.inj (Option.some.inj hbuild)
    obtain ⟨hlevel, hplain⟩ := (exactKey_iff hm hrest specKey).mp hexact
    exact ⟨hfits, hlevel, hplain⟩
  · rintro ⟨hfits, hlevel, hplain⟩
    obtain ⟨bytes, -, heq⟩ := buildName_eq hsize hname hm hfits specKey
    exact ⟨bytes, _, heq, (exactKey_iff hm hrest specKey).mpr ⟨hlevel, hplain⟩⟩

theorem binarySearch_heap (w : World) (k : KeyRef) : (elektraLookupBinarySearch w k {}).2.heap = w.heap := by
  unfold elektraLookupBinarySearch
  dsimp only
  cases bsearch w k (lookupCompare {}) <;> rfl

theorem ksLookup_namespaced {fuel : ℕ} {name : Str} (hn : (w.cell k).key = some name)
    (hc : ¬ Cascading (w.cell k)) :
    ksLookup cb (fuel + 1) w k {} = .ok (elektraLookupSearch cb w k {}) := by
  rw [Cascading, keyName, hn, Option.getD_some] at hc
  rw [ksLookup]
  dsimp only
  rw [hn]
  simp [lookupRet, hc]
  rfl

theorem namespaceMeta_lookup (hcb : KeepsNamespaces cb) {fuel : ℕ} {name : Str} (hn : (w.cell k).key = some name)
    (hc : ¬ Cascading (w.cell k)) (h : ksLookup cb fuel w k {} = .ok (ret, w')) (i : ℕ) :
    namespaceMeta (w'.cell k) i = namespaceMeta (w.cell k) i := by
  cases fuel with
  | zero => cases h
  | succ fuel =>
    rw [ksLookup_namespaced hn hc] at h
    have hheap := binarySearch_heap w k
    unfold elektraLookupSearch at h
    generalize elektraLookupBinarySearch w k {} = x at h hheap
    obtain ⟨found, w1⟩ := x
    dsimp only at h hheap
    have hcell : w1.cell k = w.cell k := congrArg (fun heap => heap.cell k) hheap
    cases hp : callbackPointer (w1.cell k) with
    | none =>
      rw [hp] at h
      obtain ⟨-, rfl⟩ := Prod.mk.inj (Except.ok.inj h)
      rw [hcell]
    | some v =>
      rw [hp] at h
      have hkeep := hcb v w1 k found {} i
      have hret : cb v w1 k found {} = (ret, w') := Except.ok.inj h
      rw [hret, hcell] at hkeep
      exact hkeep

theorem rounds_exact (hcb : KeepsNamespaces cb) (hrest : 0 ∉ rest) (fuel : ℕ) : ∀ (rounds i : ℕ) {newname : Str}
    {w : World}, newname.length = ((pathSeparator :: rest).length + ELEKTRA_MAX_NAMESPACE_SIZE) * 2 →
    (∀ j m, namespaceMeta (w.cell k) j = some m → 0 ∉ m) →
    (∀ j m, i ≤ j → namespaceMeta (w.cell k) j = some m → (∀ l, i ≤ l → l < j → namespaceMeta (w.cell k) l ≠ none) →
      NamespaceValue m) →
    RoundsExact (ksLookup cb fuel) k (pathSeparator :: rest) rounds i newname w
  | 0, _, _, _, _, _, _ => trivial
  | rounds + 1, i, newname, w, hsize, hnul, hgood => by
    intro m hmeta
    have hvalue := hgood i m le_rfl hmeta fun l hil hli => absurd hil (not_le.mpr hli)
    have hm := hnul i m hmeta
    have hname : 0 ∉ pathSeparator :: rest := List.not_mem_cons_of_ne_of_not_mem (by decide) hrest
    obtain ⟨newname', hlen, hbuild⟩ := buildName_eq hsize hname hm hvalue.fits (w.cell k)
    have hexact := (exactKey_iff hm hrest (w.cell k)).mpr ⟨hvalue.level, hvalue.plain⟩
    refine ⟨newname', _, hbuild, hexact, fun w' hlookup => ?_⟩
    have hset : (w.set k (elektraFinalizeName (w.cell k) (m ++ pathSeparator :: rest))).cell k =
        elektraFinalizeName (w.cell k) (m ++ pathSeparator :: rest) := set_cell_self _ _ _
    have hkeep : ∀ j, namespaceMeta (w'.cell k) j = namespaceMeta (w.cell k) j := fun j => by
      have hsame := namespaceMeta_lookup hcb (by rw [hset]; rfl) (by rw [hset]; exact hexact.namespaced) hlookup j
      rw [hset] at hsame
      exact hsame
    refine rounds_exact hcb hrest fuel rounds (i + 1) (hlen.trans hsize) (fun j m hj => hnul j m (hkeep j ▸ hj))
      fun j m hij hj hbefore => ?_
    refine hgood j m (Nat.le_of_succ_le hij) (hkeep j ▸ hj) fun l hil hlj => ?_
    obtain rfl | hlt := Nat.eq_or_lt_of_le hil
    · rw [hmeta]
      exact Option.some_ne_none _
    · rw [← hkeep l]
      exact hbefore l hlt hlj

/-- What is looked up in an empty key set. -/
def nothingFound : Callback := fun _ w _ found _ => (found, w)

theorem keepsNamespaces_nothingFound : KeepsNamespaces nothingFound := fun _ _ _ _ _ _ => rfl

theorem lookup_nothing {name : Str} (hn : (w.cell k).key = some name) (hc : ¬ Cascading (w.cell k))
    (hempty : w.ks.array = []) :
    ∃ w', ksLookup nothingFound 1 w k {} = .ok (none, w') ∧ w'.ks.array = [] ∧ w'.cell k = w.cell k := by
  have hnone : bsearch w k (lookupCompare {}) = none := by
    rw [bsearch, KeySet.size, hempty]
    rfl
  refine ⟨{ w with ks := ksSetCursor w.ks (ksGetCursor w.ks) }, ?_, ?_, rfl⟩
  · rw [ksLookup_namespaced hn hc, elektraLookupSearch, elektraLookupBinarySearch, hnone]
    dsimp only
    cases callbackPointer (({ w with ks := ksSetCursor w.ks (ksGetCursor w.ks) } : World).cell k) with
    | none => rfl
    | some v => rfl
  · rw [← hempty]
    exact setCursor_array _ _

theorem values_of_rounds (hrest : 0 ∉ rest) : ∀ (d i : ℕ) {newname : Str} {w : World},
    newname.length = ((pathSeparator :: rest).length + ELEKTRA_MAX_NAMESPACE_SIZE) * 2 →
    (∀ j m, namespaceMeta (w.cell k) j = some m → 0 ∉ m) → w.ks.array = [] →
    (∀ rounds, RoundsExact (ksLookup nothingFound 1) k (pathSeparator :: rest) rounds i newname w) →
    namespaceMeta (w.cell k) (i + d) = some m → (∀ l < d, namespaceMeta (w.cell k) (i + l) ≠ none) → NamespaceValue m
  | 0, i, newname, w, hsize, hnul, _, hall, hmeta, _ => by
    obtain ⟨newname', key, hbuild, hexact, -⟩ := hall 1 m hmeta
    exact (round_iff hsize hrest (hnul _ m hmeta) (w.cell k)).mp ⟨newname', key, hbuild, hexact⟩
  | d + 1, i, newname, w, hsize, hnul, hempty, hall, hmeta, hbefore => by
    obtain ⟨v, hv⟩ := Option.ne_none_iff_exists'.mp (hbefore 0 (Nat.succ_pos d))
    rw [Nat.add_zero] at hv
    have hname : 0 ∉ pathSeparator :: rest := List.not_mem_cons_of_ne_of_not_mem (by decide) hrest
    obtain ⟨bytes, key, hbuild, hexact, -⟩ := hall 1 v hv
    have hvalue := (round_iff hsize hrest (hnul i v hv) (w.cell k)).mp ⟨bytes, key, hbuild, hexact⟩
    obtain ⟨newname', hlen, heq⟩ := buildName_eq hsize hname (hnul i v hv) hvalue.fits (w.cell k)
    rw [heq] at hbuild
    obtain ⟨rfl, rfl⟩ := Prod.mk.inj (Option.some.inj hbuild)
    have hset : (w.set k (elektraFinalizeName (w.cell k) (v ++ pathSeparator :: rest))).cell k =
        elektraFinalizeName (w.cell k) (v ++ pathSeparator :: rest) := set_cell_self _ _ _
    obtain ⟨w', hlookup, hempty', hcell⟩ := @lookup_nothing
      (w.set k (elektraFinalizeName (w.cell k) (v ++ pathSeparator :: rest))) k _ (by rw [hset]; rfl)
      (by rw [hset]; exact hexact.namespaced) hempty
    have hkeep : ∀ j, namespaceMeta (w'.cell k) j = namespaceMeta (w.cell k) j := fun j => by
      rw [hcell, hset]
      rfl
    refine values_of_rounds hrest d (i + 1) (hlen.trans hsize) (fun j u hj => hnul j u (hkeep j ▸ hj)) hempty'
      (fun rounds => ?_) ?_ fun l hl => ?_
    · obtain ⟨bytes, key, hbuild, -, hnext⟩ := hall (rounds + 1) v hv
      rw [heq] at hbuild
      obtain ⟨rfl, rfl⟩ := Prod.mk.inj (Option.some.inj hbuild)
      exact hnext w' hlookup
    · rw [hkeep, Nat.add_right_comm]
      exact hmeta
    · have hl' := hbefore (l + 1) (Nat.succ_lt_succ hl)
      rw [← Nat.add_assoc, Nat.add_right_comm] at hl'
      rwa [hkeep]

/-- **Every round stays inside of the buffer and searches for the key of exactly its namespace, whatever is in
the key set, if and only if every value that is consulted fits and stands for itself.** -/
theorem namespaces_exact_iff {specKey : Key} (hnul : ∀ i m, namespaceMeta specKey i = some m → 0 ∉ m)
    (hrest : 0 ∉ rest)
    (hsize : newname.length = ((pathSeparator :: rest).length + ELEKTRA_MAX_NAMESPACE_SIZE) * 2) :
    (∀ cb fuel rounds k w, KeepsNamespaces cb → w.cell k = specKey →
        RoundsExact (ksLookup cb fuel) k (pathSeparator :: rest) rounds 0 newname w) ↔
      ∀ m, Consulted specKey m → NamespaceValue m := by
  constructor
  · rintro hall m ⟨i, hmeta, hbefore⟩
    -- a key set without keys
    let w : World := { heap := .ofList [specKey], ks := ⟨[], KEYSET_SIZE, none, 0, false⟩ }
    have hcell : w.cell 0 = specKey := rfl
    refine @values_of_rounds 0 m rest hrest i 0 newname w hsize (by rwa [hcell]) rfl
      (fun rounds => hall nothingFound 1 rounds 0 w keepsNamespaces_nothingFound hcell) ?_ fun l hl => ?_
    · rwa [hcell, Nat.zero_add]
    · rw [hcell, Nat.zero_add]
      exact hbefore l hl
  · rintro hgood cb fuel rounds k w hcb rfl
    exact rounds_exact hcb hrest fuel rounds 0 hsize hnul fun j m _ hmeta hbefore =>
      hgood m ⟨j, hmeta, fun l hl => hbefore l (Nat.zero_le l) hl⟩

end Rounds

/-- `/a`, with one value for its namespaces. -/
def namespacesA (m : Str) : Key := { keyNewName (str "/a") with metaKeys := [(str "namespace/#0", m)] }

theorem namespaceMeta_namespacesA {v m : Str} {i : ℕ} (h : namespaceMeta (namespacesA v) i = some m) : m = v := by
  have hlookup : [(str "namespace/#0", v)].lookup (str "namespace/" ++ elektraWriteArrayNumber i) = some m := h
  rw [List.lookup_cons] at hlookup
  split at hlookup
  · exact (Option.some.inj hlookup).symm
  · cases hlookup

theorem namespaces_exact_iff_user :
    (∀ cb fuel rounds k w, KeepsNamespaces cb → w.cell k = namespacesA (str "user") →
        RoundsExact (ksLookup cb fuel) k (str "/a") rounds 0 (List.replicate 18 0) w) ↔
      ∀ m, Consulted (namespacesA (str "user")) m → NamespaceValue m := by
  refine @namespaces_exact_iff (str "a") (List.replicate 18 0) (namespacesA (str "user")) (fun i m h => ?_)
    (by decide) rfl
  rw [namespaceMeta_namespacesA h]
  decide

/-- A value that is longer than `system`. -/
theorem not_namespaces_exact : ¬ ∀ cb fuel rounds k w, KeepsNamespaces cb →
    w.cell k = namespacesA (str "systems") →
      RoundsExact (ksLookup cb fuel) k (str "/a") rounds 0 (List.replicate 18 0) w := by
  intro h
  obtain ⟨newname', key, hbuild, -⟩ := h nothingFound 1 1 0
    ⟨.ofList [namespacesA (str "systems")], ⟨[], KEYSET_SIZE, none, 0, false⟩⟩ keepsNamespaces_nothingFound rfl
    (str "systems") (by decide +kernel)
  rw [buildName_long (by decide)] at hbuild
  cases hbuild

end Elektra
