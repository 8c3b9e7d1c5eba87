import Elektra.Meta.Sort
import Elektra.Plugin.Value

/-!
# Arrays in the metadata

* `elektraArrayIncName`, `elektraMetaArrayAdd`;
* `MetaArray`: the metadata of an array; **`MetaArray.add`**: one value more.
-/

namespace Elektra

def isdigit (c : UInt8) : Bool := 48 ≤ c && c ≤ 57

/-- `atoi`, of a string that begins with a digit -/
def atoi (s : Str) : ℕ := (s.takeWhile isdigit).foldl (fun n d => 10 * n + (d.toNat - 48)) 0

/-- The base name of the next element; it stays as it is when it is none of an array. -/
def elektraArrayIncName (baseName : Str) : Str :=
  if baseName = str "#" then elektraWriteArrayNumber 0
  else if baseName.head? ≠ some 35 then baseName
  else
    let underscores := (baseName.tail.takeWhile (· = 95)).length
    let current := baseName.tail.dropWhile (· = 95)
    if underscores + 1 ≠ (current.takeWhile isdigit).length then baseName
    else elektraWriteArrayNumber (atoi current + 1)

/-- The base names of the elements stand for their keys, which are below `metaName`. -/
def elektraMetaArrayAdd (key : Key) (metaName value : Str) : Key :=
  let last := keyGetMeta key metaName
  let key := if last = none then (keySetMeta key metaName (some (str "#0"))).2 else key
  let next := elektraArrayIncName (last.getD (str "#"))
  let key := (keySetMeta key (metaName ++ [pathSeparator] ++ next) (some value)).2
  (keySetMeta key metaName (some next)).2

/-! ## Numbers -/

theorem isdigit_digits (n : ℕ) : ∀ d ∈ digits n, isdigit d = true := by
  induction n using Nat.strong_induction_on with
  | _ n ih =>
    intro d hd
    have hone : ∀ m < 10, isdigit (UInt8.ofNat (48 + m)) = true := by decide
    by_cases hn : n < 10
    · rw [digits_of_lt hn, List.mem_singleton] at hd
      rw [hd]
      exact hone n hn
    · rw [digits_of_le (not_lt.mp hn), List.mem_append, List.mem_singleton] at hd
      obtain hd | hd := hd
      · exact ih (n / 10) (by omega) d hd
      · rw [hd]
        exact hone _ (Nat.mod_lt _ (by decide))

theorem atoi_digits (n : ℕ) : atoi (digits n) = n := by
  have htake : (digits n).takeWhile isdigit = digits n := List.takeWhile_eq_self_iff.mpr (isdigit_digits n)
  rw [atoi, htake]
  induction n using Nat.strong_induction_on with
  | _ n ih =>
    have hone : ∀ m < 10, (UInt8.ofNat (48 + m)).toNat - 48 = m := by decide
    by_cases hn : n < 10
    · rw [digits_of_lt hn, List.foldl_cons, List.foldl_nil, hone n hn]
      omega
    · rw [digits_of_le (not_lt.mp hn), List.foldl_append,
        ih (n / 10) (by omega) (List.takeWhile_eq_self_iff.mpr (isdigit_digits _)), List.foldl_cons,
        List.foldl_nil, hone _ (Nat.mod_lt _ (by decide))]
      omega

theorem elektraArrayIncName_write (n : ℕ) :
    elektraArrayIncName (elektraWriteArrayNumber n) = elektraWriteArrayNumber (n + 1) := by
  have hpos := digits_length_pos n
  have hdigit := isdigit_digits n
  have hname : elektraWriteArrayNumber n =
      35 :: (List.replicate ((digits n).length - 1) 95 ++ digits n) := rfl
  have hhead : ∀ d ∈ digits n, (decide (d = 95)) = false := fun d hd =>
    decide_eq_false fun he => by
      have := hdigit d hd
      rw [he] at this
      exact absurd this (by decide)
  have htake : (List.replicate ((digits n).length - 1) 95 ++ digits n).takeWhile (fun c => decide (c = 95)) =
      List.replicate ((digits n).length - 1) 95 := by
    rw [List.takeWhile_append_of_pos fun c hc => decide_eq_true (List.eq_of_mem_replicate hc)]
    obtain ⟨d, ds, hd⟩ := List.exists_cons_of_length_pos hpos
    rw [hd, List.takeWhile_cons_of_neg (by rw [hhead d (hd ▸ List.mem_cons_self)]; exact Bool.false_ne_true),
      List.append_nil]
  have hdrop : (List.replicate ((digits n).length - 1) 95 ++ digits n).dropWhile (fun c => decide (c = 95)) =
      digits n := by
    rw [List.dropWhile_append_of_pos fun c hc => decide_eq_true (List.eq_of_mem_replicate hc)]
    obtain ⟨d, ds, hd⟩ := List.exists_cons_of_length_pos hpos
    rw [hd, List.dropWhile_cons_of_neg (by rw [hhead d (hd ▸ List.mem_cons_self)]; exact Bool.false_ne_true)]
  unfold elektraArrayIncName
  rw [if_neg, if_neg]
  · dsimp only
    rw [hname, List.tail_cons, htake, hdrop, List.takeWhile_eq_self_iff.mpr hdigit, List.length_replicate,
      if_neg (by omega), atoi_digits]
  · rw [hname]
    exact fun h => h rfl
  · rw [hname]
    intro he
    have hlen := congrArg List.length he
    rw [List.length_cons, List.length_append, show (str "#").length = 1 from rfl] at hlen
    omega

/-! ## The array -/

/-- The metadata of the array `metaName` are the values of `l`. -/
structure MetaArray (key : Key) (metaName : Str) (l : List Str) : Prop where
  last : keyGetMeta key metaName = if l = [] then none else some (elektraWriteArrayNumber (l.length - 1))
  get : ∀ i, keyGetMeta key (metaName ++ [pathSeparator] ++ elektraWriteArrayNumber i) = l[i]?

section MetaArray

variable {key : Key} {metaName : Str} {l : List Str}

theorem element_ne (metaName next : Str) : metaName ++ [pathSeparator] ++ next ≠ metaName := fun h => by
  have := congrArg List.length h
  simp at this

theorem metaArrayNext (h : MetaArray key metaName l) :
    elektraArrayIncName ((keyGetMeta key metaName).getD (str "#")) = elektraWriteArrayNumber l.length := by
  rw [h.last]
  split_ifs with hl
  · rw [hl]
    rfl
  · have hpos := List.length_pos_of_ne_nil hl
    rw [Option.getD_some, elektraArrayIncName_write, Nat.sub_add_cancel hpos]

theorem keySetMeta_roMeta (key : Key) (name : Str) (value : Option Str) :
    (keySetMeta key name value).2.roMeta = key.roMeta := by
  obtain ⟨_, _, h⟩ := keySetMeta_fields key name value
  rw [h]

/-- The keys differ in metadata and the flag only. -/
def MetaOnly (key key' : Key) : Prop := ∃ l b, key' = { key with metaKeys := l, sync := b }

theorem MetaOnly.refl (key : Key) : MetaOnly key key := ⟨key.metaKeys, key.sync, rfl⟩

theorem MetaOnly.trans {a b c : Key} (h : MetaOnly a b) (h' : MetaOnly b c) : MetaOnly a c := by
  obtain ⟨_, _, rfl⟩ := h
  obtain ⟨l, s, rfl⟩ := h'
  exact ⟨l, s, rfl⟩

theorem metaOnly_set (key : Key) (name : Str) (value : Option Str) :
    MetaOnly key (keySetMeta key name value).2 := keySetMeta_fields key name value

theorem metaOnly_add (key : Key) (metaName value : Str) :
    MetaOnly key (elektraMetaArrayAdd key metaName value) := by
  unfold elektraMetaArrayAdd
  dsimp only
  split_ifs
  · exact (metaOnly_set key _ _).trans ((metaOnly_set _ _ _).trans (metaOnly_set _ _ _))
  · exact (metaOnly_set key _ _).trans (metaOnly_set _ _ _)

theorem keyGetMeta_add (hk : key.roMeta = false) (h : MetaArray key metaName l) (value m : Str) :
    keyGetMeta (elektraMetaArrayAdd key metaName value) m =
      if m = metaName then some (elektraWriteArrayNumber l.length)
      else if m = metaName ++ [pathSeparator] ++ elektraWriteArrayNumber l.length then some value
      else keyGetMeta key m := by
  have hnext := metaArrayNext h
  unfold elektraMetaArrayAdd
  dsimp only
  rw [hnext]
  generalize hkey' : (if keyGetMeta key metaName = none then
    (keySetMeta key metaName (some (str "#0"))).2 else key) = key'
  have hro : key'.roMeta = false := by
    rw [← hkey']
    split_ifs
    · rw [keySetMeta_roMeta, hk]
    · exact hk
  have hget : m ≠ metaName → keyGetMeta key' m = keyGetMeta key m := by
    intro hm
    rw [← hkey']
    split_ifs
    · rw [keyGetMeta_keySetMeta hk, if_neg hm]
    · rfl
  rw [keyGetMeta_keySetMeta (by rw [keySetMeta_roMeta, hro]), keyGetMeta_keySetMeta hro]
  split_ifs with h1 h2
  · rfl
  · rfl
  · exact hget h1

/-- **`elektraMetaArrayAdd` adds one value.** -/
theorem MetaArray.add (hk : key.roMeta = false) (h : MetaArray key metaName l) (value : Str) :
    MetaArray (elektraMetaArrayAdd key metaName value) metaName (l ++ [value]) := by
  refine ⟨?_, fun i => ?_⟩
  · rw [keyGetMeta_add hk h, if_pos rfl, if_neg (by simp), List.length_append, List.length_singleton,
      Nat.add_sub_cancel]
  · rw [keyGetMeta_add hk h, if_neg (element_ne _ _)]
    by_cases hi : i = l.length
    · subst hi
      rw [if_pos rfl, List.getElem?_append_right le_rfl, Nat.sub_self]
      rfl
    · rw [if_neg fun he => hi (elektraWriteArrayNumber_injective (List.append_cancel_left he)), h.get]
      by_cases hlt : i < l.length
      · rw [List.getElem?_append_left hlt]
      · rw [List.getElem?_eq_none (not_lt.mp hlt), List.getElem?_eq_none]
        rw [List.length_append, List.length_singleton]
        omega

theorem isLinks_of_get {buffer : Str} : ∀ {l : List Str} {i : ℕ},
    (∀ j, keyGetMeta key (buffer ++ elektraWriteArrayNumber (i + j)) = l[j]?) → IsLinks key buffer i l
  | [], _, h => h 0
  | _ :: l, i, h => ⟨h 0, isLinks_of_get fun j => by
      have := h (j + 1)
      rwa [← Nat.add_assoc, Nat.add_right_comm] at this⟩

theorem MetaArray.toKS (h : MetaArray key metaName l) : elektraMetaArrayToKS key metaName =
    if l = [] then none else some (elektraWriteArrayNumber (l.length - 1), l) := by
  have hlinks : linkValues key (metaName ++ [pathSeparator]) = l :=
    (isLinks_linkValues key _).unique (isLinks_of_get fun j => by rw [Nat.zero_add]; exact h.get j)
  rw [elektraMetaArrayToKS, h.last, hlinks]
  split_ifs
  · rfl
  · rfl

end MetaArray

end Elektra
