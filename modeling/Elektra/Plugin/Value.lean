import Elektra.Kdb.Set
import Elektra.Lookup.Refine

/-!
# Values as plugins see them

A plugin that codes values is given the keys of a backend, one after the other, and writes their
values and metadata in place. `kdbSet` hands it duplicates, which are not locked.

* `keySetRaw`, `keyGetValueSize`;
* `Valued`, `Unlocked`: what the functions that set values, and `keyDup`, leave;
* `keyGetMeta_keySetMeta`: metadata after one of it was set;
* `keyString_of_data`, `keySetString_spec`: the string of a key, and a key that was given one;
* `hasName_keyDup`, `hasName_keySetString`: the functions that keep the name.
-/

namespace Elektra

def keySetRaw (key : Key) (newBinary : Str) : Key :=
  if key.roValue then key
  else { key with data := if newBinary = [] then none else some newBinary, sync := true }

def keyGetValueSize (key : Key) : ℕ := (valueBytes key).elim 0 List.length

/-- There is no data of size zero, and that of a string is a C string with its NUL. -/
structure Valued (key : Key) : Prop where
  nonempty : key.data ≠ some []
  string : keyIsBinary key = false → ∀ data, key.data = some data → ∃ s : CString, data = s.1 ++ [0]

/-- Value and metadata can be set. -/
structure Unlocked (key : Key) : Prop where
  value : key.roValue = false
  metadata : key.roMeta = false

theorem unlocked_keyDup (key : Key) : Unlocked (keyDup key) := ⟨rfl, rfl⟩

/-! ## Metadata -/

theorem lookup_filter_self {l : List (Str × Str)} {name : Str} :
    (l.filter fun x => x.1 ≠ name).lookup name = none := by
  induction l with
  | nil => rfl
  | cons x l ih =>
    rw [List.filter_cons]
    split_ifs with hx
    · have hne : (name == x.1) = false := beq_eq_false_iff_ne.mpr fun he => by simp [he] at hx
      rw [List.lookup_cons, hne]
      exact ih
    · exact ih

/-- The metadata of a key that is not locked, after one of it was set or removed. -/
theorem keyGetMeta_keySetMeta {key : Key} (hk : key.roMeta = false) (name : Str) (value : Option Str)
    (m : Str) : keyGetMeta (keySetMeta key name value).2 m =
      if m = name then value else keyGetMeta key m := by
  split_ifs with hm
  · subst hm
    rw [keySetMeta, hk, if_neg Bool.false_ne_true]
    cases value with
    | none => exact lookup_filter_self
    | some value => exact List.lookup_cons_self
  · exact keySetMeta_getMeta hm

theorem keySetMeta_fields (key : Key) (name : Str) (value : Option Str) : ∃ l b,
    (keySetMeta key name value).2 = { key with metaKeys := l, sync := b } := by
  rw [keySetMeta]
  split_ifs
  · exact ⟨key.metaKeys, key.sync, rfl⟩
  · cases value with
    | none => exact ⟨_, _, rfl⟩
    | some value => exact ⟨_, _, rfl⟩

/-! ## Strings -/

theorem takeWhile_append_zero {s : Str} (h : 0 ∉ s) : (s ++ [0]).takeWhile (· ≠ 0) = s := by
  rw [List.takeWhile_append_of_pos fun c hc => by simpa using fun he : c = 0 => h (he ▸ hc)]
  simp

theorem keyString_of_data {k : Key} {s : Str} (hk : keyIsBinary k = false) (h0 : 0 ∉ s)
    (hdata : k.data = stringData s) : keyString k = s := by
  rw [keyIsBinary] at hk
  by_cases hs : s = []
  · simp [keyString, hdata, stringData, hs]
  · rw [keyString, hdata, stringData, if_neg hs]
    dsimp only
    rw [hk, if_neg Bool.false_ne_true, takeWhile_append_zero h0]

theorem keySetString_spec {k : Key} (hk : Unlocked k) (s : Str) :
    (keySetString k s).key = k.key ∧ (keySetString k s).ukey = k.ukey ∧
    (keySetString k s).data = stringData s ∧ Unlocked (keySetString k s) ∧
    keyIsBinary (keySetString k s) = false ∧
    ∀ m, m ≠ str "binary" → keyGetMeta (keySetString k s) m = keyGetMeta k m := by
  obtain ⟨l, b, he⟩ := keySetMeta_fields k (str "binary") none
  have hget := keyGetMeta_keySetMeta hk.metadata (str "binary") none
  rw [he] at hget
  have hset : keySetString k s = { k with metaKeys := l, data := stringData s, sync := true } := by
    rw [keySetString, he]
    simp [hk.value]
  have hmeta : ∀ m, keyGetMeta (keySetString k s) m = keyGetMeta { k with metaKeys := l, sync := b } m := by
    intro m
    rw [hset]
    rfl
  rw [keyIsBinary, hmeta, hget, if_pos rfl]
  refine ⟨by rw [hset], by rw [hset], by rw [hset], by rw [hset]; exact ⟨hk.value, hk.metadata⟩,
    rfl, fun m hm => ?_⟩
  rw [hmeta, hget, if_neg hm]

/-! ## Names -/

section Names

variable {key : Key} {P : Path}

theorem hasName_keyDup (h : HasName key P) : HasName (keyDup key) P := ⟨h.key, h.keySize, h.ukey, h.keyUSize⟩

theorem keySetBaseName_fields (key : Key) (baseName : Option Str) :
    (keySetBaseName key baseName).2.metaKeys = key.metaKeys ∧ (keySetBaseName key baseName).2.roMeta = key.roMeta ∧
      (keySetBaseName key baseName).2.roValue = key.roValue := by
  unfold keySetBaseName
  split_ifs
  · exact ⟨rfl, rfl, rfl⟩
  · split
    · exact ⟨rfl, rfl, rfl⟩
    · dsimp only
      split_ifs
      · exact ⟨rfl, rfl, rfl⟩
      · split <;> exact ⟨rfl, rfl, rfl⟩

theorem hasName_keySetString (h : HasName key P) (value : Str) : HasName (keySetString key value) P := by
  obtain ⟨l, b, he⟩ := keySetMeta_fields key (str "binary") none
  rw [keySetString, he]
  dsimp only
  split_ifs
  · exact ⟨h.key, h.keySize, h.ukey, h.keyUSize⟩
  · exact ⟨h.key, h.keySize, h.ukey, h.keyUSize⟩

theorem keySetString_roName (key : Key) (value : Str) : (keySetString key value).roName = key.roName := by
  obtain ⟨l, b, he⟩ := keySetMeta_fields key (str "binary") none
  rw [keySetString, he]
  dsimp only
  split_ifs <;> rfl

end Names

end Elektra
