import Elektra.Split.Divide
import Elektra.Split.Values

/-!
# Appointing and merging

`splitAppoint` gives the keys to the entries that are not updated, and to the bypass what goes to none of the
entries. `splitMerge` appends the key sets of the entries.

* `SplitEntry.gather`, **`splitAppointLoop_spec`**: what the entries get;
* `splitMerge_spec`: what is merged.
-/

namespace Elektra

variable {W : Type} {handle : KDB W}

/-! ## What the entries get -/

/-- An entry that is given keys, its bits staying as they are. -/
def SplitEntry.gather (e : SplitEntry) (keys : List Key) : SplitEntry :=
  { e with keyset := keys.foldl ksAppendValue e.keyset }

/-- The entry that a key is given to. -/
def appointed (handle : KDB W) (split : Split) (defFound : ℕ) (key : Key) : ℕ :=
  (routed handle split key).getD defFound

/-- The keys that are given to an entry. -/
def keysAt (handle : KDB W) (split : Split) (defFound : ℕ) (ks : List Key) (i : ℕ) : List Key :=
  ks.filter fun key => appointed handle split defFound key = i

theorem SplitEntry.gather_route (keys : List Key) (e : SplitEntry) : SameRoute e (e.gather keys) := ⟨rfl, rfl, rfl⟩

theorem keysAt_modify (split : Split) (defFound j : ℕ) (keys ks : List Key) (i : ℕ) :
    keysAt handle (split.modify j fun e => e.gather keys) defFound ks i = keysAt handle split defFound ks i :=
  List.filter_congr fun key _ => by rw [appointed, routed_modify (SplitEntry.gather_route keys), appointed]

theorem keysAt_cons_pos {split : Split} {defFound : ℕ} {key : Key} {i : ℕ} (h : appointed handle split defFound key = i)
    (ks : List Key) : keysAt handle split defFound (key :: ks) i = key :: keysAt handle split defFound ks i := by
  rw [keysAt, List.filter_cons, if_pos (decide_eq_true h), keysAt]

theorem keysAt_cons_neg {split : Split} {defFound : ℕ} {key : Key} {i : ℕ} (h : appointed handle split defFound key ≠ i)
    (ks : List Key) : keysAt handle split defFound (key :: ks) i = keysAt handle split defFound ks i := by
  rw [keysAt, List.filter_cons, if_neg (by simpa using h), keysAt]

/-- The entry of a split after appointing: one that is to be updated stays as it is. -/
def SplitEntry.appoint (e : SplitEntry) (keys : List Key) : SplitEntry :=
  if test_bit e.syncbits SPLIT_FLAG_SYNC then e else e.gather keys

/-- **Every entry gets the keys that go to it**, unless it is to be updated. -/
theorem splitAppointLoop_spec (defFound : ℕ) : ∀ (ks : List Key) (split : Split),
    (∀ key ∈ ks, mountGetBackend handle (some key) ≠ none) →
    (splitAppointLoop handle defFound ks split).1 = 1 ∧
      ∀ i : ℕ, (splitAppointLoop handle defFound ks split).2[i]? =
        (split[i]?).map fun e => e.appoint (keysAt handle split defFound ks i)
  | [], split, _ => ⟨rfl, fun i => by
      have hsame : ∀ e : SplitEntry, e.appoint [] = e := fun e => ite_self e
      rw [splitAppointLoop]
      dsimp only
      cases split[i]? with
      | none => rfl
      | some e => exact congrArg some (hsame e).symm⟩
  | key :: ks, split, hback => by
    obtain ⟨b, hb⟩ := Option.ne_none_iff_exists'.mp (hback key List.mem_cons_self)
    have hrest := fun k (hk : k ∈ ks) => hback k (List.mem_cons_of_mem key hk)
    have hroute : (splitSearchBackend split (some b) key).getD defFound = appointed handle split defFound key := by
      rw [appointed, routed, hb]
    rw [splitAppointLoop, hb]
    dsimp only
    rw [hroute]
    generalize hj : appointed handle split defFound key = j
    by_cases hsync : test_bit ((split[j]?).elim 0 SplitEntry.syncbits) SPLIT_FLAG_SYNC = true
    · rw [if_pos hsync]
      obtain ⟨hret, hget⟩ := splitAppointLoop_spec defFound ks split hrest
      refine ⟨hret, fun i => (hget i).trans ?_⟩
      cases he : split[i]? with
      | none => rfl
      | some e =>
        by_cases hij : j = i
        · -- the entry is to be updated
          subst hij
          rw [he] at hsync
          have hstays : ∀ keys, e.appoint keys = e := fun keys => if_pos hsync
          rw [Option.map_some, Option.map_some, hstays, hstays]
        · rw [keysAt_cons_neg (hj.trans_ne hij)]
    · rw [if_neg hsync]
      obtain ⟨hret, hget⟩ := splitAppointLoop_spec defFound ks (split.modify j fun e => e.gather [key]) hrest
      refine ⟨hret, fun i => (hget i).trans ?_⟩
      rw [keysAt_modify, List.getElem?_modify, Option.map_eq_map, Option.map_map]
      cases he : split[i]? with
      | none => rfl
      | some e =>
        by_cases hij : j = i
        · subst hij
          rw [he] at hsync
          have hgets : ∀ (e' : SplitEntry) keys, e'.syncbits = e.syncbits → e'.appoint keys = e'.gather keys :=
            fun e' keys hbits => if_neg (hbits ▸ hsync)
          rw [Option.map_some, Option.map_some, Function.comp_apply, if_pos rfl, keysAt_cons_pos hj,
            hgets e _ rfl, hgets (e.gather [key]) _ rfl]
          rfl
        · rw [Option.map_some, Option.map_some, Function.comp_apply, if_neg hij, keysAt_cons_neg (hj.trans_ne hij)]

/-! ## What is merged -/

/-- The key sets of a split, none of which has a key that compares equal to another one of another key set. -/
structure Apart (split : Split) : Prop where
  valid : ∀ e ∈ split, ValidKeys e.keyset
  agree : ∀ e ∈ split, ∀ e' ∈ split, Agree e.keyset e'.keyset

theorem splitMerge_cons (e : SplitEntry) (split : Split) (dest : List Key) :
    splitMerge (e :: split) dest = splitMerge split (e.keyset.foldl ksAppendValue dest) := rfl

/-- **Merging loses no key.** -/
theorem splitMerge_spec : ∀ {split : Split} {dest : List Key}, Apart split → ValidKeys dest →
    (∀ e ∈ split, Agree dest e.keyset) →
    ValidKeys (splitMerge split dest).2 ∧
      ∀ key, key ∈ (splitMerge split dest).2 ↔ key ∈ dest ∨ ∃ e ∈ split, key ∈ e.keyset
  | [], dest, _, hdest, _ => ⟨hdest, fun key => by simp [splitMerge]⟩
  | e :: split, dest, h, hdest, hagree => by
    have hvalid := h.valid e List.mem_cons_self
    obtain ⟨hput, hmem⟩ := foldl_append_spec hdest (fun key hkey => hvalid.valid hkey) hvalid.agree
      (hagree e List.mem_cons_self)
    have hapart : Apart split :=
      ⟨fun e' he' => h.valid e' (List.mem_cons_of_mem e he'), fun e' he' e'' he'' =>
        h.agree e' (List.mem_cons_of_mem e he') e'' (List.mem_cons_of_mem e he'')⟩
    obtain ⟨hrest, hrest_mem⟩ := splitMerge_spec hapart hput fun e' he' key hkey key' hkey' heq => by
      obtain hkey | hkey := (hmem key).mp hkey
      · exact hagree e' (List.mem_cons_of_mem e he') key hkey key' hkey' heq
      · exact h.agree e List.mem_cons_self e' (List.mem_cons_of_mem e he') key hkey key' hkey' heq
    rw [splitMerge_cons]
    refine ⟨hrest, fun key => (hrest_mem key).trans ?_⟩
    rw [hmem, or_assoc]
    simp only [List.mem_cons, exists_eq_or_imp]

end Elektra
