import Elektra.Name.BaseName

/-!
# Iterating over the parts of a name

The iterators of the C++ binding point into the unescaped name; pointers are offsets from `begin`.

* `NameIterator`, `NameReverseIterator`, `Key.begin`, `Key.cbegin`, `Key.rbegin`, ...;
* `NameIterator.At`: the iterator is between two parts; `At.next`, `At.next_empty`, **`At.prev`**;
* `IteratesName`, **`not_iteratesName`**.
-/

namespace Elektra

structure NameIterator where
  /-- what is at `begin` -/
  name : Str
  size : ℤ
  current : ℤ

namespace NameIterator

def ofKey (k : Key) (last : Bool) : NameIterator :=
  { name := keyUnescapedName k, size := k.keyUSize, current := if last then k.keyUSize else 0 }

variable (it : NameIterator)

def byte (c : ℤ) : UInt8 := it.name.getD c.toNat 0

def get : Str :=
  if it.current = it.size ∨ it.current = -1 then [] else (it.name.drop it.current.toNat).takeWhile (· ≠ 0)

def pos : ℤ := it.current

/-- `do ++c; while (c < end && *c != 0)`; the fuel is the length of the name. -/
def scanNext : ℕ → ℤ → ℤ
  | 0, c => c
  | fuel + 1, c => if c + 1 < it.size ∧ it.byte (c + 1) ≠ 0 then scanNext fuel (c + 1) else c + 1

def findNext : ℤ :=
  if it.size ≤ it.current then it.size
  -- special handling of cascading key names
  else if it.current = 0 ∧ it.byte it.current = 0 then it.current + 1
  else
    let c := it.scanNext it.name.length it.current
    if c ≠ it.size then c + 1 else c

/-- `do --c; while (c > begin && *c != 0)` -/
def scanPrevious : ℕ → ℤ → ℤ
  | 0, c => c
  | fuel + 1, c => if 0 < c - 1 ∧ it.byte (c - 1) ≠ 0 then scanPrevious fuel (c - 1) else c - 1

def findPrevious : ℤ :=
  if it.current ≤ 0 then 0
  else
    let c := it.scanPrevious it.name.length (it.current - 1)
    if c ≠ 0 ∧ c + 1 ≠ it.current then c + 1
    else if c = 0 ∧ it.byte c = 0 then c + 1
    else c

/-- `operator++` -/
def next : NameIterator := { it with current := it.findNext }

/-- `operator--` -/
def prev : NameIterator := { it with current := it.findPrevious }

end NameIterator

structure NameReverseIterator extends NameIterator

namespace NameReverseIterator

variable (it : NameReverseIterator)

def findPrevious : ℤ := if it.current ≤ 0 then -1 else it.toNameIterator.findPrevious

def findNext : ℤ := if it.current = -1 then 0 else it.toNameIterator.findNext

def get : Str := if it.current = -1 then [] else it.toNameIterator.get

def pos : ℤ := it.toNameIterator.pos

/-- `operator++` -/
def next : NameReverseIterator := { it with current := it.findPrevious }

/-- `operator--` -/
def prev : NameReverseIterator := { it with current := it.findNext }

def ofKey (k : Key) (last : Bool) : NameReverseIterator :=
  let it : NameReverseIterator := { NameIterator.ofKey k last with }
  if last then { it with current := it.findPrevious } else { it with current := -1 }

end NameReverseIterator

namespace Key

variable (key : Key)

/-- `begin ()` -/
def nameBegin : NameIterator := .ofKey key false

/-- `end ()` -/
def nameEnd : NameIterator := .ofKey key true

def rbegin : NameReverseIterator := .ofKey key true

def rend : NameReverseIterator := .ofKey key false

def cbegin : NameIterator := .ofKey key true

def cend : NameIterator := .ofKey key false

end Key

/-- What the loop `for (; it != last; ++it)` reads from `*it`, if it ends within `fuel` rounds. -/
def traverse {I : Type} (next : I → I) (get : I → Str) (pos : I → ℤ) (last : I) :
    ℕ → I → Option (List Str)
  | 0, _ => none
  | fuel + 1, it =>
    if pos it = pos last then some [] else (traverse next get pos last fuel (next it)).map (get it :: ·)

/-! ## Parts -/

/-- The buffer with some parts. -/
def render (l : List Str) : Str := l.flatMap fun s => s ++ [0]

@[simp] theorem render_nil : render [] = [] := rfl

@[simp] theorem render_cons (s : Str) (l : List Str) : render (s :: l) = s ++ 0 :: render l := by
  simp [render]

@[simp] theorem render_append (l l' : List Str) : render (l ++ l') = render l ++ render l' :=
  List.flatMap_append

/-- The root and the parts of a path. -/
def Path.names (P : Path) : List Str := P.root.level :: P.parts.map Subtype.val

theorem Path.render_names (P : Path) : render P.names = P.uname := by
  rw [names, render_cons, uname, render, List.flatMap_map, List.append_assoc]
  rfl

namespace NameIterator

/-- The iterator is behind the parts `before`, at the first one of `after`. -/
structure At (it : NameIterator) (before after : List Str) : Prop where
  name : it.name = render before ++ render after
  size : it.size = it.name.length
  current : it.current = (render before).length
  nul : ∀ s ∈ before ++ after, 0 ∉ s

section At

variable {it : NameIterator} {before after : List Str} {s : Str}

theorem byte_append {pre t : Str} {b : UInt8} (h : it.name = pre ++ b :: t) : it.byte pre.length = b := by
  rw [byte, h, Int.toNat_natCast, List.getD_eq_getElem?_getD, List.getElem?_append_right le_rfl, Nat.sub_self]
  rfl

theorem scanNext_part : ∀ {s pre t : Str} {b : UInt8} {fuel : ℕ}, it.name = pre ++ b :: (s ++ 0 :: t) →
    it.size = it.name.length → 0 ∉ s → s.length < fuel →
    it.scanNext fuel pre.length = (pre ++ b :: s).length
  | [], pre, t, b, fuel + 1, h, hsize, _, _ => by
    have hbyte : it.byte ((pre.length : ℤ) + 1) = 0 := by
      have hname : it.name = (pre ++ [b]) ++ 0 :: t := by simpa using h
      have := byte_append hname
      simpa using this
    rw [scanNext, hbyte, if_neg fun h => h.2 rfl]
    simp
  | c :: s, pre, t, b, fuel + 1, h, hsize, hnul, hfuel => by
    have hname : it.name = (pre ++ [b]) ++ c :: (s ++ 0 :: t) := by simpa using h
    have hbyte : it.byte ((pre.length : ℤ) + 1) = c := by
      have := byte_append hname
      simpa using this
    have hc : c ≠ 0 := fun h0 => hnul (by simp [h0])
    have hlt : (pre.length : ℤ) + 1 < it.size := by
      rw [hsize, hname]
      simp only [List.length_append, List.length_cons, List.length_nil]
      omega
    have hrest : it.scanNext fuel (pre ++ [b]).length = _ :=
      scanNext_part hname hsize (fun h0 => hnul (List.mem_cons_of_mem c h0)) (by simpa using hfuel)
    rw [scanNext, hbyte, if_pos ⟨hlt, hc⟩]
    simpa using hrest

/-- The scan back over the bytes of a part, to the NUL before it, or to the begin. -/
theorem scanPrevious_part {pre : Str} (hpre : ∀ b, pre.getLast? = some b → b = 0) :
    ∀ {n : ℕ} {s t : Str} {fuel : ℕ}, s.length = n → it.name = pre ++ (s ++ t) → 0 ∉ s →
    s.length < fuel →
    it.scanPrevious fuel (pre.length + s.length) = if pre = [] ∧ s ≠ [] then 0 else (pre.length : ℤ) - 1
  | 0, s, t, fuel + 1, hs, h, _, _ => by
    obtain rfl := List.length_eq_zero_iff.mp hs
    have hstop : ¬ (0 < (pre.length : ℤ) - 1 ∧ it.byte ((pre.length : ℤ) - 1) ≠ 0) := by
      rintro ⟨hpos, hb⟩
      obtain rfl | ⟨q, b, rfl⟩ := pre.eq_nil_or_concat'
      · simp at hpos
      · have hname : it.name = q ++ b :: t := by simpa using h
        have hbyte := byte_append hname
        rw [hpre b (by simp)] at hbyte
        refine hb ?_
        simpa using hbyte
    rw [scanPrevious, List.length_nil, Nat.cast_zero, add_zero, if_neg hstop, if_neg fun h => h.2 rfl]
  | n + 1, s, t, fuel + 1, hs, h, hnul, hfuel => by
    obtain rfl | ⟨s, c, rfl⟩ := s.eq_nil_or_concat'
    · cases hs
    have hc : c ≠ 0 := fun h0 => hnul (by simp [h0])
    have hbyte : it.byte ((pre.length : ℤ) + s.length) = c := by
      have hname : it.name = (pre ++ s) ++ c :: t := by simpa using h
      have := byte_append hname
      simpa using this
    have hpos : (pre.length : ℤ) + ((s ++ [c]).length : ℕ) - 1 = pre.length + s.length := by
      simp only [List.length_append, List.length_singleton]
      omega
    have hname : it.name = pre ++ (s ++ c :: t) := by simpa using h
    have hrest : it.scanPrevious fuel (pre.length + s.length) = _ := scanPrevious_part hpre (n := n)
      (by simpa using hs) hname (fun h0 => hnul (List.mem_append_left _ h0)) (by simpa using hfuel)
    rw [scanPrevious, hpos, hbyte]
    by_cases hzero : 0 < (pre.length : ℤ) + s.length
    · rw [if_pos ⟨hzero, hc⟩, hrest]
      by_cases hp : pre = []
      · have hs : s ≠ [] := fun h0 => by simp [hp, h0] at hzero
        rw [if_pos ⟨hp, hs⟩, if_pos ⟨hp, by simp⟩]
      · rw [if_neg fun h => hp h.1, if_neg fun h => hp h.1]
    · have hp : pre = [] := List.length_eq_zero_iff.mp (by omega)
      have hs : s = [] := List.length_eq_zero_iff.mp (by omega)
      rw [if_neg fun h => hzero h.1, if_pos ⟨hp, by simp⟩, hp, hs]
      rfl

theorem render_getLast (l : List Str) : ∀ b, (render l).getLast? = some b → b = 0 := by
  obtain rfl | ⟨l, s, rfl⟩ := l.eq_nil_or_concat'
  · simp
  · intro b hb
    rw [render_append, render_cons, render_nil, ← List.append_assoc, List.getLast?_concat] at hb
    exact (Option.some.inj hb).symm

theorem length_render_pos {l : List Str} (h : l ≠ []) : 0 < (render l).length := by
  obtain ⟨s, l, rfl⟩ := List.exists_cons_of_ne_nil h
  simp

theorem At.get (h : At it before (s :: after)) : it.get = s := by
  have hlt : it.current < it.size := by
    rw [h.size, h.current, h.name, render_cons]
    simp only [List.length_append, List.length_cons]
    omega
  have hpos : 0 ≤ it.current := by
    rw [h.current]
    omega
  have hnul : 0 ∉ s := h.nul s (by simp)
  rw [NameIterator.get, if_neg (by omega), h.current, h.name, Int.toNat_natCast, List.drop_left, render_cons]
  have hs : ∀ c ∈ s, decide (c ≠ 0) = true := fun c hc => decide_eq_true fun h0 => hnul (h0 ▸ hc)
  rw [List.takeWhile_append_of_pos hs]
  simp

theorem At.move {before' after' : List Str} (h : At it before after) (hl : before' ++ after' = before ++ after)
    {c : ℤ} (hc : c = (render before').length) : At { it with current := c } before' after' := by
  refine ⟨?_, h.size, hc, hl ▸ h.nul⟩
  rw [← render_append, hl, render_append]
  exact h.name

theorem At.next (h : At it before (s :: after)) (hs : s ≠ []) : At it.next (before ++ [s]) after := by
  obtain ⟨b, s, rfl⟩ := List.exists_cons_of_ne_nil hs
  have hname : it.name = render before ++ b :: (s ++ 0 :: render after) := by simpa using h.name
  have hnul : 0 ∉ b :: s := h.nul _ (by simp)
  have hbyte : it.byte it.current = b := by
    rw [h.current]
    exact byte_append hname
  have hlen := congrArg List.length hname
  have hscan : it.scanNext it.name.length (render before).length = _ :=
    scanNext_part hname h.size (fun h0 => hnul (List.mem_cons_of_mem b h0)) (by rw [hlen]; simp; omega)
  refine h.move (by simp) ?_
  rw [findNext, if_neg, if_neg, h.current, hscan, if_pos]
  · simp only [render_append, render_cons, render_nil, List.length_append, List.length_cons, List.length_nil]
    omega
  · rw [h.size, hlen]
    simp only [List.length_append, List.length_cons]
    omega
  · rw [hbyte]
    exact fun h0 => hnul (by simp [h0.2])
  · rw [h.size, h.current, hlen]
    simp only [List.length_append, List.length_cons]
    omega

theorem At.next_cascading (h : At it [] ([] :: after)) : At it.next [[]] after := by
  have hname : it.name = [] ++ 0 :: render after := by simpa using h.name
  have hbyte : it.byte it.current = 0 := by
    rw [h.current]
    exact byte_append hname
  have hcurrent : it.current = 0 := h.current
  have hl : [[]] ++ after = [] ++ [] :: after := rfl
  refine h.move hl ?_
  rw [findNext, if_neg, if_pos ⟨hcurrent, hbyte⟩, hcurrent]
  · rfl
  · rw [h.size, hcurrent, hname]
    simp only [List.nil_append, List.length_cons]
    omega

theorem At.next_empty {t : Str} (h : At it before ([] :: t :: after)) (hb : before ≠ []) :
    At it.next (before ++ [[], t]) after := by
  have hname : it.name = render before ++ 0 :: (t ++ 0 :: render after) := by simpa using h.name
  have hlen := congrArg List.length hname
  have hpos := length_render_pos hb
  have hscan : it.scanNext it.name.length (render before).length = _ :=
    scanNext_part hname h.size (h.nul t (by simp)) (by rw [hlen]; simp; omega)
  refine h.move (by simp) ?_
  rw [findNext, if_neg, if_neg, h.current, hscan, if_pos]
  · simp only [render_append, render_cons, render_nil, List.length_append, List.length_cons, List.length_nil]
    omega
  · rw [h.size, hlen]
    simp only [List.length_append, List.length_cons]
    omega
  · rw [h.current]
    omega
  · rw [h.size, h.current, hlen]
    simp only [List.length_append, List.length_cons]
    omega

theorem At.next_last (h : At it before [[]]) : At it.next (before ++ [[]]) [] := by
  have hname : it.name = render before ++ [0] := by simpa using h.name
  have hfuel : it.name.length = (render before).length + 1 := by simpa using congrArg List.length hname
  have hsize : it.size = it.current + 1 := by
    rw [h.size, h.current, hfuel]
    rfl
  have hscan : it.scanNext it.name.length it.current = it.size := by
    rw [hfuel, scanNext, if_neg (by omega), hsize]
  refine h.move (by simp) ?_
  have hnext : it.findNext = it.size := by
    rw [findNext, if_neg (by omega)]
    split_ifs
    · exact hsize.symm
    · rw [hscan]
      simp
  rw [hnext, h.size, hfuel]
  simp

/-- **`--` goes back over one part.** -/
theorem At.prev (h : At it (before ++ [s]) after) : At it.prev before (s :: after) := by
  have hname : it.name = render before ++ (s ++ 0 :: render after) := by simpa using h.name
  have hlen := congrArg List.length hname
  have hcurrent : it.current = ((render before).length : ℤ) + s.length + 1 := by
    rw [h.current]
    simp only [render_append, render_cons, render_nil, List.length_append, List.length_cons, List.length_nil]
    omega
  have hnul : 0 ∉ s := h.nul s (by simp)
  have hscan : it.scanPrevious it.name.length ((render before).length + s.length) = _ :=
    scanPrevious_part (render_getLast before) rfl hname hnul
      (by rw [hlen]; simp only [List.length_append, List.length_cons]; omega)
  have hstart : it.current - 1 = ((render before).length : ℤ) + s.length := by omega
  refine h.move (by simp) ?_
  rw [findPrevious, if_neg (by omega), hstart]
  generalize it.scanPrevious it.name.length (((render before).length : ℤ) + s.length) = c at hscan
  dsimp only
  by_cases hb : before = []
  · subst hb
    by_cases hs : s = []
    · rw [if_neg fun h => h.2 hs] at hscan
      have hc : c = -1 := hscan
      rw [if_pos ⟨by omega, by omega⟩, hc]
      rfl
    · rw [if_pos ⟨rfl, hs⟩] at hscan
      rw [if_neg fun h => h.1 hscan, if_neg, hscan]
      · rfl
      · rintro ⟨-, hbyte⟩
        obtain ⟨b, s, rfl⟩ := List.exists_cons_of_ne_nil hs
        have hname' : it.name = [] ++ b :: (s ++ 0 :: render after) := by simpa using hname
        have := byte_append hname'
        rw [List.length_nil, Nat.cast_zero, ← hscan, hbyte] at this
        exact hnul (by simp [← this])
  · have hpos := length_render_pos hb
    rw [if_neg fun h => absurd h.1 (List.length_pos_iff.mp hpos)] at hscan
    by_cases hone : c = 0
    · -- only the NUL of the cascading root is before
      have hlast : render before = [0] := by
        obtain ⟨b, hb⟩ := List.length_eq_one_iff.mp (show (render before).length = 1 by omega)
        rw [hb, render_getLast before b (by rw [hb]; rfl)]
      have hbyte : it.byte c = 0 := by
        have hname' : it.name = [] ++ 0 :: (s ++ 0 :: render after) := by rw [hname, hlast]; rfl
        have := byte_append hname'
        rwa [List.length_nil, Nat.cast_zero, ← hone] at this
      rw [if_neg fun h => h.1 hone, if_pos ⟨hone, hbyte⟩]
      omega
    · rw [if_pos ⟨hone, by omega⟩]
      omega

/-- `++` goes over one part, unless it is empty and neither the root nor the last one. -/
theorem At.next_filled (h : At it before (s :: after)) (hf : before = [] ∨ s ≠ [] ∨ after = []) :
    At it.next (before ++ [s]) after := by
  by_cases hs : s = []
  · subst hs
    by_cases hb : before = []
    · subst hb
      exact h.next_cascading
    · obtain rfl := (hf.resolve_left hb).resolve_left fun h => h rfl
      exact h.next_last
  · exact h.next hs

theorem At.ext {it' : NameIterator} (h : At it before after) (h' : At it' before after) : it' = it := by
  cases it
  cases it'
  obtain ⟨hn, hs, hc, -⟩ := h
  obtain ⟨hn', hs', hc', -⟩ := h'
  dsimp only at hn hs hc hn' hs' hc'
  rw [hn, hs, hc, hn', hs', hc', hn, hn']

end At

end NameIterator

/-! ## Loops -/

section Loops

open NameIterator

variable {I : Type} {next : I → I} {get : I → Str} {pos : I → ℤ}

/-- The loop from `first` to `last` ends, and reads `l`. -/
def Yields (next : I → I) (get : I → Str) (pos : I → ℤ) (first last : I) (l : List Str) : Prop :=
  ∃ fuel, traverse next get pos last fuel first = some l

theorem Yields.stop {first last : I} (h : pos first = pos last) : Yields next get pos first last [] :=
  ⟨1, if_pos h⟩

theorem Yields.step {first last : I} {l : List Str} (h : pos first ≠ pos last)
    (hrest : Yields next get pos (next first) last l) : Yields next get pos first last (get first :: l) := by
  obtain ⟨fuel, hfuel⟩ := hrest
  refine ⟨fuel + 1, ?_⟩
  rw [traverse, if_neg h, hfuel]
  rfl

theorem traverse_unique {last : I} : ∀ {fuel fuel' : ℕ} {first : I} {l l' : List Str},
    traverse next get pos last fuel first = some l → traverse next get pos last fuel' first = some l' → l = l'
  | 0, _, _, _, _, h, _ => by cases h
  | _ + 1, 0, _, _, _, _, h' => by cases h'
  | fuel + 1, fuel' + 1, first, l, l', h, h' => by
    rw [traverse] at h h'
    split_ifs at h h' with hstop
    · exact (Option.some.inj h).symm.trans (Option.some.inj h')
    · obtain ⟨t, ht, rfl⟩ := Option.map_eq_some_iff.mp h
      obtain ⟨t', ht', rfl⟩ := Option.map_eq_some_iff.mp h'
      rw [traverse_unique ht ht']

theorem Yields.unique {first last : I} {l l' : List Str} (h : Yields next get pos first last l)
    (h' : Yields next get pos first last l') : l = l' := by
  obtain ⟨fuel, h⟩ := h
  obtain ⟨fuel', h'⟩ := h'
  exact traverse_unique h h'

/-- The parts that `++` stops at: the one behind an empty part is left out. -/
def visited : List Str → List Str
  | [] => []
  | [s] => [s]
  | s :: t :: l => if s = [] then s :: visited l else s :: visited (t :: l)

theorem length_visited : ∀ l : List Str, (visited l).length ≤ l.length
  | [] => le_rfl
  | [_] => le_rfl
  | s :: t :: l => by
    rw [visited]
    split_ifs
    · have := length_visited l
      simp only [List.length_cons]
      omega
    · exact Nat.succ_le_succ (length_visited (t :: l))

theorem visited_eq_iff : ∀ l : List Str, visited l = l ↔ ∀ s ∈ l.dropLast, s ≠ []
  | [] => iff_of_true rfl (by simp)
  | [_] => iff_of_true rfl (by simp)
  | s :: t :: l => by
    rw [visited, List.dropLast_cons_cons, List.forall_mem_cons, ← visited_eq_iff (t :: l)]
    split_ifs with hs
    · refine iff_of_false (fun h => ?_) fun h => h.1 hs
      have hlen := congrArg List.length h
      have := length_visited l
      simp only [List.length_cons] at hlen
      omega
    · rw [List.cons.injEq]
      exact and_congr_left' (iff_of_true rfl hs)

theorem At.current_lt {it : NameIterator} {before after : List Str} (h : At it before after) :
    it.current = it.size ↔ after = [] := by
  rw [h.size, h.current, h.name, List.length_append]
  constructor
  · intro hlen
    by_contra hne
    have := length_render_pos hne
    omega
  · rintro rfl
    simp

theorem yields_next {last : NameIterator} : ∀ {l before : List Str} {it : NameIterator}, At it before l →
    before ≠ [] → last.current = it.size →
    Yields NameIterator.next NameIterator.get NameIterator.pos it last (visited l)
  | [], _, _, h, _, hlast => .stop ((At.current_lt h).mpr rfl |>.trans hlast.symm)
  | [s], before, it, h, hb, hlast => by
    have hrest := yields_next (h.next_filled (.inr (.inr rfl))) (by simp) hlast
    have hne : it.pos ≠ last.pos := fun he => List.cons_ne_nil _ _ ((At.current_lt h).mp (he.trans hlast))
    have := Yields.step hne hrest
    rwa [h.get] at this
  | s :: t :: l, before, it, h, hb, hlast => by
    have hne : it.pos ≠ last.pos := fun he => List.cons_ne_nil _ _ ((At.current_lt h).mp (he.trans hlast))
    rw [visited]
    split_ifs with hs
    · subst hs
      have := Yields.step hne (yields_next (h.next_empty hb) (by simp) hlast)
      rwa [h.get] at this
    · have := Yields.step hne (yields_next (h.next_filled (.inr (.inl hs))) (by simp) hlast)
      rwa [h.get] at this

theorem prev_next {it : NameReverseIterator} (h : 0 < it.current) :
    it.next.toNameIterator = it.toNameIterator.prev := by
  rw [NameReverseIterator.next, NameReverseIterator.findPrevious, if_neg (not_le.mpr h)]
  rfl

theorem yields_prev {last : NameReverseIterator} (hlast : last.current = -1) : ∀ {n : ℕ} {before after : List Str}
    {s : Str} {it : NameReverseIterator}, before.length = n → At it.toNameIterator before (s :: after) →
    Yields NameReverseIterator.next NameReverseIterator.get NameReverseIterator.pos it last (s :: before.reverse)
  | 0, before, after, s, it, hn, h => by
    obtain rfl := List.length_eq_zero_iff.mp hn
    have hcurrent : it.current = 0 := h.current
    have hget : it.get = s := by
      rw [NameReverseIterator.get, if_neg (by omega), h.get]
    have hstop : it.next.pos = last.pos := by
      change it.findPrevious = last.current
      rw [NameReverseIterator.findPrevious, if_pos (by omega), hlast]
    have hne : it.pos ≠ last.pos := by
      change it.current ≠ last.current
      omega
    have : Yields NameReverseIterator.next NameReverseIterator.get NameReverseIterator.pos it last [it.get] :=
      Yields.step hne (.stop hstop)
    rwa [hget] at this
  | n + 1, before, after, s, it, hn, h => by
    obtain rfl | ⟨before, t, rfl⟩ := before.eq_nil_or_concat'
    · cases hn
    have hpos : 0 < (render (before ++ [t])).length := length_render_pos (by simp)
    have hcurrent : it.current = (render (before ++ [t])).length := h.current
    have hget : it.get = s := by
      rw [NameReverseIterator.get, if_neg (by omega), h.get]
    have hne : it.pos ≠ last.pos := by
      change it.current ≠ last.current
      omega
    have hprev : At it.next.toNameIterator before (t :: s :: after) := by
      rw [prev_next (by omega)]
      exact h.prev
    have := Yields.step hne (yields_prev hlast (by simpa using hn) hprev)
    rwa [hget, ← List.reverse_concat] at this

theorem traverse_end {last : NameIterator} : ∀ {fuel : ℕ} {it : NameIterator}, it.current = it.size →
    last.current ≠ it.size → traverse NameIterator.next NameIterator.get NameIterator.pos last fuel it = none
  | 0, _, _, _ => rfl
  | fuel + 1, it, h, hlast => by
    have hnext : it.next = it := by
      rw [NameIterator.next, findNext, if_pos h.ge]
      cases it
      exact congrArg _ h.symm
    have hne : ¬ it.pos = last.pos := fun he => hlast (he.symm.trans h)
    rw [traverse, if_neg hne, hnext, traverse_end h hlast]
    rfl

end Loops

/-! ## The iterators of a key -/

open NameIterator

/-- The iterator behind the parts `before`. -/
def Key.nameAt (key : Key) (before : List Str) : NameIterator :=
  { key.nameBegin with current := (render before).length }

def Key.reverseAt (key : Key) (before : List Str) : NameReverseIterator :=
  { toNameIterator := key.nameAt before }

/-- `--` undoes `++` at each part, for both iterators. -/
def Undoes (key : Key) (P : Path) : Prop :=
  ∀ before after, P.names = before ++ after → after ≠ [] →
    (key.nameAt before).next.prev = key.nameAt before ∧ (key.reverseAt before).next.prev = key.reverseAt before

/-- The loops over the iterators read the parts of the name. -/
structure IteratesName (key : Key) (P : Path) : Prop where
  forward : Yields NameIterator.next NameIterator.get NameIterator.pos key.nameBegin key.nameEnd P.names
  const : Yields NameIterator.next NameIterator.get NameIterator.pos key.cbegin key.cend P.names
  reverse : Yields NameReverseIterator.next NameReverseIterator.get NameReverseIterator.pos key.rbegin key.rend
    P.names.reverse
  undoes : Undoes key P

/-- No part is behind an empty one; the root of a cascading name does not count. -/
def Path.Gapless (P : Path) : Prop := ∀ s ∈ P.parts.dropLast, s.1 ≠ []

section Key

variable {key : Key} {P : Path}

theorem at_nameAt (h : HasName key P) {before after : List Str} (hl : P.names = before ++ after) :
    At (key.nameAt before) before after := by
  have huname : keyUnescapedName key = P.uname := by rw [keyUnescapedName, h.key, h.ukey]
  have hname : (key.nameAt before).name = render before ++ render after := by
    rw [← render_append, ← hl, P.render_names]
    exact huname
  refine ⟨hname, ?_, rfl, fun s hs => ?_⟩
  · change (key.keyUSize : ℤ) = (keyUnescapedName key).length
    rw [h.keyUSize, huname]
  · rw [← hl] at hs
    obtain rfl | hs := List.mem_cons.mp hs
    · exact P.root.nul_level
    · obtain ⟨t, -, rfl⟩ := List.mem_map.mp hs
      exact t.2

theorem at_begin (h : HasName key P) : At key.nameBegin [] P.names := by
  have hl : P.names = [] ++ P.names := rfl
  exact at_nameAt h hl

theorem at_end (h : HasName key P) : At key.nameEnd P.names [] := by
  have hend := at_nameAt h (List.append_nil P.names).symm
  refine ⟨hend.name, hend.size, ?_, hend.nul⟩
  change (key.keyUSize : ℤ) = _
  rw [h.keyUSize, P.render_names]

theorem cbegin_end (h : HasName key P) (fuel : ℕ) :
    traverse NameIterator.next NameIterator.get NameIterator.pos key.cend fuel key.cbegin = none := by
  have hsize : 0 < key.keyUSize := by
    rw [h.keyUSize, ← P.render_names]
    exact length_render_pos (List.cons_ne_nil _ _)
  refine traverse_end rfl ?_
  change (0 : ℤ) ≠ key.keyUSize
  omega

theorem forward_iff (h : HasName key P) : Yields NameIterator.next NameIterator.get NameIterator.pos key.nameBegin
    key.nameEnd P.names ↔ P.Gapless := by
  have hroot := (at_begin h).next_filled (.inl rfl)
  have hstep : Yields _ _ _ _ key.nameEnd _ := yields_next hroot (List.cons_ne_nil _ _) rfl
  have hne : key.nameBegin.pos ≠ key.nameEnd.pos :=
    fun he => List.cons_ne_nil _ _ ((At.current_lt (at_begin h)).mp he)
  have hall := Yields.step hne hstep
  rw [(at_begin h).get] at hall
  have hgap : P.Gapless ↔ visited (P.parts.map Subtype.val) = P.parts.map Subtype.val := by
    rw [visited_eq_iff, ← List.map_dropLast, List.forall_mem_map]
    rfl
  rw [hgap]
  constructor
  · exact fun hy => (List.cons.inj (hall.unique hy)).2
  · intro he
    rw [he] at hall
    exact hall

theorem reverse_yields (h : HasName key P) : Yields NameReverseIterator.next NameReverseIterator.get
    NameReverseIterator.pos key.rbegin key.rend P.names.reverse := by
  obtain ⟨before, s, hl⟩ := (List.eq_nil_or_concat' P.names).resolve_left (List.cons_ne_nil _ _)
  have hend := at_end h
  rw [hl] at hend
  have hpos : 0 < key.nameEnd.current := by
    rw [hend.current]
    have := length_render_pos (l := before ++ [s]) (by simp)
    omega
  have hbegin : At key.rbegin.toNameIterator before [s] := by
    have hstep : (NameReverseIterator.mk key.nameEnd).next.toNameIterator = key.nameEnd.prev := prev_next hpos
    change At (NameReverseIterator.mk key.nameEnd).next.toNameIterator before [s]
    rw [hstep]
    exact hend.prev
  have : Yields _ _ _ key.rbegin key.rend _ := yields_prev rfl rfl hbegin
  rwa [hl, List.reverse_append]

theorem gapless_iff : P.Gapless ↔
    ∀ before s after, P.names = before ++ s :: after → before = [] ∨ s ≠ [] ∨ after = [] := by
  constructor
  · intro hg before s after hl
    cases before with
    | nil => exact .inl rfl
    | cons r before =>
      have hparts : P.parts.map Subtype.val = before ++ s :: after := (List.cons.inj hl).2
      cases after with
      | nil => exact .inr (.inr rfl)
      | cons t after =>
        have hmem : s ∈ (P.parts.map Subtype.val).dropLast := by
          rw [hparts, List.dropLast_append_of_ne_nil (List.cons_ne_nil _ _), List.dropLast_cons_cons]
          simp
        rw [← List.map_dropLast] at hmem
        obtain ⟨x, hx, rfl⟩ := List.mem_map.mp hmem
        exact .inr (.inl (hg x hx))
  · intro hall x hx
    obtain ⟨l, r, hlr⟩ := List.append_of_mem hx
    obtain ⟨init, last, hparts⟩ := (P.parts.eq_nil_or_concat').resolve_left fun h0 => by simp [h0] at hx
    rw [hparts, List.dropLast_concat] at hlr
    have hl : P.names = (P.root.level :: l.map Subtype.val) ++ x.1 :: (r ++ [last]).map Subtype.val := by
      rw [Path.names, hparts, hlr]
      simp
    obtain h0 | h0 | h0 := hall _ _ _ hl
    · cases h0
    · exact h0
    · simp at h0

theorem next_prev {it : NameReverseIterator} (h : 0 ≤ it.current) :
    it.prev.toNameIterator = it.toNameIterator.next := by
  rw [NameReverseIterator.prev, NameReverseIterator.findNext, if_neg (by omega)]
  rfl

theorem undoes_iff (h : HasName key P) : Undoes key P ↔ P.Gapless := by
  rw [gapless_iff]
  constructor
  · intro hu before s after hl
    by_contra hgap
    push Not at hgap
    obtain ⟨hb, rfl, hafter⟩ := hgap
    obtain ⟨t, after, rfl⟩ := List.exists_cons_of_ne_nil hafter
    have hat := at_nameAt h hl
    have hmoved := hat.next_empty hb
    rw [show before ++ [[], t] = (before ++ [[]]) ++ [t] by simp] at hmoved
    have hback := hmoved.prev.current
    rw [(hu _ _ hl (List.cons_ne_nil _ _)).1, hat.current, render_append, List.length_append] at hback
    simp at hback
  · intro hg before after hl hne
    obtain ⟨s, after, rfl⟩ := List.exists_cons_of_ne_nil hne
    have hat := at_nameAt h hl
    refine ⟨hat.ext (hat.next_filled (hg _ _ _ hl)).prev, ?_⟩
    have hext : ∀ it it' : NameReverseIterator, it.toNameIterator = it'.toNameIterator → it = it' := by
      rintro ⟨_⟩ ⟨_⟩ rfl
      rfl
    apply hext
    obtain rfl | ⟨before, t, rfl⟩ := before.eq_nil_or_concat'
    · rfl
    · have hpos : 0 < (key.reverseAt (before ++ [t])).current := by
        have := length_render_pos (l := before ++ [t]) (by simp)
        change (0 : ℤ) < (render (before ++ [t])).length
        omega
      have hprev : At (key.reverseAt (before ++ [t])).next.toNameIterator before (t :: s :: after) := by
        rw [prev_next hpos]
        exact hat.prev
      have hle : 0 ≤ (key.reverseAt (before ++ [t])).next.current := by
        rw [hprev.current]
        omega
      rw [next_prev hle]
      exact hat.ext (hprev.next_filled (hg before t (s :: after) (by rw [hl]; simp)))

/-- **The loop from `cbegin` never ends, and an empty part hides the next one; backwards, all parts are read.** -/
theorem not_iteratesName (h : HasName key P) : ¬ IteratesName key P ∧
    (∀ fuel, traverse NameIterator.next NameIterator.get NameIterator.pos key.cend fuel key.cbegin = none) ∧
    (Yields NameIterator.next NameIterator.get NameIterator.pos key.nameBegin key.nameEnd P.names ↔ P.Gapless) ∧
    Yields NameReverseIterator.next NameReverseIterator.get NameReverseIterator.pos key.rbegin key.rend
      P.names.reverse ∧
    (Undoes key P ↔ P.Gapless) := by
  refine ⟨fun hi => ?_, cbegin_end h, forward_iff h, reverse_yields h, undoes_iff h⟩
  obtain ⟨fuel, hfuel⟩ := hi.const
  rw [cbegin_end h] at hfuel
  cases hfuel

end Key

/-- `user/a` has no gap. -/
theorem not_iteratesName_userA : ¬ IteratesName (keySetName keyNew (some (str "user/a"))).2 userA ∧
    (∀ fuel, traverse NameIterator.next NameIterator.get NameIterator.pos
      (keySetName keyNew (some (str "user/a"))).2.cend fuel (keySetName keyNew (some (str "user/a"))).2.cbegin =
        none) ∧
    (Yields NameIterator.next NameIterator.get NameIterator.pos (keySetName keyNew (some (str "user/a"))).2.nameBegin
      (keySetName keyNew (some (str "user/a"))).2.nameEnd userA.names ↔ userA.Gapless) ∧
    Yields NameReverseIterator.next NameReverseIterator.get NameReverseIterator.pos
      (keySetName keyNew (some (str "user/a"))).2.rbegin (keySetName keyNew (some (str "user/a"))).2.rend
      userA.names.reverse ∧
    (Undoes (keySetName keyNew (some (str "user/a"))).2 userA ↔ userA.Gapless) :=
  not_iteratesName hasName_userA

/-- The loop from `cbegin` to `cend` does not end. -/
theorem iterates_forever : ¬ IteratesName (keySetName keyNew (some (str "user/a"))).2 userA := fun h => by
  obtain ⟨fuel, hfuel⟩ := h.const
  rw [cbegin_end hasName_userA] at hfuel
  cases hfuel

end Elektra
