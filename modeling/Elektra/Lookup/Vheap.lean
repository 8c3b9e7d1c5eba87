import Elektra.Lookup.Frame
import Elektra.Sorted.BinaryHeap

/-!
# Vheap

A binary heap of pointers in an array that is doubled and halved. `room` pointers fit into the memory
that `data` points to; what is read or written beyond them, and what is read before it was written,
is a fault. Whether memory is granted is not up to the heap, but more than `PTRDIFF_MAX` bytes
never are.

* `Vheap`, `elektraVheapInit`, `elektraVheapInsert`, `elektraVheapRemove`, `elektraVheapClear`;
* `Bag.Allows`: what the heap is for, on the multiset of its elements;
* `Holds`: a heap that holds a multiset;
* `insert_allowed`, `remove_allowed`: every call does what it is for;
* **`vheap_iff`**: every sequence of calls.
-/

namespace Elektra.Opmphm

open BinaryHeap

/-! ## The functions -/

variable {α : Type}

inductive Fault
  /-- an index outside of the allocated array -/
  | outside
  /-- an element that was never written -/
  | unwritten
  /-- a loop that does not end -/
  | rounds
  deriving DecidableEq, Repr

abbrev VheapComp (α : Type) := α → α → Bool

/-- `struct _Vheap`, but for `comp` -/
structure Vheap (α : Type) where
  data : ℕ → Option α
  /-- the pointers that fit into the memory of `data` -/
  room : ℕ
  count : ℕ
  size : ℕ
  minSize : ℕ

def PTRDIFF_MAX : ℕ := 2 ^ 63 - 1

/-- `sizeof (void *)` -/
def pointerSize : ℕ := 8

/-- `size * sizeof (void *)`, in a `size_t` -/
def bytes (size : ℕ) : ℕ := size * pointerSize % 2 ^ 64

/-- `malloc` and `realloc` -/
def grants (granted : Bool) (size : ℕ) : Bool := granted && decide (bytes size ≤ PTRDIFF_MAX)

/-- A null pointer for `comp` is not modelled; `granted` and `granted'` are for the two blocks. -/
def elektraVheapInit (minSize : ℕ) (granted granted' : Bool) : Option (Vheap α) :=
  if minSize < 1 then none
  else if !granted then none
  else if !grants granted' minSize then none
  else
    some { data := fun _ => none, room := bytes minSize / pointerSize, count := 0, size := minSize, minSize := minSize }

namespace Vheap

variable (v : Vheap α)

def read (i : ℕ) : Except Fault α :=
  if i < v.room then (v.data i).elim (.error .unwritten) .ok else .error .outside

def write (i : ℕ) (x : α) : Except Fault (Vheap α) :=
  if i < v.room then .ok { v with data := Function.update v.data i (some x) } else .error .outside

/-- `elektraRealloc`, to `size` pointers -/
def realloc (size : ℕ) (granted : Bool) : Option (Vheap α) :=
  if grants granted size then
    some { v with
      room := bytes size / pointerSize, data := fun i => if i < bytes size / pointerSize then v.data i else none }
  else none

end Vheap

/-- The loop of `elektraVheapInsert`; every round makes `pos` smaller. -/
def siftUp (comp : VheapComp α) (data : α) : ℕ → Vheap α → ℕ → Except Fault (Vheap α)
  | _, v, 0 => v.write 0 data
  | 0, _, _ + 1 => .error .rounds
  | fuel + 1, v, pos + 1 => do
    let parent := pos / 2
    let above ← v.read parent
    if comp above data then v.write (pos + 1) data
    else do
      let v ← v.write (pos + 1) above
      siftUp comp data fuel v parent

/-- The part of `elektraVheapInsert` behind the reallocation. -/
def place (comp : VheapComp α) (v : Vheap α) (data : α) : Except Fault (ℤ × Vheap α) := do
  let v ← siftUp comp data (v.count - 1) v (v.count - 1)
  .ok (0, v)

def elektraVheapInsert (comp : VheapComp α) (v : Vheap α) (data : α) (granted : Bool) : Except Fault (ℤ × Vheap α) :=
  let v := { v with count := (v.count + 1) % 2 ^ 64 }
  -- grow
  if v.size < v.count then
    let v := { v with size := v.size * 2 % 2 ^ 64 }
    match v.realloc v.size granted with
    | none => .ok (1, { v with count := v.count - 1, size := v.size / 2 })
    | some v => place comp v data
  else place comp v data

/-- The child that comes first, in a round of the loop of `elektraVheapRemove`. -/
def chooseChild (comp : VheapComp α) (v : Vheap α) (child : ℕ) : Except Fault ℕ :=
  if child + 1 < v.count then do
    let right ← v.read (child + 1)
    let left ← v.read child
    .ok (if comp right left then child + 1 else child)
  else .ok child

/-- The loop of `elektraVheapRemove`; every round makes `child` greater. What is read is inside of the array, so that
`child` does not overflow. -/
def siftDown (comp : VheapComp α) : ℕ → Vheap α → ℕ → ℕ → Except Fault (Vheap α)
  | 0, v, _, child => if child < v.count then .error .rounds else .ok v
  | fuel + 1, v, elem, child =>
    if child < v.count then do
      let child ← chooseChild comp v child
      let below ← v.read child
      let above ← v.read elem
      if comp below above then do
        let v ← v.write child above
        let v ← v.write elem below
        siftDown comp fuel v child (child * 2 + 1)
      else .ok v
    else .ok v

/-- The part of `elektraVheapRemove` behind the reallocation. -/
def takeRoot (comp : VheapComp α) (v : Vheap α) : Except Fault (Option α × Vheap α) := do
  let ret ← v.read 0
  let last ← v.read v.count
  let v ← v.write 0 last
  let v ← siftDown comp v.count v 0 1
  .ok (some ret, v)

def elektraVheapRemove (comp : VheapComp α) (v : Vheap α) (granted : Bool) : Except Fault (Option α × Vheap α) :=
  if v.count = 0 then .ok (none, v)
  else
    -- shrink
    let v := { v with count := v.count - 1 }
    if v.minSize < v.size ∧ v.count ≤ v.size / 4 then
      let v := { v with size := v.size / 2 }
      match v.realloc v.size granted with
      | none => .ok (none, { v with count := v.count + 1, size := v.size * 2 % 2 ^ 64 })
      | some v => takeRoot comp v
    else takeRoot comp v

def elektraVheapClear (v : Vheap α) : ℤ × Vheap α := (0, { v with count := 0 })

/-! ## Sifting -/

/-- The first `n` cells hold these elements. -/
def Stores (d : ℕ → Option α) (n : ℕ) (f : ℕ → α) : Prop := ∀ i < n, d i = some (f i)

section Sifting

variable (comp : VheapComp α) {v : Vheap α} {f : ℕ → α} {n i : ℕ} {x : α}

theorem read_stores (h : Stores v.data n f) (hi : i < n) (hn : n ≤ v.room) : v.read i = .ok (f i) := by
  rw [Vheap.read, if_pos (hi.trans_le hn), h i hi]
  rfl

theorem write_inside (hi : i < v.room) (x : α) :
    v.write i x = .ok { v with data := Function.update v.data i (some x) } := if_pos hi

theorem stores_update {d : ℕ → Option α} (h : ∀ k < n, k ≠ i → d k = some (f k)) :
    Stores (Function.update d i (some (f i))) n f := by
  intro k hk
  by_cases hki : k = i
  · rw [hki, Function.update_self]
  · rw [Function.update_of_ne hki]
    exact h k hk hki

variable [IsStrictWeakOrder α fun a b => comp a b = true]

/-- **Sifting up** mends the order, from a hole for the element. -/
theorem siftUp_spec : ∀ (fuel : ℕ) {v : Vheap α} {pos : ℕ} {f : ℕ → α}, pos ≤ fuel → pos < n → n ≤ v.room →
    (∀ k < n, k ≠ pos → v.data k = some (f k)) → f pos = x → UpTo (fun a b => comp a b = true) n f pos →
    ∃ d g, siftUp comp x fuel v pos = .ok { v with data := d } ∧ Stores d n g ∧
      Ordered (fun a b => comp a b = true) n g ∧ contents n g = contents n f
  | fuel, v, 0, f, _, hpos, hroom, hcells, hx, hup => by
    refine ⟨_, f, ?_, stores_update hcells, hup.finish fun h => absurd h (Nat.lt_irrefl 0), rfl⟩
    rw [hx, ← write_inside (hpos.trans_le hroom)]
    cases fuel <;> rfl
  | 0, _, _ + 1, _, hfuel, _, _, _, _, _ => absurd hfuel (Nat.not_succ_le_zero _)
  | fuel + 1, v, pos + 1, f, hfuel, hpos, hroom, hcells, hx, hup => by
    have hparent : parent (pos + 1) = pos / 2 := by rw [parent, Nat.add_sub_cancel]
    have hlt : pos / 2 < pos + 1 := by omega
    have hread : v.read (pos / 2) = .ok (f (pos / 2)) := by
      rw [Vheap.read, if_pos (by omega), hcells _ (hlt.trans hpos) hlt.ne]
      rfl
    have hwrite := @write_inside _ v (pos + 1) (hpos.trans_le hroom)
    rw [siftUp, hread]
    change ∃ d g, (if comp (f (pos / 2)) x = true then v.write (pos + 1) x else
      v.write (pos + 1) (f (pos / 2)) >>= fun v => siftUp comp x fuel v (pos / 2)) = _ ∧ _
    by_cases hcomp : comp (f (pos / 2)) x = true
    · -- it stays below its parent
      rw [if_pos hcomp, hwrite, ← hx]
      refine ⟨_, f, rfl, stores_update hcells, hup.finish fun _ => ?_, rfl⟩
      rw [hparent, hx]
      exact asymm_of (fun a b => comp a b = true) hcomp
    · rw [if_neg hcomp, hwrite]
      have hmove := hup.move (Nat.succ_pos pos) hpos (by rw [hparent, hx]; exact hcomp)
      rw [hparent] at hmove
      obtain ⟨d, g, hrun, hstores, hordered, hcontents⟩ := siftUp_spec fuel
        (v := { v with data := Function.update v.data (pos + 1) (some (f (pos / 2))) }) (by omega) (hlt.trans hpos) hroom
        (fun k hk hne => by
          dsimp only
          by_cases hkp : k = pos + 1
          · rw [hkp, Function.update_self, swap_left]
          · rw [Function.update_of_ne hkp, swap_of_ne hkp hne]
            exact hcells k hk hkp) (by rw [swap_right, hx]) hmove
      exact ⟨d, g, hrun, hstores, hordered, hcontents.trans (contents_swap hpos (hlt.trans hpos))⟩

theorem parent_eq_iff {i elem : ℕ} (h : 0 < i) : parent i = elem ↔ i = elem * 2 + 1 ∨ i = elem * 2 + 1 + 1 := by
  rw [parent]
  omega

theorem chooseChild_spec {elem : ℕ} (hcount : v.count = n) (hchild : elem * 2 + 1 < n) (hroom : n ≤ v.room)
    (hcells : Stores v.data n f) :
    ∃ c, chooseChild comp v (elem * 2 + 1) = .ok c ∧ 0 < c ∧ c < n ∧ parent c = elem ∧
      ∀ i, 0 < i → i < n → parent i = elem → ¬ comp (f i) (f c) = true := by
  have hirrefl : ∀ a : α, ¬ comp a a = true := fun a => irrefl_of (fun a b => comp a b = true) a
  have hleft : parent (elem * 2 + 1) = elem := (parent_eq_iff (Nat.succ_pos _)).mpr (.inl rfl)
  rw [chooseChild, hcount]
  by_cases hright : elem * 2 + 1 + 1 < n
  · rw [if_pos hright, read_stores hcells hright hroom, read_stores hcells hchild hroom]
    refine ⟨_, rfl, ?_⟩
    split_ifs with hcomp
    · refine ⟨Nat.succ_pos _, hright, (parent_eq_iff (Nat.succ_pos _)).mpr (.inr rfl), fun i h0 hi hp => ?_⟩
      obtain rfl | rfl := (parent_eq_iff h0).mp hp
      · exact asymm_of (fun a b => comp a b = true) hcomp
      · exact hirrefl _
    · refine ⟨Nat.succ_pos _, hchild, hleft, fun i h0 hi hp => ?_⟩
      obtain rfl | rfl := (parent_eq_iff h0).mp hp
      · exact hirrefl _
      · exact hcomp
  · rw [if_neg hright]
    refine ⟨_, rfl, Nat.succ_pos _, hchild, hleft, fun i h0 hi hp => ?_⟩
    obtain rfl | rfl := (parent_eq_iff h0).mp hp
    · exact hirrefl _
    · exact absurd hi hright

/-- **Sifting down** mends the order, from an element that its children may come before. -/
theorem siftDown_spec : ∀ (fuel : ℕ) {v : Vheap α} {elem : ℕ} {f : ℕ → α}, v.count = n → n ≤ elem * 2 + 1 + fuel →
    n ≤ v.room → Stores v.data n f → DownFrom (fun a b => comp a b = true) n f elem →
    ∃ d g, siftDown comp fuel v elem (elem * 2 + 1) = .ok { v with data := d } ∧ Stores d n g ∧
      Ordered (fun a b => comp a b = true) n g ∧ contents n g = contents n f := by
  intro fuel
  -- without children the order is mended
  have hleaf : ∀ {v : Vheap α} {elem : ℕ} {f : ℕ → α}, ¬ elem * 2 + 1 < n → Stores v.data n f →
      DownFrom (fun a b => comp a b = true) n f elem →
      ∃ d g, Except.ok v = (.ok { v with data := d } : Except Fault (Vheap α)) ∧ Stores d n g ∧
        Ordered (fun a b => comp a b = true) n g ∧ contents n g = contents n f := by
    intro v elem f hno hcells hdown
    refine ⟨v.data, f, rfl, hcells, hdown.finish fun i h0 hi hp => absurd ((parent_eq_iff h0).mp hp) ?_, rfl⟩
    omega
  induction fuel with
  | zero =>
    intro v elem f hcount hfuel hroom hcells hdown
    have hno : ¬ elem * 2 + 1 < n := by omega
    rw [siftDown, if_neg (by rwa [hcount])]
    exact hleaf hno hcells hdown
  | succ fuel ih =>
    intro v elem f hcount hfuel hroom hcells hdown
    by_cases hchild : elem * 2 + 1 < n
    · obtain ⟨c, hchoose, h0, hc, hp, hfirst⟩ := chooseChild_spec comp hcount hchild hroom hcells
      have hlt : elem < c := hp ▸ parent_lt h0
      have hround : siftDown comp (fuel + 1) v elem (elem * 2 + 1) =
          if comp (f c) (f elem) then siftDown comp fuel { v with
            data := Function.update (Function.update v.data c (some (f elem))) elem (some (f c)) } c (c * 2 + 1)
          else .ok v := by
        rw [siftDown, if_pos (by rwa [hcount]), hchoose]
        change (v.read c >>= fun below => v.read elem >>= fun above => if comp below above = true then
          v.write c above >>= fun v => v.write elem below >>= fun v => siftDown comp fuel v c (c * 2 + 1)
          else .ok v) = _
        rw [read_stores hcells hc hroom, read_stores hcells (hlt.trans hc) hroom]
        change (if comp (f c) (f elem) = true then
          v.write c (f elem) >>= fun v => v.write elem (f c) >>= fun v => siftDown comp fuel v c (c * 2 + 1)
          else .ok v) = _
        rw [write_inside (hc.trans_le hroom)]
        change (if comp (f c) (f elem) = true then
          Vheap.write { v with data := Function.update v.data c (some (f elem)) } elem (f c) >>= fun v =>
            siftDown comp fuel v c (c * 2 + 1)
          else .ok v) = _
        rw [write_inside (v := { v with data := Function.update v.data c (some (f elem)) })
          ((hlt.trans hc).trans_le hroom)]
        rfl
      rw [hround]
      split_ifs with hcomp
      · have hcells' : Stores (Function.update (Function.update v.data c (some (f elem))) elem (some (f c))) n
            (swap f elem c) := by
          intro k hk
          by_cases hke : k = elem
          · rw [hke, Function.update_self, swap_left]
          · rw [Function.update_of_ne hke]
            by_cases hkc : k = c
            · rw [hkc, Function.update_self, swap_right]
            · rw [Function.update_of_ne hkc, swap_of_ne hke hkc]
              exact hcells k hk
        obtain ⟨d, g, hrun, hstores, hordered, hcontents⟩ := ih (v := { v with
          data := Function.update (Function.update v.data c (some (f elem))) elem (some (f c)) })
          hcount (by omega) hroom hcells' (hdown.move h0 hc hp hfirst hcomp)
        exact ⟨d, g, hrun, hstores, hordered, hcontents.trans (contents_swap (hlt.trans hc) hc)⟩
      · refine ⟨v.data, f, rfl, hcells, hdown.finish fun i h0 hi hp' => ?_, rfl⟩
        exact not_before_trans (r := fun a b => comp a b = true) (hfirst i h0 hi hp') hcomp
    · rw [siftDown, if_neg (by rwa [hcount])]
      exact hleaf hchild hcells hdown

end Sifting

/-! ## What the heap is for -/

inductive Call (α : Type)
  | insert (data : α) (granted : Bool)
  | remove (granted : Bool)
  | clear

inductive Answer (α : Type)
  | code (ret : ℤ)
  | element (ret : Option α)

section Runs

variable (comp : VheapComp α)

def Call.run (v : Vheap α) : Call α → Except Fault (Answer α × Vheap α)
  | .insert data granted => do
    let (ret, v) ← elektraVheapInsert comp v data granted
    .ok (.code ret, v)
  | .remove granted => do
    let (ret, v) ← elektraVheapRemove comp v granted
    .ok (.element ret, v)
  | .clear => .ok (.code (elektraVheapClear v).1, (elektraVheapClear v).2)

/-- Calls, one after the other. -/
def run : Vheap α → List (Call α) → Except Fault (List (Answer α) × Vheap α)
  | v, [] => .ok ([], v)
  | v, c :: calls => do
    let (answer, v) ← c.run comp v
    let (answers, v) ← run v calls
    .ok (answer :: answers, v)

/-- What a call may answer, where these elements are present, and which are present then. -/
inductive Allows (s : Multiset α) : Call α → Answer α → Multiset α → Prop
  | inserted (x : α) (granted : Bool) : Allows s (.insert x granted) (.code 0) (x ::ₘ s)
  /-- no memory for twice as many -/
  | full (x : α) (granted : Bool) (h : granted = false ∨ PTRDIFF_MAX < Multiset.card s * 2 * pointerSize) :
    Allows s (.insert x granted) (.code 1) s
  /-- one that is first in the order -/
  | removed (x : α) (granted : Bool) (s' : Multiset α) (hs : s = x ::ₘ s') (hx : ∀ y ∈ s, ¬ comp y x = true) :
    Allows s (.remove granted) (.element (some x)) s'
  | nothing (granted : Bool) (h : granted = false ∨ s = 0) : Allows s (.remove granted) (.element none) s
  | cleared : Allows s .clear (.code 0) 0

inductive Follows : Multiset α → List (Call α) → List (Answer α) → Multiset α → Prop
  | nil (s : Multiset α) : Follows s [] [] s
  | cons {s s' s'' : Multiset α} {c : Call α} {answer : Answer α} {calls : List (Call α)} {answers : List (Answer α)}
    (h : Allows comp s c answer s') (hs : Follows s' calls answers s'') : Follows s (c :: calls) (answer :: answers) s''

/-- The elements of a heap stand inside of its array. -/
def Contains (v : Vheap α) (s : Multiset α) : Prop :=
  v.count ≤ v.room ∧ ∃ f, Stores v.data v.count f ∧ contents v.count f = s

/-- The calls meet no fault, each answers what it may, and the heap contains what is present then. -/
def Correct (v : Vheap α) (calls : List (Call α)) : Prop :=
  ∃ answers v' s, run comp v calls = .ok (answers, v') ∧ Follows comp 0 calls answers s ∧ Contains v' s

end Runs

/-! ## One call -/

/-- The array has the size that is recorded, and memory for it was granted. -/
structure Sized (v : Vheap α) : Prop where
  least : 1 ≤ v.minSize
  grown : ∃ k, v.size = v.minSize * 2 ^ k
  room : v.room = v.size
  limit : v.size * pointerSize ≤ PTRDIFF_MAX

/-- A heap that holds these elements. -/
structure Holds (comp : VheapComp α) (v : Vheap α) (s : Multiset α) : Prop where
  sized : Sized v
  fits : v.count ≤ v.size
  cells : ∃ f, Stores v.data v.count f ∧ Ordered (fun a b => comp a b = true) v.count f ∧ contents v.count f = s

section Sizes

variable {v : Vheap α} {n : ℕ}

theorem bytes_eq (h : n < 2 ^ 61) : bytes n = n * pointerSize := by
  rw [bytes, pointerSize, Nat.mod_eq_of_lt (by omega)]

theorem grants_iff (h : n < 2 ^ 61) (granted : Bool) :
    grants granted n = true ↔ granted = true ∧ n * pointerSize ≤ PTRDIFF_MAX := by
  rw [grants, bytes_eq h, Bool.and_eq_true, decide_eq_true_iff]

theorem Sized.lt (h : Sized v) : v.size < 2 ^ 60 := by
  have hlimit := h.limit
  rw [pointerSize, PTRDIFF_MAX] at hlimit
  omega

theorem Sized.pos (h : Sized v) : 0 < v.size := by
  obtain ⟨k, hk⟩ := h.grown
  rw [hk]
  exact Nat.mul_pos h.least (Nat.two_pow_pos k)

theorem realloc_eq (h : n < 2 ^ 61) (granted : Bool) : v.realloc n granted =
    if granted = true ∧ n * pointerSize ≤ PTRDIFF_MAX then
      some { v with room := n, data := fun i => if i < n then v.data i else none }
    else none := by
  have hroom : bytes n / pointerSize = n := by
    rw [bytes_eq h, pointerSize, Nat.mul_div_cancel _ (by decide)]
  rw [Vheap.realloc, hroom]
  exact if_congr (grants_iff h granted) rfl rfl

theorem realloc_stores {d : ℕ → Option α} {f : ℕ → α} {m : ℕ} (h : Stores d m f) (hm : m ≤ n) :
    Stores (fun i => if i < n then d i else none) m f := fun i hi => by
  dsimp only
  rw [if_pos (hi.trans_le hm)]
  exact h i hi

end Sizes

section Calls

variable (comp : VheapComp α) [IsStrictWeakOrder α fun a b => comp a b = true] {v : Vheap α} {s : Multiset α} {f : ℕ → α}
  {n : ℕ}

theorem place_spec (hcount : v.count = n + 1) (hroom : n + 1 ≤ v.room) (hcells : Stores v.data n f)
    (hordered : Ordered (fun a b => comp a b = true) n f) (x : α) :
    ∃ d g, place comp v x = .ok (0, { v with data := d }) ∧ Stores d (n + 1) g ∧
      Ordered (fun a b => comp a b = true) (n + 1) g ∧ contents (n + 1) g = x ::ₘ contents n f := by
  obtain ⟨d, g, hrun, hstores, hordered', hcontents⟩ := siftUp_spec comp (x := x) n (v := v) le_rfl
    (Nat.lt_succ_self n) hroom (fun k hk hne => by
      rw [Function.update_of_ne hne]
      exact hcells k (by omega)) (Function.update_self _ _ _) (hordered.append x)
  refine ⟨d, g, ?_, hstores, hordered', hcontents.trans (contents_append x)⟩
  have hlast : v.count - 1 = n := by rw [hcount, Nat.add_sub_cancel]
  rw [place, hlast, hrun]
  rfl

/-- **An insertion.** -/
theorem insert_allowed (h : Holds comp v s) (x : α) (granted : Bool) :
    ∃ ret v' s', elektraVheapInsert comp v x granted = .ok (ret, v') ∧
      Allows comp s (.insert x granted) (.code ret) s' ∧ Holds comp v' s' := by
  obtain ⟨f, hcells, hordered, rfl⟩ := h.cells
  obtain ⟨k, hk⟩ := h.sized.grown
  have hlt := h.sized.lt
  have hroom := h.sized.room
  have hlimit := h.sized.limit
  have hpos := h.sized.pos
  have hfits := h.fits
  have hcount : (v.count + 1) % 2 ^ 64 = v.count + 1 := Nat.mod_eq_of_lt (by omega)
  unfold elektraVheapInsert
  dsimp only
  rw [hcount]
  by_cases hgrow : v.size < v.count + 1
  · have hfull : v.count = v.size := by omega
    have hsize : v.size * 2 % 2 ^ 64 = v.size * 2 := Nat.mod_eq_of_lt (by omega)
    rw [if_pos hgrow, hsize, realloc_eq (by omega)]
    by_cases hmem : granted = true ∧ v.size * 2 * pointerSize ≤ PTRDIFF_MAX
    · rw [if_pos hmem]
      dsimp only
      obtain ⟨d, g, hrun, hstores, hordered', hcontents⟩ := place_spec comp (n := v.count) (f := f)
        (v := { v with
          count := v.count + 1, size := v.size * 2, room := v.size * 2
          data := fun i => if i < v.size * 2 then v.data i else none })
        rfl (by dsimp only; omega) (realloc_stores hcells (by omega)) hordered x
      refine ⟨_, _, _, hrun, .inserted x granted, ⟨⟨h.sized.least, ⟨k + 1, ?_⟩, rfl, hmem.2⟩, ?_, g, hstores, hordered',
        hcontents⟩⟩
      · dsimp only
        rw [hk, pow_succ, Nat.mul_assoc]
      · dsimp only
        omega
    · rw [if_neg hmem]
      dsimp only
      rw [Nat.add_sub_cancel, Nat.mul_div_cancel _ (by decide)]
      refine ⟨_, _, _, rfl, .full x granted ?_, h⟩
      rw [card_contents, hfull]
      cases granted with
      | false => exact .inl rfl
      | true => exact .inr (not_le.mp fun hle => hmem ⟨rfl, hle⟩)
  · rw [if_neg hgrow]
    obtain ⟨d, g, hrun, hstores, hordered', hcontents⟩ := place_spec comp (n := v.count) (f := f)
      (v := { v with count := v.count + 1 }) rfl (by dsimp only; omega) hcells hordered x
    exact ⟨_, _, _, hrun, .inserted x granted, ⟨h.sized.least, h.sized.grown, hroom, hlimit⟩, not_lt.mp hgrow, g, hstores,
      hordered', hcontents⟩

theorem takeRoot_spec (hroom : v.count + 1 ≤ v.room) (hcells : Stores v.data (v.count + 1) f)
    (hordered : Ordered (fun a b => comp a b = true) (v.count + 1) f) :
    ∃ d g, takeRoot comp v = .ok (some (f 0), { v with data := d }) ∧ Stores d v.count g ∧
      Ordered (fun a b => comp a b = true) v.count g ∧ contents (v.count + 1) f = f 0 ::ₘ contents v.count g := by
  have hreplaced : Stores (Function.update v.data 0 (some (f v.count))) v.count (Function.update f 0 (f v.count)) := by
    intro k hk
    by_cases hk0 : k = 0
    · rw [hk0, Function.update_self, Function.update_self]
    · rw [Function.update_of_ne hk0, Function.update_of_ne hk0]
      exact hcells k (by omega)
  obtain ⟨d, g, hrun, hstores, hordered', hcontents⟩ := siftDown_spec comp v.count
    (v := { v with data := Function.update v.data 0 (some (f v.count)) }) rfl (by dsimp only; omega) (by dsimp only; omega) hreplaced
    (hordered.replaceRoot (f v.count))
  refine ⟨d, g, ?_, hstores, hordered', ?_⟩
  · rw [takeRoot, read_stores hcells (Nat.succ_pos _) hroom, read_stores hcells (Nat.lt_succ_self _) hroom]
    change (v.write 0 (f v.count) >>= fun w => siftDown comp w.count w 0 1 >>= fun v => .ok (some (f 0), v)) = _
    rw [write_inside (by omega)]
    change (siftDown comp v.count { v with data := Function.update v.data 0 (some (f v.count)) } 0 (0 * 2 + 1) >>= fun v =>
      Except.ok (some (f 0), v)) = _
    rw [hrun]
    rfl
  · rw [contents_replaceRoot, hcontents]

/-- **A removal.** -/
theorem remove_allowed (h : Holds comp v s) (granted : Bool) :
    ∃ ret v' s', elektraVheapRemove comp v granted = .ok (ret, v') ∧
      Allows comp s (.remove granted) (.element ret) s' ∧ Holds comp v' s' := by
  obtain ⟨f, hcells, hordered, rfl⟩ := h.cells
  obtain ⟨k, hk⟩ := h.sized.grown
  have hlt := h.sized.lt
  have hroom := h.sized.room
  have hlimit := h.sized.limit
  have hfits := h.fits
  unfold elektraVheapRemove
  by_cases h0 : v.count = 0
  · rw [if_pos h0]
    exact ⟨_, _, _, rfl, .nothing granted (.inr (by rw [h0]; rfl)), h⟩
  · obtain ⟨n, hn⟩ := Nat.exists_eq_succ_of_ne_zero h0
    rw [hn] at hcells hordered
    have hpred : v.count - 1 = n := by rw [hn]; rfl
    have hfirst : ∀ y ∈ contents (n + 1) f, ¬ comp y (f 0) = true := by
      intro y hy
      obtain ⟨i, hi, rfl⟩ := mem_contents.mp hy
      exact hordered.root i hi
    rw [if_neg h0, hpred, hn]
    dsimp only
    by_cases hshrink : v.minSize < v.size ∧ n ≤ v.size / 4
    · -- the size was doubled before
      obtain ⟨j, rfl⟩ : ∃ j, k = j + 1 := Nat.exists_eq_succ_of_ne_zero fun hk0 => by
        rw [hk, hk0, pow_zero, Nat.mul_one] at hshrink
        exact hshrink.1.false
      have hhalf : v.size = v.minSize * 2 ^ j * 2 := by rw [hk, pow_succ, Nat.mul_assoc]
      have hdiv : v.size / 2 = v.minSize * 2 ^ j := by rw [hhalf, Nat.mul_div_cancel _ (by decide)]
      have hpos : 0 < v.minSize * 2 ^ j := Nat.mul_pos h.sized.least (Nat.two_pow_pos j)
      rw [if_pos hshrink, hdiv, realloc_eq (by omega)]
      by_cases hmem : granted = true ∧ v.minSize * 2 ^ j * pointerSize ≤ PTRDIFF_MAX
      · rw [if_pos hmem]
        dsimp only
        obtain ⟨d, g, hrun, hstores, hordered', hcontents⟩ := takeRoot_spec comp (f := f)
          (v := { v with
            count := n, size := v.minSize * 2 ^ j, room := v.minSize * 2 ^ j
            data := fun i => if i < v.minSize * 2 ^ j then v.data i else none })
          (by dsimp only; omega) (realloc_stores hcells (by dsimp only; omega)) hordered
        exact ⟨_, _, _, hrun, .removed (f 0) granted _ hcontents hfirst,
          ⟨⟨h.sized.least, ⟨j, rfl⟩, rfl, hmem.2⟩, by dsimp only; omega, g, hstores, hordered', rfl⟩⟩
      · have hback : v.minSize * 2 ^ j * 2 % 2 ^ 64 = v.size := by
          rw [← hhalf]
          exact Nat.mod_eq_of_lt (by omega)
        rw [if_neg hmem]
        dsimp only
        have hsame : ({ v with count := n + 1 } : Vheap α) = v := by rw [show n + 1 = v.count from hn.symm]
        rw [hback, hsame]
        refine ⟨_, _, _, rfl, .nothing granted (.inl ?_), hn ▸ h⟩
        refine Bool.eq_false_of_not_eq_true fun hgranted => hmem ⟨hgranted, ?_⟩
        rw [pointerSize] at hlimit ⊢
        omega
    · rw [if_neg hshrink]
      obtain ⟨d, g, hrun, hstores, hordered', hcontents⟩ := takeRoot_spec comp (f := f)
        (v := { v with count := n }) (by dsimp only; omega) hcells hordered
      exact ⟨_, _, _, hrun, .removed (f 0) granted _ hcontents hfirst,
        ⟨⟨h.sized.least, h.sized.grown, hroom, hlimit⟩, by dsimp only; omega, g, hstores, hordered', rfl⟩⟩

theorem call_allowed (h : Holds comp v s) (c : Call α) :
    ∃ answer v' s', c.run comp v = .ok (answer, v') ∧ Allows comp s c answer s' ∧ Holds comp v' s' := by
  cases c with
  | insert x granted =>
    obtain ⟨ret, v', s', hrun, hallows, hholds⟩ := insert_allowed comp h x granted
    exact ⟨_, v', s', by rw [Call.run, hrun]; rfl, hallows, hholds⟩
  | remove granted =>
    obtain ⟨ret, v', s', hrun, hallows, hholds⟩ := remove_allowed comp h granted
    exact ⟨_, v', s', by rw [Call.run, hrun]; rfl, hallows, hholds⟩
  | clear =>
    obtain ⟨f, -⟩ := h.cells
    exact ⟨_, _, 0, rfl, .cleared, ⟨h.sized.least, h.sized.grown, h.sized.room, h.sized.limit⟩, Nat.zero_le _, f,
      fun i hi => absurd hi (Nat.not_lt_zero i), fun i _ hi => absurd hi (Nat.not_lt_zero i), rfl⟩

/-! ## Every sequence of calls -/

theorem run_follows : ∀ (calls : List (Call α)) {v : Vheap α} {s : Multiset α}, Holds comp v s →
    ∃ answers v' s', run comp v calls = .ok (answers, v') ∧ Follows comp s calls answers s' ∧ Holds comp v' s'
  | [], v, s, h => ⟨[], v, s, rfl, .nil s, h⟩
  | c :: calls, v, s, h => by
    obtain ⟨answer, v₁, s₁, hrun, hallows, h₁⟩ := call_allowed comp h c
    obtain ⟨answers, v', s', hrun', hfollows, h'⟩ := run_follows calls h₁
    refine ⟨answer :: answers, v', s', ?_, .cons hallows hfollows, h'⟩
    rw [run, hrun]
    change (run comp v₁ calls >>= fun x => Except.ok (answer :: x.1, x.2)) = _
    rw [hrun']
    rfl

omit [IsStrictWeakOrder α fun a b => comp a b = true] in
theorem init_spec {minSize : ℕ} {granted granted' : Bool} (h : elektraVheapInit minSize granted granted' = some v) :
    1 ≤ minSize ∧ grants granted' minSize = true ∧ v.count = 0 ∧ v.size = minSize ∧ v.minSize = minSize ∧
      v.room = bytes minSize / pointerSize := by
  unfold elektraVheapInit at h
  split_ifs at h with h1 h2 h3
  obtain rfl := Option.some.inj h
  exact ⟨by omega, by simpa using h3, rfl, rfl, rfl, rfl⟩

omit [IsStrictWeakOrder α fun a b => comp a b = true] in
theorem holds_init [Nonempty α] {minSize : ℕ} {granted granted' : Bool}
    (h : elektraVheapInit minSize granted granted' = some v) (hsize : minSize < 2 ^ 61) : Holds comp v 0 := by
  obtain ⟨hleast, hgrants, hcount, hsz, hmin, hroom⟩ := init_spec h
  obtain ⟨-, hlimit⟩ := (grants_iff hsize granted').mp hgrants
  refine ⟨⟨hmin.symm ▸ hleast, ⟨0, by rw [hsz, hmin, pow_zero, Nat.mul_one]⟩, ?_, by rw [hsz]; exact hlimit⟩,
    by rw [hcount]; exact Nat.zero_le _, ?_⟩
  · rw [hroom, hsz, bytes_eq hsize, pointerSize, Nat.mul_div_cancel _ (by decide)]
  · obtain ⟨x⟩ := ‹Nonempty α›
    rw [hcount]
    exact ⟨fun _ => x, fun i hi => absurd hi (Nat.not_lt_zero i), fun i _ hi => absurd hi (Nat.not_lt_zero i), rfl⟩

end Calls

/-! ## An array that is too small -/

section Overflow

variable {comp : VheapComp α} {v v' : Vheap α} {x : α}

/-- The numbers of the heap are as before. -/
structure SameSizes (v v' : Vheap α) : Prop where
  count : v'.count = v.count
  room : v'.room = v.room
  size : v'.size = v.size

theorem write_sizes {i : ℕ} (h : v.write i x = .ok v') : SameSizes v v' := by
  unfold Vheap.write at h
  split_ifs at h
  obtain rfl := Except.ok.inj h
  exact ⟨rfl, rfl, rfl⟩

theorem siftUp_sizes : ∀ (fuel : ℕ) {v : Vheap α} {pos : ℕ}, siftUp comp x fuel v pos = .ok v' → SameSizes v v'
  | fuel, v, 0, h => by
    cases fuel <;> exact write_sizes h
  | 0, _, _ + 1, h => by cases h
  | fuel + 1, v, pos + 1, h => by
    rw [siftUp] at h
    obtain ⟨above, -, h⟩ := except_bind_ok h
    split_ifs at h
    · exact write_sizes h
    · obtain ⟨w, hw, h⟩ := except_bind_ok h
      obtain ⟨hcount, hroom, hsize⟩ := write_sizes hw
      obtain ⟨hcount', hroom', hsize'⟩ := siftUp_sizes fuel h
      exact ⟨hcount'.trans hcount, hroom'.trans hroom, hsize'.trans hsize⟩

theorem insert_sizes {granted : Bool} {ret : ℤ} (h : elektraVheapInsert comp v x granted = .ok (ret, v'))
    (hfits : v.count + 1 ≤ v.size) (hsize : v.size < 2 ^ 64) :
    v'.count = v.count + 1 ∧ v'.room = v.room ∧ v'.size = v.size := by
  have hcount : (v.count + 1) % 2 ^ 64 = v.count + 1 := Nat.mod_eq_of_lt (by omega)
  unfold elektraVheapInsert at h
  dsimp only at h
  rw [hcount, if_neg (by omega), place] at h
  obtain ⟨w, hw, h⟩ := except_bind_ok h
  obtain ⟨-, rfl⟩ := Prod.mk.inj (Except.ok.inj h)
  obtain ⟨hc, hr, hs⟩ := siftUp_sizes _ hw
  exact ⟨hc, hr, hs⟩

theorem inserts_sizes : ∀ (n : ℕ) {v v' : Vheap α} {answers : List (Answer α)},
    run comp v (List.replicate n (.insert x true)) = .ok (answers, v') → v.count + n ≤ v.size → v.size < 2 ^ 64 →
    v'.count = v.count + n ∧ v'.room = v.room
  | 0, v, _, _, h, _, _ => by
    obtain ⟨-, rfl⟩ := Prod.mk.inj (Except.ok.inj h)
    exact ⟨rfl, rfl⟩
  | n + 1, v, _, _, h, hfits, hsize => by
    rw [List.replicate_succ, run] at h
    obtain ⟨⟨answer, w⟩, hcall, h⟩ := except_bind_ok h
    obtain ⟨⟨answers, w'⟩, hrun, h⟩ := except_bind_ok h
    obtain ⟨-, rfl⟩ := Prod.mk.inj (Except.ok.inj h)
    obtain ⟨⟨ret, w₁⟩, hinsert, hcall⟩ := except_bind_ok hcall
    obtain ⟨-, rfl⟩ := Prod.mk.inj (Except.ok.inj hcall)
    obtain ⟨hcount, hroom, hsz⟩ := insert_sizes hinsert (by omega) hsize
    obtain ⟨hcount', hroom'⟩ := inserts_sizes n hrun (by omega) (by omega)
    exact ⟨by omega, hroom'.trans hroom⟩

end Overflow

/-- **A heap is a multiset from which removals take what is first in the order,** for every sequence of calls, just
when the bytes of its least size are counted without overflow. -/
theorem vheap_iff [Nonempty α] (comp : VheapComp α) [IsStrictWeakOrder α fun a b => comp a b = true] {minSize : ℕ}
    {granted granted' : Bool} {v : Vheap α} (hmin : minSize < 2 ^ 64)
    (hinit : elektraVheapInit minSize granted granted' = some v) :
    (∀ calls, Correct comp v calls) ↔ minSize < 2 ^ 61 := by
  constructor
  · intro hcorrect
    by_contra hlarge
    obtain ⟨-, -, hcount, hsize, -, hroom⟩ := init_spec hinit
    obtain ⟨x⟩ := ‹Nonempty α›
    have hsmall : v.room < 2 ^ 61 := by
      rw [hroom, pointerSize]
      have := Nat.mod_lt (minSize * pointerSize) (by decide : 0 < 2 ^ 64)
      rw [bytes]
      omega
    -- one element more than there is room for
    obtain ⟨answers, v', s, hrun, -, hinside, -⟩ := hcorrect (List.replicate (v.room + 1) (.insert x true))
    obtain ⟨hcount', hroom'⟩ := inserts_sizes _ hrun (by omega) (by omega)
    omega
  · intro hsize calls
    obtain ⟨answers, v', s, hrun, hfollows, hholds⟩ := run_follows comp calls (holds_init comp hinit hsize)
    obtain ⟨f, hcells, -, hcontents⟩ := hholds.cells
    exact ⟨answers, v', s, hrun, hfollows, hholds.sized.room ▸ hholds.fits, f, hcells, hcontents⟩

/-- A heap of numbers, the least of them first. -/
def before (a b : ℕ) : Bool := decide (a < b)

instance : IsStrictWeakOrder ℕ fun a b => before a b = true where
  irrefl a h := Nat.lt_irrefl a (of_decide_eq_true h)
  trans a b c hab hbc := decide_eq_true ((of_decide_eq_true hab).trans (of_decide_eq_true hbc))
  incomp_trans a b c hab hbc := by
    simp only [before, decide_eq_true_iff] at *
    omega

theorem vheap_one : (∀ calls, Correct before (⟨fun _ => none, 1, 0, 1, 1⟩ : Vheap ℕ) calls) ↔ 1 < 2 ^ 61 :=
  vheap_iff before (by decide) (rfl : elektraVheapInit 1 true true = some ⟨fun _ => none, 1, 0, 1, 1⟩)

/-- Eight bytes are allocated for more than `2 ^ 61` pointers. -/
theorem not_vheap : elektraVheapInit (2 ^ 61 + 1) true true = some (⟨fun _ => none, 1, 0, 2 ^ 61 + 1, 2 ^ 61 + 1⟩ : Vheap ℕ) ∧
    ¬ Correct before (⟨fun _ => none, 1, 0, 2 ^ 61 + 1, 2 ^ 61 + 1⟩ : Vheap ℕ) [.insert 1 true, .insert 2 true] := by
  refine ⟨rfl, ?_⟩
  rintro ⟨answers, v', s, hrun, -⟩
  have hfault : (run before (⟨fun _ => none, 1, 0, 2 ^ 61 + 1, 2 ^ 61 + 1⟩ : Vheap ℕ)
      [.insert 1 true, .insert 2 true]).toOption.isNone = true := by decide +kernel
  rw [hrun] at hfault
  cases hfault

end Elektra.Opmphm
