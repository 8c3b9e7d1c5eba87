import Elektra.Search.Buffer

/-!
# Strings in memory

A string ends before its first zero, and memory is a list: what lies outside cannot be read.

* `strnget`: a string of bounded length, as far as it is read;
* `strncpy`, `strncat`: the copy and the concatenation with a bound;
* **`strncpy_of`**, **`strncat_of`**: what they leave in a destination with enough room.
-/

namespace Buffer

def readAt {β : Type} (mem : List β) (i : ℤ) : Option β := if 0 ≤ i then mem[i.toNat]? else none

/-- **The front of the buffer is written over.** -/
theorem writeAt_front {β : Type} {buf bytes : List β} (h : bytes.length ≤ buf.length) :
    writeAt buf 0 bytes = some (bytes ++ buf.drop bytes.length) := by
  have hroom : (0 : ℤ) ≤ 0 ∧ 0 + (bytes.length : ℤ) ≤ buf.length := by omega
  rw [writeAt, if_pos hroom]
  simp

theorem readAt_last {β : Type} {s : List β} (hs : s ≠ []) (z : β) :
    readAt (s ++ [z]) (((s ++ [z]).length : ℤ) - 2) = s.getLast? := by
  obtain ⟨s, c, rfl⟩ := (List.eq_nil_or_concat' s).resolve_left hs
  have hlen : (((s ++ [c] ++ [z]).length : ℤ) - 2) = s.length := by
    simp only [List.length_append, List.length_singleton]
    omega
  rw [readAt, hlen, if_pos (Int.natCast_nonneg _), Int.toNat_natCast]
  simp

variable {α : Type} [Zero α] [DecidableEq α]

/-- The string, up to `n` of its characters; `none` if the memory ends before. -/
def strnget : List α → ℕ → Option (List α)
  | _, 0 => some []
  | [], _ + 1 => none
  | c :: mem, n + 1 => if c = 0 then some [] else (strnget mem n).map (c :: ·)

/-- A string with its zero inside the memory. -/
def strget (mem : List α) : Option (List α) := strnget mem (mem.length + 1)

def strncpy (dest src : List α) (n : ℕ) : Option (List α) := do
  let s ← strnget src n
  writeAt dest 0 (s ++ List.replicate (n - s.length) 0)

def strncat (dest src : List α) (n : ℕ) : Option (List α) := do
  let d ← strget dest
  let s ← strnget src n
  writeAt dest d.length (s ++ [0])

section Reading

variable {s t : List α} (hs : 0 ∉ s)

include hs

theorem strnget_take {n : ℕ} (hn : n ≤ s.length) : strnget (s ++ t) n = some (s.take n) := by
  induction n generalizing s with
  | zero => simp [strnget]
  | succ n ih =>
    cases s with
    | nil => simp at hn
    | cons c s =>
      rw [List.mem_cons, not_or] at hs
      simp only [List.length_cons] at hn
      simp [strnget, Ne.symm hs.1, ih hs.2 (by omega)]

theorem strnget_nul {n : ℕ} (hn : s.length < n) : strnget (s ++ 0 :: t) n = some s := by
  obtain ⟨n, rfl⟩ := Nat.exists_eq_succ_of_ne_zero (by omega : n ≠ 0)
  induction s generalizing n with
  | nil => simp [strnget]
  | cons c s ih =>
    rw [List.mem_cons, not_or] at hs
    simp only [List.length_cons] at hn
    obtain ⟨n, rfl⟩ := Nat.exists_eq_succ_of_ne_zero (by omega : n ≠ 0)
    simp [strnget, Ne.symm hs.1, ih hs.2 n (by omega)]

theorem strget_nul : strget (s ++ 0 :: t) = some s := by
  refine strnget_nul hs ?_
  rw [List.length_append, List.length_cons]
  omega

end Reading

/-- **The characters that were read, zeros up to the bound, and what the destination has behind it.** -/
theorem strncpy_of {dest src s : List α} {n : ℕ} (hread : strnget src n = some s) (hs : s.length ≤ n)
    (hdest : n ≤ dest.length) :
    strncpy dest src n = some (s ++ List.replicate (n - s.length) 0 ++ dest.drop n) := by
  have hlen : (s ++ List.replicate (n - s.length) (0 : α)).length = n := by simp [hs]
  rw [strncpy, hread, Option.bind_eq_bind, Option.bind_some, writeAt_front (by rw [hlen]; exact hdest), hlen]

/-- **The string in the destination is continued.** -/
theorem strncat_of {d s src old : List α} {n : ℕ} (post : List α) (hd : 0 ∉ d) (hread : strnget src n = some s)
    (hroom : old.length = s.length) :
    strncat (d ++ 0 :: (old ++ post)) src n = some (d ++ (s ++ 0 :: post)) := by
  have hwrite : writeAt (d ++ 0 :: (old ++ post)) d.length (s ++ [0]) = some (d ++ (s ++ [0] ++ post)) :=
    @writeAt_append α d (0 :: old) post (s ++ [0]) _ rfl (by simp [hroom])
  simp only [strncat, strget_nul hd, hread, Option.bind_eq_bind, Option.bind_some, hwrite]
  simp

end Buffer
