import Mathlib.Data.List.Basic
import Mathlib.Tactic.Common

/-!
# Texts read in pieces

A text is read in pieces that end after a separator or when the buffer is full.

* `pieces`; `pieces_flatten`: nothing is lost;
* `pieces_append`, `pieces_line`: lines are read one after the other, and in one piece each where they fit;
* `splitOn_cases`, `lines`: texts between separators, and before one.
-/

namespace Elektra.Pieces

variable {α : Type} [DecidableEq α] (sep : α) (size : ℕ)

/-- The pieces of a text, the first of which starts with `acc`. -/
def piecesFrom (acc : List α) : List α → List (List α)
  | [] => if acc = [] then [] else [acc]
  | c :: s =>
    if c = sep ∨ size ≤ acc.length + 1 then (acc ++ [c]) :: piecesFrom [] s else piecesFrom (acc ++ [c]) s

def pieces (s : List α) : List (List α) := piecesFrom sep size [] s

/-- No line, or lines that are complete. -/
def Lines (s : List α) : Prop := s = [] ∨ s.getLast? = some sep

variable {sep size}

theorem piecesFrom_flatten : ∀ (s acc : List α), (piecesFrom sep size acc s).flatten = acc ++ s
  | [], acc => by
    rw [piecesFrom]
    split_ifs with h
    · simp [h]
    · simp
  | c :: s, acc => by
    rw [piecesFrom]
    split_ifs
    · rw [List.flatten_cons, piecesFrom_flatten s []]
      simp
    · rw [piecesFrom_flatten s (acc ++ [c])]
      simp

theorem pieces_flatten (s : List α) : (pieces sep size s).flatten = s := piecesFrom_flatten s []

theorem piecesFrom_append (t : List α) : ∀ (s acc : List α), s.getLast? = some sep →
    piecesFrom sep size acc (s ++ t) = piecesFrom sep size acc s ++ pieces sep size t
  | [], _, h => nomatch h
  | [c], acc, h => by
    obtain rfl : c = sep := Option.some.inj h
    rw [List.singleton_append, piecesFrom, if_pos (Or.inl rfl), piecesFrom, if_pos (Or.inl rfl)]
    rfl
  | c :: d :: s, acc, h => by
    rw [List.getLast?_cons_cons] at h
    rw [List.cons_append, piecesFrom, piecesFrom]
    split_ifs
    · rw [piecesFrom_append t (d :: s) [] h, List.cons_append]
    · exact piecesFrom_append t (d :: s) _ h

theorem pieces_append {s : List α} (h : Lines sep s) (t : List α) :
    pieces sep size (s ++ t) = pieces sep size s ++ pieces sep size t := by
  obtain rfl | h := h
  · rfl
  · exact piecesFrom_append t s [] h

theorem piecesFrom_line (t : List α) : ∀ (l acc : List α), sep ∉ l → acc.length + l.length < size →
    piecesFrom sep size acc (l ++ sep :: t) = (acc ++ l ++ [sep]) :: pieces sep size t
  | [], acc, _, _ => by
    rw [List.nil_append, piecesFrom, if_pos (Or.inl rfl), List.append_nil]
    rfl
  | c :: l, acc, hsep, hlen => by
    rw [List.mem_cons, not_or] at hsep
    rw [List.length_cons] at hlen
    rw [List.cons_append, piecesFrom, if_neg (not_or.mpr ⟨fun he => hsep.1 he.symm, by omega⟩),
      piecesFrom_line t l _ hsep.2 (by simp; omega)]
    simp

theorem pieces_line {l : List α} (hsep : sep ∉ l) (hlen : l.length < size) (t : List α) :
    pieces sep size (l ++ sep :: t) = (l ++ [sep]) :: pieces sep size t :=
  piecesFrom_line t l [] hsep (by simpa using hlen)

/-! ## Separated texts -/

theorem splitOn_cases (sep : α) (l : List α) :
    sep ∉ l ∧ l.splitOn sep = [l] ∨ ∃ s t, l = s ++ sep :: t ∧ sep ∉ s ∧ l.splitOn sep = s :: t.splitOn sep := by
  by_cases h : sep ∈ l
  · obtain ⟨s, t, rfl, hs⟩ := List.eq_append_cons_of_mem h
    exact .inr ⟨s, t, rfl, hs, List.splitOn_append_cons_self_of_not_mem hs t⟩
  · exact .inl ⟨h, List.splitOn_eq_singleton h⟩

/-- The texts that a separator ends. -/
def lines (sep : α) (s : List α) : List (List α) := (s.splitOn sep).dropLast

theorem lines_nil (sep : α) : lines sep [] = [] := rfl

theorem lines_line {sep : α} {l : List α} (h : sep ∉ l) (t : List α) : lines sep (l ++ sep :: t) = l :: lines sep t := by
  rw [lines, List.splitOn_append_cons_self_of_not_mem h, List.dropLast_cons_of_ne_nil (List.splitOn_ne_nil sep t), lines]

theorem length_lines (sep : α) : ∀ {n : ℕ} {s : List α}, s.length = n → (lines sep s).length = s.count sep := by
  intro n
  induction n using Nat.strongRecOn with
  | _ n ih =>
    intro s hn
    obtain ⟨hs, hsplit⟩ | ⟨l, t, rfl, hl, -⟩ := splitOn_cases sep s
    · rw [lines, hsplit, List.count_eq_zero.mpr hs]
      rfl
    · have hlt : t.length < n := by
        rw [← hn, List.length_append, List.length_cons]
        omega
      rw [lines_line hl, List.length_cons, ih t.length hlt rfl, List.count_append, List.count_eq_zero.mpr hl,
        List.count_cons_self, Nat.zero_add]

theorem Lines.cases {sep : α} {s : List α} (h : Lines sep s) :
    s = [] ∨ ∃ l t, s = l ++ sep :: t ∧ sep ∉ l ∧ Lines sep t := by
  obtain rfl | h := h
  · exact .inl rfl
  obtain ⟨hs, -⟩ | ⟨l, t, rfl, hl, -⟩ := splitOn_cases sep s
  · exact absurd (List.mem_of_getLast? h) hs
  · refine .inr ⟨l, t, rfl, hl, ?_⟩
    by_cases ht : t = []
    · exact .inl ht
    · rw [List.getLast?_append_cons, List.getLast?_cons_of_ne_nil ht] at h
      exact .inr h

end Elektra.Pieces
