import Mathlib.Tactic

/-!
# Ordered choice

A query is answered at once, or it tries other queries in order and takes the first answer. Since the
queries it tries may lead back to it, the evaluation is bounded by the depth of the queries inside
one another.

* `Step`, `first`, `eval`; `Resolves`: the answer of a query, without a bound;
* **`eval_eq_ok_iff`**: the evaluation finds an answer exactly when the query resolves to it;
* `Follows`, **`halts_iff_acc`**: it ends exactly when every chain of followed queries is finite.
-/

namespace Choice

variable {Q A E : Type}

/-- What a query does; no answer is `none`. -/
inductive Step (Q A E : Type)
  | answer (a : Option A)
  | error (e : E)
  | attempt (l : List Q)

/-- `e'` is asked where `e` has no answer. -/
def orElse : Except E (Option A) → Except E (Option A) → Except E (Option A)
  | .error e, _ => .error e
  | .ok (some a), _ => .ok (some a)
  | .ok none, e' => e'

/-- The first answer of the queries. -/
def first (run : Q → Except E (Option A)) : List Q → Except E (Option A)
  | [] => .ok none
  | q :: l => do
    match ← run q with
    | some a => .ok (some a)
    | none => first run l

/-- At most `n` queries inside one another; `bound` is the error that there would be more. -/
def eval (step : Q → Step Q A E) (bound : E) : ℕ → Q → Except E (Option A)
  | 0, _ => .error bound
  | n + 1, q =>
    match step q with
    | .answer a => .ok a
    | .error e => .error e
    | .attempt l => first (eval step bound n) l

/-- The answer of a query. -/
inductive Resolves (step : Q → Step Q A E) : Q → Option A → Prop
  | answer {q : Q} {a : Option A} (h : step q = .answer a) : Resolves step q a
  | hit {q t : Q} {pre post : List Q} {a : A} (h : step q = .attempt (pre ++ t :: post))
      (hpre : ∀ x ∈ pre, Resolves step x none) (ht : Resolves step t (some a)) :
      Resolves step q (some a)
  | miss {q : Q} {l : List Q} (h : step q = .attempt l) (hl : ∀ x ∈ l, Resolves step x none) :
      Resolves step q none

/-- `t` is tried for `q`: it is one of its queries, and those before have no answer. -/
def Follows (step : Q → Step Q A E) (t q : Q) : Prop :=
  ∃ pre post, step q = .attempt (pre ++ t :: post) ∧ ∀ x ∈ pre, Resolves step x none

/-! ## The first answer -/

@[simp] theorem orElse_error (e : E) (e' : Except E (Option A)) : orElse (.error e) e' = .error e := rfl

@[simp] theorem orElse_some (a : A) (e' : Except E (Option A)) :
    orElse (.ok (some a)) e' = .ok (some a) := rfl

@[simp] theorem orElse_none (e' : Except E (Option A)) : orElse (.ok none) e' = e' := rfl

theorem first_cons {run : Q → Except E (Option A)} {q : Q} {l : List Q} :
    first run (q :: l) = orElse (run q) (first run l) := by
  rw [first]
  rcases run q with e | _ | a <;> rfl

theorem first_singleton {run : Q → Except E (Option A)} (q : Q) : first run [q] = run q := by
  rw [first_cons]
  rcases run q with e | _ | a <;> rfl

theorem first_append {run : Q → Except E (Option A)} (l l' : List Q) :
    first run (l ++ l') = orElse (first run l) (first run l') := by
  induction l with
  | nil => rfl
  | cons q l ih =>
    rw [List.cons_append, first_cons, first_cons, ih]
    rcases run q with e | _ | a <;> rfl

theorem first_none {run : Q → Except E (Option A)} {l : List Q} (h : ∀ x ∈ l, run x = .ok none) :
    first run l = .ok none := by
  induction l with
  | nil => rfl
  | cons q l ih =>
    rw [first_cons, h q List.mem_cons_self, orElse_none]
    exact ih fun x hx => h x (List.mem_cons_of_mem q hx)

theorem first_ok {run : Q → Except E (Option A)} {a : Option A} : ∀ {l : List Q},
    first run l = .ok a → (a = none ∧ ∀ x ∈ l, run x = .ok none) ∨
      ∃ pre t post b, l = pre ++ t :: post ∧ (∀ x ∈ pre, run x = .ok none) ∧ run t = .ok (some b) ∧
        a = some b
  | [], h => Or.inl ⟨(Except.ok.inj h).symm, by simp⟩
  | q :: l, h => by
    rw [first_cons] at h
    rcases hq : run q with e | _ | b
    · rw [hq] at h
      cases h
    · rw [hq] at h
      obtain ⟨ha, hl⟩ | ⟨pre, t, post, b, rfl, hpre, ht, hab⟩ := first_ok h
      · exact Or.inl ⟨ha, List.forall_mem_cons.mpr ⟨hq, hl⟩⟩
      · exact Or.inr ⟨q :: pre, t, post, b, rfl, List.forall_mem_cons.mpr ⟨hq, hpre⟩, ht, hab⟩
    · rw [hq] at h
      exact Or.inr ⟨[], q, l, b, rfl, by simp, hq, (Except.ok.inj h).symm⟩

theorem first_mono {run run' : Q → Except E (Option A)} {bound : E}
    (h : ∀ q, run q ≠ .error bound → run' q = run q) : ∀ {l : List Q},
    first run l ≠ .error bound → first run' l = first run l
  | [], _ => rfl
  | q :: l, hl => by
    rw [first_cons] at hl
    have hq : run q ≠ .error bound := by
      intro he
      rw [he] at hl
      exact hl rfl
    rw [first_cons, first_cons, h q hq]
    rcases hr : run q with e | _ | a
    · rfl
    · rw [hr] at hl
      exact first_mono h hl
    · rfl

/-! ## Bounds -/

section Eval

variable {step : Q → Step Q A E} {bound : E}

theorem eval_succ {n : ℕ} : ∀ {q : Q}, eval step bound n q ≠ .error bound →
    eval step bound (n + 1) q = eval step bound n q := by
  induction n with
  | zero => exact fun h => absurd rfl h
  | succ n ih =>
    intro q h
    rw [eval] at h
    rw [eval, eval]
    cases hs : step q with
    | answer a => rfl
    | error e => rfl
    | attempt l =>
      rw [hs] at h
      exact first_mono (fun q => ih) h

theorem eval_le {n n' : ℕ} (hn : n ≤ n') {q : Q} (h : eval step bound n q ≠ .error bound) :
    eval step bound n' q = eval step bound n q := by
  induction hn with
  | refl => rfl
  | step _ ih => rw [eval_succ (by rw [ih]; exact h), ih]

theorem eval_eq {n n' : ℕ} {q : Q} (h : eval step bound n q ≠ .error bound)
    (h' : eval step bound n' q ≠ .error bound) : eval step bound n q = eval step bound n' q := by
  obtain hn | hn := Nat.le_total n n'
  · exact (eval_le hn h).symm
  · exact eval_le hn h'

theorem exists_bound {l : List Q} {a : Q → Option A}
    (h : ∀ x ∈ l, ∃ n, eval step bound n x = .ok (a x)) :
    ∃ n, ∀ x ∈ l, eval step bound n x = .ok (a x) := by
  induction l with
  | nil => exact ⟨0, by simp⟩
  | cons q l ih =>
    obtain ⟨n, hn⟩ := h q List.mem_cons_self
    obtain ⟨n', hn'⟩ := ih fun x hx => h x (List.mem_cons_of_mem q hx)
    refine ⟨max n n', List.forall_mem_cons.mpr ⟨?_, fun x hx => ?_⟩⟩
    · rw [eval_le (le_max_left n n') (by rw [hn]; exact nofun), hn]
    · rw [eval_le (le_max_right n n') (by rw [hn' x hx]; exact nofun), hn' x hx]

/-! ## Answers -/

theorem resolves_of_eval {n : ℕ} : ∀ {q : Q} {a : Option A},
    eval step bound n q = .ok a → Resolves step q a := by
  induction n with
  | zero => exact fun h => by cases h
  | succ n ih =>
    intro q a h
    rw [eval] at h
    cases hs : step q with
    | answer b =>
      rw [hs] at h
      obtain rfl : b = a := Except.ok.inj h
      exact .answer hs
    | error e =>
      rw [hs] at h
      cases h
    | attempt l =>
      rw [hs] at h
      obtain ⟨rfl, hl⟩ | ⟨pre, t, post, b, rfl, hpre, ht, rfl⟩ := first_ok h
      · exact .miss hs fun x hx => ih (hl x hx)
      · exact .hit hs (fun x hx => ih (hpre x hx)) (ih ht)

theorem eval_of_resolves {q : Q} {a : Option A} (h : Resolves step q a) :
    ∃ n, eval step bound n q = .ok a := by
  induction h with
  | answer h => exact ⟨1, by rw [eval, h]⟩
  | @hit q t pre post a h hpre ht ihpre iht =>
    obtain ⟨n, hn⟩ := exists_bound ihpre
    obtain ⟨n', hn'⟩ := iht
    refine ⟨max n n' + 1, ?_⟩
    have hall : ∀ x ∈ pre, eval step bound (max n n') x = .ok none := fun x hx => by
      rw [eval_le (le_max_left n n') (by rw [hn x hx]; exact nofun), hn x hx]
    have hhit : eval step bound (max n n') t = .ok (some a) := by
      rw [eval_le (le_max_right n n') (by rw [hn']; exact nofun), hn']
    rw [eval, h]
    dsimp only
    rw [first_append, first_none hall, orElse_none, first_cons, hhit, orElse_some]
  | @miss q l h hl ih =>
    obtain ⟨n, hn⟩ := exists_bound ih
    exact ⟨n + 1, by rw [eval, h]; exact first_none hn⟩

/-- **The evaluation finds an answer, under some bound, exactly when the query resolves to it.** -/
theorem eval_eq_ok_iff {q : Q} {a : Option A} :
    (∃ n, eval step bound n q = .ok a) ↔ Resolves step q a :=
  ⟨fun ⟨_, h⟩ => resolves_of_eval h, eval_of_resolves⟩

theorem Resolves.unique (bound : E) {q : Q} {a b : Option A} (ha : Resolves step q a)
    (hb : Resolves step q b) : a = b := by
  obtain ⟨n, hn⟩ := @eval_of_resolves _ _ _ _ bound _ _ ha
  obtain ⟨n', hn'⟩ := @eval_of_resolves _ _ _ _ bound _ _ hb
  have heq := @eval_eq _ _ _ step bound n n' q (by rw [hn]; exact nofun) (by rw [hn']; exact nofun)
  exact Except.ok.inj (hn.symm.trans (heq.trans hn'))

/-! ## Termination -/

/-- What a query that is answered within the bound follows is answered within the smaller one. -/
theorem Follows.halts {n : ℕ} {t q : Q} (h : Follows step t q)
    (hq : eval step bound (n + 1) q ≠ .error bound) : eval step bound n t ≠ .error bound := by
  obtain ⟨pre, post, hs, hpre⟩ := h
  rw [eval, hs] at hq
  dsimp only at hq
  clear hs
  induction pre with
  | nil =>
    rw [List.nil_append, first_cons] at hq
    intro ht
    rw [ht] at hq
    exact hq rfl
  | cons x pre ih =>
    rw [List.cons_append, first_cons] at hq
    have hx : eval step bound n x = .ok none := by
      have hne : eval step bound n x ≠ .error bound := by
        intro he
        rw [he] at hq
        exact hq rfl
      obtain ⟨n', hn'⟩ := @eval_of_resolves _ _ _ _ bound _ _ (hpre x List.mem_cons_self)
      exact (eval_eq hne (by rw [hn']; exact nofun)).trans hn'
    rw [hx] at hq
    exact ih hq fun y hy => hpre y (List.mem_cons_of_mem x hy)

theorem first_halts {l : List Q} (h : ∀ pre t post, l = pre ++ t :: post →
    (∀ x ∈ pre, Resolves step x none) → ∃ n, eval step bound n t ≠ .error bound) :
    ∃ n, first (eval step bound n) l ≠ .error bound := by
  induction l with
  | nil => exact ⟨0, by simp [first]⟩
  | cons q l ih =>
    obtain ⟨n, hn⟩ := h [] q l rfl (by simp)
    rcases hq : eval step bound n q with e | _ | a
    · refine ⟨n, ?_⟩
      rw [first_cons, hq]
      rwa [hq] at hn
    · obtain ⟨n', hn'⟩ := ih fun pre t post hl hpre => h (q :: pre) t post (by rw [hl]; rfl)
        (List.forall_mem_cons.mpr ⟨resolves_of_eval hq, hpre⟩)
      refine ⟨max n n', ?_⟩
      have hl : first (eval step bound (max n n')) l = first (eval step bound n') l :=
        first_mono (fun x hx => eval_le (le_max_right n n') hx) hn'
      rw [first_cons, eval_le (le_max_left n n') hn, hq, hl]
      exact hn'
    · refine ⟨n, ?_⟩
      rw [first_cons, hq]
      exact nofun

/-- **The evaluation ends exactly when every chain of queries, each followed from the one before, is
finite.** -/
theorem halts_iff_acc (herr : ∀ q e, step q = .error e → e ≠ bound) {q : Q} :
    (∃ n, eval step bound n q ≠ .error bound) ↔ Acc (Follows step) q := by
  constructor
  · rintro ⟨n, hn⟩
    induction n generalizing q with
    | zero => exact absurd rfl hn
    | succ n ih => exact Acc.intro q fun t ht => ih (ht.halts hn)
  · intro hacc
    induction hacc with
    | intro q _ ih =>
      cases hs : step q with
      | answer a => exact ⟨1, by rw [eval, hs]; exact nofun⟩
      | error e =>
        refine ⟨1, ?_⟩
        rw [eval, hs]
        exact fun he => herr q e hs (Except.error.inj he)
      | attempt l =>
        obtain ⟨n, hn⟩ := first_halts (l := l) fun pre t post hl hpre =>
          ih t ⟨pre, post, hl ▸ hs, hpre⟩
        exact ⟨n + 1, by rw [eval, hs]; exact hn⟩

end Eval

end Choice
