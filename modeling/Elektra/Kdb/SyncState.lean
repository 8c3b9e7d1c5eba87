import Elektra.Kdb.TwoPhase
import Elektra.Mount.Route
import Elektra.Split.Divide

/-!
# The code of an entry that cannot be written

`splitSync` returns `-i - 2` for entry `i`, which was never read, and `kdbSet` combines that with the
return value of `splitDivide` by a bitwise or. A `1` there takes an even `i` to the entry before.

* `lor_one`: the bitwise or with `1`;
* `FailsAt`, `splitSyncLoop_fails`: the entry that is failed at, and the code for it;
* `syncstate`, **`decoded_iff`**, `syncstate_wrong`: what the code is decoded to;
* `kdbSet_reports`, `kdbSet_asserts`, **`splitSync_reported`**.
-/

namespace Elektra

/-! ## The bitwise or -/

theorem ldiff_one (n : ℕ) : Nat.ldiff n 1 = 2 * (n / 2) := by
  refine Nat.eq_of_testBit_eq fun i => ?_
  rw [Nat.testBit_ldiff]
  cases i with
  | zero => simp
  | succ i =>
    rw [Nat.testBit_succ, Nat.testBit_succ, Nat.testBit_succ, Nat.mul_div_cancel_left _ two_pos]
    simp

theorem lor_one (n : ℕ) : Int.lor 1 (Int.negSucc n) = Int.negSucc (2 * (n / 2)) :=
  congrArg Int.negSucc (ldiff_one n)

theorem lor_zero (x : ℤ) : Int.lor 0 x = x := by
  have hldiff : ∀ n, Nat.ldiff n 0 = n := fun n => Nat.eq_of_testBit_eq fun i => by
    rw [Nat.testBit_ldiff, Nat.zero_testBit, Bool.not_false, Bool.and_true]
  cases x with
  | ofNat n => exact congrArg Int.ofNat (Nat.zero_or n)
  | negSucc n => exact congrArg Int.negSucc (hldiff n)

/-! ## Entries that cannot be written -/

variable {W : Type}

/-- The size recorded at the last `kdbGet`; `none` in a namespace that has none. -/
def SplitEntry.recorded (handle : KDB W) (e : SplitEntry) : Option ℤ :=
  (e.backend handle).size (keyGetNamespace e.parent)

/-- The backend of the entry was read before. -/
def SplitEntry.Writable (handle : KDB W) (e : SplitEntry) : Prop := ∃ n, e.recorded handle = some n ∧ n ≠ -1

/-- The first entry that cannot be written. -/
structure FailsAt (handle : KDB W) (split : Split) (i : ℕ) (e : SplitEntry) : Prop where
  entry : split[i]? = some e
  fails : ¬ e.Writable handle
  before : ∀ j < i, ∀ e', split[j]? = some e' → e'.Writable handle

section Sync

variable {handle : KDB W} {split : Split} {i : ℕ} {e : SplitEntry}

theorem SameRoute.recorded {e e' : SplitEntry} (h : SameRoute e e') : e'.recorded handle = e.recorded handle := by
  rw [SplitEntry.recorded, SplitEntry.recorded, SplitEntry.backend, SplitEntry.backend, h.handle, h.parent]

theorem SameRoute.writable {e e' : SplitEntry} (h : SameRoute e e') : e'.Writable handle ↔ e.Writable handle := by
  rw [SplitEntry.Writable, SplitEntry.Writable, h.recorded]

theorem SplitEntry.not_writable : ¬ e.Writable handle ↔ e.recorded handle = none ∨ e.recorded handle = some (-1) := by
  rw [SplitEntry.Writable]
  cases e.recorded handle with
  | none => simp
  | some n => simp

theorem splitSyncLoop_fails : ∀ {split : Split} {i : ℕ} (start : ℕ) (needsSync : ℤ), FailsAt handle split i e →
    (splitSyncLoop handle start split needsSync).1 =
        (if e.recorded handle = none then -1 else -((start + i : ℕ) : ℤ) - 2) ∧
      ∃ e', (splitSyncLoop handle start split needsSync).2[i]? = some e' ∧ e'.parent = e.parent
  | [], i, _, _, h => by cases h.entry
  | e₀ :: split, 0, start, needsSync, h => by
    obtain rfl : e₀ = e := Option.some.inj h.entry
    have hsize : (e₀.backend handle).size (keyGetNamespace e₀.parent) = e₀.recorded handle := rfl
    rw [splitSyncLoop, hsize]
    obtain hnone | hnever := SplitEntry.not_writable.mp h.fails
    · rw [hnone]
      exact ⟨rfl, e₀, rfl, rfl⟩
    · rw [hnever]
      exact ⟨rfl, e₀, rfl, rfl⟩
  | e₀ :: split, i + 1, start, needsSync, h => by
    have hsize : (e₀.backend handle).size (keyGetNamespace e₀.parent) = e₀.recorded handle := rfl
    obtain ⟨n, hn, hne⟩ := h.before 0 (Nat.succ_pos i) e₀ rfl
    have htail : FailsAt handle split i e :=
      ⟨h.entry, h.fails, fun j hj e' he' => h.before (j + 1) (Nat.succ_lt_succ hj) e' he'⟩
    have hadd : start + 1 + i = start + (i + 1) := by omega
    rw [splitSyncLoop, hsize, hn]
    dsimp only
    rw [if_neg hne, ← hadd]
    by_cases hlen : n ≠ e₀.keyset.length
    · rw [if_pos hlen]
      exact splitSyncLoop_fails (start + 1) 1 htail
    · rw [if_neg hlen]
      exact splitSyncLoop_fails (start + 1) needsSync htail

theorem FailsAt.of_route {split' : Split} (h : FailsAt handle split i e) {f : ℕ → SplitEntry → SplitEntry}
    (hf : ∀ j e, SameRoute e (f j e)) (hget : ∀ j, split'[j]? = (split[j]?).map (f j)) :
    FailsAt handle split' i (f i e) where
  entry := by rw [hget, h.entry, Option.map_some]
  fails := fun hw => h.fails ((hf i e).writable.mp hw)
  before j hj e' he' := by
    rw [hget] at he'
    obtain ⟨e₁, he₁, rfl⟩ := Option.map_eq_some_iff.mp he'
    exact (hf j e₁).writable.mpr (h.before j hj e₁ he₁)

end Sync

/-! ## What the code is decoded to -/

/-- `syncstate = splitDivide (...); syncstate |= splitSync (...)` -/
def syncstate (handle : KDB W) (split : Split) (ks : List Key) : ℤ :=
  let d := splitDivide split handle ks
  Int.lor d.1 (splitSync d.2 handle).1

section Decode

variable {handle : KDB W} {split : Split} {i : ℕ} {e : SplitEntry} {ks : List Key}

theorem splitDivide_fails (hdef : handle.defaultBackend ≠ none) (h : FailsAt handle split i e) (ks : List Key) :
    ∃ e', FailsAt handle (splitDivide split handle ks).2 i e' ∧ SameRoute e e' := by
  obtain ⟨-, hget⟩ := splitDivideLoop_spec ks split 0 fun key _ => getBackend_ne_none hdef key
  have hroute := fun (j : ℕ) (e : SplitEntry) => SplitEntry.fill_route (keysFor handle split ks j) e
  exact ⟨_, h.of_route hroute hget, hroute i e⟩

theorem splitDivide_ret (hdef : handle.defaultBackend ≠ none) (split : Split) (ks : List Key) :
    (splitDivide split handle ks).1 = 1 ∧ (∃ key ∈ ks, keyNeedSync key = true ∧ routed handle split key ≠ none) ∨
      (splitDivide split handle ks).1 = 0 ∧ ∀ key ∈ ks, keyNeedSync key = true → routed handle split key = none := by
  obtain ⟨hret, -⟩ := splitDivideLoop_spec ks split 0 fun key _ => getBackend_ne_none hdef key
  by_cases hany : ∃ key ∈ ks, keyNeedSync key = true ∧ routed handle split key ≠ none
  · refine .inl ⟨hret.trans (if_pos ?_), hany⟩
    obtain ⟨key, hkey, hsync, hrouted⟩ := hany
    rw [List.any_eq_true]
    exact ⟨key, hkey, by rw [hsync, Bool.true_and, Option.isSome_iff_ne_none]; exact hrouted⟩
  · have hnone : ∀ key ∈ ks, keyNeedSync key = true → routed handle split key = none := fun key hkey hsync => by
      by_contra hrouted
      exact hany ⟨key, hkey, hsync, hrouted⟩
    refine .inr ⟨hret.trans (if_neg ?_), hnone⟩
    rw [List.any_eq_true]
    rintro ⟨key, hkey, hboth⟩
    rw [Bool.and_eq_true, Option.isSome_iff_ne_none] at hboth
    exact hboth.2 (hnone key hkey hboth.1)

theorem splitDivide_ne (hdef : handle.defaultBackend ≠ none) (split : Split) (ks : List Key) :
    (splitDivide split handle ks).1 ≠ -1 := by
  obtain ⟨hret, -⟩ | ⟨hret, -⟩ := splitDivide_ret hdef split ks
  · rw [hret]
    decide
  · rw [hret]
    decide

theorem splitSync_fails (h : FailsAt handle split i e) :
    (splitSync split handle).1 = if e.recorded handle = none then -1 else Int.negSucc (i + 1) := by
  obtain ⟨hret, -⟩ := splitSyncLoop_fails 0 0 h
  rw [splitSync, hret]
  split_ifs
  · rfl
  · rw [Int.negSucc_eq]
    push_cast
    ring

/-- **The code leads back to the entry** if that was never read, and no key is to be written or the entry has an
odd index. -/
theorem decoded_iff (hdef : handle.defaultBackend ≠ none) (h : FailsAt handle split i e) :
    -syncstate handle split ks - 2 = i ↔ e.recorded handle = some (-1) ∧
      (i % 2 = 1 ∨ ∀ key ∈ ks, keyNeedSync key = true → routed handle split key = none) := by
  obtain ⟨e', hfails, hroute⟩ := splitDivide_fails hdef h ks
  have hsync := splitSync_fails hfails
  rw [hroute.recorded] at hsync
  have hcode : syncstate handle split ks =
      Int.lor (splitDivide split handle ks).1 (splitSync (splitDivide split handle ks).2 handle).1 := rfl
  rw [hcode, hsync]
  obtain hnone | hnever := SplitEntry.not_writable.mp h.fails
  · -- the code of a wrong namespace is that of no entry
    rw [if_pos hnone, hnone]
    have hminus : (-1 : ℤ) = Int.negSucc 0 := rfl
    obtain ⟨hret, -⟩ | ⟨hret, -⟩ := splitDivide_ret hdef split ks
    · rw [hret, hminus, lor_one, Int.negSucc_eq]
      simp
    · rw [hret, lor_zero]
      simp
  · rw [hnever, if_neg (Option.some_ne_none _), and_iff_right rfl]
    obtain ⟨hret, key, hkey, hneed, hrouted⟩ | ⟨hret, hall⟩ := splitDivide_ret hdef split ks
    · rw [hret, lor_one, Int.negSucc_eq]
      have hnot : ¬ ∀ key ∈ ks, keyNeedSync key = true → routed handle split key = none :=
        fun hall => hrouted (hall key hkey hneed)
      rw [or_iff_left hnot]
      omega
    · rw [hret, lor_zero, Int.negSucc_eq]
      refine iff_of_true ?_ (.inr hall)
      push_cast
      ring

theorem syncstate_wrong (hdef : handle.defaultBackend ≠ none) (h : FailsAt handle split i e)
    (hnone : e.recorded handle = none) : syncstate handle split ks = -1 := by
  obtain ⟨e', hfails, hroute⟩ := splitDivide_fails hdef h ks
  have hsync := splitSync_fails hfails
  rw [hroute.recorded, if_pos hnone] at hsync
  have hcode : syncstate handle split ks =
      Int.lor (splitDivide split handle ks).1 (splitSync (splitDivide split handle ks).2 handle).1 := rfl
  rw [hcode, hsync]
  obtain ⟨hret, -⟩ | ⟨hret, -⟩ := splitDivide_ret hdef split ks
  · rw [hret]
    exact lor_one 0
  · rw [hret]
    exact lor_zero (-1)

end Decode

/-! ## What kdbSet reports -/

/-- The error that `kdbSet` ends with. -/
structure Reports (env : Environment) (text : Str) (r : SetResult W) : Prop where
  ret : r.ret = -1
  error : ∃ key, r.parentKey = env.setError 107 key text

/-- The parent key that the split is built up for. -/
def warnedParent (env : Environment) (parentKey : Key) : Key :=
  if keyGetNamespace parentKey = .empty then
    env.addWarning 105 parentKey (str "invalid key name passed to kdbSet")
  else parentKey

section Report

variable {handle : KDB W} {split : Split} {i : ℕ} {e : SplitEntry} {ks : List Key} {env : Environment} {world : W}
  {parentKey : Key}

theorem kdbSet_reports (hdef : handle.defaultBackend ≠ none) (hmeta : keyGetNamespace parentKey ≠ .metaName)
    (hsplit : (splitBuildup [] handle (some (warnedParent env parentKey))).2 = split)
    (hfail : FailsAt handle split i e) (hdecoded : -syncstate handle split ks - 2 = i) :
    Reports env (keyName e.parent) (kdbSet env handle world ks parentKey) := by
  obtain ⟨e', hfails, hroute⟩ := splitDivide_fails hdef hfail ks
  obtain ⟨-, e'', hentry, hparent⟩ := splitSyncLoop_fails 0 0 hfails
  have hdivided := splitDivide_ne hdef split ks
  have hcode : Int.lor (splitDivide split handle ks).1 (splitSync (splitDivide split handle ks).2 handle).1 =
      -(i : ℤ) - 2 := by
    have hsame : Int.lor (splitDivide split handle ks).1 (splitSync (splitDivide split handle ks).2 handle).1 =
        syncstate handle split ks := rfl
    omega
  have hindex : (-(-(i : ℤ) - 2) - 2).toNat = i := by omega
  have hfound : (splitSync (splitDivide split handle ks).2 handle).2[i]? = some e'' := hentry
  unfold kdbSet
  dsimp only
  rw [if_neg hmeta]
  unfold warnedParent at hsplit
  generalize (if keyGetNamespace parentKey = .empty then
    env.addWarning 105 parentKey (str "invalid key name passed to kdbSet") else parentKey) = parent at hsplit ⊢
  rw [hsplit, if_neg hdivided, hcode, if_pos (by omega), if_neg (by omega), if_neg (by omega), hindex, hfound,
    Option.elim_some, hparent, hroute.parent]
  exact ⟨rfl, _, rfl⟩

theorem kdbSet_asserts (hdef : handle.defaultBackend ≠ none) (hmeta : keyGetNamespace parentKey ≠ .metaName)
    (hsplit : (splitBuildup [] handle (some (warnedParent env parentKey))).2 = split)
    (hwrong : syncstate handle split ks = -1) :
    Reports env (str "Assert failed: invalid namespace") (kdbSet env handle world ks parentKey) := by
  have hdivided := splitDivide_ne hdef split ks
  have hcode : Int.lor (splitDivide split handle ks).1 (splitSync (splitDivide split handle ks).2 handle).1 = -1 :=
    hwrong
  unfold kdbSet
  dsimp only
  rw [if_neg hmeta]
  unfold warnedParent at hsplit
  generalize (if keyGetNamespace parentKey = .empty then
    env.addWarning 105 parentKey (str "invalid key name passed to kdbSet") else parentKey) = parent at hsplit ⊢
  rw [hsplit, if_neg hdivided, hcode, if_pos (by decide), if_neg (by decide), if_pos rfl]
  exact ⟨rfl, _, rfl⟩

end Report

/-- A handle after `kdbOpen`, with a backend at `proc/x`. -/
def procMounted : KDB Unit :=
  (mountDefault
    (mountOpen (kdbNew fun b => bareBackend (keyNewName (if b = 0 then str "proc/x" else []))) [some 0]).2
    (some 1) none true).2

def procEntry : SplitEntry :=
  { keyset := [], handle := some 0, parent := keyDup (keyDup (keyNewName (str "proc/x"))), syncbits := 0 }

theorem failsAt_procMounted :
    FailsAt procMounted (splitBuildup [] procMounted (some (keyNewName (str "proc/x")))).2 0 procEntry where
  entry := by rfl
  fails := SplitEntry.not_writable.mpr (.inl (by decide +kernel))
  before j hj := absurd hj (Nat.not_lt_zero j)

end Elektra
