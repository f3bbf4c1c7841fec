import Mathlib.Data.List.Basic
import Mathlib.Data.Nat.SuccPred
import Mathlib.Order.Interval.Finset.Nat
import Mathlib.Order.Interval.Finset.SuccPred

/-! Counted loops that may fail: `foldlM` over a range, one round at a time, how
many rounds with work in them are still to come, loops that keep the state in which
a round stopped them, and loops of C whose condition looks at the counter. -/

namespace Lib

variable {α : Type*}

theorem foldlM_range_succ (f : α → ℕ → Option α) (a : α) (n : ℕ) :
    (List.range (n + 1)).foldlM f a = ((List.range n).foldlM f a).bind (f · n) := by
  rw [List.range_succ, List.foldlM_append]
  cases (List.range n).foldlM f a <;> simp

theorem foldlM_range_one (f : α → ℕ → Option α) (a : α) : (List.range 1).foldlM f a = f a 0 := by
  rw [foldlM_range_succ]
  rfl

/-- What every round keeps, the loop keeps. -/
theorem foldlM_range_rule {f : α → ℕ → Option α} {I : α → Prop}
    (hstep : ∀ a i b, I a → f a i = some b → I b) {a b : α} (n : ℕ) (h0 : I a)
    (h : (List.range n).foldlM f a = some b) : I b := by
  induction n generalizing b with
  | zero =>
    obtain rfl : a = b := by simpa using h
    exact h0
  | succ n ih =>
    rw [foldlM_range_succ] at h
    obtain ⟨c, hc, hb⟩ := Option.bind_eq_some_iff.1 h
    exact hstep c n b (ih hc) hb

/-- The numbers from `n` to below `N` that satisfy `P`. -/
def remaining (P : ℕ → Prop) [DecidablePred P] (N n : ℕ) : ℕ := ((Finset.Ico n N).filter P).card

variable {P : ℕ → Prop} [DecidablePred P] {N n : ℕ}

theorem insert_first (hn : n < N) : insert n (Finset.Ico (n + 1) N) = Finset.Ico n N :=
  Finset.insert_Ico_succ_left_eq_Ico hn

theorem remaining_pos (hn : n < N) (hp : P n) : remaining P N n = remaining P N (n + 1) + 1 := by
  unfold remaining
  rw [← insert_first hn, Finset.filter_insert, if_pos hp, Finset.card_insert_of_notMem (by simp)]

theorem remaining_neg (hn : n < N) (hp : ¬ P n) : remaining P N n = remaining P N (n + 1) := by
  unfold remaining
  rw [← insert_first hn, Finset.filter_insert, if_neg hp]

/-- One of them is settled, the others stay. -/
theorem remaining_settle {Q : ℕ → Prop} [DecidablePred Q] {k : ℕ} (hn : n ≤ k) (hk : k < N)
    (hp : P k) (hQ : ∀ i < N, Q i ↔ P i ∧ i ≠ k) : remaining P N n = remaining Q N n + 1 := by
  have herase : (Finset.Ico n N).filter Q = ((Finset.Ico n N).filter P).erase k := by
    ext i
    simp only [Finset.mem_filter, Finset.mem_Ico, Finset.mem_erase]
    constructor
    · rintro ⟨hi, hq⟩
      exact ⟨((hQ i hi.2).1 hq).2, hi, ((hQ i hi.2).1 hq).1⟩
    · rintro ⟨hne, hi, hpi⟩
      exact ⟨hi, (hQ i hi.2).2 ⟨hpi, hne⟩⟩
  have hmem : k ∈ (Finset.Ico n N).filter P := by
    simp only [Finset.mem_filter, Finset.mem_Ico]
    exact ⟨⟨hn, hk⟩, hp⟩
  unfold remaining
  rw [herase, Finset.card_erase_add_one hmem]

theorem remaining_anti {n' : ℕ} (h : n ≤ n') : remaining P N n' ≤ remaining P N n := by
  apply Finset.card_le_card
  apply Finset.filter_subset_filter
  exact Finset.Ico_subset_Ico_left h

theorem remaining_le (P : ℕ → Prop) [DecidablePred P] : remaining P N n ≤ N - n := by
  unfold remaining
  rw [← Nat.card_Ico n N]
  exact Finset.card_filter_le _ _

theorem remaining_none (h : ∀ i, n ≤ i → i < N → ¬ P i) : remaining P N n = 0 := by
  apply Finset.card_eq_zero.2
  apply Finset.filter_eq_empty_iff.2
  intro i hi
  exact h i (Finset.mem_Ico.1 hi).1 (Finset.mem_Ico.1 hi).2

theorem remaining_congr {Q : ℕ → Prop} [DecidablePred Q] (h : ∀ i < N, Q i ↔ P i) :
    remaining Q N n = remaining P N n := by
  unfold remaining
  congr 1
  apply Finset.filter_congr
  intro i hi
  exact h i (Finset.mem_Ico.1 hi).2

section Stop

/-- The loop with the state it has reached: its end, or where a round stopped. -/
def runLoop (f : α → ℕ → α × Bool) (a : α) : ℕ → α × Bool
  | 0 => (a, true)
  | n + 1 => if (runLoop f a n).2 then f (runLoop f a n).1 n else runLoop f a n

variable {f : α → ℕ → α × Bool} {a : α}

/-- `I i` holds before round `i`, and a round that stops leaves `J`. -/
theorem runLoop_rule {I : ℕ → α → Prop} {J : α → Prop} {n : ℕ} (h0 : I 0 a)
    (hdone : ∀ i < n, ∀ b, I i b → (f b i).2 = true → I (i + 1) (f b i).1)
    (hstop : ∀ i < n, ∀ b, I i b → (f b i).2 = false → J (f b i).1) :
    if (runLoop f a n).2 then I n (runLoop f a n).1 else J (runLoop f a n).1 := by
  induction n with
  | zero => simpa [runLoop] using h0
  | succ n ih =>
    have hn := ih (fun i hi => hdone i (by omega)) fun i hi => hstop i (by omega)
    unfold runLoop
    by_cases hr : (runLoop f a n).2
    · rw [if_pos hr] at hn ⊢
      cases hf : (f (runLoop f a n).1 n).2 with
      | true => simpa using hdone n (by omega) _ hn hf
      | false => simpa using hstop n (by omega) _ hn hf
    · rw [if_neg hr] at hn ⊢
      rwa [if_neg hr]

/-- A loop none of whose rounds stops runs to its end. -/
theorem runLoop_completes {I : ℕ → α → Prop} {n : ℕ} (h0 : I 0 a)
    (h : ∀ i < n, ∀ b, I i b → (f b i).2 = true ∧ I (i + 1) (f b i).1) :
    (runLoop f a n).2 = true ∧ I n (runLoop f a n).1 := by
  induction n with
  | zero => exact ⟨rfl, h0⟩
  | succ n ih =>
    obtain ⟨hr, hn⟩ := ih fun i hi => h i (by omega)
    unfold runLoop
    rw [if_pos hr]
    exact h n (by omega) _ hn

/-- Once a round has stopped it, the loop stays where it is. -/
theorem runLoop_stopped {k n : ℕ} (hk : k ≤ n) (h : (runLoop f a k).2 = false) :
    runLoop f a n = runLoop f a k := by
  induction n, hk using Nat.le_induction with
  | base => rfl
  | succ n hk ih =>
    rw [runLoop, ih, h, if_neg Bool.false_ne_true]

/-- What every round keeps lasts from any round on. -/
theorem runLoop_keeps {P : α → Prop} (hP : ∀ b i, P b → P (f b i).1) {k n : ℕ} (hk : k ≤ n)
    (h : P (runLoop f a k).1) : P (runLoop f a n).1 := by
  induction n, hk using Nat.le_induction with
  | base => exact h
  | succ n hk ih =>
    unfold runLoop
    split_ifs
    · exact hP _ _ ih
    · exact ih

/-- A round of the loop is reached that finds `P`. -/
def Reaches (f : α → ℕ → α × Bool) (P : α → ℕ → Prop) (a : α) (n : ℕ) : Prop :=
  ∃ k < n, (runLoop f a k).2 = true ∧ P (runLoop f a k).1 k

/-- A round that stops wherever it finds `P` stops the loop. -/
theorem Reaches.stops {P : α → ℕ → Prop} {n : ℕ} (h : Reaches f P a n)
    (hP : ∀ b i, P b i → (f b i).2 = false) : (runLoop f a n).2 = false := by
  obtain ⟨k, hk, hr, hp⟩ := h
  have hstop : (runLoop f a (k + 1)).2 = false := by
    unfold runLoop
    rw [if_pos hr]
    exact hP _ _ hp
  rw [runLoop_stopped hk hstop, hstop]

theorem not_reaches {I P : ℕ → α → Prop} {n : ℕ} (h0 : I 0 a)
    (hdone : ∀ i < n, ∀ b, I i b → (f b i).2 = true → I (i + 1) (f b i).1)
    (hP : ∀ i < n, ∀ b, I i b → ¬ P i b) : ¬ Reaches f (fun b i => P i b) a n := by
  rintro ⟨k, hk, hr, hp⟩
  have hrule := runLoop_rule (f := f) (a := a) (J := fun _ => True) (n := k) h0
    (fun i hi => hdone i (by omega)) fun _ _ _ _ _ => trivial
  rw [if_pos hr] at hrule
  exact hP k hk _ hrule hp

end Stop

section For

/-- `for (; cond(cur); cur = next(cur)) a = f(a, cur);`, with fuel for its rounds. -/
def forLoop (cond : ℕ → Bool) (next : ℕ → ℕ) (f : α → ℕ → α) : ℕ → α → ℕ → Option (α × ℕ)
  | 0, _, _ => none
  | fuel + 1, a, cur =>
    if cond cur then forLoop cond next f fuel (f a cur) (next cur) else some (a, cur)

/-- An invariant and what is left to count down: the loop ends, with the invariant and
without its condition. -/
theorem forLoop_rule {cond : ℕ → Bool} {next : ℕ → ℕ} {f : α → ℕ → α} {I : α → ℕ → Prop}
    (left : ℕ → ℕ)
    (hstep : ∀ a c, I a c → cond c = true → I (f a c) (next c) ∧ left (next c) < left c)
    {fuel c : ℕ} {a : α} (h : I a c) (hfuel : left c < fuel) :
    ∃ a' c', forLoop cond next f fuel a c = some (a', c') ∧ I a' c' ∧ cond c' = false := by
  induction fuel generalizing a c with
  | zero => omega
  | succ fuel ih =>
    unfold forLoop
    cases hc : cond c with
    | false => exact ⟨a, c, rfl, h, hc⟩
    | true =>
      obtain ⟨hI, hlt⟩ := hstep a c h hc
      exact ih hI (by omega)

/-- More fuel does not change the result. -/
theorem forLoop_unique {cond : ℕ → Bool} {next : ℕ → ℕ} {f : α → ℕ → α} {fuel fuel' c : ℕ} {a : α}
    {r r' : α × ℕ} (h : forLoop cond next f fuel a c = some r)
    (h' : forLoop cond next f fuel' a c = some r') : r = r' := by
  induction fuel generalizing fuel' a c with
  | zero => cases h
  | succ fuel ih =>
    cases fuel' with
    | zero => cases h'
    | succ fuel' =>
      unfold forLoop at h h'
      cases hc : cond c with
      | true =>
        rw [hc, if_pos rfl] at h h'
        exact ih h h'
      | false =>
        rw [hc] at h h'
        exact Option.some.inj (h.symm.trans h')

/-- A loop whose counter stays where the condition holds does not end. -/
theorem forLoop_diverges {cond : ℕ → Bool} {next : ℕ → ℕ} {f : α → ℕ → α} {P : ℕ → Prop}
    (hcond : ∀ c, P c → cond c = true) (hnext : ∀ c, P c → P (next c)) (fuel : ℕ) {c : ℕ} (hc : P c)
    (a : α) : forLoop cond next f fuel a c = none := by
  induction fuel generalizing a c with
  | zero => rfl
  | succ fuel ih =>
    unfold forLoop
    rw [hcond c hc, if_pos rfl]
    exact ih (hnext c hc) (f a c)

end For

end Lib
