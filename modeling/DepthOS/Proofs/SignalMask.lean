import DepthOS.Sanity.Kernel

/-! The masks signal by signal. `signal_send` and `signal_fetch` test a mask with
`1 << n`, an `int` that is shifted by `n` modulo 32 and then widened with its sign: bit `n`
up to 30, all bits from 31 on for 31, and the bits of no signal and of signal 1 for 32
and 33. -/

namespace DepthOS

open Lib

namespace Kernel

/-- Bit `n` of the two masks. -/
def Masked (k : Kernel) (t n : ℕ) : Prop :=
  ((k.tasks t).signalMask ||| (k.tasks t).signalMaskCurrent).getLsbD n = true

instance (k : Kernel) (t n : ℕ) : Decidable (k.Masked t n) :=
  inferInstanceAs (Decidable (_ = true))

/-- The queue of `t` is `l`. -/
def withPending (k : Kernel) (t : ℕ) (l : List Pending) : Kernel :=
  { k with queues := Function.update k.queues (k.tasks t).signalQueue l }

/-- Signal `m` blocked by its bit, as in the mask of a handler. -/
def blockBit (k : Kernel) (t m : ℕ) : Kernel :=
  k.setMaskCurrent t ((k.tasks t).signalMaskCurrent ||| 1#64 <<< m)

/-- Signal `m` blocked as `signal_exec` does while its handler runs. -/
def blockShift (k : Kernel) (t m : ℕ) : Kernel :=
  k.setMaskCurrent t ((k.tasks t).signalMaskCurrent ||| sigBit m)

def Queues (k : Kernel) (t : ℕ) (s : Sig) : Prop :=
  (k.signalSend t s).1.queues (k.tasks t).signalQueue =
    k.queues (k.tasks t).signalQueue ++ [⟨s, k.sent.length⟩]

def Fetches (k : Kernel) (t : ℕ) (x : Pending) : Prop := ∃ k', k.signalFetch t = some (x, k')

/-- The queue of `t` can take another signal. -/
def Room (k : Kernel) (t : ℕ) : Prop :=
  (k.queues (k.tasks t).signalQueue).length ≠ SIGNAL_MAX_QUEUE_SIZE

instance (k : Kernel) (t : ℕ) : Decidable (k.Room t) := inferInstanceAs (Decidable (_ ≠ _))

/-- Signal `n` is queued by `signal_send`, and skipped by `signal_fetch` wherever it stands,
exactly when its bit is set, and blocking another signal does not change that. -/
structure MasksPerSignal (k : Kernel) (t n : ℕ) : Prop where
  send : ∀ s : Sig, s.number = n → (k.Queues t s ↔ k.Masked t n)
  fetch : ∀ pre (x : Pending) rest, x.sig.number = n → (∀ y ∈ pre, k.blocked t y.sig.number = true) →
    ((k.withPending t (pre ++ x :: rest)).Fetches t x ↔ ¬ k.Masked t n)
  apart : ∀ m, 1 ≤ m → m < NSIG → m ≠ n → ∀ k', k' = k.blockBit t m ∨ k' = k.blockShift t m →
    (∀ s : Sig, s.number = n → (k'.Queues t s ↔ k.Queues t s)) ∧
    ∀ (x : Pending) rest, x.sig.number = n → ((k'.withPending t (x :: rest)).Fetches t x ↔
      (k.withPending t (x :: rest)).Fetches t x)

/-- The cases in which the test of signal `n` comes out as its bit would. -/
def TestsOwnBit (k : Kernel) (t n : ℕ) : Prop :=
  2 ≤ n ∧ n ≤ 30 ∨ n = 1 ∧ k.Masked t 1 ∨ n = 31 ∧ k.Masked t 31 ∨
    n = 32 ∧ (k.Masked t 0 ↔ k.Masked t 32) ∨ n = 33 ∧ k.Masked t 1 ∧ k.Masked t 33

variable {k k' : Kernel} {t n m : ℕ} {s : Sig}

/-! What the two calls do. -/

theorem killThreads_queues (ts : List ℕ) (r : Kernel × Bool) :
    (ts.foldl killThread r).1.queues = r.1.queues := by
  induction ts generalizing r with
  | nil => rfl
  | cons t ts ih =>
    rw [List.foldl_cons, ih]
    unfold killThread
    split_ifs <;> rfl

theorem killWithSignal_queues (number : ℤ) : (k.killWithSignal t number).1.queues = k.queues := by
  have hkill : ∀ (k : Kernel) p, (k.processKill p).1.queues = k.queues := by
    intro k p
    unfold processKill
    dsimp only
    split_ifs <;> rw [killThreads_queues]
  unfold killWithSignal
  split
  · rw [hkill]
    rfl
  · dsimp only
    split_ifs <;> rfl

theorem signalExec_queues : (k.signalExec t s).1.queues = k.queues := by
  rcases k.signalExec_cases t s with h | ⟨-, h | ⟨-, h⟩ | ⟨-, -, r, m, h⟩⟩
  · rw [h]
  · rw [h, killWithSignal_queues]
  · rw [h]
    rfl
  · rw [h]
    rfl

theorem queues_iff (hn : 1 ≤ n) (hn' : n < NSIG) (hs : s.number = n) :
    k.Queues t s ↔ k.blocked t n = true ∧ k.Room t := by
  have hsend : k.signalSend t s =
      if k.blocked t n then
        if (k.queues (k.tasks t).signalQueue).length = SIGNAL_MAX_QUEUE_SIZE then
          ({ k with sent := k.sent ++ [t] }, .panic)
        else (({ k with sent := k.sent ++ [t] } : Kernel).enqueue t ⟨s, k.sent.length⟩, .ret ())
      else (({ k with sent := k.sent ++ [t] } : Kernel).hand k.sent.length t).signalExec t s := by
    unfold signalSend
    rw [if_neg (by rw [hs]; omega), hs]
    rfl
  unfold Queues Room
  rw [hsend]
  by_cases hb : k.blocked t n = true
  · rw [if_pos hb]
    by_cases hroom : (k.queues (k.tasks t).signalQueue).length = SIGNAL_MAX_QUEUE_SIZE
    · rw [if_pos hroom]
      simp [hroom]
    · rw [if_neg hroom]
      simp [hb, hroom, enqueue]
  · rw [if_neg hb, signalExec_queues]
    simp [hb, hand]

theorem fetches_iff {pre rest : List Pending} {x : Pending}
    (hpre : ∀ y ∈ pre, k.blocked t y.sig.number = true) :
    (k.withPending t (pre ++ x :: rest)).Fetches t x ↔ ¬ k.blocked t x.sig.number = true := by
  have hskip : pre.find? (fun y => !k.blocked t y.sig.number) = none := by
    rw [List.find?_eq_none]
    intro y hy
    simp [hpre y hy]
  have hfetch : (k.withPending t (pre ++ x :: rest)).Fetches t x ↔
      (x :: rest).find? (fun y => !k.blocked t y.sig.number) = some x := by
    unfold Fetches signalFetch
    have hqueue : (k.withPending t (pre ++ x :: rest)).queues
        ((k.withPending t (pre ++ x :: rest)).tasks t).signalQueue = pre ++ x :: rest :=
      Function.update_self ..
    have hblocked : ∀ number, (k.withPending t (pre ++ x :: rest)).blocked t number =
        k.blocked t number := fun _ => rfl
    simp only [hqueue, hblocked, List.find?_append, hskip, Option.none_or]
    cases (x :: rest).find? fun y => !k.blocked t y.sig.number <;> simp
  rw [hfetch]
  constructor
  · intro h hb
    have := List.find?_some h
    simp [hb] at this
  · intro hb
    rw [List.find?_cons_of_pos (by simpa using hb)]

/-! The test of a mask. -/

/-- The two masks together. -/
def masks (k : Kernel) (t : ℕ) : SigMask := (k.tasks t).signalMask ||| (k.tasks t).signalMaskCurrent

theorem or_and_ne_zero (a b c : SigMask) : (a ||| b) &&& c ≠ 0 ↔ a &&& c ≠ 0 ∨ b &&& c ≠ 0 := by
  rw [BitVec.and_or_distrib_right]
  exact (not_congr BitVec.or_eq_zero_iff).trans not_and_or

theorem blocked_iff : k.blocked t n = true ↔ k.masks t &&& sigBit n ≠ 0 := by
  unfold blocked masks
  rw [or_and_ne_zero, decide_eq_true_iff, Int.toNat_natCast, or_comm]

theorem and_bit_iff (v : SigMask) (n : ℕ) : v &&& 1#64 <<< n ≠ 0 ↔ v.getLsbD n = true := by
  have hand := BitVec.and_twoPow v n
  unfold BitVec.twoPow at hand
  rw [hand]
  by_cases hb : v.getLsbD n = true
  · have hn : n < 64 := BitVec.lt_of_getLsbD hb
    rw [if_pos hb]
    refine iff_of_true (fun h0 => ?_) hb
    have hbit := congrArg (fun w : SigMask => w.getLsbD n) h0
    simp [hn] at hbit
  · rw [if_neg hb]
    exact iff_of_false (fun h => h rfl) hb

theorem sigBit_eq (hn : n < NSIG) : sigBit n = if n ≤ 30 then 1#64 <<< n
    else if n = 31 then 0xFFFFFFFF80000000#64 else 1#64 <<< (n - 32) := by
  have hall : ∀ n < 34, sigBit n = if n ≤ 30 then 1#64 <<< n
    else if n = 31 then 0xFFFFFFFF80000000#64 else 1#64 <<< (n - 32) := by decide
  exact hall n hn

/-- More of the current mask set. -/
def blockMore (k : Kernel) (t : ℕ) (w : SigMask) : Kernel :=
  k.setMaskCurrent t ((k.tasks t).signalMaskCurrent ||| w)

theorem blockMore_blocked (w : SigMask) :
    (k.blockMore t w).blocked t n = true ↔ k.blocked t n = true ∨ w &&& sigBit n ≠ 0 := by
  have hmasks : (k.blockMore t w).masks t = k.masks t ||| w := by
    simp only [masks, blockMore, setMaskCurrent, setTask, Function.update_self]
    rw [BitVec.or_assoc]
  rw [blocked_iff, blocked_iff, hmasks, or_and_ne_zero]

theorem blockMore_queue (w : SigMask) (t' : ℕ) :
    ((k.blockMore t w).tasks t').signalQueue = (k.tasks t').signalQueue := by
  by_cases ht : t' = t
  · simp [blockMore, setMaskCurrent, setTask, ht]
  · simp [blockMore, setMaskCurrent, setTask, ht]

/-- Setting more of the mask makes no difference to signal `n` if its test does not look there,
or it is blocked anyway. -/
theorem apart_iff (hn : 1 ≤ n) (hn' : n < NSIG) (w : SigMask) :
    ((∀ s : Sig, s.number = n → ((k.blockMore t w).Queues t s ↔ k.Queues t s)) ∧
      ∀ (x : Pending) rest, x.sig.number = n →
        (((k.blockMore t w).withPending t (x :: rest)).Fetches t x ↔
          (k.withPending t (x :: rest)).Fetches t x)) ↔
      (w &&& sigBit n ≠ 0 → k.blocked t n = true) := by
  have hfetch : ∀ (k : Kernel) (x : Pending) rest, x.sig.number = n →
      ((k.withPending t (x :: rest)).Fetches t x ↔ ¬ k.blocked t n = true) := by
    intro k x rest hx
    have hfirst : ∀ y ∈ ([] : List Pending), k.blocked t y.sig.number = true :=
      fun _ hy => absurd hy List.not_mem_nil
    rw [← hx]
    exact fetches_iff hfirst
  constructor
  · rintro ⟨-, hsame⟩ hw
    have h := hsame ⟨zeroSig n, 0⟩ [] rfl
    rw [hfetch _ _ _ rfl, hfetch _ _ _ rfl, not_iff_not, blockMore_blocked] at h
    exact h.1 (Or.inr hw)
  · intro hw
    have hsame : (k.blockMore t w).blocked t n = true ↔ k.blocked t n = true := by
      rw [blockMore_blocked]
      exact ⟨fun h => h.elim id hw, Or.inl⟩
    have hroom : (k.blockMore t w).Room t ↔ k.Room t := by
      unfold Room
      rw [blockMore_queue]
      rfl
    refine ⟨fun s hs => ?_, fun x rest hx => ?_⟩
    · rw [queues_iff hn hn' hs, queues_iff hn hn' hs, hsame, hroom]
    · rw [hfetch _ _ _ hx, hfetch _ _ _ hx, hsame]

/-- What the property comes to: the test is that of the bit, the queue takes what is to be
queued, and the test looks at no other signal's bit or shift. -/
theorem masksPerSignal_iff (hn : 1 ≤ n) (hn' : n < NSIG) : k.MasksPerSignal t n ↔
    (k.blocked t n = true ↔ k.Masked t n) ∧ (k.Masked t n → k.Room t) ∧
    ∀ m, 1 ≤ m → m < NSIG → m ≠ n →
      (1#64 <<< m &&& sigBit n ≠ 0 → k.blocked t n = true) ∧
      (sigBit m &&& sigBit n ≠ 0 → k.blocked t n = true) := by
  have hfetch : ∀ pre (x : Pending) rest, x.sig.number = n →
      (∀ y ∈ pre, k.blocked t y.sig.number = true) →
      ((k.withPending t (pre ++ x :: rest)).Fetches t x ↔ ¬ k.blocked t n = true) := by
    intro pre x rest hx hpre
    rw [← hx]
    exact fetches_iff hpre
  constructor
  · intro h
    have htest : k.blocked t n = true ↔ k.Masked t n := by
      have hf := h.fetch [] ⟨zeroSig n, 0⟩ [] rfl fun _ hy => absurd hy List.not_mem_nil
      rw [hfetch [] _ [] rfl fun _ hy => absurd hy List.not_mem_nil] at hf
      exact not_iff_not.1 hf
    refine ⟨htest, fun hm => ?_, fun m h1 h2 hne => ⟨?_, ?_⟩⟩
    · have hq := (h.send (zeroSig n) rfl).2 hm
      exact ((queues_iff hn hn' rfl).1 hq).2
    · exact (apart_iff hn hn' _).1 (h.apart m h1 h2 hne _ (Or.inl rfl))
    · exact (apart_iff hn hn' _).1 (h.apart m h1 h2 hne _ (Or.inr rfl))
  · rintro ⟨htest, hroom, hapart⟩
    refine ⟨fun s hs => ?_, fun pre x rest hx hpre => ?_, ?_⟩
    · rw [queues_iff hn hn' hs, htest]
      exact ⟨fun h => h.1, fun h => ⟨h, hroom h⟩⟩
    · rw [hfetch pre x rest hx hpre, htest]
    · rintro m h1 h2 hne k' (rfl | rfl)
      · exact (apart_iff hn hn' _).2 (hapart m h1 h2 hne).1
      · exact (apart_iff hn hn' _).2 (hapart m h1 h2 hne).2

set_option synthInstance.maxSize 1000 in
/-- Which other signals' bits the test of signal `n` looks at. -/
theorem bit_overlap : ∀ n < 34, ∀ m < 34, 1 ≤ n ∧ 1 ≤ m ∧ m ≠ n →
    (1#64 <<< m &&& sigBit n ≠ 0 ↔ n = 31 ∧ 32 ≤ m ∨ n = 33 ∧ m = 1) := by
  decide +kernel

set_option synthInstance.maxSize 1000 in
theorem shift_overlap : ∀ n < 34, ∀ m < 34, 1 ≤ n ∧ 1 ≤ m ∧ m ≠ n →
    (sigBit m &&& sigBit n ≠ 0 ↔ n = 1 ∧ m = 33 ∨ n = 33 ∧ m = 1) := by
  decide +kernel

/-- What the test of signal `n` is in terms of bits. -/
theorem blocked_bits (hn' : n < NSIG) : k.blocked t n = true ↔
    if n ≤ 30 then k.Masked t n
    else if n = 31 then ∃ i, 31 ≤ i ∧ k.Masked t i else k.Masked t (n - 32) := by
  rw [blocked_iff, sigBit_eq hn']
  split_ifs with h30 h31
  · exact and_bit_iff _ _
  · constructor
    · intro h
      by_contra hno
      push Not at hno
      apply h
      apply BitVec.eq_of_getLsbD_eq
      intro i hi
      have hlow : ∀ i < 31, (0xFFFFFFFF80000000#64).getLsbD i = false := by decide
      rw [BitVec.getLsbD_and]
      by_cases hi31 : i < 31
      · rw [hlow i hi31]
        simp
      · have hbit : (k.masks t).getLsbD i = false := by
          have := hno i (by omega)
          simpa [Masked, masks] using this
        rw [hbit]
        simp
    · rintro ⟨i, hi, hm⟩ h0
      have hi64 : i < 64 := BitVec.lt_of_getLsbD hm
      have hhigh : ∀ i < 64, 31 ≤ i → (0xFFFFFFFF80000000#64).getLsbD i = true := by decide
      have hbit := congrArg (fun w : SigMask => w.getLsbD i) h0
      rw [BitVec.getLsbD_and, hhigh i hi64 hi] at hbit
      simp [masks, show (((k.tasks t).signalMask ||| (k.tasks t).signalMaskCurrent).getLsbD i) = true
        from hm] at hbit
  · exact and_bit_iff _ _

/-- The signals whose test looks at another signal's bit or shift: 1, 31 and 33. -/
theorem apart_signals (hn : 1 ≤ n) (hn' : n < NSIG) {p : Prop} : (∀ m, 1 ≤ m → m < NSIG → m ≠ n →
      (1#64 <<< m &&& sigBit n ≠ 0 → p) ∧ (sigBit m &&& sigBit n ≠ 0 → p)) ↔
    (n = 1 ∨ n = 31 ∨ n = 33 → p) := by
  constructor
  · rintro h (rfl | rfl | rfl)
    · exact (h 33 (by decide) (by decide) (by decide)).2 (by decide)
    · exact (h 32 (by decide) (by decide) (by decide)).1 (by decide)
    · exact (h 1 (by decide) (by decide) (by decide)).1 (by decide)
  · intro h m hm hm' hne
    rw [bit_overlap n hn' m hm' ⟨hn, hm, hne⟩, shift_overlap n hn' m hm' ⟨hn, hm, hne⟩]
    have hn34 : n < 34 := hn'
    constructor <;> intro hover <;> exact h (by omega)

theorem testsOwnBit_iff (hn : 1 ≤ n) (hn' : n < NSIG) : k.TestsOwnBit t n ↔
    (k.blocked t n = true ↔ k.Masked t n) ∧
      (n = 1 ∨ n = 31 ∨ n = 33 → k.blocked t n = true) := by
  have hn34 : n < 34 := hn'
  have hbits := blocked_bits (k := k) (t := t) hn'
  unfold TestsOwnBit
  rw [hbits]
  rcases (by omega : n = 1 ∨ (2 ≤ n ∧ n ≤ 30) ∨ n = 31 ∨ n = 32 ∨ n = 33) with
    rfl | hmid | rfl | rfl | rfl
  · simp
  · simp [hmid, show n ≠ 1 by omega, show n ≠ 31 by omega, show n ≠ 33 by omega]
  · have hself : k.Masked t 31 → ∃ i, 31 ≤ i ∧ k.Masked t i := fun h => ⟨31, le_rfl, h⟩
    simp only [Nat.reduceLeDiff, Nat.reduceEqDiff, if_false, if_true, or_true, true_imp_iff,
      false_and, and_false, true_and, false_or, or_false]
    exact ⟨fun h => ⟨⟨fun _ => h, hself⟩, hself h⟩, fun h => h.1.1 h.2⟩
  · simp
  · simp only [Nat.reduceLeDiff, Nat.reduceEqDiff, if_false, or_true, true_imp_iff, false_and,
      and_false, true_and, false_or]
    exact ⟨fun h => ⟨iff_of_true h.1 h.2, h.1⟩, fun h => ⟨h.2, h.1.1 h.2⟩⟩

/-- The masks work signal by signal exactly for the signals 2 to 30, for 1 and 31 while they
are blocked, and for 32 and 33 as the bits that are looked at instead happen to stand. -/
theorem masks_per_signal_iff (k : Kernel) (t n : ℕ) (hn : 1 ≤ n) (hn' : n < NSIG) :
    k.MasksPerSignal t n ↔ k.TestsOwnBit t n ∧ (k.Masked t n → k.Room t) := by
  rw [masksPerSignal_iff hn hn', apart_signals hn hn', testsOwnBit_iff hn hn', and_right_comm,
    and_assoc]

/-- A task without masks, and signal 12. -/
theorem masks_per_signal_usr2 : zeroBoot.MasksPerSignal 0 12 := by
  refine (masks_per_signal_iff zeroBoot 0 12 (by decide) (by decide)).2 ⟨Or.inl (by decide), ?_⟩
  exact fun _ => by decide

/-- With the bit of signal 32 in a handler's mask, signal 31 is held back as well. -/
theorem sigsys_held_back : ¬ ∀ (k : Kernel) (t n : ℕ), 1 ≤ n → n < NSIG → k.MasksPerSignal t n := by
  intro h
  have hsys := (h (zeroBoot.setMaskCurrent 0 (1#64 <<< 32)) 0 31 (by decide) (by decide)).send
    (zeroSig 31) rfl
  have hqueued := (queues_iff (k := zeroBoot.setMaskCurrent 0 (1#64 <<< 32)) (t := 0) (n := 31)
    (by decide) (by decide) (s := zeroSig 31) rfl).2 ⟨by decide, by decide⟩
  exact absurd (hsys.1 hqueued) (by decide)

end Kernel

end DepthOS
