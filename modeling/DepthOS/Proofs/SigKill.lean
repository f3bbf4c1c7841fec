import DepthOS.Proofs.Effect

/-! SIGKILL and the signal masks. `sigaction` refuses a handler for SIGKILL, but nothing
takes its bit out of the masks that come with other handlers or with the context of
`sigrestore`, and `signal_send` looks at the masks first. -/

namespace DepthOS

open Lib

/-- The mask does not block SIGKILL. -/
def Spares (m : SigMask) : Prop := m &&& sigBit SIGKILL = 0

instance (m : SigMask) : Decidable (Spares m) := inferInstanceAs (Decidable (_ = _))

theorem spares_zero : Spares 0 := BitVec.zero_and

theorem Spares.or {a b : SigMask} (ha : Spares a) (hb : Spares b) : Spares (a ||| b) := by
  unfold Spares at *
  rw [BitVec.and_or_distrib_right, ha, hb]
  rfl

theorem spares_sigBit {n : ℕ} (hn : n ≤ NSIG) (hk : n ≠ SIGKILL) : Spares (sigBit n) := by
  have h : ∀ n ≤ NSIG, n ≠ SIGKILL → Spares (sigBit n) := by decide
  exact h n hn hk

/-- A SIGKILL for a task of a user process marks the process as dead by signal 9 at once. -/
def KillReaches (k : Kernel) : Prop :=
  ∀ t ∈ k.tasklist, ∀ p, (k.tasks t).process = some p → (k.tasks t).pgd ≠ KERNEL_PGD →
    ∀ s : Sig, s.number = SIGKILL →
      ((k.signalSend t s).1.procs p).state = .PROCESS_DEAD ∧
      ((k.signalSend t s).1.procs p).signal = SIGKILL

/-- No mask that comes from a program, or from the memory behind the array of handlers, has
the bit of SIGKILL. -/
def SparesKill (k : Kernel) : KEvent → Prop
  | .sigaction num new old => 1 ≤ num → num ≤ NSIG → num ≠ SIGKILL → num ≠ SIGSTOP → new ≠ 0 →
      Spares (k.installed num new old).mask
  | .sigrestore ctx _ => Spares (readContext (k.mem k.currentTask.pgd) ctx).oldMask
  | .spawn _ junk _ _ => Spares (junk.signalHandlers NSIG).mask
  | .fork junk => Spares (junk.signalHandlers NSIG).mask
  | .thcreate _ junk _ => Spares (junk.signalHandlers NSIG).mask
  | _ => True

structure MaskInv (k : Kernel) : Prop where
  masks : ∀ t ∈ k.tasklist, Spares (k.tasks t).signalMask ∧ Spares (k.tasks t).signalMaskCurrent
  handlers : ∀ t ∈ k.tasklist, t ≠ IDLE_TASK → ∀ n ≤ NSIG,
    Spares ((k.tasks t).signalHandlers n).mask
  queued : ∀ q, ∀ x ∈ k.queues q, 1 ≤ x.sig.number ∧ x.sig.number ≤ NSIG

theorem MaskInv.frame {k k' : Kernel} (h : MaskInv k) (hlist : ∀ t ∈ k'.tasklist, t ∈ k.tasklist)
    (hmasks : ∀ t, (k'.tasks t).signalMask = (k.tasks t).signalMask ∧
      (k'.tasks t).signalMaskCurrent = (k.tasks t).signalMaskCurrent ∧
      (k'.tasks t).signalHandlers = (k.tasks t).signalHandlers)
    (hqueues : ∀ q, ∀ x ∈ k'.queues q, x ∈ k.queues q) : MaskInv k' := by
  refine ⟨?_, ?_, fun q x hx => h.queued q x (hqueues q x hx)⟩
  · intro t ht
    rw [(hmasks t).1, (hmasks t).2.1]
    exact h.masks t (hlist t ht)
  · intro t ht hne
    rw [(hmasks t).2.2]
    exact h.handlers t (hlist t ht) hne

theorem MaskInv.user {k : Kernel} (h : MaskInv k) (r : ℕ → Regs) (m : ℕ → Mem) :
    MaskInv (k.withUser r m) :=
  h.frame (fun _ ht => ht) (fun _ => ⟨rfl, rfl, rfl⟩) fun _ _ hx => hx

theorem MaskInv.setTask {k : Kernel} (h : MaskInv k) {t : ℕ} {f : KTask → KTask}
    (hmasks : t ∈ k.tasklist →
      Spares (f (k.tasks t)).signalMask ∧ Spares (f (k.tasks t)).signalMaskCurrent)
    (hhandlers : t ∈ k.tasklist → t ≠ IDLE_TASK → ∀ n ≤ NSIG,
      Spares ((f (k.tasks t)).signalHandlers n).mask) : MaskInv (k.setTask t f) := by
  refine ⟨?_, ?_, h.queued⟩
  · intro x hx
    rw [k.setTask_tasks]
    split_ifs with hxt
    · subst hxt
      exact hmasks hx
    · exact h.masks x hx
  · intro x hx hne
    rw [k.setTask_tasks]
    split_ifs with hxt
    · subst hxt
      exact hhandlers hx hne
    · exact h.handlers x hx hne

theorem MaskInv.setState {k : Kernel} (h : MaskInv k) (t : ℕ) (st : TaskState) :
    MaskInv (k.setState t st) :=
  h.setTask (h.masks t) (h.handlers t)

theorem MaskInv.mask {k : Kernel} (h : MaskInv k) (t : ℕ) {mask : SigMask} (hm : Spares mask) :
    MaskInv (k.setMaskCurrent t mask) :=
  h.setTask (fun ht => ⟨(h.masks t ht).1, hm⟩) (h.handlers t)

theorem MaskInv.kill {k k' : Kernel} (h : MaskInv k) {p : ℕ} {f : Process → Process}
    (hk : KilledBy k p f k') : MaskInv k' := by
  refine h.frame (fun _ ht => (hk.mem.1 ht).1) (fun t => ?_) ?_
  · rw [hk.task]
    split_ifs <;> exact ⟨rfl, rfl, rfl⟩
  · intro q x hx
    rw [hk.queues] at hx
    exact hx

theorem MaskInv.exec {k k' : Kernel} (h : MaskInv k) (hr : RingOk k) {t : ℕ} {s : Sig}
    (ht : t ∈ k.tasklist) (hnum : 1 ≤ s.number ∧ s.number ≤ NSIG) (he : ExecEffect k t s k') :
    MaskInv k' := by
  cases he with
  | ignored => exact h
  | killed _ _ hk => exact h.kill hk
  | stopped => exact h.setState t _
  | caught r m hu hkill =>
    have hn : s.number.toNat ≤ NSIG := by omega
    have hk : s.number.toNat ≠ SIGKILL := by omega
    exact (h.mask t ((h.handlers t ht (hr.user_ne_idle hu) _ hn).or (spares_sigBit hn hk))).user r m

theorem MaskInv.join {k k' : Kernel} (h : MaskInv k) (hr : RingOk k) {task : KTask}
    (htasks : k'.tasks = Function.update k.tasks k.next task)
    (hlist : ∀ t ∈ k'.tasklist, t ∈ k.tasklist ∨ t = k.next)
    (hqueues : k'.queues = Function.update k.queues (k.next + 1) [])
    (hmasks : Spares task.signalMask ∧ Spares task.signalMaskCurrent)
    (hhandlers : ∀ n ≤ NSIG, Spares (task.signalHandlers n).mask) : MaskInv k' := by
  have hold : ∀ t ∈ k.tasklist, k'.tasks t = k.tasks t := by
    intro t ht
    rw [htasks, Function.update_of_ne (Nat.ne_of_lt (hr.below t ht))]
  have hnew : k'.tasks k.next = task := by rw [htasks, Function.update_self]
  refine ⟨?_, ?_, ?_⟩
  · intro t ht
    rcases hlist t ht with ht | rfl
    · rw [hold t ht]
      exact h.masks t ht
    · rw [hnew]
      exact hmasks
  · intro t ht hne
    rcases hlist t ht with ht | rfl
    · rw [hold t ht]
      exact h.handlers t ht hne
    · rw [hnew]
      exact hhandlers
  · intro q x hx
    rw [hqueues] at hx
    exact h.queued q x (Kernel.mem_newQueue hx)

theorem dummyTask_spares (k : Kernel) {junk : KTask} (hj : Spares (junk.signalHandlers NSIG).mask)
    {n : ℕ} (hn : n ≤ NSIG) : Spares ((k.dummyTask junk).signalHandlers n).mask := by
  change Spares (if n < NSIG then (⟨0, 0, 0, 0⟩ : SigHandler) else junk.signalHandlers n).mask
  split_ifs with hlt
  · exact spares_zero
  · obtain rfl : n = NSIG := by omega
    exact hj

theorem MaskInv.call {k k' : Kernel} (h : MaskInv k) (hr : RingOk k) {e : KEvent}
    (hf : e.Fits k) (hC : SparesKill k e) (he : Effect k e k') : MaskInv k' := by
  cases he with
  | user r m => exact h.user r m
  | spawn =>
    exact h.join hr rfl (fun _ ht => Kernel.born_mem ht) rfl ⟨spares_zero, spares_zero⟩
      fun _ hn => dummyTask_spares k hC hn
  | @fork junk p hp =>
    refine h.join hr rfl (fun _ ht => Kernel.born_mem ht) rfl (h.masks _ hr.current) fun n hn => ?_
    change Spares (if n < NSIG then k.currentTask.signalHandlers n
      else (k.dummyTask junk).signalHandlers n).mask
    split_ifs
    · exact h.handlers _ hr.current hf n hn
    · exact dummyTask_spares k hC hn
  | thcreate _ _ hhandlers hmasks _ =>
    refine h.join hr rfl (fun _ ht => (Kernel.hatched_mem ht).imp_right And.left) rfl ?_ ?_
    · rw [hmasks.1, hmasks.2]
      exact ⟨spares_zero, spares_zero⟩
    · intro n hn
      rw [hhandlers]
      exact dummyTask_spares k hC hn
  | thkillLast _ _ hk => exact h.kill hk
  | @thkillSelf _ _ p _ _ _ =>
    have hd : MaskInv (k.dropThread p k.current) :=
      h.frame (fun _ ht => ht) (fun _ => ⟨rfl, rfl, rfl⟩) fun _ _ hx => hx
    exact hd.setState k.current _
  | thkillOther =>
    exact h.frame (fun _ ht => List.mem_of_mem_erase ht) (fun _ => ⟨rfl, rfl, rfl⟩) fun _ _ hx => hx
  | exit _ hk => exact h.kill hk
  | sleep => exact h.setTask (h.masks k.current) (h.handlers k.current)
  | sigaction m hnum hkill hnew =>
    have hm : MaskInv { k with mem := m } :=
      h.frame (fun _ ht => ht) (fun _ => ⟨rfl, rfl, rfl⟩) fun _ _ hx => hx
    refine hm.setTask (h.masks k.current) fun ht hne n hn => ?_
    change Spares (Function.update k.currentTask.signalHandlers _ _ n).mask
    rw [Function.update_apply]
    split_ifs
    · exact hC hnum.1 hnum.2 hkill.1 hkill.2 hnew
    · exact h.handlers _ ht hne n hn
  | sigrestore r m => exact (h.mask k.current hC).user r m
  | @sendQueued t s hnum _ =>
    refine ⟨h.masks, h.handlers, fun q x hx => ?_⟩
    rcases Kernel.enqueue_mem hx with hx | rfl
    · exact h.queued q x hx
    · exact hnum
  | @sendExec t s _ hnum he =>
    have ha : MaskInv ((k.accept t).hand k.sent.length t) :=
      h.frame (fun _ ht => ht) (fun _ => ⟨rfl, rfl, rfl⟩) fun _ _ hx => hx
    exact ha.exec ((hr.accept t).hand _ t) hf hnum he
  | _ => exact h.frame (fun _ ht => ht) (fun _ => ⟨rfl, rfl, rfl⟩) fun _ _ hx => hx

theorem MaskInv.switchTo {k : Kernel} (h : MaskInv k) (n : ℕ) : MaskInv (k.switchTo n) := by
  have hw : MaskInv (k.wake n) := by
    unfold Kernel.wake
    split_ifs
    · exact h.setState n _
    · exact h
  unfold Kernel.switchTo
  dsimp only
  split_ifs
  · exact hw.frame (fun _ ht => List.mem_of_mem_erase ht) (fun _ => ⟨rfl, rfl, rfl⟩)
      fun _ _ hx => hx
  · exact hw.frame (fun _ ht => ht) (fun _ => ⟨rfl, rfl, rfl⟩) fun _ _ hx => hx

theorem maskInv_stable : Stable SparesKill TaskRing RingOk MaskInv where
  boot k hk := by
    obtain ⟨idle, mem, pitTicks, rfl⟩ := hk
    refine ⟨fun _ _ => ⟨spares_zero, spares_zero⟩, fun t ht hne => ?_, fun _ => nofun⟩
    exact absurd (List.mem_singleton.1 ht) hne
  user k r m h := h.user r m
  call k e k' hr h hf hC he := h.call hr hf hC he
  switch k n _ h _ := h.switchTo n
  pending k x k1 k' hr h hfetch he := by
    obtain ⟨hfind, rfl⟩ := signalFetch_current hfetch
    have ha : MaskInv ((k.dequeue k.current).hand x.id k.current) :=
      h.frame (fun _ ht => ht) (fun _ => ⟨rfl, rfl, rfl⟩) fun _ _ hy => dequeue_mem hy
    exact ha.exec ((hr.withQueues _).hand _ _) hr.current
      (h.queued _ x (List.mem_of_find?_eq_some hfind)) he
  jump k prev _ h := h.frame (fun _ ht => ht) (fun _ => ⟨rfl, rfl, rfl⟩) fun _ _ hx => hx

theorem signalExec_kill {k : Kernel} {t p : ℕ} {s : Sig} (hp : (k.tasks t).process = some p)
    (hu : (k.tasks t).pgd ≠ KERNEL_PGD) (hs : s.number = SIGKILL) :
    k.signalExec t s = (k.setProc p (deadBy s.number)).processKill p := by
  unfold Kernel.signalExec
  rw [if_neg hu, if_pos hs]
  unfold Kernel.killWithSignal
  rw [hp]
  rfl

theorem signalSend_kill {k : Kernel} (hr : RingOk k) {t p : ℕ} {s : Sig}
    (hb : k.blocked t s.number = false) (hp : (k.tasks t).process = some p)
    (hu : (k.tasks t).pgd ≠ KERNEL_PGD) (hs : s.number = SIGKILL) :
    (k.signalSend t s).1.procs p = deadBy SIGKILL (k.procs p) := by
  have hnum : ¬ (s.number > NSIG ∨ s.number < 1) := by
    rw [hs]
    decide
  have hopen : ¬ (k.accept t).blocked t s.number = true := by
    change ¬ k.blocked t s.number = true
    rw [hb]
    exact Bool.false_ne_true
  have hsend : k.signalSend t s = ((k.accept t).hand k.sent.length t).signalExec t s := by
    unfold Kernel.signalSend
    rw [if_neg hnum]
    exact if_neg hopen
  rw [hsend, signalExec_kill (k := (k.accept t).hand k.sent.length t) hp hu hs]
  have hk : KilledBy ((k.accept t).hand k.sent.length t) p (deadBy s.number) _ :=
    processKill_killedBy (fun _ => rfl) ((hr.accept t).hand _ _).nodup
  rw [hk.proc, if_pos rfl, hs]
  rfl

theorem MaskInv.killReaches {k : Kernel} (h : MaskInv k) (hr : RingOk k) : KillReaches k := by
  intro t ht p hp hu s hs
  have hb : k.blocked t s.number = false := by
    obtain ⟨hm, hmc⟩ := h.masks t ht
    unfold Spares at hm hmc
    unfold Kernel.blocked
    rw [hs, Int.toNat_natCast, hm, hmc]
    simp
  rw [signalSend_kill hr hb hp hu hs]
  exact ⟨rfl, rfl⟩

/-- In a run in which no program installs or restores a mask with the bit of SIGKILL,
SIGKILL kills in the same call, whatever else has been sent and caught. -/
theorem sigkill_reaches {evs : List KEvent} {k : Kernel} (h : KRunOf SparesKill evs k) :
    KillReaches k := by
  obtain ⟨hr, hinv⟩ := maskInv_stable.run h
  exact hinv.killReaches hr

/-- A program installs its handler for signal 10, which is sent. -/
def caughtEvents (mask : SigMask) : List KEvent :=
  [.spawn none zeroTask zeroRegs (handlerImage mask), .tick, .sigaction 10 64 0,
    .send 4 (zeroSig 10)]

theorem sigkill_reaches_caught :
    ∃ k, KRunOf SparesKill (caughtEvents (sigBit 12)) k ∧
      (k.tasks 4).signalMaskCurrent = sigBit 12 ||| sigBit 10 ∧ KillReaches k := by
  have hc : ∀ (k : Kernel) (e : KEvent), (match e with
      | .sigaction num new old => decide (Spares (k.installed num new old).mask)
      | .spawn _ junk _ _ => decide (Spares (junk.signalHandlers NSIG).mask)
      | .sigrestore _ _ => false | .fork _ => false | .thcreate _ _ _ => false
      | _ => true) = true → SparesKill k e := by
    intro k e h
    cases e with
    | sigaction num new old => exact fun _ _ _ _ _ => of_decide_eq_true h
    | spawn _ junk => exact of_decide_eq_true (p := Spares (junk.signalHandlers NSIG).mask) h
    | sigrestore => cases h
    | fork => cases h
    | thcreate => cases h
    | _ => trivial
  obtain ⟨k, hrun, hmask⟩ := zero_runOf hc 1 (caughtEvents (sigBit 12))
    (fun k => (k.tasks 4).signalMaskCurrent) (v := sigBit 12 ||| sigBit 10) (by decide +kernel)
  exact ⟨k, hrun, hmask, sigkill_reaches hrun⟩

/-- With a mask that blocks SIGKILL, the handler of signal 10 is safe from it. -/
theorem sigkill_blocked : ¬ ∀ evs k, KRun evs k → KillReaches k := by
  intro h
  obtain ⟨k, hrun, hk⟩ := zero_run 1 (caughtEvents (sigBit SIGKILL))
    (fun k => ((k.tasklist, (k.tasks 4).process, (k.tasks 4).pgd),
      ((k.signalSend 4 (zeroSig SIGKILL)).1.procs 7).signal))
    (v := (([2, 4], some 7, 6), 0)) (by decide +kernel)
  obtain ⟨⟨hlist, hproc, hpgd⟩, hsignal⟩ := by simpa only [Prod.mk.injEq] using hk
  have hdead := (h _ k hrun 4 (by rw [hlist]; decide) 7 hproc (by rw [hpgd]; decide)
    (zeroSig SIGKILL) rfl).2
  rw [hsignal] at hdead
  cases hdead

end DepthOS
