import DepthOS.Proofs.Ring

/-! What a call can do to the state, once and for all: from a state in which the ring
invariant holds, a call that comes back or goes into `reschedule` leaves one of the
states listed here. The invariants of the following files are proved over this list
and never unfold a call. -/

namespace DepthOS

open Lib

/-- `k'` is `k` after `f` and `process_kill` of process `p`. -/
def KilledBy (k : Kernel) (p : ℕ) (f : Process → Process) (k' : Kernel) : Prop :=
  Kernel.KilledFrom ((k.setProc p f).logKill p) k' (k.procs p).threads

/-- What `kill_with_signal` writes. -/
def deadBy (number : ℤ) (proc : Process) : Process :=
  { proc with state := .PROCESS_DEAD, signal := number }

/-- What `exit` writes. -/
def exitedWith (status : Word) (proc : Process) : Process :=
  { proc with state := .PROCESS_EXITED, exitCode := status }

theorem processKill_killedBy {k : Kernel} {p : ℕ} {f : Process → Process}
    (hf : ∀ proc, (f proc).threads = proc.threads) (hnd : k.tasklist.Nodup) :
    KilledBy k p f ((k.setProc p f).processKill p).1 := by
  have h := ((k.setProc p f).processKill_spec p hnd).1
  have hthr : ((k.setProc p f).procs p).threads = (k.procs p).threads := by
    simp [Kernel.setProc, hf]
  rw [hthr] at h
  exact h

theorem KilledBy.task {k k' : Kernel} {p : ℕ} {f : Process → Process} (hk : KilledBy k p f k')
    (t : ℕ) : k'.tasks t = if t = k.current ∧ t ∈ (k.procs p).threads then
      { k.tasks t with state := .TASK_DYING } else k.tasks t := hk.tasks t

theorem KilledBy.mem {k k' : Kernel} {p : ℕ} {f : Process → Process} (hk : KilledBy k p f k')
    {t : ℕ} : t ∈ k'.tasklist ↔ t ∈ k.tasklist ∧ (t = k.current ∨ t ∉ (k.procs p).threads) := by
  rw [hk.tasklist, List.mem_filter, decide_eq_true_eq]
  rfl

theorem KilledBy.proc {k k' : Kernel} {p : ℕ} {f : Process → Process} (hk : KilledBy k p f k')
    (q : ℕ) : k'.procs q = if q = p then f (k.procs q) else k.procs q := by
  rw [hk.procs]
  exact k.setProc_procs p f q

/-- `signal_exec` of `s` for task `t` -/
inductive ExecEffect (k : Kernel) (t : ℕ) (s : Sig) : Kernel → Prop
  | ignored : ExecEffect k t s k
  | killed {p : ℕ} {k' : Kernel} (hp : (k.tasks t).process = some p)
      (hu : (k.tasks t).pgd ≠ KERNEL_PGD) (hk : KilledBy k p (deadBy s.number) k') :
      ExecEffect k t s k'
  | stopped (hu : (k.tasks t).pgd ≠ KERNEL_PGD) (hs : s.number = SIGSTOP) :
      ExecEffect k t s (k.setState t .TASK_SUSPENDED)
  | caught (r : ℕ → Regs) (m : ℕ → Mem) (hu : (k.tasks t).pgd ≠ KERNEL_PGD)
      (hkill : s.number ≠ SIGKILL) :
      ExecEffect k t s ((k.setMaskCurrent t
        (((k.tasks t).signalHandlers s.number.toNat).mask ||| sigBit s.number.toNat)).withUser r m)

theorem execEffect_ends {k : Kernel} (h : RingOk k) {t : ℕ} (ht : t ∈ k.tasklist) (s : Sig) :
    Ends (k.signalExec t s) (ExecEffect k t s) (ExecEffect k t s) := by
  rcases k.signalExec_cases t s with he | ⟨hu, he | ⟨hs, he⟩ | ⟨hkill, -, r, m, he⟩⟩ <;> rw [he]
  · exact ends_ret _ ExecEffect.ignored
  · obtain ⟨p, hp, -⟩ := h.member_thread ht (h.user_ne_idle hu)
    unfold Kernel.killWithSignal
    rw [hp]
    have hk : KilledBy k p (deadBy s.number) ((k.setProc p (deadBy s.number)).processKill p).1 :=
      processKill_killedBy (fun _ => rfl) h.nodup
    exact ⟨fun _ _ => ExecEffect.killed hp hu hk, fun _ => ExecEffect.killed hp hu hk⟩
  · exact ends_ret _ (ExecEffect.stopped hu hs)
  · exact ends_ret _ (ExecEffect.caught r m hu hkill)

/-- The kernel in which `signal_send` has accepted a signal for `t`. -/
def Kernel.accept (k : Kernel) (t : ℕ) : Kernel := { k with sent := k.sent ++ [t] }

theorem RingOk.accept {k : Kernel} (h : RingOk k) (t : ℕ) : RingOk (k.accept t) :=
  h.same ⟨rfl, rfl, rfl, fun _ => rfl, fun _ => rfl, fun _ => rfl, fun _ => rfl, fun _ => rfl⟩

/-- The handler `sigaction` finds at `new`, with the old one written to `old` first. -/
def Kernel.installed (k : Kernel) (num : ℤ) (new old : ℕ) : SigHandler :=
  Kernel.readHandler (if old = 0 then k.mem k.currentTask.pgd
    else storeWords (k.mem k.currentTask.pgd) old
      (Kernel.handlerWords (k.currentTask.signalHandlers num.toNat))) new

/-- The call of an event -/
inductive Effect (k : Kernel) : KEvent → Kernel → Prop
  | tick : Effect k .tick { k with pitTicks := u32 (k.pitTicks + 1) }
  | yield : Effect k .yield k
  | user {regs : Regs} {m : Mem} (r : ℕ → Regs) (ms : ℕ → Mem) :
      Effect k (.user regs m) (k.withUser r ms)
  | spawn {parent : Option ℕ} {junk : KTask} {regs : Regs} {image : Mem} :
      Effect k (.spawn parent junk regs image)
        (k.born { k.dummyTask junk with thid := 0, regs := regs } parent image
          (if junk.pgd ≠ 0 then junk.pgd :: k.freed else k.freed))
  | fork {junk : KTask} {p : ℕ} (hp : k.currentTask.process = some p) :
      Effect k (.fork junk)
        (k.born (k.childTask k.current junk) (some p) (k.mem k.currentTask.pgd) k.freed)
  | thcreateNone {join : Bool} {junk : KTask} {regs : Regs} : Effect k (.thcreate join junk regs) k
  | thcreate {join : Bool} {junk task : KTask} {regs : Regs} {p : ℕ}
      (hp : k.currentTask.process = some p) (hstart : join = false → task.state = .TASK_STARTING)
      (hhandlers : task.signalHandlers = (k.dummyTask junk).signalHandlers)
      (hmasks : task.signalMask = 0 ∧ task.signalMaskCurrent = 0)
      (hqueue : task.signalQueue = k.next + 1) :
      Effect k (.thcreate join junk regs) (k.hatched task p join)
  | thkillLast {thid ret : ℤ} {p : ℕ} {k' : Kernel} (hp : k.currentTask.process = some p)
      (hone : (k.procs p).threads.length = 1) (hk : KilledBy k p id k') :
      Effect k (.thkill thid ret) k'
  | thkillNone {thid ret : ℤ} : Effect k (.thkill thid ret) k
  | thkillSelf {thid ret : ℤ} {p : ℕ} (hp : k.currentTask.process = some p)
      (hone : (k.procs p).threads.length ≠ 1) (hid : k.currentTask.thid = thid) :
      Effect k (.thkill thid ret) ((k.dropThread p k.current).setState k.current .TASK_DYING)
  | thkillOther {thid ret : ℤ} {p t : ℕ} (hp : k.currentTask.process = some p)
      (hone : (k.procs p).threads.length ≠ 1) (ht : t ∈ (k.procs p).threads) (hin : t ∈ k.tasklist)
      (hid : (k.tasks t).thid = thid) (hc : t ≠ k.current) :
      Effect k (.thkill thid ret) ((k.dropThread p t).threadDestroy t)
  | exit {status : Word} {p : ℕ} {k' : Kernel} (hp : k.currentTask.process = some p)
      (hk : KilledBy k p (exitedWith status) k') : Effect k (.exit status) k'
  | waitpidNone {pid : ℤ} {wstatus : ℕ} : Effect k (.waitpid pid wstatus) k
  | waitpid {pid : ℤ} {wstatus q child parent : ℕ} (m : ℕ → Mem) (hargs : pid = -1 ∧ wstatus ≠ 0)
      (hq : k.currentTask.process = some q)
      (hchild : (k.procs q).children.find? k.finished = some child)
      (hparent : (k.procs child).parent = some parent) :
      Effect k (.waitpid pid wstatus) (({ k with mem := m }).processDelete child parent)
  | sleep {wakeTime : ℕ} : Effect k (.sleep wakeTime)
      (k.setTask k.current fun task =>
        { task with state := .TASK_SLEEPING, wakeTime := wakeTime })
  | sigactionOld {num : ℤ} {new old : ℕ} (m : ℕ → Mem) :
      Effect k (.sigaction num new old) { k with mem := m }
  | sigaction {num : ℤ} {new old : ℕ} (m : ℕ → Mem) (hnum : 1 ≤ num ∧ num ≤ NSIG)
      (hkill : num ≠ SIGKILL ∧ num ≠ SIGSTOP) (hnew : new ≠ 0) :
      Effect k (.sigaction num new old) (({ k with mem := m }).setTask k.current fun task =>
        { task with signalHandlers :=
            Function.update task.signalHandlers num.toNat (k.installed num new old) })
  | sigrestore {ctx : ℕ} {ret : ℤ} (r : ℕ → Regs) (m : ℕ → Mem) :
      Effect k (.sigrestore ctx ret) ((k.setMaskCurrent k.current
        (readContext (k.mem k.currentTask.pgd) ctx).oldMask).withUser r m)
  | sendNone {t : ℕ} {s : Sig} : Effect k (.send t s) k
  | sendQueued {t : ℕ} {s : Sig} (hnum : 1 ≤ s.number ∧ s.number ≤ NSIG)
      (hb : k.blocked t s.number) :
      Effect k (.send t s) ((k.accept t).enqueue t ⟨s, k.sent.length⟩)
  | sendExec {t : ℕ} {s : Sig} {k' : Kernel} (hnum : 1 ≤ s.number ∧ s.number ≤ NSIG)
      (he : ExecEffect ((k.accept t).hand k.sent.length t) t s k') : Effect k (.send t s) k'

section Calls

variable {k : Kernel}

theorem effect_thcreate (join : Bool) (junk : KTask) (regs : Regs) :
    Ends (k.sysThcreate join junk regs) (Effect k (.thcreate join junk regs))
      (Effect k (.thcreate join junk regs)) := by
  rcases k.sysThcreate_cases join junk regs with (he | he) |
    ⟨p, task, last, thid, hp, -, -, hstart, hhandlers, hmask, hcurrent, hqueue, he⟩ <;> rw [he]
  · exact ends_ret _ Effect.thcreateNone
  · exact ends_wild
  · exact ends_ret _ (Effect.thcreate hp hstart hhandlers ⟨hmask, hcurrent⟩ hqueue)

theorem effect_thkill (h : RingOk k) (hne : k.current ≠ IDLE_TASK) (thid ret : ℤ) :
    Ends (k.sysThkill thid ret) (Effect k (.thkill thid ret)) (Effect k (.thkill thid ret)) := by
  obtain ⟨p, hp, hcur⟩ := h.member_thread h.current hne
  have hp' : k.currentTask.process = some p := hp
  unfold Kernel.sysThkill
  rw [hp']
  dsimp only
  split_ifs with hone
  · have hid : k.setProc p id = k := by
      rw [Kernel.setProc, id_eq, Function.update_eq_self]
    have hk : KilledBy k p id (k.processKill p).1 := by
      have := processKill_killedBy (p := p) (f := id) (fun _ => rfl) h.nodup
      rwa [hid] at this
    exact ⟨fun _ _ => Effect.thkillLast hp' hone hk, fun _ => Effect.thkillLast hp' hone hk⟩
  · rcases Kernel.thkillLoop_cases ret (h.thids p) with he |
      ⟨t, ht, htid, ⟨hcid, he⟩ | ⟨hcid, hw | ⟨hin, he⟩⟩⟩
    · rw [he]
      exact ends_ret _ Effect.thkillNone
    · rw [he]
      -- the thread found is the current one, since ids differ
      obtain rfl : t = k.current := h.thread_unique ht hcur (htid.trans hcid.symm)
      exact ends_resched (Effect.thkillSelf hp' hone hcid)
    · exact ends_of_wild hw
    · rw [he]
      refine ends_ret _ (Effect.thkillOther hp' hone ht hin htid ?_)
      rintro rfl
      exact hcid htid

theorem effect_exit (h : RingOk k) (hne : k.current ≠ IDLE_TASK) (status : Word) :
    Ends (k.sysExit status) (Effect k (.exit status)) (Effect k (.exit status)) := by
  obtain ⟨p, hp, -⟩ := h.member_thread h.current hne
  have hp' : k.currentTask.process = some p := hp
  unfold Kernel.sysExit
  rw [hp']
  dsimp only
  have hk : KilledBy k p (exitedWith status) ((k.setProc p (exitedWith status)).processKill p).1 :=
    processKill_killedBy (fun _ => rfl) h.nodup
  exact ⟨fun _ _ => Effect.exit hp' hk, fun _ => Effect.exit hp' hk⟩

theorem effect_waitpid (pid : ℤ) (wstatus : ℕ) :
    Ends (k.sysWaitpid pid wstatus) (Effect k (.waitpid pid wstatus))
      (Effect k (.waitpid pid wstatus)) := by
  unfold Kernel.sysWaitpid
  split_ifs with hpid hst
  · exact ends_ret _ Effect.waitpidNone
  · exact ends_ret _ Effect.waitpidNone
  rcases hq : k.currentTask.process with _ | q
  · exact ends_wild
  dsimp only
  rcases hc : (k.procs q).children.find? k.finished with _ | child
  · exact ends_resched Effect.waitpidNone
  dsimp only
  rcases hparent : (k.procs child).parent with _ | parent
  · exact ends_wild
  · exact ends_ret _ (Effect.waitpid _ ⟨not_not.1 hpid, hst⟩ hq hc hparent)

theorem effect_sigaction (num : ℤ) (new old : ℕ) :
    Ends (k.sysSigaction num new old) (Effect k (.sigaction num new old))
      (Effect k (.sigaction num new old)) := by
  unfold Kernel.sysSigaction
  split
  · exact ends_ret _ (Effect.sigactionOld k.mem)
  rename_i hnum
  split
  · exact ends_ret _ (Effect.sigactionOld k.mem)
  rename_i hkill
  dsimp only
  split
  · exact ends_ret _ (Effect.sigactionOld _)
  · rename_i hnew
    exact ends_ret _ (Effect.sigaction _ (by omega) (not_or.1 hkill) hnew)

theorem effect_send (h : RingOk k) {t : ℕ} (ht : t ∈ k.tasklist) (s : Sig) :
    Ends (k.signalSend t s) (Effect k (.send t s)) (Effect k (.send t s)) := by
  unfold Kernel.signalSend
  dsimp only
  split_ifs with hnum hb hfull
  · exact ends_ret _ Effect.sendNone
  · exact ends_panic
  · exact ends_ret _ (Effect.sendQueued (by omega) hb)
  · exact (execEffect_ends ((h.accept t).hand k.sent.length t) ht s).mono
      (fun _ => Effect.sendExec (by omega)) (fun _ => Effect.sendExec (by omega))

theorem effect_ends (h : RingOk k) {e : KEvent} (hf : e.Fits k) :
    Ends (kernelCall k e) (Effect k e) (Effect k e) := by
  cases e with
  | tick => exact ends_resched Effect.tick
  | yield => exact ends_resched Effect.yield
  | user regs m =>
    obtain ⟨r, m', hr⟩ := k.user_user regs m
    rw [hr]
    exact ends_ret _ (Effect.user r m')
  | spawn parent junk regs image =>
    refine ends_ret _ ?_
    rw [Kernel.processSpawn_born]
    exact Effect.spawn
  | fork junk =>
    obtain ⟨p, hp, -⟩ := h.member_thread h.current hf
    have hends : Ends (k.sysFork junk) (Effect k (.fork junk)) (Effect k (.fork junk)) := by
      rw [Kernel.sysFork_born k junk hp]
      exact ends_ret _ (Effect.fork hp)
    exact hends.map some
  | thcreate join junk regs => exact (effect_thcreate join junk regs).map some
  | thkill thid ret => exact (effect_thkill h hf thid ret).map some
  | exit status => exact (effect_exit h hf status).map some
  | waitpid pid wstatus => exact (effect_waitpid pid wstatus).map some
  | sleep wakeTime => exact ends_resched Effect.sleep
  | sigaction num new old => exact (effect_sigaction num new old).map some
  | sigrestore ctx ret =>
    obtain ⟨r, m, hr⟩ := k.sigrestore_user ctx ret
    refine ends_ret _ ?_
    change Effect k (.sigrestore ctx ret) (k.sigrestore ctx ret).1
    rw [hr]
    exact Effect.sigrestore r m
  | send t s => exact (effect_send h hf s).map _

end Calls

/-- What has to be shown of a property `X` that holds in every state of a run, given the
invariants `I` and `J`. -/
structure Stable (C : Kernel → KEvent → Prop) (I J X : Kernel → Prop) : Prop where
  boot : ∀ k, KBoot k → X k
  user : ∀ k r m, X k → X (k.withUser r m)
  call : ∀ k e k', J k → X k → e.Fits k → C k e → Effect k e k' → X k'
  switch : ∀ k n, I k → X k → k.pick = some n → X (k.switchTo n)
  pending : ∀ k x k1 k', J k → X k → k.signalFetch k.current = some (x, k1) →
    ExecEffect (k1.hand x.id k.current) k.current x.sig k' → X k'
  jump : ∀ k prev, J k → X k → X (k.jump prev)

theorem Stable.rule {C : Kernel → KEvent → Prop} {I J X : Kernel → Prop} (h : Stable C I J X)
    (hJ : ∀ k, J k → RingOk k) : KRule C I J X X where
  boot := h.boot
  user k r m _ hX := h.user k r m hX
  call k e hj hX hf hC := (effect_ends (hJ k hj) hf).mono
    (fun k' => h.call k e k' hj hX hf hC) (fun k' => h.call k e k' hj hX hf hC)
  switch := h.switch
  pending k x k1 hj hX hfetch := by
    have hring := hJ k hj
    obtain ⟨-, rfl⟩ := signalFetch_current hfetch
    exact (execEffect_ends ((hring.withQueues _).hand x.id k.current) hring.current x.sig).mono
      (fun k' => h.pending k x _ k' hj hX hfetch) (fun k' => h.pending k x _ k' hj hX hfetch)
  jump := h.jump

theorem Stable.run {C : Kernel → KEvent → Prop} {X : Kernel → Prop}
    (h : Stable C TaskRing RingOk X) {evs : List KEvent} {k : Kernel} (hrun : KRunOf C evs k) :
    RingOk k ∧ X k :=
  ((ring_rule.weaken fun _ _ _ => trivial).and (h.rule fun _ hk => hk)).run hrun

end DepthOS
