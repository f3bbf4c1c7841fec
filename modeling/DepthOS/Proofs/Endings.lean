import DepthOS.Proofs.Parents

/-! How a process ends: by its `exit`, or by a signal that a step hands to `signal_exec`
for one of its threads. It is written once, as the event or the signal says, and stays. -/

namespace DepthOS

open Lib

/-- How a process ended. -/
inductive Ending where
  | exited (status : Word)
  | killed (signal : ℤ)

/-- `WAIT_EXIT` and `WAIT_SIG` -/
def Ending.word : Ending → ℕ
  | .exited status => status.toNat % 256 * 256
  | .killed signal => (signal % 128).toNat

def Process.ending (proc : Process) : Option Ending :=
  match proc.state with
  | .PROCESS_EXITED => some (.exited proc.exitCode)
  | .PROCESS_DEAD => some (.killed proc.signal)
  | _ => none

theorem finished_ending (k : Kernel) (p : ℕ) : k.finished p = (k.procs p).ending.isSome := by
  unfold Kernel.finished Process.ending
  cases (k.procs p).state <;> simp

theorem waitStatus_ending {k : Kernel} {p : ℕ} {x : Ending} (h : (k.procs p).ending = some x) :
    k.waitStatus p = x.word := by
  unfold Process.ending at h
  unfold Kernel.waitStatus
  cases hs : (k.procs p).state <;> rw [hs] at h <;> cases h <;> rfl

/-- A process that has ended has no threads left but one that is dying. -/
def NoneLeft (k : Kernel) : Prop := ∀ p, k.finished p → NoThreads k p

theorem NoneLeft.running {k : Kernel} (h : NoneLeft k) (hr : RingOk k) {t p : ℕ}
    (ht : t ∈ k.tasklist)
    (hp : (k.tasks t).process = some p) : k.finished p = false := by
  rcases hf : k.finished p with _ | _
  · rfl
  · exact absurd (h p hf t ht hp) (hr.not_dying ht)

/-- From `k` to `k'`, a process that had ended stays as it was, one that ends has lost its
threads, and the threads that are there belong to processes that run or were there before. -/
structure Settles (k k' : Kernel) : Prop where
  next : k.next ≤ k'.next
  ending : ∀ p, (k'.procs p).ending = (k.procs p).ending ∨
    (k.finished p = false ∧ NoThreads k' p) ∨ (k.next ≤ p ∧ k'.finished p = false)
  tasks : ∀ t ∈ k'.tasklist, ∀ p, (k'.tasks t).process = some p → k'.finished p = false ∨
    (t ∈ k.tasklist ∧ (k.tasks t).process = some p ∧
      ((k.tasks t).state = .TASK_DYING → (k'.tasks t).state = .TASK_DYING))

/-- Whoever has ended in `k` is in `k'` as it was. -/
structure Settled (k k' : Kernel) : Prop where
  next : k.next ≤ k'.next
  ending : ∀ p < k.next, ∀ x, (k.procs p).ending = some x → (k'.procs p).ending = some x

theorem Settled.refl (k : Kernel) : Settled k k := ⟨le_rfl, fun _ _ _ h => h⟩

theorem Settled.trans {k k' k'' : Kernel} (h : Settled k k') (h' : Settled k' k'') :
    Settled k k'' :=
  ⟨h.next.trans h'.next,
    fun p hp x hx => h'.ending p (hp.trans_le h.next) x (h.ending p hp x hx)⟩

section Settles

variable {k k' : Kernel}

theorem Settles.ended (hs : Settles k k') (h : NoneLeft k) : NoneLeft k' := by
  intro p hp t ht htp
  rcases hs.ending p with he | ⟨-, hn⟩ | ⟨-, hf⟩
  · rcases hs.tasks t ht p htp with hf | ⟨hin, hproc, hdying⟩
    · rw [hp] at hf
      cases hf
    · rw [finished_ending, he, ← finished_ending] at hp
      exact hdying (h p hp t hin hproc)
  · exact hn t ht htp
  · rw [hp] at hf
    cases hf

theorem Settles.settled (hs : Settles k k') : Settled k k' := by
  refine ⟨hs.next, fun p hp x hx => ?_⟩
  rcases hs.ending p with he | ⟨hf, -⟩ | ⟨hle, -⟩
  · exact he.trans hx
  · rw [finished_ending, hx] at hf
    cases hf
  · omega

theorem settles_fewer (hnext : k.next ≤ k'.next)
    (hending : ∀ p, (k'.procs p).ending = (k.procs p).ending)
    (htasks : ∀ t ∈ k'.tasklist, t ∈ k.tasklist ∧ (k'.tasks t).process = (k.tasks t).process ∧
      ((k.tasks t).state = .TASK_DYING → (k'.tasks t).state = .TASK_DYING)) : Settles k k' :=
  ⟨hnext, fun p => Or.inl (hending p), fun t ht _ hp =>
    Or.inr ⟨(htasks t ht).1, (htasks t ht).2.1.symm.trans hp, (htasks t ht).2.2⟩⟩

theorem settles_same (h : SameReap k k') (hprocs : k'.procs = k.procs) (hnext : k.next ≤ k'.next) :
    Settles k k' := by
  refine settles_fewer hnext (fun p => by rw [hprocs]) fun t ht => ?_
  have hin := (h.tasklist t).1 ht
  exact ⟨hin, h.process t, (h.dying t hin).2⟩

theorem settles_tasks (htasks : k'.tasks = k.tasks) (hprocs : k'.procs = k.procs)
    (hlist : k'.tasklist = k.tasklist) (hlive : k'.live = k.live) (hnext : k.next ≤ k'.next) :
    Settles k k' :=
  settles_same (sameReap_of_tasks htasks hprocs hlist hlive) hprocs hnext

theorem settles_kill (hr : RingOk k) {p : ℕ} {f : Process → Process} (hk : KilledBy k p f k')
    (hp : k.finished p = false) : Settles k k' := by
  refine ⟨hk.next.ge, fun q => ?_, fun t ht q hq => ?_⟩
  · by_cases hqp : q = p
    · rw [hqp]
      exact Or.inr (Or.inl ⟨hp, hk.noThreads hr⟩)
    · rw [hk.proc, if_neg hqp]
      exact Or.inl rfl
  · refine Or.inr ⟨(hk.mem.1 ht).1, (hk.process t).symm.trans hq, fun hd => ?_⟩
    rw [hk.task]
    split_ifs
    · rfl
    · exact hd

theorem settles_exec (h : NoneLeft k) (hr : RingOk k) {t : ℕ} {s : Sig} (ht : t ∈ k.tasklist)
    (he : ExecEffect k t s k') : Settles k k' := by
  cases he with
  | ignored => exact settles_tasks rfl rfl rfl rfl le_rfl
  | killed hp _ hk => exact settles_kill hr hk (h.running hr ht hp)
  | stopped =>
    have hnot := hr.not_dying ht
    exact settles_same (sameReap_setTask rfl ⟨rfl, nofun, fun hd => absurd hd hnot⟩ rfl rfl rfl)
      rfl le_rfl
  | caught r m => exact settles_same ((sameReap_mask k t _).trans (sameReap_user _ r m)) rfl le_rfl

theorem born_running (k : Kernel) (task : KTask) {parent : Option ℕ} (m : Mem) (freed : List ℕ)
    (hpar : ∀ q, parent = some q → q < k.next) :
    (k.born task parent m freed).finished (k.next + 3) = false := by
  rw [finished_ending, born_procs_self k task m freed hpar]
  rfl

theorem born_ending (k : Kernel) (task : KTask) (parent : Option ℕ) (m : Mem) (freed : List ℕ)
    {p : ℕ} (hp : p ≠ k.next + 3) :
    ((k.born task parent m freed).procs p).ending = (k.procs p).ending := by
  rw [born_procs_other k task parent m freed hp]
  split_ifs <;> rfl

theorem settles_born (hr : RingOk k) (task : KTask) {parent : Option ℕ} (m : Mem) (freed : List ℕ)
    (hpar : ∀ q, parent = some q → q < k.next) : Settles k (k.born task parent m freed) := by
  have hnew := born_running k task m freed hpar
  refine ⟨Nat.le_add_right _ _, fun p => ?_, fun t ht p hp => ?_⟩
  · by_cases hpn : p = k.next + 3
    · rw [hpn]
      exact Or.inr (Or.inr ⟨Nat.le_add_right _ _, hnew⟩)
    · exact Or.inl (born_ending k task parent m freed hpn)
  · rcases Kernel.born_mem ht with ht | rfl
    · rw [born_task_other hr task parent m freed ht] at hp ⊢
      exact Or.inr ⟨ht, hp, id⟩
    · rw [born_task_self] at hp
      rw [← Option.some.inj hp]
      exact Or.inl hnew

theorem hatched_ending (k : Kernel) (task : KTask) (p : ℕ) (join : Bool) (q : ℕ) :
    ((k.hatched task p join).procs q).ending = (k.procs q).ending := by
  unfold Kernel.hatched
  by_cases hq : q = p
  · rw [hq]
    simp only [Function.update_self]
    rfl
  · simp only [Function.update_of_ne hq]

theorem settles_hatched (h : NoneLeft k) (hr : RingOk k) (task : KTask) {p : ℕ} (join : Bool)
    (hp : k.currentTask.process = some p) : Settles k (k.hatched task p join) := by
  have hending := hatched_ending k task p join
  refine ⟨Nat.le_add_right _ _, fun q => Or.inl (hending q), fun t ht q hq => ?_⟩
  rcases Kernel.hatched_mem ht with ht | ⟨rfl, -⟩
  · rw [hatched_task_other hr task p join ht] at hq ⊢
    exact Or.inr ⟨ht, hq, id⟩
  · -- the process of the new thread is the caller's, which runs
    have hnew : (k.hatched task p join).tasks k.next =
        { task with pgd := k.currentTask.pgd, process := some p } := Function.update_self _ _ _
    rw [hnew] at hq
    rw [← Option.some.inj hq, finished_ending, hending, ← finished_ending]
    exact Or.inl (h.running hr hr.current hp)

theorem dropThread_ending (k : Kernel) (p t q : ℕ) :
    ((k.dropThread p t).procs q).ending = (k.procs q).ending := by
  rw [Kernel.dropThread, Kernel.setProc_procs]
  split_ifs <;> rfl

theorem settles_delete (k : Kernel) (child q : ℕ) : Settles k (k.processDelete child q) := by
  refine settles_fewer le_rfl (fun p => ?_) fun t ht => ⟨ht, rfl, id⟩
  rw [Kernel.processDelete_procs]
  rfl

theorem settles_switchTo (k : Kernel) (n : ℕ) : Settles k (k.switchTo n) := by
  have hw := sameReap_wake k n
  have hprocs : (k.wake n).procs = k.procs := by
    unfold Kernel.wake
    split_ifs <;> rfl
  have hnext : (k.wake n).next = k.next := by
    unfold Kernel.wake
    split_ifs <;> rfl
  unfold Kernel.switchTo
  dsimp only
  split_ifs
  · refine settles_fewer hnext.ge (fun p => by rw [← hprocs]; rfl) fun t ht => ?_
    have hin := (hw.tasklist t).1 (List.mem_of_mem_erase ht)
    exact ⟨hin, hw.process t, (hw.dying t hin).2⟩
  · exact settles_same (hw.trans (sameReap_of_tasks rfl rfl rfl rfl)) hprocs hnext.ge

theorem settles_effect (h : NoneLeft k) (hr : RingOk k) (hfam : Family k) {e : KEvent}
    (hf : e.Fits k) (he : Effect k e k') : Settles k k' := by
  cases he with
  | user r m => exact settles_same (sameReap_user k r m) rfl le_rfl
  | spawn => exact settles_born hr _ _ _ fun q hq => hfam.below q (hf q hq)
  | fork hp =>
    exact settles_born hr _ _ _ fun q hq => Option.some.inj hq ▸ hr.process_lt hp
  | thcreate hp => exact settles_hatched h hr _ _ hp
  | thkillLast hp _ hk => exact settles_kill hr hk (h.running hr hr.current hp)
  | @thkillSelf _ _ p =>
    refine settles_fewer le_rfl (dropThread_ending k p k.current) fun t ht => ⟨ht, ?_, ?_⟩
    · rw [Kernel.setState, Kernel.setTask_tasks]
      split_ifs <;> rfl
    · intro hd
      rw [Kernel.setState, Kernel.setTask_tasks]
      split_ifs
      · rfl
      · exact hd
  | @thkillOther _ _ p t =>
    exact settles_fewer le_rfl (dropThread_ending k p t)
      fun _ hx => ⟨List.mem_of_mem_erase hx, rfl, id⟩
  | exit hp hk => exact settles_kill hr hk (h.running hr hr.current hp)
  | @waitpid _ _ _ child parent m =>
    obtain ⟨hnext, hending, htasks⟩ := settles_delete { k with mem := m } child parent
    exact ⟨hnext, hending, htasks⟩
  | sleep =>
    have hst : TaskState.TASK_SLEEPING ≠ .TASK_DYING := by decide
    exact settles_same (sameReap_setTask rfl
      ⟨rfl, fun hd => absurd hd hst, fun hd => absurd hd hr.alive⟩ rfl rfl rfl) rfl le_rfl
  | sigaction => exact settles_same (sameReap_setTask rfl ⟨rfl, Iff.rfl⟩ rfl rfl rfl) rfl le_rfl
  | sigrestore r m =>
    exact settles_same ((sameReap_mask k k.current _).trans (sameReap_user _ r m)) rfl le_rfl
  | @sendExec t s _ _ he =>
    have ha : NoneLeft ((k.accept t).hand k.sent.length t) :=
      (settles_tasks rfl rfl rfl rfl le_rfl : Settles k _).ended h
    obtain ⟨hnext, hending, htasks⟩ := settles_exec ha ((hr.accept t).hand _ t) hf he
    exact ⟨hnext, hending, htasks⟩
  | _ => exact settles_tasks rfl rfl rfl rfl le_rfl

end Settles

/-- What no process that has ended can undo, in the states between the call and the end of a
step: `I` where `reschedule` is entered, `J` elsewhere. -/
def TidyIn (X : Kernel → Prop) (k : Kernel) : Prop :=
  (TaskRing k ∧ Family k) ∧ NoneLeft k ∧ X k

def Tidy (X : Kernel → Prop) (k : Kernel) : Prop :=
  (RingOk k ∧ Family k) ∧ NoneLeft k ∧ X k

section Tidy

variable {X : Kernel → Prop} (hX : ∀ a b, X a → Settled a b → X b)
include hX

theorem Tidy.move {a b : Kernel} (ha : NoneLeft a ∧ X a) (hab : Settles a b) :
    NoneLeft b ∧ X b :=
  ⟨hab.ended ha.1, hX _ _ ha.2 hab.settled⟩

theorem Tidy.user {k : Kernel} (h : Tidy X k) (r : ℕ → Regs) (m : ℕ → Mem) :
    Tidy X (k.withUser r m) :=
  ⟨family_rule.user k r m trivial h.1, Tidy.move hX h.2 (settles_same (sameReap_user k r m) rfl
    le_rfl)⟩

theorem Tidy.jump {k : Kernel} (h : Tidy X k) (prev : ℕ) : Tidy X (k.jump prev) :=
  ⟨family_rule.jump k prev trivial h.1, Tidy.move hX h.2 (settles_tasks rfl rfl rfl rfl le_rfl)⟩

theorem TidyIn.switchTo {k : Kernel} {n : ℕ} (h : TidyIn X k) (hp : k.pick = some n) :
    Tidy X (k.switchTo n) :=
  ⟨family_rule.switch k n trivial h.1 hp, Tidy.move hX h.2 (settles_switchTo k n)⟩

theorem Tidy.fetch {k k' : Kernel} {x : Pending} (h : Tidy X k)
    (hf : k.signalFetch k.current = some (x, k')) :
    RingOk (k'.hand x.id k.current) ∧ NoneLeft (k'.hand x.id k.current) ∧
      X (k'.hand x.id k.current) := by
  obtain ⟨-, rfl⟩ := signalFetch_current hf
  exact ⟨(h.1.1.withQueues _).hand x.id k.current,
    Tidy.move hX h.2 (settles_tasks rfl rfl rfl rfl le_rfl)⟩

theorem Tidy.pending {k k' : Kernel} {x : Pending} (h : Tidy X k)
    (hf : k.signalFetch k.current = some (x, k')) :
    Ends ((k'.hand x.id k.current).signalExec k.current x.sig) (Tidy X) (TidyIn X) := by
  obtain ⟨hring, hleft⟩ := h.fetch hX hf
  refine (family_rule.pending k x k' trivial h.1 hf).and ?_
  obtain ⟨-, rfl⟩ := signalFetch_current hf
  have hafter : ∀ b, ExecEffect ((k.dequeue k.current).hand x.id k.current) k.current x.sig b →
      NoneLeft b ∧ X b := fun b he =>
    Tidy.move hX hleft (settles_exec hleft.1 hring h.1.1.current he)
  exact (execEffect_ends hring h.1.1.current x.sig).mono hafter hafter

theorem TidyIn.reschedule {fuel : ℕ} {k k' : Kernel} (h : TidyIn X k)
    (hr : k.reschedule fuel = some k') : Tidy X k' :=
  reschedule_rule (fun _ _ hI hp => hI.switchTo hX hp) (fun _ _ _ hJ hf => hJ.pending hX hf)
    (fun _ prev hJ => hJ.jump hX prev) h hr

theorem kstep_settles {k k' : Kernel} {e : KEvent} (hr : RingOk k ∧ Family k) (h : NoneLeft k)
    (hcall : e.Fits k → Ends (kernelCall k e) X X) (hs : KStep k e k') : NoneLeft k' ∧ X k' := by
  have hend : e.Fits k → Ends (kernelCall k e) (Tidy X) (TidyIn X) := by
    intro hf
    have hleft : ∀ b, Effect k e b → NoneLeft b :=
      fun b he => (settles_effect h hr.1 hr.2 hf he).ended h
    exact (family_rule.call k e trivial hr hf trivial).and
      (((effect_ends hr.1 hf).mono hleft hleft).and (hcall hf))
  exact (kstep_rule (J := Tidy X) (I := TidyIn X) (fun _ r m hJ => hJ.user hX r m)
    (fun _ _ hI hp => hI.switchTo hX hp) (fun _ _ _ hJ hf => hJ.pending hX hf)
    (fun _ prev hJ => hJ.jump hX prev) hend hs).2

end Tidy

theorem settled_step {k k' : Kernel} {e : KEvent} (hr : RingOk k ∧ Family k) (h : NoneLeft k)
    (hs : KStep k e k') : NoneLeft k' ∧ Settled k k' := by
  refine kstep_settles (fun _ _ => Settled.trans) hr h (fun hf => ?_) hs
  have hafter : ∀ b, Effect k e b → Settled k b :=
    fun b he => (settles_effect h hr.1 hr.2 hf he).settled
  exact (effect_ends hr.1 hf).mono hafter hafter

theorem ended_run {evs : List KEvent} {k : Kernel} (h : KRun evs k) :
    (RingOk k ∧ Family k) ∧ NoneLeft k := by
  induction h with
  | nil hk =>
    refine ⟨family_rule.boot _ hk, fun p hp => ?_⟩
    obtain ⟨idle, mem, pitTicks, rfl⟩ := hk
    cases hp
  | snoc _ hs ih =>
    exact ⟨family_rule.step ih.1 trivial hs, (settled_step ih.1 ih.2 hs).1⟩

theorem settled_run {k k' : Kernel} {later : List KEvent} (hr : RingOk k ∧ Family k)
    (h : NoneLeft k)
    (hl : Run (· = k) KStep later k') :
    ((RingOk k' ∧ Family k') ∧ NoneLeft k') ∧ Settled k k' := by
  induction hl with
  | nil hk =>
    subst hk
    exact ⟨⟨hr, h⟩, Settled.refl _⟩
  | snoc _ hs ih =>
    obtain ⟨⟨hr', h'⟩, hset⟩ := ih
    obtain ⟨hended, hstep⟩ := settled_step hr' h' hs
    exact ⟨⟨family_rule.step hr' trivial hs, hended⟩, hset.trans hstep⟩

/-! The signals that a step hands to `signal_exec`. -/

/-- `signal_exec` of `s` kills task `t`. -/
def Kernel.Fatal (k : Kernel) (t : ℕ) (s : Sig) : Prop :=
  (k.tasks t).pgd ≠ KERNEL_PGD ∧ (s.number = SIGKILL ∨ (s.number ≠ SIGSTOP ∧
    ((k.tasks t).signalHandlers s.number.toNat).entry = SIGNAL_DEFAULT_ACTION ∧
    ¬(s.number = SIGCHLD ∨ s.number = SIGURG ∨ s.number = SIGWINCH)))

/-- `reschedule` switches to `n` and takes `x` from its queue. -/
def Kernel.FetchesNext (k : Kernel) (n : ℕ) (x : Pending) (k' : Kernel) : Prop :=
  k.pick = some n ∧ (k.switchTo n).signalFetch n = some (x, k')

/-- `reschedule` is entered in these states on the way from `k` by `e`. -/
inductive Enters (k : Kernel) (e : KEvent) : Kernel → Prop
  | call (h : (kernelCall k e).2 = .resched) : Enters k e (kernelCall k e).1
  | again {a b : Kernel} {n : ℕ} {x : Pending} (ha : Enters k e a) (hf : a.FetchesNext n x b)
      (h : ((b.hand x.id n).signalExec n x.sig).2 = .resched) :
      Enters k e ((b.hand x.id n).signalExec n x.sig).1

/-- `signal_exec` is called with `s` for task `t` in a state on the way from `k` by `e`: for a
signal that the event sends, or for one that `reschedule` takes from a queue. -/
inductive Execs (k : Kernel) (e : KEvent) : Kernel → ℕ → Sig → Prop
  | sent {t : ℕ} {s : Sig} (he : e = .send t s) (hnum : 1 ≤ s.number ∧ s.number ≤ NSIG)
      (hfree : k.blocked t s.number = false) :
      Execs k e ((k.accept t).hand k.sent.length t) t s
  | fetched {a b : Kernel} {n : ℕ} {x : Pending} (ha : Enters k e a) (hf : a.FetchesNext n x b) :
      Execs k e (b.hand x.id n) n x.sig

/-- Process `c` ends in the step by `e`, by its `exit` or by a signal to one of its threads. -/
inductive EndsAs (c : ℕ) (k : Kernel) (e : KEvent) : Ending → Prop
  | exit {status : Word} (he : e = .exit status) (hp : k.currentTask.process = some c) :
      EndsAs c k e (.exited status)
  | killed {b : Kernel} {t : ℕ} {s : Sig} (hx : Execs k e b t s)
      (hp : (b.tasks t).process = some c) (hs : b.Fatal t s) : EndsAs c k e (.killed s.number)

theorem signalExec_fatal {k : Kernel} {t : ℕ} {s : Sig} (h : k.Fatal t s) :
    k.signalExec t s = k.killWithSignal t s.number := by
  obtain ⟨hu, hnum⟩ := h
  unfold Kernel.signalExec Kernel.defaultSignalHandler
  rw [if_neg hu]
  rcases hnum with hkill | ⟨hstop, hentry, hmore⟩
  · rw [if_pos hkill]
  · dsimp only
    split_ifs <;> rfl

theorem signalExec_mild {k : Kernel} {t : ℕ} {s : Sig} (h : ¬k.Fatal t s) :
    (k.signalExec t s).1.procs = k.procs := by
  unfold Kernel.Fatal at h
  unfold Kernel.signalExec Kernel.defaultSignalHandler
  dsimp only
  split_ifs with h1 h2 h3 h4 h5 h6
  · rfl
  · exact absurd ⟨h1, Or.inl h2⟩ h
  · rfl
  · rfl
  · exact absurd ⟨h1, Or.inr ⟨h3, h4, h5⟩⟩ h
  · rfl
  · rfl

theorem RingOk.thread_process_lt {k : Kernel} (h : RingOk k) {t p : ℕ} (ht : t ∈ k.tasklist)
    (hp : (k.tasks t).process = some p) : p < k.next := by
  have hne : t ≠ IDLE_TASK := by
    rintro rfl
    rw [h.idle_process] at hp
    cases hp
  obtain ⟨q, hq, hlt, -⟩ := h.member _ ht hne
  obtain rfl := Option.some.inj (hq.symm.trans hp)
  exact hlt

theorem fatal_ends {k : Kernel} (hr : RingOk k) {t c : ℕ} {s : Sig} (ht : t ∈ k.tasklist)
    (hp : (k.tasks t).process = some c) (hs : k.Fatal t s) :
    let X := fun b : Kernel => c < b.next ∧ (b.procs c).ending = some (.killed s.number)
    Ends (k.signalExec t s) X X := by
  intro X
  have hk : KilledBy k c (deadBy s.number) ((k.setProc c (deadBy s.number)).processKill c).1 :=
    processKill_killedBy (fun _ => rfl) hr.nodup
  have hX : X ((k.setProc c (deadBy s.number)).processKill c).1 := by
    refine ⟨(hr.thread_process_lt ht hp).trans_le hk.next.ge, ?_⟩
    rw [hk.proc, if_pos rfl]
    rfl
  rw [signalExec_fatal hs]
  unfold Kernel.killWithSignal
  rw [hp]
  exact ⟨fun _ _ => hX, fun _ => hX⟩

/-- A process that `signal_exec` finishes has been killed by the signal. -/
theorem fatal_of_finished {k : Kernel} (hr : RingOk k) {t c : ℕ} {s : Sig} (ht : t ∈ k.tasklist)
    (hc : k.finished c = false) (hf : (k.signalExec t s).1.finished c) :
    (k.tasks t).process = some c ∧ k.Fatal t s := by
  by_cases hs : k.Fatal t s
  · refine ⟨?_, hs⟩
    obtain ⟨p, hp, -⟩ := hr.member_thread ht (hr.user_ne_idle hs.1)
    by_cases hpc : c = p
    · rw [hpc, hp]
    · rw [signalExec_fatal hs] at hf
      unfold Kernel.killWithSignal at hf
      rw [hp] at hf
      have hk : KilledBy k p (deadBy s.number)
          ((k.setProc p (deadBy s.number)).processKill p).1 :=
        processKill_killedBy (fun _ => rfl) hr.nodup
      have hproc := hk.proc c
      rw [if_neg hpc] at hproc
      rw [finished_ending] at hc
      change Kernel.finished ((k.setProc p (deadBy s.number)).processKill p).1 c = true at hf
      rw [finished_ending, hproc, hc] at hf
      cases hf
  · rw [finished_ending, signalExec_mild hs, ← finished_ending, hc] at hf
    cases hf

theorem reschedule_fetches {fuel n : ℕ} {a b k' : Kernel} {x : Pending}
    (h : a.reschedule (fuel + 1) = some k') (hf : a.FetchesNext n x b) :
    (∃ u, ((b.hand x.id n).signalExec n x.sig).2 = .ret u ∧
      k' = ((b.hand x.id n).signalExec n x.sig).1.jump a.current) ∨
    (((b.hand x.id n).signalExec n x.sig).2 = .resched ∧
      ((b.hand x.id n).signalExec n x.sig).1.reschedule fuel = some k') := by
  rw [Kernel.reschedule, hf.1] at h
  dsimp only at h
  rw [hf.2] at h
  dsimp only at h
  rcases he : (b.hand x.id n).signalExec n x.sig with ⟨k2, flow⟩
  rw [he] at h
  cases flow with
  | ret u => exact Or.inl ⟨u, rfl, (Option.some.inj h).symm⟩
  | resched => exact Or.inr ⟨rfl, h⟩
  | panic => cases h
  | wild => cases h

/-- The step goes on from every state in which it enters `reschedule`. -/
theorem Enters.goes_on {k k' a : Kernel} {e : KEvent} (h : Enters k e a) (hs : KStep k e k') :
    ∃ fuel, a.reschedule fuel = some k' := by
  induction h with
  | call h =>
    have hends := hs.2
    rw [h] at hends
    exact hends
  | again _ hf h ih =>
    obtain ⟨_ | fuel, hfuel⟩ := ih
    · cases hfuel
    rcases reschedule_fetches hfuel hf with ⟨u, hret, -⟩ | ⟨-, hgo⟩
    · rw [h] at hret
      cases hret
    · exact ⟨fuel, hgo⟩

theorem signalSend_free {k : Kernel} {t : ℕ} {s : Sig} (hnum : 1 ≤ s.number ∧ s.number ≤ NSIG)
    (hfree : k.blocked t s.number = false) :
    k.signalSend t s = ((k.accept t).hand k.sent.length t).signalExec t s := by
  have hout : ¬(s.number > NSIG ∨ s.number < 1) := by omega
  have hfree' : (k.accept t).blocked t s.number = false := hfree
  unfold Kernel.signalSend
  rw [if_neg hout]
  change (if (k.accept t).blocked t s.number = true then _ else _) = _
  rw [hfree', if_neg Bool.false_ne_true]
  rfl

theorem born_finished {k : Kernel} {task : KTask} {parent : Option ℕ} {m : Mem} {freed : List ℕ} {c : ℕ}
    (hpar : ∀ q, parent = some q → q < k.next)
    (hf : (k.born task parent m freed).finished c) : k.finished c := by
  by_cases hc : c = k.next + 3
  · rw [hc, born_running k task m freed hpar] at hf
    cases hf
  · rwa [finished_ending, born_ending k task parent m freed hc, ← finished_ending] at hf

theorem killedBy_finished {k b : Kernel} {p c : ℕ} {f : Process → Process} (hk : KilledBy k p f b)
    (hc : k.finished c = false) (hf : b.finished c) : c = p := by
  by_contra hne
  rw [finished_ending, hk.proc, if_neg hne, ← finished_ending, hc] at hf
  cases hf

theorem signalSend_finished {k : Kernel} {t c : ℕ} {s : Sig} (hc : k.finished c = false)
    (hfin : (k.signalSend t s).1.finished c) :
    (1 ≤ s.number ∧ s.number ≤ NSIG) ∧ k.blocked t s.number = false := by
  by_contra hnot
  have hsame : (k.signalSend t s).1.procs = k.procs := by
    unfold Kernel.signalSend
    dsimp only
    split_ifs with hnum hb hfull
    · rfl
    · rfl
    · rfl
    · refine absurd ⟨by omega, ?_⟩ hnot
      exact Bool.eq_false_iff.2 hb
  rw [finished_ending, hsame, ← finished_ending, hc] at hfin
  cases hfin

theorem switchTo_finished (k : Kernel) (n c : ℕ) : (k.switchTo n).finished c = k.finished c := by
  have hprocs : (k.switchTo n).procs = k.procs := by
    unfold Kernel.switchTo Kernel.wake
    dsimp only
    split_ifs <;> rfl
  unfold Kernel.finished
  rw [hprocs]

section Enters

variable {k k' : Kernel} {e : KEvent} (hr : RingOk k ∧ Family k) (h : NoneLeft k)
include hr h

theorem Enters.kept {a : Kernel} (hf : e.Fits k) (ha : Enters k e a) :
    TidyIn (fun _ => True) a := by
  induction ha with
  | call hcall =>
    have hleft : ∀ b, Effect k e b → NoneLeft b ∧ True :=
      fun b he => ⟨(settles_effect h hr.1 hr.2 hf he).ended h, trivial⟩
    exact ((family_rule.call k e trivial hr hf trivial).and
      ((effect_ends hr.1 hf).mono hleft hleft)).2 hcall
  | again _ hfetch hres ih =>
    have hJ := ih.switchTo (fun _ _ _ _ => trivial) hfetch.1
    exact (hJ.pending (fun _ _ _ _ => trivial) hfetch.2).2 hres

theorem Execs.ready {b : Kernel} {t : ℕ} {s : Sig} (hf : e.Fits k) (hx : Execs k e b t s) :
    RingOk b ∧ t ∈ b.tasklist := by
  cases hx with
  | sent he _ _ =>
    subst he
    exact ⟨(hr.1.accept t).hand _ t, hf⟩
  | fetched ha hfetch =>
    have hJ := (ha.kept hr h hf).switchTo (fun _ _ _ _ => trivial) hfetch.1
    refine ⟨(hJ.fetch (fun _ _ _ _ => trivial) hfetch.2).1, ?_⟩
    have hcur := hJ.1.1.current
    obtain ⟨-, rfl⟩ := signalFetch_current hfetch.2
    exact hcur

theorem EndsAs.written {c : ℕ} {x : Ending} (hend : EndsAs c k e x) (hs : KStep k e k') :
    c < k'.next ∧ (k'.procs c).ending = some x := by
  have hX : ∀ a b : Kernel, (c < a.next ∧ (a.procs c).ending = some x) → Settled a b →
      c < b.next ∧ (b.procs c).ending = some x :=
    fun a b ha hab => ⟨ha.1.trans_le hab.next, hab.ending c ha.1 _ ha.2⟩
  cases hend with
  | @exit status he hp =>
    subst he
    refine (kstep_settles hX hr h (fun hf => ?_) hs).2
    have hafter : ∀ b, Effect k (.exit status) b → c < b.next ∧
        (b.procs c).ending = some (.exited status) := by
      intro b he
      cases he with
      | exit hp' hk =>
        obtain rfl := Option.some.inj (hp'.symm.trans hp)
        refine ⟨(hr.1.process_lt hp).trans_le hk.next.ge, ?_⟩
        rw [hk.proc, if_pos rfl]
        rfl
    exact (effect_ends hr.1 hf).mono hafter hafter
  | killed hx hp hfatal =>
    have hready := hx.ready hr h hs.1
    have hends := fatal_ends hready.1 hready.2 hp hfatal
    cases hx with
    | sent he hnum hfree =>
      subst he
      refine (kstep_settles hX hr h (fun _ => ?_) hs).2
      rw [← signalSend_free hnum hfree] at hends
      exact hends.map _
    | fetched ha hfetch =>
      obtain ⟨_ | fuel, hfuel⟩ := ha.goes_on hs
      · cases hfuel
      have hJ := (ha.kept hr h hs.1).switchTo (fun _ _ _ _ => trivial) hfetch.1
      have hkept := (hJ.pending (fun _ _ _ _ => trivial) hfetch.2).and hends
      rcases reschedule_fetches hfuel hfetch with ⟨u, hret, rfl⟩ | ⟨hres, hgo⟩
      · exact (hkept.1 u hret).2
      · obtain ⟨⟨hI, hleft, -⟩, hX'⟩ := hkept.2 hres
        exact (TidyIn.reschedule hX ⟨hI, hleft, hX'⟩ hgo).2.2

omit h in
/-- No call but `exit` and the sending of a signal finishes a process. -/
theorem effect_finished {b : Kernel} {c : ℕ} (hf : e.Fits k) (he : Effect k e b)
    (hsend : ∀ t s, e ≠ .send t s) (hc : k.finished c = false) (hfin : b.finished c) :
    ∃ status, e = .exit status ∧ k.currentTask.process = some c := by
  have hsame : (b.procs c).ending ≠ (k.procs c).ending := by
    intro hb
    rw [finished_ending, hb, ← finished_ending, hc] at hfin
    cases hfin
  cases he with
  | spawn =>
    rw [born_finished (fun q hq => hr.2.below q (hf q hq)) hfin] at hc
    cases hc
  | fork hp =>
    rw [born_finished (fun q hq => Option.some.inj hq ▸ hr.1.process_lt hp) hfin] at hc
    cases hc
  | thcreate => exact absurd (hatched_ending k _ _ _ c) hsame
  | @thkillLast _ _ p _ _ _ hk =>
    refine absurd ?_ hsame
    rw [hk.proc]
    split_ifs <;> rfl
  | @thkillSelf _ _ p => exact absurd (dropThread_ending k p k.current c) hsame
  | @thkillOther _ _ p t => exact absurd (dropThread_ending k p t c) hsame
  | @exit status p _ hp hk =>
    rw [killedBy_finished hk hc hfin]
    exact ⟨status, rfl, hp⟩
  | waitpid m =>
    refine absurd ?_ hsame
    rw [Kernel.processDelete_procs]
    rfl
  | sendNone => exact absurd rfl (hsend _ _)
  | sendQueued => exact absurd rfl (hsend _ _)
  | sendExec => exact absurd rfl (hsend _ _)
  | _ => exact absurd rfl hsame

theorem call_endsAs {c : ℕ} (hf : e.Fits k) (hc : k.finished c = false) :
    let X := fun b : Kernel => b.finished c → ∃ x, EndsAs c k e x
    Ends (kernelCall k e) X X := by
  intro X
  by_cases hsend : ∃ t s, e = .send t s
  · obtain ⟨t, s, rfl⟩ := hsend
    have hX : X (k.signalSend t s).1 := by
      intro hfin
      obtain ⟨hnum, hfree⟩ := signalSend_finished hc hfin
      have hx : Execs k (.send t s) _ t s := .sent rfl hnum hfree
      have hready := hx.ready hr h hf
      rw [signalSend_free hnum hfree] at hfin
      obtain ⟨hp, hfatal⟩ := fatal_of_finished hready.1 hready.2 hc hfin
      exact ⟨_, .killed hx hp hfatal⟩
    exact ⟨fun _ _ => hX, fun _ => hX⟩
  · have hafter : ∀ b, Effect k e b → X b := by
      intro b he hfin
      obtain ⟨status, he', hp⟩ := effect_finished hr hf he
        (fun t s hts => hsend ⟨t, s, hts⟩) hc hfin
      exact ⟨_, .exit he' hp⟩
    exact (effect_ends hr.1 hf).mono hafter hafter

theorem reschedule_endsAs {c fuel : ℕ} {a : Kernel} (hf : e.Fits k) (ha : Enters k e a)
    (hc : a.finished c = false) (hgo : a.reschedule fuel = some k') (hfin : k'.finished c) :
    ∃ x, EndsAs c k e x := by
  induction fuel generalizing a with
  | zero => cases hgo
  | succ fuel ih =>
    rcases hp : a.pick with _ | n
    · rw [Kernel.reschedule, hp] at hgo
      cases hgo
    have hswitched : (a.switchTo n).finished c = false := (switchTo_finished a n c).trans hc
    rcases hfetch : (a.switchTo n).signalFetch n with _ | ⟨x, b⟩
    · rw [Kernel.reschedule, hp] at hgo
      dsimp only at hgo
      rw [hfetch] at hgo
      obtain rfl := Option.some.inj hgo
      change (a.switchTo n).finished c = true at hfin
      rw [hswitched] at hfin
      cases hfin
    · have hx : Execs k e (b.hand x.id n) n x.sig := .fetched ha ⟨hp, hfetch⟩
      have hready := hx.ready hr h hf
      have hb : (b.hand x.id n).finished c = false := by
        obtain ⟨-, rfl⟩ := signalFetch_current hfetch
        exact hswitched
      rcases hafter : ((b.hand x.id n).signalExec n x.sig).1.finished c with _ | _
      · rcases reschedule_fetches hgo ⟨hp, hfetch⟩ with ⟨u, -, rfl⟩ | ⟨hres, hgo'⟩
        · change ((b.hand x.id n).signalExec n x.sig).1.finished c = true at hfin
          rw [hafter] at hfin
          cases hfin
        · exact ih (.again ha ⟨hp, hfetch⟩ hres) hafter hgo'
      · obtain ⟨hproc, hfatal⟩ := fatal_of_finished hready.1 hready.2 hb hafter
        exact ⟨_, .killed hx hproc hfatal⟩

theorem step_endsAs {c : ℕ} (hc : k.finished c = false) (hs : KStep k e k')
    (hfin : k'.finished c) : ∃ x, EndsAs c k e x := by
  obtain ⟨hret, hres⟩ := call_endsAs hr h hs.1 hc
  obtain ⟨hf, hends⟩ := hs
  rcases hflow : (kernelCall k e).2 with (_ | v) | _ | _ | _ <;> rw [hflow] at hends
  · obtain rfl := hends
    exact hret _ hflow hfin
  · obtain rfl := hends
    exact hret _ hflow hfin
  · obtain ⟨fuel, hgo⟩ := hends
    rcases hcall : (kernelCall k e).1.finished c with _ | _
    · exact reschedule_endsAs hr h hf (.call hflow) hcall hgo hfin
    · exact hres hflow hcall
  · exact hends.elim
  · exact hends.elim

theorem step_ending {c : ℕ} (hc : k.finished c = false) (hs : KStep k e k')
    (hfin : k'.finished c) :
    c < k'.next ∧ ∃ x, (k'.procs c).ending = some x ∧ ∀ y, EndsAs c k e y ↔ y = x := by
  obtain ⟨x, hx⟩ := step_endsAs hr h hc hs hfin
  obtain ⟨hlt, hending⟩ := hx.written hr h hs
  refine ⟨hlt, x, hending, fun y => ⟨fun hy => ?_, fun hy => hy ▸ hx⟩⟩
  exact Option.some.inj ((hy.written hr h hs).2.symm.trans hending)

end Enters

end DepthOS
