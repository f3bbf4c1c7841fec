import DepthOS.Proofs.Effect

/-! Which tasks `reschedule` switches to. A task that is dying is never switched to, but
`pick_next_task` skips sleeping tasks only: a task that SIGSTOP has suspended keeps its
turn. -/

namespace DepthOS

open Lib

/-- No `reschedule` has ended in a jump to a suspended task, or to another task that was
dying. -/
def NeverStopped (k : Kernel) : Prop :=
  ∀ sw ∈ k.switches, sw.state ≠ .TASK_SUSPENDED ∧ (sw.task ≠ sw.prev → sw.state ≠ .TASK_DYING)

/-- SIGSTOP goes to nobody but the idle task. -/
def SparesStop (_ : Kernel) : KEvent → Prop
  | .send t s => s.number = SIGSTOP → t = IDLE_TASK
  | _ => True

structure StopInv (k : Kernel) : Prop where
  awake : ∀ t ∈ k.tasklist, (k.tasks t).state ≠ .TASK_SUSPENDED
  idle : (k.tasks IDLE_TASK).signalMask = 0 ∧ (k.tasks IDLE_TASK).signalMaskCurrent = 0
  queued : ∀ q, ∀ x ∈ k.queues q, x.sig.number ≠ SIGSTOP
  log : NeverStopped k

theorem StopInv.frame {k k' : Kernel} (h : StopInv k)
    (hawake : ∀ t ∈ k'.tasklist, (k'.tasks t).state = .TASK_SUSPENDED →
      t ∈ k.tasklist ∧ (k.tasks t).state = .TASK_SUSPENDED)
    (hidle : (k'.tasks IDLE_TASK).signalMask = (k.tasks IDLE_TASK).signalMask ∧
      (k'.tasks IDLE_TASK).signalMaskCurrent = (k.tasks IDLE_TASK).signalMaskCurrent)
    (hqueues : ∀ q, ∀ x ∈ k'.queues q, x ∈ k.queues q) (hlog : k'.switches = k.switches) :
    StopInv k' := by
  refine ⟨?_, ?_, ?_, ?_⟩
  · intro t ht hs
    obtain ⟨ht', hs'⟩ := hawake t ht hs
    exact h.awake t ht' hs'
  · rw [hidle.1, hidle.2]
    exact h.idle
  · exact fun q x hx => h.queued q x (hqueues q x hx)
  · intro sw hsw
    rw [hlog] at hsw
    exact h.log sw hsw

theorem StopInv.setTask {k : Kernel} (h : StopInv k) {t : ℕ} {f : KTask → KTask}
    (hstate : (f (k.tasks t)).state = .TASK_SUSPENDED → (k.tasks t).state = .TASK_SUSPENDED)
    (hmask : (f (k.tasks t)).signalMask = (k.tasks t).signalMask ∧
      (t = IDLE_TASK → (f (k.tasks t)).signalMaskCurrent = (k.tasks t).signalMaskCurrent)) :
    StopInv (k.setTask t f) := by
  refine h.frame ?_ ?_ (fun _ _ hx => hx) rfl
  · intro x hx hs
    refine ⟨hx, ?_⟩
    rw [k.setTask_tasks] at hs
    split_ifs at hs with hxt
    · subst hxt
      exact hstate hs
    · exact hs
  · rw [k.setTask_tasks]
    split_ifs with hi
    · rw [hi]
      exact ⟨hmask.1, hmask.2 hi.symm⟩
    · exact ⟨rfl, rfl⟩

theorem StopInv.same {k k' : Kernel} (h : StopInv k) (htasks : k'.tasks = k.tasks)
    (hlist : ∀ t ∈ k'.tasklist, t ∈ k.tasklist) (hqueues : k'.queues = k.queues)
    (hlog : k'.switches = k.switches) : StopInv k' := by
  refine h.frame ?_ ?_ ?_ hlog
  · intro t ht hs
    rw [htasks] at hs
    exact ⟨hlist t ht, hs⟩
  · rw [htasks]
    exact ⟨rfl, rfl⟩
  · intro q x hx
    rwa [hqueues] at hx

theorem StopInv.user {k : Kernel} (h : StopInv k) (r : ℕ → Regs) (m : ℕ → Mem) :
    StopInv (k.withUser r m) :=
  h.frame (fun _ ht hs => ⟨ht, hs⟩) ⟨rfl, rfl⟩ (fun _ _ hx => hx) rfl

theorem StopInv.kill {k k' : Kernel} (h : StopInv k) {p : ℕ} {f : Process → Process}
    (hk : KilledBy k p f k') : StopInv k' := by
  refine h.frame ?_ ?_ ?_ hk.switches
  · intro t ht hs
    refine ⟨(hk.mem.1 ht).1, ?_⟩
    rw [hk.task] at hs
    split_ifs at hs
    exact hs
  · rw [hk.task]
    split_ifs <;> exact ⟨rfl, rfl⟩
  · intro q x hx
    rw [hk.queues] at hx
    exact hx

theorem StopInv.join {k k' : Kernel} (h : StopInv k) (hr : RingOk k) {task : KTask}
    (htasks : k'.tasks = Function.update k.tasks k.next task)
    (hstate : k.next ∈ k'.tasklist → task.state = .TASK_STARTING)
    (hlist : ∀ t ∈ k'.tasklist, t ∈ k.tasklist ∨ t = k.next)
    (hqueues : k'.queues = Function.update k.queues (k.next + 1) [])
    (hlog : k'.switches = k.switches) : StopInv k' := by
  refine h.frame ?_ ?_ ?_ hlog
  · intro t ht hs
    rw [htasks] at hs
    rcases hlist t ht with hold | rfl
    · rw [Function.update_of_ne (Nat.ne_of_lt (hr.below t hold))] at hs
      exact ⟨hold, hs⟩
    · rw [Function.update_self, hstate ht] at hs
      cases hs
  · rw [htasks, Function.update_of_ne (Nat.ne_of_lt (hr.below _ hr.idle))]
    exact ⟨rfl, rfl⟩
  · intro q x hx
    rw [hqueues] at hx
    exact Kernel.mem_newQueue hx

theorem StopInv.exec {k k' : Kernel} (h : StopInv k) (hr : RingOk k) {t : ℕ} {s : Sig}
    (hs : s.number = SIGSTOP → t = IDLE_TASK) (he : ExecEffect k t s k') : StopInv k' := by
  cases he with
  | ignored => exact h
  | killed _ _ hk => exact h.kill hk
  | stopped hu hstop => exact absurd (hs hstop) (hr.user_ne_idle hu)
  | caught r m hu _ =>
    exact (h.setTask (fun hst => hst) ⟨rfl, fun hi => absurd hi (hr.user_ne_idle hu)⟩).user r m

theorem StopInv.idle_open {k : Kernel} (h : StopInv k) (number : ℤ) :
    ¬ k.blocked IDLE_TASK number := by
  unfold Kernel.blocked
  simp [h.idle.1, h.idle.2]

theorem StopInv.call {k k' : Kernel} (h : StopInv k) (hr : RingOk k) {e : KEvent}
    (hf : e.Fits k) (hC : SparesStop k e) (he : Effect k e k') : StopInv k' := by
  cases he with
  | tick => exact h.same rfl (fun _ ht => ht) rfl rfl
  | yield => exact h
  | user r m => exact h.user r m
  | spawn => exact h.join hr rfl (fun _ => rfl) (fun _ ht => Kernel.born_mem ht) rfl rfl
  | fork hp => exact h.join hr rfl (fun _ => rfl) (fun _ ht => Kernel.born_mem ht) rfl rfl
  | thcreateNone => exact h
  | thcreate hp hstart _ _ _ =>
    refine h.join hr rfl (fun hin => ?_)
      (fun _ ht => (Kernel.hatched_mem ht).imp_right And.left) rfl rfl
    rcases Kernel.hatched_mem hin with hin | ⟨-, hjoin⟩
    · exact absurd (hr.below _ hin) (Nat.lt_irrefl _)
    · exact hstart hjoin
  | thkillLast _ _ hk => exact h.kill hk
  | thkillNone => exact h
  | @thkillSelf _ _ p _ _ _ =>
    have hd : StopInv (k.dropThread p k.current) := h.same rfl (fun _ ht => ht) rfl rfl
    exact hd.setTask nofun ⟨rfl, fun _ => rfl⟩
  | thkillOther => exact h.same rfl (fun _ ht => List.mem_of_mem_erase ht) rfl rfl
  | exit _ hk => exact h.kill hk
  | waitpidNone => exact h
  | waitpid => exact h.same rfl (fun _ ht => ht) rfl rfl
  | sleep => exact h.setTask nofun ⟨rfl, fun _ => rfl⟩
  | sigactionOld => exact h.same rfl (fun _ ht => ht) rfl rfl
  | sigaction m =>
    have hm : StopInv { k with mem := m } := h.same rfl (fun _ ht => ht) rfl rfl
    exact hm.setTask (fun hst => hst) ⟨rfl, fun _ => rfl⟩
  | sigrestore r m => exact (h.setTask (fun hst => hst) ⟨rfl, fun hi => absurd hi hf⟩).user r m
  | sendNone => exact h
  | @sendQueued t s _ hb =>
    have hs : s.number ≠ SIGSTOP := by
      intro hstop
      rw [hC hstop] at hb
      exact h.idle_open _ hb
    refine ⟨h.awake, h.idle, fun q x hx => ?_, h.log⟩
    rcases Kernel.enqueue_mem hx with hx | rfl
    · exact h.queued q x hx
    · exact hs
  | @sendExec t s _ _ he =>
    have ha : StopInv ((k.accept t).hand k.sent.length t) := h.same rfl (fun _ ht => ht) rfl rfl
    exact ha.exec ((hr.accept t).hand _ t) hC he

theorem StopInv.switchTo {k : Kernel} (h : StopInv k) (n : ℕ) : StopInv (k.switchTo n) := by
  have hw : StopInv (k.wake n) := by
    unfold Kernel.wake
    split_ifs
    · exact h.setTask nofun ⟨rfl, fun _ => rfl⟩
    · exact h
  unfold Kernel.switchTo
  dsimp only
  split_ifs
  · exact hw.same rfl (fun _ ht => List.mem_of_mem_erase ht) rfl rfl
  · exact hw.same rfl (fun _ ht => ht) rfl rfl

theorem stopInv_stable : Stable SparesStop TaskRing RingOk StopInv where
  boot k hk := by
    obtain ⟨idle, mem, pitTicks, rfl⟩ := hk
    exact ⟨nofun, ⟨rfl, rfl⟩, fun _ => nofun, nofun⟩
  user k r m h := h.user r m
  call k e k' hr h hf hC he := h.call hr hf hC he
  switch k n _ h _ := h.switchTo n
  pending k x k1 k' hr h hfetch he := by
    obtain ⟨hfind, rfl⟩ := signalFetch_current hfetch
    have hx := List.mem_of_find?_eq_some hfind
    have hq : StopInv (k.dequeue k.current) :=
      h.frame (fun _ ht hs => ⟨ht, hs⟩) ⟨rfl, rfl⟩ (fun _ _ hy => dequeue_mem hy) rfl
    have hh : StopInv ((k.dequeue k.current).hand x.id k.current) :=
      hq.same rfl (fun _ ht => ht) rfl rfl
    exact hh.exec ((hr.withQueues _).hand _ _) (fun hs => absurd hs (h.queued _ x hx)) he
  jump k prev hr h := by
    refine ⟨h.awake, h.idle, h.queued, fun sw hsw => ?_⟩
    rcases List.mem_cons.1 hsw with rfl | hsw
    · exact ⟨h.awake _ hr.current, fun _ => hr.alive⟩
    · exact h.log sw hsw

/-- In a run in which SIGSTOP goes to nobody but the idle task, no stopped or dying task is
switched to. -/
theorem stopped_never_runs {evs : List KEvent} {k : Kernel} (h : KRunOf SparesStop evs k) :
    NeverStopped k :=
  (stopInv_stable.run h).2.log

/-- The idle task takes SIGSTOP and the new process still gets its turn. -/
theorem stopped_never_runs_idle :
    ∃ k, KRunOf SparesStop [zeroSpawn none, .send IDLE_TASK (zeroSig SIGSTOP), .tick] k ∧
      k.switches.map Switch.task = [4] ∧ NeverStopped k := by
  have hc : ∀ (k : Kernel) (e : KEvent),
      (match e with | .send t _ => decide (t = IDLE_TASK) | _ => true) = true → SparesStop k e := by
    intro k e h
    cases e with
    | send t s => exact fun _ => of_decide_eq_true h
    | _ => trivial
  obtain ⟨k, hrun, htasks⟩ := zero_runOf hc 1
    [zeroSpawn none, .send IDLE_TASK (zeroSig SIGSTOP), .tick] (fun k => k.switches.map Switch.task)
    (v := [4]) (by decide +kernel)
  exact ⟨k, hrun, htasks, stopped_never_runs hrun⟩

/-- A process is spawned, its main thread is stopped, and the next tick runs it. -/
theorem stopped_task_runs : ¬ ∀ evs k, KRun evs k → NeverStopped k := by
  intro h
  obtain ⟨k, hrun, hstates⟩ := zero_run 1 [zeroSpawn none, .send 4 (zeroSig SIGSTOP), .tick]
    (fun k => k.switches.map Switch.state) (v := [.TASK_SUSPENDED]) (by decide +kernel)
  obtain ⟨sw, hsw, hstate⟩ := List.mem_map.1 (hstates ▸ List.mem_cons_self)
  exact (h _ k hrun sw hsw).1 hstate

end DepthOS
