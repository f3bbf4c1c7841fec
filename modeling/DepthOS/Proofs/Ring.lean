import DepthOS.Sanity.Kernel

/-! The invariant under all others: the task list is a ring without repetitions that
holds the idle task and the current one, every other member is a thread of its
process, and only the current task can be dying. -/

namespace DepthOS

open Lib

/-- The state in which `reschedule` is entered. -/
structure TaskRing (k : Kernel) : Prop where
  nodup : k.tasklist.Nodup
  below : ∀ t ∈ k.tasklist, t < k.next
  current : k.current ∈ k.tasklist
  idle : IDLE_TASK ∈ k.tasklist
  idle_pgd : (k.tasks IDLE_TASK).pgd = KERNEL_PGD
  idle_process : (k.tasks IDLE_TASK).process = none
  idle_state : (k.tasks IDLE_TASK).state ≠ .TASK_SLEEPING ∧
    (k.tasks IDLE_TASK).state ≠ .TASK_DYING
  dying : ∀ t ∈ k.tasklist, (k.tasks t).state = .TASK_DYING → t = k.current
  member : ∀ t ∈ k.tasklist, t ≠ IDLE_TASK → ∃ p, (k.tasks t).process = some p ∧ p < k.next ∧
    (t ∈ (k.procs p).threads ∨ (k.tasks t).state = .TASK_DYING)
  threads : ∀ p, ∀ t ∈ (k.procs p).threads, (k.tasks t).process = some p ∧ t < k.next
  thids : ∀ p, (k.procs p).threads.Pairwise fun a b => (k.tasks a).thid < (k.tasks b).thid

/-- The state in which a task runs. -/
structure RingOk (k : Kernel) : Prop extends TaskRing k where
  alive : k.currentTask.state ≠ .TASK_DYING

/-- Nothing that the ring invariant reads has changed. -/
structure SameRing (k k' : Kernel) : Prop where
  tasklist : k'.tasklist = k.tasklist
  current : k'.current = k.current
  next : k'.next = k.next
  pgd : ∀ t, (k'.tasks t).pgd = (k.tasks t).pgd
  process : ∀ t, (k'.tasks t).process = (k.tasks t).process
  state : ∀ t, (k'.tasks t).state = (k.tasks t).state
  thid : ∀ t, (k'.tasks t).thid = (k.tasks t).thid
  threads : ∀ p, (k'.procs p).threads = (k.procs p).threads

theorem SameRing.trans {k k' k'' : Kernel} (h : SameRing k k') (h' : SameRing k' k'') :
    SameRing k k'' :=
  ⟨h'.tasklist.trans h.tasklist, h'.current.trans h.current, h'.next.trans h.next,
    fun t => (h'.pgd t).trans (h.pgd t), fun t => (h'.process t).trans (h.process t),
    fun t => (h'.state t).trans (h.state t), fun t => (h'.thid t).trans (h.thid t),
    fun p => (h'.threads p).trans (h.threads p)⟩

theorem TaskRing.same {k k' : Kernel} (h : TaskRing k) (hs : SameRing k k') : TaskRing k' := by
  obtain ⟨htl, hcur, hnext, hpgd, hproc, hstate, hthid, hthr⟩ := hs
  refine ⟨?_, ?_, ?_, ?_, ?_, ?_, ?_, ?_, ?_, ?_, ?_⟩
  · rw [htl]
    exact h.nodup
  · rw [htl, hnext]
    exact h.below
  · rw [htl, hcur]
    exact h.current
  · rw [htl]
    exact h.idle
  · rw [hpgd]
    exact h.idle_pgd
  · rw [hproc]
    exact h.idle_process
  · rw [hstate]
    exact h.idle_state
  · intro t ht hd
    rw [hcur]
    exact h.dying t (htl ▸ ht) (hstate t ▸ hd)
  · intro t ht hne
    rw [hproc, hstate, hnext]
    simp only [hthr]
    exact h.member t (htl ▸ ht) hne
  · intro p t ht
    rw [hproc, hnext]
    exact h.threads p t (hthr p ▸ ht)
  · intro p
    rw [hthr]
    simp only [hthid]
    exact h.thids p

theorem RingOk.same {k k' : Kernel} (h : RingOk k) (hs : SameRing k k') : RingOk k' := by
  refine ⟨h.toTaskRing.same hs, ?_⟩
  rw [Kernel.currentTask, hs.current, hs.state]
  exact h.alive

theorem sameRing_setTask (k : Kernel) (t : ℕ) (f : KTask → KTask)
    (hf : ∀ task, (f task).pgd = task.pgd ∧ (f task).process = task.process ∧
      (f task).state = task.state ∧ (f task).thid = task.thid) : SameRing k (k.setTask t f) := by
  have hall : ∀ x, ((k.setTask t f).tasks x).pgd = (k.tasks x).pgd ∧
      ((k.setTask t f).tasks x).process = (k.tasks x).process ∧
      ((k.setTask t f).tasks x).state = (k.tasks x).state ∧
      ((k.setTask t f).tasks x).thid = (k.tasks x).thid := by
    intro x
    unfold Kernel.setTask
    by_cases hx : x = t
    · subst hx
      simpa using hf (k.tasks x)
    · simp [hx]
  exact ⟨rfl, rfl, rfl, fun x => (hall x).1, fun x => (hall x).2.1, fun x => (hall x).2.2.1,
    fun x => (hall x).2.2.2, fun _ => rfl⟩

theorem sameRing_user (k : Kernel) (r : ℕ → Regs) (m : ℕ → Mem) : SameRing k (k.withUser r m) :=
  ⟨rfl, rfl, rfl, fun _ => rfl, fun _ => rfl, fun _ => rfl, fun _ => rfl, fun _ => rfl⟩

theorem sameRing_mask (k : Kernel) (t : ℕ) (mask : SigMask) :
    SameRing k (k.setMaskCurrent t mask) :=
  sameRing_setTask k t _ fun _ => ⟨rfl, rfl, rfl, rfl⟩

theorem sameRing_setProc (k : Kernel) (p : ℕ) (f : Process → Process)
    (hf : ∀ proc, (f proc).threads = proc.threads) : SameRing k (k.setProc p f) := by
  refine ⟨rfl, rfl, rfl, fun _ => rfl, fun _ => rfl, fun _ => rfl, fun _ => rfl, fun x => ?_⟩
  unfold Kernel.setProc
  by_cases hx : x = p
  · subst hx
    simpa using hf (k.procs x)
  · simp [hx]

theorem TaskRing.current_ne_idle {k : Kernel} (h : TaskRing k)
    (hd : k.currentTask.state = .TASK_DYING) : k.current ≠ IDLE_TASK := by
  intro hidle
  rw [Kernel.currentTask, hidle] at hd
  exact h.idle_state.2 hd

theorem TaskRing.thread_ne_idle {k : Kernel} (h : TaskRing k) {p t : ℕ}
    (ht : t ∈ (k.procs p).threads) : t ≠ IDLE_TASK := by
  rintro rfl
  have := (h.threads p _ ht).1
  rw [h.idle_process] at this
  cases this

theorem TaskRing.thread_unique {k : Kernel} (h : TaskRing k) {p a b : ℕ}
    (ha : a ∈ (k.procs p).threads) (hb : b ∈ (k.procs p).threads)
    (hid : (k.tasks a).thid = (k.tasks b).thid) : a = b := by
  have hpw := List.pairwise_iff_get.1 (h.thids p)
  obtain ⟨i, rfl⟩ := List.get_of_mem ha
  obtain ⟨j, rfl⟩ := List.get_of_mem hb
  rcases lt_trichotomy i j with hij | rfl | hij
  · have := hpw i j hij
    omega
  · rfl
  · have := hpw j i hij
    omega

/-! State changes of one task. -/

theorem TaskRing.setState {k : Kernel} (h : TaskRing k) {t : ℕ} {task : KTask}
    (htask : task.pgd = (k.tasks t).pgd ∧ task.process = (k.tasks t).process ∧
      task.thid = (k.tasks t).thid)
    (hold : (k.tasks t).state ≠ .TASK_DYING) (hnew : task.state ≠ .TASK_DYING)
    (hidle : t = IDLE_TASK → task.state ≠ .TASK_SLEEPING) :
    TaskRing { k with tasks := Function.update k.tasks t task } := by
  obtain ⟨hpgd, hproc, hthid⟩ := htask
  have hother : ∀ x, (Function.update k.tasks t task x).pgd = (k.tasks x).pgd ∧
      (Function.update k.tasks t task x).process = (k.tasks x).process ∧
      (Function.update k.tasks t task x).thid = (k.tasks x).thid := by
    intro x
    by_cases hx : x = t
    · subst hx
      rw [Function.update_self]
      exact ⟨hpgd, hproc, hthid⟩
    · rw [Function.update_of_ne hx]
      exact ⟨rfl, rfl, rfl⟩
  have hdying : ∀ x, (Function.update k.tasks t task x).state = .TASK_DYING →
      (k.tasks x).state = .TASK_DYING := by
    intro x hx
    by_cases hxt : x = t
    · subst hxt
      rw [Function.update_self] at hx
      exact absurd hx hnew
    · rwa [Function.update_of_ne hxt] at hx
  have hkeep : ∀ x, (k.tasks x).state = .TASK_DYING →
      (Function.update k.tasks t task x).state = .TASK_DYING := by
    intro x hx
    have hxt : x ≠ t := fun hxt => hold (hxt ▸ hx)
    rwa [Function.update_of_ne hxt]
  refine ⟨h.nodup, h.below, h.current, h.idle, ?_, ?_, ⟨?_, ?_⟩, ?_, ?_, ?_, ?_⟩
  · exact (hother _).1.trans h.idle_pgd
  · exact (hother _).2.1.trans h.idle_process
  · dsimp only
    by_cases ht : IDLE_TASK = t
    · rw [ht, Function.update_self]
      exact hidle ht.symm
    · rw [Function.update_of_ne ht]
      exact h.idle_state.1
  · exact fun hd => h.idle_state.2 (hdying _ hd)
  · exact fun x hx hd => h.dying x hx (hdying x hd)
  · intro x hx hne
    obtain ⟨p, hp, hlt, hmem⟩ := h.member x hx hne
    exact ⟨p, (hother x).2.1.trans hp, hlt, hmem.imp_right (hkeep x)⟩
  · intro p x hx
    exact ⟨(hother x).2.1.trans (h.threads p x hx).1, (h.threads p x hx).2⟩
  · intro p
    refine (h.thids p).imp fun {a b} hab => ?_
    dsimp only
    rw [(hother a).2.2, (hother b).2.2]
    exact hab

theorem TaskRing.die {k : Kernel} (h : TaskRing k) (hne : k.current ≠ IDLE_TASK) :
    TaskRing (k.setState k.current .TASK_DYING) := by
  have hother : ∀ x, x ≠ k.current →
      (k.setState k.current .TASK_DYING).tasks x = k.tasks x := fun x hx =>
    Function.update_of_ne hx _ _
  have hself : (k.setState k.current .TASK_DYING).tasks k.current =
      { k.tasks k.current with state := .TASK_DYING } := Function.update_self _ _ _
  have hproc : ∀ x, ((k.setState k.current .TASK_DYING).tasks x).process = (k.tasks x).process := by
    intro x
    by_cases hx : x = k.current
    · rw [hx, hself]
    · rw [hother x hx]
  have hthid : ∀ x, ((k.setState k.current .TASK_DYING).tasks x).thid = (k.tasks x).thid := by
    intro x
    by_cases hx : x = k.current
    · rw [hx, hself]
    · rw [hother x hx]
  have hidle := hother IDLE_TASK hne.symm
  refine ⟨h.nodup, h.below, h.current, h.idle, ?_, ?_, ?_, ?_, ?_, ?_, ?_⟩
  · rw [hidle]
    exact h.idle_pgd
  · rw [hidle]
    exact h.idle_process
  · rw [hidle]
    exact h.idle_state
  · intro t ht hd
    by_cases hc : t = k.current
    · exact hc
    · rw [hother t hc] at hd
      exact h.dying t ht hd
  · intro t ht hti
    obtain ⟨p, hp, hlt, hmem⟩ := h.member t ht hti
    refine ⟨p, (hproc t).trans hp, hlt, ?_⟩
    by_cases hc : t = k.current
    · exact Or.inr (by rw [hc, hself])
    · rw [hother t hc]
      exact hmem
  · intro p t ht
    rw [hproc]
    exact h.threads p t ht
  · intro p
    refine (h.thids p).imp fun {a b} hab => ?_
    rw [hthid a, hthid b]
    exact hab

/-! Tasks that leave. -/

theorem TaskRing.shrink {k : Kernel} (h : TaskRing k) {l : List ℕ} {c : ℕ} (freed : List ℕ)
    (hsub : l.Sublist k.tasklist) (hc : c ∈ l) (hidle : IDLE_TASK ∈ l)
    (hd : ∀ t ∈ l, (k.tasks t).state = .TASK_DYING → t = c) :
    TaskRing { k with tasklist := l, current := c, freed := freed } :=
  ⟨h.nodup.sublist hsub, fun t ht => h.below t (hsub.subset ht), hc, hidle, h.idle_pgd,
    h.idle_process, h.idle_state, hd, fun t ht => h.member t (hsub.subset ht), h.threads, h.thids⟩

theorem TaskRing.destroy {k : Kernel} (h : TaskRing k) {t : ℕ} (hc : t ≠ k.current)
    (hi : t ≠ IDLE_TASK) : TaskRing (k.threadDestroy t) :=
  h.shrink _ List.erase_sublist ((List.mem_erase_of_ne hc.symm).2 h.current)
    ((List.mem_erase_of_ne hi.symm).2 h.idle)
    (fun x hx hd => h.dying x (List.mem_of_mem_erase hx) hd)

theorem TaskRing.dropThread {k : Kernel} (h : TaskRing k) {p t : ℕ}
    (ht : t ∈ k.tasklist → (k.tasks t).state = .TASK_DYING) : TaskRing (k.dropThread p t) := by
  have hthr : ∀ q, ((k.dropThread p t).procs q).threads =
      if q = p then (k.procs q).threads.erase t else (k.procs q).threads := by
    intro q
    unfold Kernel.dropThread Kernel.setProc
    by_cases hq : q = p
    · subst hq
      simp
    · simp [hq]
  have hsub : ∀ q, ((k.dropThread p t).procs q).threads.Sublist (k.procs q).threads := by
    intro q
    rw [hthr]
    split_ifs
    · exact List.erase_sublist
    · exact List.Sublist.refl _
  refine ⟨h.nodup, h.below, h.current, h.idle, h.idle_pgd, h.idle_process, h.idle_state, h.dying,
    ?_, fun q x hx => h.threads q x ((hsub q).subset hx), fun q => (h.thids q).sublist (hsub q)⟩
  intro x hx hne
  obtain ⟨q, hq, hlt, hmem⟩ := h.member x hx hne
  refine ⟨q, hq, hlt, ?_⟩
  by_cases hxt : x = t
  · subst hxt
    exact Or.inr (ht hx)
  · refine hmem.imp_left fun hm => ?_
    rw [hthr]
    split_ifs
    · exact (List.mem_erase_of_ne hxt).2 hm
    · exact hm

theorem TaskRing.kill {k k' : Kernel} {p : ℕ} (h : TaskRing k)
    (hk : Kernel.KilledFrom (k.logKill p) k' (k.procs p).threads) : TaskRing k' := by
  -- the death first, then the departures
  let k1 := if k.current ∈ (k.procs p).threads then k.setState k.current .TASK_DYING else k
  have h1 : TaskRing k1 := by
    simp only [k1]
    split_ifs with hc
    · exact h.die (h.thread_ne_idle hc)
    · exact h
  have htasks1 : ∀ t, k'.tasks t = k1.tasks t := by
    intro t
    rw [hk.tasks t]
    simp only [k1]
    by_cases ht : t = k.current
    · subst ht
      by_cases hc : k.current ∈ (k.procs p).threads
      · simp [Kernel.logKill, hc, Kernel.setState, Kernel.setTask]
      · simp [Kernel.logKill, hc]
    · split_ifs <;> simp_all [Kernel.logKill, Kernel.setState, Kernel.setTask]
  have hlist : k1.tasklist = k.tasklist ∧ k1.current = k.current ∧ k1.next = k.next ∧
      k1.procs = k.procs := by
    simp only [k1]
    split_ifs <;> exact ⟨rfl, rfl, rfl, rfl⟩
  obtain ⟨htl, hcur, hnext, hprocs⟩ := hlist
  have h2 : TaskRing { k1 with
      tasklist := k'.tasklist, current := k.current, freed := k'.freed } := by
    refine h1.shrink _ ?_ ?_ ?_ ?_
    · rw [hk.tasklist, htl]
      exact List.filter_sublist
    · rw [hk.tasklist]
      exact List.mem_filter.2 ⟨h.current, by simp [Kernel.logKill]⟩
    · rw [hk.tasklist]
      exact List.mem_filter.2 ⟨h.idle, by
        simp only [decide_eq_true_eq]
        exact Or.inr fun hm => h.thread_ne_idle hm rfl⟩
    · intro t ht hd
      rw [hk.tasklist] at ht
      rw [← hcur]
      exact h1.dying t (htl ▸ (List.mem_filter.1 ht).1) hd
  refine h2.same ⟨rfl, hk.current, ?_, fun t => ?_, fun t => ?_, fun t => ?_, fun t => ?_,
    fun q => ?_⟩
  · exact hk.next.trans hnext.symm
  · rw [htasks1]
  · rw [htasks1]
  · rw [htasks1]
  · rw [htasks1]
  · rw [hk.procs]
    exact congrArg (fun f => (f q).threads) hprocs.symm

theorem RingOk.kill {k k' : Kernel} {p : ℕ} (h : RingOk k)
    (hk : Kernel.KilledFrom (k.logKill p) k' (k.procs p).threads)
    (hcur : k.currentTask.process ≠ some p) : RingOk k' := by
  refine ⟨h.toTaskRing.kill hk, ?_⟩
  rw [Kernel.currentTask, hk.current, hk.tasks, if_neg]
  · exact h.alive
  · exact fun hm => hcur (h.threads p _ hm.2).1

/-! `reschedule` -/

theorem wake_dying (k : Kernel) (n t : ℕ) :
    ((k.wake n).tasks t).state = .TASK_DYING ↔ (k.tasks t).state = .TASK_DYING := by
  unfold Kernel.wake
  split_ifs with hs
  · unfold Kernel.setState Kernel.setTask
    by_cases ht : t = n
    · subst ht
      simp [hs]
    · simp [ht]
  · rfl

theorem TaskRing.wake {k : Kernel} (h : TaskRing k) (n : ℕ) : TaskRing (k.wake n) := by
  unfold Kernel.wake
  split_ifs with hs
  · exact h.setState ⟨rfl, rfl, rfl⟩ (by simp [hs]) (by simp) (by simp)
  · exact h

theorem wake_lists (k : Kernel) (n : ℕ) :
    (k.wake n).tasklist = k.tasklist ∧ (k.wake n).current = k.current := by
  unfold Kernel.wake
  split_ifs <;> exact ⟨rfl, rfl⟩

theorem pick_mem {k : Kernel} {n : ℕ} (hp : k.pick = some n) : n ∈ k.tasklist :=
  mem_cyclicAfter.1 (List.mem_of_find?_eq_some hp)

/-- The idle task is due, so a task that is dying does not come round to itself. -/
theorem TaskRing.pick_ne {k : Kernel} (h : TaskRing k) {n : ℕ} (hp : k.pick = some n)
    (hd : k.currentTask.state = .TASK_DYING) : n ≠ k.current :=
  find_cyclicAfter_ne h.nodup h.current h.idle (h.current_ne_idle hd).symm
    (by simp [h.idle_state.1]) hp

theorem TaskRing.switchTo {k : Kernel} (h : TaskRing k) {n : ℕ} (hp : k.pick = some n) :
    RingOk (k.switchTo n) := by
  have hw := h.wake n
  obtain ⟨htl, hcur⟩ := wake_lists k n
  have hn : n ∈ (k.wake n).tasklist := htl ▸ pick_mem hp
  have hdy : (k.wake n).currentTask.state = .TASK_DYING ↔ k.currentTask.state = .TASK_DYING := by
    rw [Kernel.currentTask, hcur]
    exact wake_dying k n k.current
  unfold Kernel.switchTo
  dsimp only
  split_ifs with hd
  · have hne : n ≠ (k.wake n).current := hcur ▸ h.pick_ne hp (hdy.1 hd)
    have hmem := (List.mem_erase_of_ne hne).2 hn
    have hnone : ∀ t ∈ (k.wake n).tasklist.erase (k.wake n).current,
        ((k.wake n).tasks t).state ≠ .TASK_DYING := by
      intro t ht hdt
      obtain rfl := hw.dying t (List.mem_of_mem_erase ht) hdt
      exact hw.nodup.not_mem_erase ht
    exact ⟨hw.shrink _ List.erase_sublist hmem
      ((List.mem_erase_of_ne (hw.current_ne_idle hd).symm).2 hw.idle)
      (fun t ht hdt => absurd hdt (hnone t ht)), hnone n hmem⟩
  · have hnone : ∀ t ∈ (k.wake n).tasklist, ((k.wake n).tasks t).state ≠ .TASK_DYING := by
      intro t ht hdt
      obtain rfl := hw.dying t ht hdt
      exact hd hdt
    exact ⟨hw.shrink (k.wake n).freed (List.Sublist.refl _) hn hw.idle
      (fun t ht hdt => absurd hdt (hnone t ht)), hnone n hn⟩

/-! Signals. -/

theorem RingOk.not_dying {k : Kernel} (h : RingOk k) {t : ℕ} (ht : t ∈ k.tasklist) :
    (k.tasks t).state ≠ .TASK_DYING := by
  intro hd
  obtain rfl := h.dying t ht hd
  exact h.alive hd

theorem RingOk.member_thread {k : Kernel} (h : RingOk k) {t : ℕ} (ht : t ∈ k.tasklist)
    (hne : t ≠ IDLE_TASK) : ∃ p, (k.tasks t).process = some p ∧ t ∈ (k.procs p).threads := by
  obtain ⟨p, hp, -, hmem⟩ := h.member t ht hne
  exact ⟨p, hp, hmem.resolve_right (h.not_dying ht)⟩

theorem RingOk.user_ne_idle {k : Kernel} (h : RingOk k) {t : ℕ}
    (hu : (k.tasks t).pgd ≠ KERNEL_PGD) : t ≠ IDLE_TASK := by
  rintro rfl
  exact hu h.idle_pgd

theorem RingOk.setProc {k : Kernel} (h : RingOk k) (p : ℕ) (f : Process → Process)
    (hf : ∀ proc, (f proc).threads = proc.threads) : RingOk (k.setProc p f) :=
  h.same (sameRing_setProc k p f hf)

/-- `process_kill`, by the way it ends. -/
theorem RingOk.processKill {k : Kernel} (h : RingOk k) (p : ℕ) :
    Ends (k.processKill p) RingOk TaskRing := by
  obtain ⟨hk, -, hret⟩ := k.processKill_spec p h.nodup
  exact ⟨fun u hu => h.kill hk (hret u hu), fun _ => h.toTaskRing.kill hk⟩

theorem RingOk.killWithSignal {k : Kernel} (h : RingOk k) {t : ℕ} (ht : t ∈ k.tasklist)
    (hu : (k.tasks t).pgd ≠ KERNEL_PGD) (number : ℤ) :
    Ends (k.killWithSignal t number) RingOk TaskRing := by
  obtain ⟨p, hp, -⟩ := h.member_thread ht (h.user_ne_idle hu)
  unfold Kernel.killWithSignal
  rw [hp]
  exact (h.setProc p (fun proc => { proc with state := .PROCESS_DEAD, signal := number })
    fun _ => rfl).processKill p

theorem RingOk.signalExec {k : Kernel} (h : RingOk k) {t : ℕ} (ht : t ∈ k.tasklist) (s : Sig) :
    Ends (k.signalExec t s) RingOk TaskRing := by
  rcases k.signalExec_cases t s with he | ⟨hu, he | ⟨-, he⟩ | ⟨-, -, r, m, he⟩⟩ <;> rw [he]
  · exact ends_ret _ h
  · exact h.killWithSignal ht hu s.number
  · refine ends_ret _ ⟨?_, ?_⟩
    · exact h.toTaskRing.setState ⟨rfl, rfl, rfl⟩ (h.not_dying ht) (by simp) (by simp)
    · unfold Kernel.currentTask Kernel.setState Kernel.setTask
      by_cases hc : k.current = t
      · simp [hc]
      · dsimp only
        rw [Function.update_of_ne hc]
        exact h.alive
  · exact ends_ret _ (h.same ((sameRing_mask k t _).trans (sameRing_user _ r m)))

/-! New tasks. -/

/-- The new task `t` is a thread of `p`, the only one or the last, and may stand at the end
of the list. -/
structure Joined (k k' : Kernel) (t p : ℕ) : Prop where
  new : t = k.next
  next : k.next < k'.next
  current : k'.current = k.current
  tasklist : k'.tasklist = k.tasklist ∨ k'.tasklist = k.tasklist ++ [t]
  tasks : ∀ x, x ≠ t → k'.tasks x = k.tasks x
  process : (k'.tasks t).process = some p ∧ p < k'.next
  start : t ∈ k'.tasklist → (k'.tasks t).state = .TASK_STARTING
  threads : (k'.procs p).threads = [t] ∨ ((k'.procs p).threads = (k.procs p).threads ++ [t] ∧
    ∀ x ∈ (k.procs p).threads, (k.tasks x).thid < (k'.tasks t).thid)
  procs : ∀ q, q ≠ p → (k'.procs q).threads = (k.procs q).threads
  keep : ∀ x ∈ k.tasklist, (k.tasks x).process = some p → x ∈ (k.procs p).threads →
    x ∈ (k'.procs p).threads

section Joined

variable {k k' : Kernel} {t p : ℕ}

theorem Joined.mem (hj : Joined k k' t p) {x : ℕ} (hx : x ∈ k'.tasklist) :
    x ∈ k.tasklist ∨ x = t := by
  rcases hj.tasklist with hl | hl <;> rw [hl] at hx
  · exact Or.inl hx
  · exact (List.mem_append.1 hx).imp_right List.mem_singleton.1

theorem Joined.mem_old (hj : Joined k k' t p) {x : ℕ} (hx : x ∈ k.tasklist) :
    x ∈ k'.tasklist := by
  rcases hj.tasklist with hl | hl <;> rw [hl]
  · exact hx
  · exact List.mem_append_left _ hx

theorem Joined.ne_of_mem (hj : Joined k k' t p) (h : TaskRing k) {x : ℕ} (hx : x ∈ k.tasklist) :
    x ≠ t := by
  have := h.below x hx
  have := hj.new
  omega

theorem Joined.ne_of_thread (hj : Joined k k' t p) (h : TaskRing k) {q x : ℕ}
    (hx : x ∈ (k.procs q).threads) : x ≠ t := by
  have := (h.threads q x hx).2
  have := hj.new
  omega

theorem Joined.mem_threads (hj : Joined k k' t p) {q x : ℕ} (hx : x ∈ (k'.procs q).threads) :
    x ∈ (k.procs q).threads ∨ (x = t ∧ q = p) := by
  by_cases hq : q = p
  · subst hq
    rcases hj.threads with hl | ⟨hl, -⟩ <;> rw [hl] at hx
    · exact Or.inr ⟨List.mem_singleton.1 hx, rfl⟩
    · exact (List.mem_append.1 hx).imp_right fun hx => ⟨List.mem_singleton.1 hx, rfl⟩
  · rw [hj.procs q hq] at hx
    exact Or.inl hx

theorem Joined.nodup (hj : Joined k k' t p) (h : TaskRing k) : k'.tasklist.Nodup := by
  rcases hj.tasklist with hl | hl <;> rw [hl]
  · exact h.nodup
  · exact List.nodup_append.2 ⟨h.nodup, List.nodup_singleton _, fun x hx y hy =>
      List.mem_singleton.1 hy ▸ hj.ne_of_mem h hx⟩

theorem Joined.thids (hj : Joined k k' t p) (h : TaskRing k) (q : ℕ) :
    (k'.procs q).threads.Pairwise fun a b => (k'.tasks a).thid < (k'.tasks b).thid := by
  have hold : (k.procs q).threads.Pairwise fun a b => (k'.tasks a).thid < (k'.tasks b).thid := by
    refine List.Pairwise.imp_of_mem (fun {a b} ha hb hab => ?_) (h.thids q)
    rw [hj.tasks a (hj.ne_of_thread h ha), hj.tasks b (hj.ne_of_thread h hb)]
    exact hab
  by_cases hq : q = p
  · subst hq
    rcases hj.threads with hl | ⟨hl, hlast⟩ <;> rw [hl]
    · exact List.pairwise_singleton _ _
    · refine List.pairwise_append.2 ⟨hold, List.pairwise_singleton _ _, fun a ha b hb => ?_⟩
      obtain rfl := List.mem_singleton.1 hb
      rw [hj.tasks a (hj.ne_of_thread h ha)]
      exact hlast a ha
  · rw [hj.procs q hq]
    exact hold

theorem Joined.member (hj : Joined k k' t p) (h : TaskRing k) {x : ℕ} (hx : x ∈ k'.tasklist)
    (hxi : x ≠ IDLE_TASK) : ∃ q, (k'.tasks x).process = some q ∧ q < k'.next ∧
      (x ∈ (k'.procs q).threads ∨ (k'.tasks x).state = .TASK_DYING) := by
  by_cases hxt : x = t
  · subst hxt
    refine ⟨p, hj.process.1, hj.process.2, Or.inl ?_⟩
    rcases hj.threads with hl | ⟨hl, -⟩ <;> rw [hl] <;> simp
  · have hxk := (hj.mem hx).resolve_right hxt
    obtain ⟨q, hq, hlt, hm⟩ := h.member x hxk hxi
    rw [hj.tasks x hxt]
    refine ⟨q, hq, hlt.trans hj.next, hm.imp_left fun hm => ?_⟩
    by_cases hqp : q = p
    · subst hqp
      exact hj.keep x hxk hq hm
    · rw [hj.procs q hqp]
      exact hm

theorem TaskRing.join (h : TaskRing k) (hj : Joined k k' t p) : TaskRing k' := by
  have hidle := hj.tasks _ (hj.ne_of_mem h h.idle)
  refine ⟨hj.nodup h, ?_, ?_, hj.mem_old h.idle, ?_, ?_, ?_, ?_, fun x hx hxi => hj.member h hx hxi,
    ?_, hj.thids h⟩
  · intro x hx
    rcases hj.mem hx with hx | rfl
    · exact (h.below x hx).trans hj.next
    · rw [hj.new]
      exact hj.next
  · rw [hj.current]
    exact hj.mem_old h.current
  · rw [hidle]
    exact h.idle_pgd
  · rw [hidle]
    exact h.idle_process
  · rw [hidle]
    exact h.idle_state
  · intro x hx hd
    rw [hj.current]
    by_cases hxt : x = t
    · subst hxt
      rw [hj.start hx] at hd
      cases hd
    · rw [hj.tasks x hxt] at hd
      exact h.dying x ((hj.mem hx).resolve_right hxt) hd
  · intro q x hx
    rcases hj.mem_threads hx with hx | ⟨rfl, rfl⟩
    · rw [hj.tasks x (hj.ne_of_thread h hx)]
      exact ⟨(h.threads q x hx).1, (h.threads q x hx).2.trans hj.next⟩
    · exact ⟨hj.process.1, hj.new ▸ hj.next⟩

end Joined

theorem born_threads (k : Kernel) (task : KTask) (parent : Option ℕ) (m : Mem) (freed : List ℕ)
    (q : ℕ) : ((k.born task parent m freed).procs q).threads =
      if q = k.next + 3 then [k.next] else (k.procs q).threads := by
  have hbase : ∀ x, (Function.update k.procs (k.next + 3)
      ⟨k.generatePid.1, .PROCESS_RUNNING, 0, 0, parent, [], [k.next]⟩ x).threads =
      if x = k.next + 3 then [k.next] else (k.procs x).threads := by
    intro x
    by_cases hx : x = k.next + 3
    · rw [hx, Function.update_self, if_pos rfl]
    · rw [Function.update_of_ne hx, if_neg hx]
  unfold Kernel.born Kernel.addChild
  dsimp only
  rcases parent with _ | par
  · exact hbase q
  · dsimp only
    by_cases hq : q = par
    · subst hq
      rw [Function.update_self]
      exact hbase q
    · rw [Function.update_of_ne hq]
      exact hbase q

theorem RingOk.born {k : Kernel} (h : RingOk k) (task : KTask) (parent : Option ℕ) (m : Mem)
    (freed : List ℕ) : RingOk (k.born task parent m freed) := by
  have hthr := born_threads k task parent m freed
  have hother : ∀ x, x ≠ k.next → (k.born task parent m freed).tasks x = k.tasks x :=
    fun x hx => Function.update_of_ne hx _ _
  have hself : (k.born task parent m freed).tasks k.next = { task with
      state := .TASK_STARTING, pgd := k.next + 2, process := some (k.next + 3) } :=
    Function.update_self _ _ _
  have hprocess : ((k.born task parent m freed).tasks k.next).process = some (k.next + 3) ∧
      k.next + 3 < k.next + 4 := by
    rw [hself]
    exact ⟨rfl, by omega⟩
  have hnext : k.next < k.next + 4 := by omega
  refine ⟨h.toTaskRing.join ⟨rfl, hnext, rfl, Or.inr rfl, hother, hprocess,
    fun _ => by rw [hself], Or.inl ?_, ?_, ?_⟩, ?_⟩
  · rw [hthr, if_pos rfl]
  · intro q hq
    rw [hthr, if_neg hq]
  · intro x hx hp _
    have hxi : x ≠ IDLE_TASK := by
      rintro rfl
      rw [h.idle_process] at hp
      cases hp
    obtain ⟨q, hq, hlt, -⟩ := h.member x hx hxi
    rw [hp] at hq
    have := Option.some.inj hq
    omega
  · have hcur : (k.born task parent m freed).currentTask = k.currentTask :=
      hother _ (Nat.ne_of_lt (h.below _ h.current))
    rw [hcur]
    exact h.alive

theorem RingOk.thcreate {k : Kernel} (h : RingOk k) (hne : k.current ≠ IDLE_TASK) (join : Bool)
    (junk : KTask) (regs : Regs) : Ends (k.sysThcreate join junk regs) RingOk TaskRing := by
  rcases k.sysThcreate_cases join junk regs with (he | he) |
    ⟨p, task, last, thid, hp, hlast, hthid, hstart, -, -, -, -, he⟩ <;> rw [he]
  · exact ends_ret _ h
  · exact ends_wild
  refine ends_ret _ ?_
  have hother : ∀ x, x ≠ k.next → (k.hatched task p join).tasks x = k.tasks x :=
    fun x hx => Function.update_of_ne hx _ _
  have hself : (k.hatched task p join).tasks k.next =
      { task with pgd := k.currentTask.pgd, process := some p } := Function.update_self _ _ _
  have hthr : ((k.hatched task p join).procs p).threads = (k.procs p).threads ++ [k.next] := by
    simp [Kernel.hatched]
  obtain ⟨q, hq, hlt, -⟩ := h.member _ h.current hne
  obtain rfl : q = p := Option.some.inj (hq.symm.trans hp)
  have hlast_le : ∀ x ∈ (k.procs q).threads, (k.tasks x).thid ≤ (k.tasks last).thid := by
    obtain ⟨init, hinit⟩ := List.getLast?_eq_some_iff.1 hlast
    have hpw := h.thids q
    rw [hinit] at hpw ⊢
    intro x hx
    rcases List.mem_append.1 hx with hx | hx
    · exact ((List.pairwise_append.1 hpw).2.2 x hx last (by simp)).le
    · rw [List.mem_singleton.1 hx]
  have hnext : k.next < k.next + 2 := by omega
  have hprocess : ((k.hatched task q join).tasks k.next).process = some q ∧ q < k.next + 2 := by
    rw [hself]
    exact ⟨rfl, hlt.trans hnext⟩
  refine ⟨h.toTaskRing.join ⟨rfl, hnext, rfl, ?_, hother, hprocess, fun hin => ?_,
    Or.inr ⟨hthr, ?_⟩, ?_, ?_⟩, ?_⟩
  · cases join
    · exact Or.inr rfl
    · exact Or.inl rfl
  · rw [hself]
    cases join
    · exact hstart rfl
    · exact absurd (h.below _ hin) (Nat.lt_irrefl _)
  · intro x hx
    rw [hself]
    change (k.tasks x).thid < task.thid
    have := hlast_le x hx
    omega
  · intro x hx
    unfold Kernel.hatched
    dsimp only
    rw [Function.update_of_ne hx]
  · intro x _ _ hm
    rw [hthr]
    exact List.mem_append_left _ hm
  · have hcur : (k.hatched task q join).currentTask = k.currentTask :=
      hother _ (Nat.ne_of_lt (h.below _ h.current))
    rw [hcur]
    exact h.alive

/-! The calls. -/

theorem RingOk.thkill {k : Kernel} (h : RingOk k) (hne : k.current ≠ IDLE_TASK) (thid ret : ℤ) :
    Ends (k.sysThkill thid ret) RingOk TaskRing := by
  obtain ⟨p, hp, hcur⟩ := h.member_thread h.current hne
  unfold Kernel.sysThkill
  have hp' : k.currentTask.process = some p := hp
  rw [hp']
  dsimp only
  split_ifs with hone
  · exact (h.processKill p).map _
  · rcases Kernel.thkillLoop_cases ret (h.thids p) with he |
      ⟨t, ht, htid, ⟨hcid, he⟩ | ⟨hcid, hw | ⟨hin, he⟩⟩⟩
    · rw [he]
      exact ends_ret _ h
    · rw [he]
      refine ends_resched ?_
      -- the thread found is the current one, since ids differ
      obtain rfl : t = k.current := h.thread_unique ht hcur (htid.trans hcid.symm)
      have hdie := h.toTaskRing.die hne
      exact hdie.dropThread (p := p) (t := k.current) fun _ => by
        simp [Kernel.setState, Kernel.setTask]
    · exact ends_of_wild hw
    · rw [he]
      refine ends_ret _ ?_
      have htc : t ≠ k.current := by
        rintro rfl
        exact hcid htid
      have hti : t ≠ IDLE_TASK := h.thread_ne_idle ht
      refine ⟨(h.toTaskRing.destroy htc hti).dropThread (p := p) (t := t) fun hm => ?_, h.alive⟩
      exact absurd hm h.nodup.not_mem_erase

theorem RingOk.exit {k : Kernel} (h : RingOk k) (hne : k.current ≠ IDLE_TASK) (status : Word) :
    Ends (k.sysExit status) RingOk TaskRing := by
  obtain ⟨p, hp, -⟩ := h.member_thread h.current hne
  unfold Kernel.sysExit
  have hp' : k.currentTask.process = some p := hp
  rw [hp']
  dsimp only
  exact ((h.setProc p (fun proc =>
    { proc with state := .PROCESS_EXITED, exitCode := status }) fun _ => rfl).processKill p).map _

theorem sameRing_mem (k : Kernel) (m : ℕ → Mem) : SameRing k { k with mem := m } :=
  ⟨rfl, rfl, rfl, fun _ => rfl, fun _ => rfl, fun _ => rfl, fun _ => rfl, fun _ => rfl⟩

theorem sameRing_delete (k : Kernel) (p parent : ℕ) : SameRing k (k.processDelete p parent) := by
  have h := sameRing_setProc k parent
    (fun proc => { proc with children := proc.children.erase p }) fun _ => rfl
  exact ⟨h.tasklist, h.current, h.next, h.pgd, h.process, h.state, h.thid, h.threads⟩

theorem RingOk.waitpid {k : Kernel} (h : RingOk k) (pid : ℤ) (wstatus : ℕ) :
    Ends (k.sysWaitpid pid wstatus) RingOk TaskRing := by
  unfold Kernel.sysWaitpid
  split_ifs
  · exact ends_ret _ h
  · exact ends_ret _ h
  rcases k.currentTask.process with _ | q
  · exact ends_wild
  dsimp only
  rcases (k.procs q).children.find? k.finished with _ | child
  · exact ends_resched h.toTaskRing
  dsimp only
  rcases (k.procs child).parent with _ | parent
  · exact ends_wild
  · exact ends_ret _ (h.same ((sameRing_mem k _).trans (sameRing_delete _ child parent)))

theorem RingOk.sigaction {k : Kernel} (h : RingOk k) (num : ℤ) (new old : ℕ) :
    Ends (k.sysSigaction num new old) RingOk TaskRing := by
  unfold Kernel.sysSigaction
  split
  · exact ends_ret _ h
  split
  · exact ends_ret _ h
  dsimp only
  split
  · exact ends_ret _ (h.same (sameRing_mem k _))
  · exact ends_ret _ (h.same ((sameRing_mem k _).trans
      (sameRing_setTask _ k.current _ fun _ => ⟨rfl, rfl, rfl, rfl⟩)))

theorem RingOk.sleep {k : Kernel} (h : RingOk k) (hne : k.current ≠ IDLE_TASK) (wakeTime : ℕ) :
    Ends (k.sysSleep wakeTime) RingOk TaskRing :=
  ends_resched (h.toTaskRing.setState ⟨rfl, rfl, rfl⟩ h.alive (by simp) fun hi => absurd hi hne)

theorem RingOk.hand {k : Kernel} (h : RingOk k) (id t : ℕ) : RingOk (k.hand id t) :=
  h.same ⟨rfl, rfl, rfl, fun _ => rfl, fun _ => rfl, fun _ => rfl, fun _ => rfl, fun _ => rfl⟩

theorem RingOk.withQueues {k : Kernel} (h : RingOk k) (queues : ℕ → List Pending) :
    RingOk { k with queues := queues } :=
  h.same ⟨rfl, rfl, rfl, fun _ => rfl, fun _ => rfl, fun _ => rfl, fun _ => rfl, fun _ => rfl⟩

theorem RingOk.signalSend {k : Kernel} (h : RingOk k) {t : ℕ} (ht : t ∈ k.tasklist) (s : Sig) :
    Ends (k.signalSend t s) RingOk TaskRing := by
  unfold Kernel.signalSend
  dsimp only
  have hsent : RingOk { k with sent := k.sent ++ [t] } :=
    h.same ⟨rfl, rfl, rfl, fun _ => rfl, fun _ => rfl, fun _ => rfl, fun _ => rfl, fun _ => rfl⟩
  split_ifs
  · exact ends_ret _ h
  · exact ends_panic
  · exact ends_ret _ (hsent.withQueues _)
  · exact (hsent.hand k.sent.length t).signalExec ht s

theorem ringOk_boot (idle : KTask) (mem : ℕ → Mem) (pitTicks : ℕ) :
    RingOk (bootKernel idle mem pitTicks) := by
  refine ⟨⟨List.nodup_singleton _, ?_, List.mem_singleton_self _, List.mem_singleton_self _, rfl,
    rfl, ⟨nofun, nofun⟩, nofun, ?_, nofun, fun _ => List.Pairwise.nil⟩, nofun⟩
  · intro t ht
    obtain rfl := List.mem_singleton.1 ht
    change IDLE_TASK < 4
    decide
  · intro t ht hne
    exact absurd (List.mem_singleton.1 ht) hne

theorem RingOk.call {k : Kernel} (h : RingOk k) {e : KEvent} (hf : e.Fits k) :
    Ends (kernelCall k e) RingOk TaskRing := by
  cases e with
  | tick =>
    exact ends_resched ⟨h.nodup, h.below, h.current, h.idle, h.idle_pgd, h.idle_process,
      h.idle_state, h.dying, h.member, h.threads, h.thids⟩
  | yield => exact ends_resched h.toTaskRing
  | user regs m =>
    obtain ⟨r, m', hr⟩ := k.user_user regs m
    rw [hr]
    exact ends_ret _ (h.same (sameRing_user k r m'))
  | spawn parent junk regs image =>
    refine ends_ret _ ?_
    rw [Kernel.processSpawn_born]
    exact h.born _ _ _ _
  | fork junk =>
    obtain ⟨p, hp, -⟩ := h.member_thread h.current hf
    have hends : Ends (k.sysFork junk) RingOk TaskRing := by
      rw [Kernel.sysFork_born k junk hp]
      exact ends_ret _ (h.born _ _ _ _)
    exact hends.map some
  | thcreate join junk regs => exact (h.thcreate hf join junk regs).map some
  | thkill thid ret => exact (h.thkill hf thid ret).map some
  | exit status => exact (h.exit hf status).map some
  | waitpid pid wstatus => exact (h.waitpid pid wstatus).map some
  | sleep wakeTime => exact (h.sleep hf wakeTime).map some
  | sigaction num new old => exact (h.sigaction num new old).map some
  | sigrestore ctx ret =>
    obtain ⟨r, m, hr⟩ := k.sigrestore_user ctx ret
    refine ends_ret _ ?_
    change RingOk (k.sigrestore ctx ret).1
    rw [hr]
    exact h.same ((sameRing_mask k k.current _).trans (sameRing_user _ r m))
  | send t s => exact (h.signalSend hf s).map _

/-- The queue of `t` without the first signal that is not blocked. -/
def Kernel.dequeue (k : Kernel) (t : ℕ) : Kernel :=
  { k with
    queues := Function.update k.queues (k.tasks t).signalQueue
      ((k.queues (k.tasks t).signalQueue).eraseP fun x => !k.blocked t x.sig.number) }

theorem dequeue_mem {k : Kernel} {t q : ℕ} {x : Pending} (hx : x ∈ (k.dequeue t).queues q) :
    x ∈ k.queues q := by
  unfold Kernel.dequeue at hx
  dsimp only at hx
  by_cases hq : q = (k.tasks t).signalQueue
  · rw [hq, Function.update_self] at hx
    rw [hq]
    exact List.mem_of_mem_eraseP hx
  · rwa [Function.update_of_ne hq] at hx

theorem signalFetch_current {k k' : Kernel} {x : Pending} {t : ℕ}
    (hf : k.signalFetch t = some (x, k')) :
    (k.queues (k.tasks t).signalQueue).find? (fun x => !k.blocked t x.sig.number) = some x ∧
    k' = k.dequeue t := by
  unfold Kernel.signalFetch at hf
  dsimp only at hf
  rcases hfind : (k.queues (k.tasks t).signalQueue).find?
      (fun x => !k.blocked t x.sig.number) with _ | y <;> rw [hfind] at hf
  · cases hf
  · obtain ⟨rfl, rfl⟩ := Prod.mk.inj (Option.some.inj hf)
    exact ⟨hfind, rfl⟩

theorem ring_rule : KRule (fun _ _ => True) (fun _ => True) (fun _ => True) TaskRing RingOk where
  boot k hk := by
    obtain ⟨idle, mem, pitTicks, rfl⟩ := hk
    exact ringOk_boot idle mem pitTicks
  user k r m _ h := h.same (sameRing_user k r m)
  call k e _ h hf _ := h.call hf
  switch k n _ h hp := h.switchTo hp
  pending k x k' _ h hf := by
    obtain ⟨-, rfl⟩ := signalFetch_current hf
    exact ((h.withQueues _).hand x.id k.current).signalExec h.current x.sig
  jump k prev _ h := h.same ⟨rfl, rfl, rfl, fun _ => rfl, fun _ => rfl, fun _ => rfl, fun _ => rfl,
    fun _ => rfl⟩

end DepthOS
