import DepthOS.Spec.Kernel

/-! What the calls of the process machine do to its state, one lemma per call, and
the induction over runs: `reschedule` may go round several times, so an invariant
comes as a pair, `I` for the state in which `reschedule` is entered and `J` for
the state in which a task runs. -/

namespace DepthOS

open Lib

namespace Kernel

theorem setTask_tasks (k : Kernel) (t : ℕ) (f : KTask → KTask) (x : ℕ) :
    (k.setTask t f).tasks x = if x = t then f (k.tasks x) else k.tasks x := by
  unfold setTask
  by_cases hx : x = t
  · subst hx
    simp
  · simp [hx]

theorem setProc_procs (k : Kernel) (p : ℕ) (f : Process → Process) (x : ℕ) :
    (k.setProc p f).procs x = if x = p then f (k.procs x) else k.procs x := by
  unfold setProc
  by_cases hx : x = p
  · subst hx
    simp
  · simp [hx]

/-- `process_delete` changes nothing but the parent's children. -/
theorem processDelete_procs (k : Kernel) (child q p : ℕ) :
    (k.processDelete child q).procs p = { k.procs p with
      children := if p = q then (k.procs p).children.erase child else (k.procs p).children } := by
  have h : (k.processDelete child q).procs p =
      if p = q then { k.procs p with children := (k.procs p).children.erase child }
      else k.procs p :=
    k.setProc_procs q (fun proc => { proc with children := proc.children.erase child }) p
  rw [h]
  split_ifs <;> rfl

/-- Other registers and other user memory. -/
def withUser (k : Kernel) (r : ℕ → Regs) (m : ℕ → Mem) : Kernel :=
  { k with tasks := fun t => { k.tasks t with regs := r t }, mem := m }

theorem setRegs_user (k : Kernel) (t : ℕ) (r : Regs) (m : ℕ → Mem) :
    ∃ rs, { k.setTask t fun task => { task with regs := r } with mem := m } = k.withUser rs m := by
  have htasks : Function.update k.tasks t { k.tasks t with regs := r } =
      fun x => { k.tasks x with regs := Function.update (fun y => (k.tasks y).regs) t r x } := by
    funext x
    by_cases hx : x = t
    · subst hx
      simp
    · simp [hx]
  exact ⟨_, congrArg (fun ts => ({ k with tasks := ts, mem := m } : Kernel)) htasks⟩

theorem sysRet_user (k : Kernel) (v : ℤ) : ∃ r m, k.sysRet v = k.withUser r m := by
  obtain ⟨r, hr⟩ := k.setRegs_user k.current { k.currentTask.regs with eax := BitVec.ofInt 32 v }
    k.mem
  exact ⟨r, k.mem, hr⟩

theorem user_user (k : Kernel) (regs : Regs) (m : Mem) :
    ∃ r m', kernelCall k (.user regs m) = (k.withUser r m', .ret none) := by
  obtain ⟨r, hr⟩ := k.setRegs_user k.current regs (Function.update k.mem k.currentTask.pgd m)
  exact ⟨r, _, congrArg (fun k' => (k', Flow.ret none)) hr⟩

/-- `signal_mask_current` of one task. -/
def setMaskCurrent (k : Kernel) (t : ℕ) (mask : SigMask) : Kernel :=
  k.setTask t fun task => { task with signalMaskCurrent := mask }

theorem setRegsMask_user (k : Kernel) (t : ℕ) (r : Regs) (mask : SigMask) (m : ℕ → Mem) :
    ∃ rs, { k.setTask t fun task => { task with regs := r, signalMaskCurrent := mask } with
      mem := m } = (k.setMaskCurrent t mask).withUser rs m := by
  have htasks : Function.update k.tasks t
        { k.tasks t with regs := r, signalMaskCurrent := mask } =
      fun x => { (k.setMaskCurrent t mask).tasks x with
        regs := Function.update (fun y => (k.tasks y).regs) t r x } := by
    funext x
    by_cases hx : x = t
    · subst hx
      simp [setMaskCurrent, setTask]
    · simp [setMaskCurrent, setTask, hx]
  exact ⟨_, congrArg (fun ts => ({ k with tasks := ts, mem := m } : Kernel)) htasks⟩

theorem deliver_user (k : Kernel) (t : ℕ) (s : Sig) (h : SigHandler) :
    ∃ r m, k.deliver t s h =
      (k.setMaskCurrent t (h.mask ||| sigBit s.number.toNat)).withUser r m := by
  let d := sigDeliver (k.tasks t).regs (k.mem (k.tasks t).pgd) (k.tasks t).signalMask h s
  obtain ⟨r, hr⟩ := k.setRegsMask_user t d.regs (h.mask ||| sigBit s.number.toNat)
    (Function.update k.mem (k.tasks t).pgd d.mem)
  exact ⟨r, _, hr⟩

theorem sigrestore_user (k : Kernel) (ctx : ℕ) (ret : ℤ) :
    ∃ r m, (k.sigrestore ctx ret).1 =
      (k.setMaskCurrent k.current (readContext (k.mem k.currentTask.pgd) ctx).oldMask).withUser
        r m := by
  let d := sysSigrestore k.currentTask.regs (k.mem k.currentTask.pgd) ctx
  obtain ⟨r, hr⟩ := k.setRegsMask_user k.current d.1 d.2.2
    (Function.update k.mem k.currentTask.pgd d.2.1)
  exact ⟨r, _, hr⟩

/-! `process_kill` -/

/-- The state after the threads `ts` were killed: the current task is dying if it is one of
them, the others are gone. -/
structure KilledFrom (k k' : Kernel) (ts : List ℕ) : Prop where
  procs : k'.procs = k.procs
  queues : k'.queues = k.queues
  mem : k'.mem = k.mem
  current : k'.current = k.current
  pitTicks : k'.pitTicks = k.pitTicks
  currentPid : k'.currentPid = k.currentPid
  freePid : k'.freePid = k.freePid
  next : k'.next = k.next
  live : k'.live = k.live
  sent : k'.sent = k.sent
  handed : k'.handed = k.handed
  killed : k'.killed = k.killed
  switches : k'.switches = k.switches
  tasks : ∀ t, k'.tasks t =
    if t = k.current ∧ t ∈ ts then { k.tasks t with state := .TASK_DYING } else k.tasks t
  tasklist : k'.tasklist = k.tasklist.filter fun t => t = k.current ∨ t ∉ ts
  freed : k'.freed = ((ts.filter (· ≠ k.current)).map fun t => (k.tasks t).pgd).reverse ++ k.freed

theorem killThread_self (k : Kernel) (w : Bool) {t : ℕ} (h : t = k.current) :
    killThread (k, w) t = (k.setState t .TASK_DYING, w) := if_pos h

theorem killThread_other (k : Kernel) (w : Bool) {t : ℕ} (h : t ≠ k.current) :
    killThread (k, w) t = (k.threadDestroy t, w || t ∉ k.tasklist) := if_neg h

theorem killThreads_spec (ts : List ℕ) (k : Kernel) (w : Bool) (hnd : k.tasklist.Nodup) :
    KilledFrom k (ts.foldl killThread (k, w)).1 ts := by
  induction ts generalizing k w with
  | nil =>
    refine ⟨rfl, rfl, rfl, rfl, rfl, rfl, rfl, rfl, rfl, rfl, rfl, rfl, rfl, ?_, ?_, rfl⟩
    · intro t
      rw [if_neg (fun h => List.not_mem_nil h.2)]
      rfl
    · simp
  | cons a ts ih =>
    rw [List.foldl_cons]
    by_cases ha : a = k.current
    · rw [killThread_self k w ha]
      have h := ih (k.setState a .TASK_DYING) w hnd
      refine ⟨h.procs, h.queues, h.mem, h.current, h.pitTicks, h.currentPid, h.freePid, h.next,
        h.live, h.sent, h.handed, h.killed, h.switches, ?_, ?_, ?_⟩
      · intro t
        rw [h.tasks t]
        by_cases ht : t = a
        · subst ht
          simp [setState, setTask, ha]
        · have hc : t ≠ k.current := fun hc => ht (hc.trans ha.symm)
          simp [setState, setTask, ht, hc]
      · rw [h.tasklist]
        refine List.filter_congr fun t _ => ?_
        by_cases ht : t = k.current
        · simp [setState, setTask, ht]
        · have hta : t ≠ a := fun h => ht (h.trans ha)
          simp [setState, setTask, ht, hta]
      · rw [h.freed]
        have hpgd : ∀ t, ((k.setState a .TASK_DYING).tasks t).pgd = (k.tasks t).pgd := by
          intro t
          by_cases ht : t = a
          · subst ht
            simp [setState, setTask]
          · simp [setState, setTask, ht]
        simp only [hpgd]
        rw [List.filter_cons_of_neg (by simp [ha])]
        rfl
    · rw [killThread_other k w ha]
      have h := ih (k.threadDestroy a) (w || a ∉ k.tasklist) (hnd.erase a)
      refine ⟨h.procs, h.queues, h.mem, h.current, h.pitTicks, h.currentPid, h.freePid, h.next,
        h.live, h.sent, h.handed, h.killed, h.switches, ?_, ?_, ?_⟩
      · intro t
        rw [h.tasks t]
        by_cases hc : t = k.current
        · simp [threadDestroy, hc, Ne.symm ha]
        · simp [threadDestroy, hc]
      · rw [h.tasklist]
        simp only [threadDestroy]
        rw [hnd.erase_eq_filter, List.filter_filter]
        refine List.filter_congr fun t _ => ?_
        by_cases hta : t = a
        · subst hta
          simp [ha]
        · rw [bne_iff_ne.2 hta, Bool.and_true]
          exact decide_eq_decide.2 (by rw [List.mem_cons, not_or]; tauto)
      · rw [h.freed, List.filter_cons_of_pos (by simpa using ha), List.map_cons,
          List.reverse_cons, List.append_assoc]
        rfl

/-- The kernel in which `process_kill` of `p` begins its loop. -/
def logKill (k : Kernel) (p : ℕ) : Kernel :=
  { k with killed := (p, (k.procs p).threads) :: k.killed }

/-- `process_kill`: the threads of the process, and how the call can end. -/
theorem processKill_spec (k : Kernel) (p : ℕ) (hnd : k.tasklist.Nodup) :
    KilledFrom (k.logKill p) (k.processKill p).1 (k.procs p).threads ∧
    ((k.processKill p).2 = .resched → k.currentTask.process = some p) ∧
    ∀ u, (k.processKill p).2 = .ret u → k.currentTask.process ≠ some p := by
  have h := killThreads_spec (k.procs p).threads (k.logKill p) false hnd
  have hfold : (k.procs p).threads.foldl killThread
      ({ k with killed := (p, (k.procs p).threads) :: k.killed }, false) =
      (k.procs p).threads.foldl killThread (k.logKill p, false) := rfl
  have hproc : ((k.procs p).threads.foldl killThread (k.logKill p, false)).1.currentTask.process =
      k.currentTask.process := by
    unfold currentTask
    rw [h.tasks, h.current]
    split_ifs <;> rfl
  unfold processKill
  dsimp only
  rw [hfold, hproc]
  split
  · exact ⟨h, nofun, nofun⟩
  split
  · exact ⟨h, nofun, nofun⟩
  split
  · rename_i hcur
    exact ⟨h, fun _ => hcur, nofun⟩
  · rename_i hcur
    exact ⟨h, nofun, fun _ _ => hcur⟩

/-! `signal_exec` -/

theorem signalExec_cases (k : Kernel) (t : ℕ) (s : Sig) :
    k.signalExec t s = (k, .ret ()) ∨
    ((k.tasks t).pgd ≠ KERNEL_PGD ∧
      (k.signalExec t s = k.killWithSignal t s.number ∨
        (s.number = SIGSTOP ∧ k.signalExec t s = (k.setState t .TASK_SUSPENDED, .ret ())) ∨
        (s.number ≠ SIGKILL ∧ s.number ≠ SIGSTOP ∧
          ∃ r m, k.signalExec t s = ((k.setMaskCurrent t
            (((k.tasks t).signalHandlers s.number.toNat).mask ||| sigBit s.number.toNat)).withUser
              r m, .ret ())))) := by
  unfold signalExec defaultSignalHandler
  dsimp only
  split_ifs with h1 h2 h3
  · exact Or.inl rfl
  · exact Or.inr ⟨h1, Or.inl rfl⟩
  · exact Or.inr ⟨h1, Or.inr (Or.inl ⟨h3, rfl⟩)⟩
  · exact Or.inl rfl
  · exact Or.inr ⟨h1, Or.inl rfl⟩
  · exact Or.inl rfl
  · obtain ⟨r, m, hd⟩ := k.deliver_user t s ((k.tasks t).signalHandlers s.number.toNat)
    exact Or.inr ⟨h1, Or.inr (Or.inr ⟨h2, h3, r, m, by rw [hd]⟩)⟩

/-! New tasks. -/

/-- `list_push` to the children of the parent, if there is one. -/
def addChild (procs : ℕ → Process) (parent : Option ℕ) (p : ℕ) : ℕ → Process :=
  match parent with
  | none => procs
  | some q => Function.update procs q { procs q with children := (procs q).children ++ [p] }

/-- The state after `process_spawn` or `fork`: task `k.next`, with a page directory
`k.next + 2` and a process `k.next + 3` of its own. -/
def born (k : Kernel) (task : KTask) (parent : Option ℕ) (m : Mem) (freed : List ℕ) : Kernel :=
  { k with
    tasks := Function.update k.tasks k.next { task with
      state := .TASK_STARTING, pgd := k.next + 2, process := some (k.next + 3) }
    procs := addChild (Function.update k.procs (k.next + 3)
      ⟨k.generatePid.1, .PROCESS_RUNNING, 0, 0, parent, [], [k.next]⟩) parent (k.next + 3)
    queues := Function.update k.queues (k.next + 1) []
    mem := Function.update k.mem (k.next + 2) m
    tasklist := k.tasklist ++ [k.next]
    currentPid := k.generatePid.2.currentPid
    freePid := k.generatePid.2.freePid
    next := k.next + 4
    live := (k.next + 3) :: k.live
    freed := freed }

/-- The task `create_dummy_task` makes of a block. -/
def dummyTask (k : Kernel) (junk : KTask) : KTask :=
  { junk with
    signalHandlers := fun n => if n < NSIG then ⟨0, 0, 0, 0⟩ else junk.signalHandlers n
    signalMask := 0
    signalMaskCurrent := 0
    signalQueue := k.next + 1 }

theorem processSpawn_born (k : Kernel) (parent : Option ℕ) (junk : KTask) (regs : Regs)
    (image : Mem) :
    k.processSpawn parent junk regs image =
      k.born { k.dummyTask junk with thid := 0, regs := regs } parent image
        (if junk.pgd ≠ 0 then junk.pgd :: k.freed else k.freed) := by
  unfold processSpawn born generatePid
  rcases hf : k.freePid with _ | ⟨pid, rest⟩ <;> rcases parent with _ | q <;>
    by_cases hj : junk.pgd = 0 <;>
    simp [createDummyTask, setTask, elfLoadf, newPgd, schedAdd, setState, newProcess, setProc,
      addChild, dummyTask, hj]

/-- The task `fork_task` makes of one. -/
def childTask (k : Kernel) (parent : ℕ) (junk : KTask) : KTask :=
  { k.dummyTask junk with
    thid := (k.tasks parent).thid
    regs := { (k.tasks parent).regs with eax := 0 }
    signalHandlers := fun n => if n < NSIG then (k.tasks parent).signalHandlers n
      else (k.dummyTask junk).signalHandlers n
    signalMask := (k.tasks parent).signalMask
    signalMaskCurrent := (k.tasks parent).signalMaskCurrent
    signalQueue := (k.tasks parent).signalQueue }

theorem sysFork_born (k : Kernel) (junk : KTask) {p : ℕ} (hp : k.currentTask.process = some p) :
    k.sysFork junk = (k.born (k.childTask k.current junk) (some p)
      (k.mem k.currentTask.pgd) k.freed, .ret k.generatePid.1) := by
  unfold sysFork born generatePid
  rw [hp]
  rcases hf : k.freePid with _ | ⟨pid, rest⟩ <;>
    simp [createDummyTask, setTask, forkTask, newPgd, schedAdd, setState, newProcess, setProc,
      addChild, dummyTask, childTask, currentTask, hf]

/-- The state after `thcreate`: task `k.next` in the caller's address space. -/
def hatched (k : Kernel) (task : KTask) (p : ℕ) (join : Bool) : Kernel :=
  { k with
    tasks := Function.update k.tasks k.next { task with
      pgd := k.currentTask.pgd, process := some p }
    procs := Function.update k.procs p { k.procs p with
      threads := (k.procs p).threads ++ [k.next] }
    queues := Function.update k.queues (k.next + 1) []
    tasklist := if join then k.tasklist else k.tasklist ++ [k.next]
    next := k.next + 2 }

theorem sysThcreate_cases (k : Kernel) (join : Bool) (junk : KTask) (regs : Regs) :
    (k.sysThcreate join junk regs = (k, .ret (-1)) ∨
      k.sysThcreate join junk regs = (k, .wild)) ∨
    ∃ p task last thid, k.currentTask.process = some p ∧ (k.procs p).threads.getLast? = some last ∧
      task.thid = (k.tasks last).thid + 1 ∧ (join = false → task.state = .TASK_STARTING) ∧
      task.signalHandlers = (k.dummyTask junk).signalHandlers ∧ task.signalMask = 0 ∧
      task.signalMaskCurrent = 0 ∧ task.signalQueue = k.next + 1 ∧
      k.sysThcreate join junk regs = (k.hatched task p join, .ret thid) := by
  unfold sysThcreate
  rcases hp : k.currentTask.process with _ | p
  · exact Or.inl (Or.inl rfl)
  dsimp only
  rcases hl : (k.procs p).threads.getLast? with _ | last
  · exact Or.inl (Or.inr rfl)
  refine Or.inr ⟨p, { k.dummyTask junk with
    state := if join then junk.state else .TASK_STARTING
    thid := (k.tasks last).thid + 1, regs := regs }, last, (k.tasks last).thid + 1, rfl, hl, rfl,
    ?_, rfl, rfl, rfl, rfl, ?_⟩
  · intro hj
    simp [hj]
  · cases join <;>
      simp [createDummyTask, setTask, schedAdd, setState, setProc, dummyTask, hatched]

theorem born_mem {k : Kernel} {task : KTask} {parent : Option ℕ} {m : Mem} {freed : List ℕ} {t : ℕ}
    (ht : t ∈ (k.born task parent m freed).tasklist) : t ∈ k.tasklist ∨ t = k.next :=
  (List.mem_append.1 ht).imp_right List.mem_singleton.1

theorem hatched_mem {k : Kernel} {task : KTask} {p : ℕ} {join : Bool} {t : ℕ}
    (ht : t ∈ (k.hatched task p join).tasklist) : t ∈ k.tasklist ∨ (t = k.next ∧ join = false) := by
  cases join
  · exact (List.mem_append.1 ht).imp_right fun h => ⟨List.mem_singleton.1 h, rfl⟩
  · exact Or.inl ht

/-! Queues. -/

theorem mem_newQueue {queues : ℕ → List Pending} {n q : ℕ} {x : Pending}
    (hx : x ∈ Function.update queues n [] q) : x ∈ queues q := by
  by_cases hq : q = n
  · rw [hq, Function.update_self] at hx
    exact absurd hx List.not_mem_nil
  · rwa [Function.update_of_ne hq] at hx

theorem enqueue_mem {k : Kernel} {t q : ℕ} {x y : Pending} (hx : x ∈ (k.enqueue t y).queues q) :
    x ∈ k.queues q ∨ x = y := by
  unfold enqueue at hx
  dsimp only at hx
  by_cases hq : q = (k.tasks t).signalQueue
  · rw [hq, Function.update_self] at hx
    rw [hq]
    exact (List.mem_append.1 hx).imp_right List.mem_singleton.1
  · rw [Function.update_of_ne hq] at hx
    exact Or.inl hx

/-! `thkill` -/

theorem thkillLoop_none {p : ℕ} {thid ret : ℤ} {ts : List ℕ} {k : Kernel}
    (h : ∀ t ∈ ts, (k.tasks t).thid ≠ thid) : thkillLoop p thid ret ts k = (k, .ret ret) := by
  induction ts with
  | nil => rfl
  | cons a ts ih =>
    rw [thkillLoop, if_neg (h a List.mem_cons_self)]
    exact ih fun t ht => h t (List.mem_cons_of_mem _ ht)

/-- The list of threads without one of them. -/
def dropThread (k : Kernel) (p t : ℕ) : Kernel :=
  k.setProc p fun proc => { proc with threads := proc.threads.erase t }

theorem thkillLoop_cases {p : ℕ} {thid : ℤ} (ret : ℤ) {ts : List ℕ} {k : Kernel}
    (hthid : ts.Pairwise fun a b => (k.tasks a).thid < (k.tasks b).thid) :
    thkillLoop p thid ret ts k = (k, .ret ret) ∨
    ∃ t ∈ ts, (k.tasks t).thid = thid ∧
      ((k.currentTask.thid = thid ∧ thkillLoop p thid ret ts k =
          ((k.dropThread p t).setState k.current .TASK_DYING, .resched)) ∨
        (k.currentTask.thid ≠ thid ∧ ((thkillLoop p thid ret ts k).2 = .wild ∨
          (t ∈ k.tasklist ∧
            thkillLoop p thid ret ts k = ((k.dropThread p t).threadDestroy t, .ret ret))))) := by
  induction ts with
  | nil => exact Or.inl rfl
  | cons a ts ih =>
    obtain ⟨ha, hts⟩ := List.pairwise_cons.1 hthid
    rw [thkillLoop]
    by_cases hat : (k.tasks a).thid = thid
    · rw [if_pos hat]
      refine Or.inr ⟨a, List.mem_cons_self, hat, ?_⟩
      have hcur : (k.setProc p fun proc =>
          { proc with threads := proc.threads.erase a }).currentTask = k.currentTask := rfl
      dsimp only
      rw [hcur]
      by_cases hc : k.currentTask.thid = thid
      · rw [if_pos hc]
        exact Or.inl ⟨hc, rfl⟩
      · rw [if_neg hc]
        refine Or.inr ⟨hc, ?_⟩
        split
        · exact Or.inl rfl
        · rename_i hin
          refine Or.inr ⟨not_not.1 hin, thkillLoop_none fun t ht => ?_⟩
          have := ha t ht
          change (k.tasks t).thid ≠ thid
          omega
    · rw [if_neg hat]
      rcases ih hts with h | ⟨t, ht, hrest⟩
      · exact Or.inl h
      · exact Or.inr ⟨t, List.mem_cons_of_mem _ ht, hrest⟩

end Kernel

/-! Runs. -/

/-- A call that returns leaves `J`, one that goes into `reschedule` leaves `I`. -/
def Ends {α : Type} (r : Kernel × Flow α) (J I : Kernel → Prop) : Prop :=
  (∀ v, r.2 = .ret v → J r.1) ∧ (r.2 = .resched → I r.1)

section Ends

variable {α β : Type} {J I J' I' : Kernel → Prop} {k : Kernel} {r : Kernel × Flow α}

theorem ends_ret (v : α) (h : J k) : Ends (k, .ret v) J I := ⟨fun _ _ => h, nofun⟩

theorem ends_resched (h : I k) : Ends ((k, .resched) : Kernel × Flow α) J I := ⟨nofun, fun _ => h⟩

theorem ends_wild : Ends ((k, .wild) : Kernel × Flow α) J I := ⟨nofun, nofun⟩

theorem ends_panic : Ends ((k, .panic) : Kernel × Flow α) J I := ⟨nofun, nofun⟩

theorem ends_of_wild (h : r.2 = .wild) : Ends r J I := by
  obtain ⟨k, flow⟩ := r
  subst h
  exact ends_wild

theorem Ends.map (h : Ends r J I) (f : α → β) : Ends (r.1, r.2.map f) J I := by
  obtain ⟨k, flow⟩ := r
  cases flow with
  | ret v => exact ends_ret _ (h.1 v rfl)
  | resched => exact ends_resched (h.2 rfl)
  | panic => exact ends_panic
  | wild => exact ends_wild

theorem Ends.mono (h : Ends r J I) (hJ : ∀ k, J k → J' k) (hI : ∀ k, I k → I' k) :
    Ends r J' I' := ⟨fun v hv => hJ _ (h.1 v hv), fun hv => hI _ (h.2 hv)⟩

theorem Ends.and (h : Ends r J I) (h' : Ends r J' I') :
    Ends r (fun k => J k ∧ J' k) (fun k => I k ∧ I' k) :=
  ⟨fun v hv => ⟨h.1 v hv, h'.1 v hv⟩, fun hv => ⟨h.2 hv, h'.2 hv⟩⟩

end Ends

/-- `reschedule` as a loop: entered with `I`, left with `J`. -/
theorem reschedule_rule {I J : Kernel → Prop}
    (hswitch : ∀ k n, I k → k.pick = some n → J (k.switchTo n))
    (hpending : ∀ k x k', J k → k.signalFetch k.current = some (x, k') →
      Ends ((k'.hand x.id k.current).signalExec k.current x.sig) J I)
    (hjump : ∀ k prev, J k → J (k.jump prev)) {fuel : ℕ} {k k' : Kernel} (hI : I k)
    (h : k.reschedule fuel = some k') : J k' := by
  induction fuel generalizing k with
  | zero => cases h
  | succ fuel ih =>
    rw [Kernel.reschedule] at h
    rcases hp : k.pick with _ | n <;> rw [hp] at h
    · cases h
    have hJ := hswitch k n hI hp
    dsimp only at h
    rcases hf : (k.switchTo n).signalFetch n with _ | ⟨x, k1⟩ <;> rw [hf] at h
    · obtain rfl := Option.some.inj h
      exact hjump _ _ hJ
    · obtain ⟨hret, hres⟩ := hpending (k.switchTo n) x k1 hJ hf
      have hcur : (k.switchTo n).current = n := rfl
      rw [hcur] at hret hres
      dsimp only at h
      rcases he : (k1.hand x.id n).signalExec n x.sig with ⟨k2, flow⟩
      rw [he] at h hret hres
      cases flow with
      | ret u =>
        obtain rfl := Option.some.inj h
        exact hjump _ _ (hret u rfl)
      | resched => exact ih (hres rfl) h
      | panic => cases h
      | wild => cases h

/-- A run all of whose steps meet the condition `C`. -/
def KRunOf (C : Kernel → KEvent → Prop) : List KEvent → Kernel → Prop :=
  Run KBoot fun k e k' => C k e ∧ KStep k e k'

instance (k : Kernel) (e : KEvent) : Decidable (e.Fits k) :=
  match e with
  | .tick => inferInstanceAs (Decidable True)
  | .yield => inferInstanceAs (Decidable True)
  | .spawn none _ _ _ => isTrue nofun
  | .spawn (some q) _ _ _ =>
    decidable_of_iff (q ∈ k.live) ⟨fun h _ hq => Option.some.inj hq ▸ h, fun h => h q rfl⟩
  | .send t _ => inferInstanceAs (Decidable (t ∈ k.tasklist))
  | .user _ _ => inferInstanceAs (Decidable (k.current ≠ IDLE_TASK))
  | .fork _ => inferInstanceAs (Decidable (k.current ≠ IDLE_TASK))
  | .thcreate _ _ _ => inferInstanceAs (Decidable (k.current ≠ IDLE_TASK))
  | .thkill _ _ => inferInstanceAs (Decidable (k.current ≠ IDLE_TASK))
  | .exit _ => inferInstanceAs (Decidable (k.current ≠ IDLE_TASK))
  | .waitpid _ _ => inferInstanceAs (Decidable (k.current ≠ IDLE_TASK))
  | .sleep _ => inferInstanceAs (Decidable (k.current ≠ IDLE_TASK))
  | .sigaction _ _ _ => inferInstanceAs (Decidable (k.current ≠ IDLE_TASK))
  | .sigrestore _ _ => inferInstanceAs (Decidable (k.current ≠ IDLE_TASK))

/-- What has to be shown of `I` and `J` for every run, given the invariants `I0` and `J0`
that are known already. -/
structure KRule (C : Kernel → KEvent → Prop) (I0 J0 I J : Kernel → Prop) : Prop where
  boot : ∀ k, KBoot k → J k
  user : ∀ k r m, J0 k → J k → J (k.withUser r m)
  call : ∀ k e, J0 k → J k → e.Fits k → C k e → Ends (kernelCall k e) J I
  switch : ∀ k n, I0 k → I k → k.pick = some n → J (k.switchTo n)
  pending : ∀ k x k', J0 k → J k → k.signalFetch k.current = some (x, k') →
    Ends ((k'.hand x.id k.current).signalExec k.current x.sig) J I
  jump : ∀ k prev, J0 k → J k → J (k.jump prev)

/-- One step: the call, and `reschedule` where the call goes into it. -/
theorem kstep_rule {I J : Kernel → Prop} (huser : ∀ k r m, J k → J (k.withUser r m))
    (hswitch : ∀ k n, I k → k.pick = some n → J (k.switchTo n))
    (hpending : ∀ k x k', J k → k.signalFetch k.current = some (x, k') →
      Ends ((k'.hand x.id k.current).signalExec k.current x.sig) J I)
    (hjump : ∀ k prev, J k → J (k.jump prev)) {k k' : Kernel} {e : KEvent}
    (hcall : e.Fits k → Ends (kernelCall k e) J I) (hs : KStep k e k') : J k' := by
  obtain ⟨hfits, hends⟩ := hs
  obtain ⟨hret, hres⟩ := hcall hfits
  rcases hflow : (kernelCall k e).2 with (_ | v) | _ | _ | _ <;> rw [hflow] at hends
  · obtain rfl := hends
    exact hret _ hflow
  · obtain rfl := hends
    obtain ⟨r, m, hu⟩ := (kernelCall k e).1.sysRet_user v
    rw [hu]
    exact huser _ _ _ (hret _ hflow)
  · obtain ⟨fuel, hf⟩ := hends
    exact reschedule_rule hswitch hpending hjump (hres hflow) hf
  · exact hends.elim
  · exact hends.elim

theorem KRule.step {C : Kernel → KEvent → Prop} {I J : Kernel → Prop}
    (h : KRule C (fun _ => True) (fun _ => True) I J) {k k' : Kernel} {e : KEvent} (hJ : J k)
    (hC : C k e) (hs : KStep k e k') : J k' :=
  kstep_rule (fun k r m => h.user k r m trivial) (fun k n => h.switch k n trivial)
    (fun k x k' => h.pending k x k' trivial) (fun k prev => h.jump k prev trivial)
    (fun hfits => h.call k e trivial hJ hfits hC) hs

theorem KRule.run {C : Kernel → KEvent → Prop} {I J : Kernel → Prop}
    (h : KRule C (fun _ => True) (fun _ => True) I J) {evs : List KEvent} {k : Kernel}
    (hrun : KRunOf C evs k) : J k :=
  Run.invariant J h.boot (fun _ _ _ hJ hs => h.step hJ hs.1 hs.2) hrun

theorem KRule.and {C : Kernel → KEvent → Prop} {I0 J0 I J : Kernel → Prop}
    (h0 : KRule C (fun _ => True) (fun _ => True) I0 J0) (h : KRule C I0 J0 I J) :
    KRule C (fun _ => True) (fun _ => True) (fun k => I0 k ∧ I k) (fun k => J0 k ∧ J k) where
  boot k hk := ⟨h0.boot k hk, h.boot k hk⟩
  user k r m _ hJ := ⟨h0.user k r m trivial hJ.1, h.user k r m hJ.1 hJ.2⟩
  call k e _ hJ hfits hC := (h0.call k e trivial hJ.1 hfits hC).and (h.call k e hJ.1 hJ.2 hfits hC)
  switch k n _ hI hp := ⟨h0.switch k n trivial hI.1 hp, h.switch k n hI.1 hI.2 hp⟩
  pending k x k' _ hJ hf := (h0.pending k x k' trivial hJ.1 hf).and (h.pending k x k' hJ.1 hJ.2 hf)
  jump k prev _ hJ := ⟨h0.jump k prev trivial hJ.1, h.jump k prev hJ.1 hJ.2⟩

theorem KRule.weaken {C C' : Kernel → KEvent → Prop} {I0 J0 I J : Kernel → Prop}
    (h : KRule C I0 J0 I J) (hC : ∀ k e, C' k e → C k e) : KRule C' I0 J0 I J :=
  ⟨h.boot, h.user, fun k e h0 hJ hf hc => h.call k e h0 hJ hf (hC k e hc), h.switch, h.pending,
    h.jump⟩

/-! A machine whose memory was zero when it booted, for the runs that are shown below. -/

def zeroRegs : Regs := ⟨0, 0, 0, 0, 0, 0, 0, 0, 0, 0, 0, 0, 0, 0, 0, 0⟩

def zeroMem : Mem := fun _ => 0

def zeroTask : KTask := ⟨.TASK_STARTING, 0, 0, 0, zeroRegs, none, fun _ => ⟨0, 0, 0, 0⟩, 0, 0, 0⟩

def zeroBoot : Kernel := bootKernel zeroTask (fun _ => zeroMem) 0

theorem zeroBoot_boot : KBoot zeroBoot := ⟨zeroTask, fun _ => zeroMem, 0, rfl⟩

def zeroSig (number : ℤ) : Sig := ⟨number, 0, 0, 0, 0, 0, 0, 0, 0⟩

/-- `process_spawn` on that machine. -/
def zeroSpawn (parent : Option ℕ) : KEvent := .spawn parent zeroTask zeroRegs zeroMem

/-- A program with a handler at 64 that asks for a mask. -/
def handlerImage (mask : SigMask) : Mem :=
  storeWords zeroMem 64 (Kernel.handlerWords ⟨100, 0, 0, mask⟩)

/-! Runs that can be computed. -/

/-- `KStep` as a function; every `reschedule` gets the fuel. -/
def execStep (fuel : ℕ) (k : Kernel) (e : KEvent) : Option Kernel :=
  if e.Fits k then
    match kernelCall k e with
    | (k', .ret none) => some k'
    | (k', .ret (some v)) => some (k'.sysRet v)
    | (k', .resched) => k'.reschedule fuel
    | (_, .panic) => none
    | (_, .wild) => none
  else none

theorem execStep_sound {fuel : ℕ} {k k' : Kernel} {e : KEvent}
    (h : execStep fuel k e = some k') : KStep k e k' := by
  unfold execStep at h
  split_ifs at h with hf
  refine ⟨hf, ?_⟩
  rcases hc : kernelCall k e with ⟨k1, (_ | v) | _ | _ | _⟩ <;> rw [hc] at h
  · exact (Option.some.inj h).symm
  · exact (Option.some.inj h).symm
  · exact ⟨fuel, h⟩
  · cases h
  · cases h

/-- A run on which `c` holds at every step. -/
def execRun (fuel : ℕ) (c : Kernel → KEvent → Bool) : Kernel → List KEvent → Option Kernel
  | k, [] => some k
  | k, e :: evs => if c k e then (execStep fuel k e).bind (execRun fuel c · evs) else none

theorem execRun_sound {C : Kernel → KEvent → Prop} {c : Kernel → KEvent → Bool} {fuel : ℕ}
    (hc : ∀ k e, c k e = true → C k e) {evs : List KEvent} :
    ∀ {pre : List KEvent} {k k' : Kernel}, KRunOf C pre k → execRun fuel c k evs = some k' →
      KRunOf C (pre ++ evs) k' := by
  induction evs with
  | nil =>
    intro pre k k' hrun h
    rw [List.append_nil, ← Option.some.inj h]
    exact hrun
  | cons e evs ih =>
    intro pre k k' hrun h
    rw [execRun] at h
    split_ifs at h with hce
    obtain ⟨k1, hstep, hrest⟩ := Option.bind_eq_some_iff.1 h
    have hrun1 := hrun.snoc ⟨hc k e hce, execStep_sound hstep⟩
    rw [List.append_cons]
    exact ih hrun1 hrest

theorem zero_runOf {α : Type} {C : Kernel → KEvent → Prop} {c : Kernel → KEvent → Bool}
    (hc : ∀ k e, c k e = true → C k e) (fuel : ℕ) (evs : List KEvent) (f : Kernel → α) {v : α}
    (h : (execRun fuel c zeroBoot evs).map f = some v) : ∃ k, KRunOf C evs k ∧ f k = v := by
  obtain ⟨k, hk, hv⟩ := Option.map_eq_some_iff.1 h
  exact ⟨k, execRun_sound hc (Run.nil zeroBoot_boot) hk, hv⟩

theorem zero_run {α : Type} (fuel : ℕ) (evs : List KEvent) (f : Kernel → α) {v : α}
    (h : (execRun fuel (fun _ _ => true) zeroBoot evs).map f = some v) :
    ∃ k, KRun evs k ∧ f k = v := by
  obtain ⟨k, hrun, hv⟩ := zero_runOf (C := fun _ _ => True) (fun _ _ _ => trivial) fuel evs f h
  exact ⟨k, Run.mono (fun _ _ _ hs => hs.2) hrun, hv⟩

end DepthOS
