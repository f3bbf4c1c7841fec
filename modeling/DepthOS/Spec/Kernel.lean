import DepthOS.Spec.Sched
import DepthOS.Spec.Signal

/-! Processes, threads and signals over the scheduler: `kernel/proc.c`,
`kernel/signal.c` and `kernel/sched.c` as one machine. A heap object is named by a
number that is never used again, so a freed object can still be told from a new one;
0 is NULL. Lists are the sequences they hold. Names, file tables and memory areas are
left out. -/

namespace DepthOS

open Lib

inductive ProcessState where
  | PROCESS_STARTING
  | PROCESS_RUNNING
  | PROCESS_SUSPENDED
  | PROCESS_EXITED
  | PROCESS_DEAD
deriving DecidableEq

/-- `struct task` -/
structure KTask where
  state : TaskState
  thid : ℤ
  wakeTime : ℕ
  pgd : ℕ
  regs : Regs
  process : Option ℕ
  /-- the array has `NSIG` elements; what is read at `NSIG` lies behind it -/
  signalHandlers : ℕ → SigHandler
  signalMask : SigMask
  signalMaskCurrent : SigMask
  signalQueue : ℕ

/-- `struct process` -/
structure Process where
  pid : ℤ
  state : ProcessState
  exitCode : Word
  signal : ℤ
  parent : Option ℕ
  children : List ℕ
  threads : List ℕ

/-- A queued signal, with the number of the `signal_send` it comes from. -/
structure Pending where
  sig : Sig
  id : ℕ

/-- A jump to a task at the end of `reschedule_to`. -/
structure Switch where
  prev : ℕ
  task : ℕ
  state : TaskState

structure Kernel where
  tasks : ℕ → KTask
  procs : ℕ → Process
  queues : ℕ → List Pending
  /-- user memory, by page directory -/
  mem : ℕ → Mem
  tasklist : List ℕ
  current : ℕ
  pitTicks : ℕ
  currentPid : ℤ
  freePid : List ℤ
  /-- the next heap object -/
  next : ℕ
  /-- processes created and not deleted -/
  live : List ℕ
  /-- page directories passed to `kfree` -/
  freed : List ℕ
  /-- targets of the signals that `signal_send` accepted -/
  sent : List ℕ
  /-- signals handed to `signal_exec`, by number, with the task -/
  handed : List (ℕ × ℕ)
  /-- processes passed to `process_kill`, with their threads then -/
  killed : List (ℕ × List ℕ)
  switches : List Switch

abbrev KERNEL_PGD : ℕ := 1
abbrev IDLE_TASK : ℕ := 2
abbrev SIGNAL_MAX_QUEUE_SIZE : ℕ := 1024

/-- How a call ends: it returns, or it goes into `reschedule` and never comes back, or the
kernel panics, or it follows a pointer that was never set. -/
inductive Flow (α : Type) where
  | ret (v : α)
  | resched
  | panic
  | wild

def Flow.map {α β : Type} (f : α → β) : Flow α → Flow β
  | .ret v => .ret (f v)
  | .resched => .resched
  | .panic => .panic
  | .wild => .wild

namespace Kernel

def setTask (k : Kernel) (t : ℕ) (f : KTask → KTask) : Kernel :=
  { k with tasks := Function.update k.tasks t (f (k.tasks t)) }

def setProc (k : Kernel) (p : ℕ) (f : Process → Process) : Kernel :=
  { k with procs := Function.update k.procs p (f (k.procs p)) }

def setState (k : Kernel) (t : ℕ) (st : TaskState) : Kernel :=
  k.setTask t fun task => { task with state := st }

def currentTask (k : Kernel) : KTask := k.tasks k.current

/-! Scheduler list. -/

def schedAdd (k : Kernel) (t : ℕ) : Kernel :=
  { k.setState t .TASK_STARTING with tasklist := k.tasklist ++ [t] }

/-- For a task in the list: the `sched_entry` of any other was never set. -/
def threadDestroy (k : Kernel) (t : ℕ) : Kernel :=
  { k with tasklist := k.tasklist.erase t, freed := (k.tasks t).pgd :: k.freed }

/-! Signals. -/

def killThread (r : Kernel × Bool) (t : ℕ) : Kernel × Bool :=
  if t = r.1.current then (r.1.setState t .TASK_DYING, r.2)
  else (r.1.threadDestroy t, r.2 || t ∉ r.1.tasklist)

def processKill (k : Kernel) (p : ℕ) : Kernel × Flow Unit :=
  let threads := (k.procs p).threads
  let r := threads.foldl killThread ({ k with killed := (p, threads) :: k.killed }, false)
  if r.2 then (r.1, .wild)
  else if (r.1.procs p).parent = none then (r.1, .panic)
  else if r.1.currentTask.process = some p then (r.1, .resched)
  else (r.1, .ret ())

def killWithSignal (k : Kernel) (t : ℕ) (number : ℤ) : Kernel × Flow Unit :=
  match (k.tasks t).process with
  | some p =>
    (k.setProc p fun proc => { proc with state := .PROCESS_DEAD, signal := number }).processKill p
  | none =>
    let k := k.setState t .TASK_DYING
    if t = k.current then (k, .resched) else (k, .ret ())

def defaultSignalHandler (k : Kernel) (t : ℕ) (s : Sig) : Kernel × Flow Unit :=
  if s.number = SIGCHLD ∨ s.number = SIGURG ∨ s.number = SIGWINCH then (k, .ret ())
  else k.killWithSignal t s.number

/-- The handler frame, for a task with a handler of its own. -/
def deliver (k : Kernel) (t : ℕ) (s : Sig) (h : SigHandler) : Kernel :=
  let task := k.tasks t
  let d := sigDeliver task.regs (k.mem task.pgd) task.signalMask h s
  { k.setTask t fun task =>
      { task with regs := d.regs, signalMaskCurrent := h.mask ||| sigBit s.number.toNat } with
    mem := Function.update k.mem task.pgd d.mem }

def signalExec (k : Kernel) (t : ℕ) (s : Sig) : Kernel × Flow Unit :=
  if (k.tasks t).pgd = KERNEL_PGD then (k, .ret ())
  else if s.number = SIGKILL then k.killWithSignal t s.number
  else if s.number = SIGSTOP then (k.setState t .TASK_SUSPENDED, .ret ())
  else
    let h := (k.tasks t).signalHandlers s.number.toNat
    if h.entry = SIGNAL_DEFAULT_ACTION then k.defaultSignalHandler t s
    else if h.entry = SIGNAL_IGNORE_ACTION then (k, .ret ())
    else (k.deliver t s h, .ret ())

def blocked (k : Kernel) (t : ℕ) (number : ℤ) : Bool :=
  (k.tasks t).signalMaskCurrent &&& sigBit number.toNat ≠ 0 ∨
    (k.tasks t).signalMask &&& sigBit number.toNat ≠ 0

def signalFetch (k : Kernel) (t : ℕ) : Option (Pending × Kernel) :=
  let q := (k.tasks t).signalQueue
  match (k.queues q).find? fun x => !k.blocked t x.sig.number with
  | none => none
  | some x => some (x, { k with
      queues := Function.update k.queues q ((k.queues q).eraseP fun x => !k.blocked t x.sig.number) })

/-- A signal goes to `signal_exec`. -/
def hand (k : Kernel) (id t : ℕ) : Kernel := { k with handed := (id, t) :: k.handed }

def enqueue (k : Kernel) (t : ℕ) (x : Pending) : Kernel :=
  { k with queues := Function.update k.queues (k.tasks t).signalQueue
                       (k.queues (k.tasks t).signalQueue ++ [x]) }

def signalSend (k : Kernel) (t : ℕ) (s : Sig) : Kernel × Flow Unit :=
  if s.number > NSIG ∨ s.number < 1 then (k, .ret ())
  else
    let id := k.sent.length
    let k := { k with sent := k.sent ++ [t] }
    if k.blocked t s.number then
      if (k.queues (k.tasks t).signalQueue).length = SIGNAL_MAX_QUEUE_SIZE then (k, .panic)
      else (k.enqueue t ⟨s, id⟩, .ret ())
    else (k.hand id t).signalExec t s

/-! `reschedule`, with preemption enabled as it is from the first run of the idle task
on. -/

def pick (k : Kernel) : Option ℕ :=
  (cyclicAfter k.tasklist k.current).find? fun t =>
    !((k.tasks t).state = .TASK_SLEEPING ∧ k.pitTicks < (k.tasks t).wakeTime : Bool)

def wake (k : Kernel) (t : ℕ) : Kernel :=
  if (k.tasks t).state = .TASK_SLEEPING then k.setState t .TASK_RUNNING else k

/-- `reschedule` after the pick, up to the assignment of `current_task`. -/
def switchTo (k : Kernel) (n : ℕ) : Kernel :=
  let k := k.wake n
  let k := if k.currentTask.state = .TASK_DYING then k.threadDestroy k.current else k
  { k with current := n }

def jump (k : Kernel) (prev : ℕ) : Kernel :=
  { k with switches := ⟨prev, k.current, k.currentTask.state⟩ :: k.switches }

/-- A pending signal that kills the task leads into `reschedule` once more: every time
takes one unit of fuel. -/
def reschedule : ℕ → Kernel → Option Kernel
  | 0, _ => none
  | fuel + 1, k =>
    match k.pick with
    | none => none
    | some n =>
      match (k.switchTo n).signalFetch n with
      | none => some ((k.switchTo n).jump k.current)
      | some (x, k') =>
        match (k'.hand x.id n).signalExec n x.sig with
        | (k', .ret _) => some (k'.jump k.current)
        | (k', .resched) => reschedule fuel k'
        | (_, .panic) => none
        | (_, .wild) => none

/-! Processes. -/

def generatePid (k : Kernel) : ℤ × Kernel :=
  match k.freePid with
  | pid :: rest => (pid, { k with freePid := rest })
  | [] => (k.currentPid, { k with currentPid := Int.bmod (k.currentPid + 1) (2 ^ 32) })

/-- `junk` is what the blocks held before. -/
def createDummyTask (k : Kernel) (junk : KTask) : ℕ × Kernel :=
  (k.next, { k with
    tasks := Function.update k.tasks k.next { junk with
      signalHandlers := fun n => if n < NSIG then ⟨0, 0, 0, 0⟩ else junk.signalHandlers n
      signalMask := 0
      signalMaskCurrent := 0
      signalQueue := k.next + 1 }
    queues := Function.update k.queues (k.next + 1) []
    next := k.next + 2 })

/-- A page directory with the user memory `image`. -/
def newPgd (k : Kernel) (image : Mem) : ℕ × Kernel :=
  (k.next, { k with mem := Function.update k.mem k.next image, next := k.next + 1 })

/-- The page directory of an ELF image replaces the one the task has. -/
def elfLoadf (k : Kernel) (t : ℕ) (image : Mem) : Kernel :=
  let k := if (k.tasks t).pgd ≠ 0 then { k with freed := (k.tasks t).pgd :: k.freed } else k
  let r := k.newPgd image
  r.2.setTask t fun task => { task with pgd := r.1 }

/-- The running process around a main thread, in its parent's list if it has one. -/
def newProcess (k : Kernel) (pid : ℤ) (parent : Option ℕ) (main : ℕ) : Kernel :=
  let p := k.next
  let k := { k with
    procs := Function.update k.procs p ⟨pid, .PROCESS_RUNNING, 0, 0, parent, [], [main]⟩
    live := p :: k.live
    next := p + 1 }
  let k := k.setTask main fun task => { task with process := some p }
  match parent with
  | none => k
  | some q => k.setProc q fun proc => { proc with children := proc.children ++ [p] }

/-- `regs` and `image` are what the file and the arguments make of them. -/
def processSpawn (k : Kernel) (parent : Option ℕ) (junk : KTask) (regs : Regs) (image : Mem) :
    Kernel :=
  let g := k.generatePid
  let d := g.2.createDummyTask junk
  let k := d.2.setTask d.1 fun task => { task with thid := 0, regs := regs }
  let k := (k.elfLoadf d.1 image).schedAdd d.1
  k.newProcess g.1 parent d.1

/-- The child gets the parent's queue, not a copy of it. -/
def forkTask (k : Kernel) (parent : ℕ) (junk : KTask) : ℕ × Kernel :=
  let d := k.createDummyTask junk
  let r := d.2.newPgd (k.mem (k.tasks parent).pgd)
  let o := k.tasks parent
  (d.1, r.2.setTask d.1 fun task => { task with
    thid := o.thid
    pgd := r.1
    regs := { o.regs with eax := 0 }
    signalHandlers := fun n => if n < NSIG then o.signalHandlers n else task.signalHandlers n
    signalMask := o.signalMask
    signalMaskCurrent := o.signalMaskCurrent
    signalQueue := o.signalQueue })

def sysFork (k : Kernel) (junk : KTask) : Kernel × Flow ℤ :=
  match k.currentTask.process with
  | none => (k, .wild)
  | some parent =>
    let f := k.forkTask k.current junk
    let g := f.2.generatePid
    (((g.2.newProcess g.1 (some parent) f.1).schedAdd f.1), .ret g.1)

/-- `thread_create`: the page directory is the caller's. -/
def sysThcreate (k : Kernel) (join : Bool) (junk : KTask) (regs : Regs) : Kernel × Flow ℤ :=
  match k.currentTask.process with
  | none => (k, .ret (-1))
  | some p =>
    match (k.procs p).threads.getLast? with
    | none => (k, .wild)
    | some last =>
      let d := k.createDummyTask junk
      let thid := (k.tasks last).thid + 1
      let k := d.2.setTask d.1 fun task =>
        { task with thid := thid, pgd := k.currentTask.pgd, regs := regs, process := some p }
      let k := k.setProc p fun proc => { proc with threads := proc.threads ++ [d.1] }
      (if join then k else k.schedAdd d.1, .ret thid)

/-- The loop of `sys_thkill` over the threads still to come; nothing is returned at the
end of it, so `ret` is whatever is in the register. -/
def thkillLoop (p : ℕ) (thid ret : ℤ) : List ℕ → Kernel → Kernel × Flow ℤ
  | [], k => (k, .ret ret)
  | t :: rest, k =>
    if (k.tasks t).thid = thid then
      let k := k.setProc p fun proc => { proc with threads := proc.threads.erase t }
      if k.currentTask.thid = thid then (k.setState k.current .TASK_DYING, .resched)
      else if t ∉ k.tasklist then (k, .wild)
      else thkillLoop p thid ret rest (k.threadDestroy t)
    else thkillLoop p thid ret rest k

def sysThkill (k : Kernel) (thid ret : ℤ) : Kernel × Flow ℤ :=
  match k.currentTask.process with
  | none => (k, .ret (-1))
  | some p =>
    if (k.procs p).threads.length = 1 then
      let r := k.processKill p
      (r.1, r.2.map fun _ => ret)
    else thkillLoop p thid ret (k.procs p).threads k

def sysExit (k : Kernel) (status : Word) : Kernel × Flow ℤ :=
  match k.currentTask.process with
  | none => (k.setState k.current .TASK_DYING, .resched)
  | some p =>
    let r := (k.setProc p fun proc =>
      { proc with state := .PROCESS_EXITED, exitCode := status }).processKill p
    (r.1, r.2.map fun _ => 0)

def finished (k : Kernel) (p : ℕ) : Bool :=
  (k.procs p).state = .PROCESS_EXITED ∨ (k.procs p).state = .PROCESS_DEAD

/-- `process_delete` of a child of `parent`. -/
def processDelete (k : Kernel) (p parent : ℕ) : Kernel :=
  { k.setProc parent fun proc => { proc with children := proc.children.erase p } with
    freePid := k.freePid ++ [(k.procs p).pid]
    live := k.live.erase p }

/-- `WAIT_EXIT` and `WAIT_SIG` -/
def waitStatus (k : Kernel) (p : ℕ) : ℕ :=
  if (k.procs p).state = .PROCESS_EXITED then (k.procs p).exitCode.toNat % 256 * 256
  else ((k.procs p).signal % 128).toNat

/-- One pass of the loop of `sys_waitpid`; without a finished child it yields. -/
def sysWaitpid (k : Kernel) (pid : ℤ) (wstatus : ℕ) : Kernel × Flow ℤ :=
  if pid ≠ -1 then (k, .ret (-ENOSYS))
  else if wstatus = 0 then (k, .ret (-EFAULT))
  else
    match k.currentTask.process with
    | none => (k, .wild)
    | some q =>
      match (k.procs q).children.find? k.finished with
      | none => (k, .resched)
      | some child =>
        match (k.procs child).parent with
        | none => (k, .wild)
        | some parent =>
          let pgd := k.currentTask.pgd
          let m := store32 (k.mem pgd) wstatus (k.waitStatus child)
          (({ k with mem := Function.update k.mem pgd m }).processDelete child parent,
            .ret (k.procs child).pid)

def sysSleep (k : Kernel) (wakeTime : ℕ) : Kernel × Flow ℤ :=
  (k.setTask k.current fun task => { task with state := .TASK_SLEEPING, wakeTime := wakeTime },
    .resched)

/-- `struct signal_handler` in memory -/
def readHandler (m : Mem) (a : ℕ) : SigHandler :=
  ⟨loadWord m a 0, loadWord m a 1, loadWord m a 2, readMask m a 3⟩

def handlerWords (h : SigHandler) : List Word := [h.entry, h.restorer, h.flags] ++ maskWords h.mask

/-- The handler that `sigaction` installs, read after `*old` is written. -/
def sysSigaction (k : Kernel) (num : ℤ) (new old : ℕ) : Kernel × Flow ℤ :=
  if num < 1 ∨ num > NSIG then (k, .ret (-EINVAL))
  else if num = SIGKILL ∨ num = SIGSTOP then (k, .ret (-EINVAL))
  else
    let pgd := k.currentTask.pgd
    let m := if old = 0 then k.mem pgd
      else storeWords (k.mem pgd) old (handlerWords (k.currentTask.signalHandlers num.toNat))
    let k := { k with mem := Function.update k.mem pgd m }
    if new = 0 then (k, .ret 0)
    else (k.setTask k.current fun task => { task with
      signalHandlers := Function.update task.signalHandlers num.toNat (readHandler m new) }, .ret 0)

/-- `ret` is what the register holds when `sys_sigrestore` ends without a value. -/
def sigrestore (k : Kernel) (ctx : ℕ) (ret : ℤ) : Kernel × Flow ℤ :=
  let pgd := k.currentTask.pgd
  let r := sysSigrestore k.currentTask.regs (k.mem pgd) ctx
  (({ k with mem := Function.update k.mem pgd r.2.1 }).setTask k.current fun task =>
    { task with regs := r.1, signalMaskCurrent := r.2.2 }, .ret ret)

/-- `r->eax = ret` of `exec_syscall` -/
def sysRet (k : Kernel) (v : ℤ) : Kernel :=
  k.setTask k.current fun task => { task with regs := { task.regs with eax := BitVec.ofInt 32 v } }

end Kernel

inductive KEvent where
  | tick
  | yield
  /-- the current task computes in user mode -/
  | user (regs : Regs) (m : Mem)
  | spawn (parent : Option ℕ) (junk : KTask) (regs : Regs) (image : Mem)
  | fork (junk : KTask)
  | thcreate (join : Bool) (junk : KTask) (regs : Regs)
  | thkill (thid ret : ℤ)
  | exit (status : Word)
  | waitpid (pid : ℤ) (wstatus : ℕ)
  | sleep (wakeTime : ℕ)
  | sigaction (num : ℤ) (new old : ℕ)
  | sigrestore (ctx : ℕ) (ret : ℤ)
  | send (t : ℕ) (s : Sig)

/-- The call of an event and the value it returns to user mode, if any. -/
def kernelCall (k : Kernel) : KEvent → Kernel × Flow (Option ℤ)
  | .tick => ({ k with pitTicks := u32 (k.pitTicks + 1) }, .resched)
  | .yield => (k, .resched)
  | .user regs m =>
    ({ k.setTask k.current fun task => { task with regs := regs } with
       mem := Function.update k.mem k.currentTask.pgd m }, .ret none)
  | .spawn parent junk regs image => (k.processSpawn parent junk regs image, .ret none)
  | .fork junk => (k.sysFork junk).map id (Flow.map some)
  | .thcreate join junk regs => (k.sysThcreate join junk regs).map id (Flow.map some)
  | .thkill thid ret => (k.sysThkill thid ret).map id (Flow.map some)
  | .exit status => (k.sysExit status).map id (Flow.map some)
  | .waitpid pid wstatus => (k.sysWaitpid pid wstatus).map id (Flow.map some)
  | .sleep wakeTime => (k.sysSleep wakeTime).map id (Flow.map some)
  | .sigaction num new old => (k.sysSigaction num new old).map id (Flow.map some)
  | .sigrestore ctx ret => (k.sigrestore ctx ret).map id (Flow.map some)
  | .send t s => (k.signalSend t s).map id (Flow.map fun _ => none)

/-- The idle task makes no system calls and does not compute; a process is spawned for a
process that exists, and a signal is sent to a task that does. -/
def KEvent.Fits (k : Kernel) : KEvent → Prop
  | .tick => True
  | .yield => True
  | .spawn parent _ _ _ => ∀ q, parent = some q → q ∈ k.live
  | .send t _ => t ∈ k.tasklist
  | _ => k.current ≠ IDLE_TASK

/-- What becomes of a call. -/
def CallEnds (k : Kernel) (flow : Flow (Option ℤ)) (k' : Kernel) : Prop :=
  match flow with
  | .ret none => k' = k
  | .ret (some v) => k' = k.sysRet v
  | .resched => ∃ fuel, k.reschedule fuel = some k'
  | .panic => False
  | .wild => False

def KStep (k : Kernel) (e : KEvent) (k' : Kernel) : Prop :=
  e.Fits k ∧ CallEnds (kernelCall k e).1 (kernelCall k e).2 k'

/-- The idle task alone; `idle` gives what nobody sets. -/
def bootKernel (idle : KTask) (mem : ℕ → Mem) (pitTicks : ℕ) : Kernel where
  tasks := fun _ => { idle with
    state := .TASK_STARTING, thid := 0, pgd := KERNEL_PGD, process := none
    signalHandlers := fun n => if n < NSIG then ⟨0, 0, 0, 0⟩ else idle.signalHandlers n
    signalMask := 0, signalMaskCurrent := 0, signalQueue := 3 }
  procs := fun _ => ⟨0, .PROCESS_STARTING, 0, 0, none, [], []⟩
  queues := fun _ => []
  mem := mem
  tasklist := [IDLE_TASK]
  current := IDLE_TASK
  pitTicks := pitTicks
  currentPid := 0
  freePid := []
  next := 4
  live := []
  freed := []
  sent := []
  handed := []
  killed := []
  switches := []

def KBoot (k : Kernel) : Prop := ∃ idle mem pitTicks, k = bootKernel idle mem pitTicks

def KRun : List KEvent → Kernel → Prop := Run KBoot KStep

end DepthOS
