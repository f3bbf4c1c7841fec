import DepthOS.Lib.Cycle
import DepthOS.Lib.Run
import DepthOS.Spec.List

/-! `kernel/sched.c`: the task list, `pick_next_task` and `reschedule`, and runs of
them. Tasks and list entries live in stores indexed by address. Whatever is freed
is overwritten with arbitrary contents, so that a pointer to it would show. -/

namespace DepthOS

open Lib

inductive TaskState where
  | TASK_STARTING
  | TASK_RUNNING
  | TASK_SUSPENDED
  | TASK_SLEEPING
  | TASK_DYING
deriving DecidableEq

/-- `struct task`, as far as the scheduler reads it. -/
structure SchedTask where
  state : TaskState
  wakeTime : ℕ
  schedEntry : ℕ

structure SchedState where
  entries : Entries
  tasklist : DList
  tasks : ℕ → SchedTask
  currentEntry : ℕ
  currentTask : ℕ
  pitTicks : ℕ

def setTaskState (tasks : ℕ → SchedTask) (t : ℕ) (st : TaskState) : ℕ → SchedTask :=
  Function.update tasks t { tasks t with state := st }

/-- `entry` is the block `kmalloc` gave. -/
def schedAdd (s : SchedState) (task entry : ℕ) : SchedState :=
  let r := listPush s.entries s.tasklist task entry
  { s with
    entries := r.1
    tasklist := r.2
    tasks := Function.update s.tasks task
      { s.tasks task with state := .TASK_STARTING, schedEntry := entry } }

/-- What the heap writes into the blocks that `thread_destroy` frees. -/
structure Trash where
  entry : ListEntry
  task : SchedTask

def schedRemove (s : SchedState) (task : ℕ) (trash : ListEntry) : SchedState :=
  let entry := (s.tasks task).schedEntry
  let r := listRemove s.entries s.tasklist entry
  { s with
    entries := Function.update r.1 entry trash
    tasklist := r.2
    tasks := Function.update s.tasks task { s.tasks task with schedEntry := 0 } }

def threadDestroy (s : SchedState) (thread : ℕ) (trash : Trash) : SchedState :=
  let s := schedRemove s thread trash.entry
  { s with tasks := Function.update s.tasks thread trash.task }

/-- Every pass of the `retry` loop takes one unit of fuel. -/
def pickLoop (s : SchedState) : ℕ → ℕ → Option (ℕ × SchedState)
  | 0, _ => none
  | fuel + 1, current =>
    let current := (s.entries current).next
    let current := if current = 0 then s.tasklist.first else current
    let task := (s.entries current).value
    if (s.tasks task).state = .TASK_SLEEPING ∧ (s.tasks task).wakeTime ≤ s.pitTicks then
      some (current, { s with tasks := setTaskState s.tasks task .TASK_RUNNING })
    else if (s.tasks task).state = .TASK_SLEEPING then pickLoop s fuel current
    else some (current, s)

def pickNextTask (fuel : ℕ) (s : SchedState) : Option (ℕ × SchedState) :=
  pickLoop s fuel s.currentEntry

/-- `reschedule` with preemption enabled, down to the `current_task = t` of
`reschedule_to`. -/
def reschedule (fuel : ℕ) (s : SchedState) (trash : Trash) : Option SchedState :=
  match pickNextTask fuel s with
  | none => none
  | some (next, s) =>
    let s := if (s.tasks s.currentTask).state = .TASK_DYING
      then threadDestroy s s.currentTask trash else s
    some { s with currentEntry := next, currentTask := (s.entries next).value }

/-- The idle task alone in the list, and current. -/
def schedInit (entries : Entries) (tasks : ℕ → SchedTask) (idle entry pitTicks : ℕ) : SchedState :=
  let s := schedAdd ⟨entries, listInit, tasks, 0, 0, pitTicks⟩ idle entry
  { s with currentEntry := s.tasklist.first
           currentTask := (s.entries s.tasklist.first).value }

inductive SchedEvent where
  | add (task entry : ℕ)
  | destroy (task : ℕ) (trash : Trash)
  | setState (task : ℕ) (state : TaskState) (wakeTime : ℕ)
  | tick
  | reschedule (trash : Trash)

/-- The entries of `tasklist`, in order. -/
def Scheduled (s : SchedState) (es : List ℕ) : Prop :=
  Chain (fun x => (s.entries x).next) s.tasklist.first es

/-- The task is in the list. -/
def InTasklist (s : SchedState) (task : ℕ) : Prop :=
  ∃ es, Scheduled s es ∧ ∃ e ∈ es, (s.entries e).value = task

/-- A state change: to or from sleeping, or the death of the current task. -/
def StateChange (s : SchedState) (task : ℕ) (state : TaskState) : Prop :=
  (state = .TASK_SLEEPING ∨ (s.tasks task).state = .TASK_SLEEPING ∧ state ≠ .TASK_DYING) ∨
    task = s.currentTask ∧ state = .TASK_DYING

/-- `sched_add` gets a task that is not in the list and an entry that is not in use;
the idle task is never destroyed, put to sleep or killed. -/
def SchedStep (idle : ℕ) (s : SchedState) (e : SchedEvent) (s' : SchedState) : Prop :=
  match e with
  | .add task entry =>
    ¬ InTasklist s task ∧ entry ≠ 0 ∧ (∀ es, Scheduled s es → entry ∉ es) ∧
      s' = schedAdd s task entry
  | .destroy task trash =>
    InTasklist s task ∧ task ≠ s.currentTask ∧ task ≠ idle ∧ s' = threadDestroy s task trash
  | .setState task state wakeTime =>
    task ≠ idle ∧ StateChange s task state ∧
      s' = { s with tasks := Function.update s.tasks task
                      { s.tasks task with state := state, wakeTime := wakeTime } }
  | .tick => s' = { s with pitTicks := u32 (s.pitTicks + 1) }
  | .reschedule trash => ∃ fuel, reschedule fuel s trash = some s'

def SchedBoot (idle : ℕ) (s : SchedState) : Prop :=
  ∃ entries tasks entry pitTicks, entry ≠ 0 ∧ s = schedInit entries tasks idle entry pitTicks

def SchedRun (idle : ℕ) : List SchedEvent → SchedState → Prop :=
  Run (SchedBoot idle) (SchedStep idle)

/-- The entry's task is asleep and not due. -/
def blockedAt (s : SchedState) (e : ℕ) : Bool :=
  (s.tasks (s.entries e).value).state = .TASK_SLEEPING ∧
    s.pitTicks < (s.tasks (s.entries e).value).wakeTime

/-- The state with the task of entry `e` awake. -/
def wakeAt (s : SchedState) (e : ℕ) : SchedState :=
  if (s.tasks (s.entries e).value).state = .TASK_SLEEPING then
    { s with tasks := setTaskState s.tasks (s.entries e).value .TASK_RUNNING }
  else s

end DepthOS
