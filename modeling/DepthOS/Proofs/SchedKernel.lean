import DepthOS.Proofs.Sched
import DepthOS.Sanity.Kernel
import Mathlib.Data.List.Find

/-! The two levels of the scheduler. The kernel keeps the task list as the sequence of
its tasks; `sched.c` keeps it as linked entries with a pointer to the current one. The
calls on the entries do to that sequence what the kernel says they do, so every run of
the scheduler is a run on sequences. -/

namespace DepthOS

open Lib

/-- The scheduler sees the same in both tasks; it reads the wake time of a sleeping task
only. -/
def SameWait (a : KTask) (b : SchedTask) : Prop :=
  a.state = b.state ∧ (a.state = .TASK_SLEEPING → a.wakeTime = b.wakeTime)

/-- `s` holds the scheduler's part of `k`, its list being the entries `es`. -/
structure Represents (s : SchedState) (k : Kernel) (es : List ℕ) : Prop where
  inv : SchedInv IDLE_TASK s es
  tasklist : k.tasklist = es.map fun e => (s.entries e).value
  current : k.current = s.currentTask
  pitTicks : k.pitTicks = s.pitTicks
  tasks : ∀ t ∈ k.tasklist, SameWait (k.tasks t) (s.tasks t)

/-- The events of the scheduler on the kernel's task list. -/
def ListStep (k : Kernel) (e : SchedEvent) (k' : Kernel) : Prop :=
  match e with
  | .add task _ => k' = k.schedAdd task
  | .destroy task _ => k' = k.threadDestroy task
  | .setState task state wakeTime =>
    k' = k.setTask task fun t => { t with state := state, wakeTime := wakeTime }
  | .tick => k' = { k with pitTicks := u32 (k.pitTicks + 1) }
  | .reschedule _ => ∃ n, k.pick = some n ∧ k' = k.switchTo n

section Represents

variable {s : SchedState} {k : Kernel} {es : List ℕ} {e : ℕ}

theorem Represents.value_mem (h : Represents s k es) (he : e ∈ es) :
    (s.entries e).value ∈ k.tasklist := by
  rw [h.tasklist]
  exact List.mem_map.2 ⟨e, he, rfl⟩

theorem represents_boot (entries : Entries) (tasks : ℕ → SchedTask) (pitTicks : ℕ) (he : e ≠ 0) :
    ∃ k, KBoot k ∧ Represents (schedInit entries tasks IDLE_TASK e pitTicks) k [e] := by
  let s0 : SchedState := ⟨entries, listInit, tasks, 0, 0, pitTicks⟩
  have hinv : SchedInv IDLE_TASK (schedInit entries tasks IDLE_TASK e pitTicks) [e] :=
    schedInv_boot entries tasks pitTicks he
  have hval : ((schedAdd s0 IDLE_TASK e).entries e).value = IDLE_TASK :=
    (schedAdd_fields s0 IDLE_TASK he).2
  have hcur := hinv.current_value
  rw [List.mem_singleton.1 hinv.current_mem] at hcur
  refine ⟨bootKernel zeroTask (fun _ => zeroMem) pitTicks, ⟨_, _, _, rfl⟩, hinv, ?_,
    hval.symm.trans hcur, rfl, fun t ht => ?_⟩
  · exact congrArg (fun t => [t]) hval.symm
  · rw [List.mem_singleton.1 ht]
    simp [SameWait, bootKernel, schedInit, schedAdd]

theorem represents_schedAdd (h : Represents s k es) {t : ℕ} (ht : ¬ InTasklist s t) (he : e ≠ 0)
    (hnew : e ∉ es) : Represents (schedAdd s t e) (k.schedAdd t) (es ++ [e]) := by
  obtain ⟨hval, hentry⟩ := schedAdd_fields s t he
  refine ⟨schedInv_add h.inv ht he hnew, ?_, h.current, h.pitTicks, ?_⟩
  · have hold : (es.map fun x => (s.entries x).value) =
        es.map fun x => ((schedAdd s t e).entries x).value :=
      List.map_congr_left fun x hx => (hval x fun hxe => hnew (hxe ▸ hx)).symm
    calc (k.schedAdd t).tasklist = k.tasklist ++ [t] := rfl
      _ = _ := by rw [h.tasklist, hold, List.map_append, List.map_singleton, hentry]
  · intro x hx
    simp only [Kernel.schedAdd, Kernel.setState, Kernel.setTask, schedAdd, Function.update_apply]
    split_ifs with hxt
    · exact ⟨rfl, fun hsl => absurd (show TaskState.TASK_STARTING = .TASK_SLEEPING from hsl)
        (by decide)⟩
    · exact h.tasks x ((List.mem_append.1 hx).resolve_right fun hx => hxt (List.mem_singleton.1 hx))

theorem represents_destroy (h : Represents s k es) (he : e ∈ es) (hcur : e ≠ s.currentEntry)
    (hidle : (s.entries e).value ≠ IDLE_TASK) (trash : Trash) :
    Represents (threadDestroy s (s.entries e).value trash) (k.threadDestroy (s.entries e).value)
      (es.erase e) := by
  obtain ⟨-, hval⟩ := threadDestroy_rep h.inv he trash
  have hnd := h.inv.rep.nodup
  have hlist : (k.threadDestroy (s.entries e).value).tasklist =
      (es.erase e).map fun x => (s.entries x).value := by
    rw [map_erase_of_mem he fun x hx hv => h.inv.value_inj hx he hv, ← h.tasklist]
    rfl
  refine ⟨schedInv_destroy h.inv he hcur hidle trash, ?_, h.current, h.pitTicks, ?_⟩
  · rw [hlist]
    exact List.map_congr_left fun x hx => (hval x (hnd.mem_erase_iff.1 hx).1).symm
  · intro t ht
    rw [hlist] at ht
    obtain ⟨x, hx, rfl⟩ := List.mem_map.1 ht
    obtain ⟨hxe, hxes⟩ := hnd.mem_erase_iff.1 hx
    rw [threadDestroy_tasks s trash fun hv => hxe (h.inv.value_inj hxes he hv)]
    exact h.tasks _ (h.value_mem hxes)

theorem represents_setState (h : Represents s k es) {t : ℕ} (ht : t ≠ IDLE_TASK) (state : TaskState)
    (wakeTime : ℕ) :
    Represents { s with tasks := Function.update s.tasks t
                          { s.tasks t with state := state, wakeTime := wakeTime } }
      (k.setTask t fun task => { task with state := state, wakeTime := wakeTime }) es := by
  refine ⟨schedInv_setState h.inv ht state wakeTime, h.tasklist, h.current, h.pitTicks, ?_⟩
  intro x hx
  simp only [Kernel.setTask, Function.update_apply]
  split_ifs
  · exact ⟨rfl, fun _ => rfl⟩
  · exact h.tasks x hx

theorem represents_tick (h : Represents s k es) :
    Represents { s with pitTicks := u32 (s.pitTicks + 1) }
      { k with pitTicks := u32 (k.pitTicks + 1) } es :=
  ⟨⟨h.inv.rep, h.inv.current_mem, h.inv.current_value, h.inv.entry_of, h.inv.idle_mem,
    h.inv.idle_awake⟩, h.tasklist, h.current, congrArg (fun n => u32 (n + 1)) h.pitTicks, h.tasks⟩

/-! `reschedule`. -/

theorem Represents.pick (h : Represents s k es) :
    k.pick = ((cyclicAfter es s.currentEntry).find? fun e => !blockedAt s e).map
      fun e => (s.entries e).value := by
  have hcur : k.current = (s.entries s.currentEntry).value :=
    h.current.trans h.inv.current_value.symm
  unfold Kernel.pick
  rw [h.tasklist, hcur, cyclicAfter_map h.inv.current_mem
    fun x hx hv => h.inv.value_inj hx h.inv.current_mem hv, List.find?_map]
  refine congrArg _ (List.find?_congr fun x hx => ?_)
  obtain ⟨hst, hwt⟩ := h.tasks _ (h.value_mem (mem_cyclicAfter.1 hx))
  simp only [Function.comp_apply, blockedAt, h.pitTicks, ← hst]
  by_cases hsleep : (k.tasks (s.entries x).value).state = .TASK_SLEEPING
  · rw [hwt hsleep]
  · simp only [hsleep, false_and]

theorem represents_wake (h : Represents s k es) (he : e ∈ es) :
    Represents (wakeAt s e) (k.wake (s.entries e).value) es := by
  have hinv := schedInv_wake h.inv e
  unfold wakeAt at hinv ⊢
  unfold Kernel.wake
  rw [(h.tasks _ (h.value_mem he)).1]
  split_ifs at hinv ⊢ with hsleep
  · refine ⟨hinv, h.tasklist, h.current, h.pitTicks, fun t ht => ?_⟩
    simp only [Kernel.setState, Kernel.setTask, setTaskState, Function.update_apply]
    split_ifs
    · exact ⟨rfl, fun hsl => absurd (show TaskState.TASK_RUNNING = .TASK_SLEEPING from hsl)
        (by decide)⟩
    · exact h.tasks t ht
  · exact h

theorem represents_currentAt (h : Represents s k es) (he : e ∈ es) :
    Represents (currentAt s e) { k with current := (s.entries e).value } es :=
  ⟨schedInv_currentAt h.inv he, h.tasklist, rfl, h.pitTicks, h.tasks⟩

theorem represents_switch (h : Represents s k es)
    (he : (cyclicAfter es s.currentEntry).find? (fun e => !blockedAt s e) = some e)
    (trash : Trash) :
    ∃ es', Represents (switchAt s e trash) (k.switchTo (s.entries e).value) es' := by
  have hmem : e ∈ es := mem_cyclicAfter.1 (List.mem_of_find?_eq_some he)
  have hent : (wakeAt s e).entries = s.entries := (wakeAt_rest s e).1
  have hw := represents_wake h hmem
  have hsw := represents_currentAt hw hmem
  rw [hent] at hsw
  have hcur : (k.wake (s.entries e).value).current = s.currentTask :=
    hw.current.trans (wakeAt_rest s e).2.2.2.1
  have hstate : (k.wake (s.entries e).value).currentTask.state =
      ((wakeAt s e).tasks s.currentTask).state := by
    have hin := hw.value_mem h.inv.current_mem
    rw [hent, h.inv.current_value] at hin
    rw [Kernel.currentTask, hcur]
    exact (hw.tasks _ hin).1
  unfold Kernel.switchTo
  dsimp only
  by_cases hdying : (s.tasks s.currentTask).state = .TASK_DYING
  · obtain ⟨hne, hidle⟩ := picked_of_dying h.inv he hdying
    have hv : ((currentAt (wakeAt s e) e).entries s.currentEntry).value = s.currentTask := by
      rw [← h.inv.current_value, ← hent]
      rfl
    rw [if_pos (hstate.trans ((wakeAt_dying s e _).2 hdying)), hcur,
      switchAt_dying h.inv he trash hdying, ← hv]
    exact ⟨_, represents_destroy hsw h.inv.current_mem hne.symm (hv ▸ hidle) trash⟩
  · have hd : (k.wake (s.entries e).value).currentTask.state ≠ .TASK_DYING := by
      rw [hstate]
      exact fun hd => hdying ((wakeAt_dying s e _).1 hd)
    rw [if_neg hd, switchAt_alive s e trash hdying]
    exact ⟨es, hsw⟩

end Represents

theorem represents_step (s : SchedState) (e : SchedEvent) (s' : SchedState) (k : Kernel)
    (h : ∃ es, Represents s k es) (hstep : SchedStep IDLE_TASK s e s') :
    ∃ k', ListStep k e k' ∧ ∃ es', Represents s' k' es' := by
  obtain ⟨es, h⟩ := h
  cases e with
  | add task entry =>
    obtain ⟨htask, h0, hnew, rfl⟩ := hstep
    exact ⟨_, rfl, _, represents_schedAdd h htask h0 (hnew es h.inv.scheduled)⟩
  | destroy task trash =>
    obtain ⟨⟨es', hes', e, he, rfl⟩, hcur, hidle, rfl⟩ := hstep
    obtain rfl := h.inv.unique hes'
    refine ⟨_, rfl, _, represents_destroy h he ?_ hidle trash⟩
    rintro rfl
    exact hcur h.inv.current_value
  | setState task state wakeTime =>
    obtain ⟨hne, -, rfl⟩ := hstep
    exact ⟨_, rfl, es, represents_setState h hne state wakeTime⟩
  | tick =>
    subst hstep
    exact ⟨_, rfl, es, represents_tick h⟩
  | reschedule trash =>
    obtain ⟨fuel, hr⟩ := hstep
    obtain ⟨e, he, rfl⟩ := reschedule_picked h.inv hr
    obtain ⟨es', hrep⟩ := represents_switch h he trash
    have hpick : k.pick = some (s.entries e).value := by
      rw [h.pick, he]
      rfl
    exact ⟨_, ⟨_, hpick, rfl⟩, es', hrep⟩

/-- Every run of the scheduler on linked entries is a run on the kernel's task list, with the
same tasks in the same order, the same one current, at its end. -/
theorem sched_run_represents {evs : List SchedEvent} {s : SchedState}
    (hrun : SchedRun IDLE_TASK evs s) :
    ∃ k, Run KBoot ListStep evs k ∧ ∃ es, Represents s k es := by
  refine Run.simulation (fun s k => ∃ es, Represents s k es) ?_ represents_step hrun
  rintro s ⟨entries, tasks, entry, pitTicks, h0, rfl⟩
  obtain ⟨k, hk, hrep⟩ := represents_boot entries tasks pitTicks h0
  exact ⟨k, hk, [entry], hrep⟩

end DepthOS
