import DepthOS.Sanity.List
import DepthOS.Spec.Sched

/-! The task list as a ring: `current_entry` stays a member of it whatever is
added, destroyed, put to sleep or picked, and `pick_next_task` returns the next
member that is due. The idle task, always due, bounds the search and stands
between a dying task and itself. -/

namespace DepthOS

open Lib

/-- The invariant, with the entries of the list in order. -/
structure SchedInv (idle : ℕ) (s : SchedState) (es : List ℕ) : Prop where
  rep : ListRep s.entries s.tasklist es
  current_mem : s.currentEntry ∈ es
  current_value : (s.entries s.currentEntry).value = s.currentTask
  entry_of : ∀ e ∈ es, (s.tasks (s.entries e).value).schedEntry = e
  idle_mem : ∃ e ∈ es, (s.entries e).value = idle
  idle_awake : (s.tasks idle).state ≠ .TASK_SLEEPING ∧ (s.tasks idle).state ≠ .TASK_DYING

theorem SchedInv.scheduled {idle : ℕ} {s : SchedState} {es : List ℕ} (h : SchedInv idle s es) :
    Scheduled s es := h.rep.chain

theorem SchedInv.unique {idle : ℕ} {s : SchedState} {es es' : List ℕ} (h : SchedInv idle s es)
    (h' : Scheduled s es') : es' = es := Chain.unique h' h.scheduled

theorem SchedInv.value_inj {idle : ℕ} {s : SchedState} {es : List ℕ} (h : SchedInv idle s es)
    {e e' : ℕ} (he : e ∈ es) (he' : e' ∈ es) (hv : (s.entries e).value = (s.entries e').value) :
    e = e' := by
  rw [← h.entry_of e he, ← h.entry_of e' he', hv]

/-! The pick. -/

theorem pickLoop_step (s : SchedState) (fuel x : ℕ) :
    pickLoop s (fuel + 1) x =
      let y := ringNext (fun e => (s.entries e).next) s.tasklist.first x
      if blockedAt s y then pickLoop s fuel y else some (y, wakeAt s y) := by
  simp only [pickLoop, ringNext, blockedAt, wakeAt]
  generalize (if (s.entries x).next = 0 then s.tasklist.first else (s.entries x).next) = y
  by_cases hs : (s.tasks (s.entries y).value).state = .TASK_SLEEPING
  · by_cases hw : (s.tasks (s.entries y).value).wakeTime ≤ s.pitTicks
    · simp [hs, hw]
    · simp [hs, hw]
  · simp [hs]

theorem pickLoop_visits (s : SchedState) {o : List ℕ} {x e : ℕ}
    (hv : Visits (ringNext (fun e => (s.entries e).next) s.tasklist.first) x o)
    (he : o.find? (fun e => !blockedAt s e) = some e) {fuel : ℕ} (hfuel : o.length ≤ fuel) :
    pickLoop s fuel x = some (e, wakeAt s e) := by
  induction o generalizing x fuel with
  | nil => cases he
  | cons y t ih =>
    obtain ⟨hy, ht⟩ := hv
    obtain ⟨fuel, rfl⟩ : ∃ f, fuel = f + 1 := ⟨fuel - 1, by rw [List.length_cons] at hfuel; omega⟩
    rw [pickLoop_step]
    dsimp only
    rw [hy]
    cases hb : blockedAt s y with
    | true =>
      rw [List.find?_cons_of_neg (by simp [hb])] at he
      rw [if_pos rfl]
      exact ih ht he (by rw [List.length_cons] at hfuel; omega)
    | false =>
      rw [List.find?_cons_of_pos (by simp [hb])] at he
      obtain rfl : y = e := Option.some.inj he
      rfl

theorem pickLoop_mono (s : SchedState) {fuel x : ℕ} {r : ℕ × SchedState}
    (h : pickLoop s fuel x = some r) (extra : ℕ) : pickLoop s (fuel + extra) x = some r := by
  induction fuel generalizing x with
  | zero => cases h
  | succ fuel ih =>
    rw [Nat.succ_add, pickLoop_step]
    rw [pickLoop_step] at h
    dsimp only at h ⊢
    split_ifs at h ⊢
    · exact ih h
    · exact h

theorem idle_not_blocked {idle : ℕ} {s : SchedState} {es : List ℕ} (h : SchedInv idle s es)
    {e : ℕ} (he : (s.entries e).value = idle) : blockedAt s e = false := by
  simp only [blockedAt, he, h.idle_awake.1, false_and, decide_false]

theorem pick_first {idle : ℕ} {s : SchedState} {es : List ℕ} (h : SchedInv idle s es) :
    ∃ e, (cyclicAfter es s.currentEntry).find? (fun e => !blockedAt s e) = some e ∧
      ∀ fuel, es.length ≤ fuel → pickNextTask fuel s = some (e, wakeAt s e) := by
  obtain ⟨i, hi, hiv⟩ := h.idle_mem
  have hsome : ((cyclicAfter es s.currentEntry).find? fun e => !blockedAt s e).isSome := by
    rw [List.find?_isSome]
    exact ⟨i, mem_cyclicAfter.2 hi, by rw [idle_not_blocked h hiv]; rfl⟩
  obtain ⟨e, he⟩ := Option.isSome_iff_exists.1 hsome
  refine ⟨e, he, fun fuel hfuel => pickLoop_visits s ?_ he ?_⟩
  · obtain ⟨p, q, rfl⟩ := List.append_of_mem h.current_mem
    have hp : s.currentEntry ∉ p := fun hp =>
      (List.nodup_append.1 h.rep.nodup).2.2 _ hp _ List.mem_cons_self rfl
    rw [cyclicAfter_split hp, h.rep.first]
    exact h.rep.linked.visits_ring
  · rw [cyclicAfter, List.length_rotate]
    exact hfuel

theorem wakeAt_task (s : SchedState) (e t : ℕ) :
    ((wakeAt s e).tasks t).schedEntry = (s.tasks t).schedEntry ∧
    ((wakeAt s e).tasks t).wakeTime = (s.tasks t).wakeTime ∧
    (((wakeAt s e).tasks t).state = (s.tasks t).state ∨
      (s.tasks t).state = .TASK_SLEEPING ∧ ((wakeAt s e).tasks t).state = .TASK_RUNNING) := by
  unfold wakeAt
  split_ifs with hs
  · dsimp only [setTaskState]
    by_cases ht : t = (s.entries e).value
    · subst ht
      simp [hs]
    · simp [ht]
  · exact ⟨rfl, rfl, Or.inl rfl⟩

theorem wakeAt_rest (s : SchedState) (e : ℕ) :
    (wakeAt s e).entries = s.entries ∧ (wakeAt s e).tasklist = s.tasklist ∧
    (wakeAt s e).currentEntry = s.currentEntry ∧ (wakeAt s e).currentTask = s.currentTask ∧
    (wakeAt s e).pitTicks = s.pitTicks := by
  unfold wakeAt
  split_ifs <;> exact ⟨rfl, rfl, rfl, rfl, rfl⟩

/-! The calls keep the invariant. -/

theorem schedInv_wake {idle : ℕ} {s : SchedState} {es : List ℕ} (h : SchedInv idle s es) (e : ℕ) :
    SchedInv idle (wakeAt s e) es := by
  obtain ⟨he, hl, hce, hct, -⟩ := wakeAt_rest s e
  obtain ⟨-, -, hidle⟩ := wakeAt_task s e idle
  refine ⟨?_, ?_, ?_, ?_, ?_, ?_⟩
  · rw [he, hl]
    exact h.rep
  · rw [hce]
    exact h.current_mem
  · rw [he, hce, hct]
    exact h.current_value
  · intro x hx
    rw [he, (wakeAt_task s e _).1]
    exact h.entry_of x hx
  · rw [he]
    exact h.idle_mem
  · rcases hidle with hsame | ⟨hsleep, -⟩
    · rw [hsame]
      exact h.idle_awake
    · exact absurd hsleep h.idle_awake.1

theorem schedAdd_fields (s : SchedState) (task : ℕ) {entry : ℕ} (h0 : entry ≠ 0) :
    (∀ x, x ≠ entry → ((schedAdd s task entry).entries x).value = (s.entries x).value) ∧
    ((schedAdd s task entry).entries entry).value = task := by
  obtain ⟨hval, -⟩ := listInsert_fields (setValue s.entries entry task) s.tasklist
    s.tasklist.last 0 h0
  constructor
  · intro x hx
    exact (hval x).trans (by rw [setValue_value, if_neg hx])
  · exact (hval entry).trans (by rw [setValue_value, if_pos rfl])

theorem schedAdd_rep {s : SchedState} {es : List ℕ} (h : ListRep s.entries s.tasklist es)
    (task : ℕ) {entry : ℕ} (h0 : entry ≠ 0) (hnew : entry ∉ es) :
    ListRep (schedAdd s task entry).entries (schedAdd s task entry).tasklist (es ++ [entry]) := by
  have hrep : ListRep (setValue s.entries entry task) s.tasklist (es ++ ([] ++ [])) := by
    rw [List.append_nil, List.append_nil]
    exact h.congr (fun x => setValue_next _ _ _ _) (fun x => setValue_prev _ _ _ _)
  have hins := listInsert_rep hrep h0 (by rwa [List.append_nil])
  rw [← h.last] at hins
  exact hins

theorem schedInv_add {idle : ℕ} {s : SchedState} {es : List ℕ} (h : SchedInv idle s es)
    {task entry : ℕ} (htask : ¬ InTasklist s task) (h0 : entry ≠ 0) (hnew : entry ∉ es) :
    SchedInv idle (schedAdd s task entry) (es ++ [entry]) := by
  obtain ⟨hval, hentry⟩ := schedAdd_fields s task h0
  have hmem : ∀ x ∈ es, x ≠ entry := fun x hx he => hnew (he ▸ hx)
  have hother : ∀ x ∈ es, (s.entries x).value ≠ task := fun x hx hv =>
    htask ⟨es, h.scheduled, x, hx, hv⟩
  obtain ⟨i, hi, hiv⟩ := h.idle_mem
  refine ⟨schedAdd_rep h.rep task h0 hnew, List.mem_append_left _ h.current_mem, ?_, ?_, ?_, ?_⟩
  · exact (hval _ (hmem _ h.current_mem)).trans h.current_value
  · intro x hx
    rcases List.mem_append.1 hx with hx | hx
    · rw [hval x (hmem x hx)]
      simp only [schedAdd, Function.update_of_ne (hother x hx)]
      exact h.entry_of x hx
    · obtain rfl : x = entry := List.mem_singleton.1 hx
      rw [hentry]
      simp only [schedAdd, Function.update_self]
  · exact ⟨i, List.mem_append_left _ hi, (hval i (hmem i hi)).trans hiv⟩
  · have hne : idle ≠ task := hiv ▸ hother i hi
    simp only [schedAdd, Function.update_of_ne hne]
    exact h.idle_awake

/-- The state with entry `e` the current one. -/
def currentAt (s : SchedState) (e : ℕ) : SchedState :=
  { s with currentEntry := e, currentTask := (s.entries e).value }

theorem schedInv_currentAt {idle : ℕ} {s : SchedState} {es : List ℕ} (h : SchedInv idle s es)
    {e : ℕ} (he : e ∈ es) : SchedInv idle (currentAt s e) es :=
  ⟨h.rep, he, rfl, h.entry_of, h.idle_mem, h.idle_awake⟩

theorem schedRemove_rep {s : SchedState} {l m : List ℕ} {e task : ℕ}
    (h : ListRep s.entries s.tasklist (l ++ ([e] ++ m))) (hsched : (s.tasks task).schedEntry = e)
    (trash : ListEntry) :
    ListRep (schedRemove s task trash).entries (schedRemove s task trash).tasklist (l ++ m) ∧
    ∀ x, x ≠ e → ((schedRemove s task trash).entries x).value = (s.entries x).value := by
  have hrep := listRemove_rep h
  obtain ⟨h0, hp, -⟩ := h.neighbours
  have hout : ∀ x ∈ l ++ m, x ≠ e := by
    rintro x hx rfl
    rw [List.singleton_append] at h
    exact (List.nodup_cons.1 (List.nodup_middle.1 h.nodup)).1 hx
  have hself : (s.entries e).prev ≠ e := by
    rw [hp]
    exact ((border_ne (m := m) h0).1 fun hl => hout e (List.mem_append_left _ hl) rfl).symm
  obtain ⟨hval, -⟩ := listRemove_fields s.entries s.tasklist h0 hself
  simp only [schedRemove, hsched]
  refine ⟨⟨hrep.linked.congr ?_ ?_, hrep.nodup, hrep.first, hrep.last⟩, ?_⟩
  · intro x hx
    rw [Function.update_of_ne (hout x hx)]
  · intro x hx
    rw [Function.update_of_ne (hout x hx)]
  · intro x hx
    rw [Function.update_of_ne hx, hval x]

/-- `thread_destroy` of a member: its entry is gone, the others keep their tasks. -/
theorem threadDestroy_rep {idle : ℕ} {s : SchedState} {es : List ℕ} (h : SchedInv idle s es)
    {e : ℕ} (he : e ∈ es) (trash : Trash) :
    ListRep (threadDestroy s (s.entries e).value trash).entries
      (threadDestroy s (s.entries e).value trash).tasklist (es.erase e) ∧
    ∀ x, x ≠ e →
      ((threadDestroy s (s.entries e).value trash).entries x).value = (s.entries x).value := by
  have hsched := h.entry_of e he
  obtain ⟨l, m, rfl, hl⟩ := List.eq_append_cons_of_mem he
  have hrep : ListRep s.entries s.tasklist (l ++ ([e] ++ m)) := h.rep
  rw [List.erase_append_right _ hl, List.erase_cons_head]
  exact schedRemove_rep hrep hsched trash.entry

theorem threadDestroy_tasks (s : SchedState) (trash : Trash) {t thread : ℕ} (ht : t ≠ thread) :
    (threadDestroy s thread trash).tasks t = s.tasks t := by
  simp only [threadDestroy, schedRemove, Function.update_of_ne ht]

theorem schedInv_destroy {idle : ℕ} {s : SchedState} {es : List ℕ} (h : SchedInv idle s es)
    {e : ℕ} (he : e ∈ es) (hcur : e ≠ s.currentEntry) (hidle : (s.entries e).value ≠ idle)
    (trash : Trash) :
    SchedInv idle (threadDestroy s (s.entries e).value trash) (es.erase e) := by
  obtain ⟨hrep, hval⟩ := threadDestroy_rep h he trash
  have hback : ∀ x ∈ es.erase e, x ≠ e ∧ x ∈ es := fun x hx => h.rep.nodup.mem_erase_iff.1 hx
  obtain ⟨i, hi, hiv⟩ := h.idle_mem
  have hine : i ≠ e := by
    rintro rfl
    exact hidle hiv
  refine ⟨hrep, (List.mem_erase_of_ne hcur.symm).2 h.current_mem, ?_, ?_, ?_, ?_⟩
  · exact (hval _ hcur.symm).trans h.current_value
  · intro x hx
    obtain ⟨hxe, hxes⟩ := hback x hx
    -- the task of an entry that stays is not the one that goes
    rw [hval x hxe, threadDestroy_tasks s trash fun hv => hxe (h.value_inj hxes he hv)]
    exact h.entry_of x hxes
  · exact ⟨i, (List.mem_erase_of_ne hine).2 hi, (hval i hine).trans hiv⟩
  · rw [threadDestroy_tasks s trash (Ne.symm hidle)]
    exact h.idle_awake

theorem schedInv_setState {idle : ℕ} {s : SchedState} {es : List ℕ} (h : SchedInv idle s es)
    {task : ℕ} (hne : task ≠ idle) (state : TaskState) (wakeTime : ℕ) :
    SchedInv idle { s with tasks := Function.update s.tasks task
                             { s.tasks task with state := state, wakeTime := wakeTime } } es := by
  refine ⟨h.rep, h.current_mem, h.current_value, fun x hx => ?_, h.idle_mem, ?_⟩
  · dsimp only
    by_cases ht : (s.entries x).value = task
    · rw [ht, Function.update_self]
      exact (congrArg (fun t => (s.tasks t).schedEntry) ht).symm.trans (h.entry_of x hx)
    · rw [Function.update_of_ne ht]
      exact h.entry_of x hx
  · dsimp only
    rw [Function.update_of_ne hne.symm]
    exact h.idle_awake

/-- `reschedule` from the pick of entry `e` on. -/
def switchAt (s : SchedState) (e : ℕ) (trash : Trash) : SchedState :=
  let s := wakeAt s e
  currentAt (if (s.tasks s.currentTask).state = .TASK_DYING
    then threadDestroy s s.currentTask trash else s) e

theorem reschedule_returns {idle : ℕ} {s : SchedState} {es : List ℕ} (h : SchedInv idle s es)
    (trash : Trash) :
    ∃ e, (cyclicAfter es s.currentEntry).find? (fun e => !blockedAt s e) = some e ∧
      ∀ fuel, es.length ≤ fuel → reschedule fuel s trash = some (switchAt s e trash) := by
  obtain ⟨e, he, hpick⟩ := pick_first h
  refine ⟨e, he, fun fuel hfuel => ?_⟩
  unfold reschedule
  rw [hpick fuel hfuel]
  rfl

theorem reschedule_mono (s : SchedState) {s' : SchedState} {fuel : ℕ} {trash : Trash}
    (h : reschedule fuel s trash = some s') (extra : ℕ) :
    reschedule (fuel + extra) s trash = some s' := by
  unfold reschedule at h ⊢
  cases hp : pickNextTask fuel s with
  | none =>
    rw [hp] at h
    cases h
  | some r =>
    have hmono : pickNextTask (fuel + extra) s = some r := pickLoop_mono s hp extra
    rw [hp] at h
    rw [hmono]
    exact h

/-- What `reschedule` leaves is the switch to the entry that is due. -/
theorem reschedule_picked {idle : ℕ} {s s' : SchedState} {es : List ℕ} (h : SchedInv idle s es)
    {fuel : ℕ} {trash : Trash} (hr : reschedule fuel s trash = some s') :
    ∃ e, (cyclicAfter es s.currentEntry).find? (fun e => !blockedAt s e) = some e ∧
      s' = switchAt s e trash := by
  obtain ⟨e, he, hret⟩ := reschedule_returns h trash
  refine ⟨e, he, ?_⟩
  have hmono := reschedule_mono s hr es.length
  rw [hret _ (Nat.le_add_left _ _)] at hmono
  exact (Option.some.inj hmono).symm

/-- A dying current task is not the one picked: the idle task is due, so the search stops
before it comes back to the current entry. -/
theorem picked_of_dying {idle : ℕ} {s : SchedState} {es : List ℕ} (h : SchedInv idle s es) {e : ℕ}
    (he : (cyclicAfter es s.currentEntry).find? (fun e => !blockedAt s e) = some e)
    (hdying : (s.tasks s.currentTask).state = .TASK_DYING) :
    e ≠ s.currentEntry ∧ s.currentTask ≠ idle := by
  have hcur : s.currentTask ≠ idle := by
    intro hidle
    rw [hidle] at hdying
    exact h.idle_awake.2 hdying
  obtain ⟨i, hi, hiv⟩ := h.idle_mem
  have hine : i ≠ s.currentEntry := by
    rintro rfl
    exact hcur (h.current_value.symm.trans hiv)
  exact ⟨find_cyclicAfter_ne h.rep.nodup h.current_mem hi hine
    (by rw [idle_not_blocked h hiv]; rfl) he, hcur⟩

theorem wakeAt_dying (s : SchedState) (e t : ℕ) :
    ((wakeAt s e).tasks t).state = .TASK_DYING ↔ (s.tasks t).state = .TASK_DYING := by
  obtain ⟨-, -, hsame | ⟨hsleep, hrun⟩⟩ := wakeAt_task s e t
  · rw [hsame]
  · rw [hsleep, hrun]
    decide

theorem switchAt_dying {idle : ℕ} {s : SchedState} {es : List ℕ} (h : SchedInv idle s es) {e : ℕ}
    (he : (cyclicAfter es s.currentEntry).find? (fun e => !blockedAt s e) = some e)
    (trash : Trash) (hdying : (s.tasks s.currentTask).state = .TASK_DYING) :
    switchAt s e trash = threadDestroy (currentAt (wakeAt s e) e) s.currentTask trash := by
  obtain ⟨hent, -, -, hct, -⟩ := wakeAt_rest s e
  obtain ⟨hne, -⟩ := picked_of_dying h he hdying
  have hw := schedInv_wake h e
  have hval := (threadDestroy_rep hw h.current_mem trash).2 e hne
  rw [hent, h.current_value, ← hent] at hval
  have hd : ((wakeAt s e).tasks (wakeAt s e).currentTask).state = .TASK_DYING := by
    rw [hct]
    exact (wakeAt_dying s e _).2 hdying
  unfold switchAt currentAt
  dsimp only
  rw [if_pos hd, hct, hval]
  rfl

theorem switchAt_alive (s : SchedState) (e : ℕ) (trash : Trash)
    (hdying : (s.tasks s.currentTask).state ≠ .TASK_DYING) :
    switchAt s e trash = currentAt (wakeAt s e) e := by
  obtain ⟨-, -, -, hct, -⟩ := wakeAt_rest s e
  have hd : ((wakeAt s e).tasks (wakeAt s e).currentTask).state ≠ .TASK_DYING := by
    rw [hct]
    exact fun hd => hdying ((wakeAt_dying s e _).1 hd)
  unfold switchAt
  dsimp only
  rw [if_neg hd]

/-- `reschedule`: a dying current task is gone before the switch, and the entry
switched to is not its own. -/
theorem schedInv_reschedule {idle : ℕ} {s s' : SchedState} {es : List ℕ} (h : SchedInv idle s es)
    {fuel : ℕ} {trash : Trash} (hr : reschedule fuel s trash = some s') :
    ∃ es', SchedInv idle s' es' := by
  obtain ⟨e, he, rfl⟩ := reschedule_picked h hr
  have hmem : e ∈ es := mem_cyclicAfter.1 (List.mem_of_find?_eq_some he)
  have hsw := schedInv_currentAt (schedInv_wake h e) hmem
  by_cases hdying : (s.tasks s.currentTask).state = .TASK_DYING
  · obtain ⟨hne, hcur⟩ := picked_of_dying h he hdying
    have hv : ((currentAt (wakeAt s e) e).entries s.currentEntry).value = s.currentTask := by
      rw [← h.current_value, ← (wakeAt_rest s e).1]
      rfl
    rw [switchAt_dying h he trash hdying, ← hv]
    exact ⟨_, schedInv_destroy hsw h.current_mem hne.symm (hv ▸ hcur) trash⟩
  · rw [switchAt_alive s e trash hdying]
    exact ⟨es, hsw⟩

theorem schedInv_boot {idle : ℕ} (entries : Entries) (tasks : ℕ → SchedTask) {entry : ℕ}
    (pitTicks : ℕ) (h0 : entry ≠ 0) :
    SchedInv idle (schedInit entries tasks idle entry pitTicks) [entry] := by
  let s0 : SchedState := ⟨entries, listInit, tasks, 0, 0, pitTicks⟩
  have hrep : ListRep (schedAdd s0 idle entry).entries (schedAdd s0 idle entry).tasklist
      ([] ++ [entry]) := schedAdd_rep (listRep_init entries) idle h0 List.not_mem_nil
  obtain ⟨-, hentry⟩ := schedAdd_fields s0 idle h0
  have hfirst : (schedAdd s0 idle entry).tasklist.first = entry := hrep.first
  refine ⟨hrep, ?_, rfl, ?_, ⟨entry, List.mem_singleton_self _, hentry⟩, ?_⟩
  · exact List.mem_singleton.2 hfirst
  · intro x hx
    obtain rfl := List.mem_singleton.1 hx
    change ((schedAdd s0 idle x).tasks ((schedAdd s0 idle x).entries x).value).schedEntry = x
    rw [hentry]
    simp only [schedAdd, Function.update_self]
  · simp [schedInit, schedAdd]

theorem schedInv_step {idle : ℕ} (s : SchedState) (e : SchedEvent) (s' : SchedState)
    (h : ∃ es, SchedInv idle s es) (hstep : SchedStep idle s e s') : ∃ es, SchedInv idle s' es := by
  obtain ⟨es, h⟩ := h
  cases e with
  | add task entry =>
    obtain ⟨htask, h0, hnew, rfl⟩ := hstep
    exact ⟨_, schedInv_add h htask h0 (hnew es h.scheduled)⟩
  | destroy task trash =>
    obtain ⟨⟨es', hes', e, he, rfl⟩, hcur, hidle, rfl⟩ := hstep
    obtain rfl := h.unique hes'
    refine ⟨_, schedInv_destroy h he ?_ hidle trash⟩
    rintro rfl
    exact hcur h.current_value
  | setState task state wakeTime =>
    obtain ⟨hne, -, rfl⟩ := hstep
    exact ⟨es, schedInv_setState h hne state wakeTime⟩
  | tick =>
    subst hstep
    exact ⟨es, h.rep, h.current_mem, h.current_value, h.entry_of, h.idle_mem, h.idle_awake⟩
  | reschedule trash =>
    obtain ⟨fuel, hr⟩ := hstep
    exact schedInv_reschedule h hr

theorem schedInv_run {idle : ℕ} {evs : List SchedEvent} {s : SchedState}
    (hrun : SchedRun idle evs s) : ∃ es, SchedInv idle s es := by
  refine Run.invariant (fun s => ∃ es, SchedInv idle s es) ?_ schedInv_step hrun
  rintro s ⟨entries, tasks, entry, pitTicks, h0, rfl⟩
  exact ⟨[entry], schedInv_boot entries tasks pitTicks h0⟩

/-- In every state of every run the current entry is in the list and holds the current
task, and `pick_next_task` would end with the next entry that is due, having woken its
task and done nothing else. -/
theorem sched_ring_pick {idle : ℕ} {evs : List SchedEvent} {s : SchedState}
    (hrun : SchedRun idle evs s) :
    ∃ es, Scheduled s es ∧ es.Nodup ∧ s.currentEntry ∈ es ∧
      (s.entries s.currentEntry).value = s.currentTask ∧
      ∃ e, (cyclicAfter es s.currentEntry).find? (fun x => !blockedAt s x) = some e ∧
        ∃ n, ∀ fuel ≥ n, pickNextTask fuel s = some (e, wakeAt s e) := by
  obtain ⟨es, h⟩ := schedInv_run hrun
  obtain ⟨e, he, hpick⟩ := pick_first h
  exact ⟨es, h.scheduled, h.rep.nodup, h.current_mem, h.current_value, e, he, es.length, hpick⟩

def bootSched : SchedState := schedInit (fun _ => ⟨0, 0, 0⟩) (fun _ => ⟨.TASK_STARTING, 0, 0⟩) 1 10 0

def seven : Trash := ⟨⟨7, 7, 7⟩, ⟨.TASK_SLEEPING, 7, 7⟩⟩

/-- Idle task 1, and a task 2 that gets to run, dies and is gone. -/
def diesEvents : List SchedEvent :=
  [.add 2 20, .reschedule seven, .setState 2 .TASK_DYING 0, .reschedule seven]

theorem diesEvents_run : ∃ s, SchedRun 1 diesEvents s ∧ s.currentEntry = 10 := by
  have hboot : SchedInv 1 bootSched [10] := schedInv_boot _ _ _ (by decide)
  have hone : ¬ InTasklist bootSched 2 := by
    rintro ⟨es, hes, e, he, hv⟩
    obtain rfl := hboot.unique hes
    obtain rfl := List.mem_singleton.1 he
    exact absurd hv (by decide)
  have hnew : ∀ es, Scheduled bootSched es → 20 ∉ es := by
    intro es hes
    obtain rfl := hboot.unique hes
    decide
  have hnil : SchedRun 1 [] bootSched := Run.nil ⟨_, _, 10, 0, by decide, rfl⟩
  have hadd : SchedRun 1 [.add 2 20] (schedAdd bootSched 2 20) :=
    hnil.snoc ⟨hone, by decide, hnew, rfl⟩
  have hswitch : SchedRun 1 [.add 2 20, .reschedule seven] _ := hadd.snoc ⟨2, rfl⟩
  have hdying : SchedRun 1 [.add 2 20, .reschedule seven, .setState 2 .TASK_DYING 0] _ :=
    hswitch.snoc ⟨by decide, Or.inr ⟨rfl, rfl⟩, rfl⟩
  have hrun : SchedRun 1 diesEvents _ := hdying.snoc ⟨2, rfl⟩
  exact ⟨_, hrun, rfl⟩

theorem sched_ring_pick_dies : ∃ s, SchedRun 1 diesEvents s ∧ ∃ es, Scheduled s es ∧ 10 ∈ es ∧
    ∃ e, ∃ n, ∀ fuel ≥ n, pickNextTask fuel s = some (e, wakeAt s e) := by
  obtain ⟨s, hrun, hcur⟩ := diesEvents_run
  obtain ⟨es, hes, -, hmem, -, e, -, n, hpick⟩ := sched_ring_pick hrun
  exact ⟨s, hrun, es, hes, hcur ▸ hmem, e, n, hpick⟩

end DepthOS
