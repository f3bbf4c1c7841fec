import DepthOS.Proofs.Sched

/-! The picks are fair. The entry of a ready task moves up the ring with every pick
that is not its own, and nothing but a new entry moves it back; so its wait is
bounded, and nobody it waits behind is picked a second time before it. -/

namespace DepthOS

open Lib

/-- The task is in the list, and not asleep before its time. -/
def Ready (s : SchedState) (task : ℕ) : Prop :=
  ∃ es, Scheduled s es ∧ ∃ e ∈ es, (s.entries e).value = task ∧ blockedAt s e = false

def SchedEvent.picks : SchedEvent → Bool
  | .reschedule _ => true
  | _ => false

def SchedEvent.adds : SchedEvent → Bool
  | .add _ _ => true
  | _ => false

/-- A step after which the task is ready and has not been switched to. -/
def WaitStep (idle task : ℕ) (s : SchedState) (e : SchedEvent) (s' : SchedState) : Prop :=
  SchedStep idle s e s' ∧ Ready s' task ∧ (e.picks = true → s'.currentTask ≠ task)

/-- The waiting step of `t`, with `u` still in the list after it. -/
def BehindStep (idle t u : ℕ) (s : SchedState) (e : SchedEvent) (s' : SchedState) : Prop :=
  WaitStep idle t s e s' ∧ InTasklist s' u

/-- What an event does to the ring of entries `es`. -/
def RingMove (s : SchedState) (es : List ℕ) (s' : SchedState) (es' : List ℕ) : SchedEvent → Prop
  | .add _ entry => es' = es ++ [entry] ∧ s'.currentEntry = s.currentEntry
  | .destroy _ _ =>
    ∃ y, y ≠ s.currentEntry ∧ es' = es.erase y ∧ s'.currentEntry = s.currentEntry
  | .setState _ _ _ | .tick => es' = es ∧ s'.currentEntry = s.currentEntry
  | .reschedule _ =>
    (cyclicAfter es s.currentEntry).find? (fun x => !blockedAt s x) = some s'.currentEntry ∧
      (es' = es ∨ s.currentEntry ≠ s'.currentEntry ∧ es' = es.erase s.currentEntry)

/-- The entries that stay keep their tasks, and a new entry holds a new task. -/
structure SameTasks (s : SchedState) (es : List ℕ) (s' : SchedState) (es' : List ℕ) : Prop where
  kept : ∀ x ∈ es, x ∈ es' → (s'.entries x).value = (s.entries x).value
  fresh : ∀ x ∈ es', x ∉ es → ¬ InTasklist s (s'.entries x).value

theorem sameTasks_refl (s : SchedState) {s' : SchedState} (es : List ℕ)
    (h : s'.entries = s.entries) : SameTasks s es s' es :=
  ⟨fun x _ _ => by rw [h], fun x hx hn => absurd hx hn⟩

theorem sameTasks_erase {s s' : SchedState} {es : List ℕ} {y : ℕ} (hnd : es.Nodup)
    (h : ∀ x, x ≠ y → (s'.entries x).value = (s.entries x).value) :
    SameTasks s es s' (es.erase y) :=
  ⟨fun x _ hx => h x (hnd.mem_erase_iff.1 hx).1,
    fun _ hx hn => absurd (List.mem_of_mem_erase hx) hn⟩

theorem ring_add {s : SchedState} {es : List ℕ} {task entry : ℕ} (htask : ¬ InTasklist s task)
    (h0 : entry ≠ 0) (hnew : entry ∉ es) :
    SameTasks s es (schedAdd s task entry) (es ++ [entry]) := by
  obtain ⟨hval, hentry⟩ := schedAdd_fields s task h0
  refine ⟨fun x hx _ => hval x fun he => hnew (he ▸ hx), fun x hx hn => ?_⟩
  obtain rfl : x = entry := List.mem_singleton.1 ((List.mem_append.1 hx).resolve_left hn)
  rw [hentry]
  exact htask

/-- `reschedule`: the ring turns to the entry found, without the dying one. -/
theorem ring_reschedule {idle : ℕ} {s s' : SchedState} {es : List ℕ} (h : SchedInv idle s es)
    {fuel : ℕ} {trash : Trash} (hr : reschedule fuel s trash = some s') :
    ∃ es', SchedInv idle s' es' ∧ RingMove s es s' es' (.reschedule trash) ∧
      SameTasks s es s' es' := by
  obtain ⟨e, he, rfl⟩ := reschedule_picked h hr
  have hmem : e ∈ es := mem_cyclicAfter.1 (List.mem_of_find?_eq_some he)
  have hsw := schedInv_currentAt (schedInv_wake h e) hmem
  have hent : (currentAt (wakeAt s e) e).entries = s.entries := (wakeAt_rest s e).1
  by_cases hdying : (s.tasks s.currentTask).state = .TASK_DYING
  · obtain ⟨hne, hcur⟩ := picked_of_dying h he hdying
    have hv : ((currentAt (wakeAt s e) e).entries s.currentEntry).value = s.currentTask := by
      rw [← h.current_value, hent]
    rw [switchAt_dying h he trash hdying, ← hv]
    obtain ⟨-, hval⟩ := threadDestroy_rep hsw h.current_mem trash
    refine ⟨_, schedInv_destroy hsw h.current_mem hne.symm (hv ▸ hcur) trash,
      ⟨he, Or.inr ⟨hne.symm, rfl⟩⟩, sameTasks_erase h.rep.nodup fun x hx => ?_⟩
    rw [hval x hx, hent]
  · rw [switchAt_alive s e trash hdying]
    exact ⟨es, hsw, ⟨he, Or.inl rfl⟩, sameTasks_refl s es hent⟩

theorem ring_step {idle : ℕ} {s s' : SchedState} {es : List ℕ} {ev : SchedEvent}
    (h : SchedInv idle s es) (hstep : SchedStep idle s ev s') :
    ∃ es', SchedInv idle s' es' ∧ RingMove s es s' es' ev ∧ SameTasks s es s' es' := by
  cases ev with
  | add task entry =>
    obtain ⟨htask, h0, hnew, rfl⟩ := hstep
    have hnew := hnew es h.scheduled
    exact ⟨_, schedInv_add h htask h0 hnew, ⟨rfl, rfl⟩, ring_add htask h0 hnew⟩
  | destroy task trash =>
    obtain ⟨⟨es', hes', e, he, rfl⟩, hcur, hidle, rfl⟩ := hstep
    obtain rfl := h.unique hes'
    have hne : e ≠ s.currentEntry := by
      rintro rfl
      exact hcur h.current_value
    exact ⟨_, schedInv_destroy h he hne hidle trash, ⟨e, hne, rfl, rfl⟩,
      sameTasks_erase h.rep.nodup (threadDestroy_rep h he trash).2⟩
  | setState task state wakeTime =>
    obtain ⟨hne, -, rfl⟩ := hstep
    exact ⟨es, schedInv_setState h hne state wakeTime, ⟨rfl, rfl⟩, sameTasks_refl s es rfl⟩
  | tick =>
    subst hstep
    exact ⟨es, ⟨h.rep, h.current_mem, h.current_value, h.entry_of, h.idle_mem, h.idle_awake⟩,
      ⟨rfl, rfl⟩, sameTasks_refl s es rfl⟩
  | reschedule trash =>
    obtain ⟨fuel, hr⟩ := hstep
    exact ring_reschedule h hr

theorem entry_stays {idle : ℕ} {s s' : SchedState} {es es' : List ℕ} (h : SchedInv idle s es)
    (h' : SchedInv idle s' es') (hsame : SameTasks s es s' es') {e : ℕ} (he : e ∈ es)
    (hin : InTasklist s' (s.entries e).value) :
    e ∈ es' ∧ (s'.entries e).value = (s.entries e).value := by
  obtain ⟨l, hl, x, hx, hv⟩ := hin
  obtain rfl := h'.unique hl
  by_cases hxe : x ∈ es
  · have hkept := hsame.kept x hxe hx
    obtain rfl := h.value_inj hxe he (hkept ▸ hv)
    exact ⟨hx, hkept⟩
  · exact absurd ⟨es, h.scheduled, e, he, hv.symm⟩ (hsame.fresh x hx hxe)

theorem ready_inTasklist {s : SchedState} {task : ℕ} (h : Ready s task) : InTasklist s task := by
  obtain ⟨es, hes, e, he, hv, -⟩ := h
  exact ⟨es, hes, e, he, hv⟩

theorem ready_entry {idle : ℕ} {s : SchedState} {es : List ℕ} (h : SchedInv idle s es) {e : ℕ}
    (he : e ∈ es) (hr : Ready s (s.entries e).value) : blockedAt s e = false := by
  obtain ⟨l, hl, x, hx, hv, hb⟩ := hr
  obtain rfl := h.unique hl
  obtain rfl := h.value_inj hx he hv
  exact hb

theorem ahead_step {idle : ℕ} {s s' : SchedState} {es es' : List ℕ} {ev : SchedEvent}
    (h : SchedInv idle s es) (hring : RingMove s es s' es' ev) {e : ℕ} (he : e ∈ es)
    (he' : e ∈ es') (hb : blockedAt s e = false) (hne : ev.picks = true → e ≠ s'.currentEntry) :
    ahead es' s'.currentEntry e + [ev].countP SchedEvent.picks ≤
      ahead es s.currentEntry e + [ev].countP SchedEvent.adds := by
  cases ev with
  | add task entry =>
    obtain ⟨rfl, hcur⟩ := hring
    rw [hcur]
    exact ahead_snoc_le h.current_mem entry e
  | destroy task trash =>
    obtain ⟨y, hy, rfl, hcur⟩ := hring
    rw [hcur]
    refine ahead_erase_le h.rep.nodup h.current_mem hy ?_
    rintro rfl
    exact (h.rep.nodup.mem_erase_iff.1 he').1 rfl
  | setState task state wakeTime =>
    obtain ⟨rfl, hcur⟩ := hring
    rw [hcur]
    exact le_rfl
  | tick =>
    obtain ⟨rfl, hcur⟩ := hring
    rw [hcur]
    exact le_rfl
  | reschedule trash =>
    obtain ⟨hfind, hes'⟩ := hring
    have hnear := ahead_find_lt h.rep.nodup he (by rw [hb]; rfl) hfind (hne rfl)
    have hmem := mem_cyclicAfter.1 (List.mem_of_find?_eq_some hfind)
    have hle : ahead es' s'.currentEntry e ≤ ahead es s'.currentEntry e := by
      rcases hes' with rfl | ⟨hy, rfl⟩
      · exact le_rfl
      · refine ahead_erase_le h.rep.nodup hmem hy ?_
        rintro rfl
        exact (h.rep.nodup.mem_erase_iff.1 he').1 rfl
    exact Nat.succ_le_of_lt (hle.trans_lt hnear)

theorem wait_step {idle t : ℕ} {s s' : SchedState} {es : List ℕ} {ev : SchedEvent}
    (h : SchedInv idle s es) {e : ℕ} (he : e ∈ es) (hv : (s.entries e).value = t)
    (hb : blockedAt s e = false) (hstep : WaitStep idle t s ev s') :
    ∃ es', SchedInv idle s' es' ∧ RingMove s es s' es' ev ∧ SameTasks s es s' es' ∧
      e ∈ es' ∧ (s'.entries e).value = t ∧ blockedAt s' e = false ∧
      (ev.picks = true → e ≠ s'.currentEntry) := by
  obtain ⟨hsched, hready, hnot⟩ := hstep
  obtain ⟨es', h', hring, hsame⟩ := ring_step h hsched
  obtain ⟨he', hv'⟩ := entry_stays h h' hsame he (hv ▸ ready_inTasklist hready)
  rw [hv] at hv'
  refine ⟨es', h', hring, hsame, he', hv', ready_entry h' he' (hv' ▸ hready), fun hp => ?_⟩
  rintro rfl
  exact hnot hp (h'.current_value ▸ hv')

theorem wait_run {idle t : ℕ} {s₀ s : SchedState} {es₀ : List ℕ} {evs : List SchedEvent}
    (h₀ : SchedInv idle s₀ es₀) {e : ℕ} (he₀ : e ∈ es₀) (hv₀ : (s₀.entries e).value = t)
    (hb₀ : blockedAt s₀ e = false) (hrun : Run (· = s₀) (WaitStep idle t) evs s) :
    ∃ es, SchedInv idle s es ∧ e ∈ es ∧ (s.entries e).value = t ∧ blockedAt s e = false ∧
      ahead es s.currentEntry e + evs.countP SchedEvent.picks ≤
        ahead es₀ s₀.currentEntry e + evs.countP SchedEvent.adds := by
  induction hrun with
  | nil h =>
    subst h
    exact ⟨es₀, h₀, he₀, hv₀, hb₀, le_rfl⟩
  | snoc _ hstep ih =>
    obtain ⟨es, h, he, hv, hb, hle⟩ := ih
    obtain ⟨es', h', hring, -, he', hv', hb', hne⟩ := wait_step h he hv hb hstep
    have hone := ahead_step h hring he he' hb hne
    refine ⟨es', h', he', hv', hb', ?_⟩
    rw [List.countP_append, List.countP_append]
    omega

/-- A ready task is switched to before there have been as many picks as there are
entries in the list, those added meanwhile included. -/
theorem ready_wait_bounded {idle t : ℕ} {evs evs' : List SchedEvent} {s s' : SchedState}
    {es : List ℕ} (hrun : SchedRun idle evs s) (hes : Scheduled s es) (hready : Ready s t)
    (hwait : Run (· = s) (WaitStep idle t) evs' s') :
    evs'.countP SchedEvent.picks < es.length + evs'.countP SchedEvent.adds := by
  obtain ⟨es', h⟩ := schedInv_run hrun
  obtain rfl := h.unique hes
  obtain ⟨l, hl, e, he, rfl, hb⟩ := hready
  obtain rfl := h.unique hl
  obtain ⟨_, -, -, -, -, hle⟩ := wait_run h he rfl hb hwait
  have hlt := ahead_lt (a := s.currentEntry) he
  omega

def threeTasks : SchedState := schedAdd (schedAdd bootSched 2 20) 3 30

theorem threeTasks_run : SchedRun 1 [.add 2 20, .add 3 30] threeTasks ∧
    SchedInv 1 threeTasks [10, 20, 30] := by
  have hboot : SchedInv 1 bootSched [10] := schedInv_boot _ _ _ (by decide)
  have hout : ∀ {s : SchedState} {es : List ℕ} {t : ℕ}, SchedInv 1 s es →
      (∀ e ∈ es, (s.entries e).value ≠ t) → ¬ InTasklist s t := by
    rintro s es t h hv ⟨l, hl, e, he, het⟩
    obtain rfl := h.unique hl
    exact hv e he het
  have htwo := hout (t := 2) hboot (by decide)
  have hinv : SchedInv 1 (schedAdd bootSched 2 20) [10, 20] :=
    schedInv_add hboot htwo (by decide) (by decide)
  have hthree := hout (t := 3) hinv (by decide)
  have hnil : SchedRun 1 [] bootSched := Run.nil ⟨_, _, 10, 0, by decide, rfl⟩
  have hone : SchedRun 1 [.add 2 20] (schedAdd bootSched 2 20) :=
    hnil.snoc ⟨htwo, by decide, fun l hl => hboot.unique hl ▸ by decide, rfl⟩
  exact ⟨hone.snoc ⟨hthree, by decide, fun l hl => hinv.unique hl ▸ by decide, rfl⟩,
    schedInv_add hinv hthree (by decide) (by decide)⟩

/-- Task 3 waits while task 2 gets its turn. -/
theorem threeTasks_wait : BehindStep 1 3 1 threeTasks (.reschedule seven)
    (switchAt threeTasks 20 seven) := by
  have hes : Scheduled (switchAt threeTasks 20 seven) [10, 20, 30] := threeTasks_run.2.scheduled
  exact ⟨⟨⟨3, rfl⟩, ⟨_, hes, 30, by decide, rfl, rfl⟩, by decide⟩, ⟨_, hes, 10, by decide, rfl⟩⟩

theorem ready_wait_bounded_three : [SchedEvent.reschedule seven].countP SchedEvent.picks <
    [10, 20, 30].length + [SchedEvent.reschedule seven].countP SchedEvent.adds := by
  obtain ⟨hrun, hinv⟩ := threeTasks_run
  have hnil : Run (· = threeTasks) (WaitStep 1 3) [] threeTasks := Run.nil rfl
  have hready : Ready threeTasks 3 := ⟨_, hinv.scheduled, 30, by decide, rfl, rfl⟩
  exact ready_wait_bounded hrun hinv.scheduled hready (hnil.snoc threeTasks_wait.1)

/-- One step of the wait keeps the entry in front of one that has had its turn, and
that one is not picked. -/
theorem before_step {idle : ℕ} {s s' : SchedState} {es es' : List ℕ} {ev : SchedEvent}
    (h : SchedInv idle s es) (hring : RingMove s es s' es' ev) {e f : ℕ}
    (he' : e ∈ es') (hf' : f ∈ es') (hb : blockedAt s e = false)
    (hne : ev.picks = true → e ≠ s'.currentEntry) (hbef : Before es s.currentEntry e f) :
    Before es' s'.currentEntry e f ∧ (ev.picks = true → f ≠ s'.currentEntry) := by
  have hout : ∀ y x : ℕ, x ∈ es.erase y → y ≠ x := by
    rintro y x hx rfl
    exact (h.rep.nodup.mem_erase_iff.1 hx).1 rfl
  cases ev with
  | add task entry =>
    obtain ⟨rfl, hcur⟩ := hring
    rw [hcur]
    exact ⟨hbef.snoc h.current_mem entry, fun hp => by cases hp⟩
  | destroy task trash =>
    obtain ⟨y, hy, rfl, hcur⟩ := hring
    rw [hcur]
    exact ⟨hbef.erase h.rep.nodup h.current_mem hy (hout y e he') (hout y f hf'),
      fun hp => by cases hp⟩
  | setState task state wakeTime =>
    obtain ⟨rfl, hcur⟩ := hring
    rw [hcur]
    exact ⟨hbef, fun hp => by cases hp⟩
  | tick =>
    obtain ⟨rfl, hcur⟩ := hring
    rw [hcur]
    exact ⟨hbef, fun hp => by cases hp⟩
  | reschedule trash =>
    obtain ⟨hfind, hes'⟩ := hring
    obtain ⟨hfx, hnear⟩ := hbef.find h.rep.nodup (by rw [hb]; rfl) hfind (hne rfl)
    have hmem := mem_cyclicAfter.1 (List.mem_of_find?_eq_some hfind)
    refine ⟨?_, fun _ => hfx⟩
    rcases hes' with rfl | ⟨hy, rfl⟩
    · exact hnear
    · exact hnear.erase h.rep.nodup hmem hy (hout _ e he') (hout _ f hf')

theorem behind_step {idle t u : ℕ} {s s' : SchedState} {es : List ℕ} {ev : SchedEvent}
    (h : SchedInv idle s es) {e f : ℕ} (he : e ∈ es) (hv : (s.entries e).value = t)
    (hb : blockedAt s e = false) (hf : f ∈ es) (hu : (s.entries f).value = u)
    (hbef : Before es s.currentEntry e f) (hstep : BehindStep idle t u s ev s') :
    ∃ es', SchedInv idle s' es' ∧ e ∈ es' ∧ (s'.entries e).value = t ∧ blockedAt s' e = false ∧
      f ∈ es' ∧ (s'.entries f).value = u ∧ Before es' s'.currentEntry e f ∧
      (ev.picks = true → f ≠ s'.currentEntry) := by
  obtain ⟨es', h', hring, hsame, he', hv', hb', hne⟩ := wait_step h he hv hb hstep.1
  obtain ⟨hf', hu'⟩ := entry_stays h h' hsame hf (hu ▸ hstep.2)
  obtain ⟨hbef', hnot⟩ := before_step h hring he' hf' hb hne hbef
  exact ⟨es', h', he', hv', hb', hf', hu'.trans hu, hbef', hnot⟩

theorem behind_run {idle t u : ℕ} {s₀ s : SchedState} {es₀ : List ℕ} {evs : List SchedEvent}
    (h₀ : SchedInv idle s₀ es₀) {e f : ℕ} (he₀ : e ∈ es₀) (hv₀ : (s₀.entries e).value = t)
    (hb₀ : blockedAt s₀ e = false) (hf₀ : f ∈ es₀) (hu₀ : (s₀.entries f).value = u)
    (hbef₀ : Before es₀ s₀.currentEntry e f) (hrun : Run (· = s₀) (BehindStep idle t u) evs s) :
    ∃ es, SchedInv idle s es ∧ e ∈ es ∧ (s.entries e).value = t ∧ blockedAt s e = false ∧
      f ∈ es ∧ (s.entries f).value = u ∧ Before es s.currentEntry e f := by
  induction hrun with
  | nil h =>
    subst h
    exact ⟨es₀, h₀, he₀, hv₀, hb₀, hf₀, hu₀, hbef₀⟩
  | snoc _ hstep ih =>
    obtain ⟨es, h, he, hv, hb, hf, hu, hbef⟩ := ih
    obtain ⟨es', h', he', hv', hb', hf', hu', hbef', -⟩ := behind_step h he hv hb hf hu hbef hstep
    exact ⟨es', h', he', hv', hb', hf', hu', hbef'⟩

/-- While a ready task waits, the task that was current when it began is not switched
to again: each of the others gets at most one turn before it. -/
theorem ready_not_overtaken {idle t : ℕ} {evs evs' : List SchedEvent} {s s' : SchedState}
    {trash : Trash} (hrun : SchedRun idle evs s) (hready : Ready s t) (hne : t ≠ s.currentTask)
    (hwait : Run (· = s) (BehindStep idle t s.currentTask) (evs' ++ [.reschedule trash]) s') :
    s'.currentTask ≠ s.currentTask := by
  obtain ⟨es, h⟩ := schedInv_run hrun
  obtain ⟨l, hl, e, he, rfl, hb⟩ := hready
  obtain rfl := h.unique hl
  have hec : e ≠ s.currentEntry := by
    rintro rfl
    exact hne h.current_value
  have hbef := before_self h.current_mem he hec
  generalize hw : evs' ++ [SchedEvent.reschedule trash] = w at hwait
  cases hwait with
  | nil _ => simp at hw
  | snoc hwait hstep =>
    obtain ⟨rfl, hlast⟩ := List.append_inj' hw rfl
    obtain rfl := List.singleton_inj.1 hlast
    obtain ⟨es₁, h₁, he₁, hv₁, hb₁, hf₁, hu₁, hbef₁⟩ :=
      behind_run h he rfl hb h.current_mem h.current_value hbef hwait
    obtain ⟨es', h', -, -, -, hf', hu', -, hnot⟩ :=
      behind_step h₁ he₁ hv₁ hb₁ hf₁ hu₁ hbef₁ hstep
    intro hcur
    exact hnot rfl (h'.value_inj hf' h'.current_mem (by rw [hu', h'.current_value, hcur]))

theorem ready_not_overtaken_three : (switchAt threeTasks 20 seven).currentTask ≠ 1 := by
  obtain ⟨hrun, hinv⟩ := threeTasks_run
  have hnil : Run (· = threeTasks) (BehindStep 1 3 1) [] threeTasks := Run.nil rfl
  have hready : Ready threeTasks 3 := ⟨_, hinv.scheduled, 30, by decide, rfl, rfl⟩
  exact ready_not_overtaken hrun hready (by decide) (hnil.snoc threeTasks_wait)

end DepthOS
