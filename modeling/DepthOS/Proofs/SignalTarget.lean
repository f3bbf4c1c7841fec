import DepthOS.Proofs.Effect

/-! To whom queued signals go. A queue belongs to one task until a `fork`: the child gets
the parent's list itself, and from then on whichever of the two is scheduled first
takes what is in it. -/

namespace DepthOS

open Lib

/-- Each signal that `signal_send` accepted is handed to `signal_exec` at most once, and for
its target only. -/
def SignalsStay (k : Kernel) : Prop :=
  (k.handed.map Prod.fst).Nodup ∧ ∀ x ∈ k.handed, k.sent[x.1]? = some x.2

/-- No task forks with signals pending, and no signal goes into a queue that two tasks
have. -/
def OwnQueue (k : Kernel) : KEvent → Prop
  | .fork _ => k.queues k.currentTask.signalQueue = []
  | .send t s => 1 ≤ s.number → s.number ≤ NSIG → k.blocked t s.number →
      ∀ u ∈ k.tasklist, (k.tasks u).signalQueue = (k.tasks t).signalQueue → u = t
  | _ => True

/-- The signals that wait for a task. -/
def Kernel.pending (k : Kernel) (t : ℕ) : List Pending := k.queues (k.tasks t).signalQueue

structure QueueInv (k : Kernel) : Prop where
  unshared : ∀ t ∈ k.tasklist, k.pending t ≠ [] → ∀ u ∈ k.tasklist,
    (k.tasks u).signalQueue = (k.tasks t).signalQueue → u = t
  target : ∀ t ∈ k.tasklist, ∀ x ∈ k.pending t, k.sent[x.id]? = some t
  ids : ∀ t ∈ k.tasklist, ((k.pending t).map Pending.id).Nodup
  apart : ∀ t ∈ k.tasklist, ∀ x ∈ k.pending t, x.id ∉ k.handed.map Prod.fst
  below : ∀ t ∈ k.tasklist, (k.tasks t).signalQueue < k.next
  stay : SignalsStay k

theorem QueueInv.frame {k k' : Kernel} (h : QueueInv k)
    (hlist : ∀ t ∈ k'.tasklist, t ∈ k.tasklist)
    (hqueue : ∀ t, (k'.tasks t).signalQueue = (k.tasks t).signalQueue)
    (hqueues : k'.queues = k.queues) (hsent : k'.sent = k.sent) (hhanded : k'.handed = k.handed)
    (hnext : k.next ≤ k'.next) : QueueInv k' := by
  have hpending : ∀ t, k'.pending t = k.pending t := by
    intro t
    unfold Kernel.pending
    rw [hqueues, hqueue]
  refine ⟨?_, ?_, ?_, ?_, ?_, ?_⟩
  · intro t ht hne u hu
    rw [hqueue, hqueue]
    rw [hpending] at hne
    exact h.unshared t (hlist t ht) hne u (hlist u hu)
  · intro t ht
    rw [hpending, hsent]
    exact h.target t (hlist t ht)
  · intro t ht
    rw [hpending]
    exact h.ids t (hlist t ht)
  · intro t ht
    rw [hpending, hhanded]
    exact h.apart t (hlist t ht)
  · intro t ht
    rw [hqueue]
    exact (h.below t (hlist t ht)).trans_le hnext
  · unfold SignalsStay
    rw [hhanded, hsent]
    exact h.stay

theorem QueueInv.user {k : Kernel} (h : QueueInv k) (r : ℕ → Regs) (m : ℕ → Mem) :
    QueueInv (k.withUser r m) :=
  h.frame (fun _ ht => ht) (fun _ => rfl) rfl rfl rfl le_rfl

theorem QueueInv.setTask {k : Kernel} (h : QueueInv k) (t : ℕ) (f : KTask → KTask)
    (hf : ∀ task, (f task).signalQueue = task.signalQueue) : QueueInv (k.setTask t f) := by
  refine h.frame (fun _ ht => ht) (fun x => ?_) rfl rfl rfl le_rfl
  rw [k.setTask_tasks]
  split_ifs
  · exact hf _
  · rfl

theorem QueueInv.mask {k : Kernel} (h : QueueInv k) (t : ℕ) (mask : SigMask) :
    QueueInv (k.setMaskCurrent t mask) :=
  h.setTask t (fun task => { task with signalMaskCurrent := mask }) fun _ => rfl

theorem QueueInv.kill {k k' : Kernel} (h : QueueInv k) {p : ℕ} {f : Process → Process}
    (hk : KilledBy k p f k') : QueueInv k' := by
  refine h.frame (fun _ ht => (hk.mem.1 ht).1) (fun t => ?_) hk.queues hk.sent hk.handed hk.next.ge
  rw [hk.task]
  split_ifs <;> rfl

theorem QueueInv.exec {k k' : Kernel} (h : QueueInv k) {t : ℕ} {s : Sig}
    (he : ExecEffect k t s k') : QueueInv k' := by
  cases he with
  | ignored => exact h
  | killed _ _ hk => exact h.kill hk
  | stopped => exact h.setTask t _ fun _ => rfl
  | caught r m => exact (h.mask t _).user r m

theorem QueueInv.join {k k' : Kernel} (h : QueueInv k) (hr : RingOk k) {task : KTask}
    (htasks : k'.tasks = Function.update k.tasks k.next task)
    (hlist : ∀ t ∈ k'.tasklist, t ∈ k.tasklist ∨ t = k.next)
    (hqueues : k'.queues = Function.update k.queues (k.next + 1) [])
    (hsent : k'.sent = k.sent) (hhanded : k'.handed = k.handed) (hnext : k.next + 2 ≤ k'.next)
    (hqueue : task.signalQueue = k.next + 1 ∨
      (task.signalQueue < k.next ∧ k.queues task.signalQueue = [])) : QueueInv k' := by
  have hold : ∀ t ∈ k.tasklist, k'.tasks t = k.tasks t := by
    intro t ht
    rw [htasks, Function.update_of_ne (Nat.ne_of_lt (hr.below t ht))]
  have hnew : k'.tasks k.next = task := by rw [htasks, Function.update_self]
  have hpending : ∀ t ∈ k.tasklist, k'.pending t = k.pending t := by
    intro t ht
    unfold Kernel.pending
    have := h.below t ht
    rw [hold t ht, hqueues, Function.update_of_ne (by omega)]
  have hempty : k'.pending k.next = [] := by
    unfold Kernel.pending
    rw [hnew, hqueues]
    rcases hqueue with hq | ⟨hlt, hq⟩
    · rw [hq, Function.update_self]
    · rw [Function.update_of_ne (by omega), hq]
  refine ⟨?_, ?_, ?_, ?_, ?_, ?_⟩
  · intro t ht hne u hu he
    rcases hlist t ht with ht | rfl
    · rcases hlist u hu with hu | rfl
      · rw [hold t ht, hold u hu] at he
        rw [hpending t ht] at hne
        exact h.unshared t ht hne u hu he
      · -- the new task's queue is empty, so it is not the one of `t`
        have hp : k'.pending t = k'.pending k.next := congrArg k'.queues he.symm
        exact absurd (hp.trans hempty) hne
    · exact absurd hempty hne
  · intro t ht x hx
    rw [hsent]
    rcases hlist t ht with ht | rfl
    · rw [hpending t ht] at hx
      exact h.target t ht x hx
    · rw [hempty] at hx
      exact absurd hx List.not_mem_nil
  · intro t ht
    rcases hlist t ht with ht | rfl
    · rw [hpending t ht]
      exact h.ids t ht
    · rw [hempty]
      exact List.nodup_nil
  · intro t ht x hx
    rw [hhanded]
    rcases hlist t ht with ht | rfl
    · rw [hpending t ht] at hx
      exact h.apart t ht x hx
    · rw [hempty] at hx
      exact absurd hx List.not_mem_nil
  · intro t ht
    rcases hlist t ht with ht | rfl
    · have := h.below t ht
      rw [hold t ht]
      omega
    · rw [hnew]
      rcases hqueue with hq | ⟨hlt, -⟩ <;> omega
  · unfold SignalsStay
    rw [hhanded, hsent]
    exact h.stay

/-! Signals come and go. -/

theorem sent_append {sent : List ℕ} {i t u : ℕ} (h : sent[i]? = some t) :
    (sent ++ [u])[i]? = some t := by
  obtain ⟨hlt, -⟩ := List.getElem?_eq_some_iff.1 h
  rw [List.getElem?_append_left hlt]
  exact h

theorem sent_ne_length {sent : List ℕ} {i t : ℕ} (h : sent[i]? = some t) : i ≠ sent.length := by
  obtain ⟨hlt, -⟩ := List.getElem?_eq_some_iff.1 h
  exact hlt.ne

theorem SignalsStay.length_not_mem {k : Kernel} (h : SignalsStay k) :
    k.sent.length ∉ k.handed.map Prod.fst := by
  intro hin
  obtain ⟨x, hx, he⟩ := List.mem_map.1 hin
  exact sent_ne_length (h.2 x hx) he

theorem QueueInv.accept {k : Kernel} (h : QueueInv k) (t : ℕ) : QueueInv (k.accept t) :=
  ⟨h.unshared, fun u hu x hx => sent_append (h.target u hu x hx), h.ids, h.apart, h.below,
    h.stay.1, fun x hx => sent_append (h.stay.2 x hx)⟩

/-- A signal for `t` that is not queued for anybody is handed to it. -/
theorem QueueInv.hand {k : Kernel} (h : QueueInv k) {id t : ℕ}
    (hnew : id ∉ k.handed.map Prod.fst) (hsent : k.sent[id]? = some t)
    (hqueued : ∀ u ∈ k.tasklist, ∀ x ∈ k.pending u, x.id ≠ id) : QueueInv (k.hand id t) := by
  refine ⟨h.unshared, h.target, h.ids, ?_, h.below, ?_, ?_⟩
  · intro u hu x hx hin
    rcases List.mem_cons.1 hin with he | hin
    · exact hqueued u hu x hx he
    · exact h.apart u hu x hx hin
  · exact List.nodup_cons.2 ⟨hnew, h.stay.1⟩
  · intro x hx
    rcases List.mem_cons.1 hx with rfl | hx
    · exact hsent
    · exact h.stay.2 x hx

theorem QueueInv.sendNow {k : Kernel} (h : QueueInv k) (t : ℕ) :
    QueueInv ((k.accept t).hand k.sent.length t) := by
  refine (h.accept t).hand h.stay.length_not_mem List.getElem?_concat_length ?_
  exact fun u hu x hx => sent_ne_length (h.target u hu x hx)

theorem QueueInv.enqueue {k : Kernel} (h : QueueInv k) {t : ℕ} (s : Sig)
    (hown : ∀ u ∈ k.tasklist, (k.tasks u).signalQueue = (k.tasks t).signalQueue → u = t) :
    QueueInv ((k.accept t).enqueue t ⟨s, k.sent.length⟩) := by
  have hself : ((k.accept t).enqueue t ⟨s, k.sent.length⟩).pending t =
      k.pending t ++ [⟨s, k.sent.length⟩] := Function.update_self _ _ _
  have hother : ∀ u ∈ k.tasklist, u ≠ t →
      ((k.accept t).enqueue t ⟨s, k.sent.length⟩).pending u = k.pending u :=
    fun u hu hut => Function.update_of_ne (fun he => hut (hown u hu he)) _ _
  refine ⟨?_, ?_, ?_, ?_, h.below, (h.accept t).stay⟩
  · intro u hu hne v hv he
    by_cases hut : u = t
    · subst hut
      exact hown v hv he
    · rw [hother u hu hut] at hne
      exact h.unshared u hu hne v hv he
  · intro u hu x hx
    by_cases hut : u = t
    · subst hut
      rw [hself] at hx
      rcases List.mem_append.1 hx with hx | hx
      · exact sent_append (h.target u hu x hx)
      · rw [List.mem_singleton.1 hx]
        exact List.getElem?_concat_length
    · rw [hother u hu hut] at hx
      exact sent_append (h.target u hu x hx)
  · intro u hu
    by_cases hut : u = t
    · subst hut
      rw [hself, List.map_append]
      refine List.nodup_append.2 ⟨h.ids u hu, List.nodup_singleton _, fun i hi j hj => ?_⟩
      obtain ⟨x, hx, rfl⟩ := List.mem_map.1 hi
      rw [List.mem_singleton.1 hj]
      exact sent_ne_length (h.target u hu x hx)
    · rw [hother u hu hut]
      exact h.ids u hu
  · intro u hu x hx
    by_cases hut : u = t
    · subst hut
      rw [hself] at hx
      rcases List.mem_append.1 hx with hx | hx
      · exact h.apart u hu x hx
      · rw [List.mem_singleton.1 hx]
        exact h.stay.length_not_mem
    · rw [hother u hu hut] at hx
      exact h.apart u hu x hx

/-- What `find?` finds and what `eraseP` leaves. -/
theorem perm_find_eraseP {α : Type} {p : α → Bool} {l : List α} {x : α}
    (h : l.find? p = some x) : l.Perm (x :: l.eraseP p) := by
  induction l with
  | nil => cases h
  | cons a l ih =>
    by_cases ha : p a
    · rw [List.find?_cons_of_pos ha] at h
      rw [List.eraseP_cons_of_pos ha, Option.some.inj h]
    · rw [List.find?_cons_of_neg ha] at h
      rw [List.eraseP_cons_of_neg ha]
      exact ((ih h).cons a).trans (List.Perm.swap x a _)

theorem QueueInv.fetch {k : Kernel} (h : QueueInv k) {t : ℕ} (ht : t ∈ k.tasklist) {x : Pending}
    (hx : (k.pending t).find? (fun x => !k.blocked t x.sig.number) = some x) :
    QueueInv ((k.dequeue t).hand x.id t) := by
  have hmem := List.mem_of_find?_eq_some hx
  have hperm := perm_find_eraseP hx
  have hne : k.pending t ≠ [] := List.ne_nil_of_mem hmem
  have hself : (k.dequeue t).pending t =
      (k.pending t).eraseP fun x => !k.blocked t x.sig.number := Function.update_self _ _ _
  have hother : ∀ u ∈ k.tasklist, u ≠ t → (k.dequeue t).pending u = k.pending u :=
    fun u hu hut => Function.update_of_ne (fun he => hut (h.unshared t ht hne u hu he)) _ _
  have hsub : ∀ u ∈ k.tasklist, ((k.dequeue t).pending u).Sublist (k.pending u) := by
    intro u hu
    by_cases hut : u = t
    · subst hut
      rw [hself]
      exact List.eraseP_sublist
    · rw [hother u hu hut]
  have hrest : ∀ y ∈ (k.dequeue t).pending t, y.id ≠ x.id := by
    have hnd := (hperm.map Pending.id).nodup_iff.1 (h.ids t ht)
    rw [List.map_cons, List.nodup_cons] at hnd
    intro y hy he
    rw [hself] at hy
    exact hnd.1 (he ▸ List.mem_map_of_mem hy)
  have hd : QueueInv (k.dequeue t) := by
    refine ⟨?_, fun u hu y hy => h.target u hu y ((hsub u hu).subset hy), ?_,
      fun u hu y hy => h.apart u hu y ((hsub u hu).subset hy), h.below, h.stay⟩
    · intro u hu hune v hv he
      refine h.unshared u hu (fun hnil => hune ?_) v hv he
      exact List.sublist_nil.1 (hnil ▸ hsub u hu)
    · exact fun u hu => (h.ids u hu).sublist ((hsub u hu).map _)
  refine hd.hand (h.apart t ht x hmem) (h.target t ht x hmem) fun u hu y hy => ?_
  by_cases hut : u = t
  · exact hrest y (hut ▸ hy)
  · -- another task's signals have another target
    intro he
    have hy' := h.target u hu y ((hsub u hu).subset hy)
    rw [he, h.target t ht x hmem] at hy'
    exact hut (Option.some.inj hy').symm

theorem QueueInv.call {k k' : Kernel} (h : QueueInv k) (hr : RingOk k) {e : KEvent}
    (hC : OwnQueue k e) (he : Effect k e k') : QueueInv k' := by
  cases he with
  | user r m => exact h.user r m
  | spawn =>
    exact h.join hr rfl (fun _ ht => Kernel.born_mem ht) rfl rfl rfl
      (Nat.add_le_add_left (by decide) _) (Or.inl rfl)
  | fork hp =>
    exact h.join hr rfl (fun _ ht => Kernel.born_mem ht) rfl rfl rfl
      (Nat.add_le_add_left (by decide) _) (Or.inr ⟨h.below _ hr.current, hC⟩)
  | thcreate _ _ _ _ hqueue =>
    exact h.join hr rfl (fun _ ht => (Kernel.hatched_mem ht).imp_right And.left) rfl rfl rfl le_rfl
      (Or.inl hqueue)
  | thkillLast _ _ hk => exact h.kill hk
  | @thkillSelf _ _ p _ _ _ =>
    have hd : QueueInv (k.dropThread p k.current) :=
      h.frame (fun _ ht => ht) (fun _ => rfl) rfl rfl rfl le_rfl
    exact hd.setTask k.current (fun task => { task with state := .TASK_DYING }) fun _ => rfl
  | thkillOther =>
    exact h.frame (fun _ ht => List.mem_of_mem_erase ht) (fun _ => rfl) rfl rfl rfl le_rfl
  | exit _ hk => exact h.kill hk
  | @sleep wakeTime =>
    exact h.setTask k.current
      (fun task => { task with state := .TASK_SLEEPING, wakeTime := wakeTime }) fun _ => rfl
  | @sigaction num new old m =>
    have hm : QueueInv { k with mem := m } :=
      h.frame (fun _ ht => ht) (fun _ => rfl) rfl rfl rfl le_rfl
    exact hm.setTask k.current
      (fun task => { task with
        signalHandlers := Function.update task.signalHandlers num.toNat (k.installed num new old) })
      fun _ => rfl
  | sigrestore r m => exact (h.mask k.current _).user r m
  | sendQueued hnum hb => exact h.enqueue _ (hC hnum.1 hnum.2 hb)
  | sendExec _ he => exact (h.sendNow _).exec he
  | _ => exact h.frame (fun _ ht => ht) (fun _ => rfl) rfl rfl rfl le_rfl

theorem QueueInv.switchTo {k : Kernel} (h : QueueInv k) (n : ℕ) : QueueInv (k.switchTo n) := by
  have hw : QueueInv (k.wake n) := by
    unfold Kernel.wake
    split_ifs
    · exact h.setTask n (fun task => { task with state := .TASK_RUNNING }) fun _ => rfl
    · exact h
  unfold Kernel.switchTo
  dsimp only
  split_ifs
  · exact hw.frame (fun _ ht => List.mem_of_mem_erase ht) (fun _ => rfl) rfl rfl rfl le_rfl
  · exact hw.frame (fun _ ht => ht) (fun _ => rfl) rfl rfl rfl le_rfl

theorem queueInv_stable : Stable OwnQueue TaskRing RingOk QueueInv where
  boot k hk := by
    obtain ⟨idle, mem, pitTicks, rfl⟩ := hk
    refine ⟨fun _ _ hne => absurd rfl hne, fun _ _ => nofun, fun _ _ => List.nodup_nil,
      fun _ _ => nofun, ?_, List.nodup_nil, nofun⟩
    intro t _
    change 3 < 4
    decide
  user k r m h := h.user r m
  call k e k' hr h _ hC he := h.call hr hC he
  switch k n _ h _ := h.switchTo n
  pending k x k1 k' hr h hfetch he := by
    obtain ⟨hfind, rfl⟩ := signalFetch_current hfetch
    exact (h.fetch hr.current hfind).exec he
  jump k prev _ h := h.frame (fun _ ht => ht) (fun _ => rfl) rfl rfl rfl le_rfl

/-- In a run in which nobody forks with signals pending and no signal is queued for two tasks
at once, signals stay with their targets. -/
theorem signals_stay {evs : List KEvent} {k : Kernel} (h : KRunOf OwnQueue evs k) :
    SignalsStay k :=
  (queueInv_stable.run h).2.stay

/-- A program catches signal 10, and 12 waits until the handler has returned. -/
def maskEvents : List KEvent :=
  [.spawn none zeroTask zeroRegs (handlerImage (sigBit 12)), .tick, .sigaction 10 64 0,
    .sigaction 12 64 0, .send 4 (zeroSig 10), .send 4 (zeroSig 12), .sigrestore 1000 0, .tick,
    .tick]

theorem signals_stay_queued :
    ∃ k, KRunOf OwnQueue maskEvents k ∧ k.handed = [(1, 4), (0, 4)] ∧ SignalsStay k := by
  have hc : ∀ (k : Kernel) (e : KEvent), (match e with
      | .fork _ => false
      | .send t _ => k.tasklist.all fun u =>
          decide ((k.tasks u).signalQueue = (k.tasks t).signalQueue → u = t)
      | _ => true) = true → OwnQueue k e := by
    intro k e h
    cases e with
    | fork => cases h
    | send t s => exact fun _ _ _ u hu => of_decide_eq_true (List.all_eq_true.1 h u hu)
    | _ => trivial
  obtain ⟨k, hrun, hk⟩ := zero_runOf hc 1 maskEvents Kernel.handed (v := [(1, 4), (0, 4)])
    (by decide +kernel)
  exact ⟨k, hrun, hk, signals_stay hrun⟩

/-- The program forks while 12 waits. The child, which returns from the handler first, gets
the parent's signal and dies of it. -/
theorem forked_child_drains : ¬ ∀ evs k, KRun evs k → SignalsStay k := by
  intro h
  obtain ⟨k, hrun, hk⟩ := zero_run 2 [.spawn none zeroTask zeroRegs (handlerImage (sigBit 12)),
    .tick, .sigaction 10 64 0, .send 4 (zeroSig 10), .send 4 (zeroSig 12), .fork zeroTask, .yield,
    .sigrestore 1000 0, .yield, .tick, .yield] (fun k => (k.handed, k.sent))
    (v := ([(1, 8), (0, 4)], [4, 4])) (by decide +kernel)
  obtain ⟨hhanded, hsent⟩ := Prod.mk.inj hk
  have := (h _ k hrun).2 (1, 8) (hhanded ▸ List.mem_cons_self)
  rw [hsent] at this
  exact absurd this (by decide)

end DepthOS
