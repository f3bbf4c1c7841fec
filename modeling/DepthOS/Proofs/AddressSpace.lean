import DepthOS.Proofs.Effect

/-! Page directories and `kfree`. A page directory belongs to a process and all its
threads use it, but `thread_destroy` frees it for every thread: that is right for a
thread which is the only one of its process in the scheduler list, and for no other. -/

namespace DepthOS

open Lib

/-- No task in the list has a freed page directory, and none is freed twice. -/
def AddressSpaces (k : Kernel) : Prop :=
  (∀ t ∈ k.tasklist, (k.tasks t).pgd ∉ k.freed) ∧ k.freed.Nodup

/-- The block of a new main thread holds no page directory for `elf_loadf` to free, and
`thkill` in a process of several threads finds nothing to kill, or the caller where no
other thread of the process is scheduled. -/
def FreesOwn (k : Kernel) : KEvent → Prop
  | .spawn _ junk _ _ => junk.pgd = 0
  | .thkill thid _ => ∀ p, k.currentTask.process = some p → (k.procs p).threads.length ≠ 1 →
      (∀ t ∈ (k.procs p).threads, (k.tasks t).thid ≠ thid) ∨
      (k.currentTask.thid = thid ∧
        ∀ u ∈ k.tasklist, (k.tasks u).process = some p → u = k.current)
  | _ => True

/-- Every process passed to `process_kill` had one thread then. -/
def KillsSingle (k : Kernel) : Prop := ∀ x ∈ k.killed, x.2.length = 1

structure SpaceInv (k : Kernel) : Prop where
  apart : ∀ t ∈ k.tasklist, (k.tasks t).pgd ∉ k.freed
  once : k.freed.Nodup
  owner : ∀ t ∈ k.tasklist, ∀ u ∈ k.tasklist, (k.tasks t).pgd = (k.tasks u).pgd →
    (k.tasks t).process = (k.tasks u).process
  below : ∀ t ∈ k.tasklist, (k.tasks t).pgd < k.next
  freed_below : ∀ g ∈ k.freed, g < k.next
  alone : k.currentTask.state = .TASK_DYING → ∀ u ∈ k.tasklist,
    (k.tasks u).pgd = k.currentTask.pgd → u = k.current

theorem SpaceInv.frame {k k' : Kernel} (h : SpaceInv k)
    (hlist : ∀ t ∈ k'.tasklist, t ∈ k.tasklist)
    (hpgd : ∀ t, (k'.tasks t).pgd = (k.tasks t).pgd)
    (hprocess : ∀ t, (k'.tasks t).process = (k.tasks t).process) (hfreed : k'.freed = k.freed)
    (hnext : k'.next = k.next)
    (halone : k'.currentTask.state = .TASK_DYING → ∀ u ∈ k'.tasklist,
      (k.tasks u).pgd = (k.tasks k'.current).pgd → u = k'.current) : SpaceInv k' := by
  refine ⟨?_, hfreed ▸ h.once, ?_, ?_, ?_, ?_⟩
  · intro t ht
    rw [hpgd, hfreed]
    exact h.apart t (hlist t ht)
  · intro t ht u hu
    rw [hpgd, hpgd, hprocess, hprocess]
    exact h.owner t (hlist t ht) u (hlist u hu)
  · intro t ht
    rw [hpgd, hnext]
    exact h.below t (hlist t ht)
  · rw [hfreed, hnext]
    exact h.freed_below
  · intro hd u hu
    rw [Kernel.currentTask, hpgd, hpgd]
    exact halone hd u hu

theorem SpaceInv.destroy {k k' : Kernel} (h : SpaceInv k) {t : ℕ} (ht : t ∈ k.tasklist)
    (hown : ∀ u ∈ k.tasklist, (k.tasks u).pgd = (k.tasks t).pgd → u = t)
    (hlist : ∀ u ∈ k'.tasklist, u ∈ k.tasklist ∧ u ≠ t)
    (hpgd : ∀ u, (k'.tasks u).pgd = (k.tasks u).pgd)
    (hprocess : ∀ u, (k'.tasks u).process = (k.tasks u).process)
    (hfreed : k'.freed = (k.tasks t).pgd :: k.freed) (hnext : k'.next = k.next)
    (halive : k'.currentTask.state ≠ .TASK_DYING) : SpaceInv k' := by
  refine ⟨?_, ?_, ?_, ?_, ?_, fun hd => absurd hd halive⟩
  · intro u hu
    obtain ⟨hin, hne⟩ := hlist u hu
    rw [hpgd, hfreed]
    intro hmem
    rcases List.mem_cons.1 hmem with he | hmem
    · exact hne (hown u hin he)
    · exact h.apart u hin hmem
  · rw [hfreed]
    exact List.nodup_cons.2 ⟨h.apart t ht, h.once⟩
  · intro u hu v hv
    rw [hpgd, hpgd, hprocess, hprocess]
    exact h.owner u (hlist u hu).1 v (hlist v hv).1
  · intro u hu
    rw [hpgd, hnext]
    exact h.below u (hlist u hu).1
  · intro g hg
    rw [hfreed] at hg
    rw [hnext]
    rcases List.mem_cons.1 hg with rfl | hg
    · exact h.below t ht
    · exact h.freed_below g hg

theorem SpaceInv.join {k k' : Kernel} (h : SpaceInv k) (hr : RingOk k) {task : KTask}
    (htasks : k'.tasks = Function.update k.tasks k.next task)
    (hlist : ∀ t ∈ k'.tasklist, t ∈ k.tasklist ∨ t = k.next) (hfreed : k'.freed = k.freed)
    (hcur : k'.current = k.current) (hnext : k.next ≤ k'.next)
    (htask : (k.next ≤ task.pgd ∧ task.pgd < k'.next) ∨
      (task.pgd = k.currentTask.pgd ∧ task.process = k.currentTask.process)) : SpaceInv k' := by
  have hold : ∀ t ∈ k.tasklist, k'.tasks t = k.tasks t := by
    intro t ht
    rw [htasks, Function.update_of_ne (Nat.ne_of_lt (hr.below t ht))]
  have hnew : k'.tasks k.next = task := by rw [htasks, Function.update_self]
  -- who has the page directory of the new task has its process
  have hshare : ∀ u ∈ k.tasklist, (k.tasks u).pgd = task.pgd →
      (k.tasks u).process = task.process := by
    intro u hu he
    rcases htask with ⟨hge, -⟩ | ⟨hpgd, hproc⟩
    · have := h.below u hu
      omega
    · rw [hproc]
      exact h.owner u hu _ hr.current (he.trans hpgd)
  refine ⟨?_, hfreed ▸ h.once, ?_, ?_, ?_, ?_⟩
  · intro t ht
    rw [hfreed]
    rcases hlist t ht with ht | rfl
    · rw [hold t ht]
      exact h.apart t ht
    · rw [hnew]
      rcases htask with ⟨hge, -⟩ | ⟨hpgd, -⟩
      · intro hin
        have := h.freed_below _ hin
        omega
      · rw [hpgd]
        exact h.apart _ hr.current
  · intro t ht u hu
    rcases hlist t ht with ht | rfl <;> rcases hlist u hu with hu | rfl
    · rw [hold t ht, hold u hu]
      exact h.owner t ht u hu
    · rw [hold t ht, hnew]
      exact hshare t ht
    · rw [hold u hu, hnew]
      exact fun he => (hshare u hu he.symm).symm
    · exact fun _ => rfl
  · intro t ht
    rcases hlist t ht with ht | rfl
    · rw [hold t ht]
      exact (h.below t ht).trans_le hnext
    · rw [hnew]
      rcases htask with ⟨-, hlt⟩ | ⟨hpgd, -⟩
      · exact hlt
      · rw [hpgd]
        exact (h.below _ hr.current).trans_le hnext
  · intro g hg
    rw [hfreed] at hg
    exact (h.freed_below g hg).trans_le hnext
  · intro hd
    rw [Kernel.currentTask, hcur, hold _ hr.current] at hd
    exact absurd hd hr.alive

theorem SpaceInv.born {k : Kernel} (h : SpaceInv k) (hr : RingOk k) (task : KTask)
    (parent : Option ℕ) (m : Mem) : SpaceInv (k.born task parent m k.freed) := by
  refine h.join hr rfl (fun _ ht => Kernel.born_mem ht) rfl rfl (Nat.le_add_right _ _)
    (Or.inl ⟨Nat.le_add_right _ _, ?_⟩)
  change k.next + 2 < k.next + 4
  omega

/-- The page directory of a task that is the only thread of its process in the list is its
own. -/
theorem SpaceInv.own {k : Kernel} (h : SpaceInv k) {t p : ℕ} (ht : t ∈ k.tasklist)
    (hp : (k.tasks t).process = some p)
    (honly : ∀ u ∈ k.tasklist, (k.tasks u).process = some p → u = t) :
    ∀ u ∈ k.tasklist, (k.tasks u).pgd = (k.tasks t).pgd → u = t :=
  fun u hu he => honly u hu ((h.owner u hu t ht he).trans hp)

theorem RingOk.only_thread {k : Kernel} (hr : RingOk k) {t p : ℕ} (ht : t ∈ k.tasklist)
    (hp : (k.tasks t).process = some p) (hone : (k.procs p).threads.length = 1) :
    (k.procs p).threads = [t] ∧ ∀ u ∈ k.tasklist, (k.tasks u).process = some p → u = t := by
  have hmem : ∀ u ∈ k.tasklist, (k.tasks u).process = some p → u ∈ (k.procs p).threads := by
    intro u hu hup
    have hne : u ≠ IDLE_TASK := by
      rintro rfl
      rw [hr.idle_process] at hup
      cases hup
    obtain ⟨q, hq, hin⟩ := hr.member_thread hu hne
    obtain rfl := Option.some.inj (hq.symm.trans hup)
    exact hin
  obtain ⟨x, hx⟩ := List.length_eq_one_iff.1 hone
  have htx := hmem t ht hp
  rw [hx] at htx
  obtain rfl := List.mem_singleton.1 htx
  refine ⟨hx, fun u hu hup => ?_⟩
  have := hmem u hu hup
  rw [hx] at this
  exact List.mem_singleton.1 this

theorem SpaceInv.kill {k k' : Kernel} (h : SpaceInv k) (hr : RingOk k) {t p : ℕ}
    {f : Process → Process} (ht : t ∈ k.tasklist) (hp : (k.tasks t).process = some p)
    (hone : (k.procs p).threads.length = 1) (hk : KilledBy k p f k') : SpaceInv k' := by
  obtain ⟨hthr, honly⟩ := hr.only_thread ht hp hone
  have hpgd : ∀ u, (k'.tasks u).pgd = (k.tasks u).pgd := by
    intro u
    rw [hk.task]
    split_ifs <;> rfl
  have hprocess : ∀ u, (k'.tasks u).process = (k.tasks u).process := by
    intro u
    rw [hk.task]
    split_ifs <;> rfl
  have hcur : k'.current = k.current := hk.current
  have hfreed : k'.freed = (((k.procs p).threads.filter (· ≠ k.current)).map
      fun u => (k.tasks u).pgd).reverse ++ k.freed := hk.freed
  rw [hthr] at hfreed
  by_cases htc : t = k.current
  · -- the current task is dying, and nothing has been freed
    rw [List.filter_cons_of_neg (by simpa using htc)] at hfreed
    refine h.frame (fun u hu => (hk.mem.1 hu).1) hpgd hprocess hfreed hk.next ?_
    intro _ u hu he
    rw [hcur, ← htc] at he ⊢
    exact h.own ht hp honly u (hk.mem.1 hu).1 he
  · rw [List.filter_cons_of_pos (by simpa using htc)] at hfreed
    refine h.destroy ht (h.own ht hp honly) (fun u hu => ⟨(hk.mem.1 hu).1, ?_⟩) hpgd hprocess
      hfreed hk.next ?_
    · rintro rfl
      refine (hk.mem.1 hu).2.elim htc fun hnot => hnot ?_
      rw [hthr]
      exact List.mem_singleton_self _
    · rw [Kernel.currentTask, hcur, hk.task, hthr, if_neg]
      · exact hr.alive
      · exact fun hc => htc (List.mem_singleton.1 hc.2).symm

theorem KillsSingle.of_kill {k k' : Kernel} {p : ℕ} {f : Process → Process}
    (hk : KilledBy k p f k') (hf : ∀ proc, (f proc).threads = proc.threads)
    (h : KillsSingle k') : KillsSingle k ∧ (k.procs p).threads.length = 1 := by
  have hlog : k'.killed = (p, ((k.setProc p f).procs p).threads) :: k.killed := hk.killed
  have hthr : ((k.setProc p f).procs p).threads = (k.procs p).threads := by
    rw [Kernel.setProc_procs, if_pos rfl, hf]
  rw [hthr] at hlog
  unfold KillsSingle at h
  rw [hlog] at h
  exact ⟨fun x hx => h x (List.mem_cons_of_mem _ hx), h _ List.mem_cons_self⟩

/-- The invariant, for the runs in which every process that is killed has one thread. -/
def SingleSpaces (k : Kernel) : Prop := KillsSingle k → SpaceInv k

theorem SingleSpaces.kill {k k' : Kernel} (h : SingleSpaces k) (hr : RingOk k) {t p : ℕ}
    {f : Process → Process} (ht : t ∈ k.tasklist) (hp : (k.tasks t).process = some p)
    (hk : KilledBy k p f k') (hf : ∀ proc, (f proc).threads = proc.threads) : SingleSpaces k' := by
  intro hs
  obtain ⟨hs, hone⟩ := hs.of_kill hk hf
  exact (h hs).kill hr ht hp hone hk

theorem SingleSpaces.same {k k' : Kernel} (h : SingleSpaces k) (hkilled : k'.killed = k.killed)
    (hlist : k'.tasklist = k.tasklist) (hcur : k'.current = k.current)
    (htasks : ∀ t, (k'.tasks t).pgd = (k.tasks t).pgd ∧
      (k'.tasks t).process = (k.tasks t).process)
    (hdying : k'.currentTask.state = .TASK_DYING → k.currentTask.state = .TASK_DYING)
    (hfreed : k'.freed = k.freed) (hnext : k'.next = k.next) : SingleSpaces k' := by
  intro hs
  unfold KillsSingle at hs
  rw [hkilled] at hs
  refine (h hs).frame (fun t ht => hlist ▸ ht) (fun t => (htasks t).1) (fun t => (htasks t).2)
    hfreed hnext fun hd u hu he => ?_
  rw [hcur] at he ⊢
  exact (h hs).alone (hdying hd) u (hlist ▸ hu) he

theorem SingleSpaces.setTask {k k' : Kernel} (h : SingleSpaces k) {t : ℕ} {task : KTask}
    (htasks : k'.tasks = Function.update k.tasks t task)
    (htask : task.pgd = (k.tasks t).pgd ∧ task.process = (k.tasks t).process)
    (hstate : task.state = .TASK_DYING → (k.tasks t).state = .TASK_DYING)
    (hkilled : k'.killed = k.killed) (hlist : k'.tasklist = k.tasklist)
    (hcur : k'.current = k.current) (hfreed : k'.freed = k.freed) (hnext : k'.next = k.next) :
    SingleSpaces k' := by
  refine h.same hkilled hlist hcur ?_ ?_ hfreed hnext
  · intro x
    rw [htasks]
    by_cases hx : x = t
    · rw [hx, Function.update_self]
      exact htask
    · rw [Function.update_of_ne hx]
      exact ⟨rfl, rfl⟩
  · unfold Kernel.currentTask
    rw [htasks, hcur]
    by_cases hx : k.current = t
    · rw [hx, Function.update_self]
      exact hstate
    · rw [Function.update_of_ne hx]
      exact fun hd => hd

theorem SingleSpaces.exec {k k' : Kernel} (h : SingleSpaces k) (hr : RingOk k) {t : ℕ} {s : Sig}
    (ht : t ∈ k.tasklist) (he : ExecEffect k t s k') : SingleSpaces k' := by
  cases he with
  | ignored => exact h
  | killed hp _ hk => exact h.kill hr ht hp hk fun _ => rfl
  | stopped => exact h.setTask rfl ⟨rfl, rfl⟩ nofun rfl rfl rfl rfl rfl
  | caught r m =>
    have hm : SingleSpaces (k.setMaskCurrent t
        (((k.tasks t).signalHandlers s.number.toNat).mask ||| sigBit s.number.toNat)) :=
      h.setTask rfl ⟨rfl, rfl⟩ (fun hd => hd) rfl rfl rfl rfl rfl
    exact hm.same rfl rfl rfl (fun _ => ⟨rfl, rfl⟩) (fun hd => hd) rfl rfl

theorem SingleSpaces.call {k k' : Kernel} (h : SingleSpaces k) (hr : RingOk k) {e : KEvent}
    (hf : e.Fits k) (hC : FreesOwn k e) (he : Effect k e k') : SingleSpaces k' := by
  cases he with
  | user r m => exact h.same rfl rfl rfl (fun _ => ⟨rfl, rfl⟩) (fun hd => hd) rfl rfl
  | @spawn _ junk _ _ =>
    have hjunk : ¬ junk.pgd ≠ 0 := not_not.2 hC
    rw [if_neg hjunk]
    exact fun hs => (h hs).born hr _ _ _
  | fork hp => exact fun hs => (h hs).born hr _ _ _
  | thcreate hp _ =>
    exact fun hs => (h hs).join hr rfl (fun _ ht => (Kernel.hatched_mem ht).imp_right And.left) rfl
      rfl (Nat.le_add_right _ _) (Or.inr ⟨rfl, hp.symm⟩)
  | thkillLast hp hone hk => exact h.kill hr hr.current hp hk fun _ => rfl
  | @thkillSelf thid _ p hp hone hid =>
    intro hs
    have hcur : k.current ∈ (k.procs p).threads := by
      obtain ⟨q, hq, hin⟩ := hr.member_thread hr.current hf
      obtain rfl := Option.some.inj (hq.symm.trans hp)
      exact hin
    have honly := (hC p hp hone).elim (fun hno => absurd hid (hno _ hcur)) And.right
    have hall : ∀ t, (((k.dropThread p k.current).setState k.current .TASK_DYING).tasks t).pgd =
          (k.tasks t).pgd ∧
        (((k.dropThread p k.current).setState k.current .TASK_DYING).tasks t).process =
          (k.tasks t).process := by
      intro t
      rw [Kernel.setState, Kernel.setTask_tasks]
      split_ifs <;> exact ⟨rfl, rfl⟩
    exact (h hs).frame (fun _ ht => ht) (fun t => (hall t).1) (fun t => (hall t).2) rfl rfl
      fun _ u hu he => (h hs).own hr.current hp honly u hu he
  | @thkillOther thid _ p t hp hone ht hin hid hc =>
    obtain ⟨q, hq, hcur⟩ := hr.member_thread hr.current hf
    obtain rfl := Option.some.inj (hq.symm.trans hp)
    rcases hC q hp hone with hno | ⟨hcid, -⟩
    · exact absurd hid (hno t ht)
    · exact absurd (hr.thread_unique ht hcur (hid.trans hcid.symm)) hc
  | exit hp hk => exact h.kill hr hr.current hp hk fun _ => rfl
  | sleep =>
    have hst : TaskState.TASK_SLEEPING ≠ .TASK_DYING := by decide
    exact h.setTask rfl ⟨rfl, rfl⟩ (fun hd => absurd hd hst) rfl rfl rfl rfl rfl
  | sigaction => exact h.setTask rfl ⟨rfl, rfl⟩ (fun hd => hd) rfl rfl rfl rfl rfl
  | @sigrestore ctx _ r m =>
    have hm : SingleSpaces (k.setMaskCurrent k.current
        (readContext (k.mem k.currentTask.pgd) ctx).oldMask) :=
      h.setTask rfl ⟨rfl, rfl⟩ (fun hd => hd) rfl rfl rfl rfl rfl
    exact hm.same rfl rfl rfl (fun _ => ⟨rfl, rfl⟩) (fun hd => hd) rfl rfl
  | @sendExec t s _ _ he =>
    have ha : SingleSpaces ((k.accept t).hand k.sent.length t) :=
      h.same rfl rfl rfl (fun _ => ⟨rfl, rfl⟩) (fun hd => hd) rfl rfl
    exact ha.exec ((hr.accept t).hand _ t) hf he
  | _ => exact h.same rfl rfl rfl (fun _ => ⟨rfl, rfl⟩) (fun hd => hd) rfl rfl

theorem SingleSpaces.switchTo {k : Kernel} (h : SingleSpaces k) (hr : TaskRing k) {n : ℕ}
    (hp : k.pick = some n) : SingleSpaces (k.switchTo n) := by
  have halive := (hr.switchTo hp).alive
  have hw : SingleSpaces (k.wake n) := by
    unfold Kernel.wake
    split_ifs
    · exact h.setTask rfl ⟨rfl, rfl⟩ nofun rfl rfl rfl rfl rfl
    · exact h
  have hwr := hr.wake n
  unfold Kernel.switchTo at halive ⊢
  dsimp only at halive ⊢
  split_ifs at halive ⊢ with hd
  · intro hs
    exact (hw hs).destroy hwr.current ((hw hs).alone hd)
      (fun u hu => ⟨List.mem_of_mem_erase hu, fun he => hwr.nodup.not_mem_erase (he ▸ hu)⟩)
      (fun _ => rfl) (fun _ => rfl) rfl rfl halive
  · intro hs
    exact (hw hs).frame (fun _ ht => ht) (fun _ => rfl) (fun _ => rfl) rfl rfl
      fun hdy => absurd hdy halive

theorem singleSpaces_stable : Stable FreesOwn TaskRing RingOk SingleSpaces where
  boot k hk := by
    obtain ⟨idle, mem, pitTicks, rfl⟩ := hk
    refine fun _ => ⟨fun _ _ => List.not_mem_nil, List.nodup_nil, fun _ _ _ _ _ => rfl, ?_, nofun,
      nofun⟩
    intro t _
    change KERNEL_PGD < 4
    decide
  user k r m h := h.same rfl rfl rfl (fun _ => ⟨rfl, rfl⟩) (fun hd => hd) rfl rfl
  call k e k' hr h hf hC he := h.call hr hf hC he
  switch k n hr h hp := h.switchTo hr hp
  pending k x k1 k' hr h hfetch he := by
    obtain ⟨-, rfl⟩ := signalFetch_current hfetch
    have ha : SingleSpaces ((k.dequeue k.current).hand x.id k.current) :=
      h.same rfl rfl rfl (fun _ => ⟨rfl, rfl⟩) (fun hd => hd) rfl rfl
    exact ha.exec ((hr.withQueues _).hand _ _) hr.current he
  jump k prev _ h := h.same rfl rfl rfl (fun _ => ⟨rfl, rfl⟩) (fun hd => hd) rfl rfl

/-- Where processes are killed with one thread only and `thkill` takes no page directory from
another thread, no task in the list has a freed page directory, and none is freed twice. -/
theorem spaces_freed_once {evs : List KEvent} {k : Kernel} (h : KRunOf FreesOwn evs k)
    (hkills : KillsSingle k) : AddressSpaces k := by
  have hinv := (singleSpaces_stable.run h).2 hkills
  exact ⟨hinv.apart, hinv.once⟩

/-- A thread more, a child that exits and is destroyed, a page directory freed. -/
theorem spaces_freed_once_exit :
    ∃ k, KRunOf FreesOwn [zeroSpawn none, .tick, .thcreate false zeroTask zeroRegs,
        .fork zeroTask, .yield, .yield, .exit 3] k ∧ KillsSingle k ∧
      (k.freed, k.tasklist) = ([12], [2, 4, 8]) ∧ AddressSpaces k := by
  have hc : ∀ (k : Kernel) (e : KEvent), (match e with
      | .spawn _ junk _ _ => decide (junk.pgd = 0) | .thkill _ _ => false | _ => true) = true →
        FreesOwn k e := by
    intro k e h
    cases e with
    | spawn _ junk => exact of_decide_eq_true (p := junk.pgd = 0) h
    | thkill => cases h
    | _ => trivial
  obtain ⟨k, hrun, hk⟩ := zero_runOf hc 1 [zeroSpawn none, .tick, .thcreate false zeroTask zeroRegs,
    .fork zeroTask, .yield, .yield, .exit 3]
    (fun k => (k.killed.map fun x => x.2.length, k.freed, k.tasklist))
    (v := ([1], [12], [2, 4, 8])) (by decide +kernel)
  obtain ⟨hkilled, hfreed⟩ := Prod.mk.inj hk
  have hsingle : KillsSingle k := by
    intro x hx
    have hin : x.2.length ∈ k.killed.map fun x => x.2.length := List.mem_map_of_mem hx
    rw [hkilled] at hin
    exact List.mem_singleton.1 hin
  exact ⟨k, hrun, hsingle, hfreed, spaces_freed_once hrun hsingle⟩

/-- A process creates a thread and kills it: the page directory it runs in is freed. -/
theorem thkill_frees_shared : ¬ ∀ evs k, KRun evs k → AddressSpaces k := by
  intro h
  obtain ⟨k, hrun, hk⟩ := zero_run 1 [zeroSpawn none, .tick, .thcreate false zeroTask zeroRegs,
    .thkill 1 0] (fun k => ((k.tasklist, k.freed), (k.tasks 4).pgd)) (v := (([2, 4], [6]), 6))
    (by decide +kernel)
  obtain ⟨⟨hlist, hfreed⟩, hpgd⟩ := by simpa only [Prod.mk.injEq] using hk
  refine (h _ k hrun).1 4 ?_ ?_
  · rw [hlist]
    decide
  · rw [hpgd, hfreed]
    exact List.mem_cons_self

end DepthOS
