import DepthOS.Proofs.Family

/-! Which processes still have their parent. `waitpid` frees a child that has finished and
looks at nothing else: the children of that child keep a pointer to the freed record. A
process that runs is never freed, so `fork` and `process_spawn` link a new process to one
that is there. -/

namespace DepthOS

open Lib

/-- No thread of `p` can run any more: those that are left in the list are dying. -/
def NoThreads (k : Kernel) (p : ℕ) : Prop :=
  ∀ t ∈ k.tasklist, (k.tasks t).process = some p → (k.tasks t).state = .TASK_DYING

/-- A process with a parent stands once in the list of a parent that has not been deleted. -/
def ParentsLive (k : Kernel) : Prop :=
  ∀ p ∈ k.live, ∀ q, (k.procs p).parent = some q →
    q ∈ k.live ∧ (k.procs q).children.count p = 1

/-- `waitpid` reaps no process that has children. -/
def ReapsChildless (k : Kernel) : KEvent → Prop
  | .waitpid pid wstatus => pid = -1 → wstatus ≠ 0 → ∀ q, k.currentTask.process = some q →
      ∀ c, (k.procs q).children.find? k.finished = some c → (k.procs c).children = []
  | _ => True

structure ParentsInv (k : Kernel) : Prop where
  live : ∀ t ∈ k.tasklist, ∀ p, (k.tasks t).process = some p → p ∈ k.live
  ended : ∀ p, k.finished p → NoThreads k p
  parents : ∀ p ∈ k.live, ∀ q, (k.procs p).parent = some q → q ∈ k.live

theorem finished_congr {k k' : Kernel} {p p' : ℕ} (h : (k'.procs p').state = (k.procs p).state) :
    k'.finished p' = k.finished p := by
  unfold Kernel.finished
  rw [h]

/-- Nothing that the invariant reads has changed. -/
structure SameReap (k k' : Kernel) : Prop where
  live : k'.live = k.live
  tasklist : ∀ t, t ∈ k'.tasklist ↔ t ∈ k.tasklist
  process : ∀ t, (k'.tasks t).process = (k.tasks t).process
  dying : ∀ t ∈ k.tasklist, (k'.tasks t).state = .TASK_DYING ↔ (k.tasks t).state = .TASK_DYING
  state : ∀ p, (k'.procs p).state = (k.procs p).state
  parent : ∀ p, (k'.procs p).parent = (k.procs p).parent

theorem SameReap.trans {k k' k'' : Kernel} (h : SameReap k k') (h' : SameReap k' k'') :
    SameReap k k'' :=
  ⟨h'.live.trans h.live, fun t => (h'.tasklist t).trans (h.tasklist t),
    fun t => (h'.process t).trans (h.process t),
    fun t ht => (h'.dying t ((h.tasklist t).2 ht)).trans (h.dying t ht),
    fun p => (h'.state p).trans (h.state p), fun p => (h'.parent p).trans (h.parent p)⟩

theorem SameReap.noThreads {k k' : Kernel} (h : SameReap k k') (p : ℕ) :
    NoThreads k' p ↔ NoThreads k p := by
  constructor
  · intro hn t ht hp
    exact (h.dying t ht).1 (hn t ((h.tasklist t).2 ht) ((h.process t).trans hp))
  · intro hn t ht hp
    have ht' := (h.tasklist t).1 ht
    exact (h.dying t ht').2 (hn t ht' ((h.process t).symm.trans hp))

theorem ParentsInv.same {k k' : Kernel} (h : ParentsInv k) (hs : SameReap k k') :
    ParentsInv k' := by
  refine ⟨?_, ?_, ?_⟩
  · intro t ht p hp
    rw [hs.live]
    exact h.live t ((hs.tasklist t).1 ht) p ((hs.process t).symm.trans hp)
  · intro p hp
    rw [finished_congr (hs.state p)] at hp
    exact (hs.noThreads p).2 (h.ended p hp)
  · intro p hp q hq
    rw [hs.parent] at hq
    rw [hs.live] at hp ⊢
    exact h.parents p hp q hq

theorem sameReap_of_tasks {k k' : Kernel} (htasks : k'.tasks = k.tasks) (hprocs : k'.procs = k.procs)
    (hlist : k'.tasklist = k.tasklist) (hlive : k'.live = k.live) : SameReap k k' :=
  ⟨hlive, fun t => by rw [hlist], fun t => by rw [htasks], fun t _ => by rw [htasks],
    fun p => by rw [hprocs], fun p => by rw [hprocs]⟩

theorem sameReap_setTask {k k' : Kernel} {t : ℕ} {task : KTask}
    (htasks : k'.tasks = Function.update k.tasks t task)
    (htask : task.process = (k.tasks t).process ∧
      (task.state = .TASK_DYING ↔ (k.tasks t).state = .TASK_DYING))
    (hprocs : k'.procs = k.procs) (hlist : k'.tasklist = k.tasklist) (hlive : k'.live = k.live) :
    SameReap k k' := by
  have hall : ∀ x, (k'.tasks x).process = (k.tasks x).process ∧
      ((k'.tasks x).state = .TASK_DYING ↔ (k.tasks x).state = .TASK_DYING) := by
    intro x
    rw [htasks]
    by_cases hx : x = t
    · rw [hx, Function.update_self]
      exact htask
    · rw [Function.update_of_ne hx]
      exact ⟨rfl, Iff.rfl⟩
  exact ⟨hlive, fun t => by rw [hlist], fun x => (hall x).1, fun x _ => (hall x).2,
    fun p => by rw [hprocs], fun p => by rw [hprocs]⟩

theorem sameReap_mask (k : Kernel) (t : ℕ) (mask : SigMask) :
    SameReap k (k.setMaskCurrent t mask) :=
  sameReap_setTask rfl ⟨rfl, Iff.rfl⟩ rfl rfl rfl

theorem sameReap_user (k : Kernel) (r : ℕ → Regs) (m : ℕ → Mem) : SameReap k (k.withUser r m) :=
  ⟨rfl, fun _ => Iff.rfl, fun _ => rfl, fun _ _ => Iff.rfl, fun _ => rfl, fun _ => rfl⟩

theorem sameReap_wake (k : Kernel) (n : ℕ) : SameReap k (k.wake n) := by
  unfold Kernel.wake
  split_ifs with hs
  · exact sameReap_setTask rfl ⟨rfl, nofun, fun hd => absurd (hs.symm.trans hd) nofun⟩ rfl rfl rfl
  · exact sameReap_of_tasks rfl rfl rfl rfl

theorem ParentsInv.running {k : Kernel} (h : ParentsInv k) (hr : RingOk k) {t p : ℕ}
    (ht : t ∈ k.tasklist) (hp : (k.tasks t).process = some p) : k.finished p = false := by
  rcases hf : k.finished p with _ | _
  · rfl
  · exact absurd (h.ended p hf t ht hp) (hr.not_dying ht)

/-! The calls. -/

section Kill

variable {k k' : Kernel} {p : ℕ} {f : Process → Process}

theorem KilledBy.process (hk : KilledBy k p f k') (t : ℕ) :
    (k'.tasks t).process = (k.tasks t).process := by
  rw [hk.task]
  split_ifs <;> rfl

theorem KilledBy.parent (hk : KilledBy k p f k')
    (hf : ∀ proc, (f proc).parent = proc.parent) (q : ℕ) :
    (k'.procs q).parent = (k.procs q).parent := by
  rw [hk.proc]
  split_ifs
  · exact hf _
  · rfl

theorem KilledBy.finished_other (hk : KilledBy k p f k') {q : ℕ} (hq : q ≠ p) :
    k'.finished q = k.finished q :=
  finished_congr (by rw [hk.proc, if_neg hq])

theorem KilledBy.noThreads (hk : KilledBy k p f k') (hr : RingOk k) : NoThreads k' p := by
  intro t ht hp
  rw [hk.process] at hp
  obtain ⟨hin, hc⟩ := hk.mem.1 ht
  have hne : t ≠ IDLE_TASK := by
    rintro rfl
    rw [hr.idle_process] at hp
    cases hp
  obtain ⟨q, hq, hthr⟩ := hr.member_thread hin hne
  obtain rfl := Option.some.inj (hq.symm.trans hp)
  rw [hk.task, if_pos ⟨hc.resolve_right fun hnot => hnot hthr, hthr⟩]

theorem KilledBy.noThreads_other (hk : KilledBy k p f k') (hr : RingOk k) {q : ℕ} (hq : q ≠ p) :
    NoThreads k' q ↔ NoThreads k q := by
  have hstay : ∀ t, (k.tasks t).process = some q → t ∉ (k.procs p).threads := by
    intro t ht hin
    exact hq (Option.some.inj (ht.symm.trans (hr.threads p t hin).1))
  constructor
  · intro hn t ht hp
    have hnot := hstay t hp
    have := hn t (hk.mem.2 ⟨ht, Or.inr hnot⟩) ((hk.process t).trans hp)
    rwa [hk.task, if_neg fun h => hnot h.2] at this
  · intro hn t ht hp
    rw [hk.process] at hp
    rw [hk.task, if_neg fun h => hstay t hp h.2]
    exact hn t (hk.mem.1 ht).1 hp

theorem ParentsInv.kill (h : ParentsInv k) (hr : RingOk k) (hk : KilledBy k p f k')
    (hf : ∀ proc, (f proc).parent = proc.parent) : ParentsInv k' := by
  have hlive : k'.live = k.live := hk.live
  refine ⟨?_, ?_, ?_⟩
  · intro t ht q hq
    rw [hlive]
    exact h.live t (hk.mem.1 ht).1 q ((hk.process t).symm.trans hq)
  · intro q hq
    by_cases hqp : q = p
    · rw [hqp]
      exact hk.noThreads hr
    · rw [hk.finished_other hqp] at hq
      exact (hk.noThreads_other hr hqp).2 (h.ended q hq)
  · intro q hq r hqr
    rw [hk.parent hf] at hqr
    rw [hlive] at hq ⊢
    exact h.parents q hq r hqr

end Kill

theorem ExecEffect.keeps {X : Kernel → Prop} (hsame : ∀ k k', X k → SameReap k k' → X k')
    {k k' : Kernel} {t : ℕ} {s : Sig} (he : ExecEffect k t s k') (h : X k) (hr : RingOk k)
    (ht : t ∈ k.tasklist) (hkill : ∀ p, KilledBy k p (deadBy s.number) k' → X k') : X k' := by
  cases he with
  | ignored => exact h
  | killed _ _ hk => exact hkill _ hk
  | stopped =>
    have hnot := hr.not_dying ht
    exact hsame _ _ h (sameReap_setTask rfl ⟨rfl, nofun, fun hd => absurd hd hnot⟩ rfl rfl rfl)
  | caught r m => exact hsame _ _ h ((sameReap_mask k t _).trans (sameReap_user _ r m))

theorem ParentsInv.exec {k k' : Kernel} (h : ParentsInv k) (hr : RingOk k) {t : ℕ} {s : Sig}
    (ht : t ∈ k.tasklist) (he : ExecEffect k t s k') : ParentsInv k' := by
  apply he.keeps (fun _ _ => ParentsInv.same) h hr ht
  exact fun p hk => h.kill hr hk fun _ => rfl

section Born

variable {k : Kernel}

theorem born_task_self (k : Kernel) (task : KTask) (parent : Option ℕ) (m : Mem)
    (freed : List ℕ) : (k.born task parent m freed).tasks k.next = { task with
      state := .TASK_STARTING, pgd := k.next + 2, process := some (k.next + 3) } :=
  Function.update_self _ _ _

theorem born_task_other (hr : RingOk k) (task : KTask) (parent : Option ℕ) (m : Mem)
    (freed : List ℕ) {t : ℕ} (ht : t ∈ k.tasklist) :
    (k.born task parent m freed).tasks t = k.tasks t :=
  Function.update_of_ne (Nat.ne_of_lt (hr.below t ht)) _ _

theorem born_procs_old (hfam : Family k) (task : KTask) (parent : Option ℕ) (m : Mem)
    (freed : List ℕ) {p : ℕ} (hp : p ∈ k.live) :
    ((k.born task parent m freed).procs p).state = (k.procs p).state ∧
      ((k.born task parent m freed).procs p).parent = (k.procs p).parent := by
  have hne : p ≠ k.next + 3 := by
    have := hfam.below p hp
    omega
  rw [born_procs_other k task parent m freed hne]
  split_ifs <;> exact ⟨rfl, rfl⟩

theorem ParentsInv.born (h : ParentsInv k) (hr : RingOk k) (hfam : Family k) (task : KTask)
    {parent : Option ℕ} (m : Mem) (freed : List ℕ)
    (hpar : ∀ q, parent = some q → q ∈ k.live) : ParentsInv (k.born task parent m freed) := by
  have hself := born_procs_self k task m freed fun q hq => hfam.below q (hpar q hq)
  have hnew := born_task_self k task parent m freed
  refine ⟨?_, ?_, ?_⟩
  · intro t ht p hp
    rcases Kernel.born_mem ht with ht | rfl
    · rw [born_task_other hr task parent m freed ht] at hp
      exact List.mem_cons_of_mem _ (h.live t ht p hp)
    · rw [hnew] at hp
      rw [← Option.some.inj hp]
      exact List.mem_cons_self
  · intro p hp t ht htp
    have hpn : p ≠ k.next + 3 := by
      rintro rfl
      unfold Kernel.finished at hp
      rw [hself] at hp
      cases hp
    rcases Kernel.born_mem ht with ht | rfl
    · rw [born_task_other hr task parent m freed ht] at htp ⊢
      have hst := (born_procs_old hfam task parent m freed (h.live t ht p htp)).1
      rw [finished_congr hst] at hp
      exact h.ended p hp t ht htp
    · rw [hnew] at htp
      exact absurd (Option.some.inj htp).symm hpn
  · intro p hp q hq
    rcases List.mem_cons.1 hp with rfl | hp
    · rw [hself] at hq
      exact List.mem_cons_of_mem _ (hpar q hq)
    · rw [(born_procs_old hfam task parent m freed hp).2] at hq
      exact List.mem_cons_of_mem _ (h.parents p hp q hq)

end Born

section Threads

variable {k : Kernel} {task : KTask} {p : ℕ} {join : Bool}

theorem hatched_procs (k : Kernel) (task : KTask) (p : ℕ) (join : Bool) (q : ℕ) :
    ((k.hatched task p join).procs q).state = (k.procs q).state ∧
      ((k.hatched task p join).procs q).parent = (k.procs q).parent := by
  unfold Kernel.hatched
  by_cases hq : q = p
  · simp [hq]
  · simp [hq]

theorem hatched_task_other (hr : RingOk k) (task : KTask) (p : ℕ) (join : Bool) {t : ℕ}
    (ht : t ∈ k.tasklist) : (k.hatched task p join).tasks t = k.tasks t :=
  Function.update_of_ne (Nat.ne_of_lt (hr.below t ht)) _ _

theorem ParentsInv.hatched (h : ParentsInv k) (hr : RingOk k)
    (hp : k.currentTask.process = some p) : ParentsInv (k.hatched task p join) := by
  have hstate := hatched_procs k task p join
  have hnew : (k.hatched task p join).tasks k.next =
      { task with pgd := k.currentTask.pgd, process := some p } := Function.update_self _ _ _
  refine ⟨?_, ?_, ?_⟩
  · intro t ht q hq
    rcases Kernel.hatched_mem ht with ht | ⟨rfl, -⟩
    · rw [hatched_task_other hr task p join ht] at hq
      exact h.live t ht q hq
    · rw [hnew] at hq
      rw [← Option.some.inj hq]
      exact h.live _ hr.current p hp
  · intro q hq t ht htq
    rw [finished_congr (hstate q).1] at hq
    rcases Kernel.hatched_mem ht with ht | ⟨rfl, -⟩
    · rw [hatched_task_other hr task p join ht] at htq ⊢
      exact h.ended q hq t ht htq
    · -- the caller's process still runs
      rw [hnew] at htq
      rw [← Option.some.inj htq, h.running hr hr.current hp] at hq
      cases hq
  · intro q hq r hqr
    rw [(hstate q).2] at hqr
    exact h.parents q hq r hqr

theorem ParentsInv.fewer {k' : Kernel} (h : ParentsInv k) (hr : RingOk k)
    (hlive : k'.live = k.live) (hmem : ∀ x ∈ k'.tasklist, x ∈ k.tasklist)
    (hproc : ∀ x ∈ k.tasklist, (k'.tasks x).process = (k.tasks x).process)
    (hprocs : ∀ q, (k'.procs q).state = (k.procs q).state ∧
      (k'.procs q).parent = (k.procs q).parent) : ParentsInv k' := by
  refine ⟨?_, ?_, ?_⟩
  · intro x hx q hq
    rw [hlive]
    exact h.live x (hmem x hx) q ((hproc x (hmem x hx)).symm.trans hq)
  · intro q hq x hx hxq
    rw [finished_congr (hprocs q).1] at hq
    rw [hproc x (hmem x hx)] at hxq
    exact absurd (h.ended q hq x (hmem x hx) hxq) (hr.not_dying (hmem x hx))
  · intro q hq r hqr
    rw [(hprocs q).2] at hqr
    rw [hlive] at hq ⊢
    exact h.parents q hq r hqr

theorem dropThread_procs (k : Kernel) (p t q : ℕ) :
    ((k.dropThread p t).procs q).state = (k.procs q).state ∧
      ((k.dropThread p t).procs q).parent = (k.procs q).parent := by
  rw [Kernel.dropThread, Kernel.setProc_procs]
  split_ifs <;> exact ⟨rfl, rfl⟩

end Threads

section Delete

variable {k : Kernel} {child q : ℕ}

theorem processDelete_procs_tree (k : Kernel) (child q p : ℕ) :
    ((k.processDelete child q).procs p).state = (k.procs p).state ∧
      ((k.processDelete child q).procs p).parent = (k.procs p).parent := by
  rw [Kernel.processDelete_procs]
  exact ⟨rfl, rfl⟩

theorem ParentsInv.delete (h : ParentsInv k) (hr : RingOk k) (hfam : Family k)
    (hfin : k.finished child) (hchildren : (k.procs child).children = []) :
    ParentsInv (k.processDelete child q) := by
  have hstate := processDelete_procs_tree k child q
  refine ⟨?_, ?_, ?_⟩
  · intro t ht p hp
    refine (List.mem_erase_of_ne ?_).2 (h.live t ht p hp)
    rintro rfl
    rw [h.running hr ht hp] at hfin
    cases hfin
  · intro p hp
    rw [finished_congr (hstate p).1] at hp
    exact h.ended p hp
  · intro p hp r hpr
    rw [(hstate p).2] at hpr
    have hlive := List.mem_of_mem_erase hp
    refine (List.mem_erase_of_ne ?_).2 (h.parents p hlive r hpr)
    rintro rfl
    have hmem := (hfam.parent p hlive _ hpr).1
    rw [hchildren] at hmem
    exact absurd hmem List.not_mem_nil

theorem not_parentsLive_delete (hfam : Family k) {grandchild : ℕ} (hne : grandchild ≠ child)
    (hg : grandchild ∈ (k.procs child).children) : ¬ ParentsLive (k.processDelete child q) := by
  intro hl
  obtain ⟨hlive, hparent⟩ := hfam.children child grandchild hg
  have hin : grandchild ∈ (k.processDelete child q).live := (List.mem_erase_of_ne hne).2 hlive
  have hpar := (processDelete_procs_tree k child q grandchild).2.trans hparent
  exact hfam.nodup.not_mem_erase (hl grandchild hin child hpar).1

end Delete

theorem ParentsInv.call {k k' : Kernel} (h : ParentsInv k) (hr : RingOk k) (hfam : Family k)
    {e : KEvent} (hf : e.Fits k) (hC : ReapsChildless k e) (he : Effect k e k') :
    ParentsInv k' := by
  cases he with
  | user r m => exact h.same (sameReap_user k r m)
  | spawn => exact h.born hr hfam _ _ _ hf
  | fork hp =>
    exact h.born hr hfam _ _ _ fun q hq => h.live _ hr.current q (Option.some.inj hq ▸ hp)
  | thcreate hp => exact h.hatched hr hp
  | thkillLast _ _ hk => exact h.kill hr hk fun _ => rfl
  | @thkillSelf _ _ p =>
    refine h.fewer hr rfl (fun _ hx => hx) (fun x _ => ?_) (dropThread_procs k p k.current)
    rw [Kernel.setState, Kernel.setTask_tasks]
    split_ifs <;> rfl
  | @thkillOther _ _ p t =>
    exact h.fewer hr rfl (fun _ hx => List.mem_of_mem_erase hx) (fun _ _ => rfl)
      (dropThread_procs k p t)
  | exit _ hk => exact h.kill hr hk fun _ => rfl
  | @waitpid _ _ q child _ m hargs hq hchild hparent =>
    have hmem := List.mem_of_find?_eq_some hchild
    obtain rfl := Option.some.inj (hparent.symm.trans (hfam.children q child hmem).2)
    have hm : ParentsInv { k with mem := m } := h.same (sameReap_of_tasks rfl rfl rfl rfl)
    exact hm.delete (hr.same (sameRing_mem k m))
      (hfam.same (sameFamily_of_procs rfl rfl rfl rfl le_rfl)) (List.find?_some hchild)
      (hC hargs.1 hargs.2 _ hq child hchild)
  | sleep =>
    have hst : TaskState.TASK_SLEEPING ≠ .TASK_DYING := by decide
    exact h.same (sameReap_setTask rfl
      ⟨rfl, fun hd => absurd hd hst, fun hd => absurd hd hr.alive⟩ rfl rfl rfl)
  | sigaction => exact h.same (sameReap_setTask rfl ⟨rfl, Iff.rfl⟩ rfl rfl rfl)
  | sigrestore r m => exact (h.same (sameReap_mask k k.current _)).same (sameReap_user _ r m)
  | @sendExec t s _ _ he =>
    have ha : ParentsInv ((k.accept t).hand k.sent.length t) :=
      h.same (sameReap_of_tasks rfl rfl rfl rfl)
    exact ha.exec ((hr.accept t).hand _ t) hf he
  | _ => exact h.same (sameReap_of_tasks rfl rfl rfl rfl)

theorem ParentsInv.switchTo {k : Kernel} (h : ParentsInv k) (n : ℕ) :
    ParentsInv (k.switchTo n) := by
  have hw : ParentsInv (k.wake n) := h.same (sameReap_wake k n)
  unfold Kernel.switchTo
  dsimp only
  split_ifs
  · exact ⟨fun t ht => hw.live t (List.mem_of_mem_erase ht),
      fun p hp t ht => hw.ended p hp t (List.mem_of_mem_erase ht), hw.parents⟩
  · exact hw.same (sameReap_of_tasks rfl rfl rfl rfl)

/-- What depends on the processes and their threads only is stable if the calls and signals and
the switch keep it. -/
theorem stable_of_sameReap {C : Kernel → KEvent → Prop} {X : Kernel → Prop}
    (hboot : ∀ k, KBoot k → X k) (hsame : ∀ k k', X k → SameReap k k' → X k')
    (hexec : ∀ k k' t s, X k → RingOk k → t ∈ k.tasklist → ExecEffect k t s k' → X k')
    (hcall : ∀ k e k', X k → RingOk k → Family k → e.Fits k → C k e → Effect k e k' → X k')
    (hswitch : ∀ k n, X k → X (k.switchTo n)) :
    Stable C (fun k => TaskRing k ∧ Family k) (fun k => RingOk k ∧ Family k) X where
  boot := hboot
  user k r m h := hsame _ _ h (sameReap_user k r m)
  call k e k' hj h hf hC he := hcall k e k' h hj.1 hj.2 hf hC he
  switch k n _ h _ := hswitch k n h
  pending k x k1 k' hj h hfetch he := by
    obtain ⟨-, rfl⟩ := signalFetch_current hfetch
    have ha : X ((k.dequeue k.current).hand x.id k.current) :=
      hsame _ _ h (sameReap_of_tasks rfl rfl rfl rfl)
    exact hexec _ k' _ _ ha ((hj.1.withQueues _).hand _ _) hj.1.current he
  jump k prev _ h := hsame _ _ h (sameReap_of_tasks rfl rfl rfl rfl)

theorem parentsInv_stable : Stable ReapsChildless (fun k => TaskRing k ∧ Family k)
    (fun k => RingOk k ∧ Family k) ParentsInv := by
  apply stable_of_sameReap
  · intro k hk
    obtain ⟨idle, mem, pitTicks, rfl⟩ := hk
    refine ⟨fun t _ p hp => ?_, fun p hp => ?_, nofun⟩
    · cases hp
    · cases hp
  · exact fun _ _ => ParentsInv.same
  · exact fun _ _ _ _ h hr ht he => h.exec hr ht he
  · exact fun _ _ _ h hr hfam hf hC he => h.call hr hfam hf hC he
  · exact fun _ n h => h.switchTo n

theorem parents_rule : KRule ReapsChildless (fun _ => True) (fun _ => True)
    (fun k => (TaskRing k ∧ Family k) ∧ ParentsInv k)
    (fun k => (RingOk k ∧ Family k) ∧ ParentsInv k) :=
  (family_rule.weaken fun _ _ _ => trivial).and (parentsInv_stable.rule fun _ hk => hk.1)

theorem ParentsInv.parentsLive {k : Kernel} (h : ParentsInv k) (hfam : Family k) :
    ParentsLive k := by
  intro p hp q hq
  refine ⟨h.parents p hp q hq, ?_⟩
  exact List.count_eq_one_of_mem (hfam.once q) (hfam.parent p hp q hq).1

theorem waitpid_reaps {k : Kernel} {wstatus q child parent : ℕ} (hst : wstatus ≠ 0)
    (hq : k.currentTask.process = some q)
    (hchild : (k.procs q).children.find? k.finished = some child)
    (hparent : (k.procs child).parent = some parent) :
    ∃ m, kernelCall k (.waitpid (-1) wstatus) =
      (({ k with mem := m }).processDelete child parent, .ret (some (k.procs child).pid)) := by
  refine ⟨Function.update k.mem k.currentTask.pgd
    (store32 (k.mem k.currentTask.pgd) wstatus (k.waitStatus child)), ?_⟩
  simp only [kernelCall, Kernel.sysWaitpid, hst, hq, hchild, hparent]
  rfl

/-- A `waitpid` that reaps a process with children loses their parent. -/
theorem reaped_orphans {k k' : Kernel} (hr : RingOk k) (hfam : Family k) (h : ParentsInv k)
    {e : KEvent} (hC : ¬ ReapsChildless k e) (hs : KStep k e k') : ¬ ParentsLive k' := by
  cases e with
  | waitpid pid wstatus =>
    unfold ReapsChildless at hC
    push Not at hC
    obtain ⟨rfl, hst, q, hq, child, hchild, hne⟩ := hC
    have hmem := List.mem_of_find?_eq_some hchild
    have hparent := (hfam.children q child hmem).2
    obtain ⟨grandchild, hg⟩ := List.exists_mem_of_ne_nil _ hne
    -- a child of itself would be the caller, which has not finished
    have hneq : grandchild ≠ child := by
      rintro rfl
      have hself := (hfam.children _ _ hg).2
      obtain rfl := Option.some.inj (hself.symm.trans hparent)
      have hrun := h.running hr hr.current hq
      rw [List.find?_some hchild] at hrun
      cases hrun
    obtain ⟨m, hcall⟩ := waitpid_reaps hst hq hchild hparent
    obtain ⟨-, hends⟩ := hs
    rw [hcall] at hends
    obtain rfl := hends
    have hm : Family { k with mem := m } := hfam.same (sameFamily_of_procs rfl rfl rfl rfl le_rfl)
    exact not_parentsLive_delete hm hneq hg
  | _ => exact absurd trivial hC

/-- In a run in which `waitpid` reaps no process that has children, every process has its
parent; the next step keeps it so exactly when it does not reap one either. -/
theorem parents_live {evs : List KEvent} {k : Kernel} (h : KRunOf ReapsChildless evs k) :
    ParentsLive k ∧ ∀ e k', KStep k e k' → (ParentsLive k' ↔ ReapsChildless k e) := by
  obtain ⟨⟨hr, hfam⟩, hinv⟩ := parents_rule.run h
  refine ⟨hinv.parentsLive hfam, fun e k' hs => ⟨fun hl => ?_, fun hC => ?_⟩⟩
  · by_contra hC
    exact reaped_orphans hr hfam hinv hC hs hl
  · obtain ⟨⟨-, hfam'⟩, hinv'⟩ := parents_rule.run (h.snoc ⟨hC, hs⟩)
    exact hinv'.parentsLive hfam'

/-- `ReapsChildless`, computed. -/
def reapsChildless (k : Kernel) : KEvent → Bool
  | .waitpid _ _ =>
    match k.currentTask.process with
    | none => true
    | some q => ((k.procs q).children.find? k.finished).all fun c => (k.procs c).children.isEmpty
  | _ => true

theorem reapsChildless_sound (k : Kernel) (e : KEvent) (h : reapsChildless k e = true) :
    ReapsChildless k e := by
  cases e with
  | waitpid pid wstatus =>
    intro _ _ q hq c hc
    unfold reapsChildless at h
    dsimp only at h
    rw [hq] at h
    dsimp only at h
    rw [hc] at h
    exact List.isEmpty_iff.1 h
  | _ => trivial

/-- A child forks a child of its own, which exits and is reaped by it. -/
theorem parents_live_reaped :
    ∃ k, KRunOf ReapsChildless [zeroSpawn none, .tick, .fork zeroTask, .yield, .fork zeroTask,
        .yield, .exit 3, .yield, .yield, .waitpid (-1) 64] k ∧
      k.live = [11, 7] ∧ ParentsLive k ∧
      ∀ e k', KStep k e k' → (ParentsLive k' ↔ ReapsChildless k e) := by
  obtain ⟨k, hrun, hk⟩ := zero_runOf reapsChildless_sound 1
    [zeroSpawn none, .tick, .fork zeroTask, .yield, .fork zeroTask, .yield, .exit 3, .yield,
      .yield, .waitpid (-1) 64] Kernel.live (v := [11, 7]) (by decide +kernel)
  exact ⟨k, hrun, hk, parents_live hrun⟩

/-- A child forks a child of its own and exits; the first process reaps it and the second
child is left without a parent. -/
theorem grandchild_orphaned : ¬ ∀ evs k, KRun evs k → ParentsLive k := by
  intro h
  obtain ⟨k, hrun, hk⟩ := zero_run 1 [zeroSpawn none, .tick, .fork zeroTask, .yield,
    .fork zeroTask, .exit 3, .tick, .tick, .waitpid (-1) 64]
    (fun k => (k.live, (k.procs 15).parent)) (v := ([15, 7], some 11)) (by decide +kernel)
  obtain ⟨hlive, hparent⟩ := Prod.mk.inj hk
  have hl := (h _ k hrun 15 (hlive ▸ List.mem_cons_self) 11 hparent).1
  rw [hlive] at hl
  exact absurd hl (by decide)

end DepthOS
