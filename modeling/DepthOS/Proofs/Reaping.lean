import DepthOS.Proofs.Parents

/-! Which processes `waitpid` can reap. It recognises a process that has ended by its
state alone, and `exit` and the signals set that state before they kill the threads.
`thkill` ends a process without it, and a process that is reaped before its children
leaves them without a parent. -/

namespace DepthOS

open Lib

/-- A process with a parent that cannot run any more is marked as finished and stands
exactly once in the list of a parent that exists. -/
def Reapable (k : Kernel) : Prop :=
  ∀ p ∈ k.live, ∀ q, (k.procs p).parent = some q → NoThreads k p →
    k.finished p ∧ q ∈ k.live ∧ (k.procs q).children.count p = 1

/-- `thkill` leaves a thread that runs, and `waitpid` reaps no process that has children. -/
def KeepsReapable (k : Kernel) : KEvent → Prop
  | .thkill thid _ => ∀ p, k.currentTask.process = some p → (k.procs p).threads.length ≠ 1 ∧
      ∃ t ∈ k.tasklist, (k.tasks t).process = some p ∧ (k.tasks t).thid ≠ thid
  | .waitpid pid wstatus => pid = -1 → wstatus ≠ 0 → ∀ q, k.currentTask.process = some q →
      ∀ c, (k.procs q).children.find? k.finished = some c → (k.procs c).children = []
  | _ => True

structure ReapInv (k : Kernel) : Prop where
  live : ∀ t ∈ k.tasklist, ∀ p, (k.tasks t).process = some p → p ∈ k.live
  ended : ∀ p, k.finished p → NoThreads k p
  reap : ∀ p ∈ k.live, (k.procs p).parent ≠ none → NoThreads k p → k.finished p
  parents : ∀ p ∈ k.live, ∀ q, (k.procs p).parent = some q → q ∈ k.live

theorem ReapInv.parentsInv {k : Kernel} (h : ReapInv k) : ParentsInv k :=
  ⟨h.live, h.ended, h.parents⟩

theorem ParentsInv.reapInv {k : Kernel} (h : ParentsInv k)
    (hreap : ∀ p ∈ k.live, (k.procs p).parent ≠ none → NoThreads k p → k.finished p) :
    ReapInv k :=
  ⟨h.live, h.ended, hreap, h.parents⟩

theorem ReapInv.same {k k' : Kernel} (h : ReapInv k) (hs : SameReap k k') : ReapInv k' := by
  refine (h.parentsInv.same hs).reapInv fun p hp hpar hn => ?_
  rw [finished_congr (hs.state p)]
  rw [hs.parent] at hpar
  exact h.reap p (hs.live ▸ hp) hpar ((hs.noThreads p).1 hn)

/-! The calls. -/

theorem ReapInv.kill {k k' : Kernel} (h : ReapInv k) (hr : RingOk k) {p : ℕ}
    {f : Process → Process} (hk : KilledBy k p f k')
    (hf : ∀ proc, (f proc).parent = proc.parent ∧
      ((f proc).state = .PROCESS_EXITED ∨ (f proc).state = .PROCESS_DEAD)) : ReapInv k' := by
  refine (h.parentsInv.kill hr hk fun proc => (hf proc).1).reapInv fun q hq hpar hn => ?_
  by_cases hqp : q = p
  · rw [hqp]
    unfold Kernel.finished
    rw [hk.proc, if_pos rfl]
    exact decide_eq_true (hf _).2
  · rw [hk.finished_other hqp]
    rw [hk.parent fun proc => (hf proc).1] at hpar
    have hlive : k'.live = k.live := hk.live
    exact h.reap q (hlive ▸ hq) hpar ((hk.noThreads_other hr hqp).1 hn)

theorem ReapInv.exec {k k' : Kernel} (h : ReapInv k) (hr : RingOk k) {t : ℕ} {s : Sig}
    (ht : t ∈ k.tasklist) (he : ExecEffect k t s k') : ReapInv k' := by
  apply he.keeps (fun _ _ => ReapInv.same) h hr ht
  exact fun p hk => h.kill hr hk fun _ => ⟨rfl, Or.inr rfl⟩

theorem ReapInv.born {k : Kernel} (h : ReapInv k) (hr : RingOk k) (hfam : Family k) (task : KTask)
    {parent : Option ℕ} (m : Mem) (freed : List ℕ)
    (hpar : ∀ q, parent = some q → q ∈ k.live) : ReapInv (k.born task parent m freed) := by
  have hnew := born_task_self k task parent m freed
  have hfew : ∀ p, NoThreads (k.born task parent m freed) p → NoThreads k p := by
    intro p hn t ht hp
    have := hn t (List.mem_append_left _ ht)
    rw [born_task_other hr task parent m freed ht] at this
    exact this hp
  refine (h.parentsInv.born hr hfam task m freed hpar).reapInv fun p hp hpp hn => ?_
  rcases List.mem_cons.1 hp with rfl | hp
  · have := hn k.next (List.mem_append_right _ (List.mem_singleton_self _)) (by rw [hnew])
    rw [hnew] at this
    cases this
  · obtain ⟨hstate, hparent⟩ := born_procs_old hfam task parent m freed hp
    rw [finished_congr hstate]
    rw [hparent] at hpp
    exact h.reap p hp hpp (hfew p hn)

theorem ReapInv.hatched {k : Kernel} (h : ReapInv k) (hr : RingOk k) {task : KTask} {p : ℕ}
    {join : Bool} (hp : k.currentTask.process = some p) : ReapInv (k.hatched task p join) := by
  have hstate := hatched_procs k task p join
  have hback : ∀ t ∈ k.tasklist, t ∈ (k.hatched task p join).tasklist := by
    intro t ht
    cases join
    · exact List.mem_append_left _ ht
    · exact ht
  refine (h.parentsInv.hatched hr hp).reapInv fun q hq hpar hn => ?_
  rw [finished_congr (hstate q).1]
  rw [(hstate q).2] at hpar
  refine h.reap q hq hpar fun t ht htq => ?_
  have := hn t (hback t ht)
  rw [hatched_task_other hr task p join ht] at this
  exact this htq

theorem ReapInv.lose {k k' : Kernel} (h : ReapInv k) (hr : RingOk k) {t u p : ℕ}
    (hu : u ∈ k.tasklist) (hut : u ≠ t) (hup : (k.tasks u).process = some p)
    (htp : (k.tasks t).process = some p) (hlive : k'.live = k.live)
    (hmem : ∀ x ∈ k'.tasklist, x ∈ k.tasklist)
    (hkeep : ∀ x ∈ k.tasklist, x ≠ t → x ∈ k'.tasklist ∧ k'.tasks x = k.tasks x)
    (hprocess : (k'.tasks t).process = (k.tasks t).process)
    (hprocs : ∀ q, (k'.procs q).state = (k.procs q).state ∧
      (k'.procs q).parent = (k.procs q).parent) : ReapInv k' := by
  have hproc : ∀ x ∈ k.tasklist, (k'.tasks x).process = (k.tasks x).process := by
    intro x hx
    by_cases hxt : x = t
    · rw [hxt]
      exact hprocess
    · rw [(hkeep x hx hxt).2]
  refine (h.parentsInv.fewer hr hlive hmem hproc hprocs).reapInv fun q hq hpar hn => ?_
  rw [finished_congr (hprocs q).1]
  rw [(hprocs q).2] at hpar
  refine h.reap q (hlive ▸ hq) hpar fun x hx hxq => ?_
  by_cases hxt : x = t
  · -- then `q` is the process of `u`, which runs
    rw [hxt, htp] at hxq
    obtain ⟨hin, hsame⟩ := hkeep u hu hut
    have hd := hn u hin
    rw [hsame] at hd
    exact absurd (hd (hup.trans hxq)) (hr.not_dying hu)
  · obtain ⟨hin, hsame⟩ := hkeep x hx hxt
    have hd := hn x hin
    rw [hsame] at hd
    exact hd hxq

theorem ReapInv.delete {k : Kernel} (h : ReapInv k) (hr : RingOk k) (hfam : Family k)
    {child q : ℕ} (hfin : k.finished child) (hchildren : (k.procs child).children = []) :
    ReapInv (k.processDelete child q) := by
  have hstate := processDelete_procs_tree k child q
  refine (h.parentsInv.delete hr hfam hfin hchildren).reapInv fun p hp hpp hn => ?_
  rw [finished_congr (hstate p).1]
  rw [(hstate p).2] at hpp
  exact h.reap p (List.mem_of_mem_erase hp) hpp hn

theorem ReapInv.call {k k' : Kernel} (h : ReapInv k) (hr : RingOk k) (hfam : Family k)
    {e : KEvent} (hf : e.Fits k) (hC : KeepsReapable k e) (he : Effect k e k') : ReapInv k' := by
  cases he with
  | user r m => exact h.same (sameReap_user k r m)
  | spawn => exact h.born hr hfam _ _ _ hf
  | fork hp =>
    exact h.born hr hfam _ _ _ fun q hq => h.live _ hr.current q (Option.some.inj hq ▸ hp)
  | thcreate hp => exact h.hatched hr hp
  | thkillLast hp hone _ => exact absurd hone (hC _ hp).1
  | @thkillSelf thid _ p hp _ hid =>
    obtain ⟨u, hu, hup, huid⟩ := (hC p hp).2
    have huc : u ≠ k.current := by
      rintro rfl
      exact huid hid
    have hself : (((k.dropThread p k.current).setState k.current .TASK_DYING).tasks
        k.current).process = (k.tasks k.current).process := by
      rw [Kernel.setState, Kernel.setTask_tasks, if_pos rfl]
      rfl
    refine h.lose hr hu huc hup hp rfl (fun _ hx => hx) (fun x hx hxc => ⟨hx, ?_⟩) hself
      (dropThread_procs k p k.current)
    rw [Kernel.setState, Kernel.setTask_tasks, if_neg hxc]
    rfl
  | @thkillOther _ _ p t hp _ ht hin _ hc =>
    exact h.lose hr hr.current (Ne.symm hc) hp (hr.threads p t ht).1 rfl
      (fun _ hx => List.mem_of_mem_erase hx)
      (fun x hx hxt => ⟨(List.mem_erase_of_ne hxt).2 hx, rfl⟩) rfl (dropThread_procs k p t)
  | exit _ hk => exact h.kill hr hk fun _ => ⟨rfl, Or.inl rfl⟩
  | @waitpid _ _ q child _ m hargs hq hchild hparent =>
    have hmem := List.mem_of_find?_eq_some hchild
    obtain rfl := Option.some.inj (hparent.symm.trans (hfam.children q child hmem).2)
    have hm : ReapInv { k with mem := m } := h.same (sameReap_of_tasks rfl rfl rfl rfl)
    exact hm.delete (hr.same (sameRing_mem k m))
      (hfam.same (sameFamily_of_procs rfl rfl rfl rfl le_rfl)) (List.find?_some hchild)
      (hC hargs.1 hargs.2 _ hq child hchild)
  | sleep =>
    have hst : TaskState.TASK_SLEEPING ≠ .TASK_DYING := by decide
    exact h.same (sameReap_setTask rfl
      ⟨rfl, fun hd => absurd hd hst, fun hd => absurd hd hr.alive⟩ rfl rfl rfl)
  | sigaction => exact h.same (sameReap_setTask rfl ⟨rfl, Iff.rfl⟩ rfl rfl rfl)
  | sigrestore r m => exact (h.same (sameReap_mask k k.current _)).same (sameReap_user _ r m)
  | @sendExec t s _ _ he =>
    have ha : ReapInv ((k.accept t).hand k.sent.length t) :=
      h.same (sameReap_of_tasks rfl rfl rfl rfl)
    exact ha.exec ((hr.accept t).hand _ t) hf he
  | _ => exact h.same (sameReap_of_tasks rfl rfl rfl rfl)

theorem ReapInv.switchTo {k : Kernel} (h : ReapInv k) (n : ℕ) : ReapInv (k.switchTo n) := by
  have hw : ReapInv (k.wake n) := h.same (sameReap_wake k n)
  refine (h.parentsInv.switchTo n).reapInv ?_
  unfold Kernel.switchTo
  dsimp only
  split_ifs with hd
  · -- the task that leaves the list was dying
    intro p hp hpar hn
    refine hw.reap p hp hpar fun t ht htp => ?_
    by_cases htc : t = (k.wake n).current
    · rw [htc]
      exact hd
    · exact hn t ((List.mem_erase_of_ne htc).2 ht) htp
  · exact hw.reap

theorem reapInv_stable : Stable KeepsReapable (fun k => TaskRing k ∧ Family k)
    (fun k => RingOk k ∧ Family k) ReapInv := by
  apply stable_of_sameReap
  · intro k hk
    obtain ⟨idle, mem, pitTicks, rfl⟩ := hk
    refine ⟨fun t _ p hp => ?_, fun p hp => ?_, nofun, nofun⟩
    · cases hp
    · cases hp
  · exact fun _ _ => ReapInv.same
  · exact fun _ _ _ _ h hr ht he => h.exec hr ht he
  · exact fun _ _ _ h hr hfam hf hC he => h.call hr hfam hf hC he
  · exact fun _ n h => h.switchTo n

/-- In a run in which every `thkill` leaves its process a thread that runs and `waitpid`
reaps no process that has children, every process that cannot run any more can be
reaped. -/
theorem finished_reapable {evs : List KEvent} {k : Kernel} (h : KRunOf KeepsReapable evs k) :
    Reapable k := by
  have hrule := (family_rule.weaken fun _ _ _ => trivial).and
    (reapInv_stable.rule fun _ hk => hk.1)
  obtain ⟨⟨-, hfam⟩, hreap⟩ := hrule.run h
  intro p hp q hq hn
  refine ⟨hreap.reap p hp (by rw [hq]; nofun) hn, hreap.parents p hp q hq, ?_⟩
  exact List.count_eq_one_of_mem (hfam.once q) (hfam.parent p hp q hq).1

/-- A process forks a child and the child exits. -/
theorem finished_reapable_child :
    ∃ k, KRunOf KeepsReapable [zeroSpawn none, .tick, .fork zeroTask, .yield, .exit 3] k ∧
      (k.live, k.tasklist) = ([11, 7], [2, 4]) ∧ Reapable k := by
  have hc : ∀ (k : Kernel) (e : KEvent),
      (match e with | .thkill _ _ => false | .waitpid _ _ => false | _ => true) = true →
        KeepsReapable k e := by
    intro k e h
    cases e with
    | thkill => cases h
    | waitpid => cases h
    | _ => trivial
  obtain ⟨k, hrun, hk⟩ := zero_runOf hc 1
    [zeroSpawn none, .tick, .fork zeroTask, .yield, .exit 3] (fun k => (k.live, k.tasklist))
    (v := ([11, 7], [2, 4])) (by decide +kernel)
  exact ⟨k, hrun, hk, finished_reapable hrun⟩

/-- The child ends itself by `thkill` instead, and still counts as running. -/
theorem thkilled_child_lost : ¬ ∀ evs k, KRun evs k → Reapable k := by
  intro h
  obtain ⟨k, hrun, hk⟩ := zero_run 1 [zeroSpawn none, .tick, .fork zeroTask, .yield, .thkill 0 0]
    (fun k => ((k.live, k.tasklist.map fun t => (k.tasks t).process), (k.procs 11).parent,
      k.finished 11))
    (v := (([11, 7], [none, some 7]), some 7, false)) (by decide +kernel)
  obtain ⟨⟨hlive, hlist⟩, hparent, hfin⟩ := by simpa only [Prod.mk.injEq] using hk
  have hnone : NoThreads k 11 := by
    intro t ht hp
    have hin : some 11 ∈ k.tasklist.map fun t => (k.tasks t).process := List.mem_map.2 ⟨t, ht, hp⟩
    rw [hlist] at hin
    exact absurd hin (by decide)
  have hend := (h _ k hrun 11 (hlive ▸ List.mem_cons_self) 7 hparent hnone).1
  rw [hfin] at hend
  cases hend

end DepthOS
