import DepthOS.Proofs.Effect

/-! The tree of processes: which processes exist, and that the `parent` pointers and the
`children` lists agree about them. Only `process_spawn`, `fork` and `waitpid` change the
tree; every other call and `reschedule` leave it as it is. -/

namespace DepthOS

open Lib

/-- Nothing that the tree of processes or their ids are made of has changed. -/
structure SameFamily (k k' : Kernel) : Prop where
  live : k'.live = k.live
  freePid : k'.freePid = k.freePid
  currentPid : k'.currentPid = k.currentPid
  next : k.next ≤ k'.next
  pid : ∀ p, (k'.procs p).pid = (k.procs p).pid
  parent : ∀ p, (k'.procs p).parent = (k.procs p).parent
  children : ∀ p, (k'.procs p).children = (k.procs p).children

theorem sameFamily_of_procs {k k' : Kernel} (hprocs : k'.procs = k.procs) (hlive : k'.live = k.live)
    (hfree : k'.freePid = k.freePid) (hpid : k'.currentPid = k.currentPid)
    (hnext : k.next ≤ k'.next) : SameFamily k k' :=
  ⟨hlive, hfree, hpid, hnext, fun _ => by rw [hprocs], fun _ => by rw [hprocs],
    fun _ => by rw [hprocs]⟩

theorem SameFamily.trans {k k' k'' : Kernel} (h : SameFamily k k') (h' : SameFamily k' k'') :
    SameFamily k k'' :=
  ⟨h'.live.trans h.live, h'.freePid.trans h.freePid, h'.currentPid.trans h.currentPid,
    h.next.trans h'.next, fun p => (h'.pid p).trans (h.pid p),
    fun p => (h'.parent p).trans (h.parent p), fun p => (h'.children p).trans (h.children p)⟩

theorem sameFamily_setProc {k k' : Kernel} {p : ℕ} {proc : Process}
    (hprocs : k'.procs = Function.update k.procs p proc)
    (hproc : proc.pid = (k.procs p).pid ∧ proc.parent = (k.procs p).parent ∧
      proc.children = (k.procs p).children) (hlive : k'.live = k.live)
    (hfree : k'.freePid = k.freePid) (hpid : k'.currentPid = k.currentPid)
    (hnext : k.next ≤ k'.next) : SameFamily k k' := by
  have hall : ∀ q, (k'.procs q).pid = (k.procs q).pid ∧ (k'.procs q).parent = (k.procs q).parent ∧
      (k'.procs q).children = (k.procs q).children := by
    intro q
    rw [hprocs]
    by_cases hq : q = p
    · rw [hq, Function.update_self]
      exact hproc
    · rw [Function.update_of_ne hq]
      exact ⟨rfl, rfl, rfl⟩
  exact ⟨hlive, hfree, hpid, hnext, fun q => (hall q).1, fun q => (hall q).2.1,
    fun q => (hall q).2.2⟩

theorem sameFamily_kill {k k' : Kernel} {p : ℕ} {f : Process → Process} (hk : KilledBy k p f k')
    (hf : ∀ proc, (f proc).pid = proc.pid ∧ (f proc).parent = proc.parent ∧
      (f proc).children = proc.children) : SameFamily k k' := by
  have hprocs : k'.procs = Function.update k.procs p (f (k.procs p)) := by
    funext q
    rw [hk.proc, Function.update_apply]
    split_ifs with hq
    · rw [hq]
    · rfl
  exact sameFamily_setProc hprocs (hf _) hk.live hk.freePid hk.currentPid hk.next.ge

theorem sameFamily_exec {k k' : Kernel} {t : ℕ} {s : Sig} (he : ExecEffect k t s k') :
    SameFamily k k' := by
  cases he with
  | ignored => exact sameFamily_of_procs rfl rfl rfl rfl le_rfl
  | killed _ _ hk => exact sameFamily_kill hk fun _ => ⟨rfl, rfl, rfl⟩
  | stopped => exact sameFamily_of_procs rfl rfl rfl rfl le_rfl
  | caught => exact sameFamily_of_procs rfl rfl rfl rfl le_rfl

/-- `process_spawn` and `fork` -/
def KEvent.isCreate : KEvent → Bool
  | .spawn _ _ _ _ => true
  | .fork _ => true
  | _ => false

/-- A process comes, as the child of one that is there. -/
def Grows (k k' : Kernel) : Prop :=
  ∃ task parent m freed, k' = k.born task parent m freed ∧
    ∀ q, parent = some q → q ∈ k.live ∨ k.currentTask.process = some q

/-- A child of some process goes. -/
def Shrinks (k k' : Kernel) : Prop :=
  ∃ m q child parent, child ∈ (k.procs q).children ∧ (k.procs child).parent = some parent ∧
    k' = ({ k with mem := m }).processDelete child parent

theorem effect_family {k k' : Kernel} {e : KEvent} (hf : e.Fits k) (he : Effect k e k') :
    (e.isCreate = false ∧ (SameFamily k k' ∨ Shrinks k k')) ∨ (e.isCreate = true ∧ Grows k k') := by
  cases he with
  | spawn => exact Or.inr ⟨rfl, _, _, _, _, rfl, fun q hq => Or.inl (hf q hq)⟩
  | fork hp => exact Or.inr ⟨rfl, _, _, _, _, rfl, fun q hq => Or.inr (hq ▸ hp)⟩
  | thcreate =>
    exact Or.inl ⟨rfl, Or.inl (sameFamily_setProc rfl ⟨rfl, rfl, rfl⟩ rfl rfl rfl
      (Nat.le_add_right _ _))⟩
  | thkillLast _ _ hk => exact Or.inl ⟨rfl, Or.inl (sameFamily_kill hk fun _ => ⟨rfl, rfl, rfl⟩)⟩
  | thkillSelf =>
    exact Or.inl ⟨rfl, Or.inl (sameFamily_setProc rfl ⟨rfl, rfl, rfl⟩ rfl rfl rfl le_rfl)⟩
  | thkillOther =>
    exact Or.inl ⟨rfl, Or.inl (sameFamily_setProc rfl ⟨rfl, rfl, rfl⟩ rfl rfl rfl le_rfl)⟩
  | exit _ hk => exact Or.inl ⟨rfl, Or.inl (sameFamily_kill hk fun _ => ⟨rfl, rfl, rfl⟩)⟩
  | waitpid m _ _ hchild hparent =>
    exact Or.inl ⟨rfl, Or.inr ⟨m, _, _, _, List.mem_of_find?_eq_some hchild, hparent, rfl⟩⟩
  | sendExec _ he =>
    have ha := sameFamily_exec he
    exact Or.inl ⟨rfl, Or.inl ⟨ha.live, ha.freePid, ha.currentPid, ha.next, ha.pid, ha.parent,
      ha.children⟩⟩
  | _ => exact Or.inl ⟨rfl, Or.inl (sameFamily_of_procs rfl rfl rfl rfl le_rfl)⟩

theorem sameFamily_switchTo (k : Kernel) (n : ℕ) : SameFamily k (k.switchTo n) := by
  have hw : SameFamily k (k.wake n) := by
    unfold Kernel.wake
    split_ifs <;> exact sameFamily_of_procs rfl rfl rfl rfl le_rfl
  refine hw.trans ?_
  unfold Kernel.switchTo
  dsimp only
  split_ifs <;> exact sameFamily_of_procs rfl rfl rfl rfl le_rfl

theorem sameFamily_pending {k k1 k' : Kernel} {x : Pending}
    (hfetch : k.signalFetch k.current = some (x, k1))
    (he : ExecEffect (k1.hand x.id k.current) k.current x.sig k') : SameFamily k k' := by
  obtain ⟨-, rfl⟩ := signalFetch_current hfetch
  have ha := sameFamily_exec he
  exact ⟨ha.live, ha.freePid, ha.currentPid, ha.next, ha.pid, ha.parent, ha.children⟩

/-! The invariant. -/

structure Family (k : Kernel) : Prop where
  nodup : k.live.Nodup
  below : ∀ p ∈ k.live, p < k.next
  children : ∀ q, ∀ c ∈ (k.procs q).children, c ∈ k.live ∧ (k.procs c).parent = some q
  once : ∀ q, (k.procs q).children.Nodup
  parent : ∀ p ∈ k.live, ∀ q, (k.procs p).parent = some q → p ∈ (k.procs q).children ∧ q < k.next

theorem Family.same {k k' : Kernel} (h : Family k) (hs : SameFamily k k') : Family k' := by
  refine ⟨?_, ?_, ?_, ?_, ?_⟩
  · rw [hs.live]
    exact h.nodup
  · intro p hp
    exact (h.below p (hs.live ▸ hp)).trans_le hs.next
  · intro q c hc
    rw [hs.live, hs.parent]
    exact h.children q c (hs.children q ▸ hc)
  · intro q
    rw [hs.children]
    exact h.once q
  · intro p hp q hq
    rw [hs.children]
    obtain ⟨hmem, hlt⟩ := h.parent p (hs.live ▸ hp) q (hs.parent p ▸ hq)
    exact ⟨hmem, hlt.trans_le hs.next⟩

theorem born_procs_self (k : Kernel) (task : KTask) {parent : Option ℕ} (m : Mem) (freed : List ℕ)
    (hpar : ∀ q, parent = some q → q < k.next) :
    (k.born task parent m freed).procs (k.next + 3) =
      ⟨k.generatePid.1, .PROCESS_RUNNING, 0, 0, parent, [], [k.next]⟩ := by
  unfold Kernel.born Kernel.addChild
  rcases parent with _ | q
  · simp
  · have hq : k.next + 3 ≠ q := by
      have := hpar q rfl
      omega
    simp [hq]

theorem born_procs_other (k : Kernel) (task : KTask) (parent : Option ℕ) (m : Mem) (freed : List ℕ)
    {p : ℕ} (hp : p ≠ k.next + 3) :
    (k.born task parent m freed).procs p =
      if parent = some p then
        { k.procs p with children := (k.procs p).children ++ [k.next + 3] }
      else k.procs p := by
  unfold Kernel.born Kernel.addChild
  rcases parent with _ | q
  · simp [hp]
  · by_cases hq : p = q
    · subst hq
      simp [hp]
    · have hqp : q ≠ p := Ne.symm hq
      simp [hp, hq, hqp]

theorem born_parent (k : Kernel) (task : KTask) (parent : Option ℕ) (m : Mem) (freed : List ℕ)
    {p : ℕ} (hp : p ≠ k.next + 3) :
    ((k.born task parent m freed).procs p).parent = (k.procs p).parent := by
  rw [born_procs_other k task parent m freed hp]
  split_ifs <;> rfl

theorem born_children (k : Kernel) (task : KTask) (parent : Option ℕ) (m : Mem) (freed : List ℕ)
    {q : ℕ} (hq : q ≠ k.next + 3) : ((k.born task parent m freed).procs q).children =
      if parent = some q then (k.procs q).children ++ [k.next + 3] else (k.procs q).children := by
  rw [born_procs_other k task parent m freed hq]
  split_ifs <;> rfl

theorem Family.born {k : Kernel} (h : Family k) (task : KTask) {parent : Option ℕ} (m : Mem)
    (freed : List ℕ) (hpar : ∀ q, parent = some q → q < k.next) :
    Family (k.born task parent m freed) := by
  have hself := born_procs_self k task m freed hpar
  have hne : ∀ p ∈ k.live, p ≠ k.next + 3 := fun p hp => by
    have := h.below p hp
    omega
  refine ⟨List.nodup_cons.2 ⟨fun hin => hne _ hin rfl, h.nodup⟩, ?_, ?_, ?_, ?_⟩
  · intro p hp
    change p < k.next + 4
    rcases List.mem_cons.1 hp with rfl | hp
    · omega
    · have := h.below p hp
      omega
  · intro q c hc
    by_cases hq : q = k.next + 3
    · subst hq
      rw [hself] at hc
      exact absurd hc List.not_mem_nil
    · rw [born_children _ _ _ _ _ hq] at hc
      have hold : c ∈ (k.procs q).children →
          c ∈ k.live ∧ ((k.born task parent m freed).procs c).parent = some q := by
        intro hc
        obtain ⟨hlive, hp⟩ := h.children q c hc
        exact ⟨hlive, (born_parent _ _ _ _ _ (hne c hlive)).trans hp⟩
      split_ifs at hc with hpq
      · rcases List.mem_append.1 hc with hc | hc
        · exact ⟨List.mem_cons_of_mem _ (hold hc).1, (hold hc).2⟩
        · obtain rfl := List.mem_singleton.1 hc
          rw [hself]
          exact ⟨List.mem_cons_self, hpq⟩
      · exact ⟨List.mem_cons_of_mem _ (hold hc).1, (hold hc).2⟩
  · intro q
    by_cases hq : q = k.next + 3
    · subst hq
      rw [hself]
      exact List.nodup_nil
    · rw [born_children _ _ _ _ _ hq]
      split_ifs
      · refine List.nodup_append.2 ⟨h.once q, List.nodup_singleton _, fun c hc x hx => ?_⟩
        rw [List.mem_singleton.1 hx]
        exact hne c (h.children q c hc).1
      · exact h.once q
  · intro p hp q hq
    rcases List.mem_cons.1 hp with rfl | hp
    · rw [hself] at hq
      have hlt := hpar q hq
      rw [born_children _ _ _ _ _ (by omega), if_pos hq]
      refine ⟨List.mem_append_right _ (List.mem_singleton_self _), ?_⟩
      change q < k.next + 4
      omega
    · rw [born_parent _ _ _ _ _ (hne p hp)] at hq
      obtain ⟨hmem, hlt⟩ := h.parent p hp q hq
      refine ⟨?_, hlt.trans (Nat.lt_add_of_pos_right (by decide : 0 < 4))⟩
      rw [born_children _ _ _ _ _ (by omega)]
      split_ifs
      · exact List.mem_append_left _ hmem
      · exact hmem

theorem Family.delete {k : Kernel} (h : Family k) {child q : ℕ}
    (hchild : child ∈ (k.procs q).children) : Family (k.processDelete child q) := by
  have hparent := (h.children q child hchild).2
  refine ⟨h.nodup.erase child, fun p hp => h.below p (List.mem_of_mem_erase hp), ?_, ?_, ?_⟩
  · intro p c hc
    rw [Kernel.processDelete_procs] at hc
    rw [Kernel.processDelete_procs]
    dsimp only at hc
    have hold : c ∈ (k.procs p).children := by
      split_ifs at hc
      · exact List.mem_of_mem_erase hc
      · exact hc
    obtain ⟨hlive, hcp⟩ := h.children p c hold
    refine ⟨(List.mem_erase_of_ne ?_).2 hlive, hcp⟩
    -- the deleted child was in this one list, once
    rintro rfl
    obtain rfl : p = q := Option.some.inj (hcp.symm.trans hparent)
    rw [if_pos rfl] at hc
    exact (h.once p).not_mem_erase hc
  · intro p
    rw [Kernel.processDelete_procs]
    dsimp only
    split_ifs
    · exact (h.once p).erase child
    · exact h.once p
  · intro p hp r hr
    rw [Kernel.processDelete_procs] at hr
    have hne : p ≠ child := by
      rintro rfl
      exact h.nodup.not_mem_erase hp
    obtain ⟨hmem, hlt⟩ := h.parent p (List.mem_of_mem_erase hp) r hr
    rw [Kernel.processDelete_procs]
    dsimp only
    split_ifs
    · exact ⟨(List.mem_erase_of_ne hne).2 hmem, hlt⟩
    · exact ⟨hmem, hlt⟩

theorem RingOk.process_lt {k : Kernel} (h : RingOk k) {p : ℕ}
    (hp : k.currentTask.process = some p) : p < k.next := by
  have hne : k.current ≠ IDLE_TASK := by
    intro hi
    rw [Kernel.currentTask, hi, h.idle_process] at hp
    cases hp
  obtain ⟨q, hq, hlt, -⟩ := h.member _ h.current hne
  obtain rfl := Option.some.inj (hq.symm.trans hp)
  exact hlt

theorem Family.grows {k k' : Kernel} (h : Family k) (hr : RingOk k) (hg : Grows k k') :
    Family k' := by
  obtain ⟨task, parent, m, freed, rfl, hpar⟩ := hg
  exact h.born task m freed fun q hq => (hpar q hq).elim (h.below q) hr.process_lt

theorem Shrinks.parent_eq {k k' : Kernel} (h : Family k) (hs : Shrinks k k') :
    ∃ m q child, child ∈ (k.procs q).children ∧
      k' = ({ k with mem := m }).processDelete child q := by
  obtain ⟨m, q, child, parent, hchild, hparent, rfl⟩ := hs
  obtain rfl : parent = q := Option.some.inj (hparent.symm.trans (h.children q child hchild).2)
  exact ⟨m, parent, child, hchild, rfl⟩

theorem Family.shrinks {k k' : Kernel} (h : Family k) (hs : Shrinks k k') : Family k' := by
  obtain ⟨m, q, child, hchild, rfl⟩ := hs.parent_eq h
  have hm : Family { k with mem := m } := h.same (sameFamily_of_procs rfl rfl rfl rfl le_rfl)
  exact hm.delete hchild

theorem family_stable : Stable (fun _ _ => True) TaskRing RingOk Family where
  boot k hk := by
    obtain ⟨idle, mem, pitTicks, rfl⟩ := hk
    exact ⟨List.nodup_nil, nofun, fun _ => nofun, fun _ => List.nodup_nil, nofun⟩
  user k r m h := h.same (sameFamily_of_procs rfl rfl rfl rfl le_rfl)
  call k e k' hr h hf _ he := by
    rcases effect_family hf he with ⟨-, hs | hs⟩ | ⟨-, hg⟩
    · exact h.same hs
    · exact h.shrinks hs
    · exact h.grows hr hg
  switch k n _ h _ := h.same (sameFamily_switchTo k n)
  pending k x k1 k' _ h hfetch he := h.same (sameFamily_pending hfetch he)
  jump k prev _ h := h.same (sameFamily_of_procs rfl rfl rfl rfl le_rfl)

theorem family_rule : KRule (fun _ _ => True) (fun _ => True) (fun _ => True)
    (fun k => TaskRing k ∧ Family k) (fun k => RingOk k ∧ Family k) :=
  ring_rule.and (family_stable.rule fun _ hk => hk)

theorem create_grows {k k' : Kernel} {e : KEvent} (hr : RingOk k) (hc : e.isCreate = true)
    (hs : KStep k e k') : ∃ k1 r m, Grows k k1 ∧ k' = k1.withUser r m := by
  obtain ⟨hf, hends⟩ := hs
  cases e with
  | spawn parent junk regs image =>
    obtain rfl : k' = k.processSpawn parent junk regs image := hends
    have hg : Grows k (k.processSpawn parent junk regs image) :=
      ⟨_, _, _, _, k.processSpawn_born parent junk regs image, fun q hq => Or.inl (hf q hq)⟩
    exact ⟨_, fun t => ((k.processSpawn parent junk regs image).tasks t).regs,
      (k.processSpawn parent junk regs image).mem, hg, rfl⟩
  | fork junk =>
    obtain ⟨p, hp, -⟩ := hr.member_thread hr.current hf
    have hcall : kernelCall k (.fork junk) = (k.born (k.childTask k.current junk) (some p)
        (k.mem k.currentTask.pgd) k.freed, .ret (some k.generatePid.1)) :=
      congrArg (Prod.map id (Flow.map some)) (Kernel.sysFork_born k junk hp)
    rw [hcall] at hends
    obtain rfl := hends
    obtain ⟨r, m, hu⟩ := (k.born (k.childTask k.current junk) (some p) (k.mem k.currentTask.pgd)
      k.freed).sysRet_user k.generatePid.1
    exact ⟨_, r, m, ⟨_, _, _, _, rfl, fun q hq => Or.inr (hq ▸ hp)⟩, hu⟩
  | _ => cases hc

end DepthOS
