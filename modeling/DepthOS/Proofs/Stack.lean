import DepthOS.Proofs.Vma
import DepthOS.Spec.Mmap

/-! Whether `mmap` can cover a task's stack. `alloc_stack` registers the stack with
its number of pages as the size in bytes, so that only the first of its pages is
protected, and a region created right below it takes its place in the list.
`do_mmap` refuses exactly what overlaps an area still in the list. -/

namespace DepthOS

open Lib

/-- The call passes every check of `sys_mmap` and `do_mmap` but the one against
the other areas. -/
structure Accepted (s : MmapState) (p : MmapParams) (env : MmapEnv) : Prop where
  fixed : ¬(p.addr = 0 ∧ p.flags &&& MAP_FIXED ≠ 0)
  length : p.length ≠ 0
  user : s.target p + p.length ≤ VIRT_BASE
  aligned : s.target p % PAGE_SIZE = 0
  file : p.flags &&& MAP_ANON = 0 ∧ p.fd ≠ 0 → (mapFileArea env.table
    (vmaNew s.task (s.target p) (pgRndUp p.length) p.flags) p.fd p.offset).1 = .ok ()

/-- The region overlaps an area that is in the task's list. -/
def MeetsListed (s : MmapState) (p : MmapParams) : Prop :=
  ∃ es x, Chain (fun x => (s.mem.entries x).next) s.task.first es ∧ x ∈ es ∧
    vmaOverlap (areaAt s.mem x) (vmaNew s.task (s.target p) (pgRndUp p.length) p.flags) = true

/-- An accepted region that reaches the stack also meets an area of the list. -/
def Guarded (s : StackState) (e : MmapParams × MmapEnv) : Prop :=
  Accepted s.call e.1 e.2 → MeetsStack s.stack (s.call.target e.1) e.1.length →
    MeetsListed s.call e.1

/-- The runs in which every call is guarded. -/
def GuardedRun : List (MmapParams × MmapEnv) → StackState → Prop :=
  Run StackBoot fun s e s' => StackStep s e s' ∧ Guarded s e

theorem pgRndUp_user {addr length : ℕ} (h0 : length ≠ 0) (hal : addr % PAGE_SIZE = 0)
    (h : addr + length ≤ VIRT_BASE) : 0 < pgRndUp length ∧ addr + pgRndUp length ≤ VIRT_BASE := by
  simp only [pgRndUp, roundUp, u32, PAGE_SIZE, VIRT_BASE] at *
  omega

theorem VmaInv.retouch {s s' : VmaState} {es : List ℕ} (hi : VmaInv s es)
    (hE : s'.mem.entries = s.mem.entries) (hB : s'.mem.blocks = s.mem.blocks)
    (ht : s'.task = s.task)
    (hA : ∀ p, (s'.mem.areas p).addr = (s.mem.areas p).addr ∧
      (s'.mem.areas p).size = (s.mem.areas p).size) : VmaInv s' es := by
  refine ⟨?_, ?_, fun x hx => ?_, ?_, ?_, ?_, ?_⟩
  · rw [ht, hE]
    exact hi.rep
  · rw [ht]
    exact hi.null
  · obtain ⟨h1, h2⟩ := hi.ok x hx
    unfold areaAt at h1 h2 ⊢
    rw [hE]
    constructor
    · rwa [(hA _).2]
    · rwa [(hA _).1, (hA _).2]
  · refine hi.sorted.imp fun {x y} hb => ?_
    unfold AreaBelow areaAt at hb ⊢
    rwa [hE, (hA _).1, (hA _).2, (hA _).1]
  · rw [hE]
    exact hi.values
  · rw [hE]
    exact hi.apart
  · rw [hE, hB]
    exact hi.owned

theorem mapNode_place (node : ℕ) (op : MmapOp) (a : VmArea) (offset : ℤ) :
    (mapNode node op a offset).2.addr = a.addr ∧ (mapNode node op a offset).2.size = a.size := by
  have hrun : ∀ b : VmArea, (op.run b).2.addr = b.addr ∧ (op.run b).2.size = b.size := by
    intro b
    cases op <;> exact ⟨rfl, rfl⟩
  unfold mapNode
  dsimp only
  split_ifs
  · exact ⟨rfl, rfl⟩
  · exact hrun _
  · exact hrun _
  · exact hrun _

theorem mapFileArea_place (table : ℤ → Option MmapFile) (a : VmArea) (fd offset : ℤ) :
    (mapFileArea table a fd offset).2.addr = a.addr ∧
      (mapFileArea table a fd offset).2.size = a.size := by
  unfold mapFileArea
  split_ifs
  · exact ⟨rfl, rfl⟩
  · match table fd with
    | none => exact ⟨rfl, rfl⟩
    | some ⟨_, none⟩ => exact ⟨rfl, rfl⟩
    | some ⟨node, some op⟩ => exact mapNode_place node op a offset

section Call

variable {m m' : VmMem} {t t' : VmTask} {es : List ℕ} {fuel addr size length flags : ℕ}
  {fd offset : ℤ} {env : MmapEnv}

/-- `vma_create` under the invariant succeeds if and only if nothing in the list
overlaps the new area. -/
theorem create_ok_iff {ret : Except Errno ℕ} (hi : VmaInv ⟨m, t, []⟩ es)
    (hfr : FreshBlocks m env.vma env.entry) (h0 : 0 < size) (hu : addr + size ≤ VIRT_BASE)
    (hal : addr % PAGE_SIZE = 0)
    (hc : vmaCreate fuel m t addr size flags env.vma env.entry = some (ret, m', t')) :
    (∃ es', VmaInv ⟨m', t', []⟩ es') ∧
    ((∃ e, ret = .error e ∧ ∃ x ∈ es, vmaOverlap (areaAt m x) (vmaNew t addr size flags) = true) ∨
      (ret = .ok env.vma ∧ m'.areas env.vma = vmaNew t addr size flags ∧
        ∀ x ∈ es, vmaOverlap (areaAt m x) (vmaNew t addr size flags) = false)) := by
  have hnew : (vmaNew t addr size flags).Ok := VmArea.ok_of_user h0 hu
  obtain ⟨live, hs, hlive⟩ : ∃ live : List ℕ,
      VmaStep ⟨m, t, []⟩ (.create addr size flags env.vma env.entry) ⟨m', t', live⟩ ∧
      live = ret.toOption.toList := by
    cases ret with
    | ok p => exact ⟨[p], ⟨hal, h0, hu, hfr, fuel, .ok p, hc, rfl⟩, rfl⟩
    | error e => exact ⟨[], ⟨hal, h0, hu, hfr, fuel, .error e, hc, rfl⟩, rfl⟩
  obtain ⟨es', hi'⟩ := vmaInv_step ⟨es, hi⟩ hs
  refine ⟨⟨es', hi'.congr rfl rfl⟩, ?_⟩
  rcases create_cases hi hs with ⟨hov, href⟩ | ⟨l, k, mm, rfl, hl, hm, -, hins⟩
  · cases ret with
    | ok p => exact absurd href.live (by simp [hlive, Except.toOption])
    | error e => exact Or.inl ⟨e, rfl, hov⟩
  · cases ret with
    | error e => exact absurd hins.live (by simp [hlive, Except.toOption])
    | ok p =>
      obtain rfl : p = env.vma := by simpa [hlive, Except.toOption] using hins.live
      have harea : m'.areas env.vma = vmaNew t addr size flags := by
        rw [hins.areas, Function.update_self]
      refine Or.inr ⟨rfl, harea, fun x hx => (overlap_false (hi.ok x hx) hnew).2 ?_⟩
      rcases List.mem_append.1 hx with hx | hx
      · exact Or.inl (hl x hx)
      · exact Or.inr (hm x hx)

theorem mmapFile_spec {area : ℕ} {ret : Except ℤ Unit} (hi : VmaInv ⟨m, t, []⟩ es)
    (hc : mmapFile fuel m t area flags fd offset env = some (ret, m', t')) :
    (∃ es', VmaInv ⟨m', t', []⟩ es') ∧ (ret = .ok () ↔ (flags &&& MAP_ANON = 0 ∧ fd ≠ 0 →
      (mapFileArea env.table (m.areas area) fd offset).1 = .ok ())) := by
  have hplace := mapFileArea_place env.table (m.areas area) fd offset
  -- the file's changes to the area do not move it
  have htouch : VmaInv ⟨m.setArea area (mapFileArea env.table (m.areas area) fd offset).2, t, []⟩
      es := by
    refine hi.retouch rfl rfl rfl fun p => ?_
    by_cases hp : p = area
    · subst hp
      simpa [VmMem.setArea] using hplace
    · simp [VmMem.setArea, Function.update_of_ne hp]
  unfold mmapFile at hc
  by_cases hfile : flags &&& MAP_ANON = 0 ∧ fd ≠ 0
  · rw [if_pos hfile] at hc
    cases hret : (mapFileArea env.table (m.areas area) fd offset).1 with
    | ok u =>
      simp only [hret, Option.some.injEq, Prod.mk.injEq] at hc
      obtain ⟨rfl, rfl, rfl⟩ := hc
      exact ⟨⟨es, htouch⟩, fun _ _ => rfl, fun _ => rfl⟩
    | error e =>
      cases hd : vmaDispose fuel
          (m.setArea area (mapFileArea env.table (m.areas area) fd offset).2) t area env.stale with
      | none => simp [hret, hd] at hc
      | some d =>
        obtain ⟨m₂, t₂, call⟩ := d
        simp only [hret, hd, Option.some.injEq, Prod.mk.injEq] at hc
        obtain ⟨rfl, rfl, rfl⟩ := hc
        refine ⟨?_, by simp, fun h => by simpa using h hfile⟩
        have hs : VmaStep ⟨m.setArea area (mapFileArea env.table (m.areas area) fd offset).2, t, []⟩
            (.dispose area env.stale) ⟨m₂, t₂, []⟩ := ⟨fuel, call, hd, rfl⟩
        exact vmaInv_step ⟨es, htouch⟩ hs
  · rw [if_neg hfile] at hc
    simp only [Option.some.injEq, Prod.mk.injEq] at hc
    obtain ⟨rfl, rfl, rfl⟩ := hc
    exact ⟨⟨es, hi⟩, fun _ h => absurd h hfile, fun _ => rfl⟩

theorem doMmap_spec {ret : Except ℤ Unit} (hi : VmaInv ⟨m, t, []⟩ es)
    (hfr : FreshBlocks m env.vma env.entry)
    (hc : doMmap fuel m t addr length flags fd offset env = some (ret, m', t')) :
    (∃ es', VmaInv ⟨m', t', []⟩ es') ∧
    (ret = .ok () ↔ (length ≠ 0 ∧ addr + length ≤ VIRT_BASE ∧ addr % PAGE_SIZE = 0 ∧
      (flags &&& MAP_ANON = 0 ∧ fd ≠ 0 → (mapFileArea env.table
        (vmaNew t addr (pgRndUp length) flags) fd offset).1 = .ok ())) ∧
      ∀ x ∈ es, vmaOverlap (areaAt m x) (vmaNew t addr (pgRndUp length) flags) = false) := by
  unfold doMmap at hc
  split_ifs at hc with h1 h2 h3
  · simp only [Option.some.injEq, Prod.mk.injEq] at hc
    obtain ⟨rfl, rfl, rfl⟩ := hc
    exact ⟨⟨es, hi⟩, by simp [h1]⟩
  · simp only [Option.some.injEq, Prod.mk.injEq] at hc
    obtain ⟨rfl, rfl, rfl⟩ := hc
    have hnot : ¬ addr + length ≤ VIRT_BASE := by
      simp only [VIRT_BASE]
      omega
    exact ⟨⟨es, hi⟩, by simp [hnot]⟩
  · simp only [Option.some.injEq, Prod.mk.injEq] at hc
    obtain ⟨rfl, rfl, rfl⟩ := hc
    exact ⟨⟨es, hi⟩, by simp [h3]⟩
  · by_cases hal : addr % PAGE_SIZE = 0
    · obtain ⟨hpos, hend⟩ := pgRndUp_user h1 hal (not_lt.1 h3)
      cases hv : vmaCreate fuel m t addr (pgRndUp length) flags env.vma env.entry with
      | none => simp [hv] at hc
      | some r =>
        obtain ⟨ret₁, m₁, t₁⟩ := r
        obtain ⟨⟨es', hi'⟩, ⟨e, rfl, x, hx, hov⟩ | ⟨rfl, harea, hno⟩⟩ :=
          create_ok_iff hi hfr hpos hend hal hv
        · simp only [hv, Option.some.injEq, Prod.mk.injEq] at hc
          obtain ⟨rfl, rfl, rfl⟩ := hc
          refine ⟨⟨es', hi'⟩, by simp, fun h => ?_⟩
          have := h.2 x hx
          simp [hov] at this
        · simp only [hv] at hc
          obtain ⟨hinv, hret⟩ := mmapFile_spec hi' hc
          rw [harea] at hret
          refine ⟨hinv, fun h => ⟨⟨h1, not_lt.1 h3, hal, hret.1 h⟩, hno⟩, fun h => ?_⟩
          exact hret.2 h.1.2.2.2
    · have hv : vmaCreate fuel m t addr (pgRndUp length) flags env.vma env.entry =
          some (.error .EINVAL, m, t) := by
        unfold vmaCreate
        rw [if_pos hal]
      simp only [hv, Option.some.injEq, Prod.mk.injEq] at hc
      obtain ⟨rfl, rfl, rfl⟩ := hc
      exact ⟨⟨es, hi⟩, by simp, fun h => absurd h.1.2.2.1 hal⟩

end Call

section Run

variable {s s' : StackState} {e : MmapParams × MmapEnv} {es : List ℕ}

/-- The list of the task is in order. -/
def StackState.Listed (s : StackState) (es : List ℕ) : Prop :=
  VmaInv ⟨s.call.mem, s.call.task, []⟩ es

theorem StackState.Listed.meets_iff (h : s.Listed es) (p : MmapParams) : MeetsListed s.call p ↔
    ∃ x ∈ es, vmaOverlap (areaAt s.call.mem x)
      (vmaNew s.call.task (s.call.target p) (pgRndUp p.length) p.flags) = true := by
  constructor
  · rintro ⟨es', x, hc, hx, hov⟩
    rw [hc.unique (VmaInv.reached h)] at hx
    exact ⟨x, hx, hov⟩
  · rintro ⟨x, hx, hov⟩
    exact ⟨es, x, VmaInv.reached h, hx, hov⟩

theorem stack_step (h : s.Listed es) (hs : StackStep s e s') :
    (∃ es', s'.Listed es') ∧ s'.stack = s.stack ∧
    ((Accepted s.call e.1 e.2 ∧ ¬ MeetsListed s.call e.1 ∧
        s'.mapped = (s.call.target e.1, e.1.length) :: s.mapped) ∨
      ((Accepted s.call e.1 e.2 → MeetsListed s.call e.1) ∧ s'.mapped = s.mapped)) := by
  obtain ⟨hfr, hstack, fuel, ret, hc, hmapped⟩ := hs
  unfold mmapCall at hc
  by_cases hfix : e.1.addr = 0 ∧ e.1.flags &&& MAP_FIXED ≠ 0
  · rw [if_pos hfix] at hc
    simp only [Option.some.injEq, Prod.mk.injEq] at hc
    obtain ⟨rfl, hcall⟩ := hc
    refine ⟨⟨es, ?_⟩, hstack, Or.inr ⟨fun ha => absurd hfix ha.fixed, hmapped⟩⟩
    unfold StackState.Listed
    rwa [← hcall]
  · rw [if_neg hfix] at hc
    cases hd : doMmap fuel s.call.mem s.call.task (s.call.target e.1) e.1.length e.1.flags e.1.fd
        e.1.offset e.2 with
    | none => simp [hd] at hc
    | some d =>
      obtain ⟨r, m', t'⟩ := d
      obtain ⟨hinv, hok⟩ := doMmap_spec h hfr hd
      cases r with
      | ok u =>
        simp only [hd, Option.some.injEq, Prod.mk.injEq] at hc
        obtain ⟨rfl, hcall⟩ := hc
        obtain ⟨⟨h1, h2, h3, h4⟩, hno⟩ := hok.1 rfl
        refine ⟨?_, hstack, Or.inl ⟨⟨hfix, h1, h2, h3, h4⟩, fun hm => ?_, hmapped⟩⟩
        · unfold StackState.Listed
          rwa [← hcall]
        · obtain ⟨x, hx, hov⟩ := (h.meets_iff e.1).1 hm
          rw [hno x hx] at hov
          simp at hov
      | error err =>
        simp only [hd, Option.some.injEq, Prod.mk.injEq] at hc
        obtain ⟨rfl, hcall⟩ := hc
        refine ⟨?_, hstack, Or.inr ⟨fun ha => ?_, hmapped⟩⟩
        · unfold StackState.Listed
          rwa [← hcall]
        · by_contra hm
          refine absurd (hok.2 ⟨⟨ha.length, ha.user, ha.aligned, ha.file⟩, fun x hx => ?_⟩) (by simp)
          by_contra hov
          exact hm ((h.meets_iff e.1).2 ⟨x, hx, by simpa using hov⟩)

/-- `alloc_stack` registers the stack, unless its address is not page aligned. -/
theorem stack_boot (h : StackBoot s) : ∃ es, s.Listed es := by
  obtain ⟨haddr, -, -, fuel, m, task, vma, entry, hL, hfr, hc⟩ := h
  have hempty : VmaInv ⟨m, task, []⟩ [] := vmaInv_boot ⟨Or.inr hL, rfl⟩
  have hlt : s.stack < 4294967296 := by
    rcases haddr with h | ⟨esp, -, h⟩
    · rw [h]
      decide
    · rw [h]
      simp only [sub32, u32]
      omega
  unfold allocStack vmaCreate at hc
  by_cases hal : s.stack % PAGE_SIZE = 0
  · rw [if_neg (not_not.2 hal), hL] at hc
    have hpages : pgRndUp STACK_SIZE / PAGE_SIZE = 100 := by decide
    rw [hpages] at hc
    have hnew : (vmaNew task s.stack 100 0).Ok := by
      refine ⟨(by decide : 0 < 100), ?_⟩
      change s.stack + 100 < 4294967296
      simp only [PAGE_SIZE] at hal
      omega
    cases fuel with
    | zero => simp [vmaWalk] at hc
    | succ fuel =>
      have hins : Inserted ⟨m, task, []⟩ ⟨s.call.mem, s.call.task, [vma]⟩ [] []
          (vmaNew task s.stack 100 0) vma entry := by
        refine inserted_of_insert (k := []) (listRep_init _) hfr.entry_ne (by simp) ?_ rfl ?_
        · simp [VmTask.length, hL, listInit]
        · simpa [vmaWalk, listInit, allocated] using hc
      exact ⟨_, (inserted_inv (k := []) hempty hins hfr hnew (by simp) (by simp)).congr rfl rfl⟩
  · rw [if_pos hal] at hc
    simp only [Option.some.injEq, Prod.mk.injEq] at hc
    unfold StackState.Listed
    rw [← hc.1, ← hc.2]
    exact ⟨[], hempty⟩

theorem listed_run {evs : List (MmapParams × MmapEnv)} (h : StackRun evs s) :
    ∃ es, s.Listed es := by
  refine Run.invariant (fun s => ∃ es, StackState.Listed s es) (fun _ => stack_boot) ?_ h
  rintro s e s' ⟨es, hl⟩ hs
  exact (stack_step hl hs).1

theorem clear_step (h : s.Listed es) (hclear : StackClear s) (hs : StackStep s e s')
    (hg : Guarded s e) : StackClear s' := by
  obtain ⟨-, hstack, ⟨ha, hm, hmapped⟩ | ⟨-, hmapped⟩⟩ := stack_step h hs
  · intro r hr
    rw [hmapped] at hr
    rw [hstack]
    rcases List.mem_cons.1 hr with rfl | hr
    · exact fun hmeets => hm (hg ha hmeets)
    · exact hclear r hr
  · unfold StackClear
    rw [hmapped, hstack]
    exact hclear

theorem guarded_of_clear (h : s.Listed es) (hs : StackStep s e s') (hclear : StackClear s') :
    StackClear s ∧ Guarded s e := by
  obtain ⟨-, hstack, ⟨ha, hm, hmapped⟩ | ⟨hm, hmapped⟩⟩ := stack_step h hs
  · unfold StackClear at hclear
    rw [hmapped, hstack] at hclear
    refine ⟨fun r hr => hclear r (by simp [hr]), fun _ hmeets => ?_⟩
    exact absurd hmeets (hclear _ List.mem_cons_self)
  · unfold StackClear at hclear
    rw [hmapped, hstack] at hclear
    exact ⟨hclear, fun ha _ => hm ha⟩

end Run

/-- In every run, the mapped regions stay off the stack if and only if every call
was guarded. -/
theorem stack_clear_iff {evs : List (MmapParams × MmapEnv)} {s : StackState}
    (h : StackRun evs s) : StackClear s ↔ GuardedRun evs s := by
  constructor
  · intro hclear
    induction h with
    | nil hb => exact Run.nil hb
    | snoc hrun hs ih =>
      obtain ⟨es, hl⟩ := listed_run hrun
      obtain ⟨hclear', hg⟩ := guarded_of_clear hl hs hclear
      exact (ih hclear').snoc ⟨hs, hg⟩
  · intro hrun
    suffices hboth : (∃ es, s.Listed es) ∧ StackClear s from hboth.2
    refine Run.invariant (fun s => (∃ es, StackState.Listed s es) ∧ StackClear s) ?_ ?_ hrun
    · intro s hb
      refine ⟨stack_boot hb, fun r hr => ?_⟩
      rw [hb.2.1] at hr
      simp at hr
    · rintro s e s' ⟨⟨es, hl⟩, hclear⟩ ⟨hs, hg⟩
      exact ⟨(stack_step hl hs).1, clear_step hl hclear hs hg⟩

def anonParams (addr length : ℕ) : MmapParams := ⟨addr, length, MAP_ANON, 0, 0⟩

def noOpenFiles (vma entry : ℕ) : MmapEnv := ⟨fun _ => none, vma, entry, 0⟩

/-- A spawned process maps two pages wherever the kernel likes. -/
theorem stack_clear_anywhere : ∃ s, StackRun [(anonParams 0 8192, noOpenFiles 102 103)] s ∧
    s.mapped = [(MMAP_BASE, 8192)] ∧ StackClear s := by
  obtain ⟨m, task, hc⟩ : ∃ m task, allocStack 1 vmaBoot0.mem vmaBoot0.task
      (VIRT_BASE - STACK_SIZE) STACK_SIZE 100 101 = some (m, task) := ⟨_, _, rfl⟩
  have h0 : GuardedRun [] ⟨⟨m, task, 0⟩, VIRT_BASE - STACK_SIZE, []⟩ :=
    Run.nil ⟨Or.inl rfl, rfl, rfl, 1, vmaBoot0.mem, vmaBoot0.task, 100, 101, rfl,
      ⟨by decide, by decide, by decide, by decide, by decide⟩, hc⟩
  obtain ⟨rfl, rfl⟩ := Prod.mk.inj (Option.some.inj hc)
  have h1 := h0.snoc (show StackStep _ (anonParams 0 8192, noOpenFiles 102 103)
      ⟨_, VIRT_BASE - STACK_SIZE, [(MMAP_BASE, 8192)]⟩ ∧
        Guarded _ (anonParams 0 8192, noOpenFiles 102 103) from
    ⟨⟨⟨by decide, by decide, by decide, by decide, by decide⟩, rfl, 3, .ok MMAP_BASE, rfl, rfl⟩,
      fun _ hmeets => by
        obtain ⟨p, ⟨i, hi, rfl⟩, -, hlt⟩ := hmeets
        change _ < 0x40000000 + 8192 at hlt
        change i < 100 at hi
        change u32 (0xBFF9C000 + u32 (i * 4096)) / 4096 * 4096 < _ at hlt
        simp only [u32] at hlt
        omega⟩)
  have hrun : StackRun _ _ := h1.mono fun _ _ _ h => h.1
  exact ⟨_, hrun, rfl, (stack_clear_iff hrun).2 h1⟩

/-- It maps the second page of its stack. -/
theorem stack_covered : ∃ s, StackRun [(anonParams 0xBFF9D000 4096, noOpenFiles 102 103)] s ∧
    ¬ StackClear s := by
  obtain ⟨m, task, hc⟩ : ∃ m task, allocStack 1 vmaBoot0.mem vmaBoot0.task
      (VIRT_BASE - STACK_SIZE) STACK_SIZE 100 101 = some (m, task) := ⟨_, _, rfl⟩
  have h0 : StackRun [] ⟨⟨m, task, 0⟩, VIRT_BASE - STACK_SIZE, []⟩ :=
    Run.nil ⟨Or.inl rfl, rfl, rfl, 1, vmaBoot0.mem, vmaBoot0.task, 100, 101, rfl,
      ⟨by decide, by decide, by decide, by decide, by decide⟩, hc⟩
  obtain ⟨rfl, rfl⟩ := Prod.mk.inj (Option.some.inj hc)
  have h1 := h0.snoc
    (show StackStep _ (anonParams 0xBFF9D000 4096, noOpenFiles 102 103)
      ⟨_, VIRT_BASE - STACK_SIZE, [(0xBFF9D000, 4096)]⟩ from
    ⟨⟨by decide, by decide, by decide, by decide, by decide⟩, rfl, 3, .ok 0xBFF9D000, rfl, rfl⟩)
  refine ⟨_, h1, fun hclear => hclear (0xBFF9D000, 4096) (by simp) ?_⟩
  exact ⟨0xBFF9D, ⟨1, by decide, by decide⟩, by decide, by decide⟩

end DepthOS
