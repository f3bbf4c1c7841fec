import DepthOS.Spec.Vma

/-! Several tasks over one heap: `vma_create` and `vma_dispose` on any of them, and
the part of `fork_task` that copies the parent's list. The copy holds the same
`struct vm_area` pointers, so from then on two lists share the areas. -/

namespace DepthOS

open Lib

/-- The loop of `fork_task` over the parent's areas; `blks` are the blocks its
`list_push`es are given, in order. -/
def forkAreas : List ℕ → VmMem → DList → ℕ → Option (VmMem × DList)
  | [], m, L, item => if item = 0 then some (m, L) else none
  | b :: blks, m, L, item =>
    if item = 0 then some (m, L)
    else
      let r := listPush m.entries L (m.entries item).value b
      forkAreas blks { m with entries := r.1, blocks := b :: m.blocks } r.2 (r.1 item).next

/-- The child's task and page directory are new; its list starts empty. -/
def forkVmAreas (blks : List ℕ) (m : VmMem) (parent : VmTask) (self pgd : ℕ) :
    Option (VmMem × VmTask) :=
  match parent.vmAreas with
  | none => none
  | some L =>
    match forkAreas blks m listInit L.first with
    | none => none
    | some r => some (r.1, ⟨self, pgd, some r.2⟩)

structure VmSystem where
  mem : VmMem
  tasks : List VmTask
  /-- areas successfully created whose block has not been freed since -/
  live : List ℕ

inductive VmEvent where
  | create (i addr size flags vma entry : ℕ)
  | fork (i self pgd : ℕ) (blks : List ℕ)
  | dispose (i area : ℕ) (stale : ℤ)

def VmStep (s : VmSystem) (e : VmEvent) (s' : VmSystem) : Prop :=
  match e with
  | .create i addr size flags vma entry =>
    FreshBlocks s.mem vma entry ∧
    ∃ t t' fuel ret, s.tasks[i]? = some t ∧
      vmaCreate fuel s.mem t addr size flags vma entry = some (ret, s'.mem, t') ∧
      s'.tasks = s.tasks.set i t' ∧
      s'.live = match ret with
        | .ok p => p :: s.live
        | .error _ => s.live
  | .fork i self pgd blks =>
    (∀ b ∈ blks, b ≠ 0 ∧ b ∉ s.mem.blocks) ∧ blks.Nodup ∧
    ∃ t t', s.tasks[i]? = some t ∧ forkVmAreas blks s.mem t self pgd = some (s'.mem, t') ∧
      s'.tasks = s.tasks ++ [t'] ∧ s'.live = s.live
  | .dispose i area stale =>
    ∃ t t' fuel call, s.tasks[i]? = some t ∧
      vmaDispose fuel s.mem t area stale = some (s'.mem, t', call) ∧
      s'.tasks = s.tasks.set i t' ∧ s'.live = s.live.filter (· ∈ s'.mem.blocks)

/-- Any tasks, with nothing mapped yet. -/
def VmSystemBoot (s : VmSystem) : Prop :=
  (∀ t ∈ s.tasks, t.vmAreas = none ∨ t.vmAreas = some listInit) ∧ s.live = []

def VmSystemRun : List VmEvent → VmSystem → Prop := Run VmSystemBoot VmStep

/-- The `vm_areas` list of task `i` contains the area. -/
def Listed (s : VmSystem) (i area : ℕ) : Prop :=
  ∃ t es, s.tasks[i]? = some t ∧ Chain (fun x => (s.mem.entries x).next) t.first es ∧
    ∃ x ∈ es, (s.mem.entries x).value = area

end DepthOS
