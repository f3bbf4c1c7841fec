import DepthOS.Spec.Fd

/-! `sys_mmap` and `do_mmap` of `mm/vmm.c` on the task's list of areas, with
`vma_map_file` and the `mmap` operations of the files that have one, and
`alloc_stack` of `kernel/proc.c`, which registers a task's stack in the same list. -/

namespace DepthOS

open Lib

/-- `area->ops` after `ext2_mmap`: the address of `ext2_mmap_ops`. -/
abbrev EXT2_MMAP_OPS : ℕ := 1

/-- What `file->ops->mmap` does: that of ext2, or `devfs_mmap` of a device without
`mmap` or of the framebuffer. -/
inductive MmapOp where
  | ext2
  | devfs
  | framebuffer (physAddr pitch height : ℕ)

/-- `struct fs_node`; `none` is a file whose `ops` or `ops->mmap` is NULL. -/
structure MmapFile where
  node : ℕ
  mmap : Option MmapOp

/-- Pitch and height are 16-bit fields of the device's static information. -/
def multibootFbMmap (physAddr pitch height : ℕ) (a : VmArea) : VmArea :=
  let limit := u32 (u16 pitch * u16 height)
  { a with physAddr := physAddr, nPages := sizeT (ceilDivInt (s32 limit) PAGE_SIZE)
           limit := limit }

/-- The value returned and the area afterwards. -/
def MmapOp.run (op : MmapOp) (a : VmArea) : ℤ × VmArea :=
  match op with
  | .ext2 => (0, { a with ops := EXT2_MMAP_OPS })
  | .devfs => (ENIMPL, a)
  | .framebuffer physAddr pitch height => (0, multibootFbMmap physAddr pitch height a)

/-- The rest of `vma_map_file`, once the file is known to have an `mmap`. -/
def mapNode (node : ℕ) (op : MmapOp) (a : VmArea) (offset : ℤ) : Except ℤ Unit × VmArea :=
  let a := { a with file := node }
  if offset % PAGE_SIZE ≠ 0 then (.error EINVAL, a)
  else
    let r := op.run { a with fileOff := sizeT offset }
    if r.1 ≠ 0 then (.error r.1, r.2)
    else
      let a := r.2
      let most := pgRndUp a.size / PAGE_SIZE
      (.ok (), { a with nPages := if a.nPages > most then most else a.nPages })

/-- `vma_map_file`; the failure is the `errno`. The words of the table outside it
belong to something else. -/
def mapFileArea (table : ℤ → Option MmapFile) (a : VmArea) (fd offset : ℤ) :
    Except ℤ Unit × VmArea :=
  if fd > TASK_FILETABLE_MAX then (.error EBADF, a)
  else
    match table fd with
    | none => (.error EBADF, a)
    | some ⟨_, none⟩ => (.error ENIMPL, a)
    | some ⟨node, some op⟩ => mapNode node op a offset

def VmMem.setArea (m : VmMem) (p : ℕ) (a : VmArea) : VmMem :=
  { m with areas := Function.update m.areas p a }

/-- What a call reads besides its arguments: the task's open files, the blocks
`vma_create` gets from `kmalloc`, and what a freed area reads as. -/
structure MmapEnv where
  table : ℤ → Option MmapFile
  vma : ℕ
  entry : ℕ
  stale : ℤ

def Errno.code : Errno → ℤ
  | .EINVAL => DepthOS.EINVAL
  | .ENOMEM => DepthOS.ENOMEM

/-- The part of `do_mmap` after `vma_create`: the file, where there is one. A
failure is the `errno`; `none` is a walk that does not end. -/
def mmapFile (fuel : ℕ) (m : VmMem) (task : VmTask) (area flags : ℕ) (fd offset : ℤ)
    (env : MmapEnv) : Option (Except ℤ Unit × VmMem × VmTask) :=
  if flags &&& MAP_ANON = 0 ∧ fd ≠ 0 then
    let r := mapFileArea env.table (m.areas area) fd offset
    let m := m.setArea area r.2
    match r.1 with
    | .ok _ => some (.ok (), m, task)
    | .error e =>
      match vmaDispose fuel m task area env.stale with
      | none => none
      | some (m, task, _) => some (.error e, m, task)
  else some (.ok (), m, task)

def doMmap (fuel : ℕ) (m : VmMem) (task : VmTask) (addr length flags : ℕ) (fd offset : ℤ)
    (env : MmapEnv) : Option (Except ℤ Unit × VmMem × VmTask) :=
  if length = 0 then some (.error EINVAL, m, task)
  else if addr + length ≥ 4294967296 then some (.error EOVERFLOW, m, task)
  else if addr + length > VIRT_BASE then some (.error EEXIST, m, task)
  else
    match vmaCreate fuel m task addr (pgRndUp length) flags env.vma env.entry with
    | none => none
    | some (.error e, m, task) => some (.error e.code, m, task)
    | some (.ok area, m, task) => mmapFile fuel m task area flags fd offset env

/-- The task as `mmap` sees it. -/
structure MmapState where
  mem : VmMem
  task : VmTask
  mmapBumpIdx : ℕ

/-- The address `do_mmap` gets. -/
def MmapState.target (s : MmapState) (p : MmapParams) : ℕ :=
  if p.addr = 0 then u32 (MMAP_BASE + s.mmapBumpIdx * PAGE_SIZE) else p.addr

/-- The index moves on before `do_mmap` is called, and stays there if it fails. -/
def MmapState.bump (s : MmapState) (p : MmapParams) : ℕ :=
  if p.addr = 0 then u32 (s.mmapBumpIdx + pgRndUp p.length / PAGE_SIZE) else s.mmapBumpIdx

/-- The address of the region, or the negative value returned. -/
def mmapCall (fuel : ℕ) (s : MmapState) (p : MmapParams) (env : MmapEnv) :
    Option (Except ℤ ℕ × MmapState) :=
  if p.addr = 0 ∧ p.flags &&& MAP_FIXED ≠ 0 then some (.error (-1), s)
  else
    match doMmap fuel s.mem s.task (s.target p) p.length p.flags p.fd p.offset env with
    | none => none
    | some (.ok _, m, task) => some (.ok (s.target p), ⟨m, task, s.bump p⟩)
    | some (.error e, m, task) => some (.error (-e), ⟨m, task, s.bump p⟩)

abbrev STACK_SIZE : ℕ := PAGE_SIZE * 100

/-- What `alloc_stack` does to the list; the result of `vma_create` is not looked at. -/
def allocStack (fuel : ℕ) (m : VmMem) (task : VmTask) (stack size vma entry : ℕ) :
    Option (VmMem × VmTask) :=
  match vmaCreate fuel m task stack (pgRndUp size / PAGE_SIZE) 0 vma entry with
  | none => none
  | some (_, m, task) => some (m, task)

/-- The pages the `map_addr` of `alloc_stack` works on. -/
def StackPage (stack size p : ℕ) : Prop :=
  ∃ i < pgRndUp size / PAGE_SIZE, p = u32 (pgRndDown stack + u32 (i * PAGE_SIZE)) / PAGE_SIZE

structure StackState where
  call : MmapState
  /-- the address `alloc_stack` was given -/
  stack : ℕ
  /-- address and length of every region a call has mapped -/
  mapped : List (ℕ × ℕ)

/-- `process_spawn` puts the stack below the kernel, `create_task` below an `esp`
that a thread's creator chooses; both take `STACK_SIZE`, and the list of a new
task is empty. -/
def StackBoot (s : StackState) : Prop :=
  (s.stack = VIRT_BASE - STACK_SIZE ∨ ∃ esp < 4294967296, s.stack = sub32 esp STACK_SIZE) ∧
  s.mapped = [] ∧ s.call.mmapBumpIdx = 0 ∧
  ∃ fuel m task vma entry, task.vmAreas = some listInit ∧ FreshBlocks m vma entry ∧
    allocStack fuel m task s.stack STACK_SIZE vma entry = some (s.call.mem, s.call.task)

def StackStep (s : StackState) (e : MmapParams × MmapEnv) (s' : StackState) : Prop :=
  FreshBlocks s.call.mem e.2.vma e.2.entry ∧ s'.stack = s.stack ∧
  ∃ fuel ret, mmapCall fuel s.call e.1 e.2 = some (ret, s'.call) ∧
    s'.mapped = match ret with
      | .ok addr => (addr, e.1.length) :: s.mapped
      | .error _ => s.mapped

/-- Any sequence of `mmap` calls by a new task. -/
def StackRun : List (MmapParams × MmapEnv) → StackState → Prop := Run StackBoot StackStep

/-- A page of the stack lies in the region. -/
def MeetsStack (stack addr length : ℕ) : Prop :=
  ∃ p, StackPage stack STACK_SIZE p ∧ addr < (p + 1) * PAGE_SIZE ∧ p * PAGE_SIZE < addr + length

/-- No region mapped so far covers a page of the stack. -/
def StackClear (s : StackState) : Prop := ∀ r ∈ s.mapped, ¬ MeetsStack s.stack r.1 r.2

end DepthOS
