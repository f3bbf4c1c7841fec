import DepthOS.Lib.Run
import DepthOS.Spec.List

/-! `mm/vmm.c`: `vma_create` and `vma_dispose` on one task's list of memory
areas, and runs of them. A walk over the list takes fuel, since nothing in the
code bounds it; a call completes when some fuel suffices. -/

namespace DepthOS

open Lib

/-- `struct vm_area`; pointers are addresses, 0 is NULL. -/
structure VmArea where
  nProc : ℤ
  addr : ℕ
  size : ℕ
  limit : ℕ
  nPages : ℕ
  physAddr : ℕ
  pgd : ℕ
  flags : ℕ
  file : ℕ
  fileOff : ℕ
  ops : ℕ
  parent : ℕ

/-- What the two calls read and write: list entries, areas, and which blocks
`kmalloc` has handed out. -/
structure VmMem where
  entries : Entries
  areas : ℕ → VmArea
  blocks : List ℕ

structure VmTask where
  self : ℕ
  pgd : ℕ
  /-- `none` is a NULL `vm_areas` -/
  vmAreas : Option DList

inductive Errno where
  | EINVAL
  | ENOMEM
deriving DecidableEq

def vmaOverlap (a b : VmArea) : Bool :=
  if a.addr > b.addr then u32 (b.addr + b.size) > a.addr else u32 (a.addr + a.size) > b.addr

/-- How the walk of `vma_create` ends. -/
inductive WalkEnd where
  | overlap
  | before (item : ℕ)
  | push

def vmaWalk (E : Entries) (areas : ℕ → VmArea) (vma : VmArea) : ℕ → ℕ → Option WalkEnd
  | 0, _ => none
  | fuel + 1, item =>
    if item = 0 then some .push
    else if vmaOverlap (areas (E item).value) vma then some .overlap
    else if (areas (E item).value).addr > vma.addr then some (.before item)
    else vmaWalk E areas vma fuel (E item).next

/-- The area `vma_create` fills in before it looks at the list. `ceil_div` takes the
size as an `int`. -/
def vmaNew (task : VmTask) (addr size flags : ℕ) : VmArea :=
  { nProc := 1, addr := addr, size := size, limit := 0
    nPages := sizeT (ceilDivInt (s32 size) PAGE_SIZE)
    physAddr := 0, pgd := task.pgd, flags := flags, file := 0, fileOff := 0, ops := 0
    parent := task.self }

/-- `list_insert_value` of the new area with its fresh entry. -/
def vmaInsert (m : VmMem) (task : VmTask) (L : DList) (prev next vma entry : ℕ) :
    VmMem × VmTask :=
  let r := listInsertValue m.entries L prev next vma entry
  ({ m with entries := r.1, blocks := entry :: m.blocks }, { task with vmAreas := some r.2 })

/-- `vma` and `entry` are the blocks the call's `kmalloc`s return. Where the walk
stops at an area above the new one, `list_insert_value` gets the two neighbours
of that area. -/
def vmaCreate (fuel : ℕ) (m : VmMem) (task : VmTask) (addr size flags vma entry : ℕ) :
    Option (Except Errno ℕ × VmMem × VmTask) :=
  if addr % PAGE_SIZE ≠ 0 then some (.error .EINVAL, m, task)
  else
    let area := vmaNew task addr size flags
    let m := { m with areas := Function.update m.areas vma area, blocks := vma :: m.blocks }
    match task.vmAreas with
    | none => some (.ok vma, vmaInsert m task listInit 0 0 vma entry)
    | some L =>
      match vmaWalk m.entries m.areas area fuel L.first with
      | none => none
      | some .overlap =>
        some (.error .ENOMEM, { m with blocks := m.blocks.filter (· ≠ vma) }, task)
      | some (.before item) =>
        some (.ok vma,
          vmaInsert m task L (m.entries item).prev (m.entries item).next vma entry)
      | some .push => some (.ok vma, vmaInsert m task L L.last 0 vma entry)

/-- The walk of `vma_dispose`: the entry of `area`, or NULL. -/
def vmaFind (E : Entries) (area : ℕ) : ℕ → ℕ → Option ℕ
  | 0, _ => none
  | fuel + 1, item =>
    if item = 0 then some 0
    else if (E item).value = area then some item
    else vmaFind E area fuel (E item).next

/-- The arguments of the closing `unmap_addr`. -/
structure UnmapCall where
  vaddr : ℕ
  npages : ℕ
  freetbl : Bool

/-- `stale` is what `n_proc` reads as once the area has been freed: `kfree` links
the block through its first word. -/
def vmaDispose (fuel : ℕ) (m : VmMem) (task : VmTask) (area : ℕ) (stale : ℤ) :
    Option (VmMem × VmTask × Option UnmapCall) :=
  match task.vmAreas with
  | none => none
  | some L =>
    match vmaFind m.entries area fuel L.first with
    | none => none
    | some item =>
      if item = 0 then some (m, task, none)
      else
        let r := listRemove m.entries L item
        let a := m.areas area
        let freed := a.nProc - 1 = 0
        let nProc := if freed then stale else a.nProc - 1
        some ({ entries := r.1
                areas := Function.update m.areas area { a with nProc := nProc }
                blocks := if freed then m.blocks.filter (· ≠ area) else m.blocks },
          { task with vmAreas := some r.2 },
          some ⟨a.addr, a.size / PAGE_SIZE, nProc = 0⟩)

inductive VmaEvent where
  | create (addr size flags vma entry : ℕ)
  | dispose (area : ℕ) (stale : ℤ)

structure VmaState where
  mem : VmMem
  task : VmTask
  /-- areas successfully created and not disposed since -/
  live : List ℕ

/-- The blocks a call is given are non-null and not in use. -/
structure FreshBlocks (m : VmMem) (vma entry : ℕ) : Prop where
  vma_ne : vma ≠ 0
  entry_ne : entry ≠ 0
  vma_new : vma ∉ m.blocks
  entry_new : entry ∉ m.blocks
  distinct : entry ≠ vma

def VmaStep (s : VmaState) (e : VmaEvent) (s' : VmaState) : Prop :=
  match e with
  | .create addr size flags vma entry =>
    addr % PAGE_SIZE = 0 ∧ 0 < size ∧ addr + size ≤ VIRT_BASE ∧ FreshBlocks s.mem vma entry ∧
    ∃ fuel ret, vmaCreate fuel s.mem s.task addr size flags vma entry =
        some (ret, s'.mem, s'.task) ∧
      s'.live = match ret with
        | .ok p => p :: s.live
        | .error _ => s.live
  | .dispose area stale =>
    ∃ fuel call, vmaDispose fuel s.mem s.task area stale = some (s'.mem, s'.task, call) ∧
      s'.live = s.live.erase area

/-- An empty list, or none yet. -/
def VmaBoot (s : VmaState) : Prop :=
  (s.task.vmAreas = none ∨ s.task.vmAreas = some listInit) ∧ s.live = []

def VmaRun : List VmaEvent → VmaState → Prop := Run VmaBoot VmaStep

def VmTask.first (t : VmTask) : ℕ := (t.vmAreas.map DList.first).getD 0

def VmTask.length (t : VmTask) : ℕ := (t.vmAreas.map DList.length).getD 0

/-- The entries reached from `task->vm_areas->first`. -/
def Reached (s : VmaState) (es : List ℕ) : Prop :=
  Chain (fun x => (s.mem.entries x).next) s.task.first es

/-- The area an entry holds. -/
def areaAt (m : VmMem) (x : ℕ) : VmArea := m.areas (m.entries x).value

end DepthOS
