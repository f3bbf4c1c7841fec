import DepthOS.Spec.Fault

/-! Where the handling of a page fault goes through a NULL page-table entry pointer:
`map_page` stores through what `get_page` returns without looking at it, and so does the
handler for a write to a present page. Each predicate follows the function of that name. -/

namespace DepthOS

open Lib

/-- `map_page` comes to its store with a NULL pointer. -/
def MapPageNull (s : Machine) (pgd vaddr : ℕ) (user : Bool) : Prop :=
  ∃ s', mapPageTable s pgd vaddr user = some s' ∧ getPage s' pgd vaddr = 0

/-- A round of `map_addr_fixed` is reached whose `map_page` does. -/
def FaultMapFixedNull (st : FaultState) (pgd vaddr pstart npages : ℕ) (user : Bool) : Prop :=
  Reaches (mapRound pgd (pgRndDown vaddr) pstart user) (fun st i =>
    MapPageNull st.machine pgd (u32 (pgRndDown vaddr + u32 (i * PAGE_SIZE))) user) st npages

def FaultMapNull (st : FaultState) (pgd vaddr npages : ℕ) (user : Bool) : Prop :=
  let (physStart, bm) := pmmAlloc st.machine.pmmBitmap npages
  FaultMapFixedNull { st with machine := { st.machine with pmmBitmap := bm } } pgd
    (pgRndDown vaddr) physStart npages user

section Handler

variable (env : FaultEnv) (nested : FaultState → ℕ → FaultOut) (null : FaultState → ℕ → Prop)
  (tries : ℕ)

/-- `null` is what a fault in the kernel's own write comes to. -/
def WritePageNull (va : ℕ) : ℕ → FaultState → Prop
  | 0, _ => False
  | tries + 1, st => translate st.machine.mem st.machine.cr3 va = none ∧
    (null st va ∨ ∃ st', nested st va = ⟨st', some .ignore⟩ ∧ WritePageNull va tries st')

def ZeroAreaNull (area : VmArea) (st : FaultState) : Prop :=
  Reaches (fun st i => writePage nested (u32 (area.addr + i * PAGE_SIZE)) (fun _ => 0) PAGE_SIZE
    tries st) (fun st i => WritePageNull nested null (u32 (area.addr + i * PAGE_SIZE)) tries st)
    st (u32 (PAGE_SIZE * area.nPages) / PAGE_SIZE)

def FinishFaultNull (area : VmArea) (m : FaultState × Bool) : Prop :=
  m.2 = true ∧ area.flags &&& MAP_ANON ≠ 0 ∧ ZeroAreaNull nested null tries area m.1

def GenericFileLoadNull (st : FaultState) (area : VmArea) (vaddr offset : ℕ) : Prop :=
  match env.files area.file with
  | none => False
  | some (fs, inode) =>
    match ext2Read fs inode env.stack PAGE_SIZE (pgRndDown offset) with
    | none => False
    | some r =>
      let isKernelTask := area.pgd == st.machine.kernelPgd
      let m := faultMap st area.pgd vaddr 1 (!isKernelTask)
      offset < r.offset ∧ (FaultMapNull st area.pgd vaddr 1 (!isKernelTask) ∨
        m.2 = true ∧ WritePageNull nested null vaddr tries m.1)

def FaultAreaNull (st : FaultState) (cr2 : ℕ) (area : VmArea) : Prop :=
  let isKernelTask := env.task.pgd == st.machine.kernelPgd
  let alignedCr2 := pgRndDown cr2
  if area.limit ≠ 0 ∧ cr2 ≥ u32 (area.addr + area.limit) then False
  else if area.physAddr ≠ 0 then
    FaultMapFixedNull st env.task.pgd area.addr area.physAddr area.nPages (!isKernelTask) ∨
    FinishFaultNull nested null tries area
      (faultMapFixed st env.task.pgd area.addr area.physAddr area.nPages (!isKernelTask))
  else if area.ops ≠ 0 then
    GenericFileLoadNull env nested null tries st area alignedCr2
      (u32 (sub32 alignedCr2 area.addr + area.fileOff)) ∨
    ∃ st', genericFileLoadMappedPage env nested tries st area alignedCr2
      (u32 (sub32 alignedCr2 area.addr + area.fileOff)) = ⟨st', some .ignore⟩ ∧
      FinishFaultNull nested null tries area (st', true)
  else
    FaultMapNull st env.task.pgd area.addr area.nPages (!isKernelTask) ∨
    FinishFaultNull nested null tries area
      (faultMap st env.task.pgd area.addr area.nPages (!isKernelTask))

def FaultWalkNull (present write : Bool) (st : FaultState) (cr2 : ℕ) : ℕ → ℕ → Prop
  | 0, _ => False
  | fuel + 1, item =>
    if item = 0 then False
    else if CoversAddr (areaAt env.mem item) cr2 then
      if present = false then FaultAreaNull env nested null tries st cr2 (areaAt env.mem item)
      else if write then getPage st.machine env.task.pgd cr2 = 0
      else FaultWalkNull present write st cr2 fuel (env.mem.entries item).next
    else FaultWalkNull present write st cr2 fuel (env.mem.entries item).next

end Handler

/-- The handler of a fault, or of one inside it, uses a NULL entry pointer. -/
def NullStore (env : FaultEnv) :
    (fuel : ℕ) → (present write : Bool) → FaultState → (cr2 : ℕ) → Prop
  | 0, _, _, _, _ => False
  | fuel + 1, present, write, st, cr2 =>
    FaultWalkNull env (fun st va => vmaPagefaultHandler env fuel false true st va)
      (fun st va => NullStore env fuel false true st va) fuel present write st cr2 fuel
      env.task.first

/-- However far the handling of a not-present fault gets. -/
def NullSafe (env : FaultEnv) (s : Machine) (cr2 : ℕ) : Prop :=
  ∀ fuel write, ¬ NullStore env fuel false write ⟨s, []⟩ cr2

end DepthOS
