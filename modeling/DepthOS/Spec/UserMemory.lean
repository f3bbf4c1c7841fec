import DepthOS.Spec.Fault

/-! The memory below the kernel as the programs see it, over `create_pgd`, `fork_task`,
`alloc_stack`, `mmap`, `map_addr`, faults in anonymous mappings and switches of the address
space. What it is meant to be: a memory of its own for each directory, in which a byte is
there or not, and which no operation on another directory changes. -/

namespace DepthOS

open Lib

/-- The byte the program finds at `va`; `none` is a page fault. -/
def userByte (m : Mem) (pgd va : ℕ) : Option Byte := (translate m (addrToPhys pgd) va).map m

/-- The address lies in one of `npages` pages from that of `vaddr` on. -/
def InPages (vaddr npages va : ℕ) : Prop :=
  vaddr / PAGE_SIZE ≤ va / PAGE_SIZE ∧ va / PAGE_SIZE < vaddr / PAGE_SIZE + npages

instance (vaddr npages va : ℕ) : Decidable (InPages vaddr npages va) :=
  inferInstanceAs (Decidable (_ ∧ _))

/-- `pgd` is the directory an event is about; a fork leads from `original` to `pgd`. A load
is one with its result. -/
inductive ProcEvent where
  | spawn (self pgd : ℕ)
  | stack (i vma entry : ℕ)
  | mmap (i : ℕ) (p : MmapParams) (env : MmapEnv)
  | fork (i original self pgd : ℕ) (blks : List ℕ)
  | alloc (pgd vaddr npages : ℕ) (user overwrite : Bool)
  | fault (i pgd cr2 : ℕ) (area : VmArea)
  | switch (pgd : ℕ)
  | store (pgd va : ℕ) (b : Byte)
  | load (pgd va : ℕ) (b : Byte)

/-- A memory for each directory. -/
structure UserSpaces where
  dirs : List ℕ
  current : ℕ
  mem : ℕ → ℕ → Option Byte

def UserSpaces.set (t : UserSpaces) (pgd : ℕ) (f : ℕ → Option Byte) : UserSpaces :=
  { t with mem := Function.update t.mem pgd f }

def UserSpaces.add (t : UserSpaces) (pgd : ℕ) (f : ℕ → Option Byte) : UserSpaces :=
  { t.set pgd f with dirs := pgd :: t.dirs }

/-- A fork copies the memory, a fault in an anonymous mapping fills it with zeros, and
`map_addr` fills pages with whatever their frames held. -/
def UserStep (t : UserSpaces) (e : ProcEvent) (t' : UserSpaces) : Prop :=
  match e with
  | .spawn _ pgd => pgd ∉ t.dirs ∧ t' = t.add pgd fun _ => none
  | .stack _ _ _ => t' = t
  | .mmap _ _ _ => t' = t
  | .fork _ original _ pgd _ => original ∈ t.dirs ∧ pgd ∉ t.dirs ∧ t' = t.add pgd (t.mem original)
  | .alloc pgd vaddr npages _ overwrite => pgd ∈ t.dirs ∧ ∃ old : ℕ → Byte, t' = t.set pgd fun va =>
      if InPages vaddr npages va ∧ (overwrite = true ∨ t.mem pgd va = none) then some (old va)
      else t.mem pgd va
  | .fault _ pgd _ area => pgd = t.current ∧ t' = t.set pgd fun va =>
      if InPages area.addr area.nPages va then some 0 else t.mem pgd va
  | .switch pgd => pgd ∈ t.dirs ∧ t' = { t with current := pgd }
  | .store pgd va b => pgd = t.current ∧ t.mem pgd va ≠ none ∧
      t' = t.set pgd (Function.update (t.mem pgd) va (some b))
  | .load pgd va b => pgd = t.current ∧ t.mem pgd va = some b ∧ t' = t

/-- The kernel's address space alone, in which nothing is mapped below the kernel. -/
def UserBoot (t : UserSpaces) : Prop :=
  t.dirs = [t.current] ∧ t.mem t.current = fun _ => none

def UserRun : List ProcEvent → UserSpaces → Prop := Run UserBoot UserStep

/-- The event may change the byte at `va` of the directory. -/
def ProcEvent.Changes (e : ProcEvent) (pgd va : ℕ) : Prop :=
  match e with
  | .alloc d vaddr npages _ _ => d = pgd ∧ InPages vaddr npages va
  | .fault _ d _ area => d = pgd ∧ InPages area.addr area.nPages va
  | .store d va' _ => d = pgd ∧ va' = va
  | _ => False

end DepthOS
