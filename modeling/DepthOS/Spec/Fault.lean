import DepthOS.Lib.Loop
import DepthOS.Spec.Clone
import DepthOS.Spec.Ext2
import DepthOS.Spec.Mmap
import DepthOS.Spec.VmSystem

/-! `vma_pagefault_handler` of `mm/vmm.c` with `generic_file_load_mapped_page` of
`fs/file.c`, on page tables in physical memory, and the tasks and areas that
`mmap` and `fork` can lead to. The kernel is built with `CONFIG_VMA_MAP_WHOLE`.

The handler writes to user pages itself, in the address space that faulted, and
so may fault in turn. A call is run with fuel, and its result holds what it has
done so far whether or not it comes back: it may panic, or never end. -/

namespace DepthOS

open Lib

inductive FaultKind where
  | ignore
  | crash
  | buserror
deriving DecidableEq

structure FaultState where
  machine : Machine
  /-- the entries stored so far: directory and page number -/
  log : List (ℕ × ℕ)

structure FaultOut where
  state : FaultState
  /-- `none` where the call has not come back -/
  ret : Option FaultKind

/-- What the handler reads and never writes. -/
structure FaultEnv where
  mem : VmMem
  /-- `current_task` -/
  task : VmTask
  /-- volume and inode of the files that can be read -/
  files : ℕ → Option (Ext2Fs × Ext2Inode)
  /-- what the local `buf` holds before it is filled -/
  stack : Mem

/-- One round of `map_addr_fixed` with `overwrite`, which always stores an entry. -/
def mapRound (pgd vaddr pstart : ℕ) (user : Bool) (st : FaultState) (i : ℕ) : FaultState × Bool :=
  match mapFixedOne pgd vaddr pstart user true st.machine i with
  | none => (st, false)
  | some s => (⟨s, st.log ++ [(pgd, u32 (vaddr + u32 (i * PAGE_SIZE)) / PAGE_SIZE)]⟩, true)

/-- `map_addr_fixed`, up to the round that panics or stores through NULL. -/
def faultMapFixed (st : FaultState) (pgd vaddr pstart npages : ℕ) (user : Bool) :
    FaultState × Bool :=
  runLoop (mapRound pgd (pgRndDown vaddr) pstart user) st npages

/-- `map_addr`, in the same way. -/
def faultMap (st : FaultState) (pgd vaddr npages : ℕ) (user : Bool) : FaultState × Bool :=
  let (physStart, bm) := pmmAlloc st.machine.pmmBitmap npages
  faultMapFixed { st with machine := { st.machine with pmmBitmap := bm } } pgd (pgRndDown vaddr)
    physStart npages user

/-- A write of `n` bytes to the user page at `va`. If the page is not present the
handler is entered again; the kernel goes on only if that fault is ignored. -/
def writePage (nested : FaultState → ℕ → FaultOut) (va : ℕ) (src : ℕ → Byte) (n : ℕ) :
    ℕ → FaultState → FaultState × Bool
  | 0, st => (st, false)
  | tries + 1, st =>
    match translate st.machine.mem st.machine.cr3 va with
    | some p =>
      ({ st with machine := { st.machine with mem := blit st.machine.mem p src n } }, true)
    | none =>
      match nested st va with
      | ⟨st, some .ignore⟩ => writePage nested va src n tries st
      | ⟨st, _⟩ => (st, false)

section Handler

variable (env : FaultEnv) (nested : FaultState → ℕ → FaultOut) (tries : ℕ)

/-- The `load_page` of `ext2_mmap_ops`. -/
def genericFileLoadMappedPage (st : FaultState) (area : VmArea) (vaddr offset : ℕ) : FaultOut :=
  match env.files area.file with
  | none => ⟨st, some .crash⟩
  | some (fs, inode) =>
    match ext2Read fs inode env.stack PAGE_SIZE (pgRndDown offset) with
    | none => ⟨st, none⟩
    | some r =>
      if r.offset ≤ offset then ⟨st, some .buserror⟩
      else
        let isKernelTask := area.pgd == st.machine.kernelPgd
        let m := faultMap st area.pgd vaddr 1 (!isKernelTask)
        if m.2 then
          let w := writePage nested vaddr r.buf r.r tries m.1
          ⟨w.1, if w.2 then some .ignore else none⟩
        else ⟨m.1, none⟩

/-- The `memset` of an anonymous area, page by page. -/
def zeroArea (area : VmArea) (st : FaultState) : FaultState × Bool :=
  runLoop (fun st i => writePage nested (u32 (area.addr + i * PAGE_SIZE)) (fun _ => 0) PAGE_SIZE
    tries st) st (u32 (PAGE_SIZE * area.nPages) / PAGE_SIZE)

/-- The end of a fault once the pages are mapped. -/
def finishFault (area : VmArea) (m : FaultState × Bool) : FaultOut :=
  if m.2 = false then ⟨m.1, none⟩
  else if area.flags &&& MAP_ANON ≠ 0 then
    let z := zeroArea nested tries area m.1
    ⟨z.1, if z.2 then some .ignore else none⟩
  else ⟨m.1, some .ignore⟩

/-- A fault on a page of `area` that is not present. -/
def faultArea (st : FaultState) (cr2 : ℕ) (area : VmArea) : FaultOut :=
  let isKernelTask := env.task.pgd == st.machine.kernelPgd
  let alignedCr2 := pgRndDown cr2
  if area.limit ≠ 0 ∧ cr2 ≥ u32 (area.addr + area.limit) then ⟨st, some .buserror⟩
  else if area.physAddr ≠ 0 then
    finishFault nested tries area
      (faultMapFixed st env.task.pgd area.addr area.physAddr area.nPages (!isKernelTask))
  else if area.ops ≠ 0 then
    match genericFileLoadMappedPage env nested tries st area alignedCr2
      (u32 (sub32 alignedCr2 area.addr + area.fileOff)) with
    | ⟨st, some .ignore⟩ => finishFault nested tries area (st, true)
    | out => out
  else
    finishFault nested tries area
      (faultMap st env.task.pgd area.addr area.nPages (!isKernelTask))

/-- A write to a page that is present and protected: bit 9 marks copy on write. -/
def writeFault (s : Machine) (pgd cr2 : ℕ) : Option FaultKind :=
  let pg := getPage s pgd cr2
  if pg = 0 then none
  else if (kload s pg).testBit 9 then some .ignore else some .crash

/-- The area covers the address. -/
def CoversAddr (area : VmArea) (cr2 : ℕ) : Prop :=
  area.addr ≤ cr2 ∧ cr2 < u32 (area.addr + area.size)

instance (area : VmArea) (cr2 : ℕ) : Decidable (CoversAddr area cr2) :=
  inferInstanceAs (Decidable (_ ∧ _))

def faultWalk (present write : Bool) (st : FaultState) (cr2 : ℕ) : ℕ → ℕ → FaultOut
  | 0, _ => ⟨st, none⟩
  | fuel + 1, item =>
    if item = 0 then ⟨st, some .crash⟩
    else if CoversAddr (areaAt env.mem item) cr2 then
      if present = false then faultArea env nested tries st cr2 (areaAt env.mem item)
      else if write then ⟨st, writeFault st.machine env.task.pgd cr2⟩
      else faultWalk present write st cr2 fuel (env.mem.entries item).next
    else faultWalk present write st cr2 fuel (env.mem.entries item).next

end Handler

/-- `present` and `write` are the bits of the error code. -/
def vmaPagefaultHandler (env : FaultEnv) :
    (fuel : ℕ) → (present write : Bool) → FaultState → (cr2 : ℕ) → FaultOut
  | 0, _, _, st, _ => ⟨st, none⟩
  | fuel + 1, present, write, st, cr2 =>
    faultWalk env (fun st va => vmaPagefaultHandler env fuel false true st va) fuel present write
      st cr2 fuel env.task.first

/-- The tasks with their areas, and `mmap_bump_idx` of each. -/
structure MapSystem where
  mem : VmMem
  tasks : List VmTask
  bump : ℕ → ℕ

/-- What a fault of the task `t` reads. -/
abbrev MapSystem.faultEnv (s : MapSystem) (t : VmTask) (files : ℕ → Option (Ext2Fs × Ext2Inode))
    (stack : Mem) : FaultEnv := ⟨s.mem, t, files, stack⟩

abbrev MapSystem.pgds (s : MapSystem) : List ℕ := s.tasks.map VmTask.pgd

/-- `stack` is the `alloc_stack` of `process_spawn`. -/
inductive MapEvent where
  | stack (i vma entry : ℕ)
  | mmap (i : ℕ) (p : MmapParams) (env : MmapEnv)
  | fork (i self pgd : ℕ) (blks : List ℕ)

/-- The directory of a new task is one that no task has. -/
def MapStep (s : MapSystem) (e : MapEvent) (s' : MapSystem) : Prop :=
  match e with
  | .stack i vma entry =>
    FreshBlocks s.mem vma entry ∧ ∃ t fuel r, s.tasks[i]? = some t ∧
      allocStack fuel s.mem t (VIRT_BASE - STACK_SIZE) STACK_SIZE vma entry = some r ∧
      s' = { s with mem := r.1, tasks := s.tasks.set i r.2 }
  | .mmap i p env =>
    FreshBlocks s.mem env.vma env.entry ∧ ∃ t fuel r, s.tasks[i]? = some t ∧
      mmapCall fuel ⟨s.mem, t, s.bump i⟩ p env = some r ∧
      s' = ⟨r.2.mem, s.tasks.set i r.2.task, Function.update s.bump i r.2.mmapBumpIdx⟩
  | .fork i self pgd blks =>
    (∀ b ∈ blks, b ≠ 0 ∧ b ∉ s.mem.blocks) ∧ blks.Nodup ∧ pgd ∉ s.tasks.map VmTask.pgd ∧
    ∃ t r, s.tasks[i]? = some t ∧ forkVmAreas blks s.mem t self pgd = some r ∧
      s' = ⟨r.1, s.tasks ++ [r.2], Function.update s.bump s.tasks.length (s.bump i)⟩

/-- Any tasks, with nothing mapped yet. -/
def MapBoot (s : MapSystem) : Prop :=
  ∀ t ∈ s.tasks, t.vmAreas = none ∨ t.vmAreas = some listInit

def MapRun : List MapEvent → MapSystem → Prop := Run MapBoot MapStep

/-- The area the handler stops at: the first of the list that covers the address. -/
def FirstArea (m : VmMem) (t : VmTask) (cr2 : ℕ) (a : VmArea) : Prop :=
  ∃ l x r, Chain (fun x => (m.entries x).next) t.first (l ++ x :: r) ∧ a = areaAt m x ∧
    CoversAddr a cr2 ∧ ∀ y ∈ l, ¬ CoversAddr (areaAt m y) cr2

/-- The address lies in one of the areas of the task. -/
def InsideArea (m : VmMem) (t : VmTask) (cr2 : ℕ) : Prop :=
  ∃ es, Chain (fun x => (m.entries x).next) t.first es ∧ ∃ x ∈ es, CoversAddr (areaAt m x) cr2

/-- All entries were stored in the directory of the task, the other directories
are as they were, and an ignored fault has left an entry for its page. -/
structure Confined (env : FaultEnv) (pgds : List ℕ) (s : Machine) (cr2 : ℕ) (out : FaultOut) :
    Prop where
  installs : ∀ x ∈ out.state.log, x.1 = env.task.pgd
  others : ∀ d ∈ pgds, d ≠ env.task.pgd →
    (∀ i < 1024, kload out.state.machine (d + 4 * i) = kload s (d + 4 * i)) ∧
    ∀ va < 4294967296, pageEntry out.state.machine d va = pageEntry s d va
  mapped : out.ret = some .ignore →
    (pageEntry out.state.machine env.task.pgd cr2).testBit 0 = true

/-- However far the handling of a not-present fault has come. -/
def FaultConfined (env : FaultEnv) (pgds : List ℕ) (s : Machine) (cr2 : ℕ) : Prop :=
  ∀ fuel write, Confined env pgds s cr2 (vmaPagefaultHandler env fuel false write ⟨s, []⟩ cr2)

end DepthOS
