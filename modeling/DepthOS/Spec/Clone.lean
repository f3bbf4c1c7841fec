import DepthOS.Spec.Paging

/-! `clone_pgd`: the copy of an address space that `fork_task` makes. User pages
are read and written through the memory-management unit, in the address space
`cr3` names; the kernel runs with write protection off, so the access bits of
an entry do not restrict it. -/

namespace DepthOS

open Lib

def getbit (number off : ℕ) : Bool := number.testBit off

def activatePgd (s : Machine) (pgd : ℕ) : Machine :=
  { s with cr3 := addrToPhys pgd, currentPgd := pgd }

def getCurrentPgd (s : Machine) : ℕ := addrToVirt s.cr3

/-- The physical address behind `va`; `none` is a page fault. Bit 7 of a directory
entry makes it a 4 MiB page. -/
def translate (m : Mem) (cr3 va : ℕ) : Option ℕ :=
  let pde := load32 m (cr3 + 4 * pdeIndex va)
  if pde.testBit 0 = false then none
  else if pde.testBit 7 then some (pde / 4194304 * 4194304 + va % 4194304)
  else
    let pte := load32 m (extractAddr pde + 4 * pteIndex va)
    if pte.testBit 0 = false then none else some (extractAddr pte + va % PAGE_SIZE)

/-- `memcpy(buffer, va, 4096)` with `va` a user page. -/
def copyIn (s : Machine) (buffer va : ℕ) : Option Machine :=
  if buffer = 0 then none
  else (translate s.mem s.cr3 va).map fun p =>
    { s with mem := blit s.mem (addrToPhys buffer) (fun k => s.mem (p + k)) 4096 }

/-- `memcpy(va, buffer, 4096)` with `va` a user page. -/
def copyOut (s : Machine) (va buffer : ℕ) : Option Machine :=
  (translate s.mem s.cr3 va).map fun p =>
    { s with mem := blit s.mem p (fun k => s.mem (addrToPhys buffer + k)) 4096 }

def dupPgd (s : Machine) (original : ℕ) : Option (ℕ × Machine) :=
  let (pgd, s) := kmallocPage s
  if pgd = 0 then none else some (pgd, kmemcpy s pgd original 4096)

/-- One round of the inner loop; `saved` is the local `current_pgd`. -/
def cloneEntry (original pgd buffer saved table i : ℕ) (s : Machine) (j : ℕ) : Option Machine :=
  let va := u32 (u32 (i * 1024 * 4096) + u32 (j * 4096))
  let page := getPage s original va
  if page = 0 then none
  else if kload s page = 0 then some s
  else
    let e := kload s page
    let (frame, bm) := pmmAlloc s.pmmBitmap 1
    let s := kstore { s with pmmBitmap := bm } (table + 4 * j)
      (makePte frame (getbit e 1) (getbit e 2))
    (copyIn (activatePgd s original) buffer va).bind fun s =>
    (copyOut (activatePgd s pgd) va buffer).map fun s => activatePgd s saved

/-- One round of the outer loop. -/
def cloneTable (original pgd buffer saved : ℕ) (s : Machine) (i : ℕ) : Option Machine :=
  let e := kload s (original + 4 * i)
  if e = 0 ∨ u32 (i * 1024 * 4096) ≥ VIRT_BASE then some s
  else
    let (table, s) := kmallocPage s
    if table = 0 then none
    else
      let s := kstore (kmemset0 s table 4096) (pgd + 4 * i)
        (makePde (addrToPhys table) (getbit e 1) (getbit e 2))
      (List.range 1024).foldlM (cloneEntry original pgd buffer saved table i) s

def clonePgd (s : Machine) (original : ℕ) : Option (ℕ × Machine) :=
  (dupPgd s original).bind fun (pgd, s) =>
    let saved := getCurrentPgd s
    let (buffer, s) := kmallocPage s
    ((List.range 1024).foldlM (cloneTable original pgd buffer saved) s).map fun s =>
      (pgd, { s with pool := if buffer = 0 then s.pool else buffer :: s.pool })

end DepthOS
