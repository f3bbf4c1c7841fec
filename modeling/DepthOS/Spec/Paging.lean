import DepthOS.Lib.Loop
import DepthOS.Lib.Run
import DepthOS.Spec.Pmm

/-! `mm/paging.c` and `paging.h`: page directories and page tables in physical
memory. A kernel pointer is dereferenced at `ADDR_TO_PHYS` of it, the kernel
window being mapped linearly in every directory; 0 is NULL. A call that does
not come back (a panic, or a write through NULL) yields `none`. -/

namespace DepthOS

open Lib

structure Machine where
  /-- physical memory -/
  mem : Mem
  pmmBitmap : Bitmap
  /-- the blocks the next `kmalloc(4096)` calls return; then NULL -/
  pool : List ℕ
  /-- where the array `kernel_pgd` lies -/
  kernelPgd : ℕ
  cr3 : ℕ
  currentPgd : ℕ
  pagingEnabled : Bool
  /-- every entry `map_page` has stored so far -/
  installs : List ℕ

def kload (s : Machine) (va : ℕ) : ℕ := load32 s.mem (addrToPhys va)

def kstore (s : Machine) (va v : ℕ) : Machine := { s with mem := store32 s.mem (addrToPhys va) v }

def kmemset0 (s : Machine) (va n : ℕ) : Machine :=
  { s with mem := blit s.mem (addrToPhys va) (fun _ => 0) n }

def kmemcpy (s : Machine) (dst src n : ℕ) : Machine :=
  { s with mem := blit s.mem (addrToPhys dst) (fun k => s.mem (addrToPhys src + k)) n }

/-- `kmalloc(4096)`. -/
def kmallocPage (s : Machine) : ℕ × Machine :=
  match s.pool with
  | [] => (0, s)
  | b :: rest => (b, { s with pool := rest })

/-- Page and directory entries have the same layout: present, write-through, the
two access bits, and the frame. -/
def makeEntry (frame : ℕ) (write user : Bool) : ℕ :=
  1 <<< 0 ||| 1 <<< 3 ||| write.toNat <<< 1 ||| user.toNat <<< 2 ||| (frame &&& 0xFFFFF000)

def makePte (frame : ℕ) (write user : Bool) : ℕ := makeEntry frame write user

def makePde (frame : ℕ) (write user : Bool) : ℕ := makeEntry frame write user

def extractAddr (v : ℕ) : ℕ := (v >>> 12 &&& 0xFFFFF) * PAGE_SIZE

def pdeIndex (addr : ℕ) : ℕ := addr / (PAGE_SIZE * PAGE_TABLE_SIZE)

def pteIndex (addr : ℕ) : ℕ := addr / PAGE_SIZE % PAGE_TABLE_SIZE

def getPagetable (s : Machine) (pgd vaddr : ℕ) : ℕ :=
  let addr := extractAddr (kload s (pgd + 4 * pdeIndex vaddr))
  if addr = 0 then 0 else addrToVirt addr

def getPage (s : Machine) (pgd vaddr : ℕ) : ℕ :=
  if pdeIndex vaddr > 1024 ∨ pteIndex vaddr > 1024 then 0
  else
    let pde := getPagetable s pgd vaddr
    if pde = 0 then 0 else pde + 4 * pteIndex vaddr

/-- `INVALID_ADDR` where there is no table. -/
def getPhysAddr (s : Machine) (pgd vaddr : ℕ) : ℕ :=
  if s.pagingEnabled = false then addrToPhys vaddr
  else
    let pte := getPage s pgd vaddr
    if pte = 0 then 0xFFFFFFFF else u32 (extractAddr (kload s pte) + vaddr % PAGE_SIZE)

def createPgd (s : Machine) : Option (ℕ × Machine) :=
  let (pgd, s) := kmallocPage s
  if pgd = 0 then none
  else
    let s := kmemset0 s pgd 4096
    let i := pdeIndex VIRT_BASE
    some (pgd, kmemcpy s (pgd + 4 * i) (s.kernelPgd + 4 * i) (4096 - i * 4))

/-- The first half of `map_page`: a table for `vaddr`, unless there is one.
Directory entry 0 never gets one. -/
def mapPageTable (s : Machine) (pgd vaddr : ℕ) (user : Bool) : Option Machine :=
  let ti := pdeIndex vaddr
  if ti ≠ 0 ∧ extractAddr (kload s (pgd + 4 * ti)) = 0 then
    let (tb, s) := kmallocPage s
    if tb = 0 then none
    else
      let s := kmemset0 s tb PAGE_SIZE
      some (kstore s (pgd + 4 * pdeIndex vaddr) (makePde (addrToPhys tb) true user))
  else some s

def mapPage (s : Machine) (pgd vaddr phys : ℕ) (user : Bool) : Option Machine :=
  (mapPageTable s pgd vaddr user).bind fun s =>
    let pg := getPage s pgd vaddr
    let pte := makePte phys true user
    if pg = 0 then none else some { kstore s pg pte with installs := s.installs ++ [pte] }

/-- One round of the loop of `map_addr_fixed`, `vaddr` already rounded down. -/
def mapFixedOne (pgd vaddr pstart : ℕ) (user overwrite : Bool) (s : Machine) (i : ℕ) :
    Option Machine :=
  let va := u32 (vaddr + u32 (i * PAGE_SIZE))
  let page := getPage s pgd va
  if page ≠ 0 ∧ kload s page ≠ 0 ∧ overwrite = false then some s
  else mapPage s pgd va (u32 (pstart + u32 (i * PAGE_SIZE))) user

def mapAddrFixed (s : Machine) (pgd vaddr pstart npages : ℕ) (user overwrite : Bool) :
    Option Machine :=
  (List.range npages).foldlM (mapFixedOne pgd (pgRndDown vaddr) pstart user overwrite) s

/-- `phys_start` is unsigned: the test `phys_start < 0` never fires. -/
def mapAddr (s : Machine) (pgd vaddr npages : ℕ) (user overwrite : Bool) :
    Option (ℕ × Machine) :=
  let vaddr := pgRndDown vaddr
  let (physStart, bm) := pmmAlloc s.pmmBitmap npages
  (mapAddrFixed { s with pmmBitmap := bm } pgd vaddr physStart npages user overwrite).map
    fun s => (physStart, s)

def unmapPage (s : Machine) (pgd vaddr : ℕ) : Machine :=
  if getPage s pgd vaddr = 0 then s else kstore s (getPage s pgd vaddr) 0

/-- `kfree` of a page: the freelist of its slab may be linked through it, and the page can
be handed out again. -/
def kfreePage (s : Machine) (addr : ℕ) (link : Option ℕ) : Machine :=
  { s with
    mem := match link with
      | none => s.mem
      | some next => store32 s.mem (addrToPhys addr) next
    pool := addr :: s.pool }

/-- `links` is what `kfree` stores in the block of a table, if it does. -/
def unmapTable (links : ℕ → Option ℕ) (s : Machine) (pgd vaddr : ℕ) : Machine :=
  if pdeIndex vaddr ≥ 1024 then s
  else
    let taddr := kload s (pgd + 4 * pdeIndex vaddr) >>> 12 <<< 12
    if taddr = 0 then s
    else
      kfreePage (kstore s (pgd + 4 * pdeIndex vaddr) 0) (addrToVirt taddr) (links (addrToVirt taddr))

/-- A loop of `unmap_addr` that goes on while `cur < bound && cur < end`. -/
def unmapLoop (unmap : Machine → ℕ → Machine) (step bound stop : ℕ) :
    ℕ → Machine → ℕ → Option (Machine × ℕ) :=
  forLoop (fun cur => decide (cur < bound ∧ cur < stop)) (fun cur => u32 (cur + step)) unmap

/-- Each loop takes fuel: where `end` is in the last page, `cur` never gets past it. -/
def unmapAddr (links : ℕ → Option ℕ) (fuel : ℕ) (s : Machine) (pgd vaddr npages : ℕ)
    (freetbl : Bool) : Option Machine := do
  let stop := u32 (vaddr + u32 (npages * PAGE_SIZE))
  let (s, cur) ←
    if freetbl then do
      let (s, cur) ← unmapLoop (fun s cur => unmapPage s pgd cur) PAGE_SIZE
        (roundUp vaddr (PAGE_TABLE_SIZE * PAGE_SIZE)) stop fuel s vaddr
      unmapLoop (fun s cur => unmapTable links s pgd cur) (PAGE_SIZE * PAGE_TABLE_SIZE)
        (roundDown stop (PAGE_TABLE_SIZE * PAGE_SIZE)) stop fuel s cur
    else some (s, vaddr)
  let (s, _) ← unmapLoop (fun s cur => unmapPage s pgd cur) PAGE_SIZE stop stop fuel s cur
  some s

inductive PgEvent where
  | mapPage (vaddr phys : ℕ) (user : Bool)
  | mapAddrFixed (vaddr pstart npages : ℕ) (user overwrite : Bool)
  | unmapPage (vaddr : ℕ)

/-- The pages a call works on. -/
def PgEvent.touches (e : PgEvent) (page : ℕ) : Prop :=
  match e with
  | .mapPage vaddr _ _ => page = vaddr / PAGE_SIZE
  | .mapAddrFixed vaddr _ npages _ _ =>
    vaddr / PAGE_SIZE ≤ page ∧ page < vaddr / PAGE_SIZE + npages
  | .unmapPage vaddr => page = vaddr / PAGE_SIZE

/-- Page number of 4 MiB, and the first one of the kernel half. -/
abbrev USER_FIRST : ℕ := 1024
abbrev USER_END : ℕ := 786432

/-- Every address of the call lies in `[4 MiB, VIRT_BASE)`. -/
def PgEvent.InUser (e : PgEvent) : Prop := ∀ p, e.touches p → USER_FIRST ≤ p ∧ p < USER_END

/-- Arguments are 32-bit. -/
def PgEvent.Ok (e : PgEvent) : Prop :=
  match e with
  | .mapPage _ phys _ => phys < 4294967296
  | .mapAddrFixed _ pstart _ _ _ => pstart < 4294967296
  | .unmapPage _ => True

def pgApply (s : Machine) (pgd : ℕ) (e : PgEvent) : Option Machine :=
  match e with
  | .mapPage vaddr phys user => DepthOS.mapPage s pgd vaddr phys user
  | .mapAddrFixed vaddr pstart npages user overwrite =>
    DepthOS.mapAddrFixed s pgd vaddr pstart npages user overwrite
  | .unmapPage vaddr => some (DepthOS.unmapPage s pgd vaddr)

def PgStep (pgd : ℕ) (s : Machine) (e : PgEvent) (s' : Machine) : Prop :=
  e.InUser ∧ e.Ok ∧ pgApply s pgd e = some s'

/-- The entry `get_page` finds, 0 when there is none. -/
def pageEntry (s : Machine) (pgd vaddr : ℕ) : ℕ :=
  if getPage s pgd vaddr = 0 then 0 else kload s (getPage s pgd vaddr)

end DepthOS
