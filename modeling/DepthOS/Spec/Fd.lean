import Mathlib.Data.Finset.Card
import Mathlib.Order.Interval.Finset.Nat
import DepthOS.Spec.Vma

/-! The system calls of `fs/fdops.c` that work on `current_task->filetable`, and
the file-backed `mmap` of `mm/vmm.c`, for a task that has a table. A call is run on the words at
and around the table, which an index of type `int` may miss on both sides, and keeps a log of the
indices it reads or writes. -/

namespace DepthOS

abbrev TASK_FILETABLE_MAX : ℕ := 256

abbrev O_CREAT : ℕ := 0x10
abbrev FD_RDONLY : ℕ := 2
abbrev MAP_FIXED : ℕ := 0x04
abbrev MAP_ANON : ℕ := 0x08
abbrev AF_LOCAL : ℤ := 3
abbrev SOCK_STREAM : ℤ := 4
abbrev MMAP_BASE : ℕ := 0x40000000

inductive FileType where
  | FS_FILE
  | FS_DIR
  | FS_PIPE
  | FS_DEV
  | FS_SOCKET
deriving DecidableEq

/-- `struct fs_node`, as far as the calls look at it. -/
structure File where
  type : FileType
  rdonly : Bool
  /-- `pipe`, `socket` and `ops->mmap` are not NULL -/
  pipe : Bool
  socket : Bool
  canMmap : Bool
deriving DecidableEq

/-- The words `filetable[i]`; those outside the table belong to something else. -/
abbrev Filetable : Type := ℤ → Option File

/-- What the calls leave to the file systems, pipes and sockets. -/
structure FileOps where
  vfsResolve : String → String
  vfsOpen : String → Option File
  vfsCreate : String → Option File
  write : File → ℕ → ℕ → ℤ
  read : File → ℕ → ℕ → ℤ
  seek : File → ℤ → ℤ → ℤ
  mmap : File → ℤ

structure FdState where
  table : Filetable
  /-- indices read or written so far, last first -/
  log : List ℤ

def readSlot (s : FdState) (i : ℤ) : Option File × FdState :=
  (s.table i, { s with log := i :: s.log })

def writeSlot (s : FdState) (i : ℤ) (f : Option File) : FdState :=
  ⟨Function.update s.table i f, i :: s.log⟩

/-- The file, or the `errno` of the failure. -/
def lookupFile (s : FdState) (fd : ℤ) : Except ℤ File × FdState :=
  if fd < 0 ∨ fd ≥ TASK_FILETABLE_MAX then (.error EBADF, s)
  else
    let r := readSlot s fd
    match r.1 with
    | none => (.error EBADF, r.2)
    | some file => (.ok file, r.2)

/-- The loop of `find_available_fd` with `n` slots to go, `-1` when none is free. -/
def findFrom : ℕ → ℤ → FdState → ℤ × FdState
  | 0, _, s => (-1, s)
  | n + 1, i, s =>
    let r := readSlot s i
    if r.1 = none then (i, r.2) else findFrom n (i + 1) r.2

def findAvailableFd (s : FdState) : ℤ × FdState := findFrom TASK_FILETABLE_MAX 0 s

/-- The loop of `dup3` and `pipe`, which stores at once; `none` when `i` runs up to
`TASK_FILETABLE_MAX`. -/
def storeFirst (s : FdState) (file : File) : Option ℤ × FdState :=
  let r := findAvailableFd s
  if r.1 = -1 then (none, r.2) else (some r.1, writeSlot r.2 r.1 (some file))

def taskDumpFiletable (s : FdState) : FdState :=
  (List.range TASK_FILETABLE_MAX).foldl (fun s i => (readSlot s i).2) s

def checkBuf (buf : ℕ) : Bool := buf = 0 ∨ buf > VIRT_BASE

def sysWrite (ops : FileOps) (s : FdState) (fd : ℤ) (buf n : ℕ) : ℤ × FdState :=
  if checkBuf buf then (-EFAULT, s)
  else
    match lookupFile s fd with
    | (.error e, s) => (-e, s)
    | (.ok file, s) =>
      if file.pipe ∧ file.rdonly then (-ENOSYS, s) else (ops.write file buf n, s)

def sysRead (ops : FileOps) (s : FdState) (fd : ℤ) (buf n : ℕ) : ℤ × FdState :=
  if checkBuf buf then (-EFAULT, s)
  else
    match lookupFile s fd with
    | (.error e, s) => (-e, s)
    | (.ok file, s) =>
      if file.pipe ∧ ¬ file.rdonly then (-ENOSYS, s) else (ops.read file buf n, s)

/-- The node `open` works on: the one found, or the one created. -/
def openNode (ops : FileOps) (path : String) (flags : ℕ) : Except ℤ (Option File) :=
  match ops.vfsOpen (ops.vfsResolve path) with
  | some file => .ok (some file)
  | none =>
    if flags &&& O_CREAT ≠ 0 then .ok (ops.vfsCreate (ops.vfsResolve path))
    else .error ENOENT

/-- `none` is the fault on the NULL node of a failed `vfs_create`. -/
def sysOpen (ops : FileOps) (s : FdState) (path : String) (flags : ℕ) : Option ℤ × FdState :=
  match openNode ops path flags with
  | .error e => (some (-e), s)
  | .ok none => (none, s)
  | .ok (some file) =>
    let file := { file with pipe := file.pipe || file.type = .FS_PIPE
                            rdonly := flags &&& FD_RDONLY ≠ 0 }
    let r := findAvailableFd s
    if r.1 < 0 then (some (-EMFILE), r.2) else (some r.1, writeSlot r.2 r.1 (some file))

def sysSeek (ops : FileOps) (s : FdState) (fd offset whence : ℤ) : ℤ × FdState :=
  match lookupFile s fd with
  | (.error e, s) => (-e, s)
  | (.ok file, s) => (ops.seek file offset whence, s)

def sysClose (s : FdState) (fd : ℤ) : ℤ × FdState :=
  match lookupFile s fd with
  | (.error e, s) => (-e, s)
  | (.ok _, s) => (0, taskDumpFiletable (writeSlot s fd none))

def sysDup3 (s : FdState) (oldfd newfd : ℤ) : ℤ × FdState :=
  match lookupFile s oldfd with
  | (.error e, s) => (-e, s)
  | (.ok file, s) =>
    let s := taskDumpFiletable s
    if newfd = -1 then
      match storeFirst s file with
      | (none, s) => (-EMFILE, s)
      | (some i, s) => (i, s)
    else if newfd < 0 ∨ newfd ≥ TASK_FILETABLE_MAX then (-EBADF, s)
    else (newfd, writeSlot s newfd (some file))

/-- `create_pipe_file` leaves `type`, `rdonly` and `socket` as `kmalloc` returned them. -/
def createPipeFile (junk : File) : File := { junk with pipe := true, canMmap := false }

/-- Only the second loop's failure is noticed. -/
def sysPipe (s : FdState) (rf wf : File) : ℤ × FdState :=
  let r := storeFirst s (createPipeFile rf)
  match storeFirst r.2 (createPipeFile wf) with
  | (none, s) => (-EMFILE, s)
  | (some _, s) => (0, s)

def socketFile : File := ⟨.FS_SOCKET, false, false, true, false⟩

/-- The descriptor is used as it comes. -/
def sysSocket (s : FdState) (domain type : ℤ) : ℤ × FdState :=
  if domain ≠ AF_LOCAL then (-EINVAL, s)
  else if type ≠ SOCK_STREAM then (-EINVAL, s)
  else
    let r := findAvailableFd s
    (r.1, writeSlot r.2 r.1 (some socketFile))

/-- `waited` is the table as the other threads left it, where the call had to yield
for a connection. -/
def sysAccept (s : FdState) (fd : ℤ) (waited : Option Filetable) : ℤ × FdState :=
  match lookupFile s fd with
  | (.error e, s) => (-e, s)
  | (.ok sockfile, s) =>
    if sockfile.type ≠ .FS_SOCKET ∨ ¬ sockfile.socket then (-ENOTSOCK, s)
    else
      let r := findAvailableFd { s with table := waited.getD s.table }
      if r.1 = 0 then (-EMFILE, r.2) else (r.1, writeSlot r.2 r.1 (some socketFile))

/-- The failure is the `errno`. -/
def vmaMapFile (ops : FileOps) (s : FdState) (fd offset : ℤ) : Except ℤ Unit × FdState :=
  if fd > TASK_FILETABLE_MAX then (.error EBADF, s)
  else
    let r := readSlot s fd
    match r.1 with
    | none => (.error EBADF, r.2)
    | some file =>
      if ¬ file.canMmap then (.error ENIMPL, r.2)
      else if offset % PAGE_SIZE ≠ 0 then (.error EINVAL, r.2)
      else if ops.mmap file ≠ 0 then (.error (ops.mmap file), r.2)
      else (.ok (), r.2)

/-- `struct sc_mmap_params`; `prot` is not looked at. -/
structure MmapParams where
  addr : ℕ
  length : ℕ
  flags : ℕ
  fd : ℤ
  offset : ℤ

/-- The memory areas of the task when it calls `mmap`, with what `vma_create` gets
from `kmalloc`. -/
structure MmapTask where
  fuel : ℕ
  mem : VmMem
  task : VmTask
  mmapBumpIdx : ℕ
  vma : ℕ
  entry : ℕ

def mmapAddr (t : MmapTask) (p : MmapParams) : ℕ :=
  if p.addr = 0 then u32 (MMAP_BASE + t.mmapBumpIdx * PAGE_SIZE) else p.addr

/-- The part of `do_mmap` before the file: the checks and `vma_create`. `none` is a
walk that does not end. -/
def mmapArea (t : MmapTask) (addr length flags : ℕ) : Option (Except ℤ ℕ) :=
  if length = 0 then some (.error EINVAL)
  else if addr + length ≥ 4294967296 then some (.error EOVERFLOW)
  else if addr + length > VIRT_BASE then some (.error EEXIST)
  else
    match vmaCreate t.fuel t.mem t.task addr (pgRndUp length) flags t.vma t.entry with
    | none => none
    | some (.error .EINVAL, _) => some (.error EINVAL)
    | some (.error .ENOMEM, _) => some (.error ENOMEM)
    | some (.ok area, _) => some (.ok area)

def sysMmap (ops : FileOps) (s : FdState) (t : MmapTask) (p : MmapParams) : Option ℤ × FdState :=
  if p.addr = 0 ∧ p.flags &&& MAP_FIXED ≠ 0 then (some (-1), s)
  else
    match mmapArea t (mmapAddr t p) p.length p.flags with
    | none => (none, s)
    | some (.error e) => (some (-e), s)
    | some (.ok _) =>
      if p.flags &&& MAP_ANON = 0 ∧ p.fd ≠ 0 then
        match vmaMapFile ops s p.fd p.offset with
        | (.error e, s) => (some (-e), s)
        | (.ok _, s) => (some (mmapAddr t p), s)
      else (some (mmapAddr t p), s)

inductive FdCall where
  | openFile (path : String) (flags : ℕ)
  | close (fd : ℤ)
  | read (fd : ℤ) (buf n : ℕ)
  | write (fd : ℤ) (buf n : ℕ)
  | seek (fd offset whence : ℤ)
  | dup3 (oldfd newfd : ℤ)
  | pipe (rf wf : File)
  | socket (domain type : ℤ)
  | accept (fd : ℤ) (waited : Option Filetable)
  | mmap (task : MmapTask) (params : MmapParams)

/-- The value a call returns, if it does, and what it did to the table. -/
def fdCall (ops : FileOps) (t : Filetable) : FdCall → Option ℤ × FdState
  | .openFile path flags => sysOpen ops ⟨t, []⟩ path flags
  | .close fd => (sysClose ⟨t, []⟩ fd).map some id
  | .read fd buf n => (sysRead ops ⟨t, []⟩ fd buf n).map some id
  | .write fd buf n => (sysWrite ops ⟨t, []⟩ fd buf n).map some id
  | .seek fd offset whence => (sysSeek ops ⟨t, []⟩ fd offset whence).map some id
  | .dup3 oldfd newfd => (sysDup3 ⟨t, []⟩ oldfd newfd).map some id
  | .pipe rf wf => (sysPipe ⟨t, []⟩ rf wf).map some id
  | .socket domain type => (sysSocket ⟨t, []⟩ domain type).map some id
  | .accept fd waited => (sysAccept ⟨t, []⟩ fd waited).map some id
  | .mmap task params => sysMmap ops ⟨t, []⟩ task params

/-- The file behind a descriptor. -/
def fileAt (t : Filetable) (fd : ℤ) : Option File :=
  if 0 ≤ fd ∧ fd < TASK_FILETABLE_MAX then t fd else none

def freeSlots (t : Filetable) : ℕ :=
  ((Finset.range TASK_FILETABLE_MAX).filter (fun i : ℕ => t i = none)).card

/-- `fd` is an open socket. -/
def IsSocket (t : Filetable) (fd : ℤ) : Prop :=
  ∃ file, fileAt t fd = some file ∧ file.type = .FS_SOCKET ∧ file.socket = true

instance (t : Filetable) (fd : ℤ) : Decidable (IsSocket t fd) :=
  decidable_of_iff (((fileAt t fd).any fun file => file.type = .FS_SOCKET ∧ file.socket) = true)
    (by simp [IsSocket, Option.any_eq_true])

/-- The slots a call needs. -/
def slotsNeeded (ops : FileOps) (t : Filetable) : FdCall → ℕ
  | .openFile path flags => match openNode ops path flags with
    | .ok (some _) => 1
    | _ => 0
  | .dup3 oldfd newfd => if (fileAt t oldfd).isSome ∧ newfd = -1 then 1 else 0
  | .pipe _ _ => 2
  | .socket domain type => if domain = AF_LOCAL ∧ type = SOCK_STREAM then 1 else 0
  | .accept fd _ => if IsSocket t fd then 1 else 0
  | _ => 0

/-- The table in which the call looks for its slots. -/
def searched (t : Filetable) : FdCall → Filetable
  | .accept _ waited => waited.getD t
  | _ => t

/-- Every access is inside the table, and a call that lacks a slot fails with
`EMFILE` and leaves the table alone. -/
def FdSafe (ops : FileOps) (t : Filetable) (c : FdCall) : Prop :=
  (∀ i ∈ (fdCall ops t c).2.log, 0 ≤ i ∧ i < TASK_FILETABLE_MAX) ∧
  (freeSlots (searched t c) < slotsNeeded ops t c →
    (fdCall ops t c).1 = some (-EMFILE) ∧ (fdCall ops t c).2.table = searched t c)

/-- `mmap` gets as far as the file. -/
def MmapsFile (t : MmapTask) (p : MmapParams) : Prop :=
  ¬(p.addr = 0 ∧ p.flags &&& MAP_FIXED ≠ 0) ∧ p.flags &&& MAP_ANON = 0 ∧ p.fd ≠ 0 ∧
    ∃ area, mmapArea t (mmapAddr t p) p.length p.flags = some (.ok area)

/-! The table of a forked task (`kernel/proc.c`). A slot holds a node pointer, `none` for
NULL. -/

section Fork

variable {Node : Type}

/-- `tty` is what `vfs_open("/dev/tty0")` returns. -/
def taskSetupFiletable (tty : Option Node) (ft : ℤ → Option Node) : ℤ → Option Node :=
  let ft := fun i : ℤ => if 0 ≤ i ∧ i < TASK_FILETABLE_MAX then none else ft i
  Function.update (Function.update (Function.update ft 0 tty) 1 tty) 2 tty

/-- The first `n` rounds of the loop of `task_clone_filetable`. -/
def cloneSlots (dst src : ℤ → Option Node) : ℕ → ℤ → Option Node
  | 0 => dst
  | n + 1 =>
    let dst := cloneSlots dst src n
    if (src n).isSome then Function.update dst n (src n) else dst

def taskCloneFiletable (dst src : ℤ → Option Node) : ℤ → Option Node :=
  cloneSlots dst src TASK_FILETABLE_MAX

/-- The child's table in `fork_task`, on the block `kmalloc` returned for it. -/
def forkFiletable (vfsOpen : String → Option Node) (block parent : ℤ → Option Node) :
    ℤ → Option Node :=
  taskCloneFiletable (taskSetupFiletable (vfsOpen "/dev/tty0") block) parent

end Fork

end DepthOS
