import DepthOS.Spec.Elf
import DepthOS.Spec.OpenFile
import DepthOS.Spec.String
import DepthOS.Spec.UserMemory

/-! `elf_loadf` of `kernel/elf.c` on a file of ext2: the headers are read, a new address space
is made, and the segments are mapped, read and cleared in it. -/

namespace DepthOS

open Lib

/-- `struct elf_header`, as far as loading looks at it. -/
structure ElfHeader where
  entry : ℕ
  pheaderOffset : ℕ
  sheaderOffset : ℕ
  phentrySize : ℕ
  pheaderNum : ℕ
  shentrySize : ℕ
  sheaderNum : ℕ
  shstrndx : ℕ

def elfHeader (m : Mem) : ElfHeader where
  entry := load32 m 24
  pheaderOffset := load32 m 28
  sheaderOffset := load32 m 32
  phentrySize := load16 m 42
  pheaderNum := load16 m 44
  shentrySize := load16 m 46
  sheaderNum := load16 m 48
  shstrndx := load16 m 50

/-- A `struct elf_program_header` in memory. -/
def elfProgramHeader (m : Mem) (a : ℕ) : ElfProgramHeader where
  type := load32 m a
  offset := load32 m (a + 4)
  vaddr := load32 m (a + 8)
  filesz := load32 m (a + 16)
  memsz := load32 m (a + 20)

/-- What the buffers hold before they are read into: arrays of the stack, blocks from `kmalloc`
for the two tables, and those of the volume, read by read. -/
structure ElfBuffers where
  magic : Mem
  header : Mem
  segments : Mem
  sections : Mem
  name : Mem
  fresh : ℕ → ℕ → Leftovers

/-- `vfs_read` -/
def elfRead (f : Ext2File) (fresh : ℕ → Leftovers) (buf : Mem) (n pos : ℕ) :
    Option Ext2ReadResult :=
  ext2Read (f.fs.refresh fresh) f.cached buf n pos

/-- `vfs_seek`: where the file stands afterwards. -/
def elfSeek (f : Ext2File) (pos off : ℕ) (whence : ℤ) : ℕ :=
  (ext2Seek f.cached pos (s32 off) whence).pos

/-- The NUL goes behind the bytes that have been read, which is past the array for all four. -/
def elfProbef (f : Ext2File) (fresh : ℕ → Leftovers) (buf : Mem) (pos : ℕ) : Option (Bool × ℕ) :=
  (elfRead f fresh buf 4 (elfSeek f pos 0 SEEK_SET)).map fun x =>
  let magic := Function.update x.buf x.r 0
  (magic 0 = 0x7f ∧ strcmp magic 1 [69, 76, 70] = 0, x.offset)

/-- The loop over the sections, which reads their names for the log. -/
def elfSectionNames (f : Ext2File) (fresh : ℕ → ℕ → Leftovers) (buf sections : Mem) (h : ElfHeader)
    (pos : ℕ) : Option ℕ :=
  (List.range h.sheaderNum).foldlM (fun pos i =>
    let off := u32 (load32 sections (40 * h.shstrndx + 16) + load32 sections (40 * i))
    (elfRead f (fresh i) buf 50 (elfSeek f pos off SEEK_SET)).map Ext2ReadResult.offset) pos

/-- A byte stored at an address of the program; `none` is a page fault. -/
def userStore (s : Machine) (va : ℕ) (b : Byte) : Option Machine :=
  (translate s.mem s.cr3 va).map fun x => { s with mem := Function.update s.mem x b }

/-- `n` bytes stored from an address of the program on. -/
def userWrite (src : ℕ → Byte) (va : ℕ) : (n : ℕ) → Machine → Option Machine
  | 0, s => some s
  | n + 1, s => (userWrite src va n s).bind fun s => userStore s (u32 (va + n)) (src n)

/-- The memory from an address of the program on. -/
def userView (s : Machine) (va : ℕ) : Mem := fun k =>
  ((translate s.mem s.cr3 (u32 (va + k))).map s.mem).getD 0

/-- A segment, and where the file stands. `none` is a panic or a page fault. -/
def elfReadSegment (f : Ext2File) (fresh : ℕ → Leftovers) (pgd : ℕ) (st : Machine × ℕ)
    (segment : ElfProgramHeader) : Option (Machine × ℕ) :=
  if segment.type ≠ ELF_PHEADER_LOAD then some st
  else if u32 (segment.vaddr + segment.memsz) ≥ VIRT_BASE then some st
  else
    let pos := elfSeek f st.2 segment.offset SEEK_SET
    match elfMapSegment ⟨st.1, []⟩ pgd segment with
    | (_, false) => none
    | (m, true) =>
      (elfRead f fresh (userView m.machine segment.vaddr) segment.filesz pos).bind fun x =>
      (userWrite x.buf segment.vaddr x.r m.machine).bind fun s =>
        if x.r ≠ segment.filesz then none
        else if segment.memsz > segment.filesz then
          (userWrite (fun _ => 0) (u32 (segment.vaddr + segment.filesz))
            (segment.memsz - segment.filesz) s).map (·, x.offset)
        else some (s, x.offset)

structure ElfLoaded where
  machine : Machine
  pgd : ℕ
  entry : ℕ

/-- From the file's place after the headers on; `old` is the directory of the task, 0 if it has
none. The place is saved, the size is asked for, and the place restored. -/
def elfLoadSegments (f : Ext2File) (fresh : ℕ → ℕ → Leftovers) (s : Machine) (old pos : ℕ)
    (h : ElfHeader) (segments : Mem) : Option ElfLoaded :=
  let s := if old ≠ 0 then { activatePgd s s.kernelPgd with pool := old :: s.pool } else s
  (createPgd s).bind fun (pgd, s) =>
    let tmp := (ext2Seek f.cached pos 0 SEEK_CUR).ret
    let pos := elfSeek f (elfSeek f pos 0 SEEK_END) (sizeT tmp) SEEK_SET
    ((List.range h.pheaderNum).foldlM (fun st i =>
      elfReadSegment f (fresh i) pgd st (elfProgramHeader segments (32 * i)))
        (activatePgd s pgd, pos)).map fun st => ⟨activatePgd st.1 (getCurrentPgd s), pgd, h.entry⟩

/-- `some none` is a file that is no ELF: nothing is loaded. -/
def elfLoadf (f : Ext2File) (b : ElfBuffers) (s : Machine) (old pos : ℕ) :
    Option (Option ElfLoaded) :=
  (elfProbef f (b.fresh 0) b.magic pos).bind fun (ok, pos) =>
  if !ok then some none
  else
    (elfRead f (b.fresh 1) b.header 52 (elfSeek f pos 0 SEEK_SET)).bind fun x =>
    let h := elfHeader x.buf
    (elfRead f (b.fresh 2) b.segments (h.phentrySize * h.pheaderNum)
      (elfSeek f x.offset h.pheaderOffset SEEK_SET)).bind fun y =>
    (elfRead f (b.fresh 3) b.sections (h.shentrySize * h.sheaderNum)
      (elfSeek f y.offset h.sheaderOffset SEEK_SET)).bind fun z =>
    (elfSectionNames f (fun i => b.fresh (4 + i)) b.name z.buf h z.offset).bind fun pos =>
    (elfLoadSegments f (fun i => b.fresh (4 + h.sheaderNum + i)) s old pos h y.buf).map some

end DepthOS
