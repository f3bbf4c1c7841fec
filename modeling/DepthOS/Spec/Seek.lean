import DepthOS.Lib.Run
import DepthOS.Spec.Initrd

/-! Seeking: `vfs_setpos` of `fs/vfs.c`, `generic_file_seek_size` of `fs/file.c`, and the
`seek` of ext2 and of the initial ramdisk. Offsets are `soff_t`, signed, but a position and a
size are `off_t`, so sums are unsigned and read as signed afterwards. -/

namespace DepthOS

open Lib

abbrev SEEK_CUR : ℤ := 1
abbrev SEEK_END : ℤ := 2
abbrev SEEK_SET : ℤ := 3

/-- What a seek returns, and `file->pos` after it. -/
structure SeekResult where
  ret : ℤ
  pos : ℕ
deriving DecidableEq

def vfsSetpos (filePos : ℕ) (off max : ℤ) : SeekResult :=
  if off < 0 then ⟨-EINVAL, filePos⟩
  else if off > max then ⟨-EINVAL, filePos⟩
  else ⟨off, sizeT off⟩

/-- Any other `whence` is taken for `SEEK_SET`. -/
def genericFileSeekSize (filePos : ℕ) (pos : ℤ) (size : ℕ) (whence : ℤ) : SeekResult :=
  if whence = SEEK_END then vfsSetpos filePos (s32 (sizeT pos + size)) (s32 size)
  else if whence = SEEK_CUR then
    if pos = 0 then ⟨s32 filePos, filePos⟩
    else vfsSetpos filePos (s32 (sizeT pos + filePos)) (s32 size)
  else vfsSetpos filePos pos (s32 size)

def ext2Seek (inode : Ext2Inode) (filePos : ℕ) (pos whence : ℤ) : SeekResult :=
  genericFileSeekSize filePos pos (sub32 (ext2InodeSize inode) 1) whence

def initrdfsSeek (m : Mem) (rd : Initrd) (inode filePos : ℕ) (pos whence : ℤ) : SeekResult :=
  genericFileSeekSize filePos pos (sub32 (initrdLength m rd inode) 1) whence

/-- A call on an open file of the ramdisk; `buf` is what the caller's buffer holds. -/
inductive InitrdCall where
  | read (n : ℕ) (buf : Mem)
  | seek (off whence : ℤ)

/-- The position a call leaves; `vfs_read` passes `&file->pos`. -/
def InitrdCall.after (m : Mem) (rd : Initrd) (inode pos : ℕ) : InitrdCall → ℕ
  | .read n buf => (initrdfsRead m rd inode buf n pos).offset
  | .seek off whence => (initrdfsSeek m rd inode pos off whence).pos

/-- Arguments are 32-bit. -/
def InitrdCall.Ok : InitrdCall → Prop
  | .read n _ => n < 4294967296
  | .seek off _ => -2147483648 ≤ off ∧ off < 2147483648

/-- Calls on a file from the moment it is opened, at position 0. -/
def InitrdRun (m : Mem) (rd : Initrd) (inode : ℕ) : List InitrdCall → ℕ → Prop :=
  Run (fun pos => pos = 0) fun pos call pos' => call.Ok ∧ pos' = call.after m rd inode pos

end DepthOS
