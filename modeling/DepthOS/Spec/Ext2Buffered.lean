import DepthOS.Spec.Ext2Dir

/-! The reads of `fs/ext2.c` on a volume whose block buffers `kmalloc` has: no call
faults there, so the functions are total. Each is named after what it reads. -/

namespace DepthOS

open Lib

/-- Blocks that `kmalloc` has buffers for. -/
def Ext2Fs.Buffered (fs : Ext2Fs) : Prop := fs.blockSize ≤ 40960

instance (fs : Ext2Fs) : Decidable fs.Buffered := inferInstanceAs (Decidable (_ ≤ _))

def readBlock (fs : Ext2Fs) (buf : Mem) (block : ℕ) : Mem × Bool :=
  let sector := u32 (block * fs.blockSize) / fs.dev.blockSize
  let nSectors := ceilDiv fs.blockSize fs.dev.blockSize
  let r := fs.dev.read buf nSectors sector
  (r.1, r.2 == nSectors)

/-- `fuel` blocks from `i` on. -/
def directLoop (fs : Ext2Fs) (blocks : ℕ → ℕ) (pos nbytes : ℕ) :
    (fuel i r byteOffset : ℕ) → (blockbuf buf : Mem) → ℕ × Mem
  | 0, _, r, _, _, buf => (r, buf)
  | fuel + 1, i, r, byteOffset, blockbuf, buf =>
    if r ≤ nbytes then
      if blocks i = 0 then directLoop fs blocks pos nbytes fuel (i + 1) r byteOffset blockbuf buf
      else
        let bytes := min (sub32 nbytes r) (sub32 fs.blockSize byteOffset)
        let blockbuf := (readBlock fs blockbuf (blocks i)).1
        directLoop fs blocks pos nbytes fuel (i + 1) (u32 (r + bytes)) 0 blockbuf
          (blit buf (pos + r) (fun k => blockbuf (byteOffset + k)) bytes)
    else (r, buf)

def readDirect (fs : Ext2Fs) (left : Mem) (blocks : ℕ → ℕ) (nblocks offset : ℕ) (buf : Mem)
    (pos nbytes : ℕ) : ℕ × Mem :=
  let blockOffset := offset / fs.blockSize
  directLoop fs blocks pos nbytes (nblocks - blockOffset) blockOffset 0 (offset % fs.blockSize)
    left buf

def readSingle (fs : Ext2Fs) (left : Mem × Mem) (pointerBlock offset : ℕ) (buf : Mem)
    (pos nbytes : ℕ) : ℕ × Mem :=
  let idbuf := (readBlock fs left.1 pointerBlock).1
  readDirect fs left.2 (fun i => load32 idbuf (4 * i)) fs.idblocksCount offset buf pos nbytes

/-- `fuel` pointer blocks from `i` on. -/
def doubleLoop (fs : Ext2Fs) (lefts : ℕ → Mem × Mem) (idbuf : Mem) (idx : ℕ) :
    (fuel i offset pos nbytes r : ℕ) → (buf : Mem) → ℕ × Mem
  | 0, _, _, _, _, r, buf => (r, buf)
  | fuel + 1, i, offset, pos, nbytes, r, buf =>
    if nbytes > 0 then
      if load32 idbuf (4 * idx) = 0 then (r, buf)
      else
        let (dr, buf) := readSingle fs (lefts i) (load32 idbuf (4 * i)) offset buf pos nbytes
        doubleLoop fs lefts idbuf idx fuel (i + 1) 0 (pos + dr) (sub32 nbytes dr) (u32 (r + dr)) buf
    else (r, buf)

def readDouble (fs : Ext2Fs) (left : Mem) (lefts : ℕ → Mem × Mem) (pointerBlock offset : ℕ)
    (buf : Mem) (pos nbytes : ℕ) : ℕ × Mem :=
  let idbuf := (readBlock fs left pointerBlock).1
  let blockOffset := offset / fs.blockSize
  let idx := blockOffset / fs.idblocksCount
  let offset := sub32 offset (u32 (idx * fs.idblocksCount * fs.blockSize))
  doubleLoop fs lefts idbuf idx (fs.idblocksCount - idx) idx offset pos nbytes 0 buf

/-- The double range of an inode. -/
def inodeDouble (fs : Ext2Fs) (left : Leftovers) (inode : Ext2Inode) (blockOffset offset : ℕ)
    (buf : Mem) (pos nbytes r : ℕ) : ℕ × Mem :=
  let n := fs.idblocksCount
  if blockOffset < u32 (EXT2_INODE_DBLOCKS_COUNT + n + n * n) ∧ inode.doubleIdblockPtr ≠ 0 then
    let (dr, buf) :=
      readDouble fs left.double left.rounds inode.doubleIdblockPtr offset buf pos nbytes
    (u32 (r + dr), buf)
  else (r, buf)

/-- Its single range, and what follows. -/
def inodeSingle (fs : Ext2Fs) (left : Leftovers) (inode : Ext2Inode) (blockOffset offset : ℕ)
    (buf : Mem) (pos nbytes r : ℕ) : ℕ × Mem :=
  let n := fs.idblocksCount
  if blockOffset < u32 (EXT2_INODE_DBLOCKS_COUNT + n) ∧ inode.singleIdblockPtr ≠ 0 then
    let (dr, buf) := readSingle fs left.single inode.singleIdblockPtr offset buf pos nbytes
    let r := u32 (r + dr)
    if r = nbytes then (r, buf)
    else inodeDouble fs left inode blockOffset 0 buf (pos + dr) (sub32 nbytes dr) r
  else
    inodeDouble fs left inode blockOffset (sub32 offset (u32 (n * fs.blockSize))) buf pos nbytes r

def readData (fs : Ext2Fs) (inode : Ext2Inode) (offset : ℕ) (buf : Mem) (nbytes : ℕ) : ℕ × Mem :=
  let left := fs.fresh 0
  let blockOffset := offset / fs.blockSize
  if offset ≥ ext2InodeSize inode then (0, buf)
  else
    let nbytes := if u32 (offset + nbytes) > ext2InodeSize inode then
      sub32 (ext2InodeSize inode) offset else nbytes
    if blockOffset < EXT2_INODE_DBLOCKS_COUNT then
      let (r, buf) := readDirect fs left.direct inode.dblocks EXT2_INODE_DBLOCKS_COUNT offset buf 0
        nbytes
      if r = nbytes then (r, buf)
      else inodeSingle fs left inode blockOffset 0 buf r (sub32 nbytes r) r
    else
      inodeSingle fs left inode blockOffset
        (sub32 offset (u32 (EXT2_INODE_DBLOCKS_COUNT * fs.blockSize))) buf 0 nbytes 0

def readFile (fs : Ext2Fs) (inode : Ext2Inode) (buf : Mem) (n offset : ℕ) : Ext2ReadResult :=
  let (r, buf) := readData fs inode offset buf n
  ⟨r, buf, u32 (offset + r), u32 (offset + n) == ext2InodeSize inode⟩

def readEntries (fs : Ext2Fs) (inode : Ext2Inode) (dentries : ℕ → Dentry) (n : ℕ) :
    ℕ × (ℕ → Dentry) :=
  let blkbuf := blit (fs.fresh 0).dentries 0 (fun _ => 0) fs.blockSize
  let blkbuf := (readData fs inode 0 blkbuf fs.blockSize).2
  readDentriesLoop blkbuf fs.blockSize n n 0 0 0 dentries

/-- The walk from `curr`, which no test ever ends for a file. -/
def walkPath : (fs : Ext2Fs) → List (List Byte) → Ext2Inode → ℕ → (ℕ → Dentry) →
    Option (Ext2Inode × ℕ)
  | _, [], curr, icurr, _ => some (curr, icurr)
  | fs, pfrag :: rest, curr, icurr, dentryBuffer =>
    if pfrag = [] then walkPath fs rest curr icurr dentryBuffer
    else
      let (n, dentryBuffer) := readEntries fs curr dentryBuffer 1024
      match (List.range n).find? fun j => cstring pfrag == cstring (dentryBuffer j).name with
      | some j => walkPath fs.next rest (ext2GetInode fs (dentryBuffer j).inode)
          (dentryBuffer j).inode dentryBuffer
      | none => none

def iterRecord (fs : Ext2Fs) (file : Ext2Inode) (raw name : Mem) (dst : Dentry)
    (maxNameLen offset : ℕ) : ℕ × Dentry × ℕ :=
  let dst := { dst with offset := offset }
  let h := readFile fs file raw 8 offset
  if h.r < 8 then (0, dst, offset)
  else
    let len := min (sub32 maxNameLen 1) (rawNameLength h.buf 0)
    let nm := readFile fs.next file name len h.offset
    (u32 (h.r + nm.r),
      { dst with
        name := bytesAt nm.buf 0 nm.r
        inode := rawInode h.buf 0
        type := rawType h.buf 0 },
      u32 (offset + rawSize h.buf 0))

def iterRecordName (fs : Ext2Fs) (file : Ext2Inode) (raw name : Mem) (maxNameLen offset : ℕ) : Mem :=
  let h := readFile fs file raw 8 offset
  if h.r < 8 then name
  else
    let len := min (sub32 maxNameLen 1) (rawNameLength h.buf 0)
    let nm := readFile fs.next file name len h.offset
    Function.update nm.buf nm.r 0

end DepthOS
