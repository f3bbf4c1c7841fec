import DepthOS.Spec.Heap

/-! `fs/ext2.c`: reading files through the block maps of an inode, reading a
directory, and the path walk of `ext2_open`. A buffer is a memory of its own,
addressed from its start; `pos` is how far the buffer pointer has moved. A block
buffer from `kmalloc` may be NULL, and nothing is mapped below its size: `none` is
the page fault of a call that goes through it. Logging is left out, and so are the
kernel pointers of buffers that are only freed. -/

namespace DepthOS

open Lib

structure Device where
  blockSize : ℕ
  disk : Mem
  /-- how many of the sectors asked for are transferred: first sector, count -/
  done : ℕ → ℕ → ℕ

/-- `dev->read`: the new contents of `buf` and the number of sectors read. -/
def Device.read (dev : Device) (buf : Mem) (count sector : ℕ) : Mem × ℕ :=
  let k := min count (dev.done sector count)
  (blit buf 0 (fun x => dev.disk (sector * dev.blockSize + x)) (k * dev.blockSize), k)

/-- The same into a buffer that may be NULL, which only a transfer of nothing survives. -/
def Device.readTo (dev : Device) (buf : Option Mem) (count sector : ℕ) :
    Option (Option Mem × ℕ) :=
  match buf with
  | some m => some (some (dev.read m count sector).1, (dev.read m count sector).2)
  | none => if min count (dev.done sector count) = 0 then some (none, 0) else none

structure Ext2Inode where
  typePermissions : ℕ
  sizeLo : ℕ
  dblocks : ℕ → ℕ
  singleIdblockPtr : ℕ
  doubleIdblockPtr : ℕ

/-- What the block buffers of one call of `ext2_sync_inode_data` hold when they come from
`kmalloc`: that of the direct range, the pointer block and the data block of the single range,
the first pointer block of the double range and those of each round, and the buffer of
`ext2_read_dentries`. -/
structure Leftovers where
  direct : Mem
  single : Mem × Mem
  double : Mem
  rounds : ℕ → Mem × Mem
  dentries : Mem

/-- The same everywhere. -/
def Leftovers.all (m : Mem) : Leftovers := ⟨m, (m, m), m, fun _ => (m, m), m⟩

/-- A mounted volume. `ext2_mount` takes the superblock from sector 2, so sectors
have 512 bytes, and the root inode through an assertion on the inode size. -/
structure Ext2Fs where
  dev : Device
  sector_eq : dev.blockSize = 512
  logBlockSize : ℕ
  log_le : logBlockSize ≤ 20
  inodesPerBlkGroup : ℕ
  inodeSize : ℕ
  inodeSize_eq : inodeSize = 512
  /-- `bgdt[i].inode_table_addr` -/
  inodeTableAddr : ℕ → ℕ
  /-- what the blocks from `kmalloc` hold before they are written, call by call -/
  fresh : ℕ → Leftovers

def Ext2Fs.blockSize (fs : Ext2Fs) : ℕ := 1024 <<< fs.logBlockSize

/-- The volume with other things in those blocks. -/
def Ext2Fs.refresh (fs : Ext2Fs) (fresh : ℕ → Leftovers) : Ext2Fs := { fs with fresh := fresh }

/-- What the calls after the first find. -/
def Ext2Fs.next (fs : Ext2Fs) : Ext2Fs := fs.refresh fun i => fs.fresh (i + 1)

/-- `kmalloc(block_size)`, as long as there is memory. -/
def Ext2Fs.kmallocBlock (fs : Ext2Fs) (left : Mem) : Option Mem :=
  if fs.blockSize > HEAP_LGSLAB_PAGES * PAGE_SIZE then none else some left

abbrev EXT2_INODE_DBLOCKS_COUNT : ℕ := 12

/-- `EXT2_INODE_IDBLOCKS_COUNT` and `EXT2_INODE_DIDBLOCKS_COUNT`. -/
def Ext2Fs.idblocksCount (fs : Ext2Fs) : ℕ := fs.blockSize / 4

def ext2ReadBlock (fs : Ext2Fs) (buf : Option Mem) (block : ℕ) : Option (Option Mem × Bool) :=
  let sector := u32 (block * fs.blockSize) / fs.dev.blockSize
  let nSectors := ceilDiv fs.blockSize fs.dev.blockSize
  (fs.dev.readTo buf nSectors sector).map fun r => (r.1, r.2 == nSectors)

/-- `memcpy` of `n` bytes from a block buffer. -/
def copyBlock (buf : Mem) (pos : ℕ) (blockbuf : Option Mem) (byteOffset n : ℕ) : Option Mem :=
  match blockbuf with
  | some m => some (blit buf pos (fun k => m (byteOffset + k)) n)
  | none => if n = 0 then some buf else none

/-- First sector and number of sectors that `ext2_read_block` asks for. -/
def ext2BlockRequest (fs : Ext2Fs) (block : ℕ) : ℕ × ℕ :=
  (u32 (block * fs.blockSize) / fs.dev.blockSize, ceilDiv fs.blockSize fs.dev.blockSize)

def load16 (m : Mem) (a : ℕ) : ℕ := (m a).toNat + 256 * (m (a + 1)).toNat

/-- The fields of `struct ext2_inode` at their places. -/
def parseInode (m : Mem) : Ext2Inode where
  typePermissions := load16 m 0
  sizeLo := load32 m 4
  dblocks := fun i => load32 m (40 + 4 * i)
  singleIdblockPtr := load32 m 88
  doubleIdblockPtr := load32 m 92

def ext2GetInode (fs : Ext2Fs) (inode : ℕ) : Ext2Inode :=
  let inode := sub32 inode 1
  let group := inode / fs.inodesPerBlkGroup
  let index := inode % fs.inodesPerBlkGroup
  let block := u32 (fs.inodeTableAddr group + u32 (index * fs.inodeSize) / fs.blockSize)
  let offset := u32 (index * fs.inodeSize) % fs.blockSize
  let lba := u32 (u32 (block * fs.blockSize) + offset) / fs.dev.blockSize
  parseInode (fs.dev.read (fun _ => 0) (ceilDiv fs.inodeSize fs.dev.blockSize) lba).1

def ext2InodeSize (inode : Ext2Inode) : ℕ := inode.sizeLo

/-- The loop of `ext2_sync_direct_blocks`, `fuel` blocks from `i` on. A block
number 0 is skipped; a number is read from a table that may be NULL. -/
def syncDirectLoop (fs : Ext2Fs) (blocks : ℕ → Option ℕ) (pos nbytes : ℕ) (write : Bool) :
    (fuel i r byteOffset : ℕ) → (blockbuf : Option Mem) → (buf : Mem) → Option (ℕ × Mem)
  | 0, _, r, _, _, buf => some (r, buf)
  | fuel + 1, i, r, byteOffset, blockbuf, buf =>
    if r ≤ nbytes then
      (blocks i).bind fun block =>
        if block = 0 then
          syncDirectLoop fs blocks pos nbytes write fuel (i + 1) r byteOffset blockbuf buf
        else
          let bytesToTransfer := min (sub32 nbytes r) (sub32 fs.blockSize byteOffset)
          if write then syncDirectLoop fs blocks pos nbytes write fuel (i + 1) r 0 blockbuf buf
          else
            (ext2ReadBlock fs blockbuf block).bind fun res =>
            (copyBlock buf (pos + r) res.1 byteOffset bytesToTransfer).bind fun buf =>
            syncDirectLoop fs blocks pos nbytes write fuel (i + 1) (u32 (r + bytesToTransfer)) 0
              res.1 buf
    else some (r, buf)

/-- Returns the bytes transferred and the buffer. -/
def ext2SyncDirectBlocks (fs : Ext2Fs) (left : Mem) (blocks : ℕ → Option ℕ) (nblocks offset : ℕ)
    (buf : Mem) (pos nbytes : ℕ) (write : Bool) : Option (ℕ × Mem) :=
  let blockOffset := offset / fs.blockSize
  syncDirectLoop fs blocks pos nbytes write (nblocks - blockOffset) blockOffset 0
    (offset % fs.blockSize) (fs.kmallocBlock left) buf

/-- The words of a pointer block. -/
def idbufAt (idbuf : Option Mem) (i : ℕ) : Option ℕ := idbuf.map fun m => load32 m (4 * i)

def ext2SyncIndirectBlocks (fs : Ext2Fs) (left : Mem × Mem) (pointerBlock offset : ℕ) (buf : Mem)
    (pos nbytes : ℕ) (write : Bool) : Option (ℕ × Mem) :=
  (ext2ReadBlock fs (fs.kmallocBlock left.1) pointerBlock).bind fun idbuf =>
  ext2SyncDirectBlocks fs left.2 (idbufAt idbuf.1) fs.idblocksCount offset buf pos nbytes write

/-- The loop of `ext2_sync_doubly_indirect_blocks`, `fuel` pointer blocks from `i` on.
The test for a missing pointer block looks at the first one only. -/
def syncDoublyLoop (fs : Ext2Fs) (lefts : ℕ → Mem × Mem) (idbuf : Option Mem) (idx : ℕ)
    (write : Bool) : (fuel i offset pos nbytes r : ℕ) → (buf : Mem) → Option (ℕ × Mem)
  | 0, _, _, _, _, r, buf => some (r, buf)
  | fuel + 1, i, offset, pos, nbytes, r, buf =>
    if nbytes > 0 then
      (idbufAt idbuf idx).bind fun first =>
        if first = 0 then some (r, buf)
        else
          (idbufAt idbuf i).bind fun pointerBlock =>
          (ext2SyncIndirectBlocks fs (lefts i) pointerBlock offset buf pos nbytes write).bind
            fun (dr, buf) => syncDoublyLoop fs lefts idbuf idx write fuel (i + 1) 0 (pos + dr)
              (sub32 nbytes dr) (u32 (r + dr)) buf
    else some (r, buf)

def ext2SyncDoublyIndirectBlocks (fs : Ext2Fs) (left : Mem) (lefts : ℕ → Mem × Mem)
    (pointerBlock offset : ℕ) (buf : Mem) (pos nbytes : ℕ) (write : Bool) : Option (ℕ × Mem) :=
  (ext2ReadBlock fs (fs.kmallocBlock left) pointerBlock).bind fun idbuf =>
  let blockOffset := offset / fs.blockSize
  let idx := blockOffset / fs.idblocksCount
  let offset := sub32 offset (u32 (idx * fs.idblocksCount * fs.blockSize))
  syncDoublyLoop fs lefts idbuf.1 idx write (fs.idblocksCount - idx) idx offset pos nbytes 0 buf

/-- The last range of `ext2_sync_inode_data`. -/
def syncInodeDoubly (fs : Ext2Fs) (left : Leftovers) (inode : Ext2Inode) (blockOffset offset : ℕ)
    (buf : Mem) (pos nbytes r : ℕ) (write : Bool) : Option (ℕ × Mem) :=
  let n := fs.idblocksCount
  if blockOffset < u32 (EXT2_INODE_DBLOCKS_COUNT + n + n * n) ∧ inode.doubleIdblockPtr ≠ 0 then
    (ext2SyncDoublyIndirectBlocks fs left.double left.rounds inode.doubleIdblockPtr offset buf pos
      nbytes write).map fun (dr, buf) => (u32 (r + dr), buf)
  else some (r, buf)

/-- The second range. By now `nbytes` is what is left, and yet it is `r`, all that is
done, that is compared with it. -/
def syncInodeIndirect (fs : Ext2Fs) (left : Leftovers) (inode : Ext2Inode)
    (blockOffset offset : ℕ) (buf : Mem) (pos nbytes r : ℕ) (write : Bool) : Option (ℕ × Mem) :=
  let n := fs.idblocksCount
  if blockOffset < u32 (EXT2_INODE_DBLOCKS_COUNT + n) ∧ inode.singleIdblockPtr ≠ 0 then
    (ext2SyncIndirectBlocks fs left.single inode.singleIdblockPtr offset buf pos nbytes
      write).bind fun (dr, buf) =>
    let r := u32 (r + dr)
    if r = nbytes then some (r, buf)
    else syncInodeDoubly fs left inode blockOffset 0 buf (pos + dr) (sub32 nbytes dr) r write
  else
    syncInodeDoubly fs left inode blockOffset (sub32 offset (u32 (n * fs.blockSize))) buf pos
      nbytes r write

def ext2SyncInodeData (fs : Ext2Fs) (inode : Ext2Inode) (offset : ℕ) (buf : Mem) (nbytes : ℕ)
    (write : Bool) : Option (ℕ × Mem) :=
  let left := fs.fresh 0
  let blockOffset := offset / fs.blockSize
  if write = false ∧ offset ≥ ext2InodeSize inode then some (0, buf)
  else
    let nbytes := if u32 (offset + nbytes) > ext2InodeSize inode then
      sub32 (ext2InodeSize inode) offset else nbytes
    if blockOffset < EXT2_INODE_DBLOCKS_COUNT then
      (ext2SyncDirectBlocks fs left.direct (fun i => some (inode.dblocks i))
        EXT2_INODE_DBLOCKS_COUNT offset buf 0 nbytes write).bind fun (r, buf) =>
      if r = nbytes then some (r, buf)
      else syncInodeIndirect fs left inode blockOffset 0 buf r (sub32 nbytes r) r write
    else
      syncInodeIndirect fs left inode blockOffset
        (sub32 offset (u32 (EXT2_INODE_DBLOCKS_COUNT * fs.blockSize))) buf 0 nbytes 0 write

structure Ext2ReadResult where
  r : ℕ
  buf : Mem
  offset : ℕ
  /-- the call sets `file->eof` -/
  eof : Bool

def ext2Read (fs : Ext2Fs) (cached : Ext2Inode) (buf : Mem) (n offset : ℕ) :
    Option Ext2ReadResult :=
  (ext2SyncInodeData fs cached offset buf n false).map fun (r, buf) =>
    ⟨r, buf, u32 (offset + r), u32 (offset + n) == ext2InodeSize cached⟩

def Device.ReadsSucceed (dev : Device) : Prop := ∀ sector count, dev.done sector count = count

/-- Word `i` of block `b`. -/
def Ext2Fs.pointer (fs : Ext2Fs) (b i : ℕ) : ℕ :=
  load32 (fun k => fs.dev.disk (b * fs.blockSize + k)) (4 * i)

/-- The number of the block that holds block `i` of the file, through the direct, the
single and the double indirect map. -/
def ext2BlockMap (fs : Ext2Fs) (inode : Ext2Inode) (i : ℕ) : ℕ :=
  let n := fs.idblocksCount
  if i < 12 then inode.dblocks i
  else if i < 12 + n then fs.pointer inode.singleIdblockPtr (i - 12)
  else fs.pointer (fs.pointer inode.doubleIdblockPtr ((i - 12 - n) / n)) ((i - 12 - n) % n)

/-- The numbers on the way to block `i` of a file: the pointer blocks and then the block. The
triple indirect pointer is on disk, but `fs/ext2.c` does not use it. -/
def blockPath (fs : Ext2Fs) (inode : Ext2Inode) (triple i : ℕ) : List ℕ :=
  let n := fs.idblocksCount
  if i < 12 then [inode.dblocks i]
  else if i < 12 + n then [inode.singleIdblockPtr, fs.pointer inode.singleIdblockPtr (i - 12)]
  else if i < 12 + n + n * n then
    let table := fs.pointer inode.doubleIdblockPtr ((i - 12 - n) / n)
    [inode.doubleIdblockPtr, table, fs.pointer table ((i - 12 - n) % n)]
  else
    let k := i - 12 - n - n * n
    let double := fs.pointer triple (k / (n * n))
    let table := fs.pointer double (k / n % n)
    [triple, double, table, fs.pointer table (k % n)]

/-- Byte `x` of a file whose blocks are `blocks`. -/
def mapByte (fs : Ext2Fs) (blocks : ℕ → ℕ) (x : ℕ) : Byte :=
  fs.dev.disk (blocks (x / fs.blockSize) * fs.blockSize + x % fs.blockSize)

def fileByte (fs : Ext2Fs) (inode : Ext2Inode) (x : ℕ) : Byte :=
  mapByte fs (ext2BlockMap fs inode) x

/-- Allocated, and at a byte address of 32 bits. -/
def BlockOk (fs : Ext2Fs) (b : ℕ) : Prop := b ≠ 0 ∧ b * fs.blockSize < 4294967296

/-- The device delivers all sectors of block `b`. -/
def BlockRead (fs : Ext2Fs) (b : ℕ) : Prop :=
  (ext2BlockRequest fs b).2 ≤ fs.dev.done (ext2BlockRequest fs b).1 (ext2BlockRequest fs b).2

instance (fs : Ext2Fs) (b : ℕ) : Decidable (BlockRead fs b) := inferInstanceAs (Decidable (_ ≤ _))

/-- The size fits the maps, and every block the file needs is allocated, with the
pointer blocks on the way to it. -/
structure Ext2Allocated (fs : Ext2Fs) (inode : Ext2Inode) : Prop where
  size_lt : inode.sizeLo < 2147483648
  size_le : inode.sizeLo ≤
    (12 + fs.idblocksCount + fs.idblocksCount * fs.idblocksCount) * fs.blockSize
  data : ∀ i, i * fs.blockSize < inode.sizeLo → BlockOk fs (ext2BlockMap fs inode i)
  single : 12 * fs.blockSize < inode.sizeLo → BlockOk fs inode.singleIdblockPtr
  double : (12 + fs.idblocksCount) * fs.blockSize < inode.sizeLo →
    BlockOk fs inode.doubleIdblockPtr
  doubles : ∀ j, (12 + fs.idblocksCount + j * fs.idblocksCount) * fs.blockSize < inode.sizeLo →
    BlockOk fs (fs.pointer inode.doubleIdblockPtr j)

/-- The same wherever the blocks lie. -/
structure Ext2Mapped (fs : Ext2Fs) (inode : Ext2Inode) : Prop where
  size_lt : inode.sizeLo < 2147483648
  size_le : inode.sizeLo ≤
    (12 + fs.idblocksCount + fs.idblocksCount * fs.idblocksCount) * fs.blockSize
  mapped : ∀ i, i * fs.blockSize < inode.sizeLo → ∀ b ∈ blockPath fs inode 0 i, b ≠ 0

end DepthOS
