import DepthOS.Spec.Ext2Buffered

/-! What `fs/ext2.c` does on the way to its results: the sectors it asks the device for, the
blocks that a read with a block buffer copies its bytes from, and the directories that a path
walk searches. -/

namespace DepthOS

open Lib

theorem readBlock_request (fs : Ext2Fs) (buf : Mem) (block : ℕ) :
    readBlock fs buf block =
      let req := ext2BlockRequest fs block
      let r := fs.dev.read buf req.2 req.1
      (r.1, r.2 == req.2) := rfl

/-- The request of `ext2_get_inode`. -/
def ext2InodeRequest (fs : Ext2Fs) (inode : ℕ) : ℕ × ℕ :=
  let inode := sub32 inode 1
  let group := inode / fs.inodesPerBlkGroup
  let index := inode % fs.inodesPerBlkGroup
  let block := u32 (fs.inodeTableAddr group + u32 (index * fs.inodeSize) / fs.blockSize)
  let offset := u32 (index * fs.inodeSize) % fs.blockSize
  (u32 (u32 (block * fs.blockSize) + offset) / fs.dev.blockSize,
    ceilDiv fs.inodeSize fs.dev.blockSize)

theorem ext2GetInode_request (fs : Ext2Fs) (inode : ℕ) :
    ext2GetInode fs inode =
      let req := ext2InodeRequest fs inode
      parseInode (fs.dev.read (fun _ => 0) req.2 req.1).1 := rfl

/-- A `memcpy` of `ext2_sync_direct_blocks`: the block that was read for it and the pointer
blocks on the way there, what `ext2_read_block` returned and left in `blockbuf`. -/
structure Transfer where
  via : List ℕ
  block : ℕ
  ok : Bool
  blockbuf : Mem
  byteOffset : ℕ
  bytesToTransfer : ℕ

def transferred (ts : List Transfer) : ℕ := (ts.map (·.bytesToTransfer)).sum

/-- The same loop as `directLoop`. -/
def directTransfersLoop (fs : Ext2Fs) (via : List ℕ) (blocks : ℕ → ℕ) (nbytes : ℕ) :
    (fuel i r byteOffset : ℕ) → (blockbuf : Mem) → List Transfer
  | 0, _, _, _, _ => []
  | fuel + 1, i, r, byteOffset, blockbuf =>
    if r ≤ nbytes then
      if blocks i = 0 then directTransfersLoop fs via blocks nbytes fuel (i + 1) r byteOffset blockbuf
      else
        let bytesToTransfer := min (sub32 nbytes r) (sub32 fs.blockSize byteOffset)
        let res := readBlock fs blockbuf (blocks i)
        ⟨via, blocks i, res.2, res.1, byteOffset, bytesToTransfer⟩ ::
          directTransfersLoop fs via blocks nbytes fuel (i + 1) (u32 (r + bytesToTransfer)) 0 res.1
    else []

/-- The transfers of `ext2_sync_direct_blocks`, and below those of its callers. -/
def directTransfers (fs : Ext2Fs) (left : Mem) (via : List ℕ) (blocks : ℕ → ℕ)
    (nblocks offset nbytes : ℕ) : List Transfer :=
  let blockOffset := offset / fs.blockSize
  directTransfersLoop fs via blocks nbytes (nblocks - blockOffset) blockOffset 0
    (offset % fs.blockSize) left

def indirectTransfers (fs : Ext2Fs) (left : Mem × Mem) (via : List ℕ)
    (pointerBlock offset nbytes : ℕ) : List Transfer :=
  let idbuf := (readBlock fs left.1 pointerBlock).1
  directTransfers fs left.2 (via ++ [pointerBlock]) (fun i => load32 idbuf (4 * i))
    fs.idblocksCount offset nbytes

def doublyTransfersLoop (fs : Ext2Fs) (lefts : ℕ → Mem × Mem) (via : List ℕ) (idbuf : Mem)
    (idx : ℕ) : (fuel i offset nbytes : ℕ) → List Transfer
  | 0, _, _, _ => []
  | fuel + 1, i, offset, nbytes =>
    if nbytes > 0 then
      if load32 idbuf (4 * idx) = 0 then []
      else
        let ts := indirectTransfers fs (lefts i) via (load32 idbuf (4 * i)) offset nbytes
        ts ++ doublyTransfersLoop fs lefts via idbuf idx fuel (i + 1) 0
          (sub32 nbytes (transferred ts))
    else []

def doublyTransfers (fs : Ext2Fs) (left : Mem) (lefts : ℕ → Mem × Mem)
    (pointerBlock offset nbytes : ℕ) : List Transfer :=
  let idbuf := (readBlock fs left pointerBlock).1
  let blockOffset := offset / fs.blockSize
  let idx := blockOffset / fs.idblocksCount
  let offset := sub32 offset (u32 (idx * fs.idblocksCount * fs.blockSize))
  doublyTransfersLoop fs lefts [pointerBlock] idbuf idx (fs.idblocksCount - idx) idx offset nbytes

def inodeDoublyTransfers (fs : Ext2Fs) (left : Leftovers) (inode : Ext2Inode)
    (blockOffset offset nbytes : ℕ) : List Transfer :=
  let n := fs.idblocksCount
  if blockOffset < u32 (EXT2_INODE_DBLOCKS_COUNT + n + n * n) ∧ inode.doubleIdblockPtr ≠ 0 then
    doublyTransfers fs left.double left.rounds inode.doubleIdblockPtr offset nbytes
  else []

def inodeIndirectTransfers (fs : Ext2Fs) (left : Leftovers) (inode : Ext2Inode)
    (blockOffset offset nbytes r : ℕ) : List Transfer :=
  let n := fs.idblocksCount
  if blockOffset < u32 (EXT2_INODE_DBLOCKS_COUNT + n) ∧ inode.singleIdblockPtr ≠ 0 then
    let ts := indirectTransfers fs left.single [] inode.singleIdblockPtr offset nbytes
    let r := u32 (r + transferred ts)
    if r = nbytes then ts
    else ts ++ inodeDoublyTransfers fs left inode blockOffset 0 (sub32 nbytes (transferred ts))
  else
    inodeDoublyTransfers fs left inode blockOffset (sub32 offset (u32 (n * fs.blockSize))) nbytes

/-- The transfers of `ext2_read`, which are those of `ext2_sync_inode_data`. -/
def ext2Transfers (fs : Ext2Fs) (inode : Ext2Inode) (n offset : ℕ) : List Transfer :=
  let left := fs.fresh 0
  let blockOffset := offset / fs.blockSize
  if offset ≥ ext2InodeSize inode then []
  else
    let nbytes := if u32 (offset + n) > ext2InodeSize inode then
      sub32 (ext2InodeSize inode) offset else n
    if blockOffset < EXT2_INODE_DBLOCKS_COUNT then
      let ts := directTransfers fs left.direct [] inode.dblocks EXT2_INODE_DBLOCKS_COUNT offset
        nbytes
      let r := transferred ts
      if r = nbytes then ts
      else ts ++ inodeIndirectTransfers fs left inode blockOffset 0 (sub32 nbytes r) r
    else
      inodeIndirectTransfers fs left inode blockOffset
        (sub32 offset (u32 (EXT2_INODE_DBLOCKS_COUNT * fs.blockSize))) nbytes 0

/-- One round of `ext2_open` that looks for a component: the volume with what the round finds in
its buffers, where it looks, and the inode it gets. -/
structure Search where
  fs : Ext2Fs
  dir : Ext2Inode
  pfrag : List Byte
  found : Option ℕ

/-- The searches of `ext2_open`, round after round as in `ext2Walk`. -/
def ext2Searches : (fs : Ext2Fs) → List (List Byte) → Ext2Inode → (ℕ → Dentry) → List Search
  | _, [], _, _ => []
  | fs, pfrag :: rest, curr, dentryBuffer =>
    if curr.typePermissions &&& (EXT2_INODE_T_DIR == 0).toNat ≠ 0 then
      ext2Searches fs rest curr dentryBuffer
    else if pfrag = [] then ext2Searches fs rest curr dentryBuffer
    else
      match ext2ReadDentries fs curr dentryBuffer 1024 with
      | none => [⟨fs, curr, pfrag, none⟩]
      | some (n, dentryBuffer) =>
        match (List.range n).find? fun j => cstring pfrag == cstring (dentryBuffer j).name with
        | some j =>
          ⟨fs, curr, pfrag, some (dentryBuffer j).inode⟩ ::
            ext2Searches fs.next rest (ext2GetInode fs (dentryBuffer j).inode) dentryBuffer
        | none => [⟨fs, curr, pfrag, none⟩]

end DepthOS
