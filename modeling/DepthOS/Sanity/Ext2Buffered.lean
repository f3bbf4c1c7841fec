import DepthOS.Sanity.Ext2

/-! With a block buffer the functions of `fs/ext2.c` are the total ones; without it a read
faults, or transfers nothing. -/

namespace DepthOS

open Lib

section Kmalloc

variable {fs : Ext2Fs} {left : Mem}

theorem kmallocBlock_some (h : fs.Buffered) : fs.kmallocBlock left = some left :=
  if_neg (Nat.not_lt.2 h)

theorem kmallocBlock_none (h : ¬ fs.Buffered) : fs.kmallocBlock left = none :=
  if_pos (Nat.lt_of_not_le h)

/-- Which is the NULL of the heap. -/
theorem kmalloc_block_null (h : ¬ fs.Buffered) (heap : Kheap) :
    (kmallocInt heap fs.blockSize).1 = 0 := by
  have hlt : fs.blockSize > HEAP_LGSLAB_PAGES * PAGE_SIZE := Nat.lt_of_not_le h
  unfold kmallocInt
  rw [if_pos (Or.inr (by exact_mod_cast hlt))]

end Kmalloc

section Buffered

variable {fs : Ext2Fs}

theorem ext2ReadBlock_some (buf : Mem) (block : ℕ) :
    ext2ReadBlock fs (some buf) block =
      some (some (readBlock fs buf block).1, (readBlock fs buf block).2) := rfl

theorem syncDirectLoop_some (blocks : ℕ → ℕ) (pos nbytes : ℕ) :
    ∀ (fuel i r byteOffset : ℕ) (blockbuf buf : Mem),
      syncDirectLoop fs (fun i => some (blocks i)) pos nbytes false fuel i r byteOffset
        (some blockbuf) buf = some (directLoop fs blocks pos nbytes fuel i r byteOffset blockbuf buf)
    := by
  intro fuel
  induction fuel with
  | zero => exact fun _ _ _ _ _ => rfl
  | succ fuel ih =>
    intro i r byteOffset blockbuf buf
    rw [syncDirectLoop, directLoop]
    by_cases hr : r ≤ nbytes
    · rw [if_pos hr, if_pos hr, Option.bind_some]
      simp only [Bool.false_eq_true, if_false, ext2ReadBlock_some, Option.bind_some, copyBlock, ih]
      split_ifs <;> rfl
    · rw [if_neg hr, if_neg hr]

variable (h : fs.Buffered)

include h

theorem ext2SyncDirectBlocks_some (left : Mem) (blocks : ℕ → ℕ) (nblocks offset : ℕ) (buf : Mem)
    (pos nbytes : ℕ) :
    ext2SyncDirectBlocks fs left (fun i => some (blocks i)) nblocks offset buf pos nbytes false =
      some (readDirect fs left blocks nblocks offset buf pos nbytes) := by
  unfold ext2SyncDirectBlocks readDirect
  dsimp only
  rw [kmallocBlock_some h, syncDirectLoop_some]

theorem ext2SyncIndirectBlocks_some (left : Mem × Mem) (pointerBlock offset : ℕ) (buf : Mem)
    (pos nbytes : ℕ) :
    ext2SyncIndirectBlocks fs left pointerBlock offset buf pos nbytes false =
      some (readSingle fs left pointerBlock offset buf pos nbytes) := by
  unfold ext2SyncIndirectBlocks readSingle
  rw [kmallocBlock_some h, ext2ReadBlock_some, Option.bind_some]
  exact ext2SyncDirectBlocks_some h _ _ _ _ _ _ _

theorem syncDoublyLoop_some (lefts : ℕ → Mem × Mem) (idbuf : Mem) (idx : ℕ) :
    ∀ (fuel i offset pos nbytes r : ℕ) (buf : Mem),
      syncDoublyLoop fs lefts (some idbuf) idx false fuel i offset pos nbytes r buf =
        some (doubleLoop fs lefts idbuf idx fuel i offset pos nbytes r buf) := by
  intro fuel
  induction fuel with
  | zero => exact fun _ _ _ _ _ _ => rfl
  | succ fuel ih =>
    intro i offset pos nbytes r buf
    rw [syncDoublyLoop, doubleLoop]
    have hword : ∀ i, idbufAt (some idbuf) i = some (load32 idbuf (4 * i)) := fun _ => rfl
    simp only [hword, Option.bind_some, ext2SyncIndirectBlocks_some h, ih]
    split_ifs <;> rfl

theorem ext2SyncDoublyIndirectBlocks_some (left : Mem) (lefts : ℕ → Mem × Mem)
    (pointerBlock offset : ℕ) (buf : Mem) (pos nbytes : ℕ) :
    ext2SyncDoublyIndirectBlocks fs left lefts pointerBlock offset buf pos nbytes false =
      some (readDouble fs left lefts pointerBlock offset buf pos nbytes) := by
  unfold ext2SyncDoublyIndirectBlocks readDouble
  rw [kmallocBlock_some h, ext2ReadBlock_some, Option.bind_some]
  exact syncDoublyLoop_some h _ _ _ _ _ _ _ _ _ _

theorem syncInodeDoubly_some (left : Leftovers) (inode : Ext2Inode) (blockOffset offset : ℕ)
    (buf : Mem) (pos nbytes r : ℕ) :
    syncInodeDoubly fs left inode blockOffset offset buf pos nbytes r false =
      some (inodeDouble fs left inode blockOffset offset buf pos nbytes r) := by
  unfold syncInodeDoubly inodeDouble
  simp only [ext2SyncDoublyIndirectBlocks_some h, Option.map_some]
  split_ifs <;> rfl

theorem syncInodeIndirect_some (left : Leftovers) (inode : Ext2Inode) (blockOffset offset : ℕ)
    (buf : Mem) (pos nbytes r : ℕ) :
    syncInodeIndirect fs left inode blockOffset offset buf pos nbytes r false =
      some (inodeSingle fs left inode blockOffset offset buf pos nbytes r) := by
  unfold syncInodeIndirect inodeSingle
  simp only [ext2SyncIndirectBlocks_some h, Option.bind_some, syncInodeDoubly_some h]
  split_ifs <;> rfl

theorem ext2SyncInodeData_some (inode : Ext2Inode) (offset : ℕ) (buf : Mem) (nbytes : ℕ) :
    ext2SyncInodeData fs inode offset buf nbytes false = some (readData fs inode offset buf nbytes)
    := by
  unfold ext2SyncInodeData readData
  simp only [ext2SyncDirectBlocks_some h, Option.bind_some, syncInodeIndirect_some h, true_and]
  split_ifs <;> rfl

theorem ext2Read_some (inode : Ext2Inode) (buf : Mem) (n offset : ℕ) :
    ext2Read fs inode buf n offset = some (readFile fs inode buf n offset) := by
  unfold ext2Read readFile
  rw [ext2SyncInodeData_some h]
  rfl

theorem ext2ReadDentries_some (inode : Ext2Inode) (dentries : ℕ → Dentry) (n : ℕ) :
    ext2ReadDentries fs inode dentries n = some (readEntries fs inode dentries n) := by
  unfold ext2ReadDentries readEntries
  rw [kmallocBlock_some h, Option.bind_some]
  dsimp only
  rw [ext2SyncInodeData_some h]
  rfl

theorem ext2Iter_some (file : Ext2Inode) (raw name : Mem) (dst : Dentry) (maxNameLen offset : ℕ) :
    ext2Iter fs file raw name dst maxNameLen offset =
      some (iterRecord fs file raw name dst maxNameLen offset) := by
  have hnext : fs.next.Buffered := h
  unfold ext2Iter iterRecord
  simp only [ext2Read_some h, ext2Read_some hnext, Option.bind_some, Option.map_some]
  by_cases h0 : (readFile fs file raw 8 offset).r = 0
  · rw [if_pos h0, if_pos (by omega)]
  · rw [if_neg h0]
    split_ifs <;> rfl

theorem ext2IterName_some (file : Ext2Inode) (raw name : Mem) (maxNameLen offset : ℕ) :
    ext2IterName fs file raw name maxNameLen offset =
      some (iterRecordName fs file raw name maxNameLen offset) := by
  have hnext : fs.next.Buffered := h
  unfold ext2IterName iterRecordName
  simp only [ext2Read_some h, ext2Read_some hnext, Option.bind_some, Option.map_some]
  split_ifs <;> rfl

end Buffered

/-- The test of the walk never holds. -/
theorem mask_never (inode : Ext2Inode) :
    ¬ inode.typePermissions &&& (EXT2_INODE_T_DIR == 0).toNat ≠ 0 :=
  not_not.2 (Nat.and_zero _)

theorem ext2Walk_some (pfrags : List (List Byte)) {fs : Ext2Fs} (h : fs.Buffered)
    (curr : Ext2Inode) (icurr : ℕ) (ds : ℕ → Dentry) :
    ext2Walk fs pfrags curr icurr ds = some (walkPath fs pfrags curr icurr ds) := by
  induction pfrags generalizing fs curr icurr ds with
  | nil => rfl
  | cons pfrag rest ih =>
    have hnext : fs.next.Buffered := h
    rw [ext2Walk, walkPath, if_neg (mask_never curr)]
    split_ifs
    · exact ih h _ _ _
    · rw [ext2ReadDentries_some h, Option.bind_some]
      dsimp only
      cases (List.range (readEntries fs curr ds 1024).1).find? fun j =>
          cstring pfrag == cstring ((readEntries fs curr ds 1024).2 j).name with
      | some j => exact ih hnext _ _ _
      | none => rfl

/-! Without one. -/

section Null

variable {fs : Ext2Fs} {buf : Mem} {pos nbytes offset : ℕ} {res : ℕ × Mem}

theorem ext2ReadBlock_none {block : ℕ} {x : Option Mem × Bool}
    (h : ext2ReadBlock fs none block = some x) : x.1 = none := by
  unfold ext2ReadBlock Device.readTo at h
  dsimp only at h
  split_ifs at h
  · rw [← Option.some.inj h]
  · cases h

theorem syncDirectLoop_none {blocks : ℕ → Option ℕ} (hn : nbytes < 4294967296) :
    ∀ (fuel i byteOffset : ℕ), byteOffset < fs.blockSize →
      syncDirectLoop fs blocks pos nbytes false fuel i 0 byteOffset none buf = some res →
        res = (0, buf) := by
  have hle := fs.blockSize_le
  intro fuel
  induction fuel with
  | zero => exact fun _ _ _ h => (Option.some.inj h).symm
  | succ fuel ih =>
    intro i byteOffset hbo h
    rw [syncDirectLoop, if_pos (Nat.zero_le _)] at h
    obtain ⟨block, -, h⟩ := Option.bind_eq_some_iff.1 h
    by_cases h0 : block = 0
    · rw [if_pos h0] at h
      exact ih _ _ hbo h
    · rw [if_neg h0, if_neg Bool.false_ne_true] at h
      obtain ⟨x, hx, h⟩ := Option.bind_eq_some_iff.1 h
      rw [ext2ReadBlock_none hx, sub32_small (Nat.zero_le _) hn, sub32_small hbo.le (by omega)] at h
      -- only a copy of nothing comes through
      rcases Nat.eq_zero_or_pos nbytes with rfl | hpos
      · rw [Nat.sub_zero, Nat.zero_min] at h
        exact ih _ _ fs.blockSize_pos h
      · have hcopy : copyBlock buf (pos + 0) none byteOffset
            (min (nbytes - 0) (fs.blockSize - byteOffset)) = none := if_neg (by omega)
        rw [hcopy] at h
        cases h

variable (h : ¬ fs.Buffered)

include h

theorem ext2SyncDirectBlocks_none {left : Mem} {blocks : ℕ → Option ℕ} {nblocks : ℕ}
    (hn : nbytes < 4294967296)
    (hres : ext2SyncDirectBlocks fs left blocks nblocks offset buf pos nbytes false = some res) :
    res = (0, buf) := by
  unfold ext2SyncDirectBlocks at hres
  rw [kmallocBlock_none h] at hres
  exact syncDirectLoop_none hn _ _ _ (Nat.mod_lt _ fs.blockSize_pos) hres

theorem ext2SyncIndirectBlocks_none {left : Mem × Mem} {pointerBlock : ℕ}
    (hn : nbytes < 4294967296)
    (hres : ext2SyncIndirectBlocks fs left pointerBlock offset buf pos nbytes false = some res) :
    res = (0, buf) := by
  unfold ext2SyncIndirectBlocks at hres
  obtain ⟨x, -, hres⟩ := Option.bind_eq_some_iff.1 hres
  exact ext2SyncDirectBlocks_none h hn hres

theorem ext2SyncDoublyIndirectBlocks_none {left : Mem} {lefts : ℕ → Mem × Mem} {pointerBlock : ℕ}
    (hres : ext2SyncDoublyIndirectBlocks fs left lefts pointerBlock offset buf pos nbytes false =
      some res) : res = (0, buf) := by
  unfold ext2SyncDoublyIndirectBlocks at hres
  obtain ⟨x, hx, hres⟩ := Option.bind_eq_some_iff.1 hres
  rw [kmallocBlock_none h] at hx
  dsimp only at hres
  rw [ext2ReadBlock_none hx] at hres
  generalize fs.idblocksCount - _ = fuel at hres
  cases fuel with
  | zero => exact (Option.some.inj hres).symm
  | succ fuel =>
    rw [syncDoublyLoop] at hres
    split_ifs at hres
    · cases hres
    · exact (Option.some.inj hres).symm

variable {left : Leftovers} {inode : Ext2Inode} {blockOffset : ℕ}

theorem syncInodeDoubly_none
    (hres : syncInodeDoubly fs left inode blockOffset offset buf pos nbytes 0 false = some res) :
    res = (0, buf) := by
  unfold syncInodeDoubly at hres
  dsimp only at hres
  split_ifs at hres
  · obtain ⟨x, hx, rfl⟩ := Option.map_eq_some_iff.1 hres
    rw [ext2SyncDoublyIndirectBlocks_none h hx]
    rfl
  · exact (Option.some.inj hres).symm

theorem syncInodeIndirect_none (hn : nbytes < 4294967296)
    (hres : syncInodeIndirect fs left inode blockOffset offset buf pos nbytes 0 false = some res) :
    res = (0, buf) := by
  unfold syncInodeIndirect at hres
  dsimp only at hres
  by_cases hin : blockOffset < u32 (EXT2_INODE_DBLOCKS_COUNT + fs.idblocksCount) ∧
      inode.singleIdblockPtr ≠ 0
  · rw [if_pos hin] at hres
    obtain ⟨x, hx, hres⟩ := Option.bind_eq_some_iff.1 hres
    rw [ext2SyncIndirectBlocks_none h hn hx] at hres
    dsimp only at hres
    split_ifs at hres
    · exact (Option.some.inj hres).symm
    · exact syncInodeDoubly_none h hres
  · rw [if_neg hin] at hres
    exact syncInodeDoubly_none h hres

theorem ext2SyncInodeData_none {n : ℕ} (hn : n < 4294967296)
    (hres : ext2SyncInodeData fs inode offset buf n false = some res) : res = (0, buf) := by
  unfold ext2SyncInodeData at hres
  dsimp only at hres
  by_cases hend : false = false ∧ offset ≥ ext2InodeSize inode
  · rw [if_pos hend] at hres
    exact (Option.some.inj hres).symm
  rw [if_neg hend] at hres
  have hcut : (if u32 (offset + n) > ext2InodeSize inode then sub32 (ext2InodeSize inode) offset
      else n) < 4294967296 := by
    split_ifs
    · exact Nat.mod_lt _ (by norm_num)
    · exact hn
  generalize (if u32 (offset + n) > ext2InodeSize inode then sub32 (ext2InodeSize inode) offset
    else n) = want at hcut hres
  by_cases hdir : offset / fs.blockSize < EXT2_INODE_DBLOCKS_COUNT
  · rw [if_pos hdir] at hres
    obtain ⟨x, hx, hres⟩ := Option.bind_eq_some_iff.1 hres
    rw [ext2SyncDirectBlocks_none h hcut hx] at hres
    dsimp only at hres
    split_ifs at hres
    · exact (Option.some.inj hres).symm
    · exact syncInodeIndirect_none h (Nat.mod_lt _ (by norm_num)) hres
  · rw [if_neg hdir] at hres
    exact syncInodeIndirect_none h hcut hres

theorem ext2Read_none {n : ℕ} (hn : n < 4294967296) {x : Ext2ReadResult}
    (hx : ext2Read fs inode buf n offset = some x) : x.r = 0 ∧ x.buf = buf ∧ x.offset = u32 offset
    := by
  unfold ext2Read at hx
  obtain ⟨res, hres, rfl⟩ := Option.map_eq_some_iff.1 hx
  rw [ext2SyncInodeData_none h hn hres]
  exact ⟨rfl, rfl, rfl⟩

theorem ext2ReadDentries_none (dir : Ext2Inode) (dentries : ℕ → Dentry) (n : ℕ) :
    ext2ReadDentries fs dir dentries n = none := by
  unfold ext2ReadDentries
  rw [kmallocBlock_none h]
  rfl

theorem ext2Iter_none {file : Ext2Inode} {raw name : Mem} {dst : Dentry} {maxNameLen : ℕ}
    {x : ℕ × Dentry × ℕ}
    (hx : ext2Iter fs file raw name dst maxNameLen offset = some x) :
    x = (0, { dst with offset := offset }, offset) := by
  unfold ext2Iter at hx
  obtain ⟨y, hy, hx⟩ := Option.bind_eq_some_iff.1 hx
  rw [if_pos (ext2Read_none h (by norm_num) hy).1] at hx
  exact (Option.some.inj hx).symm

end Null

end DepthOS
