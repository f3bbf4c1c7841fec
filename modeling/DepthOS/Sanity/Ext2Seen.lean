import DepthOS.Proofs.Ext2Complete

/-! A read inside one block, whatever the device does: which block it takes its bytes from,
by the pointers as they are read. -/

namespace DepthOS

open Lib

section Seen

variable (fs : Ext2Fs) (inode : Ext2Inode)

/-- Pointer block `i` below `d`, as the double range finds it. -/
def seenDouble (d i : ℕ) : ℕ := readPointer fs (fs.fresh 0).double d i

/-- And block `j` below that. -/
def tablePointer (d i j : ℕ) : ℕ :=
  readPointer fs ((fs.fresh 0).rounds i).1 (seenDouble fs d i) j

/-- Block `i` of the file as the code finds it. -/
def seenBlock (i : ℕ) : ℕ :=
  let n := fs.idblocksCount
  if i < 12 then inode.dblocks i
  else if i < 12 + n then readPointer fs (fs.fresh 0).single.1 inode.singleIdblockPtr (i - 12)
  else tablePointer fs inode.doubleIdblockPtr ((i - 12 - n) / n) ((i - 12 - n) % n)

/-- What the buffer for that block holds before. -/
def seenBuffer (i : ℕ) : Mem :=
  let n := fs.idblocksCount
  if i < 12 then (fs.fresh 0).direct
  else if i < 12 + n then (fs.fresh 0).single.2
  else ((fs.fresh 0).rounds ((i - 12 - n) / n)).2

/-- Byte `x` of the file as the code finds it. -/
def seenByte : Mem := fun x =>
  (readBlock fs (seenBuffer fs (x / fs.blockSize)) (seenBlock fs inode (x / fs.blockSize))).1
    (x % fs.blockSize)

/-- Block `i` is in one of the three ranges, and no pointer that is read on the way to it
is 0. -/
structure BlockSeen (i : ℕ) : Prop where
  lt : i < 12 + fs.idblocksCount + fs.idblocksCount * fs.idblocksCount
  data : seenBlock fs inode i ≠ 0
  single : 12 ≤ i → i < 12 + fs.idblocksCount → inode.singleIdblockPtr ≠ 0
  double : 12 + fs.idblocksCount ≤ i → inode.doubleIdblockPtr ≠ 0 ∧
    seenDouble fs inode.doubleIdblockPtr ((i - 12 - fs.idblocksCount) / fs.idblocksCount) ≠ 0

variable {fs inode} {pos offset nbytes : ℕ}

theorem direct_seen (left : Mem) {blocks : ℕ → ℕ} {nblocks : ℕ}
    (hlt : offset / fs.blockSize < nblocks) (h0 : blocks (offset / fs.blockSize) ≠ 0)
    (hpos : 0 < nbytes) (hn : nbytes < 4294967296)
    (hin : offset % fs.blockSize + nbytes ≤ fs.blockSize) (buf : Mem) :
    readDirect fs left blocks nblocks offset buf pos nbytes = (nbytes,
      blit buf pos (fun k => (readBlock fs left (blocks (offset / fs.blockSize))).1
        (offset % fs.blockSize + k)) nbytes) := by
  have hle := fs.blockSize_le
  obtain ⟨fuel, hfuel⟩ : ∃ fuel, nblocks - offset / fs.blockSize = fuel + 1 :=
    ⟨nblocks - offset / fs.blockSize - 1, by omega⟩
  have hmod := Nat.mod_lt offset fs.blockSize_pos
  have hbytes : min (sub32 nbytes 0) (sub32 fs.blockSize (offset % fs.blockSize)) = nbytes := by
    rw [sub32_small (Nat.zero_le _) hn, sub32_small hmod.le (by omega)]
    omega
  unfold readDirect
  dsimp only
  rw [hfuel, directLoop, if_pos (Nat.zero_le _), if_neg h0]
  simp only [hbytes, Nat.zero_add, Nat.add_zero, u32_of_lt hn]
  exact directLoop_full _ _ _ _ _ hn

theorem indirect_seen (left : Mem × Mem) {p : ℕ} (hlt : offset / fs.blockSize < fs.idblocksCount)
    (h0 : readPointer fs left.1 p (offset / fs.blockSize) ≠ 0) (hpos : 0 < nbytes)
    (hn : nbytes < 4294967296) (hin : offset % fs.blockSize + nbytes ≤ fs.blockSize) (buf : Mem) :
    readSingle fs left p offset buf pos nbytes = (nbytes,
      blit buf pos (fun k => (readBlock fs left.2
        (readPointer fs left.1 p (offset / fs.blockSize))).1 (offset % fs.blockSize + k)) nbytes) :=
  direct_seen left.2 hlt h0 hpos hn hin buf

/-- Position `j` of row `i`. -/
theorem row_divMod {n i j : ℕ} (hj : j < n) : (i * n + j) / n = i ∧ (i * n + j) % n = j := by
  rw [Nat.mul_comm]
  constructor
  · rw [Nat.mul_add_div (by omega), Nat.div_eq_of_lt hj, Nat.add_zero]
  · rw [Nat.mul_add_mod, Nat.mod_eq_of_lt hj]

/-- Byte `bo` of block `j`. -/
theorem block_divMod (fs : Ext2Fs) (j : ℕ) {bo : ℕ} (h : bo < fs.blockSize) :
    (j * fs.blockSize + bo) / fs.blockSize = j ∧ (j * fs.blockSize + bo) % fs.blockSize = bo :=
  row_divMod h

/-- Byte `bo` of block `j` below pointer block `i`. -/
theorem table_index {i j bo : ℕ} (hj : j < fs.idblocksCount) (hbo : bo < fs.blockSize) :
    (i * fs.idblocksCount * fs.blockSize + (j * fs.blockSize + bo)) / fs.blockSize /
      fs.idblocksCount = i := by
  rw [← Nat.add_assoc, ← Nat.add_mul, (block_divMod fs _ hbo).1, (row_divMod hj).1]

theorem table_rest {i x : ℕ} (hoff : i * fs.idblocksCount * fs.blockSize + x < 4294967296) :
    sub32 (i * fs.idblocksCount * fs.blockSize + x)
      (u32 (i * fs.idblocksCount * fs.blockSize)) = x := by
  rw [u32_of_lt (by omega), sub32_small (Nat.le_add_right _ _) hoff, Nat.add_sub_cancel_left]

theorem doubly_seen {d i j bo : ℕ} (hoff : i * fs.idblocksCount * fs.blockSize +
      (j * fs.blockSize + bo) < 4294967296) (hi : i < fs.idblocksCount) (hj : j < fs.idblocksCount)
    (htable : seenDouble fs d i ≠ 0) (h0 : tablePointer fs d i j ≠ 0)
    (hpos : 0 < nbytes) (hn : nbytes < 4294967296) (hin : bo + nbytes ≤ fs.blockSize) (buf : Mem) :
    readDouble fs (fs.fresh 0).double (fs.fresh 0).rounds d (i * fs.idblocksCount * fs.blockSize +
      (j * fs.blockSize + bo)) buf pos nbytes = (nbytes, blit buf pos (fun k =>
        (readBlock fs ((fs.fresh 0).rounds i).2 (tablePointer fs d i j)).1 (bo + k)) nbytes) := by
  have hbo : bo < fs.blockSize := by omega
  obtain ⟨hdiv, hmod⟩ := block_divMod fs j hbo
  obtain ⟨fuel, hfuel⟩ : ∃ fuel, fs.idblocksCount - i = fuel + 1 :=
    ⟨fs.idblocksCount - i - 1, by omega⟩
  have hread : readSingle fs ((fs.fresh 0).rounds i) (seenDouble fs d i)
      (j * fs.blockSize + bo) buf pos nbytes = _ :=
    indirect_seen _ (by rwa [hdiv]) (by rwa [hdiv]) hpos hn (by rwa [hmod]) buf
  rw [hdiv, hmod] at hread
  have hword : load32 (readBlock fs (fs.fresh 0).double d).1 (4 * i) =
      seenDouble fs d i := rfl
  unfold readDouble
  dsimp only
  rw [table_index hj hbo, table_rest hoff, hfuel, doubleLoop, if_pos hpos, hword, if_neg htable,
    hread]
  dsimp only
  rw [sub32_small le_rfl hn, Nat.sub_self, doubleLoop_done, Nat.zero_add, u32_of_lt hn]
  rfl

variable (inode pos) in
theorem inodeDouble_seen (r : ℕ) {i j bo : ℕ}
    (hend : (12 + fs.idblocksCount) * fs.blockSize + (i * fs.idblocksCount * fs.blockSize +
      (j * fs.blockSize + bo)) < 4294967296) (hi : i < fs.idblocksCount)
    (hj : j < fs.idblocksCount) (hd : inode.doubleIdblockPtr ≠ 0)
    (htable : seenDouble fs inode.doubleIdblockPtr i ≠ 0)
    (h0 : tablePointer fs inode.doubleIdblockPtr i j ≠ 0)
    (hpos : 0 < nbytes) (hn : r + nbytes < 4294967296) (hin : bo + nbytes ≤ fs.blockSize)
    (buf : Mem) :
    inodeDouble fs (fs.fresh 0) inode (12 + fs.idblocksCount + (i * fs.idblocksCount + j))
      (i * fs.idblocksCount * fs.blockSize + (j * fs.blockSize + bo)) buf pos nbytes r =
      (r + nbytes, blit buf pos (fun k => (readBlock fs ((fs.fresh 0).rounds i).2
        (tablePointer fs inode.doubleIdblockPtr i j)).1 (bo + k)) nbytes) := by
  have hN : fs.idblocksCount < 32768 := idblocks_small (by omega)
  have hNN : fs.idblocksCount * fs.idblocksCount ≤ 32768 * 32768 := Nat.mul_le_mul hN.le hN.le
  have hrow : (i + 1) * fs.idblocksCount ≤ fs.idblocksCount * fs.idblocksCount :=
    Nat.mul_le_mul_right _ hi
  rw [Nat.succ_mul] at hrow
  unfold inodeDouble
  dsimp only
  rw [u32_of_lt (show EXT2_INODE_DBLOCKS_COUNT + fs.idblocksCount +
      fs.idblocksCount * fs.idblocksCount < 4294967296 by unfold EXT2_INODE_DBLOCKS_COUNT; omega),
    if_pos ⟨by unfold EXT2_INODE_DBLOCKS_COUNT; omega, hd⟩,
    doubly_seen (by omega) hi hj htable h0 hpos (by omega) hin]
  dsimp only
  rw [u32_of_lt hn]

theorem seenBlock_single {i : ℕ} (hi : i < fs.idblocksCount) :
    seenBlock fs inode (12 + i) = readPointer fs (fs.fresh 0).single.1 inode.singleIdblockPtr i ∧
      seenBuffer fs (12 + i) = (fs.fresh 0).single.2 := by
  unfold seenBlock seenBuffer
  dsimp only
  rw [if_neg (by omega), if_pos (by omega), if_neg (by omega), if_pos (by omega),
    Nat.add_sub_cancel_left]
  exact ⟨rfl, rfl⟩

theorem seenBlock_double (c : ℕ) : seenBlock fs inode (12 + (fs.idblocksCount + c)) =
      tablePointer fs inode.doubleIdblockPtr (c / fs.idblocksCount) (c % fs.idblocksCount) ∧
    seenBuffer fs (12 + (fs.idblocksCount + c)) =
      ((fs.fresh 0).rounds (c / fs.idblocksCount)).2 := by
  unfold seenBlock seenBuffer
  dsimp only
  rw [if_neg (by omega), if_neg (by omega), if_neg (by omega), if_neg (by omega),
    Nat.add_sub_cancel_left, Nat.add_sub_cancel_left]
  exact ⟨rfl, rfl⟩

/-- The two indirect ranges, for block `b` behind the direct one. -/
theorem inodeSingle_seen {b bo : ℕ} (hend : 12 * fs.blockSize + (b * fs.blockSize + bo) <
      4294967296) (hseen : BlockSeen fs inode (12 + b)) (hpos : 0 < nbytes)
    (hin : bo + nbytes ≤ fs.blockSize) (buf : Mem) :
    inodeSingle fs (fs.fresh 0) inode (12 + b) (b * fs.blockSize + bo) buf 0 nbytes 0 = (nbytes,
      blit buf 0 (fun k => (readBlock fs (seenBuffer fs (12 + b))
        (seenBlock fs inode (12 + b))).1 (bo + k)) nbytes) := by
  have hle := fs.blockSize_le
  have h4 := fs.four_idblocks
  have hbo : bo < fs.blockSize := by omega
  have hdata := hseen.data
  unfold inodeSingle
  dsimp only
  rw [u32_of_lt (show EXT2_INODE_DBLOCKS_COUNT + fs.idblocksCount < 4294967296 by
    unfold EXT2_INODE_DBLOCKS_COUNT; omega)]
  unfold EXT2_INODE_DBLOCKS_COUNT
  by_cases hsingle : b < fs.idblocksCount
  · obtain ⟨hdiv, hmod⟩ := block_divMod fs b hbo
    obtain ⟨hblock, hbuf⟩ : seenBlock fs inode (12 + b) = _ ∧ seenBuffer fs (12 + b) = _ :=
      seenBlock_single hsingle
    rw [hblock] at hdata
    rw [hblock, hbuf, if_pos ⟨by omega, hseen.single (by omega) (by omega)⟩,
      indirect_seen _ (by rwa [hdiv]) (by rwa [hdiv]) hpos (by omega) (by rwa [hmod]), hdiv, hmod]
    dsimp only
    rw [Nat.zero_add, u32_of_lt (by omega), if_pos rfl]
  · obtain ⟨c, rfl⟩ := Nat.exists_eq_add_of_le (Nat.le_of_not_lt hsingle)
    have hlt := hseen.lt
    have hi : c / fs.idblocksCount < fs.idblocksCount := Nat.div_lt_of_lt_mul (by omega)
    have hj := Nat.mod_lt c fs.idblocks_pos
    obtain ⟨hd, htable⟩ := hseen.double (by omega)
    rw [Nat.add_sub_cancel_left, Nat.add_sub_cancel_left] at htable
    obtain ⟨hblock, hbuf⟩ : seenBlock fs inode (12 + (fs.idblocksCount + c)) = _ ∧
        seenBuffer fs (12 + (fs.idblocksCount + c)) = _ := seenBlock_double c
    -- where the byte is below its pointer block
    have hcdm := Nat.div_add_mod' c fs.idblocksCount
    have hsplit : c * fs.blockSize + bo = c / fs.idblocksCount * fs.idblocksCount * fs.blockSize +
        (c % fs.idblocksCount * fs.blockSize + bo) := by
      rw [← Nat.add_assoc, ← Nat.add_mul, hcdm]
    have hsub : sub32 ((fs.idblocksCount + c) * fs.blockSize + bo)
        (u32 (fs.idblocksCount * fs.blockSize)) = c * fs.blockSize + bo := by
      rw [Nat.add_mul] at hend ⊢
      rw [u32_of_lt (by omega), sub32_small (by omega) (by omega)]
      omega
    have hread := inodeDouble_seen inode 0 0 (by
      rw [← hsplit, Nat.add_mul]
      rw [Nat.add_mul] at hend
      omega) hi hj hd htable (by rwa [hblock] at hdata) hpos (by omega) hin buf
    rw [hcdm, ← hsplit, Nat.zero_add, Nat.add_assoc] at hread
    rw [if_neg (by omega), hsub, hread, hblock, hbuf]

theorem readData_seen {n : ℕ} (hS : inode.sizeLo < 4294967296)
    (hoff : offset < inode.sizeLo) (hn : offset + n < 4294967296) (hpos : 0 < n)
    (hin : offset % fs.blockSize + min n (inode.sizeLo - offset) ≤ fs.blockSize)
    (hseen : BlockSeen fs inode (offset / fs.blockSize)) (buf : Mem) :
    readData fs inode offset buf n = (min n (inode.sizeLo - offset),
      blit buf 0 (fun k => seenByte fs inode (offset + k)) (min n (inode.sizeLo - offset))) := by
  have hcut := clamp_eq hoff (show inode.sizeLo < 4294967296 by omega) hn
  have hnot : ¬ offset ≥ inode.sizeLo := by omega
  have hdm := Nat.div_add_mod' offset fs.blockSize
  have hmod := Nat.mod_lt offset fs.blockSize_pos
  have hwpos : 0 < min n (inode.sizeLo - offset) := by omega
  have hwlt : min n (inode.sizeLo - offset) < 4294967296 := by omega
  generalize min n (inode.sizeLo - offset) = want at *
  -- the bytes come from one block
  have hbytes : ∀ k < want, seenByte fs inode (offset + k) =
      (readBlock fs (seenBuffer fs (offset / fs.blockSize))
        (seenBlock fs inode (offset / fs.blockSize))).1 (offset % fs.blockSize + k) := by
    intro k hk
    obtain ⟨h1, h2⟩ := block_divMod fs (offset / fs.blockSize)
      (show offset % fs.blockSize + k < fs.blockSize by omega)
    rw [← Nat.add_assoc, hdm] at h1 h2
    rw [seenByte, h1, h2]
  rw [blit_congr hbytes]
  have hdata := hseen.data
  unfold readData
  dsimp only
  unfold ext2InodeSize
  rw [if_neg hnot, hcut]
  by_cases hdir : offset / fs.blockSize < EXT2_INODE_DBLOCKS_COUNT
  · have hblock : seenBlock fs inode (offset / fs.blockSize) =
        inode.dblocks (offset / fs.blockSize) := if_pos hdir
    have hbuf : seenBuffer fs (offset / fs.blockSize) = (fs.fresh 0).direct := if_pos hdir
    rw [hblock] at hdata ⊢
    rw [if_pos hdir, hbuf, direct_seen _ hdir hdata hwpos hwlt hin]
    dsimp only
    rw [if_pos rfl]
  · obtain ⟨b, hb⟩ := Nat.exists_eq_add_of_le (Nat.le_of_not_lt hdir)
    rw [if_neg hdir]
    unfold EXT2_INODE_DBLOCKS_COUNT at hb ⊢
    rw [hb] at hdm hseen ⊢
    rw [Nat.add_mul] at hdm
    have hsub : sub32 offset (u32 (12 * fs.blockSize)) =
        b * fs.blockSize + offset % fs.blockSize := by
      rw [u32_of_lt (by omega), sub32_small (by omega) (by omega)]
      omega
    rw [hsub]
    exact inodeSingle_seen (by omega) hseen hwpos hin buf

theorem readFile_seen {n : ℕ} (hS : inode.sizeLo < 4294967296) (hoff : offset < inode.sizeLo)
    (hn : offset + n < 4294967296)
    (hin : offset % fs.blockSize + min n (inode.sizeLo - offset) ≤ fs.blockSize)
    (hseen : BlockSeen fs inode (offset / fs.blockSize)) (buf : Mem) :
    (readFile fs inode buf n offset).r = min n (inode.sizeLo - offset) ∧
    (∀ k < min n (inode.sizeLo - offset),
      (readFile fs inode buf n offset).buf k = seenByte fs inode (offset + k)) ∧
    (readFile fs inode buf n offset).offset = offset + min n (inode.sizeLo - offset) := by
  rcases Nat.eq_zero_or_pos n with rfl | hpos
  · have hr : (readFile fs inode buf 0 offset).r = 0 :=
      Nat.le_zero.1 (readFile_le buf (by norm_num))
    have hnext : (readFile fs inode buf 0 offset).offset =
        u32 (offset + (readFile fs inode buf 0 offset).r) := rfl
    rw [hnext, hr, Nat.zero_min]
    exact ⟨rfl, fun k hk => absurd hk (Nat.not_lt_zero k), u32_of_lt (by omega)⟩
  · unfold readFile
    rw [readData_seen hS hoff hn hpos hin hseen]
    dsimp only
    exact ⟨rfl, fun k hk => blit_front hk, u32_of_lt (by omega)⟩

end Seen

/-! What the maps hold at least, from the blocks that are seen. -/

section Supply

variable {fs : Ext2Fs} {inode : Ext2Inode} {blocks : ℕ → ℕ} {nblocks i bo offset : ℕ}

theorem blocksSupply_at (hbo : bo < fs.blockSize) :
    blocksSupply fs blocks nblocks (i * fs.blockSize + bo) =
      (List.range' i (nblocks - i)).countP (fun i => blocks i ≠ 0) * fs.blockSize - bo := by
  rw [blocksSupply, (block_divMod fs i hbo).1, (block_divMod fs i hbo).2]

theorem blocksSupply_one (hbo : bo < fs.blockSize) (hi : i < nblocks) (h0 : blocks i ≠ 0) :
    fs.blockSize - bo ≤ blocksSupply fs blocks nblocks (i * fs.blockSize + bo) := by
  obtain ⟨m, hm⟩ : ∃ m, nblocks - i = m + 1 := ⟨nblocks - i - 1, by omega⟩
  rw [blocksSupply_at hbo, hm, List.range'_succ, List.countP_cons]
  simp only [h0, ne_eq, not_false_eq_true, decide_true, if_true]
  rw [Nat.add_mul, Nat.one_mul]
  omega

theorem blocksSupply_two (hbo : bo < fs.blockSize) (hi : i + 1 < nblocks) (h0 : blocks i ≠ 0)
    (h1 : blocks (i + 1) ≠ 0) :
    2 * fs.blockSize - bo ≤ blocksSupply fs blocks nblocks (i * fs.blockSize + bo) := by
  obtain ⟨m, hm⟩ : ∃ m, nblocks - i = m + 1 + 1 := ⟨nblocks - i - 2, by omega⟩
  rw [blocksSupply_at hbo, hm, List.range'_succ, List.range'_succ, List.countP_cons,
    List.countP_cons]
  simp only [h0, h1, ne_eq, not_false_eq_true, decide_true, if_true]
  rw [Nat.add_mul, Nat.add_mul, Nat.one_mul]
  omega

variable (fs) in
theorem blocksSupply_start (hn : 0 < nblocks) (h0 : blocks 0 ≠ 0) :
    fs.blockSize ≤ blocksSupply fs blocks nblocks 0 := by
  have h : fs.blockSize - 0 ≤ blocksSupply fs blocks nblocks (0 * fs.blockSize + 0) :=
    blocksSupply_one fs.blockSize_pos hn h0
  rwa [Nat.zero_mul, Nat.zero_add, Nat.sub_zero] at h

theorem doublySupply_seen (d offset : ℕ) :
    doublySupply fs (fs.fresh 0).double (fs.fresh 0).rounds d offset =
      let idx := offset / fs.blockSize / fs.idblocksCount
      if seenDouble fs d idx = 0 then 0
      else tablesSupply fs (fs.fresh 0).rounds (seenDouble fs d) (fs.idblocksCount - idx) idx
        (sub32 offset (u32 (idx * fs.idblocksCount * fs.blockSize))) := rfl

theorem indirectSupply_seen (d i offset : ℕ) :
    indirectSupply fs ((fs.fresh 0).rounds i).1 (seenDouble fs d i) offset =
      blocksSupply fs (tablePointer fs d i) fs.idblocksCount offset := rfl

theorem doublySupply_at {d j : ℕ} (hoff : i * fs.idblocksCount * fs.blockSize +
      (j * fs.blockSize + bo) < 4294967296) (hj : j < fs.idblocksCount) (hbo : bo < fs.blockSize)
    (htable : seenDouble fs d i ≠ 0) :
    doublySupply fs (fs.fresh 0).double (fs.fresh 0).rounds d
        (i * fs.idblocksCount * fs.blockSize + (j * fs.blockSize + bo)) =
      tablesSupply fs (fs.fresh 0).rounds (seenDouble fs d) (fs.idblocksCount - i) i
        (j * fs.blockSize + bo) := by
  rw [doublySupply_seen]
  dsimp only
  rw [table_index hj hbo, if_neg htable, table_rest hoff]

variable (fs) in
theorem doublySupply_start {d : ℕ} (htable : seenDouble fs d 0 ≠ 0)
    (h0 : tablePointer fs d 0 0 ≠ 0) :
    fs.blockSize ≤ doublySupply fs (fs.fresh 0).double (fs.fresh 0).rounds d 0 := by
  obtain ⟨fuel, hfuel⟩ : ∃ fuel, fs.idblocksCount = fuel + 1 :=
    ⟨fs.idblocksCount - 1, by have := fs.idblocks_pos; omega⟩
  have hzero : sub32 0 (u32 (0 * fs.idblocksCount * fs.blockSize)) = 0 := by simp [sub32, u32]
  have hfirst : fs.blockSize ≤ blocksSupply fs (tablePointer fs d 0)
    fs.idblocksCount 0 := blocksSupply_start fs fs.idblocks_pos h0
  rw [doublySupply_seen]
  dsimp only
  rw [Nat.zero_div, Nat.zero_div, if_neg htable, hzero, Nat.sub_zero]
  conv_rhs => rw [hfuel, tablesSupply]
  exact hfirst.trans (Nat.le_add_right _ _)

theorem doublySupply_two {d c : ℕ} (hoff : c * fs.blockSize + bo < 4294967296)
    (hbo : bo < fs.blockSize) (hc : c + 1 < fs.idblocksCount * fs.idblocksCount)
    (htable : seenDouble fs d (c / fs.idblocksCount) ≠ 0)
    (h0 : tablePointer fs d (c / fs.idblocksCount) (c % fs.idblocksCount) ≠ 0)
    (h1 : tablePointer fs d ((c + 1) / fs.idblocksCount) ((c + 1) % fs.idblocksCount) ≠ 0) :
    2 * fs.blockSize - bo ≤
      doublySupply fs (fs.fresh 0).double (fs.fresh 0).rounds d (c * fs.blockSize + bo) := by
  have hj := Nat.mod_lt c fs.idblocks_pos
  have hdm := Nat.div_add_mod' c fs.idblocksCount
  generalize c / fs.idblocksCount = i at htable h0 hdm
  generalize c % fs.idblocksCount = j at h0 hj hdm
  subst hdm
  have hi : i < fs.idblocksCount := by
    by_contra hge
    have := Nat.mul_le_mul_right fs.idblocksCount (Nat.le_of_not_lt hge)
    omega
  obtain ⟨fuel, hfuel⟩ : ∃ fuel, fs.idblocksCount - i = fuel + 1 :=
    ⟨fs.idblocksCount - i - 1, by omega⟩
  rw [Nat.add_mul, Nat.add_assoc] at hoff ⊢
  rw [doublySupply_at hoff hj hbo htable, hfuel, tablesSupply]
  rw [indirectSupply_seen]
  rcases Nat.lt_or_ge (j + 1) fs.idblocksCount with hlt | hge
  · -- both below one pointer block
    obtain ⟨hdiv, hmod⟩ := row_divMod (i := i) hlt
    rw [Nat.add_assoc, hdiv, hmod] at h1
    exact (blocksSupply_two hbo hlt h0 h1).trans (Nat.le_add_right _ _)
  · have hnext : i * fs.idblocksCount + j + 1 = (i + 1) * fs.idblocksCount + 0 := by
      rw [Nat.succ_mul]
      omega
    obtain ⟨hdiv, hmod⟩ := row_divMod (i := i + 1) fs.idblocks_pos
    rw [hnext, hdiv, hmod] at h1
    have hi1 : i + 1 < fs.idblocksCount := by
      by_contra hge'
      have := Nat.mul_le_mul_right fs.idblocksCount (Nat.le_of_not_lt hge')
      omega
    obtain ⟨fuel', rfl⟩ : ∃ fuel', fuel = fuel' + 1 := ⟨fuel - 1, by omega⟩
    have hone := blocksSupply_one hbo hj h0
    have htwo : fs.blockSize ≤ blocksSupply fs (tablePointer fs d (i + 1))
      fs.idblocksCount 0 := blocksSupply_start fs fs.idblocks_pos h1
    rw [tablesSupply, indirectSupply_seen]
    omega

theorem supplyDouble_of_in (hN : (12 + fs.idblocksCount) * fs.blockSize < 4294967296)
    (hlt : offset / fs.blockSize < 12 + fs.idblocksCount + fs.idblocksCount * fs.idblocksCount)
    (hd : inode.doubleIdblockPtr ≠ 0) : supplyDouble fs inode offset =
      doublySupply fs (fs.fresh 0).double (fs.fresh 0).rounds inode.doubleIdblockPtr
        (doubleOffset fs inode offset) := by
  have hsmall := idblocks_small hN
  have hmul := Nat.mul_le_mul hsmall.le hsmall.le
  unfold supplyDouble
  apply if_pos
  refine ⟨?_, hd⟩
  rw [u32_of_lt (by unfold EXT2_INODE_DBLOCKS_COUNT; omega)]
  exact hlt

theorem singleOffset_block {b : ℕ} (hend : (12 + b) * fs.blockSize + bo < 4294967296)
    (hbo : bo < fs.blockSize) :
    singleOffset fs ((12 + b) * fs.blockSize + bo) = b * fs.blockSize + bo := by
  unfold singleOffset EXT2_INODE_DBLOCKS_COUNT
  rw [(block_divMod fs (12 + b) hbo).1, if_neg (by omega)]
  rw [Nat.add_mul] at hend ⊢
  rw [u32_of_lt (by omega), sub32_small (by omega) (by omega)]
  omega

/-- Block `b` of the singly indirect range, with a byte of it to start from, and the next one. -/
theorem supply_crosses_single {b : ℕ} (hend : (12 + b + 1) * fs.blockSize < 4294967296)
    (hbo : bo < fs.blockSize) (hb : b < fs.idblocksCount) (h0 : BlockSeen fs inode (12 + b))
    (h1 : BlockSeen fs inode (12 + b + 1)) :
    2 * fs.blockSize - bo ≤ supplySingle fs inode ((12 + b) * fs.blockSize + bo) +
      supplyDouble fs inode ((12 + b) * fs.blockSize + bo) := by
  have hle := fs.blockSize_le
  have h4 := fs.four_idblocks
  have hdiv := (block_divMod fs (12 + b) hbo).1
  have hin : InSingle fs inode ((12 + b) * fs.blockSize + bo) := by
    refine ⟨?_, h0.single (by omega) (by omega)⟩
    rw [hdiv, u32_of_lt (by unfold EXT2_INODE_DBLOCKS_COUNT; omega)]
    exact Nat.add_lt_add_left hb 12
  have hs : supplySingle fs inode ((12 + b) * fs.blockSize + bo) =
      blocksSupply fs (readPointer fs (fs.fresh 0).single.1 inode.singleIdblockPtr) fs.idblocksCount
        (b * fs.blockSize + bo) := by
    unfold supplySingle indirectSupply
    rw [if_pos hin, singleOffset_block (by rw [Nat.succ_mul] at hend; omega) hbo]
  have hi : readPointer fs (fs.fresh 0).single.1 inode.singleIdblockPtr b ≠ 0 := by
    rw [← (seenBlock_single hb).1]
    exact h0.data
  rw [hs]
  by_cases hnext : b + 1 < fs.idblocksCount
  · have hi1 : readPointer fs (fs.fresh 0).single.1 inode.singleIdblockPtr (b + 1) ≠ 0 := by
      rw [← (seenBlock_single hnext).1]
      exact h1.data
    exact (blocksSupply_two hbo hnext hi hi1).trans (Nat.le_add_right _ _)
  · -- the next block is the first one of the double range
    have hlast : b + 1 = fs.idblocksCount := by omega
    have hone := blocksSupply_one hbo hb hi
    obtain ⟨hd, htable⟩ := h1.double (by omega)
    have hdata := h1.data
    rw [show 12 + b + 1 = 12 + (fs.idblocksCount + 0) by omega, (seenBlock_double 0).1,
      Nat.zero_div, Nat.zero_mod] at hdata
    rw [show 12 + b + 1 - 12 - fs.idblocksCount = 0 by omega, Nat.zero_div] at htable
    have hdbl : supplyDouble fs inode ((12 + b) * fs.blockSize + bo) =
        doublySupply fs (fs.fresh 0).double (fs.fresh 0).rounds inode.doubleIdblockPtr 0 := by
      rw [supplyDouble_of_in (by rwa [← hlast]) (by omega) hd]
      unfold doubleOffset
      rw [if_pos hin]
    have hfirst := doublySupply_start fs htable hdata
    rw [hdbl]
    omega

/-- Block `c` of the doubly indirect range, and the next one. -/
theorem supply_crosses_double {c : ℕ}
    (hend : (12 + (fs.idblocksCount + c)) * fs.blockSize + bo < 4294967296)
    (hbo : bo < fs.blockSize) (h0 : BlockSeen fs inode (12 + (fs.idblocksCount + c)))
    (h1 : BlockSeen fs inode (12 + (fs.idblocksCount + c) + 1)) :
    2 * fs.blockSize - bo ≤
      supplyDouble fs inode ((12 + (fs.idblocksCount + c)) * fs.blockSize + bo) := by
  have hle := fs.blockSize_le
  have h4 := fs.four_idblocks
  have hdiv := (block_divMod fs (12 + (fs.idblocksCount + c)) hbo).1
  have hlt := h1.lt
  obtain ⟨hd, htable⟩ := h0.double (by omega)
  have hdata0 := h0.data
  have hdata1 := h1.data
  rw [Nat.add_sub_cancel_left, Nat.add_sub_cancel_left] at htable
  rw [(seenBlock_double c).1] at hdata0
  rw [Nat.add_assoc, Nat.add_assoc, (seenBlock_double (c + 1)).1] at hdata1
  have hout : ¬ InSingle fs inode ((12 + (fs.idblocksCount + c)) * fs.blockSize + bo) := by
    intro hin
    have := hin.1
    rw [hdiv, u32_of_lt (by unfold EXT2_INODE_DBLOCKS_COUNT; omega)] at this
    unfold EXT2_INODE_DBLOCKS_COUNT at this
    omega
  have hoff : doubleOffset fs inode ((12 + (fs.idblocksCount + c)) * fs.blockSize + bo) =
      c * fs.blockSize + bo := by
    unfold doubleOffset
    rw [if_neg hout, singleOffset_block hend hbo]
    rw [Nat.add_mul, Nat.add_mul] at hend
    rw [Nat.add_mul, u32_of_lt (by omega), sub32_small (by omega) (by omega)]
    omega
  have hend' := hend
  rw [Nat.add_mul, Nat.add_mul] at hend'
  rw [supplyDouble_of_in (by rw [Nat.add_mul]; omega) (by omega) hd, hoff]
  exact doublySupply_two (by omega) hbo (by omega) htable hdata0 hdata1

/-- Block `b` behind the direct range, with a byte of it to start from, and the next one. -/
theorem supply_crosses_indirect {b : ℕ} (hend : (12 + b + 1) * fs.blockSize < 4294967296)
    (hbo : bo < fs.blockSize) (h0 : BlockSeen fs inode (12 + b))
    (h1 : BlockSeen fs inode (12 + b + 1)) :
    2 * fs.blockSize - bo ≤ supplySingle fs inode ((12 + b) * fs.blockSize + bo) +
      supplyDouble fs inode ((12 + b) * fs.blockSize + bo) := by
  rcases Nat.lt_or_ge b fs.idblocksCount with hb | hb
  · exact supply_crosses_single hend hbo hb h0 h1
  · obtain ⟨c, rfl⟩ := Nat.exists_eq_add_of_le hb
    rw [Nat.succ_mul] at hend
    exact (supply_crosses_double (by omega) hbo h0 h1).trans (Nat.le_add_left _ _)

/-- Two blocks that follow each other in the file, with a byte of the first one to start from.
The direct range is not left early: the next one holds a block. -/
theorem supply_crosses (hend : (i + 1) * fs.blockSize < 4294967296) (hbo : bo < fs.blockSize)
    (h0 : BlockSeen fs inode i) (h1 : BlockSeen fs inode (i + 1)) :
    2 * fs.blockSize - bo ≤ ext2Supply fs inode (i * fs.blockSize + bo) ∧
    (supplyDirect fs inode (i * fs.blockSize + bo) = 0 ∨
      fs.blockSize ≤ 2 * supplyDirect fs inode (i * fs.blockSize + bo) +
        supplySingle fs inode (i * fs.blockSize + bo)) := by
  have hle := fs.blockSize_le
  have h4 := fs.four_idblocks
  have hdiv := (block_divMod fs i hbo).1
  unfold ext2Supply
  by_cases hdir : i < 12
  · have hd : supplyDirect fs inode (i * fs.blockSize + bo) =
        blocksSupply fs inode.dblocks 12 (i * fs.blockSize + bo) := by
      unfold supplyDirect
      rw [hdiv, if_pos hdir]
    have hi : inode.dblocks i ≠ 0 := by
      have := h0.data
      unfold seenBlock at this
      rwa [if_pos hdir] at this
    rw [hd]
    by_cases hnext : i + 1 < 12
    · have hi1 : inode.dblocks (i + 1) ≠ 0 := by
        have := h1.data
        unfold seenBlock at this
        rwa [if_pos hnext] at this
      have htwo := blocksSupply_two hbo hnext hi hi1
      omega
    · obtain rfl : i = 11 := by omega
      have hone := blocksSupply_one hbo hdir hi
      have hin : InSingle fs inode (11 * fs.blockSize + bo) := by
        refine ⟨?_, h1.single le_rfl (by omega)⟩
        rw [hdiv, u32_of_lt (by unfold EXT2_INODE_DBLOCKS_COUNT; omega)]
        unfold EXT2_INODE_DBLOCKS_COUNT
        omega
      have hs : supplySingle fs inode (11 * fs.blockSize + bo) =
          blocksSupply fs (readPointer fs (fs.fresh 0).single.1 inode.singleIdblockPtr)
            fs.idblocksCount 0 := by
        unfold supplySingle singleOffset indirectSupply
        rw [if_pos hin, hdiv, if_pos hdir]
      have hfirst : readPointer fs (fs.fresh 0).single.1 inode.singleIdblockPtr 0 ≠ 0 := by
        rw [← (seenBlock_single fs.idblocks_pos).1]
        exact h1.data
      have hnext := blocksSupply_start fs fs.idblocks_pos hfirst
      rw [hs]
      omega
  · obtain ⟨b, rfl⟩ := Nat.exists_eq_add_of_le (Nat.le_of_not_lt hdir)
    have hd : supplyDirect fs inode ((12 + b) * fs.blockSize + bo) = 0 := by
      unfold supplyDirect
      rw [hdiv, if_neg hdir]
    have hrest := supply_crosses_indirect hend hbo h0 h1
    rw [hd]
    exact ⟨by omega, Or.inl rfl⟩

variable {n : ℕ}

theorem readFile_crosses (hS : inode.sizeLo < 4294967296) (hoff : offset < inode.sizeLo)
    (hn : offset + n < 4294967296) (hshort : min n (inode.sizeLo - offset) < fs.blockSize)
    (hcross : fs.blockSize < offset % fs.blockSize + min n (inode.sizeLo - offset))
    (h0 : BlockSeen fs inode (offset / fs.blockSize))
    (h1 : BlockSeen fs inode (offset / fs.blockSize + 1)) (buf : Mem) :
    fs.blockSize - offset % fs.blockSize < (readFile fs inode buf n offset).r := by
  have hdm := Nat.div_add_mod' offset fs.blockSize
  have hmod := Nat.mod_lt offset fs.blockSize_pos
  obtain ⟨hsupply, hdirect⟩ := supply_crosses (by rw [Nat.succ_mul]; omega) hmod h0 h1
  rw [hdm] at hsupply hdirect
  rw [(readFile_delivers fs hoff (clamp_eq hoff (by omega) hn) (by omega) buf).1]
  unfold ext2Delivered
  split_ifs with hstop
  · obtain ⟨-, hpos, hwant⟩ := hstop
    omega
  · omega

theorem readFile_beyond (hS : inode.sizeLo < 4294967296) (hoff : offset < inode.sizeLo)
    (hn : offset + n < 4294967296) (hge : 12 + fs.idblocksCount +
      fs.idblocksCount * fs.idblocksCount ≤ offset / fs.blockSize) (buf : Mem) :
    (readFile fs inode buf n offset).r = 0 := by
  have hle := fs.blockSize_le
  have h4 := fs.four_idblocks
  have hd : supplyDirect fs inode offset = 0 :=
    if_neg (show ¬ offset / fs.blockSize < 12 by omega)
  have hs : supplySingle fs inode offset = 0 := by
    refine if_neg fun hin => ?_
    have hlt := hin.1.trans_le (Nat.mod_le _ 4294967296)
    unfold EXT2_INODE_DBLOCKS_COUNT at hlt
    omega
  have hdbl : supplyDouble fs inode offset = 0 := by
    refine if_neg fun hin => ?_
    have hlt := hin.1.trans_le (Nat.mod_le _ 4294967296)
    unfold EXT2_INODE_DBLOCKS_COUNT at hlt
    omega
  rw [(readFile_delivers fs hoff (clamp_eq hoff (by omega) hn) (by omega) buf).1]
  unfold ext2Delivered ext2Supply
  rw [hd, hs, hdbl]
  simp

end Supply

end DepthOS
