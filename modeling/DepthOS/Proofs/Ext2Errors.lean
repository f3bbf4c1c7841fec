import DepthOS.Proofs.Ext2Read
import DepthOS.Proofs.Ext2Supply
import DepthOS.Spec.Ext2Trace

/-! Failed block reads. `ext2_read_block` says whether the device has delivered all sectors of a
block, and no caller looks at it: what is in the block buffer is copied and counted. So a read
counts only blocks that have been read exactly when the device delivers every block that the maps
give for the bytes wanted. -/

namespace DepthOS

open Lib

/-- The buffer after the transfers. -/
def replay : List Transfer → ℕ → Mem → Mem
  | [], _, buf => buf
  | t :: ts, pos, buf =>
    replay ts (pos + t.bytesToTransfer)
      (blit buf pos (fun k => t.blockbuf (t.byteOffset + k)) t.bytesToTransfer)

@[simp] theorem transferred_cons (t : Transfer) (ts : List Transfer) :
    transferred (t :: ts) = t.bytesToTransfer + transferred ts := by
  simp [transferred]

@[simp] theorem transferred_append (ts ts' : List Transfer) :
    transferred (ts ++ ts') = transferred ts + transferred ts' := by
  simp [transferred]

theorem replay_append (ts ts' : List Transfer) (pos : ℕ) (buf : Mem) :
    replay (ts ++ ts') pos buf = replay ts' (pos + transferred ts) (replay ts pos buf) := by
  induction ts generalizing pos buf with
  | nil => rfl
  | cons t ts ih => simp only [List.cons_append, replay, ih, transferred_cons, Nat.add_assoc]

/-! The transfers make up what the functions return. -/

section Replay

variable (fs : Ext2Fs) {nbytes : ℕ}

theorem directLoop_replay (via : List ℕ) (blocks : ℕ → ℕ) (pos : ℕ) (hn : nbytes < 4294967296) :
    ∀ (fuel i r byteOffset : ℕ) (blockbuf buf : Mem), r ≤ nbytes → byteOffset < fs.blockSize →
      directLoop fs blocks pos nbytes fuel i r byteOffset blockbuf buf =
        (r + transferred (directTransfersLoop fs via blocks nbytes fuel i r byteOffset blockbuf),
          replay (directTransfersLoop fs via blocks nbytes fuel i r byteOffset blockbuf) (pos + r)
            buf) := by
  have hle := fs.blockSize_le
  intro fuel
  induction fuel with
  | zero =>
    intro i r byteOffset blockbuf buf _ _
    rfl
  | succ fuel ih =>
    intro i r byteOffset blockbuf buf hr hbo
    rw [directLoop, directTransfersLoop, if_pos hr, if_pos hr]
    by_cases h0 : blocks i = 0
    · rw [if_pos h0, if_pos h0]
      exact ih _ _ _ _ _ hr hbo
    · rw [if_neg h0, if_neg h0]
      dsimp only
      rw [sub32_small hr hn, sub32_small hbo.le (by omega), u32_of_lt (by omega),
        ih _ _ _ _ _ (by omega) fs.blockSize_pos, transferred_cons, replay]
      dsimp only
      rw [Nat.add_assoc, Nat.add_assoc]

theorem readDirect_replay (left : Mem) (via : List ℕ) (blocks : ℕ → ℕ) (nblocks offset : ℕ)
    (buf : Mem) (pos : ℕ) (hn : nbytes < 4294967296) :
    readDirect fs left blocks nblocks offset buf pos nbytes =
      (transferred (directTransfers fs left via blocks nblocks offset nbytes),
        replay (directTransfers fs left via blocks nblocks offset nbytes) pos buf) := by
  unfold readDirect directTransfers
  dsimp only
  rw [directLoop_replay fs via blocks pos hn _ _ _ _ _ _ (Nat.zero_le _)
    (Nat.mod_lt _ fs.blockSize_pos), Nat.zero_add, Nat.add_zero]

theorem directTransfers_count (left : Mem) (via : List ℕ) (blocks : ℕ → ℕ) (nblocks offset : ℕ)
    (hn : nbytes < 4294967296) :
    transferred (directTransfers fs left via blocks nblocks offset nbytes) =
      min nbytes (blocksSupply fs blocks nblocks offset) := by
  have h := (readDirect_brings fs left blocks nblocks offset left 0 hn).1
  rwa [readDirect_replay fs left via _ _ _ _ _ hn, Nat.zero_add] at h

theorem indirectTransfers_count (left : Mem × Mem) (via : List ℕ) (pointerBlock offset : ℕ)
    (hn : nbytes < 4294967296) :
    transferred (indirectTransfers fs left via pointerBlock offset nbytes) =
      min nbytes (indirectSupply fs left.1 pointerBlock offset) :=
  directTransfers_count fs _ _ _ _ _ hn

theorem readSingle_replay (left : Mem × Mem) (via : List ℕ) (pointerBlock offset : ℕ) (buf : Mem)
    (pos : ℕ) (hn : nbytes < 4294967296) :
    readSingle fs left pointerBlock offset buf pos nbytes =
      (transferred (indirectTransfers fs left via pointerBlock offset nbytes),
        replay (indirectTransfers fs left via pointerBlock offset nbytes) pos buf) :=
  readDirect_replay fs _ _ _ _ offset buf pos hn

theorem doubleLoop_replay (lefts : ℕ → Mem × Mem) (via : List ℕ) (idbuf : Mem) (idx : ℕ) :
    ∀ (fuel i offset pos nbytes r : ℕ) (buf : Mem), r + nbytes < 4294967296 →
      doubleLoop fs lefts idbuf idx fuel i offset pos nbytes r buf =
        (r + transferred (doublyTransfersLoop fs lefts via idbuf idx fuel i offset nbytes),
          replay (doublyTransfersLoop fs lefts via idbuf idx fuel i offset nbytes) pos buf) := by
  intro fuel
  induction fuel with
  | zero =>
    intro i offset pos nbytes r buf _
    rfl
  | succ fuel ih =>
    intro i offset pos nbytes r buf hr
    rw [doubleLoop, doublyTransfersLoop]
    by_cases hpos : nbytes > 0
    · rw [if_pos hpos, if_pos hpos]
      by_cases h0 : load32 idbuf (4 * idx) = 0
      · rw [if_pos h0, if_pos h0]
        rfl
      · rw [if_neg h0, if_neg h0]
        have hcount := indirectTransfers_count fs (lefts i) via (load32 idbuf (4 * i)) offset
          (show nbytes < 4294967296 by omega)
        rw [readSingle_replay fs (lefts i) via _ _ _ _ (by omega)]
        dsimp only
        generalize indirectTransfers fs (lefts i) via (load32 idbuf (4 * i)) offset nbytes = ts
          at hcount ⊢
        rw [sub32_small (by omega) (by omega), u32_of_lt (by omega), ih _ _ _ _ _ _ (by omega),
          transferred_append, replay_append, Nat.add_assoc]
    · rw [if_neg hpos, if_neg hpos]
      rfl

theorem readDouble_replay (left : Mem) (lefts : ℕ → Mem × Mem) (pointerBlock offset : ℕ) (buf : Mem)
    (pos : ℕ) (hn : nbytes < 4294967296) :
    readDouble fs left lefts pointerBlock offset buf pos nbytes =
      (transferred (doublyTransfers fs left lefts pointerBlock offset nbytes),
        replay (doublyTransfers fs left lefts pointerBlock offset nbytes) pos buf) := by
  unfold readDouble doublyTransfers
  dsimp only
  rw [doubleLoop_replay fs lefts [pointerBlock] _ _ _ _ _ _ _ _ _ (by omega), Nat.zero_add]

variable (inode : Ext2Inode)

theorem inodeDouble_replay (left : Leftovers) (blockOffset offset : ℕ) (buf : Mem) (pos : ℕ) {r : ℕ}
    (hr : r + nbytes < 4294967296) :
    inodeDouble fs left inode blockOffset offset buf pos nbytes r =
      (r + transferred (inodeDoublyTransfers fs left inode blockOffset offset nbytes),
        replay (inodeDoublyTransfers fs left inode blockOffset offset nbytes) pos buf) := by
  unfold inodeDouble inodeDoublyTransfers
  dsimp only
  split_ifs with h
  · have hcount := (readDouble_brings fs left.double left.rounds inode.doubleIdblockPtr offset buf
      pos (show nbytes < 4294967296 by omega)).1
    rw [readDouble_replay fs _ _ _ _ _ _ (by omega)] at hcount ⊢
    dsimp only at hcount ⊢
    rw [u32_of_lt (by omega)]
  · rfl

theorem inodeSingle_replay (left : Leftovers) (blockOffset offset : ℕ) (buf : Mem) (pos : ℕ) {r : ℕ}
    (hr : r + nbytes < 4294967296) :
    inodeSingle fs left inode blockOffset offset buf pos nbytes r =
      (r + transferred (inodeIndirectTransfers fs left inode blockOffset offset nbytes r),
        replay (inodeIndirectTransfers fs left inode blockOffset offset nbytes r) pos buf) := by
  unfold inodeSingle inodeIndirectTransfers
  dsimp only
  by_cases hin : blockOffset < u32 (EXT2_INODE_DBLOCKS_COUNT + fs.idblocksCount) ∧
      inode.singleIdblockPtr ≠ 0
  · rw [if_pos hin, if_pos hin]
    have hcount := indirectTransfers_count fs left.single [] inode.singleIdblockPtr offset
      (show nbytes < 4294967296 by omega)
    rw [readSingle_replay fs left.single [] _ _ _ _ (by omega)]
    dsimp only
    generalize indirectTransfers fs left.single [] inode.singleIdblockPtr offset nbytes = ts
      at hcount ⊢
    rw [u32_of_lt (by omega)]
    by_cases hall : r + transferred ts = nbytes
    · rw [if_pos hall, if_pos hall]
    · rw [if_neg hall, if_neg hall, sub32_small (by omega) (by omega),
        inodeDouble_replay fs inode left _ _ _ _ (by omega), transferred_append, replay_append,
        Nat.add_assoc]
  · rw [if_neg hin, if_neg hin]
    exact inodeDouble_replay fs inode left _ _ _ _ hr

theorem readFile_replay (buf : Mem) {n : ℕ} (hn : n < 4294967296) (offset : ℕ) :
    (readFile fs inode buf n offset).r = transferred (ext2Transfers fs inode n offset) ∧
    (readFile fs inode buf n offset).buf = replay (ext2Transfers fs inode n offset) 0 buf := by
  have hdata : readData fs inode offset buf n =
      (transferred (ext2Transfers fs inode n offset),
        replay (ext2Transfers fs inode n offset) 0 buf) := by
    unfold readData ext2Transfers
    dsimp only
    by_cases hend : offset ≥ ext2InodeSize inode
    · rw [if_pos hend, if_pos hend]
      rfl
    · rw [if_neg hend, if_neg hend]
      have hcut := cut_le (n := n) (Nat.lt_of_not_ge hend)
      generalize (if u32 (offset + n) > ext2InodeSize inode then sub32 (ext2InodeSize inode) offset
        else n) = want at hcut ⊢
      by_cases hdir : offset / fs.blockSize < EXT2_INODE_DBLOCKS_COUNT
      · have hcount := directTransfers_count fs (fs.fresh 0).direct [] inode.dblocks
          EXT2_INODE_DBLOCKS_COUNT offset (show want < 4294967296 by omega)
        rw [if_pos hdir, if_pos hdir, readDirect_replay fs _ [] _ _ _ _ _ (by omega)]
        dsimp only
        generalize directTransfers fs (fs.fresh 0).direct [] inode.dblocks EXT2_INODE_DBLOCKS_COUNT
          offset want = ts at hcount ⊢
        by_cases hall : transferred ts = want
        · rw [if_pos hall, if_pos hall]
        · rw [if_neg hall, if_neg hall, sub32_small (by omega) (by omega),
            inodeSingle_replay fs inode (fs.fresh 0) _ _ _ _ (by omega), transferred_append,
            replay_append,
            Nat.zero_add]
      · rw [if_neg hdir, if_neg hdir, inodeSingle_replay fs inode (fs.fresh 0) _ _ _ _ (by omega),
          Nat.zero_add]
  unfold readFile
  rw [hdata]
  exact ⟨rfl, rfl⟩

end Replay

/-! The blocks that a read takes bytes from, by the maps. -/

section Reach

variable (fs : Ext2Fs)

/-- How many blocks hold `w` bytes, from `byteOffset` in the first one on. -/
def blocksNeeded (byteOffset w : ℕ) : ℕ :=
  if w = 0 then 0 else (byteOffset + w + fs.blockSize - 1) / fs.blockSize

/-- The first ones of the allocated blocks from `offset` on, as many as `w` bytes need, each
with the pointer blocks on the way. -/
def blocksReach (via : List ℕ) (blocks : ℕ → ℕ) (nblocks offset w : ℕ) : List (List ℕ × ℕ) :=
  ((((List.range' (offset / fs.blockSize) (nblocks - offset / fs.blockSize)).map blocks).filter
    (· ≠ 0)).take (blocksNeeded fs (offset % fs.blockSize) w)).map (via, ·)

def tablesReach (lefts : ℕ → Mem × Mem) (via : List ℕ) (table : ℕ → ℕ) :
    (fuel i offset w : ℕ) → List (List ℕ × ℕ)
  | 0, _, _, _ => []
  | fuel + 1, i, offset, w =>
    blocksReach fs (via ++ [table i]) (readPointer fs (lefts i).1 (table i)) fs.idblocksCount
        offset w ++
      tablesReach lefts via table fuel (i + 1) 0
        (w - indirectSupply fs (lefts i).1 (table i) offset)

def doublyReach (left : Mem) (lefts : ℕ → Mem × Mem) (pointerBlock offset w : ℕ) :
    List (List ℕ × ℕ) :=
  let idx := offset / fs.blockSize / fs.idblocksCount
  if readPointer fs left pointerBlock idx = 0 then []
  else tablesReach fs lefts [pointerBlock] (readPointer fs left pointerBlock)
    (fs.idblocksCount - idx) idx (sub32 offset (u32 (idx * fs.idblocksCount * fs.blockSize))) w

/-- The blocks that hold the bytes a read wants, through the three ranges. -/
def ext2Reach (inode : Ext2Inode) (n offset : ℕ) : List (List ℕ × ℕ) :=
  if offset ≥ inode.sizeLo then []
  else
    let want := if u32 (offset + n) > inode.sizeLo then sub32 inode.sizeLo offset else n
    (if offset / fs.blockSize < EXT2_INODE_DBLOCKS_COUNT then
      blocksReach fs [] inode.dblocks EXT2_INODE_DBLOCKS_COUNT offset want else []) ++
    (if InSingle fs inode offset then
      blocksReach fs [inode.singleIdblockPtr]
        (readPointer fs (fs.fresh 0).single.1 inode.singleIdblockPtr)
        fs.idblocksCount (singleOffset fs offset) (want - supplyDirect fs inode offset) else []) ++
    (if InDouble fs inode offset ∧ ¬ StopsEarly fs inode offset want then
      doublyReach fs (fs.fresh 0).double (fs.fresh 0).rounds inode.doubleIdblockPtr
        (doubleOffset fs inode offset)
        (want - supplyDirect fs inode offset - supplySingle fs inode offset) else [])

/-- The transfers that count, with the pointer blocks, the block and what was returned for it. -/
def countedBlocks (ts : List Transfer) : List (List ℕ × ℕ × Bool) :=
  (ts.filter (0 < ·.bytesToTransfer)).map fun t => (t.via, t.block, t.ok)

@[simp] theorem countedBlocks_append (ts ts' : List Transfer) :
    countedBlocks (ts ++ ts') = countedBlocks ts ++ countedBlocks ts' := by
  simp [countedBlocks]

variable {fs}

theorem readBlock_flag (buf : Mem) (b : ℕ) :
    (readBlock fs buf b).2 = decide (BlockRead fs b) := by
  rw [Bool.eq_iff_iff, decide_eq_true_iff, readBlock_request]
  unfold BlockRead Device.read
  dsimp only
  rw [beq_iff_eq]
  exact min_eq_left_iff

theorem blocksNeeded_zero (byteOffset : ℕ) : blocksNeeded fs byteOffset 0 = 0 := if_pos rfl

theorem blocksNeeded_succ {byteOffset w : ℕ} (hw : 0 < w) (hbo : byteOffset < fs.blockSize) :
    blocksNeeded fs byteOffset w =
      blocksNeeded fs 0 (w - min w (fs.blockSize - byteOffset)) + 1 := by
  have hbs := fs.blockSize_pos
  unfold blocksNeeded
  rw [if_neg (by omega)]
  split_ifs with hrest
  · have hone : (byteOffset + w + fs.blockSize - 1) / fs.blockSize = 1 :=
      Nat.div_eq_of_lt_le (by omega) (by omega)
    rw [hone]
  · rw [← Nat.add_div_right _ hbs]
    congr 1
    omega

/-- A block number with its flag. -/
def flagged (fs : Ext2Fs) (p : List ℕ × ℕ) : List ℕ × ℕ × Bool :=
  (p.1, p.2, decide (BlockRead fs p.2))

theorem directTransfersLoop_counted (via : List ℕ) (blocks : ℕ → ℕ) {nbytes : ℕ}
    (hn : nbytes < 4294967296) : ∀ (fuel i r byteOffset : ℕ) (blockbuf : Mem), r ≤ nbytes →
      byteOffset < fs.blockSize →
      countedBlocks (directTransfersLoop fs via blocks nbytes fuel i r byteOffset blockbuf) =
        (((((List.range' i fuel).map blocks).filter (· ≠ 0)).take
          (blocksNeeded fs byteOffset (nbytes - r))).map (via, ·)).map (flagged fs) := by
  have hle := fs.blockSize_le
  intro fuel
  induction fuel with
  | zero =>
    intro i r byteOffset blockbuf _ _
    simp [directTransfersLoop, countedBlocks]
  | succ fuel ih =>
    intro i r byteOffset blockbuf hr hbo
    rw [directTransfersLoop, if_pos hr, List.range'_succ, List.map_cons]
    by_cases h0 : blocks i = 0
    · rw [if_pos h0, ih _ _ _ _ hr hbo, List.filter_cons_of_neg (by simp [h0])]
    · rw [if_neg h0, List.filter_cons_of_pos (by simp [h0])]
      dsimp only
      rw [sub32_small hr hn, sub32_small hbo.le (by omega), u32_of_lt (by omega)]
      have hrest := ih (i + 1) (r + min (nbytes - r) (fs.blockSize - byteOffset)) 0
        (readBlock fs blockbuf (blocks i)).1 (by omega) fs.blockSize_pos
      unfold countedBlocks at hrest ⊢
      rcases Nat.eq_zero_or_pos (nbytes - r) with hw | hw
      · -- all is done: what is transferred from now on has no bytes
        rw [List.filter_cons_of_neg (by simp [hw]), hrest]
        simp [hw, blocksNeeded_zero]
      · rw [List.filter_cons_of_pos (by simp; omega), List.map_cons, hrest,
          blocksNeeded_succ hw hbo, List.take_succ_cons, List.map_cons, List.map_cons,
          readBlock_flag, Nat.sub_add_eq]
        rfl

variable {nbytes : ℕ}

variable (fs) in
theorem directTransfers_counted (left : Mem) (via : List ℕ) (blocks : ℕ → ℕ) (nblocks offset : ℕ)
    (hn : nbytes < 4294967296) :
    countedBlocks (directTransfers fs left via blocks nblocks offset nbytes) =
      (blocksReach fs via blocks nblocks offset nbytes).map (flagged fs) :=
  directTransfersLoop_counted via blocks hn _ _ _ _ _ (Nat.zero_le _)
    (Nat.mod_lt _ fs.blockSize_pos)

variable (fs) in
theorem indirectTransfers_counted (left : Mem × Mem) (via : List ℕ) (pointerBlock offset : ℕ)
    (hn : nbytes < 4294967296) :
    countedBlocks (indirectTransfers fs left via pointerBlock offset nbytes) =
      (blocksReach fs (via ++ [pointerBlock]) (readPointer fs left.1 pointerBlock) fs.idblocksCount
        offset nbytes).map (flagged fs) :=
  directTransfers_counted fs _ _ _ _ offset hn

theorem blocksReach_zero (via : List ℕ) (blocks : ℕ → ℕ) (nblocks offset : ℕ) :
    blocksReach fs via blocks nblocks offset 0 = [] := by
  unfold blocksReach
  rw [blocksNeeded_zero, List.take_zero, List.map_nil]

theorem tablesReach_zero (lefts : ℕ → Mem × Mem) (via : List ℕ) (table : ℕ → ℕ)
    (fuel i offset : ℕ) : tablesReach fs lefts via table fuel i offset 0 = [] := by
  induction fuel generalizing i offset with
  | zero => rfl
  | succ fuel ih => rw [tablesReach, blocksReach_zero, Nat.zero_sub, ih, List.append_nil]

theorem doublyReach_zero (left : Mem) (lefts : ℕ → Mem × Mem) (pointerBlock offset : ℕ) :
    doublyReach fs left lefts pointerBlock offset 0 = [] := by
  unfold doublyReach
  dsimp only
  rw [tablesReach_zero, ite_self]

theorem doublyTransfersLoop_counted (lefts : ℕ → Mem × Mem) (via : List ℕ) {idbuf : Mem} {idx : ℕ}
    (hidx : load32 idbuf (4 * idx) ≠ 0) : ∀ (fuel i offset nbytes : ℕ), nbytes < 4294967296 →
      countedBlocks (doublyTransfersLoop fs lefts via idbuf idx fuel i offset nbytes) =
        (tablesReach fs lefts via (fun i => load32 idbuf (4 * i)) fuel i offset nbytes).map
          (flagged fs) := by
  intro fuel
  induction fuel with
  | zero =>
    intro i offset nbytes _
    rfl
  | succ fuel ih =>
    intro i offset nbytes hn
    rw [doublyTransfersLoop]
    by_cases hpos : nbytes > 0
    · rw [if_pos hpos, if_neg hidx]
      dsimp only
      have hleft : sub32 nbytes (transferred (indirectTransfers fs (lefts i) via
          (load32 idbuf (4 * i)) offset nbytes)) =
            nbytes - indirectSupply fs (lefts i).1 (load32 idbuf (4 * i)) offset := by
        rw [indirectTransfers_count fs _ via _ _ hn, sub32_small (Nat.min_le_left _ _) hn]
        omega
      rw [hleft, countedBlocks_append, indirectTransfers_counted fs _ via _ _ hn,
        ih _ _ _ (by omega), tablesReach, List.map_append]
    · obtain rfl : nbytes = 0 := by omega
      rw [if_neg hpos, tablesReach_zero]
      rfl

theorem doublyTransfers_counted (left : Mem) (lefts : ℕ → Mem × Mem) (pointerBlock offset : ℕ)
    (hn : nbytes < 4294967296) :
    countedBlocks (doublyTransfers fs left lefts pointerBlock offset nbytes) =
      (doublyReach fs left lefts pointerBlock offset nbytes).map (flagged fs) := by
  unfold doublyTransfers doublyReach
  dsimp only
  generalize offset / fs.blockSize / fs.idblocksCount = idx
  by_cases h0 : readPointer fs left pointerBlock idx = 0
  · rw [if_pos h0]
    unfold readPointer at h0
    rcases fs.idblocksCount - idx with _ | fuel
    · rfl
    · rw [doublyTransfersLoop, if_pos h0, ite_self]
      rfl
  · rw [if_neg h0]
    exact doublyTransfersLoop_counted _ _ h0 _ _ _ _ hn

variable {inode : Ext2Inode} {offset want : ℕ}

theorem inodeDoublyTransfers_counted (left : Leftovers) (off : ℕ) (hn : nbytes < 4294967296) :
    countedBlocks (inodeDoublyTransfers fs left inode (offset / fs.blockSize) off nbytes) =
      (if InDouble fs inode offset then
        doublyReach fs left.double left.rounds inode.doubleIdblockPtr off nbytes
        else []).map (flagged fs) := by
  unfold inodeDoublyTransfers
  dsimp only
  by_cases hin : InDouble fs inode offset
  · rw [if_pos hin, if_pos (show _ ∧ _ from hin)]
    exact doublyTransfers_counted _ _ _ _ hn
  · rw [if_neg hin, if_neg (show ¬ (_ ∧ _) from hin)]
    rfl

theorem inodeIndirectTransfers_counted {d : ℕ} (hd : d = supplyDirect fs inode offset)
    (hlt : d < want ∨ d = 0) (hw : want < 4294967296) :
    countedBlocks (inodeIndirectTransfers fs (fs.fresh 0) inode (offset / fs.blockSize)
      (singleOffset fs offset) (want - d) d) =
      ((if InSingle fs inode offset then
        blocksReach fs [inode.singleIdblockPtr]
          (readPointer fs (fs.fresh 0).single.1 inode.singleIdblockPtr) fs.idblocksCount
          (singleOffset fs offset) (want - d) else []) ++
      if InDouble fs inode offset ∧ ¬ StopsEarly fs inode offset want then
        doublyReach fs (fs.fresh 0).double (fs.fresh 0).rounds inode.doubleIdblockPtr
          (doubleOffset fs inode offset)
          (want - d - supplySingle fs inode offset) else []).map (flagged fs) := by
  unfold inodeIndirectTransfers
  dsimp only
  by_cases hin : InSingle fs inode offset
  · have hzero : doubleOffset fs inode offset = 0 := if_pos hin
    have hs : supplySingle fs inode offset =
      indirectSupply fs (fs.fresh 0).single.1 inode.singleIdblockPtr (singleOffset fs offset) :=
        if_pos hin
    have hcount := indirectTransfers_count fs (fs.fresh 0).single [] inode.singleIdblockPtr
      (singleOffset fs offset) (show want - d < 4294967296 by omega)
    have hts := indirectTransfers_counted fs (fs.fresh 0).single [] inode.singleIdblockPtr
      (singleOffset fs offset) (show want - d < 4294967296 by omega)
    rw [← hs] at hcount
    rw [if_pos (show _ ∧ _ from hin), if_pos hin, hcount, u32_of_lt (by omega),
      sub32_small (by omega) (by omega), hzero, List.map_append]
    have hstop : StopsEarly fs inode offset want ↔
        0 < d ∧ want = 2 * d + supplySingle fs inode offset := by
      unfold StopsEarly
      rw [← hd]
      exact ⟨fun h => h.2, fun h => ⟨hin, h⟩⟩
    by_cases hall : d + min (want - d) (supplySingle fs inode offset) = want - d
    · -- it stops early, or there is nothing left to read
      rw [if_pos hall, hts, List.nil_append]
      by_cases hearly : StopsEarly fs inode offset want
      · rw [if_neg (fun h => h.2 hearly), List.map_nil, List.append_nil]
      · have hleft : want - d - supplySingle fs inode offset = 0 := by
          rw [hstop] at hearly
          omega
        rw [hleft, doublyReach_zero, ite_self, List.map_nil, List.append_nil]
    · have hnot : ¬ StopsEarly fs inode offset want := by
        rw [hstop]
        omega
      have hleft : want - d - min (want - d) (supplySingle fs inode offset) =
          want - d - supplySingle fs inode offset := by omega
      rw [if_neg hall, countedBlocks_append, hts, inodeDoublyTransfers_counted _ _ (by omega),
        hleft, List.nil_append]
      simp only [hnot, not_false_eq_true, and_true]
  · have hs : supplySingle fs inode offset = 0 := if_neg hin
    have hoff : doubleOffset fs inode offset =
      sub32 (singleOffset fs offset) (u32 (fs.idblocksCount * fs.blockSize)) := if_neg hin
    have hnot : ¬ StopsEarly fs inode offset want := fun h => hin h.1
    rw [if_neg (show ¬ (_ ∧ _) from hin), if_neg hin, inodeDoublyTransfers_counted _ _ (by omega),
      hs, hoff, Nat.sub_zero, List.nil_append]
    simp only [hnot, not_false_eq_true, and_true]

theorem ext2Transfers_counted {n : ℕ} (hn : n < 4294967296) :
    countedBlocks (ext2Transfers fs inode n offset) =
      (ext2Reach fs inode n offset).map (flagged fs) := by
  unfold ext2Transfers ext2Reach ext2InodeSize
  dsimp only
  by_cases hend : offset ≥ inode.sizeLo
  · rw [if_pos hend, if_pos hend]
    rfl
  · have hcut := cut_le (n := n) (Nat.lt_of_not_ge hend)
    rw [if_neg hend, if_neg hend]
    generalize (if u32 (offset + n) > inode.sizeLo then sub32 inode.sizeLo offset else n) = want
      at hcut ⊢
    by_cases hdir : offset / fs.blockSize < EXT2_INODE_DBLOCKS_COUNT
    · have hsup : supplyDirect fs inode offset =
          blocksSupply fs inode.dblocks EXT2_INODE_DBLOCKS_COUNT offset := if_pos hdir
      have hzero : singleOffset fs offset = 0 := if_pos hdir
      have hcount := directTransfers_count fs (fs.fresh 0).direct [] inode.dblocks
        EXT2_INODE_DBLOCKS_COUNT offset (show want < 4294967296 by omega)
      have hts := directTransfers_counted fs (fs.fresh 0).direct [] inode.dblocks
        EXT2_INODE_DBLOCKS_COUNT offset (show want < 4294967296 by omega)
      rw [← hsup] at hcount
      rw [if_pos hdir, if_pos hdir, hcount, List.append_assoc, List.map_append]
      by_cases hfull : want ≤ supplyDirect fs inode offset
      · rw [Nat.min_eq_left hfull, if_pos rfl, hts, Nat.sub_eq_zero_of_le hfull, Nat.zero_sub,
          blocksReach_zero, doublyReach_zero, ite_self, ite_self, List.append_nil, List.map_nil,
          List.append_nil]
      · have hrest : countedBlocks (inodeIndirectTransfers fs (fs.fresh 0) inode _
            (singleOffset fs offset) _ _) = _ :=
          inodeIndirectTransfers_counted rfl (Or.inl (Nat.lt_of_not_le hfull))
            (show want < 4294967296 by omega)
        rw [Nat.min_eq_right (by omega), if_neg (by omega), countedBlocks_append, hts,
          sub32_small (by omega) (by omega), ← hrest, hzero]
    · have hsup : supplyDirect fs inode offset = 0 := if_neg hdir
      have hstart : singleOffset fs offset =
        sub32 offset (u32 (EXT2_INODE_DBLOCKS_COUNT * fs.blockSize)) := if_neg hdir
      have hrest := inodeIndirectTransfers_counted hsup.symm (Or.inr rfl)
        (show want < 4294967296 by omega)
      rw [if_neg hdir, if_neg hdir, List.nil_append, hsup, ← hstart, ← hrest, Nat.sub_zero]

theorem countedBlocks_iff (Q : List ℕ × ℕ × Bool → Prop) {n : ℕ} (hn : n < 4294967296) :
    (∀ t ∈ ext2Transfers fs inode n offset, 0 < t.bytesToTransfer → Q (t.via, t.block, t.ok)) ↔
      ∀ p ∈ ext2Reach fs inode n offset, Q (flagged fs p) := by
  have h : (∀ x ∈ countedBlocks (ext2Transfers fs inode n offset), Q x) ↔
      ∀ x ∈ (ext2Reach fs inode n offset).map (flagged fs), Q x := by
    rw [ext2Transfers_counted hn]
  unfold countedBlocks at h
  rw [List.forall_mem_map, List.forall_mem_map] at h
  simpa only [List.mem_filter, decide_eq_true_iff, and_imp] using h

/-- Every byte that a read returns comes through a transfer with `P`. -/
def CountsOnly (fs : Ext2Fs) (inode : Ext2Inode) (buf : Mem) (n offset : ℕ)
    (P : Transfer → Prop) : Prop :=
  ∀ res, ext2Read fs inode buf n offset = some res → res.r ≠ 0 →
    ∀ t ∈ ext2Transfers fs inode n offset, 0 < t.bytesToTransfer → P t

theorem transfers_zero {ts : List Transfer} (h : transferred ts = 0) {t : Transfer} (ht : t ∈ ts) :
    t.bytesToTransfer = 0 := by
  have hle : t.bytesToTransfer ≤ transferred ts :=
    List.le_sum_of_mem (List.mem_map_of_mem ht)
  omega

theorem countsOnly_iff {n : ℕ} (hn : n < 4294967296) (buf : Mem) (P : Transfer → Prop) :
    CountsOnly fs inode buf n offset P ↔ ¬ fs.Buffered ∨
      ∀ t ∈ ext2Transfers fs inode n offset, 0 < t.bytesToTransfer → P t := by
  by_cases hbuf : fs.Buffered
  · rw [or_iff_right (not_not.2 hbuf)]
    constructor
    · intro h t ht hpos
      refine h _ (ext2Read_some hbuf inode buf n offset) (fun h0 => ?_) t ht hpos
      rw [(readFile_replay fs inode buf hn offset).1] at h0
      exact absurd (transfers_zero h0 ht) hpos.ne'
    · exact fun h _ _ _ => h
  · refine iff_of_true (fun res hres h0 => ?_) (Or.inl hbuf)
    exact absurd (ext2Read_none hbuf hn hres).1 h0

/-- A read that returns bytes returns the sum of its transfers, which also make up the buffer. It
counts only blocks that have been read exactly when there is no block buffer, and nothing is
returned, or the device delivers the blocks in reach; the same with the pointer blocks on the way
to them. -/
theorem ext2_read_errors_iff {n : ℕ} (hn : n < 4294967296) (buf : Mem) :
    (∀ res, ext2Read fs inode buf n offset = some res → res.r ≠ 0 →
      res.r = transferred (ext2Transfers fs inode n offset) ∧
        res.buf = replay (ext2Transfers fs inode n offset) 0 buf) ∧
    (CountsOnly fs inode buf n offset (·.ok = true) ↔
      ¬ fs.Buffered ∨ ∀ p ∈ ext2Reach fs inode n offset, BlockRead fs p.2) ∧
    (CountsOnly fs inode buf n offset (fun t => t.ok = true ∧ ∀ b ∈ t.via, BlockRead fs b) ↔
      ¬ fs.Buffered ∨
        ∀ p ∈ ext2Reach fs inode n offset, BlockRead fs p.2 ∧ ∀ b ∈ p.1, BlockRead fs b) := by
  refine ⟨fun res hres h0 => ?_, ?_, ?_⟩
  · have hbuf : fs.Buffered := by
      by_contra hnull
      exact h0 (ext2Read_none hnull hn hres).1
    rw [ext2Read_some hbuf, Option.some.injEq] at hres
    rw [← hres]
    exact readFile_replay fs inode buf hn offset
  · rw [countsOnly_iff hn, countedBlocks_iff (fun x => x.2.2 = true) hn]
    simp only [flagged, decide_eq_true_iff]
  · rw [countsOnly_iff hn, countedBlocks_iff (fun x => x.2.2 = true ∧ ∀ b ∈ x.1, BlockRead fs b) hn]
    simp only [flagged, decide_eq_true_iff]

end Reach

/-- A device that reads the sectors before `good` and no others. -/
def partFs (good : ℕ) : Ext2Fs :=
  { sampleFs with
    dev := {
      blockSize := 512
      disk := fun _ => 1
      done := fun sector count => if sector + count ≤ good then count else 0 }
    sector_eq := rfl }

/-- A file of four bytes in block 1. -/
def fourBytes : Ext2Inode := ⟨0x8000, 4, fun i => if i = 0 then 1 else 0, 0, 0⟩

theorem ext2_read_errors_good :
    (∃ res, ext2Read (partFs 4) fourBytes (fun _ => 0) 4 0 = some res ∧ res.r = 4) ∧
    CountsOnly (partFs 4) fourBytes (fun _ => 0) 4 0 (·.ok = true) := by
  have hreach : ext2Reach (partFs 4) fourBytes 4 0 = [([], 1)] := by decide +kernel
  refine ⟨⟨_, ext2Read_some (by decide) _ _ _ _, by decide +kernel⟩,
    (ext2_read_errors_iff (by norm_num) fun _ => 0).2.1.2 (Or.inr ?_)⟩
  rw [hreach]
  decide

/-- With no sector read, four bytes are counted all the same. -/
theorem ext2_read_counts_failed :
    (∃ res, ext2Read (partFs 0) fourBytes (fun _ => 0) 4 0 = some res ∧ res.r = 4) ∧
    ¬ ∀ (fs : Ext2Fs) (inode : Ext2Inode) (buf : Mem) (n offset : ℕ), n < 4294967296 →
      CountsOnly fs inode buf n offset (·.ok = true) := by
  refine ⟨⟨_, ext2Read_some (by decide) _ _ _ _, by decide +kernel⟩, fun h => ?_⟩
  have hall := (ext2_read_errors_iff (by norm_num) fun _ => 0).2.1.1
    (h (partFs 0) fourBytes (fun _ => 0) 4 0 (by norm_num))
  have hreach : ext2Reach (partFs 0) fourBytes 4 0 = [([], 1)] := by decide +kernel
  rw [hreach] at hall
  exact absurd hall (by decide)

end DepthOS
