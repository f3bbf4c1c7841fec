import DepthOS.Sanity.Ext2Buffered

/-! How many bytes `ext2_read` delivers, whatever the block maps and the device are. A
loop passes over the blocks that are missing and takes the next ones, so what a range
delivers is what its allocated blocks hold together, up to what is asked for. Between the
single and the double range the code may stop before that. -/

namespace DepthOS

open Lib

/-- Word `i` of the pointer block `b`, as the indirect ranges find it in a buffer that held
`left`. -/
def readPointer (fs : Ext2Fs) (left : Mem) (b i : ℕ) : ℕ := load32 (readBlock fs left b).1 (4 * i)

/-- The bytes that the allocated ones of `nblocks` blocks hold from `offset` on. -/
def blocksSupply (fs : Ext2Fs) (blocks : ℕ → ℕ) (nblocks offset : ℕ) : ℕ :=
  (List.range' (offset / fs.blockSize) (nblocks - offset / fs.blockSize)).countP
    (fun i => blocks i ≠ 0) * fs.blockSize - offset % fs.blockSize

def indirectSupply (fs : Ext2Fs) (left : Mem) (pointerBlock offset : ℕ) : ℕ :=
  blocksSupply fs (readPointer fs left pointerBlock) fs.idblocksCount offset

/-- The bytes below `fuel` pointer blocks from `i` on, the first one from `offset` on. -/
def tablesSupply (fs : Ext2Fs) (lefts : ℕ → Mem × Mem) (table : ℕ → ℕ) : (fuel i offset : ℕ) → ℕ
  | 0, _, _ => 0
  | fuel + 1, i, offset =>
    indirectSupply fs (lefts i).1 (table i) offset + tablesSupply fs lefts table fuel (i + 1) 0

def doublySupply (fs : Ext2Fs) (left : Mem) (lefts : ℕ → Mem × Mem) (pointerBlock offset : ℕ) : ℕ :=
  let idx := offset / fs.blockSize / fs.idblocksCount
  if readPointer fs left pointerBlock idx = 0 then 0
  else tablesSupply fs lefts (readPointer fs left pointerBlock) (fs.idblocksCount - idx) idx
    (sub32 offset (u32 (idx * fs.idblocksCount * fs.blockSize)))

/-- `c` more bytes have arrived at `pos`, after `r`, and nothing behind them has changed. -/
def Brings (buf : Mem) (pos r c : ℕ) (res : ℕ × Mem) : Prop :=
  res.1 = r + c ∧ ∀ x, pos + c ≤ x → res.2 x = buf x

theorem brings_zero (buf : Mem) (pos r : ℕ) : Brings buf pos r 0 (r, buf) := ⟨rfl, fun _ _ => rfl⟩

theorem brings_blit (buf : Mem) (pos r n : ℕ) (src : ℕ → Byte) :
    Brings buf pos r n (r + n, blit buf pos src n) := by
  refine ⟨rfl, fun x hx => ?_⟩
  dsimp only
  exact blit_other (Or.inr hx)

theorem Brings.trans {buf buf1 : Mem} {pos r c c' r1 : ℕ} {res : ℕ × Mem}
    (h : Brings buf pos r c (r1, buf1)) (h' : Brings buf1 (pos + c) (r + c) c' res) :
    Brings buf pos r (c + c') res := by
  refine ⟨?_, fun x hx => ?_⟩
  · rw [h'.1, Nat.add_assoc]
  · rw [h'.2 x (by omega)]
    exact h.2 x (by omega)

theorem Brings.follow {buf buf1 : Mem} {c c' r1 : ℕ} {res : ℕ × Mem}
    (h : Brings buf 0 0 c (r1, buf1)) (h' : Brings buf1 c c c' res) :
    Brings buf 0 0 (c + c') res := by
  refine h.trans ?_
  rwa [Nat.zero_add]

theorem Brings.count {buf : Mem} {pos r c c' : ℕ} {res : ℕ × Mem} (h : Brings buf pos r c res)
    (hc : c = c') : Brings buf pos r c' res := hc ▸ h

section Ranges

variable (fs : Ext2Fs) {nbytes : ℕ}

/-- The loop at block `i`, with `r` bytes done and the next block read from `byteOffset` on. -/
theorem directLoop_brings (blocks : ℕ → ℕ) (pos : ℕ) (hn : nbytes < 4294967296) :
    ∀ (fuel i r byteOffset : ℕ) (blockbuf buf : Mem), r ≤ nbytes → byteOffset < fs.blockSize →
      Brings buf (pos + r) r (min (nbytes - r) ((List.range' i fuel).countP
        (fun i => blocks i ≠ 0) * fs.blockSize - byteOffset))
        (directLoop fs blocks pos nbytes fuel i r byteOffset blockbuf buf) := by
  have hle := fs.blockSize_le
  have hbs := fs.blockSize_pos
  intro fuel
  induction fuel with
  | zero =>
    intro i r byteOffset blockbuf buf _ _
    refine (brings_zero buf (pos + r) r).count ?_
    rw [List.range'_zero, List.countP_nil]
    omega
  | succ fuel ih =>
    intro i r byteOffset blockbuf buf hr hbo
    rw [directLoop, if_pos hr, List.range'_succ, List.countP_cons]
    by_cases h0 : blocks i = 0
    · rw [if_pos h0]
      refine (ih (i + 1) r byteOffset blockbuf buf hr hbo).count ?_
      simp only [h0, ne_eq, not_true_eq_false, decide_false, Bool.false_eq_true, if_false,
        Nat.add_zero]
    · rw [if_neg h0]
      dsimp only
      rw [sub32_small hr hn, sub32_small hbo.le (by omega), u32_of_lt (by omega)]
      generalize hbt : min (nbytes - r) (fs.blockSize - byteOffset) = bytes
      have hone := brings_blit buf (pos + r) r bytes
        fun k => (readBlock fs blockbuf (blocks i)).1 (byteOffset + k)
      refine (hone.trans (Nat.add_assoc pos r bytes ▸
        ih (i + 1) (r + bytes) 0 _ _ (by omega) hbs)).count ?_
      simp only [h0, ne_eq, not_false_eq_true, decide_true, if_true]
      rw [Nat.add_mul, Nat.one_mul]
      omega

theorem readDirect_brings (left : Mem) (blocks : ℕ → ℕ) (nblocks offset : ℕ) (buf : Mem) (pos : ℕ)
    (hn : nbytes < 4294967296) :
    Brings buf pos 0 (min nbytes (blocksSupply fs blocks nblocks offset))
      (readDirect fs left blocks nblocks offset buf pos nbytes) :=
  directLoop_brings fs blocks pos hn _ _ 0 _ _ buf (Nat.zero_le _)
    (Nat.mod_lt _ fs.blockSize_pos)

theorem readSingle_brings (left : Mem × Mem) (pointerBlock offset : ℕ) (buf : Mem) (pos : ℕ)
    (hn : nbytes < 4294967296) :
    Brings buf pos 0 (min nbytes (indirectSupply fs left.1 pointerBlock offset))
      (readSingle fs left pointerBlock offset buf pos nbytes) :=
  readDirect_brings fs _ _ _ offset buf pos hn

theorem doubleLoop_brings (lefts : ℕ → Mem × Mem) (idbuf : Mem) {idx : ℕ}
    (hidx : load32 idbuf (4 * idx) ≠ 0) :
    ∀ (fuel i offset pos nbytes r : ℕ) (buf : Mem), r + nbytes < 4294967296 →
      Brings buf pos r (min nbytes (tablesSupply fs lefts (fun i => load32 idbuf (4 * i)) fuel i
        offset))
        (doubleLoop fs lefts idbuf idx fuel i offset pos nbytes r buf) := by
  intro fuel
  induction fuel with
  | zero =>
    intro i offset pos nbytes r buf _
    exact (brings_zero buf pos r).count (Nat.min_zero _).symm
  | succ fuel ih =>
    intro i offset pos nbytes r buf hr
    rw [doubleLoop]
    split_ifs with hpos
    · obtain ⟨hdr, hsame⟩ := readSingle_brings fs (lefts i) (load32 idbuf (4 * i)) offset buf pos
        (show nbytes < 4294967296 by omega)
      rw [Nat.zero_add] at hdr
      dsimp only
      rw [hdr, sub32_small (Nat.min_le_left _ _) (by omega), u32_of_lt (by omega)]
      have hone : Brings buf pos r
          (min nbytes (indirectSupply fs (lefts i).1 (load32 idbuf (4 * i)) offset))
          (r + min nbytes (indirectSupply fs (lefts i).1 (load32 idbuf (4 * i)) offset),
            (readSingle fs (lefts i) (load32 idbuf (4 * i)) offset buf pos nbytes).2) :=
        ⟨rfl, hsame⟩
      refine (hone.trans (ih _ _ _ _ _ _ (by omega))).count ?_
      rw [tablesSupply]
      omega
    · refine (brings_zero buf pos r).count ?_
      omega

theorem readDouble_brings (left : Mem) (lefts : ℕ → Mem × Mem) (pointerBlock offset : ℕ)
    (buf : Mem) (pos : ℕ)
    (hn : nbytes < 4294967296) :
    Brings buf pos 0 (min nbytes (doublySupply fs left lefts pointerBlock offset))
      (readDouble fs left lefts pointerBlock offset buf pos nbytes) := by
  unfold readDouble doublySupply
  dsimp only
  generalize offset / fs.blockSize / fs.idblocksCount = idx
  by_cases h0 : readPointer fs left pointerBlock idx = 0
  · rw [if_pos h0, Nat.min_zero]
    unfold readPointer at h0
    rcases fs.idblocksCount - idx with _ | fuel
    · exact brings_zero buf pos 0
    · rw [doubleLoop, if_pos h0, ite_self]
      exact brings_zero buf pos 0
  · rw [if_neg h0]
    exact doubleLoop_brings fs _ _ h0 _ _ _ _ _ _ _ (by omega)

end Ranges

/-! The three ranges of an inode. -/

section Inode

variable (fs : Ext2Fs) (inode : Ext2Inode)

/-- The read passes through the single indirect range. -/
def InSingle (offset : ℕ) : Prop :=
  offset / fs.blockSize < u32 (EXT2_INODE_DBLOCKS_COUNT + fs.idblocksCount) ∧
    inode.singleIdblockPtr ≠ 0

instance (offset : ℕ) : Decidable (InSingle fs inode offset) :=
  inferInstanceAs (Decidable (_ ∧ _))

def InDouble (offset : ℕ) : Prop :=
  offset / fs.blockSize < u32 (EXT2_INODE_DBLOCKS_COUNT + fs.idblocksCount +
    fs.idblocksCount * fs.idblocksCount) ∧ inode.doubleIdblockPtr ≠ 0

instance (offset : ℕ) : Decidable (InDouble fs inode offset) :=
  inferInstanceAs (Decidable (_ ∧ _))

/-- Where the read starts, counted from the single range. -/
def singleOffset (offset : ℕ) : ℕ :=
  if offset / fs.blockSize < EXT2_INODE_DBLOCKS_COUNT then 0
  else sub32 offset (u32 (EXT2_INODE_DBLOCKS_COUNT * fs.blockSize))

def doubleOffset (offset : ℕ) : ℕ :=
  if InSingle fs inode offset then 0
  else sub32 (singleOffset fs offset) (u32 (fs.idblocksCount * fs.blockSize))

def supplyDirect (offset : ℕ) : ℕ :=
  if offset / fs.blockSize < EXT2_INODE_DBLOCKS_COUNT then
    blocksSupply fs inode.dblocks EXT2_INODE_DBLOCKS_COUNT offset
  else 0

def supplySingle (offset : ℕ) : ℕ :=
  if InSingle fs inode offset then
    indirectSupply fs (fs.fresh 0).single.1 inode.singleIdblockPtr (singleOffset fs offset)
  else 0

def supplyDouble (offset : ℕ) : ℕ :=
  if InDouble fs inode offset then
    doublySupply fs (fs.fresh 0).double (fs.fresh 0).rounds inode.doubleIdblockPtr
      (doubleOffset fs inode offset)
  else 0

/-- The bytes that the block maps hold from `offset` on. -/
def ext2Supply (offset : ℕ) : ℕ :=
  supplyDirect fs inode offset + supplySingle fs inode offset + supplyDouble fs inode offset

/-- With both ranges done, what is done equals what was left before the second one. -/
def StopsEarly (offset want : ℕ) : Prop :=
  InSingle fs inode offset ∧ 0 < supplyDirect fs inode offset ∧
    want = 2 * supplyDirect fs inode offset + supplySingle fs inode offset

instance (offset want : ℕ) : Decidable (StopsEarly fs inode offset want) :=
  inferInstanceAs (Decidable (_ ∧ _))

variable {fs inode} {left : Leftovers} {nbytes r pos off offset want : ℕ}

theorem inodeDouble_brings (buf : Mem) (hr : r + nbytes < 4294967296) :
    Brings buf pos r (min nbytes (if InDouble fs inode offset then
        doublySupply fs left.double left.rounds inode.doubleIdblockPtr off else 0))
      (inodeDouble fs left inode (offset / fs.blockSize) off buf pos nbytes r) := by
  unfold inodeDouble
  dsimp only
  by_cases hin : InDouble fs inode offset
  · rw [if_pos hin, if_pos (show _ ∧ _ from hin)]
    obtain ⟨hdr, hsame⟩ := readDouble_brings fs left.double left.rounds
      inode.doubleIdblockPtr off buf pos (show nbytes < 4294967296 by omega)
    rw [Nat.zero_add] at hdr
    rw [hdr, u32_of_lt (by omega)]
    exact ⟨rfl, hsame⟩
  · rw [if_neg hin, if_neg (show ¬ (_ ∧ _) from hin)]
    exact (brings_zero buf pos r).count (Nat.min_zero _).symm

theorem inodeSingle_brings_in (buf : Mem) (hr : r + nbytes < 4294967296)
    (hin : InSingle fs inode offset) :
    Brings buf pos r
      (if r + min nbytes (indirectSupply fs left.single.1 inode.singleIdblockPtr off) = nbytes then
          min nbytes (indirectSupply fs left.single.1 inode.singleIdblockPtr off)
        else min nbytes (indirectSupply fs left.single.1 inode.singleIdblockPtr off +
          if InDouble fs inode offset then doublySupply fs left.double left.rounds
            inode.doubleIdblockPtr 0 else 0))
      (inodeSingle fs left inode (offset / fs.blockSize) off buf pos nbytes r) := by
  unfold inodeSingle
  dsimp only
  rw [if_pos (show _ ∧ _ from hin)]
  obtain ⟨hdr, hsame⟩ := readSingle_brings fs left.single inode.singleIdblockPtr off buf pos
    (show nbytes < 4294967296 by omega)
  rw [Nat.zero_add] at hdr
  rw [hdr]
  generalize hs : indirectSupply fs left.single.1 inode.singleIdblockPtr off = supply at hdr hsame ⊢
  rw [u32_of_lt (by omega)]
  have hone : Brings buf pos r (min nbytes supply) (r + min nbytes supply,
      (readSingle fs left.single inode.singleIdblockPtr off buf pos nbytes).2) :=
    ⟨rfl, hsame⟩
  by_cases hstop : r + min nbytes supply = nbytes
  · rw [if_pos hstop, if_pos hstop]
    exact hone
  · rw [if_neg hstop, if_neg hstop, sub32_small (Nat.min_le_left _ _) (by omega)]
    refine (hone.trans (inodeDouble_brings _ (by omega))).count ?_
    omega

theorem inodeSingle_brings_out (buf : Mem) (hr : r + nbytes < 4294967296)
    (hout : ¬ InSingle fs inode offset) :
    Brings buf pos r (min nbytes (if InDouble fs inode offset then
        doublySupply fs left.double left.rounds inode.doubleIdblockPtr
          (sub32 off (u32 (fs.idblocksCount * fs.blockSize))) else 0))
      (inodeSingle fs left inode (offset / fs.blockSize) off buf pos nbytes r) := by
  unfold inodeSingle
  dsimp only
  rw [if_neg (show ¬ (_ ∧ _) from hout)]
  exact inodeDouble_brings buf hr

theorem inodeSingle_brings (buf : Mem) {d : ℕ} (hd : d = supplyDirect fs inode offset)
    (hlt : d < want ∨ d = 0) (hw : want < 4294967296) :
    Brings buf pos d
      (if StopsEarly fs inode offset want then supplySingle fs inode offset
        else min (want - d) (supplySingle fs inode offset + supplyDouble fs inode offset))
      (inodeSingle fs (fs.fresh 0) inode (offset / fs.blockSize) (singleOffset fs offset) buf pos
        (want - d) d) := by
  have hsum : d + (want - d) < 4294967296 := by omega
  by_cases hin : InSingle fs inode offset
  · refine (inodeSingle_brings_in buf hsum hin).count ?_
    unfold StopsEarly supplyDouble supplySingle doubleOffset
    simp only [hin, true_and, if_true, ← hd]
    -- both tests are about the same sums
    split_ifs <;> omega
  · refine (inodeSingle_brings_out buf hsum hin).count ?_
    unfold StopsEarly supplyDouble supplySingle doubleOffset
    simp only [hin, false_and, if_false, Nat.zero_add]

variable (fs inode) in
/-- What the read of `want` bytes delivers. -/
def ext2Delivered (offset want : ℕ) : ℕ :=
  if StopsEarly fs inode offset want then
    supplyDirect fs inode offset + supplySingle fs inode offset
  else min want (ext2Supply fs inode offset)

theorem ext2Delivered_le : ext2Delivered fs inode offset want ≤ want := by
  unfold ext2Delivered
  split_ifs with hstop
  · obtain ⟨-, -, hwant⟩ := hstop
    omega
  · exact Nat.min_le_left _ _

/-- `want` is what the call wants after it has cut it at the end of the file. -/
theorem readData_brings {n : ℕ} (hoff : offset < ext2InodeSize inode)
    (hwant : (if u32 (offset + n) > ext2InodeSize inode then sub32 (ext2InodeSize inode) offset
      else n) = want) (hw : want < 4294967296) (buf : Mem) :
    Brings buf 0 0 (ext2Delivered fs inode offset want)
      (readData fs inode offset buf n) := by
  unfold readData
  dsimp only
  rw [if_neg (Nat.not_le.2 hoff), hwant]
  by_cases hdir : offset / fs.blockSize < EXT2_INODE_DBLOCKS_COUNT
  · have hsup : supplyDirect fs inode offset =
        blocksSupply fs inode.dblocks EXT2_INODE_DBLOCKS_COUNT offset := if_pos hdir
    obtain ⟨hr, hsame⟩ := readDirect_brings fs (fs.fresh 0).direct inode.dblocks
      EXT2_INODE_DBLOCKS_COUNT
      offset buf 0 hw
    rw [← hsup, Nat.zero_add] at hr hsame
    rw [if_pos hdir, hr]
    generalize (readDirect fs (fs.fresh 0).direct inode.dblocks EXT2_INODE_DBLOCKS_COUNT offset buf 0
      want).2 = buf1 at hsame ⊢
    by_cases hfull : want ≤ supplyDirect fs inode offset
    · -- all of it lies in the direct range
      rw [Nat.min_eq_left hfull] at hsame
      rw [Nat.min_eq_left hfull, if_pos rfl]
      have hall : Brings buf 0 0 want (want, buf1) :=
        ⟨(Nat.zero_add want).symm, fun x hx => hsame x (Nat.zero_add want ▸ hx)⟩
      refine hall.count ?_
      unfold ext2Delivered ext2Supply
      split_ifs with hstop
      · obtain ⟨-, hpos, hsum⟩ := hstop
        omega
      · omega
    · rw [Nat.min_eq_right (by omega)] at hsame
      rw [Nat.min_eq_right (by omega), if_neg (by omega), sub32_small (by omega) hw]
      generalize hd : supplyDirect fs inode offset = d at hsame hfull ⊢
      have hone : Brings buf 0 0 d (d, buf1) :=
        ⟨(Nat.zero_add d).symm, fun x hx => hsame x (Nat.zero_add d ▸ hx)⟩
      have hzero : singleOffset fs offset = 0 := if_pos hdir
      have hrest : Brings buf1 d d _ _ :=
        inodeSingle_brings buf1 hd.symm (Or.inl (by omega)) hw
      rw [hzero] at hrest
      refine (hone.follow hrest).count ?_
      unfold ext2Delivered ext2Supply
      split_ifs <;> omega
  · have hsup : supplyDirect fs inode offset = 0 := if_neg hdir
    have hstart : singleOffset fs offset =
        sub32 offset (u32 (EXT2_INODE_DBLOCKS_COUNT * fs.blockSize)) := if_neg hdir
    rw [if_neg hdir, ← hstart]
    have hrest : Brings buf 0 0 _ _ :=
      inodeSingle_brings buf hsup.symm (Or.inr rfl) hw
    refine hrest.count ?_
    unfold ext2Delivered ext2Supply
    rw [hsup]
    split_ifs <;> omega

theorem cut_le {size n : ℕ} (hoff : offset < size) :
    (if u32 (offset + n) > size then sub32 size offset else n) ≤ n := by
  split_ifs with hcut
  · have hmod := Nat.mod_le (offset + n) 4294967296
    have hlt : u32 (offset + n) < 4294967296 := Nat.mod_lt _ (by norm_num)
    simp only [u32] at hcut hlt hmod
    rw [sub32_small (by omega) (by omega)]
    omega
  · exact le_rfl

theorem readFile_le (buf : Mem) {n : ℕ} (hn : n < 4294967296) :
    (readFile fs inode buf n offset).r ≤ n := by
  change (readData fs inode offset buf n).1 ≤ n
  by_cases hend : offset < ext2InodeSize inode
  · have hle := cut_le (n := n) hend
    rw [(readData_brings hend rfl (by omega) buf).1, Nat.zero_add]
    exact ext2Delivered_le.trans hle
  · unfold readData
    dsimp only
    rw [if_pos (by omega)]
    exact Nat.zero_le _

theorem ext2Read_le (buf : Mem) {n : ℕ} {x : Ext2ReadResult}
    (h : ext2Read fs inode buf n offset = some x) (hn : n < 4294967296) : x.r ≤ n := by
  by_cases hbuf : fs.Buffered
  · rw [ext2Read_some hbuf] at h
    rw [← Option.some.inj h]
    exact readFile_le buf hn
  · rw [(ext2Read_none hbuf hn h).1]
    exact Nat.zero_le n

end Inode

end DepthOS
