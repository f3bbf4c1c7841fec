import DepthOS.Sanity.Ext2
import DepthOS.Sanity.Ext2Buffered

/-! `ext2_read` on a file whose blocks are allocated: the three ranges put
together, which bytes arrive and exactly how many. A block that `kmalloc` has no buffer
for cannot be read at all. -/

namespace DepthOS

open Lib

section Ranges

variable {fs : Ext2Fs} {inode : Ext2Inode}

theorem blockMap_direct {i : ℕ} (hi : i < 12) : ext2BlockMap fs inode i = inode.dblocks i := by
  unfold ext2BlockMap
  rw [if_pos hi]

theorem blockMap_single {i : ℕ} (hi : i < fs.idblocksCount) :
    ext2BlockMap fs inode (12 + i) = fs.pointer inode.singleIdblockPtr i := by
  unfold ext2BlockMap
  rw [if_neg (by omega), if_pos (by omega), Nat.add_sub_cancel_left]

theorem blockMap_double (i : ℕ) :
    ext2BlockMap fs inode (12 + fs.idblocksCount + i) =
      doubleMap fs inode.doubleIdblockPtr i := by
  unfold ext2BlockMap doubleMap
  rw [if_neg (by omega), if_neg (by omega), Nat.add_assoc, Nat.add_sub_cancel_left,
    Nat.add_sub_cancel_left]

theorem fileByte_direct {x : ℕ} (hx : x < 12 * fs.blockSize) :
    mapByte fs inode.dblocks x = fileByte fs inode x :=
  mapByte_congr (blockMap_direct (Nat.div_lt_of_lt_mul (by rwa [Nat.mul_comm]))).symm

theorem fileByte_single {x : ℕ} (hx : x < fs.idblocksCount * fs.blockSize) :
    mapByte fs (fs.pointer inode.singleIdblockPtr) x =
      fileByte fs inode (12 * fs.blockSize + x) := by
  rw [fileByte, ← mapByte_shift]
  exact mapByte_congr (blockMap_single (Nat.div_lt_of_lt_mul (by rwa [Nat.mul_comm]))).symm

theorem fileByte_double (x : ℕ) :
    mapByte fs (doubleMap fs inode.doubleIdblockPtr) x =
      fileByte fs inode ((12 + fs.idblocksCount) * fs.blockSize + x) := by
  rw [fileByte, ← mapByte_shift]
  exact mapByte_congr (blockMap_double _).symm

variable (fs inode) in
/-- Byte `x` of the file lies in an allocated block that can be read, and so do the pointers on
the way to it. -/
structure ByteOk (x : ℕ) : Prop where
  lt : x < (12 + fs.idblocksCount + fs.idblocksCount * fs.idblocksCount) * fs.blockSize
  data : BlockGood fs (ext2BlockMap fs inode (x / fs.blockSize))
  single : 12 * fs.blockSize ≤ x → x < (12 + fs.idblocksCount) * fs.blockSize →
    BlockGood fs inode.singleIdblockPtr
  double : (12 + fs.idblocksCount) * fs.blockSize ≤ x → BlockGood fs inode.doubleIdblockPtr ∧
    BlockGood fs (fs.pointer inode.doubleIdblockPtr
      ((x / fs.blockSize - 12 - fs.idblocksCount) / fs.idblocksCount))

variable (fs inode) in
/-- No byte of a read lies in a hole. -/
def Ext2Covered (offset nbytes : ℕ) : Prop :=
  ∀ x, offset ≤ x → x < offset + nbytes → ByteOk fs inode x

theorem Ext2Covered.mono {offset nbytes offset' nbytes' : ℕ}
    (h : Ext2Covered fs inode offset nbytes) (hle : offset ≤ offset')
    (hend : offset' + nbytes' ≤ offset + nbytes) : Ext2Covered fs inode offset' nbytes' :=
  fun x hx hlt => h x (hle.trans hx) (hlt.trans_le hend)

theorem ByteOk.doubleOk {x : ℕ} (h : ByteOk fs inode ((12 + fs.idblocksCount) * fs.blockSize + x)) :
    DoubleOk fs inode.doubleIdblockPtr x := by
  have hdiv : ((12 + fs.idblocksCount) * fs.blockSize + x) / fs.blockSize =
      12 + fs.idblocksCount + x / fs.blockSize := by
    rw [Nat.mul_comm, Nat.mul_add_div fs.blockSize_pos]
  have hdata := h.data
  have hptr := (h.double (Nat.le_add_right _ _)).2
  rw [hdiv, blockMap_double] at hdata
  rw [hdiv, Nat.add_assoc, Nat.add_sub_cancel_left, Nat.add_sub_cancel_left] at hptr
  exact ⟨hptr, hdata⟩

variable {pos offset nbytes : ℕ}

theorem readDirect_file {left : Mem} (hcov : Ext2Covered fs inode offset nbytes)
    (hoff : offset < 12 * fs.blockSize) (hn : nbytes < 4294967296) (buf : Mem) :
    readDirect fs left inode.dblocks 12 offset buf pos nbytes =
      (min nbytes (12 * fs.blockSize - offset),
        blit buf pos (fun k => fileByte fs inode (offset + k))
          (min nbytes (12 * fs.blockSize - offset))) := by
  rw [readDirect_spec hn hoff]
  · refine congrArg (Prod.mk _) (blit_congr fun k hk => fileByte_direct ?_)
    omega
  · intro x h1 h2 hx
    rw [← blockMap_direct (Nat.div_lt_of_lt_mul (by rwa [Nat.mul_comm]))]
    exact (hcov x h1 h2).data

theorem readSingle_file {left : Mem × Mem}
    (hcov : Ext2Covered fs inode (12 * fs.blockSize + offset) nbytes)
    (hoff : offset < fs.idblocksCount * fs.blockSize) (hpos : 0 < nbytes)
    (hn : nbytes < 4294967296) (buf : Mem) :
    readSingle fs left inode.singleIdblockPtr offset buf pos nbytes =
      (min nbytes (fs.idblocksCount * fs.blockSize - offset),
        blit buf pos (fun k => fileByte fs inode (12 * fs.blockSize + offset + k))
          (min nbytes (fs.idblocksCount * fs.blockSize - offset))) := by
  have hsingle : BlockGood fs inode.singleIdblockPtr := by
    refine (hcov _ le_rfl (by omega)).single (by omega) ?_
    rw [Nat.add_mul]
    omega
  rw [readSingle_spec _ _ _ hn hsingle hoff]
  · refine congrArg (Prod.mk _) (blit_congr fun k hk => ?_)
    rw [fileByte_single (by omega), Nat.add_assoc]
  · intro x h1 h2 hx
    rw [← blockMap_single (Nat.div_lt_of_lt_mul (by rwa [Nat.mul_comm]))]
    have hdata := (hcov (12 * fs.blockSize + x) (by omega) (by omega)).data
    rwa [Nat.mul_comm 12, Nat.mul_add_div fs.blockSize_pos] at hdata

theorem readDouble_file {left : Mem} {lefts : ℕ → Mem × Mem}
    (hcov : Ext2Covered fs inode ((12 + fs.idblocksCount) * fs.blockSize + offset) nbytes)
    (hpos : 0 < nbytes)
    (hend : (12 + fs.idblocksCount) * fs.blockSize + offset + nbytes < 4294967296) (buf : Mem) :
    readDouble fs left lefts inode.doubleIdblockPtr offset buf pos nbytes =
      (nbytes, blit buf pos (fun k => fileByte fs inode
        ((12 + fs.idblocksCount) * fs.blockSize + offset + k)) nbytes) := by
  have hlast := (hcov ((12 + fs.idblocksCount) * fs.blockSize + offset + (nbytes - 1))
    (by omega) (by omega)).lt
  rw [Nat.add_mul _ (fs.idblocksCount * fs.idblocksCount)] at hlast
  have hdouble := ((hcov _ le_rfl (by omega)).double (Nat.le_add_right _ _)).1
  rw [readDouble_spec hdouble (by omega) (by omega) (by omega)]
  · refine congrArg (Prod.mk _) (blit_congr fun k hk => ?_)
    rw [fileByte_double, Nat.add_assoc]
  · intro x h1 h2
    exact (hcov _ (by omega) (by omega)).doubleOk

end Ranges

/-- How many bytes `ext2_read` delivers of a file of size `size`: all that is there,
except that a read from the direct range through the single indirect one stops
there when what is done equals what was left before it. -/
def ext2ReadLen (fs : Ext2Fs) (size offset n : ℕ) : ℕ :=
  let want := min n (size - offset)
  let d := 12 * fs.blockSize - offset
  let e := min (want - d) (fs.idblocksCount * fs.blockSize)
  if offset < 12 * fs.blockSize ∧ d < want ∧ d + e = want - d then d + e else want

theorem ext2ReadLen_le (fs : Ext2Fs) (size offset n : ℕ) :
    ext2ReadLen fs size offset n ≤ min n (size - offset) := by
  unfold ext2ReadLen
  dsimp only
  split_ifs <;> omega

section Inode

variable {fs : Ext2Fs} {inode : Ext2Inode} {left : Leftovers} {pos offset nbytes r x : ℕ}

theorem inodeDouble_done (blockOffset : ℕ) (buf : Mem) (hr : r < 4294967296) :
    inodeDouble fs left inode blockOffset offset buf pos 0 r = (r, buf) := by
  unfold inodeDouble readDouble
  dsimp only
  rw [doubleLoop_done]
  dsimp only
  rw [Nat.add_zero, u32_of_lt hr, ite_self]

/-- A file with a double indirect range has small blocks, so their number does not
overflow. -/
theorem idblocks_small (h : (12 + fs.idblocksCount) * fs.blockSize < 4294967296) :
    fs.idblocksCount < 32768 := by
  have h4 := fs.four_idblocks
  rw [← h4] at h
  by_contra hge
  have hmul : 32768 * (4 * 32768) ≤ (12 + fs.idblocksCount) * (4 * fs.idblocksCount) :=
    Nat.mul_le_mul (by omega) (by omega)
  omega

theorem inodeDouble_spec {blockOffset : ℕ}
    (hb : blockOffset < 12 + fs.idblocksCount + fs.idblocksCount * fs.idblocksCount)
    (hcov : Ext2Covered fs inode ((12 + fs.idblocksCount) * fs.blockSize + offset) nbytes)
    (hpos : 0 < nbytes)
    (hend : (12 + fs.idblocksCount) * fs.blockSize + offset + nbytes < 4294967296)
    (hr : r + nbytes < 4294967296) (buf : Mem) :
    inodeDouble fs left inode blockOffset offset buf pos nbytes r =
      (r + nbytes, blit buf pos (fun k => fileByte fs inode
        ((12 + fs.idblocksCount) * fs.blockSize + offset + k)) nbytes) := by
  have hN : fs.idblocksCount < 32768 := idblocks_small (by omega)
  have hNN : fs.idblocksCount * fs.idblocksCount ≤ 32768 * 32768 :=
    Nat.mul_le_mul hN.le hN.le
  have hd := ((hcov _ le_rfl (by omega)).double (Nat.le_add_right _ _)).1.1
  unfold inodeDouble
  simp only [EXT2_INODE_DBLOCKS_COUNT]
  rw [u32_of_lt (by omega), if_pos ⟨hb, hd⟩, readDouble_file hcov hpos hend]
  dsimp only
  rw [u32_of_lt hr]

theorem inodeSingle_single {blockOffset : ℕ}
    (hb : blockOffset < 12 + fs.idblocksCount)
    (hcov : Ext2Covered fs inode (12 * fs.blockSize + offset) nbytes)
    (hoff : offset < fs.idblocksCount * fs.blockSize) (hpos : 0 < nbytes)
    (hend : 12 * fs.blockSize + offset + nbytes < 4294967296)
    (hr : r + nbytes < 4294967296) {q : ℕ}
    (hq : q = if r + min nbytes (fs.idblocksCount * fs.blockSize - offset) = nbytes then
      min nbytes (fs.idblocksCount * fs.blockSize - offset) else nbytes) (buf : Mem) :
    inodeSingle fs left inode blockOffset offset buf pos nbytes r =
      (r + q, blit buf pos (fun k => fileByte fs inode (12 * fs.blockSize + offset + k)) q) := by
  have hN := fs.idblocks_pos
  have h4 := fs.four_idblocks
  have hle := fs.blockSize_le
  have hs : inode.singleIdblockPtr ≠ 0 := by
    refine ((hcov _ le_rfl (by omega)).single (by omega) ?_).1
    rw [Nat.add_mul]
    omega
  unfold inodeSingle
  simp only [EXT2_INODE_DBLOCKS_COUNT]
  rw [u32_of_lt (by omega), if_pos ⟨hb, hs⟩, readSingle_file hcov hoff hpos (by omega)]
  dsimp only
  generalize hdr : min nbytes (fs.idblocksCount * fs.blockSize - offset) = dr at hq ⊢
  rw [u32_of_lt (by omega)]
  by_cases hhit : r + dr = nbytes
  · rw [if_pos hhit] at hq ⊢
    rw [hq]
  rw [if_neg hhit] at hq ⊢
  rw [sub32_small (by omega) (by omega), hq]
  rcases Nat.eq_or_lt_of_le (show dr ≤ nbytes by omega) with hdone | hmore
  · rw [hdone, Nat.sub_self, inodeDouble_done _ _ hr]
  · have hstart : (12 + fs.idblocksCount) * fs.blockSize = 12 * fs.blockSize + offset + dr := by
      rw [Nat.add_mul]
      omega
    rw [inodeDouble_spec (by omega) (hcov.mono (by omega) (by omega)) (by omega) (by omega)
      (by omega), Nat.add_zero, blit_stretch _ _ _ hstart.symm, Nat.add_assoc,
      Nat.add_sub_cancel' hmore.le]

theorem inodeSingle_past {blockOffset : ℕ}
    (hb : blockOffset < 12 + fs.idblocksCount + fs.idblocksCount * fs.idblocksCount)
    (hb' : 12 + fs.idblocksCount ≤ blockOffset)
    (hcov : Ext2Covered fs inode (12 * fs.blockSize + offset) nbytes)
    (hoff : fs.idblocksCount * fs.blockSize ≤ offset) (hpos : 0 < nbytes)
    (hend : 12 * fs.blockSize + offset + nbytes < 4294967296)
    (hr : r + nbytes < 4294967296) (buf : Mem) :
    inodeSingle fs left inode blockOffset offset buf pos nbytes r =
      (r + nbytes,
        blit buf pos (fun k => fileByte fs inode (12 * fs.blockSize + offset + k)) nbytes) := by
  have h4 := fs.four_idblocks
  have hle := fs.blockSize_le
  have hstart : (12 + fs.idblocksCount) * fs.blockSize + (offset - fs.idblocksCount * fs.blockSize) =
      12 * fs.blockSize + offset := by
    rw [Nat.add_mul]
    omega
  unfold inodeSingle
  simp only [EXT2_INODE_DBLOCKS_COUNT]
  rw [u32_of_lt (show 12 + fs.idblocksCount < _ by omega), if_neg (by omega), u32_of_lt (by omega),
    sub32_small hoff (by omega), inodeDouble_spec hb (hstart ▸ hcov) hpos (by omega) hr,
    hstart]

theorem inodeSingle_done (blockOffset : ℕ) (buf : Mem) :
    inodeSingle fs left inode blockOffset offset buf pos 0 0 = (0, buf) := by
  have hind : readSingle fs left.single inode.singleIdblockPtr offset buf pos 0 = (0, buf) :=
    directLoop_full _ _ _ _ _ (by norm_num)
  unfold inodeSingle
  dsimp only
  rw [hind, inodeDouble_done _ _ (by norm_num)]
  exact ite_self _

theorem clamp_eq {size n : ℕ} (hsize : offset < size) (hs : size < 4294967296)
    (hn : offset + n < 4294967296) :
    (if u32 (offset + n) > size then sub32 size offset else n) = min n (size - offset) := by
  rw [u32_of_lt hn]
  split_ifs with h
  · rw [sub32_small hsize.le (by omega)]
    omega
  · omega

theorem inodeSingle_spec (hoff : 12 * fs.blockSize ≤ offset)
    {want : ℕ} (hcov : Ext2Covered fs inode offset want) (hend : offset + want < 4294967296)
    (buf : Mem) :
    inodeSingle fs left inode (offset / fs.blockSize) (offset - 12 * fs.blockSize) buf 0 want 0 =
      (want, blit buf 0 (fun k => fileByte fs inode (offset + k)) want) := by
  have hbs := fs.blockSize_pos
  rcases Nat.eq_zero_or_pos want with h0 | hpos
  · rw [h0, blit_zero]
    exact inodeSingle_done _ _
  have hstart : 12 * fs.blockSize + (offset - 12 * fs.blockSize) = offset :=
    Nat.add_sub_cancel' hoff
  have hbytes : (fun k => fileByte fs inode (12 * fs.blockSize + (offset - 12 * fs.blockSize) + k)) =
      fun k => fileByte fs inode (offset + k) := by
    rw [hstart]
  have hcov' : Ext2Covered fs inode (12 * fs.blockSize + (offset - 12 * fs.blockSize)) want := by
    rwa [hstart]
  have hblock : offset / fs.blockSize <
      12 + fs.idblocksCount + fs.idblocksCount * fs.idblocksCount :=
    (Nat.div_lt_iff_lt_mul hbs).2 (hcov offset le_rfl (by omega)).lt
  by_cases hsingle : offset / fs.blockSize < 12 + fs.idblocksCount
  · have hlt : offset < (12 + fs.idblocksCount) * fs.blockSize :=
      (Nat.div_lt_iff_lt_mul hbs).1 hsingle
    rw [Nat.add_mul] at hlt
    rw [inodeSingle_single (q := want) hsingle hcov' (by omega) hpos (by omega)
      (by omega) (by split_ifs <;> omega), hbytes, Nat.zero_add]
  · have hge : (12 + fs.idblocksCount) * fs.blockSize ≤ offset := by
      rw [Nat.div_lt_iff_lt_mul hbs] at hsingle
      omega
    rw [Nat.add_mul] at hge
    rw [inodeSingle_past hblock (by omega) hcov' (by omega) hpos (by omega) (by omega),
      hbytes, Nat.zero_add]

variable (left) in
theorem inodeSingle_rest {d want q : ℕ}
    (hd : offset + d = 12 * fs.blockSize) (hpos : 0 < d) (hmore : d < want)
    (hcov : Ext2Covered fs inode offset want) (hend : offset + want < 4294967296)
    (hq : q = if d + min (want - d) (fs.idblocksCount * fs.blockSize) = want - d then
      min (want - d) (fs.idblocksCount * fs.blockSize) else want - d) (buf : Mem) :
    inodeSingle fs left inode (offset / fs.blockSize) 0 buf d (want - d) d =
      (d + q, blit buf d (fun k => fileByte fs inode (12 * fs.blockSize + k)) q) := by
  have hbs := fs.blockSize_pos
  have hN := Nat.mul_pos fs.idblocks_pos hbs
  have hdir : offset / fs.blockSize < 12 := (Nat.div_lt_iff_lt_mul hbs).2 (by omega)
  rw [inodeSingle_single (by omega) (hcov.mono (by omega) (by omega)) hN (by omega)
    (by omega) (by omega) rfl, hq, Nat.add_zero, Nat.sub_zero]

theorem ext2ReadLen_want {size n want : ℕ} (hw : min n (size - offset) = want)
    (h : offset < 12 * fs.blockSize → want ≤ 12 * fs.blockSize - offset) :
    ext2ReadLen fs size offset n = want := by
  unfold ext2ReadLen
  dsimp only
  rw [hw, if_neg (by omega)]

theorem ext2ReadLen_rest {size n want : ℕ} (hw : min n (size - offset) = want)
    (hoff : offset < 12 * fs.blockSize) (hmore : 12 * fs.blockSize - offset < want) :
    ext2ReadLen fs size offset n = 12 * fs.blockSize - offset +
      if 12 * fs.blockSize - offset + min (want - (12 * fs.blockSize - offset))
        (fs.idblocksCount * fs.blockSize) = want - (12 * fs.blockSize - offset) then
        min (want - (12 * fs.blockSize - offset)) (fs.idblocksCount * fs.blockSize)
      else want - (12 * fs.blockSize - offset) := by
  unfold ext2ReadLen
  dsimp only
  rw [hw]
  split_ifs <;> omega

theorem readData_covered (hS : inode.sizeLo < 4294967296)
    {n : ℕ} (hn : offset + n < 4294967296)
    (hcov : Ext2Covered fs inode offset (min n (inode.sizeLo - offset))) (buf : Mem) :
    readData fs inode offset buf n =
      (ext2ReadLen fs inode.sizeLo offset n,
        blit buf 0 (fun k => fileByte fs inode (offset + k))
          (ext2ReadLen fs inode.sizeLo offset n)) := by
  have hbs := fs.blockSize_pos
  have hle := fs.blockSize_le
  unfold readData ext2InodeSize
  by_cases hend : inode.sizeLo ≤ offset
  · have h0 : ext2ReadLen fs inode.sizeLo offset n = 0 := by
      have := ext2ReadLen_le fs inode.sizeLo offset n
      omega
    rw [h0, blit_zero, if_pos hend]
  rw [if_neg hend]
  simp only [EXT2_INODE_DBLOCKS_COUNT]
  rw [clamp_eq (by omega) hS hn]
  generalize hw : min n (inode.sizeLo - offset) = want at hcov
  by_cases hdir : offset / fs.blockSize < 12
  · have hoff : offset < 12 * fs.blockSize := (Nat.div_lt_iff_lt_mul hbs).1 hdir
    rw [if_pos hdir, readDirect_file hcov hoff (by omega)]
    dsimp only
    by_cases hall : want ≤ 12 * fs.blockSize - offset
    · rw [Nat.min_eq_left hall, if_pos rfl, ext2ReadLen_want hw (by omega)]
    · have hleft := Nat.add_sub_cancel' hoff.le
      have hrest := inodeSingle_rest (fs.fresh 0) hleft (by omega)
        (not_le.1 hall) hcov (by omega) rfl
      rw [Nat.min_eq_right (by omega), if_neg (by omega), sub32_small (by omega) (by omega),
        hrest, ext2ReadLen_rest hw hoff (by omega), ← blit_stretch _ _ _ hleft, Nat.zero_add]
  · have hoff : 12 * fs.blockSize ≤ offset := by
      rw [Nat.div_lt_iff_lt_mul hbs] at hdir
      omega
    rw [if_neg hdir, u32_of_lt (by omega), sub32_small hoff (by omega),
      ext2ReadLen_want hw (by omega)]
    exact inodeSingle_spec hoff hcov (by omega) buf

theorem Ext2Allocated.refresh (hal : Ext2Allocated fs inode) (fresh : ℕ → Leftovers) :
    Ext2Allocated (fs.refresh fresh) inode :=
  ⟨hal.size_lt, hal.size_le, hal.data, hal.single, hal.double, hal.doubles⟩

theorem Ext2Allocated.covered (hal : Ext2Allocated fs inode) (hdev : fs.dev.ReadsSucceed)
    (hend : offset + nbytes ≤ inode.sizeLo) : Ext2Covered fs inode offset nbytes := by
  intro x _ hx
  have hdm := Nat.div_mul_le_self x fs.blockSize
  refine ⟨by have := hal.size_le; omega, (hal.data _ (by omega)).good hdev,
    fun hge _ => (hal.single (by omega)).good hdev,
    fun hge => ⟨(hal.double (by omega)).good hdev, (hal.doubles _ ?_).good hdev⟩⟩
  -- the pointer block starts no later than the byte
  have hblock : 12 + fs.idblocksCount ≤ x / fs.blockSize :=
    (Nat.le_div_iff_mul_le fs.blockSize_pos).2 hge
  have htable := Nat.div_mul_le_self (x / fs.blockSize - 12 - fs.idblocksCount) fs.idblocksCount
  refine (Nat.mul_le_mul_right fs.blockSize ?_).trans_lt (hdm.trans_lt (by omega))
  omega

theorem readData_spec (hdev : fs.dev.ReadsSucceed) (hal : Ext2Allocated fs inode) {n : ℕ}
    (hn : offset + n < 4294967296) (buf : Mem) :
    readData fs inode offset buf n =
      (ext2ReadLen fs inode.sizeLo offset n,
        blit buf 0 (fun k => fileByte fs inode (offset + k))
          (ext2ReadLen fs inode.sizeLo offset n)) := by
  have hS := hal.size_lt
  by_cases hend : offset ≤ inode.sizeLo
  · exact readData_covered (by omega) hn (hal.covered hdev (by omega)) buf
  · exact readData_covered (by omega) hn (fun x h1 h2 => by omega) buf

end Inode

section Faults

variable {fs : Ext2Fs} {inode : Ext2Inode} {offset n : ℕ}

theorem Ext2Allocated.mapped (hal : Ext2Allocated fs inode) : Ext2Mapped fs inode := by
  refine ⟨hal.size_lt, hal.size_le, fun i hi b hb => ?_⟩
  have hdata := (hal.data i hi).1
  have hle : 12 ≤ i → 12 * fs.blockSize ≤ i * fs.blockSize := Nat.mul_le_mul_right _
  unfold ext2BlockMap at hdata
  unfold blockPath at hb
  dsimp only at hdata hb
  split_ifs at hdata hb with hdir hsingle hdouble
  · rw [List.mem_singleton.1 hb]
    exact hdata
  · simp only [List.mem_cons, List.not_mem_nil, or_false] at hb
    rcases hb with rfl | rfl
    · exact (hal.single (by omega)).1
    · exact hdata
  · have hge : (12 + fs.idblocksCount) * fs.blockSize ≤ i * fs.blockSize :=
      Nat.mul_le_mul_right _ (by omega)
    have htable : (12 + fs.idblocksCount + (i - 12 - fs.idblocksCount) / fs.idblocksCount *
        fs.idblocksCount) * fs.blockSize ≤ i * fs.blockSize := by
      have := Nat.div_mul_le_self (i - 12 - fs.idblocksCount) fs.idblocksCount
      exact Nat.mul_le_mul_right _ (by omega)
    simp only [List.mem_cons, List.not_mem_nil, or_false] at hb
    rcases hb with rfl | rfl | rfl
    · exact (hal.double (by omega)).1
    · exact (hal.doubles _ (by omega)).1
    · exact hdata
  · have hge : (12 + fs.idblocksCount + fs.idblocksCount * fs.idblocksCount) * fs.blockSize ≤
        i * fs.blockSize := Nat.mul_le_mul_right _ (by omega)
    have := hal.size_le
    omega

theorem ext2ReadBlock_faults (hdev : fs.dev.ReadsSucceed) (block : ℕ) :
    ext2ReadBlock fs none block = none := by
  have hs := fs.blockSize_eq
  have hpow := Nat.two_pow_pos fs.logBlockSize
  have hsectors : ceilDiv fs.blockSize fs.dev.blockSize ≠ 0 := by
    rw [fs.sector_eq, ceilDiv]
    omega
  have hdone : ∀ sector count, fs.dev.done sector count = count := hdev
  unfold ext2ReadBlock Device.readTo
  dsimp only
  rw [hdone, Nat.min_self, if_neg hsectors]
  rfl

variable (h : ¬ fs.Buffered) (hdev : fs.dev.ReadsSucceed)

include h hdev

theorem ext2SyncDirectBlocks_faults (left : Mem) (blocks : ℕ → Option ℕ) {nblocks b : ℕ}
    (hlt : offset / fs.blockSize < nblocks) (hb : blocks (offset / fs.blockSize) = some b)
    (h0 : b ≠ 0) (buf : Mem) (pos nbytes : ℕ) :
    ext2SyncDirectBlocks fs left blocks nblocks offset buf pos nbytes false = none := by
  obtain ⟨fuel, hfuel⟩ : ∃ fuel, nblocks - offset / fs.blockSize = fuel + 1 :=
    ⟨nblocks - offset / fs.blockSize - 1, by omega⟩
  unfold ext2SyncDirectBlocks
  dsimp only
  rw [kmallocBlock_none h, hfuel, syncDirectLoop, if_pos (Nat.zero_le _), hb, Option.bind_some,
    if_neg h0, if_neg Bool.false_ne_true, ext2ReadBlock_faults hdev]
  rfl

theorem ext2SyncIndirectBlocks_faults (left : Mem × Mem) (p : ℕ) (buf : Mem) (pos nbytes : ℕ) :
    ext2SyncIndirectBlocks fs left p offset buf pos nbytes false = none := by
  unfold ext2SyncIndirectBlocks
  rw [kmallocBlock_none h, ext2ReadBlock_faults hdev]
  rfl

theorem ext2SyncDoublyIndirectBlocks_faults (left : Mem) (lefts : ℕ → Mem × Mem) (p : ℕ)
    (buf : Mem) (pos nbytes : ℕ) :
    ext2SyncDoublyIndirectBlocks fs left lefts p offset buf pos nbytes false = none := by
  unfold ext2SyncDoublyIndirectBlocks
  rw [kmallocBlock_none h, ext2ReadBlock_faults hdev]
  rfl

theorem ext2Read_faults (hmap : Ext2Mapped fs inode) (hoff : offset < inode.sizeLo) (buf : Mem)
    (n : ℕ) : ext2Read fs inode buf n offset = none := by
  have hbs := fs.blockSize_pos
  have hle := fs.blockSize_le
  have h4 := fs.four_idblocks
  have hS := hmap.size_lt
  have hpath := hmap.mapped (offset / fs.blockSize)
    ((Nat.div_mul_le_self _ _).trans_lt hoff)
  have hlast : offset / fs.blockSize <
      12 + fs.idblocksCount + fs.idblocksCount * fs.idblocksCount :=
    (Nat.div_lt_iff_lt_mul hbs).2 (hoff.trans_le hmap.size_le)
  unfold blockPath at hpath
  dsimp only at hpath
  unfold ext2Read ext2SyncInodeData
  dsimp only
  rw [if_neg (fun hend => absurd hend.2 (Nat.not_le.2 hoff))]
  by_cases hdir : offset / fs.blockSize < 12
  · rw [if_pos hdir] at hpath
    have hfault : ∀ want, ext2SyncDirectBlocks fs (fs.fresh 0).direct
        (fun i => some (inode.dblocks i)) EXT2_INODE_DBLOCKS_COUNT offset buf 0 want false = none :=
      ext2SyncDirectBlocks_faults h hdev _ (fun i => some (inode.dblocks i)) hdir rfl
        (hpath _ (List.mem_singleton_self _)) buf 0
    rw [if_pos hdir, hfault]
    rfl
  rw [if_neg hdir] at hpath ⊢
  unfold syncInodeIndirect
  dsimp only
  rw [u32_of_lt (show EXT2_INODE_DBLOCKS_COUNT + fs.idblocksCount < 4294967296 by
    unfold EXT2_INODE_DBLOCKS_COUNT; omega)]
  by_cases hsingle : offset / fs.blockSize < 12 + fs.idblocksCount
  · rw [if_pos hsingle] at hpath
    rw [if_pos ⟨hsingle, hpath _ List.mem_cons_self⟩, ext2SyncIndirectBlocks_faults h hdev]
    rfl
  · rw [if_neg hsingle, if_pos hlast] at hpath
    have hge : (12 + fs.idblocksCount) * fs.blockSize ≤ offset :=
      (Nat.le_div_iff_mul_le hbs).1 (by omega)
    have hN : fs.idblocksCount < 32768 := idblocks_small (by omega)
    have hNN := Nat.mul_le_mul hN.le hN.le
    rw [if_neg (fun hin => hsingle hin.1)]
    unfold syncInodeDoubly
    dsimp only
    have hwrap : u32 (EXT2_INODE_DBLOCKS_COUNT + fs.idblocksCount +
        fs.idblocksCount * fs.idblocksCount) = 12 + fs.idblocksCount +
          fs.idblocksCount * fs.idblocksCount :=
      u32_of_lt (by unfold EXT2_INODE_DBLOCKS_COUNT; omega)
    rw [hwrap, if_pos ⟨hlast, hpath _ List.mem_cons_self⟩,
      ext2SyncDoublyIndirectBlocks_faults h hdev]
    rfl

end Faults

section Exact

variable {fs : Ext2Fs} {inode : Ext2Inode} {offset n : ℕ}

/-- `ext2_read` returns, with bytes of the file in `buf`, in order and at their place, as many as
it says. -/
def ReadsExactly (fs : Ext2Fs) (inode : Ext2Inode) (buf : Mem) (n offset : ℕ) : Prop :=
  ∃ x, ext2Read fs inode buf n offset = some x ∧ x.r ≤ n ∧
    (∀ k, x.buf k = if k < x.r then fileByte fs inode (offset + k) else buf k) ∧
    x.offset = offset + x.r

theorem readFile_exact (hdev : fs.dev.ReadsSucceed) (hal : Ext2Allocated fs inode)
    (hn : offset + n < 4294967296) (buf : Mem) :
    (readFile fs inode buf n offset).r ≤ n ∧
    (∀ k, (readFile fs inode buf n offset).buf k =
      if k < (readFile fs inode buf n offset).r then fileByte fs inode (offset + k) else buf k) ∧
    (readFile fs inode buf n offset).offset = offset + (readFile fs inode buf n offset).r := by
  have hle := ext2ReadLen_le fs inode.sizeLo offset n
  unfold readFile
  rw [readData_spec hdev hal hn]
  dsimp only
  refine ⟨by omega, fun k => ?_, u32_of_lt (by omega)⟩
  unfold blit
  rw [Nat.zero_add, Nat.sub_zero]
  exact if_congr (by omega) rfl rfl

theorem ext2Read_end (fs : Ext2Fs) (hend : inode.sizeLo ≤ offset) (buf : Mem) (n : ℕ) :
    ext2Read fs inode buf n offset =
      some ⟨0, buf, u32 offset, u32 (offset + n) == ext2InodeSize inode⟩ := by
  unfold ext2Read ext2SyncInodeData
  dsimp only
  rw [if_pos ⟨rfl, hend⟩]
  rfl

/-- On allocated files a read is exact where there are block buffers, or nothing to read. -/
theorem ext2_read_exact_iff (hdev : fs.dev.ReadsSucceed) (hal : Ext2Allocated fs inode)
    (hn : offset + n < 4294967296) (buf : Mem) :
    ReadsExactly fs inode buf n offset ↔ fs.Buffered ∨ inode.sizeLo ≤ offset := by
  constructor
  · rintro ⟨x, hx, -⟩
    by_contra hnot
    rw [not_or, not_le] at hnot
    rw [ext2Read_faults hnot.1 hdev hal.mapped hnot.2] at hx
    cases hx
  · rintro (hbuf | hend)
    · exact ⟨_, ext2Read_some hbuf inode buf n offset, readFile_exact hdev hal hn buf⟩
    · refine ⟨_, ext2Read_end fs hend buf n, Nat.zero_le n, fun k => ?_, ?_⟩
      · exact (if_neg (Nat.not_lt_zero k)).symm
      · exact u32_of_lt (by omega)

end Exact

/-- A volume with 1 KiB blocks; block 50 is a pointer block that names block 51. -/
def sampleFs : Ext2Fs where
  dev := {
    blockSize := 512
    disk := fun x => if x = 51200 then 51 else if x < 51204 then 0 else BitVec.ofNat 8 x
    done := fun _ count => count }
  sector_eq := rfl
  logBlockSize := 0
  log_le := Nat.zero_le _
  inodesPerBlkGroup := 32
  inodeSize := 512
  inodeSize_eq := rfl
  inodeTableAddr := fun _ => 4
  fresh := fun _ => Leftovers.all fun _ => 0

/-- Thirteen blocks, the last one behind the single indirect pointer. -/
def sampleInode : Ext2Inode := ⟨0x8000, 13312, fun i => i + 1, 50, 0⟩

theorem sample_allocated : Ext2Allocated sampleFs sampleInode := by
  have hbs : sampleFs.blockSize = 1024 := rfl
  have hN : sampleFs.idblocksCount = 256 := rfl
  constructor
  · decide
  · decide
  · intro i hi
    rw [hbs] at hi
    have hi' : i < 12 ∨ i = 12 := by
      change i * 1024 < 13312 at hi
      omega
    rcases hi' with h | rfl
    · rw [blockMap_direct h]
      change i + 1 ≠ 0 ∧ (i + 1) * 1024 < 4294967296
      omega
    · rw [blockMap_single (i := 0) (by decide)]
      exact ⟨by decide, by decide⟩
  · exact fun _ => ⟨by decide, by decide⟩
  · exact fun h => absurd h (by decide)
  · intro j h
    rw [hbs, hN] at h
    change _ < 13312 at h
    omega

/-- Four bytes across the end of the direct range. -/
theorem ext2_read_exact_across : ReadsExactly sampleFs sampleInode (fun _ => 0) 4 12286 :=
  (ext2_read_exact_iff (fun _ _ => rfl) sample_allocated (by norm_num) _).2 (Or.inl (by decide))

/-- A volume with blocks of 64 KiB. -/
def bigFs : Ext2Fs := { sampleFs with logBlockSize := 6, log_le := by decide }

/-- A file of one byte. -/
def byteInode : Ext2Inode := ⟨0x8000, 1, fun i => if i = 0 then 1 else 0, 0, 0⟩

theorem byte_allocated : Ext2Allocated bigFs byteInode := by
  have hbs : bigFs.blockSize = 65536 := rfl
  have hN : bigFs.idblocksCount = 16384 := rfl
  have hsize : byteInode.sizeLo = 1 := rfl
  refine ⟨by decide, by decide, fun i hi => ?_, fun h => absurd h (by decide),
    fun h => absurd h (by decide), fun j h => ?_⟩
  · rw [hbs, hsize] at hi
    obtain rfl : i = 0 := by omega
    exact ⟨by decide, by decide⟩
  · rw [hbs, hN, hsize] at h
    omega

/-- It cannot be read: the block would go to NULL. -/
theorem ext2_read_null : ¬ ∀ (fs : Ext2Fs) (inode : Ext2Inode) (buf : Mem) (n offset : ℕ),
    fs.dev.ReadsSucceed → Ext2Allocated fs inode → offset + n < 4294967296 →
      ReadsExactly fs inode buf n offset := by
  intro h
  have hexact := h bigFs byteInode (fun _ => 0) 1 0 (fun _ _ => rfl) byte_allocated (by norm_num)
  rw [ext2_read_exact_iff (fun _ _ => rfl) byte_allocated (by norm_num)] at hexact
  exact absurd hexact (by decide)

end DepthOS
