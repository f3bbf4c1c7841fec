import DepthOS.Proofs.Ext2Complete

/-! Files with holes. A block number 0, or a pointer block that is missing, stands for
zeros. The loops pass over it without moving on in the buffer, so every byte behind the
hole arrives too early. The triple indirect range is not read at all. -/

namespace DepthOS

open Lib

section Holes

variable (fs : Ext2Fs) (inode : Ext2Inode)

/-- Some pointer on the way to byte `x` of the file is 0. -/
def Hole (x : ℕ) : Prop :=
  let i := x / fs.blockSize
  let n := fs.idblocksCount
  if i < 12 then inode.dblocks i = 0
  else if i < 12 + n then
    inode.singleIdblockPtr = 0 ∨ fs.pointer inode.singleIdblockPtr (i - 12) = 0
  else
    inode.doubleIdblockPtr = 0 ∨ fs.pointer inode.doubleIdblockPtr ((i - 12 - n) / n) = 0 ∨
      fs.pointer (fs.pointer inode.doubleIdblockPtr ((i - 12 - n) / n)) ((i - 12 - n) % n) = 0

instance (x : ℕ) : Decidable (Hole fs inode x) :=
  inferInstanceAs (Decidable (ite _ _ _))

/-- Byte `x` of a file with holes. -/
def sparseByte (x : ℕ) : Byte := if Hole fs inode x then 0 else fileByte fs inode x

/-- A read of `n` bytes returns with each of them at its place. -/
def ReadsSparse (offset n : ℕ) (buf : Mem) : Prop :=
  ∃ x, ext2Read fs inode buf n offset = some x ∧
    ∀ k < n, x.buf k = sparseByte fs inode (offset + k)

/-- The block numbers that the loops take data from. -/
def DataBlock (b : ℕ) : Prop :=
  let left := fs.fresh 0
  b ≠ 0 ∧ ((∃ i, b = inode.dblocks i) ∨
    (∃ i, b = readPointer fs left.single.1 inode.singleIdblockPtr i) ∨
    ∃ j i, b = readPointer fs (left.rounds j).1
      (readPointer fs left.double inode.doubleIdblockPtr j) i)

/-- What is read from block `b` has no zero byte in it. -/
def BlockNonzero (b : ℕ) : Prop :=
  ∀ buf k, k < fs.blockSize → (readBlock fs buf b).1 k ≠ 0

variable {fs inode}

theorem ByteOk.not_hole {x : ℕ} (h : ByteOk fs inode x) : ¬ Hole fs inode x := by
  have hdata := h.data.1
  unfold ext2BlockMap at hdata
  unfold Hole
  dsimp only at hdata ⊢
  split_ifs at hdata ⊢ with hdir hsingle
  · exact hdata
  · have hlo : 12 * fs.blockSize ≤ x := (Nat.le_div_iff_mul_le fs.blockSize_pos).1 (by omega)
    have hhi : x < (12 + fs.idblocksCount) * fs.blockSize :=
      (Nat.div_lt_iff_lt_mul fs.blockSize_pos).1 hsingle
    exact not_or.2 ⟨(h.single hlo hhi).1, hdata⟩
  · have hlo : (12 + fs.idblocksCount) * fs.blockSize ≤ x :=
      (Nat.le_div_iff_mul_le fs.blockSize_pos).1 (by omega)
    obtain ⟨hdouble, htable⟩ := h.double hlo
    exact not_or.2 ⟨hdouble.1, not_or.2 ⟨htable.1, hdata⟩⟩

theorem ByteOk.sparseByte {x : ℕ} (h : ByteOk fs inode x) :
    sparseByte fs inode x = fileByte fs inode x := if_neg h.not_hole

/-! Nothing but data comes into the buffer. -/

def Nonzero (buf : Mem) : Prop := ∀ x, buf x ≠ 0

theorem Nonzero.blit {buf : Mem} (h : Nonzero buf) {pos n : ℕ} {src : ℕ → Byte}
    (hsrc : ∀ k < n, src k ≠ 0) : Nonzero (blit buf pos src n) := by
  intro x
  unfold Lib.blit
  split_ifs with hx
  · exact hsrc _ (by omega)
  · exact h x

theorem directLoop_nonzero {blocks : ℕ → ℕ}
    (hdata : ∀ i, blocks i ≠ 0 → BlockNonzero fs (blocks i)) (pos nbytes : ℕ)
    (hn : nbytes < 4294967296) :
    ∀ (fuel i r byteOffset : ℕ) (blockbuf buf : Mem), r ≤ nbytes → byteOffset < fs.blockSize →
      Nonzero buf →
      Nonzero (directLoop fs blocks pos nbytes fuel i r byteOffset blockbuf buf).2 := by
  have hle := fs.blockSize_le
  intro fuel
  induction fuel with
  | zero => exact fun _ _ _ _ _ _ _ h => h
  | succ fuel ih =>
    intro i r byteOffset blockbuf buf hr hbo h
    rw [directLoop, if_pos hr]
    by_cases h0 : blocks i = 0
    · rw [if_pos h0]
      exact ih _ _ _ _ _ hr hbo h
    · rw [if_neg h0]
      dsimp only
      rw [sub32_small hr hn, sub32_small hbo.le (by omega), u32_of_lt (by omega)]
      refine ih _ _ _ _ _ (by omega) fs.blockSize_pos (h.blit fun k hk => ?_)
      exact hdata i h0 _ _ (by omega)

theorem readDirect_nonzero (left : Mem) {blocks : ℕ → ℕ}
    (hdata : ∀ i, blocks i ≠ 0 → BlockNonzero fs (blocks i)) (nblocks offset : ℕ) {buf : Mem}
    (pos : ℕ) {nbytes : ℕ} (hn : nbytes < 4294967296) (h : Nonzero buf) :
    Nonzero (readDirect fs left blocks nblocks offset buf pos nbytes).2 :=
  directLoop_nonzero hdata pos nbytes hn _ _ _ _ _ _ (Nat.zero_le _)
    (Nat.mod_lt _ fs.blockSize_pos) h

theorem doubleLoop_nonzero {lefts : ℕ → Mem × Mem} {idbuf : Mem} (hdata : ∀ j i,
      readPointer fs (lefts j).1 (load32 idbuf (4 * j)) i ≠ 0 →
        BlockNonzero fs (readPointer fs (lefts j).1 (load32 idbuf (4 * j)) i)) (idx : ℕ) :
    ∀ (fuel i offset pos nbytes r : ℕ) (buf : Mem), nbytes < 4294967296 → Nonzero buf →
      Nonzero (doubleLoop fs lefts idbuf idx fuel i offset pos nbytes r buf).2 := by
  intro fuel
  induction fuel with
  | zero => exact fun _ _ _ _ _ _ _ h => h
  | succ fuel ih =>
    intro i offset pos nbytes r buf hn h
    rw [doubleLoop]
    split_ifs
    · exact h
    · exact ih _ _ _ _ _ _ (Nat.mod_lt _ (by norm_num))
        (readDirect_nonzero _ (hdata i) _ _ _ hn h)
    · exact h

section Inode

variable (hdata : ∀ b, DataBlock fs inode b → BlockNonzero fs b) {offset pos nbytes r : ℕ}
  {buf : Mem}

include hdata

theorem inodeDouble_nonzero (blockOffset : ℕ) (hn : nbytes < 4294967296) (h : Nonzero buf) :
    Nonzero (inodeDouble fs (fs.fresh 0) inode blockOffset offset buf pos nbytes r).2 := by
  unfold inodeDouble
  dsimp only
  split_ifs
  · exact doubleLoop_nonzero
      (fun j i h0 => hdata _ ⟨h0, Or.inr (Or.inr ⟨j, i, rfl⟩)⟩) _ _ _ _ _ _ _ _ hn h
  · exact h

theorem inodeSingle_nonzero (blockOffset : ℕ) (hn : nbytes < 4294967296) (h : Nonzero buf) :
    Nonzero (inodeSingle fs (fs.fresh 0) inode blockOffset offset buf pos nbytes r).2 := by
  unfold inodeSingle
  dsimp only
  have hsingle : Nonzero
      (readSingle fs (fs.fresh 0).single inode.singleIdblockPtr offset buf pos nbytes).2 :=
    readDirect_nonzero _ (fun i h0 => hdata _ ⟨h0, Or.inr (Or.inl ⟨i, rfl⟩)⟩) _ _ _ hn h
  split_ifs
  · exact hsingle
  · exact inodeDouble_nonzero hdata _ (Nat.mod_lt _ (by norm_num)) hsingle
  · exact inodeDouble_nonzero hdata _ hn h

theorem readFile_nonzero {n : ℕ} (hn : n < 4294967296) (h : Nonzero buf) :
    Nonzero (readFile fs inode buf n offset).buf := by
  change Nonzero (readData fs inode offset buf n).2
  unfold readData
  dsimp only
  have hcut : (if u32 (offset + n) > ext2InodeSize inode then sub32 (ext2InodeSize inode) offset
      else n) < 4294967296 := by
    split_ifs
    · exact Nat.mod_lt _ (by norm_num)
    · exact hn
  generalize (if u32 (offset + n) > ext2InodeSize inode then sub32 (ext2InodeSize inode) offset
    else n) = want at hcut ⊢
  have hdirect : Nonzero (readDirect fs (fs.fresh 0).direct inode.dblocks
      EXT2_INODE_DBLOCKS_COUNT offset buf 0 want).2 :=
    readDirect_nonzero _ (fun i h0 => hdata _ ⟨h0, Or.inl ⟨i, rfl⟩⟩) _ _ _ hcut h
  split_ifs
  · exact h
  · exact hdirect
  · exact inodeSingle_nonzero hdata _ (Nat.mod_lt _ (by norm_num)) hdirect
  · exact inodeSingle_nonzero hdata _ hcut h

end Inode
variable {offset n : ℕ}

theorem reads_covered (hbuf : fs.Buffered) (hS : inode.sizeLo < 4294967296)
    (hend : offset + n ≤ inode.sizeLo) (hcov : Ext2Covered fs inode offset n)
    (hlen : ¬ (offset < 12 * fs.blockSize ∧
      n = 2 * (12 * fs.blockSize - offset) + fs.idblocksCount * fs.blockSize)) (buf : Mem) :
    ReadsSparse fs inode offset n buf := by
  have hmin : min n (inode.sizeLo - offset) = n := Nat.min_eq_left (by omega)
  have hfull : ext2ReadLen fs inode.sizeLo offset n = n := by
    rw [← hmin] at hlen
    exact (ext2ReadLen_eq_iff.2 hlen).trans hmin
  refine ⟨_, ext2Read_some hbuf inode buf n offset, fun k hk => ?_⟩
  unfold readFile
  rw [readData_covered hS (by omega) (hmin.symm ▸ hcov), hfull]
  dsimp only
  rw [blit_front hk, (hcov (offset + k) (by omega) (by omega)).sparseByte]

theorem hole_not_read (hdata : ∀ b, DataBlock fs inode b → BlockNonzero fs b)
    (hn : n < 4294967296) {buf : Mem} (hnz : Nonzero buf)
    (hhole : ∃ k < n, Hole fs inode (offset + k)) : ¬ ReadsSparse fs inode offset n buf := by
  obtain ⟨k, hk, hz⟩ := hhole
  rintro ⟨x, hx, hbytes⟩
  have hbyte := hbytes k hk
  rw [sparseByte, if_pos hz] at hbyte
  by_cases hbuf : fs.Buffered
  · rw [ext2Read_some hbuf] at hx
    rw [← Option.some.inj hx] at hbyte
    exact readFile_nonzero hdata hn hnz k hbyte
  · rw [(ext2Read_none hbuf hn hx).2.1] at hbyte
    exact hnz k hbyte

theorem reads_all (hS : inode.sizeLo < 4294967296) (hend : offset + n ≤ inode.sizeLo)
    (hpos : 0 < n) (h : ∀ buf, ReadsSparse fs inode offset n buf) :
    fs.Buffered ∧ n ≤ ext2Supply fs inode offset ∧ ¬ StopsEarly fs inode offset n := by
  have hbuf : fs.Buffered := by
    by_contra hbuf
    obtain ⟨x, hx, hbytes⟩ := h fun _ => sparseByte fs inode offset + 1
    have hbad := hbytes 0 hpos
    rw [(ext2Read_none hbuf (by omega) hx).2.1] at hbad
    simp at hbad
  refine ⟨hbuf, ?_⟩
  rw [← ext2Delivered_eq_iff]
  by_contra hless
  have hlt : ext2Delivered fs inode offset n < n :=
    lt_of_le_of_ne ext2Delivered_le hless
  have hmin : min n (inode.sizeLo - offset) = n := Nat.min_eq_left (by omega)
  have hcut := clamp_eq (n := n) (show offset < inode.sizeLo by omega) hS (by omega)
  rw [hmin] at hcut
  obtain ⟨x, hx, hbytes⟩ :=
    h fun _ => sparseByte fs inode (offset + ext2Delivered fs inode offset n) + 1
  rw [ext2Read_some hbuf] at hx
  have hbad := hbytes _ hlt
  rw [← Option.some.inj hx, (readFile_delivers fs (by omega) hcut (by omega) _).2 _ le_rfl] at hbad
  simp at hbad

/-- Reads are right where no block is missing that they need, unless they end between the single
and the double range. A hole makes them wrong, whatever it is in, unless some other byte happens
to be zero; and what is not delivered is never right for every buffer. -/
theorem ext2_holes_read (hS : inode.sizeLo < 4294967296) (hend : offset + n ≤ inode.sizeLo) :
    (offset = inode.sizeLo ∨ fs.Buffered ∧ Ext2Covered fs inode offset n ∧
        ¬ (offset < 12 * fs.blockSize ∧
          n = 2 * (12 * fs.blockSize - offset) + fs.idblocksCount * fs.blockSize) →
      ∀ buf, ReadsSparse fs inode offset n buf) ∧
    ((∀ b, DataBlock fs inode b → BlockNonzero fs b) → (∃ k < n, Hole fs inode (offset + k)) →
      ∀ buf, Nonzero buf → ¬ ReadsSparse fs inode offset n buf) ∧
    (0 < n → (∀ buf, ReadsSparse fs inode offset n buf) →
      fs.Buffered ∧ n ≤ ext2Supply fs inode offset ∧ ¬ StopsEarly fs inode offset n) := by
  refine ⟨fun h buf => ?_, fun hdata hhole buf hnz => ?_, fun hpos h => ?_⟩
  · rcases h with hsize | ⟨hbuf, hcov, hlen⟩
    · exact ⟨_, ext2Read_end fs hsize.ge buf n, fun k hk => absurd hk (by omega)⟩
    · exact reads_covered hbuf hS hend hcov hlen buf
  · exact hole_not_read hdata (by omega) hnz hhole
  · exact reads_all hS hend hpos h

/-- Three blocks of a file, the second one a hole; block 11 holds ones. -/
def holedInode : Ext2Inode :=
  ⟨0x8000, 3072, fun i => if i = 0 then 10 else if i = 2 then 11 else 0, 0, 0⟩

/-- Blocks 10 and 11 hold ones. -/
def onesFs : Ext2Fs := wordFs fun w => if w / 256 = 10 ∨ w / 256 = 11 then 16843009 else 0

theorem ones_byte {b k : ℕ} (hb : b = 10 ∨ b = 11) (hk : k < 1024) (buf : Mem) :
    (readBlock onesFs buf b).1 k = 1 := by
  have hbs : onesFs.blockSize = 1024 := rfl
  have hgood : BlockGood onesFs b := by
    refine ⟨by omega, ?_, le_rfl⟩
    rw [hbs]
    omega
  rw [readBlock_byte hgood buf (by rwa [hbs]), hbs]
  have hword : (b * 1024 + k) / 4 / 256 = b := by omega
  have hbyte : ∀ j < 4, BitVec.ofNat 8 (16843009 >>> (8 * j)) = (1 : Byte) := by decide
  change BitVec.ofNat 8 ((if (b * 1024 + k) / 4 / 256 = 10 ∨ (b * 1024 + k) / 4 / 256 = 11 then
    16843009 else 0) >>> (8 * ((b * 1024 + k) % 4))) = 1
  rw [hword, if_pos hb]
  exact hbyte _ (Nat.mod_lt _ (by norm_num))

/-- A pointer block 0 has no pointers. -/
theorem ones_pointer (i : ℕ) : readPointer onesFs (fun _ => 0) 0 i = 0 := by
  have hzero : ∀ k, (readBlock onesFs (fun _ => 0) 0).1 k = 0 := by
    intro k
    change blit (fun _ => 0) 0 (fun x => onesFs.dev.disk (0 * 512 + x)) (2 * 512) k = 0
    unfold blit
    split_ifs with hk
    · change BitVec.ofNat 8 ((if (0 * 512 + (k - 0)) / 4 / 256 = 10 ∨
        (0 * 512 + (k - 0)) / 4 / 256 = 11 then 16843009 else 0) >>> _) = 0
      rw [if_neg (by omega), Nat.zero_shiftRight]
      rfl
    · rfl
  unfold readPointer load32
  simp only [hzero]
  rfl

/-- Its last block is read as it is, and a read that begins in the hole is wrong. -/
theorem ext2_holes_read_behind :
    (∀ buf, ReadsSparse onesFs holedInode 2048 4 buf) ∧
      ¬ ReadsSparse onesFs holedInode 1024 4 fun _ => 1 := by
  constructor
  · refine (ext2_holes_read (by decide) (by decide)).1
      (Or.inr ⟨by decide, fun x hx hlt => ?_, by decide⟩)
    have hbs : onesFs.blockSize = 1024 := rfl
    have hblock : x / onesFs.blockSize = 2 := by
      rw [hbs]
      omega
    refine ⟨?_, ?_, fun hge => ?_, fun hge => ?_⟩
    · exact hlt.trans (by decide)
    · rw [hblock]
      exact ⟨by decide, by decide, le_rfl⟩
    · rw [hbs] at hge
      omega
    · have : 12 * 1024 ≤ (12 + onesFs.idblocksCount) * 1024 := by decide
      rw [hbs] at hge
      omega
  · refine (ext2_holes_read (by decide) (by decide)).2.1 (fun b hb buf k hk => ?_)
      ⟨0, by decide, by decide⟩ _ fun _ => by decide
    obtain ⟨h0, ⟨i, rfl⟩ | ⟨i, rfl⟩ | ⟨j, i, rfl⟩⟩ := hb
    · rw [ones_byte ?_ hk]
      · decide
      · simp only [holedInode] at h0 ⊢
        split_ifs at h0 ⊢ <;> simp at *
    · exact absurd (ones_pointer i) h0
    · rw [show readPointer onesFs (onesFs.fresh 0).double holedInode.doubleIdblockPtr j = 0 from
        ones_pointer j] at h0
      exact absurd (ones_pointer i) h0

/-- The third block comes to the place of the second. -/
theorem ext2_hole_shifts : ¬ ∀ (fs : Ext2Fs) (inode : Ext2Inode) (offset n : ℕ) (buf : Mem),
    fs.dev.ReadsSucceed → inode.sizeLo < 4294967296 → offset + n ≤ inode.sizeLo →
      ReadsSparse fs inode offset n buf := by
  intro h
  obtain ⟨x, hx, hbytes⟩ := h (wordFs fun w => if w / 256 = 11 then 16843009 else 0) holedInode 0
    3072 (fun _ => 0) (fun _ _ => rfl) (by decide) (by decide)
  rw [ext2Read_some (by decide)] at hx
  have hbyte := hbytes 1024 (by decide)
  rw [← Option.some.inj hx] at hbyte
  exact absurd hbyte (by decide +kernel)

end Holes

end DepthOS
