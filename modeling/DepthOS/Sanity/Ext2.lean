import DepthOS.Spec.Ext2Buffered

/-! Block reads and the three loops of `ext2_sync_*`: on blocks that are allocated and
can be read, each is one copy of a stretch of the file. -/

namespace DepthOS

open Lib

theorem sub32_small {a b : ℕ} (h : b ≤ a) (ha : a < 4294967296) : sub32 a b = a - b := by
  unfold sub32 u32
  omega

section Volume

variable (fs : Ext2Fs)

theorem Ext2Fs.blockSize_eq : fs.blockSize = 1024 * 2 ^ fs.logBlockSize := Nat.shiftLeft_eq _ _

theorem Ext2Fs.blockSize_pos : 0 < fs.blockSize := by
  rw [fs.blockSize_eq]
  positivity

theorem Ext2Fs.blockSize_le : fs.blockSize ≤ 1073741824 := by
  have h := Nat.pow_le_pow_right (show 0 < 2 by norm_num) fs.log_le
  rw [fs.blockSize_eq]
  omega

theorem Ext2Fs.four_idblocks : 4 * fs.idblocksCount = fs.blockSize := by
  unfold Ext2Fs.idblocksCount
  rw [fs.blockSize_eq]
  omega

theorem Ext2Fs.idblocks_pos : 0 < fs.idblocksCount := by
  have h1 := fs.four_idblocks
  have h2 := fs.blockSize_pos
  omega

end Volume

variable {fs : Ext2Fs}

/-- An allocated block that the device delivers, at a byte address of 32 bits. -/
def BlockGood (fs : Ext2Fs) (b : ℕ) : Prop :=
  b ≠ 0 ∧ b * fs.blockSize < 4294967296 ∧ BlockRead fs b

theorem BlockOk.good {b : ℕ} (h : BlockOk fs b) (hdev : fs.dev.ReadsSucceed) : BlockGood fs b :=
  ⟨h.1, h.2, (hdev _ _).ge⟩

theorem readBlock_spec {b : ℕ} (hb : BlockGood fs b) (buf : Mem) :
    (readBlock fs buf b).1 =
      blit buf 0 (fun k => fs.dev.disk (b * fs.blockSize + k)) fs.blockSize := by
  obtain ⟨-, hlt, hread⟩ := hb
  have hs := fs.blockSize_eq
  have hmul : fs.blockSize / 512 * 512 = fs.blockSize := by omega
  have hmod : fs.blockSize % 512 = 0 := by omega
  have hsec : b * fs.blockSize / 512 * 512 = b * fs.blockSize := by
    conv_lhs => rw [← hmul, ← Nat.mul_assoc, Nat.mul_div_cancel _ (by norm_num)]
    rw [Nat.mul_assoc, hmul]
  have hdone : min _ _ = _ := Nat.min_eq_left hread
  unfold ext2BlockRequest at hdone
  unfold readBlock Device.read
  simp only [hdone]
  simp only [fs.sector_eq, u32_of_lt hlt, ceilDiv, hmod, ne_eq, not_true_eq_false, if_false,
    Nat.add_zero, hmul, hsec]

theorem readBlock_byte {b k : ℕ} (hb : BlockGood fs b) (buf : Mem) (hk : k < fs.blockSize) :
    (readBlock fs buf b).1 k = fs.dev.disk (b * fs.blockSize + k) := by
  rw [readBlock_spec hb]
  exact blit_front hk

theorem readBlock_word {b i : ℕ} (hb : BlockGood fs b) (buf : Mem)
    (hi : i < fs.idblocksCount) :
    load32 (readBlock fs buf b).1 (4 * i) = fs.pointer b i := by
  have h := fs.four_idblocks
  rw [readBlock_spec hb, Ext2Fs.pointer]
  exact load32_blit_front (by omega)

theorem mapByte_shift (blocks : ℕ → ℕ) (c x : ℕ) :
    mapByte fs (fun i => blocks (c + i)) x = mapByte fs blocks (c * fs.blockSize + x) := by
  have hpos := fs.blockSize_pos
  unfold mapByte
  rw [Nat.mul_comm c, Nat.mul_add_div hpos, Nat.mul_add_mod]

theorem mapByte_congr {blocks blocks' : ℕ → ℕ} {x : ℕ}
    (h : blocks (x / fs.blockSize) = blocks' (x / fs.blockSize)) :
    mapByte fs blocks x = mapByte fs blocks' x := by
  unfold mapByte
  rw [h]

section Direct

variable {left : Mem} {blocks : ℕ → ℕ} {pos nbytes offset nblocks : ℕ}

theorem directLoop_full : ∀ (fuel i byteOffset : ℕ) (blockbuf buf : Mem),
    nbytes < 4294967296 →
    directLoop fs blocks pos nbytes fuel i nbytes byteOffset blockbuf buf =
      (nbytes, buf) := by
  intro fuel
  induction fuel with
  | zero => exact fun _ _ _ _ _ => rfl
  | succ fuel ih =>
    intro i byteOffset blockbuf buf hn
    have hsub : sub32 nbytes nbytes = 0 := by
      rw [sub32_small le_rfl hn, Nat.sub_self]
    rw [directLoop, if_pos le_rfl]
    by_cases h0 : blocks i = 0
    · rw [if_pos h0]
      exact ih _ _ _ _ hn
    · rw [if_neg h0]
      simp only [hsub, Nat.zero_min, Nat.add_zero, blit_zero,
        u32_of_lt hn]
      exact ih _ _ _ _ hn

/-- The loop with part of the work done: `r` bytes are there, and the next one is in
block `i`. -/
theorem directLoop_spec (pos : ℕ) (hn : nbytes < 4294967296)
    (hall : ∀ x, offset ≤ x → x < offset + nbytes → x < nblocks * fs.blockSize →
      BlockGood fs (blocks (x / fs.blockSize))) :
    ∀ (fuel i r : ℕ) (blockbuf buf : Mem), i + fuel = nblocks → i = (offset + r) / fs.blockSize →
    r < nbytes →
    directLoop fs blocks pos nbytes fuel i r ((offset + r) % fs.blockSize) blockbuf buf =
      (r + min (nbytes - r) (nblocks * fs.blockSize - (offset + r)),
        blit buf (pos + r) (fun k => mapByte fs blocks (offset + r + k))
          (min (nbytes - r) (nblocks * fs.blockSize - (offset + r)))) := by
  have hbs := fs.blockSize_pos
  have hle := fs.blockSize_le
  intro fuel
  induction fuel with
  | zero =>
    intro i r blockbuf buf hi hdiv hr
    have h := Nat.div_mul_le_self (offset + r) fs.blockSize
    have h0 : min (nbytes - r) (nblocks * fs.blockSize - (offset + r)) = 0 := by
      rw [← hi, Nat.add_zero, hdiv]
      omega
    rw [h0, blit_zero]
    rfl
  | succ fuel ih =>
    intro i r blockbuf buf hi hdiv hr
    have hdm := Nat.div_add_mod' (offset + r) fs.blockSize
    have hmod := Nat.mod_lt (offset + r) hbs
    rw [← hdiv] at hdm
    generalize hbo : (offset + r) % fs.blockSize = bo at hdm hmod ⊢
    have hend : (i + 1) * fs.blockSize ≤ nblocks * fs.blockSize :=
      Nat.mul_le_mul_right _ (by omega)
    rw [Nat.succ_mul] at hend
    have hok : BlockGood fs (blocks i) := by
      rw [hdiv]
      exact hall (offset + r) (by omega) (by omega) (by omega)
    rw [directLoop, if_pos hr.le, if_neg hok.1]
    dsimp only
    rw [sub32_small hr.le hn, sub32_small hmod.le (by omega), u32_of_lt (by omega)]
    -- what this round copies is the file from `offset + r` on
    have hcopy : ∀ k < min (nbytes - r) (fs.blockSize - bo),
        (readBlock fs blockbuf (blocks i)).1 (bo + k) =
          mapByte fs blocks (offset + r + k) := by
      intro k hk
      rw [readBlock_byte hok _ (by omega), mapByte, ← hdm, Nat.add_assoc,
        Nat.mul_comm i, Nat.mul_add_div hbs, Nat.mul_add_mod, Nat.div_eq_of_lt (by omega),
        Nat.mod_eq_of_lt (by omega), Nat.add_zero]
    rw [blit_congr hcopy]
    by_cases hfull : nbytes - r ≤ fs.blockSize - bo
    · rw [Nat.min_eq_left hfull, Nat.min_eq_left (by omega), show r + (nbytes - r) = nbytes by omega]
      exact directLoop_full _ _ _ _ _ hn
    · have hnext : offset + (r + (fs.blockSize - bo)) = (i + 1) * fs.blockSize := by
        rw [Nat.succ_mul]
        omega
      rw [Nat.min_eq_right (by omega)]
      have hih := ih (i + 1) (r + (fs.blockSize - bo)) (readBlock fs blockbuf (blocks i)).1
        (blit buf (pos + r) (fun k => mapByte fs blocks (offset + r + k)) (fs.blockSize - bo))
        (by omega) (by rw [hnext, Nat.mul_div_cancel _ hbs]) (by omega)
      rw [hnext, Nat.mul_mod_left] at hih
      have hq : min (nbytes - r) (nblocks * fs.blockSize - (offset + r)) =
          fs.blockSize - bo + min (nbytes - (r + (fs.blockSize - bo)))
            (nblocks * fs.blockSize - (i + 1) * fs.blockSize) := by
        rw [Nat.succ_mul]
        omega
      rw [hih, ← Nat.add_assoc pos, blit_stretch _ _ _ (by omega), hq, Nat.add_assoc]

theorem readDirect_spec (hn : nbytes < 4294967296)
    (hoff : offset < nblocks * fs.blockSize)
    (hall : ∀ x, offset ≤ x → x < offset + nbytes → x < nblocks * fs.blockSize →
      BlockGood fs (blocks (x / fs.blockSize))) (buf : Mem) :
    readDirect fs left blocks nblocks offset buf pos nbytes =
      (min nbytes (nblocks * fs.blockSize - offset),
        blit buf pos (fun k => mapByte fs blocks (offset + k))
          (min nbytes (nblocks * fs.blockSize - offset))) := by
  have hdiv : offset / fs.blockSize < nblocks := Nat.div_lt_of_lt_mul (by rwa [Nat.mul_comm])
  unfold readDirect
  rcases Nat.eq_zero_or_pos nbytes with h0 | h0
  · rw [h0, Nat.zero_min, blit_zero]
    exact directLoop_full _ _ _ _ _ (by norm_num)
  · have h := directLoop_spec pos hn hall (nblocks - offset / fs.blockSize)
      (offset / fs.blockSize) 0 left buf (by omega) rfl h0
    simpa only [Nat.add_zero, Nat.sub_zero, Nat.zero_add] using h

end Direct

section Indirect

variable {lefts : ℕ → Mem × Mem} {p pos nbytes offset : ℕ}

theorem readSingle_spec (left : Mem × Mem) (pos nbytes : ℕ)
    (hn : nbytes < 4294967296) (hp : BlockGood fs p) (hoff : offset < fs.idblocksCount * fs.blockSize)
    (hall : ∀ x, offset ≤ x → x < offset + nbytes → x < fs.idblocksCount * fs.blockSize →
      BlockGood fs (fs.pointer p (x / fs.blockSize))) (buf : Mem) :
    readSingle fs left p offset buf pos nbytes =
      (min nbytes (fs.idblocksCount * fs.blockSize - offset),
        blit buf pos (fun k => mapByte fs (fs.pointer p) (offset + k))
          (min nbytes (fs.idblocksCount * fs.blockSize - offset))) := by
  have hbs := fs.blockSize_pos
  unfold readSingle
  rw [readDirect_spec hn hoff]
  · refine Prod.ext rfl (blit_congr fun k hk => mapByte_congr ?_)
    refine readBlock_word hp _ (Nat.div_lt_of_lt_mul ?_)
    rw [Nat.mul_comm]
    omega
  · intro x h1 h2 hx
    rw [readBlock_word hp _ (Nat.div_lt_of_lt_mul (by rwa [Nat.mul_comm]))]
    exact hall x h1 h2 hx

/-- The double indirect map below the pointer block `d`. -/
def doubleMap (fs : Ext2Fs) (d b : ℕ) : ℕ :=
  fs.pointer (fs.pointer d (b / fs.idblocksCount)) (b % fs.idblocksCount)

theorem doubleMap_at (d i : ℕ) {j : ℕ} (hj : j < fs.idblocksCount) :
    doubleMap fs d (i * fs.idblocksCount + j) = fs.pointer (fs.pointer d i) j := by
  unfold doubleMap
  rw [Nat.mul_comm i, Nat.mul_add_div fs.idblocks_pos, Nat.mul_add_mod, Nat.div_eq_of_lt hj,
    Nat.mod_eq_of_lt hj, Nat.add_zero]

theorem mapByte_double (d i : ℕ) {x : ℕ} (hx : x < fs.idblocksCount * fs.blockSize) :
    mapByte fs (fs.pointer (fs.pointer d i)) x =
      mapByte fs (doubleMap fs d) (i * fs.idblocksCount * fs.blockSize + x) := by
  rw [← mapByte_shift]
  apply mapByte_congr
  rw [doubleMap_at d i (Nat.div_lt_of_lt_mul (by rwa [Nat.mul_comm]))]

theorem doubleTable_at (i : ℕ) {x : ℕ} (hx : x < fs.idblocksCount * fs.blockSize) :
    (i * fs.idblocksCount * fs.blockSize + x) / fs.blockSize / fs.idblocksCount = i := by
  have hpos := Nat.mul_pos fs.idblocks_pos fs.blockSize_pos
  rw [Nat.div_div_eq_div_mul, Nat.mul_assoc, Nat.mul_comm fs.blockSize, Nat.mul_comm i,
    Nat.mul_add_div hpos, Nat.div_eq_of_lt hx, Nat.add_zero]

theorem doubleLoop_done (idbuf : Mem) (idx fuel i r : ℕ) (buf : Mem) :
    doubleLoop fs lefts idbuf idx fuel i offset pos 0 r buf = (r, buf) := by
  cases fuel with
  | zero => rfl
  | succ fuel => rw [doubleLoop, if_neg (by omega)]

/-- The pointer block on the way to byte `x` of the double range, and the block of `x`. -/
def DoubleOk (fs : Ext2Fs) (d x : ℕ) : Prop :=
  BlockGood fs (fs.pointer d (x / fs.blockSize / fs.idblocksCount)) ∧
    BlockGood fs (doubleMap fs d (x / fs.blockSize))

/-- The loop at pointer block `i`, with the read going from byte `s` to byte `e` of the range. -/
theorem doubleLoop_spec {left : Mem} {d s e idx : ℕ} (hd : BlockGood fs d)
    (he : e ≤ fs.idblocksCount * fs.idblocksCount * fs.blockSize)
    (hall : ∀ x, s ≤ x → x < e → DoubleOk fs d x) (hidx : idx < fs.idblocksCount)
    (hpidx : BlockGood fs (fs.pointer d idx)) :
    ∀ (fuel i offset pos nbytes r : ℕ) (buf : Mem), i + fuel = fs.idblocksCount →
    offset < fs.idblocksCount * fs.blockSize → s ≤ i * fs.idblocksCount * fs.blockSize + offset →
    i * fs.idblocksCount * fs.blockSize + offset + nbytes = e → r + nbytes < 4294967296 →
    doubleLoop fs lefts (readBlock fs left d).1 idx fuel i offset pos nbytes r buf =
      (r + nbytes, blit buf pos (fun k => mapByte fs (doubleMap fs d)
        (i * fs.idblocksCount * fs.blockSize + offset + k)) nbytes) := by
  intro fuel
  induction fuel with
  | zero =>
    intro i offset pos nbytes r buf hi hoff hs hend hr
    rw [Nat.add_zero] at hi
    rw [hi] at hend
    have h0 : nbytes = 0 := by omega
    rw [h0, blit_zero]
    rfl
  | succ fuel ih =>
    intro i offset pos nbytes r buf hi hoff hs hend hr
    rcases Nat.eq_zero_or_pos nbytes with h0 | hpos
    · rw [h0, blit_zero, doubleLoop_done]
      rfl
    have hpi : BlockGood fs (fs.pointer d i) := by
      have hok := (hall _ hs (by omega)).1
      rwa [doubleTable_at i hoff] at hok
    have hread := readSingle_spec (lefts i) pos nbytes (by omega) hpi
      hoff (fun x h1 h2 hx => by
        have hok := (hall (i * fs.idblocksCount * fs.blockSize + x) (by omega) (by omega)).2
        rwa [Nat.mul_comm _ fs.blockSize, Nat.mul_add_div fs.blockSize_pos, doubleMap_at d i
          (Nat.div_lt_of_lt_mul (by rwa [Nat.mul_comm]))] at hok) buf
    have hcopy : ∀ k < min nbytes (fs.idblocksCount * fs.blockSize - offset),
        mapByte fs (fs.pointer (fs.pointer d i)) (offset + k) =
          mapByte fs (doubleMap fs d) (i * fs.idblocksCount * fs.blockSize + offset + k) := by
      intro k hk
      rw [mapByte_double d i (by omega), Nat.add_assoc]
    rw [blit_congr hcopy] at hread
    rw [doubleLoop, if_pos hpos, readBlock_word hd _ hidx,
      readBlock_word hd _ (by omega), if_neg hpidx.1, hread]
    dsimp only
    rw [sub32_small (by omega) (by omega), u32_of_lt (by omega)]
    by_cases hlast : nbytes ≤ fs.idblocksCount * fs.blockSize - offset
    · rw [Nat.min_eq_left hlast, Nat.sub_self, doubleLoop_done]
    · rw [Nat.min_eq_right (by omega)]
      have hnext : (i + 1) * fs.idblocksCount * fs.blockSize =
          i * fs.idblocksCount * fs.blockSize + fs.idblocksCount * fs.blockSize := by ring
      rw [ih (i + 1) 0 _ _ _ _ (by omega) (by omega) (by omega) (by omega) (by omega)]
      rw [Nat.add_zero, hnext, blit_stretch _ _ _ (by omega)]
      refine Prod.ext ?_ ?_
      · dsimp only
        omega
      · dsimp only
        congr 1
        omega

theorem readDouble_spec {left : Mem} {d : ℕ} (hd : BlockGood fs d)
    (he : offset + nbytes ≤ fs.idblocksCount * fs.idblocksCount * fs.blockSize)
    (hoff : offset < fs.idblocksCount * fs.idblocksCount * fs.blockSize)
    (hlt : offset + nbytes < 4294967296)
    (hall : ∀ x, offset ≤ x → x < offset + nbytes → DoubleOk fs d x) (buf : Mem) :
    readDouble fs left lefts d offset buf pos nbytes =
      (nbytes, blit buf pos (fun k => mapByte fs (doubleMap fs d) (offset + k)) nbytes) := by
  have hbs := fs.blockSize_pos
  have hN := fs.idblocks_pos
  have hidx : offset / fs.blockSize / fs.idblocksCount < fs.idblocksCount := by
    rw [Nat.div_div_eq_div_mul]
    apply Nat.div_lt_of_lt_mul
    calc offset < fs.idblocksCount * fs.idblocksCount * fs.blockSize := hoff
      _ = fs.blockSize * fs.idblocksCount * fs.idblocksCount := by ring
  unfold readDouble
  dsimp only
  rw [Nat.div_div_eq_div_mul] at hidx ⊢
  generalize hi : offset / (fs.blockSize * fs.idblocksCount) = i at hidx ⊢
  have hsplit : i * fs.idblocksCount * fs.blockSize = fs.blockSize * fs.idblocksCount * i := by ring
  have hdm := Nat.div_add_mod offset (fs.blockSize * fs.idblocksCount)
  have hmod := Nat.mod_lt offset (Nat.mul_pos hbs hN)
  rw [hi, ← hsplit] at hdm
  rw [u32_of_lt (by omega), sub32_small (by omega) (by omega)]
  have hcomm := Nat.mul_comm fs.blockSize fs.idblocksCount
  rcases Nat.eq_zero_or_pos nbytes with h0 | hpos
  · rw [h0, blit_zero, doubleLoop_done]
  have hpidx : BlockGood fs (fs.pointer d i) := by
    have hok := (hall offset le_rfl (by omega)).1
    rwa [Nat.div_div_eq_div_mul, hi] at hok
  rw [doubleLoop_spec hd he hall hidx hpidx _ i _ _ _ _ _ (by omega) (by omega) (by omega)
    (by omega) (by omega)]
  rw [Nat.add_sub_cancel' (by omega), Nat.zero_add]

end Indirect

end DepthOS
