import DepthOS.Proofs.Ext2Read
import DepthOS.Spec.Ext2Trace

/-! Where blocks and inodes are looked for on the device. Byte addresses are formed in 32
bits before they are divided down to sectors, so everything from 4 GiB on is looked for
in the first 4 GiB. -/

namespace DepthOS

open Lib

/-- A request is for the sectors of the `n` bytes from `a` on. -/
def RequestsBytes (req : ℕ × ℕ) (a n : ℕ) : Prop := req.1 = a / 512 ∧ req.1 + req.2 = (a + n) / 512

section Request

variable (fs : Ext2Fs)

theorem Ext2Fs.blockSize_sectors : fs.blockSize % 512 = 0 := by
  rw [fs.blockSize_eq]
  omega

/-- 4 GiB is a whole number of blocks. -/
theorem Ext2Fs.blockSize_dvd : fs.blockSize ∣ 4294967296 := by
  have hpow : (2 : ℕ) ^ fs.logBlockSize ∣ 2 ^ 22 :=
    Nat.pow_dvd_pow 2 (fs.log_le.trans (by norm_num))
  rw [fs.blockSize_eq, show 4294967296 = 1024 * 2 ^ 22 by norm_num]
  exact Nat.mul_dvd_mul_left 1024 hpow

theorem sector_iff (a : ℕ) : u32 a / 512 = a / 512 ↔ a / 512 < 8388608 := by
  have hlt : u32 a < 4294967296 := Nat.mod_lt _ (by norm_num)
  constructor
  · intro h
    omega
  · intro h
    rw [u32_of_lt (by omega)]

theorem blockRequest_eq (b : ℕ) :
    ext2BlockRequest fs b = (u32 (b * fs.blockSize) / 512, fs.blockSize / 512) := by
  simp [ext2BlockRequest, fs.sector_eq, ceilDiv, fs.blockSize_sectors]

/-- The byte address of an inode, as the volume has it. -/
def inodeAddress (n : ℕ) : ℕ :=
  fs.inodeTableAddr ((n - 1) / fs.inodesPerBlkGroup) * fs.blockSize +
    (n - 1) % fs.inodesPerBlkGroup * 512

/-- The request of `ext2_get_inode`: of all its wraps one is left. -/
theorem inodeRequest_eq {n : ℕ} (h1 : 1 ≤ n) (hn : n < 4294967296) :
    ext2InodeRequest fs n = (u32 (inodeAddress fs n) / 512, 1) := by
  have hsub : sub32 n 1 = n - 1 := sub32_small h1 hn
  have hone : ceilDiv 512 512 = 1 := rfl
  simp only [ext2InodeRequest, fs.sector_eq, fs.inodeSize_eq, hsub, hone, inodeAddress]
  generalize fs.inodeTableAddr ((n - 1) / fs.inodesPerBlkGroup) = table
  generalize (n - 1) % fs.inodesPerBlkGroup * 512 = x
  have hdm := Nat.div_add_mod' (u32 x) fs.blockSize
  have hwrap : u32 (u32 (u32 (table + u32 x / fs.blockSize) * fs.blockSize) +
      u32 x % fs.blockSize) = u32 (table * fs.blockSize + x) := by
    calc u32 (u32 (u32 (table + u32 x / fs.blockSize) * fs.blockSize) + u32 x % fs.blockSize)
        = u32 ((table + u32 x / fs.blockSize) * fs.blockSize + u32 x % fs.blockSize) := by
          simp [u32, Nat.add_mod, Nat.mul_mod]
      _ = u32 (table * fs.blockSize + u32 x) := by rw [Nat.add_mul, Nat.add_assoc, hdm]
      _ = u32 (table * fs.blockSize + x) := by simp [u32, Nat.add_mod]
  rw [hwrap]

end Request

section Address

variable (fs : Ext2Fs)

/-- The block that holds an inode of the table. -/
def inodeBlock (n : ℕ) : ℕ :=
  fs.inodeTableAddr ((n - 1) / fs.inodesPerBlkGroup) +
    (n - 1) % fs.inodesPerBlkGroup * 512 / fs.blockSize

theorem inodeBlock_eq (n : ℕ) : inodeBlock fs n = inodeAddress fs n / fs.blockSize := by
  unfold inodeBlock inodeAddress
  rw [Nat.mul_comm _ fs.blockSize, Nat.mul_add_div fs.blockSize_pos]

theorem inodeAddress_lt_iff (n : ℕ) :
    inodeAddress fs n < 4294967296 ↔ inodeBlock fs n * fs.blockSize < 4294967296 := by
  obtain ⟨k, hk⟩ := fs.blockSize_dvd
  have hpos := fs.blockSize_pos
  rw [inodeBlock_eq, hk, Nat.mul_comm _ fs.blockSize, Nat.mul_lt_mul_left hpos,
    Nat.div_lt_iff_lt_mul hpos, Nat.mul_comm k]

/-- A block is looked for where it is exactly when it starts below 4 GiB, and so is an inode:
exactly when the block of the table that it is in does. -/
theorem ext2_address_iff :
    (∀ b, RequestsBytes (ext2BlockRequest fs b) (b * fs.blockSize) fs.blockSize ↔
      b * fs.blockSize < 4294967296) ∧
    ∀ n, 1 ≤ n → n < 4294967296 →
      (RequestsBytes (ext2InodeRequest fs n) (inodeAddress fs n) 512 ↔
        inodeBlock fs n * fs.blockSize < 4294967296) := by
  have hsec := fs.blockSize_sectors
  constructor
  · intro b
    have hb : b * fs.blockSize % 512 = 0 := by rw [Nat.mul_mod, hsec, Nat.mul_zero, Nat.zero_mod]
    rw [blockRequest_eq, RequestsBytes, sector_iff]
    constructor
    · intro h
      omega
    · intro h
      rw [u32_of_lt h]
      omega
  · intro n h1 hn
    have ha : inodeAddress fs n % 512 = 0 := by
      rw [inodeAddress, Nat.add_mod, Nat.mul_mod, hsec]
      omega
    rw [inodeRequest_eq fs h1 hn, RequestsBytes, sector_iff, ← inodeAddress_lt_iff]
    constructor
    · intro h
      omega
    · intro h
      rw [u32_of_lt h]
      omega

end Address

/-- The root inode of the sample volume. -/
theorem ext2_address_root :
    RequestsBytes (ext2InodeRequest sampleFs 2) (inodeAddress sampleFs 2) 512 :=
  ((ext2_address_iff sampleFs).2 2 (by norm_num) (by norm_num)).2 (by decide)

/-- Block 4194304 of a volume of 1 KiB blocks is looked for in sector 0. -/
theorem ext2_address_wraps : ¬ ∀ (fs : Ext2Fs) (b : ℕ),
    (b + 1) * fs.blockSize / 512 ≤ 268435456 →
      RequestsBytes (ext2BlockRequest fs b) (b * fs.blockSize) fs.blockSize := by
  intro h
  have hreq := (h sampleFs 4194304 (by decide)).1
  exact absurd hreq (by decide)

end DepthOS
