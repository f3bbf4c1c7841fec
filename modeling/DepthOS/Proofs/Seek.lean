import DepthOS.Proofs.Initrd
import DepthOS.Spec.Seek

/-! Seeks and the end of a file. Both file systems pass the last position instead of the
size, which `generic_file_seek_size` takes for the end and for the bound alike. A position
past the end is out of reach all the same, and reads of the ramdisk stay in their file. -/

namespace DepthOS

open Lib

section Arithmetic

theorem s32_sizeT_add (a : ℤ) (b : ℕ) :
    s32 (sizeT a + b) = (a + b + 2147483648) % 4294967296 - 2147483648 := by
  unfold s32 sizeT u32
  split_ifs <;> omega

/-- The bound both file systems pass: one less than the size, -1 for an empty file. -/
theorem s32_last {S : ℕ} (h : S < 2147483648) : s32 (sub32 S 1) = S - 1 := by
  unfold s32 sub32 u32
  split_ifs <;> omega

theorem s32_end (S : ℕ) (off : ℤ) :
    s32 (sizeT off + sub32 S 1) = (S + off - 1 + 2147483648) % 4294967296 - 2147483648 := by
  unfold s32 sizeT sub32 u32
  split_ifs <;> omega

end Arithmetic

section Setpos

variable {filePos : ℕ} {off max t : ℤ}

theorem vfsSetpos_refused :
    vfsSetpos filePos off max = ⟨-EINVAL, filePos⟩ ↔ off < 0 ∨ max < off := by
  unfold vfsSetpos
  split_ifs with h1 h2
  · simp [h1]
  · simp [h2]
  · simp only [SeekResult.mk.injEq, EINVAL]
    omega

theorem vfsSetpos_taken (h0 : 0 ≤ t) (h1 : t < 4294967296) :
    vfsSetpos filePos off max = ⟨t, t.toNat⟩ ↔ off = t ∧ t ≤ max := by
  unfold vfsSetpos
  split_ifs with h2 h3
  · simp only [SeekResult.mk.injEq, EINVAL]
    omega
  · simp only [SeekResult.mk.injEq, EINVAL]
    omega
  · simp only [SeekResult.mk.injEq, sizeT]
    omega

theorem vfsSetpos_le (filePos : ℕ) (max : ℤ) (h : off < 4294967296) :
    (vfsSetpos filePos off max).pos = filePos ∨ ((vfsSetpos filePos off max).pos : ℤ) ≤ max := by
  unfold vfsSetpos sizeT
  split_ifs with h1 h2
  · exact Or.inl rfl
  · exact Or.inl rfl
  · apply Or.inr
    dsimp only
    omega

end Setpos

/-- The position a seek asks for. -/
def seekTarget (size filePos : ℕ) (off whence : ℤ) : ℤ :=
  if whence = SEEK_END then size + off else if whence = SEEK_CUR then filePos + off else off

theorem seekTarget_end (size filePos : ℕ) (off : ℤ) :
    seekTarget size filePos off SEEK_END = size + off := if_pos rfl

theorem seekTarget_cur (size filePos : ℕ) (off : ℤ) :
    seekTarget size filePos off SEEK_CUR = filePos + off := by
  unfold seekTarget
  rw [if_neg (by decide), if_pos rfl]

theorem seekTarget_set (size filePos : ℕ) (off : ℤ) :
    seekTarget size filePos off SEEK_SET = off := by
  unfold seekTarget
  rw [if_neg (by decide), if_neg (by decide)]

theorem seek_end_eq (filePos size : ℕ) (pos : ℤ) : genericFileSeekSize filePos pos size SEEK_END =
    vfsSetpos filePos (s32 (sizeT pos + size)) (s32 size) := if_pos rfl

theorem seek_cur_eq (filePos size : ℕ) (pos : ℤ) : genericFileSeekSize filePos pos size SEEK_CUR =
    if pos = 0 then ⟨s32 filePos, filePos⟩
    else vfsSetpos filePos (s32 (sizeT pos + filePos)) (s32 size) := by
  unfold genericFileSeekSize
  rw [if_neg (by decide), if_pos rfl]

theorem seek_set_eq (filePos size : ℕ) (pos : ℤ) : genericFileSeekSize filePos pos size SEEK_SET =
    vfsSetpos filePos pos (s32 size) := by
  unfold genericFileSeekSize
  rw [if_neg (by decide), if_neg (by decide)]

/-- The position asked for is taken and returned where it is in the file or at its end;
otherwise the seek fails and leaves the position. -/
def SeekRight (size filePos : ℕ) (off whence : ℤ) (r : SeekResult) : Prop :=
  if 0 ≤ seekTarget size filePos off whence ∧ seekTarget size filePos off whence ≤ size then
    r = ⟨seekTarget size filePos off whence, (seekTarget size filePos off whence).toNat⟩
  else r = ⟨-EINVAL, filePos⟩

/-- The seeks that come out right: none to the end of the file, none from the end to a place
in the file, and none by `SEEK_CUR` whose sum wraps round into the file or that asks for a
position past the end. There 4294967295 reads as `-EINVAL`. -/
def SeekHolds (size filePos : ℕ) (off whence : ℤ) : Prop :=
  if whence = SEEK_END then off < -size ∨ 0 < off
  else if whence = SEEK_CUR then
    if off = 0 then filePos ≤ size ∨ filePos = 4294967295
    else filePos + off ≠ size ∧
      ¬ (4294967296 ≤ filePos + off ∧ filePos + off < 4294967296 + size)
  else off ≠ size

section Seek

variable {size filePos : ℕ} {off whence : ℤ}

theorem seekEnd_iff (hS : size < 2147483648) (hlo : -2147483648 ≤ off) (hhi : off < 2147483648) :
    SeekRight size filePos off SEEK_END
      (genericFileSeekSize filePos off (sub32 size 1) SEEK_END) ↔ off < -size ∨ 0 < off := by
  unfold SeekRight
  rw [seek_end_eq, seekTarget_end, s32_end, s32_last hS]
  split_ifs with ht
  · rw [vfsSetpos_taken ht.1 (by omega)]
    omega
  · rw [vfsSetpos_refused]
    omega

theorem seekCur_iff (hS : size < 2147483648) (hp : filePos < 4294967296)
    (hlo : -2147483648 ≤ off) (hhi : off < 2147483648) (h0 : off ≠ 0) :
    SeekRight size filePos off SEEK_CUR
      (genericFileSeekSize filePos off (sub32 size 1) SEEK_CUR) ↔
    filePos + off ≠ size ∧ ¬ (4294967296 ≤ filePos + off ∧ filePos + off < 4294967296 + size) := by
  unfold SeekRight
  rw [seek_cur_eq, if_neg h0, seekTarget_cur, s32_sizeT_add, s32_last hS]
  split_ifs with ht
  · rw [vfsSetpos_taken ht.1 (by omega)]
    omega
  · rw [vfsSetpos_refused]
    omega

theorem seekCur_zero_iff (hS : size < 2147483648) (hp : filePos < 4294967296) :
    SeekRight size filePos 0 SEEK_CUR (genericFileSeekSize filePos 0 (sub32 size 1) SEEK_CUR) ↔
      filePos ≤ size ∨ filePos = 4294967295 := by
  unfold SeekRight
  rw [seek_cur_eq, if_pos rfl, seekTarget_cur, add_zero]
  split_ifs with ht
  · rw [s32_of_lt (by omega), Int.toNat_natCast]
    simp only [true_iff]
    omega
  · simp only [SeekResult.mk.injEq, and_true, EINVAL]
    unfold s32 u32
    split_ifs
    · constructor
      · exact False.elim
      · intro h
        omega
    · omega

theorem seekSet_iff (hS : size < 2147483648) (hhi : off < 2147483648) :
    SeekRight size filePos off SEEK_SET
      (genericFileSeekSize filePos off (sub32 size 1) SEEK_SET) ↔ off ≠ size := by
  unfold SeekRight
  rw [seek_set_eq, seekTarget_set, s32_last hS]
  split_ifs with ht
  · rw [vfsSetpos_taken ht.1 (by omega)]
    omega
  · rw [vfsSetpos_refused]
    omega

theorem genericSeek_iff (hS : size < 2147483648) (hp : filePos < 4294967296)
    (hlo : -2147483648 ≤ off) (hhi : off < 2147483648)
    (hw : whence = SEEK_SET ∨ whence = SEEK_CUR ∨ whence = SEEK_END) :
    SeekRight size filePos off whence
      (genericFileSeekSize filePos off (sub32 size 1) whence) ↔
    SeekHolds size filePos off whence := by
  unfold SeekHolds
  rcases hw with rfl | rfl | rfl
  · rw [if_neg (by decide), if_neg (by decide)]
    exact seekSet_iff hS hhi
  · rw [if_neg (by decide), if_pos rfl]
    split_ifs with h0
    · rw [h0]
      exact seekCur_zero_iff hS hp
    · exact seekCur_iff hS hp hlo hhi h0
  · rw [if_pos rfl]
    exact seekEnd_iff hS hlo hhi

/-- For files of ext2 and of the ramdisk, at any position and with any offset: a seek comes
out right exactly as `SeekHolds` says. -/
theorem seek_right_iff (hS : size < 2147483648) (hp : filePos < 4294967296)
    (hlo : -2147483648 ≤ off) (hhi : off < 2147483648)
    (hw : whence = SEEK_SET ∨ whence = SEEK_CUR ∨ whence = SEEK_END) :
    (∀ inode, ext2InodeSize inode = size →
      (SeekRight size filePos off whence (ext2Seek inode filePos off whence) ↔
        SeekHolds size filePos off whence)) ∧
    ∀ m rd i, initrdLength m rd i = size →
      (SeekRight size filePos off whence (initrdfsSeek m rd i filePos off whence) ↔
        SeekHolds size filePos off whence) := by
  constructor
  · intro inode hi
    unfold ext2Seek
    rw [hi]
    exact genericSeek_iff hS hp hlo hhi hw
  · intro m rd i hi
    unfold initrdfsSeek
    rw [hi]
    exact genericSeek_iff hS hp hlo hhi hw

/-- An inode of a file of 5 bytes. -/
def fiveBytes : Ext2Inode := ⟨0, 5, fun _ => 0, 0, 0⟩

/-- A seek to one of its bytes. -/
theorem seek_right_inside : SeekRight 5 0 3 SEEK_SET (ext2Seek fiveBytes 0 3 SEEK_SET) := by
  have hiff := (seek_right_iff (by norm_num : 5 < 2147483648) (by norm_num : 0 < 4294967296)
    (by norm_num : (-2147483648 : ℤ) ≤ 3) (by norm_num) (Or.inl rfl)).1 fiveBytes rfl
  apply hiff.2
  unfold SeekHolds
  rw [if_neg (by decide), if_neg (by decide)]
  decide

/-- Its end by `SEEK_END`: the seek returns 4. -/
theorem seek_end_short : ¬ ∀ size filePos off whence inode, ext2InodeSize inode = size →
    size < 2147483648 → filePos ≤ size →
    SeekRight size filePos off whence (ext2Seek inode filePos off whence) := by
  intro h
  have hright := h 5 0 0 SEEK_END fiveBytes rfl (by norm_num) (by norm_num)
  unfold SeekRight at hright
  rw [seekTarget_end, if_pos (by decide)] at hright
  have hret : (ext2Seek fiveBytes 0 0 SEEK_END).ret = 4 := by decide
  rw [hright] at hret
  exact absurd hret (by decide)

end Seek

section Reads

variable {m : Mem} {rd : Initrd} {inode pos : ℕ}

theorem genericSeek_le {size : ℕ} {off : ℤ} (whence : ℤ) (hS : size < 2147483648)
    (hpos : pos ≤ size) (hoff : off < 2147483648) :
    (genericFileSeekSize pos off (sub32 size 1) whence).pos ≤ size := by
  have hset : ∀ v : ℤ, v < 2147483648 → (vfsSetpos pos v (s32 (sub32 size 1))).pos ≤ size := by
    intro v hv
    rw [s32_last hS]
    have hle := vfsSetpos_le pos (size - 1) (show v < 4294967296 by omega)
    omega
  unfold genericFileSeekSize
  split_ifs
  · exact hset _ (s32_range _).2
  · exact hpos
  · exact hset _ (s32_range _).2
  · exact hset _ hoff

theorem initrd_pos_le {calls : List InitrdCall} (hL : initrdLength m rd inode < 2147483648)
    (h : InitrdRun m rd inode calls pos) : pos ≤ initrdLength m rd inode := by
  induction h with
  | nil h0 =>
    rw [h0]
    exact Nat.zero_le _
  | @snoc _ p _ call _ hs ih =>
    obtain ⟨hok, rfl⟩ := hs
    cases call with
    | read n buf =>
      obtain ⟨hr, -, -, hoff⟩ := initrdRead_spec hL ih buf n
      simp only [InitrdCall.after, hoff, hr]
      omega
    | seek off whence => exact genericSeek_le whence hL ih hok.2

/-- At any point of a run the position is in the file or at its end, and a read returns as
many bytes as are asked for and left: those of the file from the position on. -/
theorem initrd_reads_inside {calls : List InitrdCall} (hL : initrdLength m rd inode < 2147483648)
    (h : InitrdRun m rd inode calls pos) :
    pos ≤ initrdLength m rd inode ∧ ∀ n < 4294967296, ∀ buf,
      (initrdfsRead m rd inode buf n pos).r = min n (initrdLength m rd inode - pos) ∧
      (List.range (initrdfsRead m rd inode buf n pos).r).map
        (initrdfsRead m rd inode buf n pos).buf = ((initrdContents m rd inode).drop pos).take n ∧
      ∀ k, (initrdfsRead m rd inode buf n pos).r ≤ k →
        (initrdfsRead m rd inode buf n pos).buf k = buf k := by
  have hpos := initrd_pos_le hL h
  refine ⟨hpos, fun n _ buf => ?_⟩
  obtain ⟨hr, hbytes, hrest, -⟩ := initrdRead_spec hL hpos buf n
  exact ⟨hr, hbytes, hrest⟩

/-- A ramdisk of one file of 3 bytes, with another byte behind them. -/
def threeBytes : Mem := ofBytes (List.replicate 60 0 ++ le32 3 ++ le32 0 ++ [7, 8, 9, 6])

/-- Two bytes are read, the position is moved back by one, and a longer read delivers the
two bytes that are left. -/
theorem initrd_reads_inside_back : ∃ calls pos, InitrdRun threeBytes ⟨1, 0, 68⟩ 0 calls pos ∧
    calls.length = 2 ∧ pos = 1 ∧
    (initrdfsRead threeBytes ⟨1, 0, 68⟩ 0 (fun _ => 0) 4294967295 pos).r = 2 := by
  have hlen : initrdLength threeBytes ⟨1, 0, 68⟩ 0 = 3 := by decide
  have h0 : InitrdRun threeBytes ⟨1, 0, 68⟩ 0 [] 0 := Run.nil rfl
  have hread : (initrdfsRead threeBytes ⟨1, 0, 68⟩ 0 (fun _ => 0) 2 0).offset = 2 := by decide
  have hseek : (initrdfsSeek threeBytes ⟨1, 0, 68⟩ 0 2 (-1) SEEK_CUR).pos = 1 := by decide
  have h1 : InitrdRun threeBytes ⟨1, 0, 68⟩ 0 [.read 2 fun _ => 0] 2 :=
    h0.snoc ⟨show 2 < 4294967296 by norm_num, hread.symm⟩
  have h2 : InitrdRun threeBytes ⟨1, 0, 68⟩ 0 [.read 2 fun _ => 0, .seek (-1) SEEK_CUR] 1 :=
    h1.snoc ⟨show (-2147483648 : ℤ) ≤ -1 ∧ (-1 : ℤ) < 2147483648 by norm_num, hseek.symm⟩
  obtain ⟨-, hreads⟩ := initrd_reads_inside (by rw [hlen]; norm_num) h2
  refine ⟨_, _, h2, rfl, rfl, ?_⟩
  rw [(hreads 4294967295 (by norm_num) fun _ => 0).1, hlen]
  norm_num

end Reads

end DepthOS
