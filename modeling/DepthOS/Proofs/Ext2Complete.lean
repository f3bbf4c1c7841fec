import DepthOS.Proofs.Ext2Read
import DepthOS.Proofs.Ext2Supply

/-! Where a read ends. Up to the end of the file it should deliver all that is asked for,
and nothing behind it. It stops too soon when what is done happens to equal what was left
before the single range, and it is not cut at the end of the file when the offset and the
length together overflow. -/

namespace DepthOS

open Lib

section Read

variable {fs : Ext2Fs} {inode : Ext2Inode} {offset n : ℕ}

variable (fs) in
theorem readFile_past (hend : inode.sizeLo ≤ offset) (buf : Mem) :
    (readFile fs inode buf n offset).r = 0 ∧ (readFile fs inode buf n offset).buf = buf := by
  have hdata : readData fs inode offset buf n = (0, buf) := by
    unfold readData ext2InodeSize
    dsimp only
    rw [if_pos hend]
  unfold readFile
  rw [hdata]
  exact ⟨rfl, rfl⟩

variable (fs) in
/-- A read that starts in the file delivers this much of what it wants, in the front of the
buffer. -/
theorem readFile_delivers {want : ℕ} (hoff : offset < inode.sizeLo)
    (hwant : (if u32 (offset + n) > inode.sizeLo then sub32 inode.sizeLo offset else n) = want)
    (hw : want < 4294967296) (buf : Mem) :
    (readFile fs inode buf n offset).r = ext2Delivered fs inode offset want ∧
      ∀ k, ext2Delivered fs inode offset want ≤ k →
        (readFile fs inode buf n offset).buf k = buf k := by
  have h : Brings buf 0 0 (ext2Delivered fs inode offset want)
      (readData fs inode offset buf n) :=
    readData_brings hoff hwant hw buf
  obtain ⟨hr, hsame⟩ := h
  rw [Nat.zero_add] at hr hsame
  exact ⟨hr, hsame⟩

theorem ext2Delivered_eq_iff {want : ℕ} : ext2Delivered fs inode offset want = want ↔
    want ≤ ext2Supply fs inode offset ∧ ¬ StopsEarly fs inode offset want := by
  unfold ext2Delivered
  split_ifs with hstop
  · have hless : supplyDirect fs inode offset + supplySingle fs inode offset ≠ want := by
      obtain ⟨-, hpos, hwant⟩ := hstop
      omega
    exact ⟨fun h => absurd h hless, fun h => absurd hstop h.2⟩
  · exact ⟨fun h => ⟨by omega, hstop⟩, fun h => Nat.min_eq_left h.1⟩

theorem ext2ReadLen_eq_iff {size : ℕ} : ext2ReadLen fs size offset n = min n (size - offset) ↔
    ¬ (offset < 12 * fs.blockSize ∧ min n (size - offset) =
      2 * (12 * fs.blockSize - offset) + fs.idblocksCount * fs.blockSize) := by
  have hpos := Nat.mul_pos fs.idblocks_pos fs.blockSize_pos
  unfold ext2ReadLen
  dsimp only
  generalize min n (size - offset) = want
  split_ifs with hstop
  · refine ⟨fun h => ?_, fun h => absurd ⟨hstop.1, ?_⟩ h⟩ <;> omega
  · refine ⟨fun _ h => hstop ⟨h.1, ?_, ?_⟩, fun _ => rfl⟩ <;> omega

/-- A read returns with all that is asked for, up to the end of the file. -/
def ReadsAll (fs : Ext2Fs) (inode : Ext2Inode) (buf : Mem) (n offset : ℕ) : Prop :=
  ∃ x, ext2Read fs inode buf n offset = some x ∧ x.r = min n (inode.sizeLo - offset)

theorem readFile_complete_iff (hS : inode.sizeLo < 2147483648) (hoff : offset < inode.sizeLo)
    (hn : offset + n < 4294967296) (buf : Mem) :
    (readFile fs inode buf n offset).r = min n (inode.sizeLo - offset) ↔
      min n (inode.sizeLo - offset) ≤ ext2Supply fs inode offset ∧
        ¬ StopsEarly fs inode offset (min n (inode.sizeLo - offset)) := by
  rw [(readFile_delivers fs hoff (clamp_eq hoff (by omega) hn) (by omega) buf).1]
  exact ext2Delivered_eq_iff

theorem readFile_allocated_iff (hdev : fs.dev.ReadsSucceed) (hal : Ext2Allocated fs inode)
    (hn : offset + n < 4294967296) (buf : Mem) :
    (readFile fs inode buf n offset).r = min n (inode.sizeLo - offset) ↔
      ¬ (offset < 12 * fs.blockSize ∧ min n (inode.sizeLo - offset) =
        2 * (12 * fs.blockSize - offset) + fs.idblocksCount * fs.blockSize) := by
  have hr : (readFile fs inode buf n offset).r = ext2ReadLen fs inode.sizeLo offset n := by
    unfold readFile
    rw [readData_spec hdev hal hn]
  rw [hr]
  exact ext2ReadLen_eq_iff

theorem readsAll_iff (hdev : fs.dev.ReadsSucceed) (hmap : Ext2Mapped fs inode)
    (hoff : offset ≤ inode.sizeLo) {buf : Mem} {p : Prop} (hp : offset < inode.sizeLo →
      ((readFile fs inode buf n offset).r = min n (inode.sizeLo - offset) ↔ p)) :
    ReadsAll fs inode buf n offset ↔ offset = inode.sizeLo ∨ fs.Buffered ∧ p := by
  rcases hoff.eq_or_lt with hend | hlt
  · refine iff_of_true ⟨_, ext2Read_end fs hend.ge buf n, ?_⟩ (Or.inl hend)
    rw [hend, Nat.sub_self, Nat.min_zero]
  · rw [or_iff_right hlt.ne, ← hp hlt]
    constructor
    · rintro ⟨x, hx, hr⟩
      by_cases hbuf : fs.Buffered
      · rw [ext2Read_some hbuf] at hx
        rw [← Option.some.inj hx] at hr
        exact ⟨hbuf, hr⟩
      · rw [ext2Read_faults hbuf hdev hmap hlt] at hx
        cases hx
    · rintro ⟨hbuf, hr⟩
      exact ⟨_, ext2Read_some hbuf inode buf n offset, hr⟩

/-- A read of a file whose blocks are all there is complete exactly at its end, or when there are
block buffers, the maps as they are read hold what it wants and it does not end between the
single and the double range; for a file below 4 GiB it ends there for one length only. -/
theorem ext2_read_complete_iff (hdev : fs.dev.ReadsSucceed) (hmap : Ext2Mapped fs inode)
    (hoff : offset ≤ inode.sizeLo) (hn : offset + n < 4294967296) (buf : Mem) :
    (ReadsAll fs inode buf n offset ↔ offset = inode.sizeLo ∨ fs.Buffered ∧
      min n (inode.sizeLo - offset) ≤ ext2Supply fs inode offset ∧
        ¬ StopsEarly fs inode offset (min n (inode.sizeLo - offset))) ∧
    (Ext2Allocated fs inode →
      (ReadsAll fs inode buf n offset ↔ offset = inode.sizeLo ∨ fs.Buffered ∧
        ¬ (offset < 12 * fs.blockSize ∧ min n (inode.sizeLo - offset) =
          2 * (12 * fs.blockSize - offset) + fs.idblocksCount * fs.blockSize))) :=
  ⟨readsAll_iff hdev hmap hoff fun hlt => readFile_complete_iff hmap.size_lt hlt hn buf,
    fun hal => readsAll_iff hdev hmap hoff fun _ => readFile_allocated_iff hdev hal hn buf⟩

/-- Four bytes across the end of the direct range. -/
theorem ext2_read_complete_across : ReadsAll sampleFs sampleInode (fun _ => 0) 4 12286 ∧
    4 ≤ ext2Supply sampleFs sampleInode 12286 ∧ ¬ StopsEarly sampleFs sampleInode 12286 4 := by
  have hiff := ext2_read_complete_iff (fun _ _ => rfl) sample_allocated.mapped
    (show 12286 ≤ sampleInode.sizeLo by decide) (show 12286 + 4 < 4294967296 by norm_num) fun _ => 0
  have hall := (hiff.2 sample_allocated).2 (Or.inr ⟨by decide, by decide⟩)
  have hmin : min 4 (sampleInode.sizeLo - 12286) = 4 := by decide
  rw [hmin] at hiff
  exact ⟨hall, ((hiff.1.1 hall).resolve_left (by decide)).2⟩

end Read

/-! A volume given by the words on its disk. -/

def wordFs (word : ℕ → ℕ) : Ext2Fs :=
  { sampleFs with
    dev := {
      blockSize := 512
      disk := fun x => BitVec.ofNat 8 (word (x / 4) >>> (8 * (x % 4)))
      done := fun _ count => count }
    sector_eq := rfl }

theorem wordFs_pointer {word : ℕ → ℕ} {b i : ℕ} (h : word (256 * b + i) < 4294967296) :
    (wordFs word).pointer b i = word (256 * b + i) := by
  have hbyte : ∀ j < 4, (wordFs word).dev.disk (b * 1024 + (4 * i + j)) =
      BitVec.ofNat 8 (word (256 * b + i) / 256 ^ j) := by
    intro j hj
    have hdiv : (b * 1024 + (4 * i + j)) / 4 = 256 * b + i := by omega
    have hmod : (b * 1024 + (4 * i + j)) % 4 = j := by omega
    change BitVec.ofNat 8 (word ((b * 1024 + (4 * i + j)) / 4) >>>
      (8 * ((b * 1024 + (4 * i + j)) % 4))) = _
    rw [hdiv, hmod, Nat.shiftRight_eq_div_pow, Nat.pow_mul]
  change load32 (fun k => (wordFs word).dev.disk (b * 1024 + k)) (4 * i) = _
  unfold load32
  dsimp only
  rw [hbyte 1 (by norm_num), hbyte 2 (by norm_num), hbyte 3 (by norm_num),
    ← Nat.add_zero (4 * i), hbyte 0 (by norm_num)]
  simp only [BitVec.toNat_ofNat, Nat.reducePow, Nat.div_one]
  omega

/-- Block 30 is a single, block 31 a double indirect block, whose first entry is block 32. -/
def longWord (w : ℕ) : ℕ :=
  if w / 256 = 30 then 100 + w % 256
  else if w = 256 * 31 then 32
  else if w / 256 = 32 then 1000 + w % 256
  else 0

/-- A file that ends with the twelfth block of the double range. -/
def longInode : Ext2Inode := ⟨0x8000, 286720, fun i => 10 + i, 30, 31⟩

theorem long_pointer (b i : ℕ) : (wordFs longWord).pointer b i = longWord (256 * b + i) := by
  apply wordFs_pointer
  unfold longWord
  split_ifs <;> omega

theorem long_allocated : Ext2Allocated (wordFs longWord) longInode := by
  have hbs : (wordFs longWord).blockSize = 1024 := rfl
  have hN : (wordFs longWord).idblocksCount = 256 := rfl
  constructor
  · decide
  · decide
  · intro i hi
    rw [hbs] at hi
    change i * 1024 < 286720 at hi
    unfold BlockOk ext2BlockMap
    rw [hbs, hN]
    dsimp only
    split_ifs with hdir hsingle
    · change 10 + i ≠ 0 ∧ (10 + i) * 1024 < 4294967296
      omega
    · rw [long_pointer]
      change longWord (256 * 30 + (i - 12)) ≠ 0 ∧ longWord (256 * 30 + (i - 12)) * 1024 < 4294967296
      unfold longWord
      rw [if_pos (by omega)]
      omega
    · have hzero : (i - 12 - 256) / 256 = 0 := by omega
      rw [hzero, long_pointer, long_pointer]
      change longWord (256 * 32 + (i - 12 - 256) % 256) ≠ 0 ∧
        longWord (256 * 32 + (i - 12 - 256) % 256) * 1024 < 4294967296
      unfold longWord
      rw [if_neg (by omega), if_neg (by omega), if_pos (by omega)]
      omega
  · exact fun _ => ⟨by decide, by decide⟩
  · exact fun _ => ⟨by decide, by decide⟩
  · intro j hj
    rw [hbs, hN] at hj
    change _ < 286720 at hj
    have h0 : j = 0 := by omega
    rw [h0, long_pointer]
    exact ⟨by decide, by decide⟩

/-- A read of that file from its start stops with the single range, 12 blocks short. -/
theorem ext2_read_incomplete : ¬ ∀ (fs : Ext2Fs) (inode : Ext2Inode) (buf : Mem) (n offset : ℕ),
    fs.dev.ReadsSucceed → Ext2Mapped fs inode → offset ≤ inode.sizeLo →
      offset + n < 4294967296 → ReadsAll fs inode buf n offset := by
  intro h
  have hall := h (wordFs longWord) longInode (fun _ => 0) 286720 0 (fun _ _ => rfl)
    long_allocated.mapped (by decide) (by decide)
  rw [readsAll_iff (fun _ _ => rfl) long_allocated.mapped (by decide) fun _ =>
    readFile_allocated_iff (fun _ _ => rfl) long_allocated (by decide) fun _ => 0] at hall
  exact absurd hall (by decide)

section End

variable {fs : Ext2Fs} {inode : Ext2Inode} {offset n : ℕ}

/-- A sum that overflows is below the size, and the length is not cut. -/
theorem uncut_eq (hoff : offset < inode.sizeLo) (hS : inode.sizeLo < 4294967296)
    (hn : n < 4294967296) (hwrap : 4294967296 ≤ offset + n) :
    (if u32 (offset + n) > inode.sizeLo then sub32 inode.sizeLo offset else n) = n := by
  rw [if_neg]
  unfold u32
  omega

/-- A read that returns has delivered nothing behind the end of the file. -/
def ReadsWithin (fs : Ext2Fs) (inode : Ext2Inode) (buf : Mem) (n offset : ℕ) : Prop :=
  ∀ x, ext2Read fs inode buf n offset = some x → x.r ≤ inode.sizeLo - offset ∧
    ∀ k, min n (inode.sizeLo - offset) ≤ k → x.buf k = buf k

theorem readFile_within_iff (hS : inode.sizeLo < 4294967296) (hn : n < 4294967296) (buf : Mem) :
    ((readFile fs inode buf n offset).r ≤ inode.sizeLo - offset ∧
      ∀ k, min n (inode.sizeLo - offset) ≤ k → (readFile fs inode buf n offset).buf k = buf k) ↔
    offset + n < 4294967296 ∨ inode.sizeLo ≤ offset ∨
      ext2Supply fs inode offset ≤ inode.sizeLo - offset ∨
      (StopsEarly fs inode offset n ∧ supplyDirect fs inode offset + supplySingle fs inode offset ≤
        inode.sizeLo - offset) := by
  by_cases hend : inode.sizeLo ≤ offset
  · obtain ⟨hr, hbuf⟩ := readFile_past fs (n := n) hend buf
    rw [hr, hbuf]
    exact ⟨fun _ => Or.inr (Or.inl hend), fun _ => ⟨Nat.zero_le _, fun _ _ => rfl⟩⟩
  rw [not_le] at hend
  by_cases hsum : offset + n < 4294967296
  · obtain ⟨hr, hsame⟩ := readFile_delivers fs hend (clamp_eq hend hS hsum) (by omega) buf
    have hle : ext2Delivered fs inode offset (min n (inode.sizeLo - offset)) ≤ _ :=
      ext2Delivered_le
    rw [hr]
    exact ⟨fun _ => Or.inl hsum, fun _ => ⟨by omega, fun k hk => hsame k (by omega)⟩⟩
  · obtain ⟨hr, hsame⟩ := readFile_delivers fs hend (uncut_eq hend hS hn (by omega)) hn buf
    have hle : ext2Delivered fs inode offset n ≤ n := ext2Delivered_le
    have hiff : ext2Delivered fs inode offset n ≤ inode.sizeLo - offset ↔
        ext2Supply fs inode offset ≤ inode.sizeLo - offset ∨
          (StopsEarly fs inode offset n ∧ supplyDirect fs inode offset +
            supplySingle fs inode offset ≤ inode.sizeLo - offset) := by
      unfold ext2Delivered ext2Supply
      split_ifs with hstop
      · simp only [hstop, true_and]
        omega
      · simp only [hstop, false_and, or_false]
        omega
    rw [hr]
    constructor
    · rintro ⟨h, -⟩
      exact Or.inr (Or.inr (hiff.1 h))
    · intro h
      have hfits : ext2Delivered fs inode offset n ≤ inode.sizeLo - offset :=
        hiff.2 ((h.resolve_left hsum).resolve_left (by omega))
      exact ⟨hfits, fun k hk => hsame k (by omega)⟩

/-- A read stays within the file exactly when its end does not overflow or the block maps
hold nothing past the end that it would reach; without block buffers it brings nothing at all. -/
theorem ext2_read_within_iff (hS : inode.sizeLo < 4294967296) (hn : n < 4294967296) (buf : Mem) :
    ReadsWithin fs inode buf n offset ↔ ¬ fs.Buffered ∨
      offset + n < 4294967296 ∨ inode.sizeLo ≤ offset ∨
      ext2Supply fs inode offset ≤ inode.sizeLo - offset ∨
      (StopsEarly fs inode offset n ∧ supplyDirect fs inode offset + supplySingle fs inode offset ≤
        inode.sizeLo - offset) := by
  by_cases hbuf : fs.Buffered
  · rw [or_iff_right (not_not.2 hbuf), ← readFile_within_iff hS hn buf]
    unfold ReadsWithin
    rw [ext2Read_some hbuf]
    exact ⟨fun h => h _ rfl, fun h x hx => Option.some.inj hx ▸ h⟩
  · refine iff_of_true (fun x hx => ?_) (Or.inl hbuf)
    obtain ⟨hr, hsame, -⟩ := ext2Read_none hbuf hn hx
    rw [hr, hsame]
    exact ⟨Nat.zero_le _, fun _ _ => rfl⟩

/-- The last two bytes of the sample file, when two more are asked for. -/
theorem ext2_read_within_last : ReadsWithin sampleFs sampleInode (fun _ => 0) 4 13310 :=
  (ext2_read_within_iff (by decide) (by norm_num) _).2 (Or.inr (Or.inl (by norm_num)))

/-- A file of two bytes in one block. -/
def shortInode : Ext2Inode := ⟨0x8000, 2, fun i => if i = 0 then 1 else 0, 0, 0⟩

/-- Read from its second byte on with the largest length: the rest of the block comes too. -/
theorem ext2_read_past_end : ¬ ∀ (fs : Ext2Fs) (inode : Ext2Inode) (buf : Mem) (n offset : ℕ),
    inode.sizeLo < 4294967296 → offset < 4294967296 → n < 4294967296 →
      ReadsWithin fs inode buf n offset := by
  intro h
  have hr := (h sampleFs shortInode (fun _ => 0) 4294967295 1 (by decide) (by decide) (by decide) _
    (ext2Read_some (by decide) _ _ _ _)).1
  have hcount : (readFile sampleFs shortInode (fun _ => 0) 4294967295 1).r =
      ext2Delivered sampleFs shortInode 1 4294967295 :=
    (readFile_delivers sampleFs (by decide) rfl (by decide) _).1
  rw [hcount] at hr
  exact absurd hr (by decide +kernel)

end End

end DepthOS
