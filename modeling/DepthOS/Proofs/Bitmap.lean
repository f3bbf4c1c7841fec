import DepthOS.Sanity.Scan

/-! `bitmap_scan` and `bitmap_scan_flip` seen from outside: what they find, what they
change, and what is left of both when there is nothing to find or the scan does not start
at index 0. -/

namespace DepthOS

open Lib

/-- Eight bits, of which 2 and 5 to 7 are clear. -/
def gapByte : Bitmap := ⟨[0b00011011], 8, by norm_num, by simp⟩

/-- The first-fit scan is exact: the least run is returned, and its bits are inverted. -/
theorem scan_flip_first_fit (bm : Bitmap) {n : ℕ} (v : Bool) (hn : 1 ≤ n)
    (hs : bm.size < 2147483648) (h : ∃ r, RunAt bm n v r) :
    ∃ r, RunAt bm n v r ∧ (∀ r' < r, ¬ RunAt bm n v r') ∧ (bitmapScanFlip bm 0 n v).1 = r ∧
      (bitmapScanFlip bm 0 n v).2.size = bm.size ∧
      ∀ j, bitmapTest (bitmapScanFlip bm 0 n v).2 j =
        if r ≤ j ∧ j < r + n then !bitmapTest bm j else bitmapTest bm j := by
  obtain ⟨r, hfit, hret, hsize, -, hbit⟩ := scanFlip_found bm v hn hs h
  have hle := hfit.run.1
  refine ⟨r, hfit.run, hfit.least, hret, hsize, fun j => ?_⟩
  rw [test_eq, test_eq, hsize, hbit]
  by_cases hj : r ≤ j ∧ j < r + n
  · have hlt : j < bm.size := by omega
    simp [hj, hlt]
  · simp [hj]

theorem gapByte_run : RunAt gapByte 2 false 5 := by
  refine ⟨by decide, fun j h1 h2 => ?_⟩
  have hj : j = 5 ∨ j = 6 := by omega
  rcases hj with rfl | rfl <;> rfl

/-- The first two clear bits in a row are 5 and 6. -/
theorem scan_flip_first_fit_gap : ∃ r, RunAt gapByte 2 false r ∧
    (∀ r' < r, ¬ RunAt gapByte 2 false r') ∧ (bitmapScanFlip gapByte 0 2 false).1 = r := by
  obtain ⟨r, hr, hleast, hret, -⟩ :=
    scan_flip_first_fit gapByte false (by norm_num : 1 ≤ 2) (by decide) ⟨5, gapByte_run⟩
  exact ⟨r, hr, hleast, hret⟩

section Missing

variable {bm : Bitmap} {n : ℕ} {v : Bool}

/-- What the flipping loop does with the failure value: its first index is out of bounds,
and the next one is 0. -/
theorem scanFlip_missing_bit (hn : 1 ≤ n) (hn' : n < 4294967296) (h : ¬ HasRun bm n v) (j : ℕ) :
    (bitmapScanFlip bm 0 n v).2.size = bm.size ∧
    (bitmapScanFlip bm 0 n v).2.bit j =
      if j + 1 < n ∧ j < bm.size then !bm.bit j else bm.bit j := by
  have hscan : bitmapScan bm 0 n v = -EBITMAP := by
    rcases scan_cases bm v hn with ⟨a, hfit, -⟩ | ⟨-, hscan⟩
    · exact absurd ⟨a, hfit.run⟩ h
    · exact hscan
  obtain ⟨m, rfl⟩ : ∃ m, n = m + 1 := ⟨n - 1, by omega⟩
  have hfirst : bitmapFlip bm (u32 (4294967295 + 0)) = bm := by
    have hout : ¬ 4294967295 < bm.size := by
      have := bm.size_lt
      omega
    simp [bitmapFlip, bitmapInBounds, u32, hout]
  -- from the second round on the loop runs over the indices from 0
  have hloop : (bitmapScanFlip bm 0 (m + 1) v).2 =
      (List.range m).foldl (fun b i => bitmapFlip b (u32 (0 + i))) bm := by
    have hidx : sizeT (-EBITMAP) = 4294967295 := by decide
    simp only [bitmapScanFlip, hscan, hidx, List.range_succ_eq_map, List.foldl_cons, hfirst,
      List.foldl_map]
    congr 1
    funext b i
    congr 1
    unfold u32
    omega
  obtain ⟨hsize, hbit⟩ := bit_foldl_range bitmapFlip (fun b => !b) flip_size bit_flip bm 0 m
    (by omega)
  rw [hloop, hbit j]
  refine ⟨hsize, ?_⟩
  simp

/-- A scan that fails leaves the bitmap alone exactly when it looked for a single bit, or the
bitmap has none. -/
theorem scan_flip_failed_iff (hn : 1 ≤ n) (hn' : n < 4294967296)
    (h : ∀ r, ¬ RunAt bm n v r) :
    ((bitmapScanFlip bm 0 n v).1 = -EBITMAP ∧
      ∀ j, bitmapTest (bitmapScanFlip bm 0 n v).2 j = bitmapTest bm j) ↔
    n = 1 ∨ bm.size = 0 := by
  have hno : ¬ HasRun bm n v := fun ⟨r, hr⟩ => h r hr
  have hbit := scanFlip_missing_bit hn hn' hno
  constructor
  · rintro ⟨-, hsame⟩
    by_contra hmore
    have hflip := hsame 0
    have hn2 : 0 + 1 < n := by omega
    have hpos : 0 < bm.size := by omega
    rw [test_eq, test_eq, (hbit 0).1, (hbit 0).2] at hflip
    simp [hn2, hpos] at hflip
  · intro hfew
    refine ⟨scanFlip_missing bm v hn hno, fun j => ?_⟩
    rw [test_eq, test_eq, (hbit j).1, (hbit j).2, if_neg (by omega)]

end Missing

/-- Eight bits, all set. -/
def fullByte : Bitmap := ⟨[0b11111111], 8, by norm_num, by simp⟩

theorem fullByte_runs {n : ℕ} (hn : 1 ≤ n) (r : ℕ) : ¬ RunAt fullByte n false r := by
  rintro ⟨hle, hclear⟩
  have hset : ∀ j < 8, fullByte.bit j = true := by decide
  have hr : r + n ≤ 8 := hle
  have := hclear r le_rfl (by omega)
  simp [hset r (by omega)] at this

/-- Looking for one clear bit changes nothing. -/
theorem scan_flip_failed_one : (bitmapScanFlip fullByte 0 1 false).1 = -EBITMAP ∧
    ∀ j, bitmapTest (bitmapScanFlip fullByte 0 1 false).2 j = bitmapTest fullByte j :=
  (scan_flip_failed_iff le_rfl (by norm_num) (fullByte_runs le_rfl)).2 (Or.inl rfl)

/-- Looking for two clears the first bit. -/
theorem scan_flip_failed_changes : ¬ ∀ (bm : Bitmap) (n : ℕ) (v : Bool), 1 ≤ n →
    n < 4294967296 → (∀ r, ¬ RunAt bm n v r) → (bitmapScanFlip bm 0 n v).1 = -EBITMAP ∧
      ∀ j, bitmapTest (bitmapScanFlip bm 0 n v).2 j = bitmapTest bm j := by
  intro h
  have hsame := (h fullByte 2 false (by norm_num) (by norm_num) (fullByte_runs (by norm_num))).2 0
  exact absurd hsame (by decide)

/-! Scanning from a start index. -/

section From

variable {bm : Bitmap} {s n : ℕ} {v : Bool}

/-- Eight bits as a byte. -/
def packByte (f : ℕ → Bool) : Byte :=
  (BitVec.ofBoolListLE ((List.range 8).map f)).setWidth 8

theorem packByte_getLsbD (f : ℕ → Bool) {k : ℕ} (hk : k < 8) : (packByte f).getLsbD k = f k := by
  rw [packByte, BitVec.getLsbD_setWidth, BitVec.getLsbD_ofBoolListLE]
  simp [hk]

/-- The bitmap as the tests of a scan from `s` see it: shifted, with zeros behind its end. -/
def bitmapFrom (bm : Bitmap) (s : ℕ) : Bitmap where
  bits := (List.range bm.bits.length).map fun k => packByte fun c => bitmapTest bm (s + (8 * k + c))
  size := bm.size
  size_lt := bm.size_lt
  fits := by simpa using bm.fits

theorem bit_from {j : ℕ} (hj : j < bm.size) : (bitmapFrom bm s).bit j = bitmapTest bm (s + j) := by
  have hlt : j / 8 < bm.bits.length := index_lt_length bm hj
  have hload : (bitmapFrom bm s).load (j / 8) =
      packByte fun c => bitmapTest bm (s + (8 * (j / 8) + c)) := by
    simp [Bitmap.load, bitmapFrom, hlt]
  rw [Bitmap.bit, hload, packByte_getLsbD _ (Nat.mod_lt _ (by norm_num)), Nat.div_add_mod]

theorem scanLoop_from (hs : s + bm.size ≤ 4294967296) :
    ∀ k i r rc, i + k = bm.size →
      bitmapScanLoop bm s n v k i r rc = bitmapScanLoop (bitmapFrom bm s) 0 n v k i r rc := by
  intro k
  induction k with
  | zero => exact fun _ _ _ _ => rfl
  | succ k ih =>
    intro i r rc hi
    have htest : bitmapTest (bitmapFrom bm s) (u32 (0 + i)) = bitmapTest bm (u32 (s + i)) := by
      have hlt : i < (bitmapFrom bm s).size := by
        change i < bm.size
        omega
      rw [Nat.zero_add, u32_of_lt (by omega), u32_of_lt (by omega), test_eq,
        bit_from (show i < bm.size by omega)]
      simp [hlt]
    simp only [bitmapScanLoop, htest, ih (i + 1) _ _ (by omega)]

/-- A run of the shifted bitmap: positions relative to `s`, which may lie behind the end. -/
theorem runAt_from {i : ℕ} : RunAt (bitmapFrom bm s) n v i ↔
    i + n ≤ bm.size ∧ ∀ j, i ≤ j → j < i + n → bitmapTest bm (s + j) = v := by
  refine and_congr_right fun hle => forall_congr' fun j => ?_
  refine imp_congr_right fun _ => imp_congr_right fun hlt => ?_
  rw [bit_from (show j < bm.size from lt_of_lt_of_le hlt hle)]

theorem runAt_from_of_run {r : ℕ} (hsr : s ≤ r) (hr : RunAt bm n v r) :
    RunAt (bitmapFrom bm s) n v (r - s) := by
  have hle := hr.1
  refine runAt_from.2 ⟨by omega, fun j h1 h2 => ?_⟩
  have hlt : s + j < bm.size := by omega
  rw [test_eq, hr.2 (s + j) (by omega) (by omega)]
  simp [hlt]

/-- The bitmap ends in `e` zeros, at `s` or after it. -/
def EndsInZeros (bm : Bitmap) (s e : ℕ) : Prop :=
  s + e ≤ bm.size ∧ ∀ j, bm.size - e ≤ j → j < bm.size → bm.bit j = false

/-- The scan from `s` meets no run: none in range, and the zeros at the end are too few even
with the `s` that it reads behind them. -/
theorem no_runAt_from_iff (hs : s < bm.size) (hn : 1 ≤ n) :
    (∀ i, ¬ RunAt (bitmapFrom bm s) n v i) ↔
      (∀ r, s ≤ r → ¬ RunAt bm n v r) ∧ (v = false → ∀ e, EndsInZeros bm s e → s + e < n) := by
  constructor
  · intro h
    refine ⟨fun r hsr hr => h _ (runAt_from_of_run hsr hr), fun hv e he => ?_⟩
    by_contra hge
    have hle := he.1
    refine h (bm.size - s - e) (runAt_from.2 ⟨by omega, fun j h1 h2 => ?_⟩)
    rw [test_eq, hv]
    by_cases hj : s + j < bm.size
    · simp [he.2 (s + j) (by omega) hj]
    · simp [hj]
  · rintro ⟨hrun, hzeros⟩ i hi
    obtain ⟨hle, htest⟩ := runAt_from.1 hi
    -- the bits of the window that are in range
    have hin : ∀ j, s + i ≤ j → j < s + i + n → j < bm.size → bm.bit j = v := by
      intro j h1 h2 hj
      have := htest (j - s) (by omega) (by omega)
      rw [show s + (j - s) = j by omega, test_eq] at this
      simpa [hj] using this
    by_cases hend : s + i + n ≤ bm.size
    · exact hrun (s + i) (Nat.le_add_right _ _) ⟨hend, fun j h1 h2 => hin j h1 h2 (by omega)⟩
    · -- a window that reaches behind the end is one of zeros
      have hv : v = false := by
        have hlast := htest (i + n - 1) (by omega) (by omega)
        have hout : ¬ s + (i + n - 1) < bm.size := by omega
        rw [test_eq] at hlast
        simpa [hout] using hlast.symm
      have hfew := hzeros hv (bm.size - (s + i)) ⟨by omega, fun j h1 h2 => ?_⟩
      · omega
      · rw [hin j (by omega) (by omega) h2, hv]

/-- What the scan from `s` returns is relative to `s`. -/
theorem scan_from_cases (hs : s < bm.size) (hsize : bm.size < 2147483648) (hn : 1 ≤ n) :
    (∃ i, FirstFit (bitmapFrom bm s) n v i ∧ bitmapScan bm s n v = i) ∨
      ((∀ i, ¬ RunAt (bitmapFrom bm s) n v i) ∧ bitmapScan bm s n v = -EBITMAP) := by
  have hscan : bitmapScan bm s n v = bitmapScan (bitmapFrom bm s) 0 n v :=
    scanLoop_from (by omega) bm.size 0 0 0 (Nat.zero_add _)
  rw [hscan]
  rcases scan_spec (bitmapFrom bm s) v hn hsize with hfound | ⟨hno, hret⟩
  · exact Or.inl hfound
  · exact Or.inr ⟨fun i hi => hno ⟨i, hi⟩, hret⟩

/-- `r` is the first run at `s` or after it. -/
def FirstFrom (bm : Bitmap) (s n : ℕ) (v : Bool) (r : ℕ) : Prop :=
  s ≤ r ∧ RunAt bm n v r ∧ ∀ r', s ≤ r' → r' < r → ¬ RunAt bm n v r'

theorem exists_firstFrom {r : ℕ} (hsr : s ≤ r) (hr : RunAt bm n v r) :
    ∃ r0, FirstFrom bm s n v r0 := by
  classical
  have hex : ∃ r, s ≤ r ∧ RunAt bm n v r := ⟨r, hsr, hr⟩
  obtain ⟨h1, h2⟩ := Nat.find_spec hex
  exact ⟨Nat.find hex, h1, h2, fun r' hs' hlt hr' => Nat.find_min hex hlt ⟨hs', hr'⟩⟩

/-- A scan from `s` returns the first run there, as an index of the bitmap, exactly when `s`
is 0 or it meets nothing. -/
theorem scan_from_start_iff (hs : s < bm.size) (hsize : bm.size < 2147483648) (hn : 1 ≤ n) :
    ((∀ r, FirstFrom bm s n v r → bitmapScan bm s n v = r) ∧
      (bitmapScan bm s n v = -EBITMAP ↔ ∀ r, s ≤ r → ¬ RunAt bm n v r)) ↔
    s = 0 ∨ ((∀ r, s ≤ r → ¬ RunAt bm n v r) ∧
      (v = false → ∀ e, EndsInZeros bm s e → s + e < n)) := by
  rw [← no_runAt_from_iff hs hn]
  rcases scan_from_cases hs hsize hn with ⟨i, hfit, hret⟩ | ⟨hno, hret⟩
  · have hneg : bitmapScan bm s n v ≠ -EBITMAP := by
      rw [hret, EBITMAP]
      omega
    constructor
    · rintro ⟨hleast, hiff⟩
      left
      have hsome : ∃ r, s ≤ r ∧ RunAt bm n v r := by
        by_contra hnone
        exact hneg (hiff.2 fun r hsr hr => hnone ⟨r, hsr, hr⟩)
      obtain ⟨r, hsr, hr⟩ := hsome
      obtain ⟨r0, hr0⟩ := exists_firstFrom hsr hr
      have heq : r0 = i := by
        have := hleast r0 hr0
        rw [hret] at this
        exact_mod_cast this.symm
      -- the window at `r0 - s` is met no later than `i`
      have hle : i ≤ r0 - s := by
        by_contra hlt
        exact hfit.least (r0 - s) (by omega) (runAt_from_of_run hr0.1 hr0.2.1)
      have := hr0.1
      omega
    · rintro (rfl | hno)
      · have hiff : ∀ i, RunAt (bitmapFrom bm 0) n v i ↔ RunAt bm n v i := by
          intro i
          rw [runAt_from]
          refine and_congr_right fun hle => forall_congr' fun j => ?_
          refine imp_congr_right fun _ => imp_congr_right fun hlt => ?_
          have hj : j < bm.size := by omega
          rw [Nat.zero_add, test_eq]
          simp [hj]
        have hrun := (hiff i).1 hfit.run
        refine ⟨fun r hr => ?_, fun h => absurd h hneg, fun h => absurd hrun (h i (Nat.zero_le i))⟩
        have heq : r = i := by
          rcases Nat.lt_trichotomy r i with hlt | heq | hgt
          · exact absurd ((hiff r).2 hr.2.1) (hfit.least r hlt)
          · exact heq
          · exact absurd hrun (hr.2.2 i (Nat.zero_le i) hgt)
        rw [hret, heq]
      · exact absurd hfit.run (hno i)
  · have hnone : ∀ r, s ≤ r → ¬ RunAt bm n v r := fun r hsr hr =>
      hno _ (runAt_from_of_run hsr hr)
    refine ⟨fun _ => Or.inr hno, fun _ => ⟨fun r hr => absurd hr.2.1 (hnone r hr.1), ?_⟩⟩
    exact ⟨fun _ => hnone, fun _ => hret⟩

end From

/-- From 4 on no two set bits follow each other, and the scan says so. -/
theorem scan_from_start_none : bitmapScan gapByte 4 2 true = -EBITMAP ↔
    ∀ r, 4 ≤ r → ¬ RunAt gapByte 2 true r := by
  have hno : ∀ r, 4 ≤ r → ¬ RunAt gapByte 2 true r := by
    rintro r hr ⟨hle, hset⟩
    have hclear : ∀ j < 8, 5 ≤ j → gapByte.bit j = false := by decide
    have hr8 : r + 2 ≤ 8 := hle
    have := hset (r + 1) (by omega) (by omega)
    simp [hclear (r + 1) (by omega) (by omega)] at this
  exact ((scan_from_start_iff (by decide) (by decide) (by norm_num)).2
    (Or.inr ⟨hno, fun h => absurd h (by decide)⟩)).2

/-- The scan from 4 for two clear bits finds those at 5 and returns 1. -/
theorem scan_from_start_relative : ¬ ∀ (bm : Bitmap) (s n : ℕ) (v : Bool), s < bm.size →
    bm.size < 2147483648 → 1 ≤ n →
      (∀ r, FirstFrom bm s n v r → bitmapScan bm s n v = r) ∧
      (bitmapScan bm s n v = -EBITMAP ↔ ∀ r, s ≤ r → ¬ RunAt bm n v r) := by
  intro h
  have hfirst : FirstFrom gapByte 4 2 false 5 := by
    refine ⟨by norm_num, gapByte_run, fun r' h1 h2 hr' => ?_⟩
    have h4 : r' = 4 := by omega
    have hbit := hr'.2 4 (by omega) (by omega)
    exact absurd hbit (by decide)
  have hret := (h gapByte 4 2 false (by decide) (by decide) (by norm_num)).1 5 hfirst
  exact absurd hret (by decide)

end DepthOS
