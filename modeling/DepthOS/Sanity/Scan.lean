import DepthOS.Sanity.Bitmap

/-! The loops of `lib/bitmap.c`: `bitmap_setmulti`, the flipping loop, and the
first-fit scan. A scan that finds a run returns the least one; `FreeRun` is the
condition under which it does. -/

namespace DepthOS

open Lib

/-- A loop that updates one index after the other updates exactly the indices
of its range, provided the range does not wrap. -/
theorem bit_foldl_range (op : Bitmap → ℕ → Bitmap) (g : Bool → Bool)
    (hsize : ∀ b i, (op b i).size = b.size)
    (hbit : ∀ b i j, (op b i).bit j = if j = i ∧ i < b.size then g (b.bit j) else b.bit j)
    (bm : Bitmap) (idx n : ℕ) (hn : idx + n ≤ 4294967296) :
    ((List.range n).foldl (fun b i => op b (u32 (idx + i))) bm).size = bm.size ∧
    ∀ j, ((List.range n).foldl (fun b i => op b (u32 (idx + i))) bm).bit j =
      if idx ≤ j ∧ j < idx + n ∧ j < bm.size then g (bm.bit j) else bm.bit j := by
  induction n with
  | zero => exact ⟨rfl, fun j => by rw [if_neg (by omega)]; rfl⟩
  | succ n ih =>
    obtain ⟨ihs, ihb⟩ := ih (by omega)
    rw [List.range_succ, List.foldl_append, List.foldl_cons, List.foldl_nil]
    refine ⟨by rw [hsize, ihs], fun j => ?_⟩
    rw [hbit, ihs, ihb, u32_of_lt (by omega)]
    by_cases hj : j = idx + n
    · subst hj
      rw [if_neg (by omega : ¬(idx ≤ idx + n ∧ idx + n < idx + n ∧ idx + n < bm.size))]
      by_cases hs : idx + n < bm.size
      · rw [if_pos ⟨rfl, hs⟩, if_pos (by omega)]
      · rw [if_neg (by omega), if_neg (by omega)]
    · rw [if_neg (by omega)]
      by_cases hin : idx ≤ j ∧ j < idx + n ∧ j < bm.size
      · rw [if_pos hin, if_pos (by omega)]
      · rw [if_neg hin, if_neg (by omega)]

theorem foldl_length (op : Bitmap → ℕ → Bitmap)
    (h : ∀ b i, (op b i).bits.length = b.bits.length) (f : ℕ → ℕ) (l : List ℕ) (bm : Bitmap) :
    (l.foldl (fun b i => op b (f i)) bm).bits.length = bm.bits.length := by
  induction l generalizing bm with
  | nil => rfl
  | cons a t ih => rw [List.foldl_cons, ih, h]

theorem setmulti_spec (bm : Bitmap) (v : Bool) (idx c : ℕ) (hi : idx < 4294967296)
    (hc : idx ≤ bm.size ∨ idx + c ≤ 4294967296) :
    (bitmapSetmulti bm v idx c).size = bm.size ∧
    ∀ j, (bitmapSetmulti bm v idx c).bit j =
      if idx ≤ j ∧ j < idx + c ∧ j < bm.size then v else bm.bit j := by
  have hsz := bm.size_lt
  have hsub : sub32 bm.size idx =
      if idx ≤ bm.size then bm.size - idx else 4294967296 + bm.size - idx := by
    unfold sub32
    rw [u32_of_lt hi]
    unfold u32
    split_ifs <;> omega
  have hn : idx + min (sub32 bm.size idx) c ≤ 4294967296 := by
    rw [hsub]
    split_ifs <;> omega
  obtain ⟨h1, h2⟩ := bit_foldl_range (fun b i => bitmapSet b v i) (fun _ => v)
    (fun b i => set_size b v i) (fun b i j => bit_set b v i j) bm idx _ hn
  refine ⟨h1, fun j => ?_⟩
  rw [bitmapSetmulti, h2 j]
  by_cases hin : idx ≤ j ∧ j < idx + c ∧ j < bm.size
  · rw [if_pos hin, if_pos]
    rw [hsub, if_pos (by omega)]
    omega
  · rw [if_neg hin, if_neg]
    rw [hsub]
    split_ifs <;> omega

theorem setmulti_length (bm : Bitmap) (v : Bool) (idx c : ℕ) :
    (bitmapSetmulti bm v idx c).bits.length = bm.bits.length :=
  foldl_length (fun b i => bitmapSet b v i) (fun b i => set_length b v i) _ _ _

/-- `n` consecutive in-range bits from `r` on have the value `v`. -/
def RunAt (bm : Bitmap) (n : ℕ) (v : Bool) (r : ℕ) : Prop :=
  r + n ≤ bm.size ∧ ∀ j, r ≤ j → j < r + n → bm.bit j = v

def HasRun (bm : Bitmap) (n : ℕ) (v : Bool) : Prop := ∃ r, RunAt bm n v r

theorem hasRun_of_bits {bm : Bitmap} {n : ℕ} (P : ℕ) (hsize : P + n ≤ bm.size)
    (hbits : ∀ j < P + n, P ≤ j → bm.bit j = false) : HasRun bm n false :=
  ⟨P, hsize, fun j h1 h2 => hbits j h2 h1⟩

/-- The least run of `n` bits of value `v`. -/
structure FirstFit (bm : Bitmap) (n : ℕ) (v : Bool) (r : ℕ) : Prop where
  run : RunAt bm n v r
  least : ∀ r' < r, ¬ RunAt bm n v r'

/-- Loop invariant of the scan at index `i`: the last `rc` bits have the value
sought, fewer than `n` of them, and no run starts before them. -/
structure ScanInv (bm : Bitmap) (n : ℕ) (v : Bool) (i r rc : ℕ) : Prop where
  le : rc ≤ i
  short : rc < n
  start : rc ≠ 0 → r = i - rc
  bits : ∀ j, i - rc ≤ j → j < i → bm.bit j = v
  least : ∀ r' < i - rc, ¬ RunAt bm n v r'

theorem scanLoop_spec (bm : Bitmap) (n : ℕ) (v : Bool) :
    ∀ k i r rc, i + k = bm.size → ScanInv bm n v i r rc →
      (∃ a, FirstFit bm n v a ∧ bitmapScanLoop bm 0 n v k i r rc = s32 a) ∨
      (¬ HasRun bm n v ∧ bitmapScanLoop bm 0 n v k i r rc = -EBITMAP) := by
  have hs := bm.size_lt
  intro k
  induction k with
  | zero =>
    intro i r rc hi hinv
    right
    refine ⟨?_, rfl⟩
    rintro ⟨a, ha⟩
    have hshort := hinv.short
    have hle := hinv.le
    exact hinv.least a (by have := ha.1; omega) ha
  | succ k ih =>
    intro i r rc hi hinv
    obtain ⟨hle, hshort, hstart, hbits, hleast⟩ := hinv
    have htest : bitmapTest bm (u32 (0 + i)) = bm.bit i := by
      rw [Nat.zero_add, u32_of_lt (by omega), test_eq]
      simp [show i < bm.size by omega]
    rw [bitmapScanLoop, htest]
    by_cases hb : bm.bit i = v
    · rw [if_neg (by simpa using hb)]
      -- the run so far, extended by bit `i`
      have hr : (if rc = 0 then i else r) = i - rc := by
        split_ifs with h0
        · omega
        · exact hstart h0
      have hext : ∀ j, i - rc ≤ j → j < i + 1 → bm.bit j = v := by
        intro j h1 h2
        by_cases hji : j = i
        · rw [hji, hb]
        · exact hbits j h1 (by omega)
      simp only [hr]
      by_cases hn : rc + 1 = n
      · rw [if_pos hn]
        left
        exact ⟨i - rc, ⟨⟨by omega, fun j h1 h2 => hext j h1 (by omega)⟩, hleast⟩, rfl⟩
      · rw [if_neg hn]
        apply ih (i + 1) (i - rc) (rc + 1) (by omega)
        exact ⟨by omega, by omega, fun _ => by omega, fun j h1 h2 => hext j (by omega) h2,
          fun r' hr' => hleast r' (by omega)⟩
    · rw [if_pos (by simpa using hb)]
      apply ih (i + 1) r 0 (by omega)
      refine ⟨by omega, by omega, fun h => absurd rfl h, fun j h1 h2 => by omega, ?_⟩
      intro r' hr' hrun
      by_cases hlt : r' < i - rc
      · exact hleast r' hlt hrun
      · exact hb (hrun.2 i (by omega) (by omega))

/-- The scan from index 0, as an `ssize_t`: the least run, or `-EBITMAP` and no run. -/
theorem scan_cases (bm : Bitmap) {n : ℕ} (v : Bool) (hn : 1 ≤ n) :
    (∃ a, FirstFit bm n v a ∧ bitmapScan bm 0 n v = s32 a) ∨
    (¬ HasRun bm n v ∧ bitmapScan bm 0 n v = -EBITMAP) := by
  apply scanLoop_spec bm n v bm.size 0 0 0 (by omega)
  exact ⟨le_rfl, by omega, fun h => absurd rfl h, fun j h1 h2 => by omega, fun r' h => by omega⟩

/-- The first-fit scan from index 0: the least run, or `-EBITMAP` and no run. -/
theorem scan_spec (bm : Bitmap) {n : ℕ} (v : Bool) (hn : 1 ≤ n) (hs : bm.size < 2147483648) :
    (∃ a, FirstFit bm n v a ∧ bitmapScan bm 0 n v = a) ∨
    (¬ HasRun bm n v ∧ bitmapScan bm 0 n v = -EBITMAP) := by
  rcases scan_cases bm v hn with ⟨a, hfit, hscan⟩ | hno
  · have hle := hfit.run.1
    exact Or.inl ⟨a, hfit, by rw [hscan, s32_of_lt (by omega)]⟩
  · exact Or.inr hno

/-- A successful `bitmap_scan_flip` returns the first fit and inverts exactly
its bits. -/
theorem scanFlip_found (bm : Bitmap) {n : ℕ} (v : Bool) (hn : 1 ≤ n)
    (hs : bm.size < 2147483648) (h : HasRun bm n v) :
    ∃ a, FirstFit bm n v a ∧ (bitmapScanFlip bm 0 n v).1 = a ∧
      (bitmapScanFlip bm 0 n v).2.size = bm.size ∧
      (bitmapScanFlip bm 0 n v).2.bits.length = bm.bits.length ∧
      ∀ j, (bitmapScanFlip bm 0 n v).2.bit j =
        if a ≤ j ∧ j < a + n then !bm.bit j else bm.bit j := by
  rcases scan_spec bm v hn hs with ⟨a, hfit, hscan⟩ | ⟨hno, -⟩
  · have hle := hfit.run.1
    have hidx : sizeT (bitmapScan bm 0 n v) = a := by rw [hscan]; exact sizeT_natCast (by omega)
    obtain ⟨h1, h2⟩ := bit_foldl_range bitmapFlip (fun b => !b) flip_size bit_flip bm a n (by omega)
    refine ⟨a, hfit, ?_, ?_, ?_, fun j => ?_⟩
    · simp only [bitmapScanFlip, hidx]
      exact s32_of_lt (by omega)
    · simpa only [bitmapScanFlip, hidx] using h1
    · exact foldl_length bitmapFlip flip_length _ _ _
    · simp only [bitmapScanFlip, hidx, h2 j]
      by_cases hin : a ≤ j ∧ j < a + n
      · rw [if_pos hin, if_pos (by omega)]
      · rw [if_neg hin, if_neg (by omega)]
  · exact absurd h hno

theorem scanFlip_missing (bm : Bitmap) {n : ℕ} (v : Bool) (hn : 1 ≤ n)
    (h : ¬ HasRun bm n v) : (bitmapScanFlip bm 0 n v).1 = -EBITMAP := by
  rcases scan_cases bm v hn with ⟨a, hfit, -⟩ | ⟨-, hscan⟩
  · exact absurd ⟨a, hfit.run⟩ h
  · simp only [bitmapScanFlip, hscan]
    decide

end DepthOS
