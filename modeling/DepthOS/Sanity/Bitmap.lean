import DepthOS.Spec.Bitmap

/-! What the bitmap operations do, bit by bit. `Bitmap.bit` reads the storage
without the bounds check of `bitmap_test`, so that equality of all bits is
equality of bitmaps, and every later proof goes through these lemmas instead
of the packed bytes. -/

namespace DepthOS

open Lib

def Bitmap.bit (bm : Bitmap) (j : ℕ) : Bool := (bm.load (j / 8)).getLsbD (j % 8)

theorem mask_getLsbD (i k : ℕ) (hk : k < 8) :
    (bitmapElemMask i).getLsbD k = decide (k = i % 8) := by
  have hall : ∀ a < 8, ∀ b < 8, (1#8 <<< a : Byte).getLsbD b = decide (b = a) := by decide
  exact hall (i % 8) (Nat.mod_lt _ (by decide)) k hk

@[simp] theorem store_size (bm : Bitmap) (k : ℕ) (v : Byte) : (bm.store k v).size = bm.size := rfl

@[simp] theorem store_length (bm : Bitmap) (k : ℕ) (v : Byte) :
    (bm.store k v).bits.length = bm.bits.length := by simp [Bitmap.store]

theorem load_store (bm : Bitmap) (k k' : ℕ) (v : Byte) (hk : k < bm.bits.length) :
    (bm.store k v).load k' = if k' = k then v else bm.load k' := by
  simp only [Bitmap.load, Bitmap.store, List.getD_eq_getElem?_getD, List.getElem?_set]
  by_cases h : k = k'
  · subst h; simp [hk]
  · simp [h, Ne.symm h]

theorem index_lt_length (bm : Bitmap) {i : ℕ} (hi : i < bm.size) :
    bitmapElemIndex i < bm.bits.length := by
  have := bm.fits
  simp only [bitmapElemIndex, bitmapElemSize]
  omega

/-- The common shape of mark, reset and flip: one byte is rewritten, and only
its bit at the index can change. -/
theorem bit_store (bm : Bitmap) {i : ℕ} (hi : i < bm.size) (v : Byte) (f : Bool → Bool)
    (hsame : v.getLsbD (i % 8) = f (bm.bit i))
    (hother : ∀ k < 8, k ≠ i % 8 → v.getLsbD k = (bm.load (i / 8)).getLsbD k) (j : ℕ) :
    (bm.store (bitmapElemIndex i) v).bit j = if j = i then f (bm.bit j) else bm.bit j := by
  have hlt : i / 8 < bm.bits.length := index_lt_length bm hi
  change (bm.store (i / 8) v).bit j = _
  unfold Bitmap.bit at hsame ⊢
  rw [load_store bm (i / 8) (j / 8) v hlt]
  by_cases hji : j = i
  · subst hji; simp [hsame]
  · rw [if_neg hji]
    by_cases hb : j / 8 = i / 8
    · rw [if_pos hb, hb]
      exact hother (j % 8) (Nat.mod_lt _ (by decide)) (by omega)
    · rw [if_neg hb]

theorem bit_mark (bm : Bitmap) (i j : ℕ) :
    (bitmapMark bm i).bit j = if j = i ∧ i < bm.size then true else bm.bit j := by
  unfold bitmapMark bitmapInBounds
  by_cases hi : i < bm.size
  · rw [if_pos (by simpa using hi), bit_store bm hi _ (fun _ => true)]
    · simp [hi]
    · simp [mask_getLsbD i (i % 8) (Nat.mod_lt _ (by decide))]
    · intro k hk hne
      simp [mask_getLsbD i k hk, hne, bitmapElemIndex, bitmapElemSize]
  · simp [hi]

theorem bit_reset (bm : Bitmap) (i j : ℕ) :
    (bitmapReset bm i).bit j = if j = i ∧ i < bm.size then false else bm.bit j := by
  unfold bitmapReset bitmapInBounds
  by_cases hi : i < bm.size
  · rw [if_pos (by simpa using hi), bit_store bm hi _ (fun _ => false)]
    · simp [hi]
    · have h8 : i % 8 < 8 := Nat.mod_lt _ (by decide)
      simp [mask_getLsbD i (i % 8) h8]
    · intro k hk hne
      simp only [BitVec.getLsbD_and, BitVec.getLsbD_not, mask_getLsbD i k hk, hne, hk,
        bitmapElemIndex, bitmapElemSize, decide_true, decide_false, Bool.not_false, Bool.and_true]
  · simp [hi]

theorem bit_flip (bm : Bitmap) (i j : ℕ) :
    (bitmapFlip bm i).bit j = if j = i ∧ i < bm.size then !bm.bit j else bm.bit j := by
  unfold bitmapFlip bitmapInBounds
  by_cases hi : i < bm.size
  · rw [if_pos (by simpa using hi), bit_store bm hi _ (fun b => !b)]
    · simp [hi]
    · simp [mask_getLsbD i (i % 8) (Nat.mod_lt _ (by decide)), Bitmap.bit, bitmapElemIndex,
        bitmapElemSize]
    · intro k hk hne
      simp [mask_getLsbD i k hk, hne, bitmapElemIndex, bitmapElemSize]
  · simp [hi]

theorem bit_set (bm : Bitmap) (v : Bool) (i j : ℕ) :
    (bitmapSet bm v i).bit j = if j = i ∧ i < bm.size then v else bm.bit j := by
  cases v
  · exact bit_reset bm i j
  · exact bit_mark bm i j

theorem test_eq (bm : Bitmap) (i : ℕ) : bitmapTest bm i = (decide (i < bm.size) && bm.bit i) := by
  unfold bitmapTest bitmapInBounds
  by_cases hi : i < bm.size
  · have h8 : i % 8 < 8 := Nat.mod_lt _ (by decide)
    simp only [hi, decide_true, if_true, Bool.true_and, Bitmap.bit]
    cases hb : (bm.load (i / 8)).getLsbD (i % 8)
    · have hz : bm.load (bitmapElemIndex i) &&& bitmapElemMask i = 0 := by
        apply BitVec.eq_of_getLsbD_eq
        intro k hk
        rw [BitVec.getLsbD_and, mask_getLsbD i k hk]
        by_cases hki : k = i % 8
        · subst hki; simpa [bitmapElemIndex, bitmapElemSize] using hb
        · simp [hki]
      simp [hz]
    · have hnz : bm.load (bitmapElemIndex i) &&& bitmapElemMask i ≠ 0 := by
        intro hz
        have := congrArg (fun b : Byte => b.getLsbD (i % 8)) hz
        simp [mask_getLsbD i (i % 8) h8, bitmapElemIndex, bitmapElemSize, hb] at this
      simpa using hnz
  · simp [hi]

@[simp] theorem mark_size (bm : Bitmap) (i : ℕ) : (bitmapMark bm i).size = bm.size := by
  unfold bitmapMark; split_ifs <;> rfl

@[simp] theorem reset_size (bm : Bitmap) (i : ℕ) : (bitmapReset bm i).size = bm.size := by
  unfold bitmapReset; split_ifs <;> rfl

@[simp] theorem flip_size (bm : Bitmap) (i : ℕ) : (bitmapFlip bm i).size = bm.size := by
  unfold bitmapFlip; split_ifs <;> rfl

@[simp] theorem set_size (bm : Bitmap) (v : Bool) (i : ℕ) : (bitmapSet bm v i).size = bm.size := by
  unfold bitmapSet; split_ifs <;> simp

@[simp] theorem mark_length (bm : Bitmap) (i : ℕ) :
    (bitmapMark bm i).bits.length = bm.bits.length := by
  unfold bitmapMark; split_ifs <;> simp

@[simp] theorem reset_length (bm : Bitmap) (i : ℕ) :
    (bitmapReset bm i).bits.length = bm.bits.length := by
  unfold bitmapReset; split_ifs <;> simp

@[simp] theorem flip_length (bm : Bitmap) (i : ℕ) :
    (bitmapFlip bm i).bits.length = bm.bits.length := by
  unfold bitmapFlip; split_ifs <;> simp

@[simp] theorem set_length (bm : Bitmap) (v : Bool) (i : ℕ) :
    (bitmapSet bm v i).bits.length = bm.bits.length := by
  unfold bitmapSet; split_ifs <;> simp

theorem bitmap_ext_bit {a b : Bitmap} (hs : a.size = b.size) (hl : a.bits.length = b.bits.length)
    (h : ∀ j, a.bit j = b.bit j) : a = b := by
  apply Bitmap.ext _ hs
  apply List.ext_getElem hl
  intro k h1 h2
  apply BitVec.eq_of_getLsbD_eq
  intro c hc
  have hb := h (8 * k + c)
  rw [Bitmap.bit, Bitmap.bit, show (8 * k + c) / 8 = k by omega,
    show (8 * k + c) % 8 = c by omega] at hb
  simpa [Bitmap.load, h1, h2] using hb

theorem bit_init (size : ℕ) (h : size < 4294967296) (j : ℕ) : (bitmapInit size h).bit j = false := by
  simp only [Bitmap.bit, Bitmap.load, bitmapInit, List.getD_eq_getElem?_getD,
    List.getElem?_replicate]
  split_ifs <;> simp

end DepthOS
