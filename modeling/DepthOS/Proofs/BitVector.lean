import DepthOS.Sanity.Scan

/-! The bitmap as a Boolean vector. Each call that updates a bitmap is an update of the
vector of the bits that `bitmap_test` reads, and what lies behind them in the storage stays
as it was. -/

namespace DepthOS

open Lib

/-- A call on a bitmap. -/
inductive BitUpdate where
  | mark (i : ℕ)
  | reset (i : ℕ)
  | flip (i : ℕ)
  | set (v : Bool) (i : ℕ)
  | setmulti (v : Bool) (idx c : ℕ)

def BitUpdate.run (bm : Bitmap) : BitUpdate → Bitmap
  | .mark i => bitmapMark bm i
  | .reset i => bitmapReset bm i
  | .flip i => bitmapFlip bm i
  | .set v i => bitmapSet bm v i
  | .setmulti v idx c => bitmapSetmulti bm v idx c

/-- The update of a Boolean vector, where an index past the end has no effect. -/
def BitUpdate.apply (l : List Bool) : BitUpdate → List Bool
  | .mark i => l.set i true
  | .reset i => l.set i false
  | .flip i => l.modify i (! ·)
  | .set v i => l.set i v
  | .setmulti v idx c => l.mapIdx fun j b => if idx ≤ j ∧ j < idx + c then v else b

/-- The vector that `bitmap_test` reads. -/
def Bitmap.vec (bm : Bitmap) : List Bool := (List.range bm.size).map (bitmapTest bm)

/-- Index and count fit into an `int`. -/
def BitUpdate.Small : BitUpdate → Prop
  | .mark i | .reset i | .flip i | .set _ i => i < 2147483648
  | .setmulti _ idx c => idx < 2147483648 ∧ c < 2147483648

/-- The call is about index `j`. -/
def BitUpdate.Touches (j : ℕ) : BitUpdate → Prop
  | .mark i | .reset i | .flip i | .set _ i => j = i
  | .setmulti _ idx c => idx ≤ j ∧ j < idx + c

instance (j : ℕ) : (u : BitUpdate) → Decidable (u.Touches j)
  | .mark i | .reset i | .flip i | .set _ i => inferInstanceAs (Decidable (j = i))
  | .setmulti _ idx c => inferInstanceAs (Decidable (idx ≤ j ∧ j < idx + c))

/-- The value that an index gets if the call is about it. -/
def BitUpdate.value (b : Bool) : BitUpdate → Bool
  | .mark _ => true
  | .reset _ => false
  | .flip _ => !b
  | .set v _ | .setmulti v _ _ => v

variable {bm : Bitmap} {u : BitUpdate} {j : ℕ}

@[simp] theorem vec_length : bm.vec.length = bm.size := by simp [Bitmap.vec]

theorem vec_getElem? : bm.vec[j]? = if j < bm.size then some (bm.bit j) else none := by
  unfold Bitmap.vec
  rw [List.getElem?_map]
  split_ifs with hj
  · rw [List.getElem?_range hj, Option.map_some, test_eq, decide_eq_true hj, Bool.true_and]
  · rw [List.getElem?_eq_none (by simpa using hj)]
    rfl

/-! One call, in the storage and in the vector. -/

theorem run_size_bit (bm : Bitmap) (j : ℕ) (hu : u.Small) : (u.run bm).size = bm.size ∧
    (u.run bm).bits.length = bm.bits.length ∧
    (u.run bm).bit j = if u.Touches j ∧ j < bm.size then u.value (bm.bit j) else bm.bit j := by
  have hsame : ∀ i, (j = i ∧ i < bm.size) ↔ (j = i ∧ j < bm.size) := by
    intro i
    constructor <;> rintro ⟨rfl, h⟩ <;> exact ⟨rfl, h⟩
  cases u with
  | mark i =>
    refine ⟨mark_size bm i, mark_length bm i, ?_⟩
    exact (bit_mark bm i j).trans (if_congr (hsame i) rfl rfl)
  | reset i =>
    refine ⟨reset_size bm i, reset_length bm i, ?_⟩
    exact (bit_reset bm i j).trans (if_congr (hsame i) rfl rfl)
  | flip i =>
    refine ⟨flip_size bm i, flip_length bm i, ?_⟩
    exact (bit_flip bm i j).trans (if_congr (hsame i) rfl rfl)
  | set v i =>
    refine ⟨set_size bm v i, set_length bm v i, ?_⟩
    exact (bit_set bm v i j).trans (if_congr (hsame i) rfl rfl)
  | setmulti v idx c =>
    obtain ⟨hidx, hc⟩ := hu
    obtain ⟨hsize, hbit⟩ := setmulti_spec bm v idx c (by omega) (Or.inr (by omega))
    refine ⟨hsize, setmulti_length bm v idx c, ?_⟩
    exact (hbit j).trans (if_congr and_assoc.symm rfl rfl)

theorem apply_getElem? (l : List Bool) : (u.apply l)[j]? =
    l[j]?.map fun b => if u.Touches j then u.value b else b := by
  have hset : ∀ (v : Bool) (i : ℕ),
      (l.set i v)[j]? = l[j]?.map fun b => if j = i then v else b := by
    intro v i
    rw [List.getElem?_set']
    by_cases hij : j = i
    · rw [if_pos hij.symm, hij]
      simp only [if_true]
      rfl
    · simp [hij, Ne.symm hij]
  cases u with
  | mark i => exact hset true i
  | reset i => exact hset false i
  | flip i =>
    simp only [BitUpdate.apply, BitUpdate.Touches, BitUpdate.value, List.getElem?_modify]
    by_cases hij : j = i
    · simp [hij]
    · simp [hij, Ne.symm hij]
  | set v i => exact hset v i
  | setmulti v idx c => exact List.getElem?_mapIdx

theorem run_vec (hu : u.Small) : (u.run bm).vec = u.apply bm.vec := by
  apply List.ext_getElem?
  intro j
  obtain ⟨hsize, -, hbit⟩ := run_size_bit bm j hu
  rw [vec_getElem?, apply_getElem?, vec_getElem?, hsize, hbit]
  split_ifs <;> simp_all

theorem run_byte (hu : u.Small) {k : ℕ} (hk : ∀ j < bm.size, u.Touches j → j / 8 ≠ k) :
    (u.run bm).bits[k]? = bm.bits[k]? := by
  have hload : (u.run bm).load k = bm.load k := by
    apply BitVec.eq_of_getLsbD_eq
    intro c hc
    have hnot : ¬ (u.Touches (8 * k + c) ∧ 8 * k + c < bm.size) := by
      rintro ⟨ht, hlt⟩
      exact hk _ hlt ht (by omega)
    have hbit := (run_size_bit bm (8 * k + c) hu).2.2
    rw [if_neg hnot, Bitmap.bit, Bitmap.bit, show (8 * k + c) / 8 = k by omega,
      show (8 * k + c) % 8 = c by omega] at hbit
    exact hbit
  have hlen := (run_size_bit bm 0 hu).2.1
  unfold Bitmap.load at hload
  rw [List.getD_eq_getElem?_getD, List.getD_eq_getElem?_getD] at hload
  by_cases hlt : k < bm.bits.length
  · rw [List.getElem?_eq_getElem hlt, List.getElem?_eq_getElem (hlen ▸ hlt)] at hload ⊢
    exact congrArg some hload
  · rw [List.getElem?_eq_none (by omega), List.getElem?_eq_none (by omega)]

/-- Each call is the update of the vector. Indices at or behind its end change no bit behind
the end and no byte of the storage. -/
theorem bitmap_refines_vector (bm : Bitmap) (u : BitUpdate) (hu : u.Small) :
    (u.run bm).size = bm.size ∧ (u.run bm).vec = u.apply bm.vec ∧
    (∀ j, bm.size ≤ j → (u.run bm).bit j = bm.bit j) ∧
    ∀ k, (∀ j < bm.size, u.Touches j → j / 8 ≠ k) → (u.run bm).bits[k]? = bm.bits[k]? := by
  refine ⟨(run_size_bit bm 0 hu).1, run_vec hu, fun j hj => ?_, fun k => run_byte hu⟩
  rw [(run_size_bit bm j hu).2.2, if_neg (by omega)]

/-- A range that begins behind the end, where `bm->size - idx` has wrapped. -/
theorem bitmap_refines_vector_behind :
    ((BitUpdate.setmulti true 9 4).run (bitmapInit 5 (by decide))).vec =
      (BitUpdate.setmulti true 9 4).apply (bitmapInit 5 (by decide)).vec :=
  (bitmap_refines_vector (bitmapInit 5 (by decide)) (.setmulti true 9 4)
    (And.intro (by decide) (by decide))).2.1

/-- Whole sequences of calls. -/
theorem bitmap_runs_refine_vector (us : List BitUpdate) (hus : ∀ u ∈ us, u.Small) (bm : Bitmap) :
    (us.foldl BitUpdate.run bm).vec = us.foldl BitUpdate.apply bm.vec ∧
    ∀ j, bm.size ≤ j → (us.foldl BitUpdate.run bm).bit j = bm.bit j := by
  induction us generalizing bm with
  | nil => exact ⟨rfl, fun _ _ => rfl⟩
  | cons u us ih =>
    have hu : u.Small := hus u List.mem_cons_self
    obtain ⟨hvec, hbit⟩ := ih (fun u' h => hus u' (List.mem_cons_of_mem _ h)) (u.run bm)
    rw [List.foldl_cons, List.foldl_cons]
    refine ⟨by rw [hvec, run_vec hu], fun j hj => ?_⟩
    rw [hbit j (by rw [(run_size_bit bm j hu).1]; exact hj), (run_size_bit bm j hu).2.2,
      if_neg (by omega)]

end DepthOS
