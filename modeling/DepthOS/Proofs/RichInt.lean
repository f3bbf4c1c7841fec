import DepthOS.Proofs.Digits
import DepthOS.Proofs.Format
import DepthOS.Spec.RichInt

/-! What `format_rich_int` emits: the parts of a number in their order, and how many characters.
It counts no digit of a zero with precision 0, but emits it, and it adds up its widths in an
`int`. -/

namespace DepthOS

open Lib

/-! The array of `format_int`. -/

/-- The array from `i` on holds `digits`, and nothing was stored outside it. -/
structure FilledTo (s : DigitArray) (digits : Piece) : Prop where
  index : s.i = 32 - digits.length
  room : digits.length ≤ 32
  emitted : s.emitted = digits
  stored : ∀ j ∈ s.stored, 0 ≤ j ∧ j < 32

section Digits

variable {s : DigitArray} {digits : Piece} {base : ℕ}

theorem FilledTo.store (h : FilledTo s digits) (hroom : digits.length < 32) (b : Byte) :
    FilledTo (storeDigit s b) (b :: digits) := by
  have hi := h.index
  have hcount : (32 - (s.i - 1)).toNat = digits.length + 1 := by omega
  have hcount' : (32 - s.i).toNat = digits.length := by omega
  refine ⟨?_, by simpa using hroom, ?_, fun j hj => ?_⟩
  · simp only [storeDigit, List.length_cons]
    omega
  · have hrest := h.emitted
    unfold DigitArray.emitted at hrest ⊢
    simp only [storeDigit, hcount, List.range_succ_eq_map, List.map_cons, List.map_map]
    rw [hcount'] at hrest
    congr 1
    · simp
    · refine Eq.trans (List.map_congr_left fun k _ => ?_) hrest
      have hshift : s.i - 1 + ((k + 1 : ℕ) : ℤ) = s.i + k := by
        push_cast
        omega
      rw [Function.comp_apply, Nat.succ_eq_add_one, hshift, Function.update_of_ne (by omega)]
  · rcases List.mem_cons.1 hj with rfl | hj
    · omega
    · exact h.stored j hj

theorem digitLoop_filled (hb : 1 < base) {n fuel v : ℕ} (hv : v < base ^ n) (hn : n < fuel)
    (h : FilledTo s digits) (hroom : n + digits.length ≤ 32) :
    ∃ s', digitLoop base fuel v s = some s' ∧
      FilledTo s' ((numeral base v).map hexDigit ++ digits) := by
  induction n generalizing fuel v s digits with
  | zero =>
    obtain rfl : v = 0 := by simpa using hv
    obtain ⟨fuel, rfl⟩ : ∃ m, fuel = m + 1 := ⟨fuel - 1, by omega⟩
    exact ⟨s, by simp [digitLoop], by simpa using h⟩
  | succ n ih =>
    obtain ⟨fuel, rfl⟩ : ∃ m, fuel = m + 1 := ⟨fuel - 1, by omega⟩
    unfold digitLoop
    by_cases h0 : v > 0
    · have hdiv : v / base < base ^ n := by
        rw [Nat.div_lt_iff_lt_mul (by omega), ← Nat.pow_succ]
        exact hv
      have hnext := h.store (by omega) (hexDigit (v % base))
      obtain ⟨s', hloop, hs'⟩ := ih hdiv (Nat.lt_of_succ_lt_succ hn) hnext
        (by simp only [List.length_cons]; omega)
      refine ⟨s', by rw [if_pos h0, hloop], ?_⟩
      rw [numeral_pos hb h0]
      simpa using hs'
    · obtain rfl : v = 0 := by omega
      exact ⟨s, by simp, by simpa using h⟩

/-- Whatever it is asked for, `format_int` ends, keeps to its array and passes on the digits. -/
theorem formatIntArray_filled (c : ℤ → Byte) (v : BitVec 32) (base : ℕ) :
    ∃ s, formatIntArray c v base = some s ∧ FilledTo s (formatInt v base) := by
  have hstart : FilledTo ⟨32, c, []⟩ [] :=
    ⟨by simp, by simp, by simp [DigitArray.emitted], fun j hj => by simp at hj⟩
  unfold formatIntArray formatInt
  dsimp only
  by_cases h0 : v = 0 ∨ base < 2 ∨ base > 16
  · rw [if_pos h0, if_pos h0]
    exact ⟨_, rfl, hstart.store (by simp) _⟩
  · rw [if_neg h0, if_neg h0]
    push Not at h0
    have hv : v.toNat < base ^ 32 := v.isLt.trans_le (Nat.pow_le_pow_left h0.2.1 32)
    rw [formatIntLoop_eq h0.2.1 [] hv]
    exact digitLoop_filled h0.2.1 hv (by norm_num) hstart (by simp)

end Digits

/-! The parts of the output. -/

section Parts

variable (v : BitVec 32) (flags : VformatFlags)

/-- The value that the digits are of. -/
def richAbs : BitVec 32 := if flags.signedValue ∧ v.toInt < 0 then -v else v

def richSign : List Piece :=
  if flags.signedValue then
    if v.toInt < 0 then [[ch '-']]
    else if flags.sign ≠ .SIGN_DEFAULT then
      [[if flags.sign = .SIGN_PLUS then ch '+' else ch ' ']]
    else []
  else []

def richPrefix : List Piece :=
  if flags.alternate then
    if flags.radix = 8 ∧ richAbs v flags ≠ 0 then [[ch '0']]
    else if flags.radix = 16 then [[ch '0', ch 'x']] else []
  else []

theorem formatRichInt_eq : formatRichInt v flags =
    outputPad (ch ' ') (richWidths v flags).w0 ++ richSign v flags ++ richPrefix v flags ++
      outputPad (ch '0') (richWidths v flags).w1 ++
      [formatInt (richAbs v flags) flags.radix] ++ outputPad (ch ' ') (richWidths v flags).w2 := by
  rfl

theorem outputCopyLoop_flatten (c : Byte) {fuel n : ℕ} (h : n ≤ fuel) :
    (outputCopyLoop c fuel n).flatten = List.replicate n c := by
  induction fuel generalizing n with
  | zero =>
    obtain rfl : n = 0 := by omega
    rfl
  | succ fuel ih =>
    unfold outputCopyLoop
    by_cases h0 : n > 0
    · have hsplit : n = min n 64 + (n - min n 64) := by omega
      have hmin : (if n < 64 then n else 64) = min n 64 := by
        split_ifs <;> omega
      dsimp only
      rw [if_pos h0, hmin, List.flatten_cons, ih (by omega), ← List.replicate_add, ← hsplit]
    · obtain rfl : n = 0 := by omega
      rfl

theorem outputPad_flatten (c : Byte) (w : ℤ) :
    (outputPad c w).flatten = List.replicate (sizeT w) c := by
  unfold outputPad outputCopy
  split_ifs with h
  · exact outputCopyLoop_flatten c le_rfl
  · obtain rfl : w = 0 := not_not.1 h
    rfl

/-- `|v|` under a sign, `v` without one. -/
def richMagnitude : ℕ := if flags.signedValue ∧ v.toInt < 0 then v.toInt.natAbs else v.toNat

theorem richAbs_toNat : (richAbs v flags).toNat = richMagnitude v flags := by
  unfold richAbs richMagnitude
  split_ifs with hneg
  · have hlt := v.isLt
    have hint := BitVec.toInt_eq_toNat_cond v
    have hneg' := hneg.2
    rw [BitVec.toNat_neg]
    split_ifs at hint <;> omega
  · rfl

theorem richSign_cases :
    ((richSign v flags).flatten = [ch '-'] ∧ flags.signedValue = true ∧ v.toInt < 0) ∨
    (¬ (flags.signedValue = true ∧ v.toInt < 0) ∧ ((richSign v flags).flatten = [] ∨
      (richSign v flags).flatten = [ch ' '] ∨ (richSign v flags).flatten = [ch '+'])) := by
  unfold richSign
  split_ifs <;> simp_all

theorem richPrefix_cases : (richPrefix v flags).flatten = [] ∨
    (richPrefix v flags).flatten = [ch '0'] ∨ (richPrefix v flags).flatten = [ch '0', ch 'x'] := by
  unfold richPrefix
  split_ifs <;> simp

/-- Blanks, a sign, a prefix, zeros, the digits and blanks again. -/
structure RichText (before zeros after : ℕ) (sign pre digits text : Piece) : Prop where
  text : text = List.replicate before (ch ' ') ++ sign ++ pre ++ List.replicate zeros (ch '0') ++
    digits ++ List.replicate after (ch ' ')
  sign : sign = [] ∨ sign = [ch ' '] ∨ sign = [ch '+'] ∨ sign = [ch '-']
  pre : pre = [] ∨ pre = [ch '0'] ∨ pre = [ch '0', ch 'x']

/-- What is emitted is a number in its parts, with `-` for a negative one; and no call of
`format_int` stores outside its array. -/
theorem rich_int_denotes (hradix : flags.radix = 8 ∨ flags.radix = 10 ∨ flags.radix = 16) :
    (∃ before zeros after sign pre digits,
      RichText before zeros after sign pre digits (formatRichInt v flags).flatten ∧
      (sign = [ch '-'] ↔ flags.signedValue = true ∧ v.toInt < 0) ∧
      digits = formatInt (richAbs v flags) flags.radix ∧
      Denotes flags.radix (richMagnitude v flags) digits) ∧
    ∀ c u base, ∃ s, formatIntArray c u base = some s ∧ s.emitted = formatInt u base ∧
      ∀ j ∈ s.stored, 0 ≤ j ∧ j < 32 := by
  have hr : 1 < flags.radix ∧ flags.radix ≤ 16 := by omega
  have hdenotes := formatInt_denotes hr.1 hr.2 (richAbs v flags)
  rw [richAbs_toNat] at hdenotes
  refine ⟨⟨sizeT (richWidths v flags).w0, sizeT (richWidths v flags).w1,
    sizeT (richWidths v flags).w2, (richSign v flags).flatten, (richPrefix v flags).flatten, _,
    ⟨?_, ?_, richPrefix_cases v flags⟩, ?_, rfl, hdenotes⟩, fun c u base => ?_⟩
  · rw [formatRichInt_eq]
    simp only [List.flatten_append, outputPad_flatten, List.flatten_cons, List.flatten_nil,
      List.append_nil]
  · rcases richSign_cases v flags with ⟨h, -⟩ | ⟨-, h | h | h⟩ <;> simp [h]
  · rcases richSign_cases v flags with ⟨h, hneg⟩ | ⟨hneg, h | h | h⟩
    · exact ⟨fun _ => hneg, fun _ => h⟩
    all_goals
      rw [h]
      exact ⟨fun heq => absurd heq (by decide), fun hyes => absurd hyes hneg⟩
  · obtain ⟨s, hs, hfilled⟩ := formatIntArray_filled c u base
    exact ⟨s, hs, hfilled.emitted, hfilled.stored⟩

end Parts

/-- `%x` of 255 with no flags. -/
theorem rich_int_denotes_ff : ∃ before zeros after sign pre digits,
    RichText before zeros after sign pre digits
      (formatRichInt 255 { noFlags with radix := 16 }).flatten ∧
      Denotes 16 255 digits := by
  obtain ⟨before, zeros, after, sign, pre, digits, htext, -, -, hdigits⟩ :=
    (rich_int_denotes 255 { noFlags with radix := 16 } (by simp)).1
  exact ⟨before, zeros, after, sign, pre, digits, htext, hdigits⟩

end DepthOS
