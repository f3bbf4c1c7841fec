import DepthOS.Lib.Numeral
import DepthOS.Spec.Format

/-! The digits that `format_int` writes. -/

namespace DepthOS

open Lib

def digitValue (b : Byte) : ℕ :=
  if isDigit b then b.toNat - (ch '0').toNat else b.toNat - (ch 'a').toNat + 10

/-- `s` is a number written in `base`, with no zero in front unless it is 0. -/
structure Denotes (base n : ℕ) (s : Piece) : Prop where
  digits : ∀ b ∈ s, ∃ d < base, b = hexDigit d
  lead : s = [ch '0'] ∨ s ≠ [] ∧ s.head? ≠ some (ch '0')
  value : numeralValue base (s.map digitValue) = n

section Digits

variable {base n : ℕ}

theorem digitValue_hexDigit {d : ℕ} (hd : d < 16) : digitValue (hexDigit d) = d := by
  revert d
  decide

theorem hexDigit_ne_zero {d : ℕ} (hd : d < 16) (h0 : d ≠ 0) : hexDigit d ≠ ch '0' := by
  revert d
  decide

theorem formatIntLoop_eq (hb : 1 < base) (c : Piece) {fuel v : ℕ} (hv : v < base ^ fuel) :
    formatIntLoop base fuel v c = (numeral base v).map hexDigit ++ c := by
  induction fuel generalizing v c with
  | zero =>
    obtain rfl : v = 0 := by simpa using hv
    simp [formatIntLoop]
  | succ fuel ih =>
    unfold formatIntLoop
    by_cases h0 : v > 0
    · have hdiv : v / base < base ^ fuel := by
        rw [Nat.div_lt_iff_lt_mul (by omega), ← Nat.pow_succ]
        exact hv
      rw [if_pos h0, ih _ hdiv, numeral_pos hb h0]
      simp
    · obtain rfl : v = 0 := by omega
      simp

theorem formatInt_eq (hb : 1 < base) (hb' : base ≤ 16) (v : BitVec 32) :
    formatInt v base = if v = 0 then [ch '0'] else (numeral base v.toNat).map hexDigit := by
  unfold formatInt
  by_cases h0 : v = 0
  · rw [if_pos (Or.inl h0), if_pos h0]
  · have hv : v.toNat < base ^ 32 := v.isLt.trans_le (Nat.pow_le_pow_left hb 32)
    have hgo : ¬ (v = 0 ∨ base < 2 ∨ base > 16) := by
      rintro (h | h | h)
      · exact h0 h
      · omega
      · omega
    rw [if_neg hgo, if_neg h0, formatIntLoop_eq hb [] hv, List.append_nil]

theorem formatInt_denotes (hb : 1 < base) (hb' : base ≤ 16) (v : BitVec 32) :
    Denotes base v.toNat (formatInt v base) := by
  rw [formatInt_eq hb hb']
  split_ifs with h0
  · subst h0
    exact ⟨fun b hmem => ⟨0, by omega, List.mem_singleton.1 hmem⟩, Or.inl rfl, Nat.zero_mul base⟩
  · have hne : v.toNat ≠ 0 := fun h => h0 (BitVec.eq_of_toNat_eq h)
    have hlt : ∀ d ∈ numeral base v.toNat, d < 16 := fun d hd => (numeral_lt hb hd).trans_le hb'
    refine ⟨fun b hmem => ?_, Or.inr ?_, ?_⟩
    · obtain ⟨d, hd, rfl⟩ := List.mem_map.1 hmem
      exact ⟨d, numeral_lt hb hd, rfl⟩
    · rcases hs : numeral base v.toNat with _ | ⟨d, s⟩
      · exact absurd (numeral_length_pos base hne) (by simp [hs])
      · have hd := hexDigit_ne_zero (hlt d (hs ▸ List.mem_cons_self)) (numeral_head d s hs)
        simpa using hd
    · have hvals : ((numeral base v.toNat).map hexDigit).map digitValue = numeral base v.toNat := by
        rw [List.map_map]
        calc (numeral base v.toNat).map (digitValue ∘ hexDigit)
            = (numeral base v.toNat).map id :=
              List.map_congr_left fun d hd => digitValue_hexDigit (hlt d hd)
          _ = numeral base v.toNat := List.map_id _
      rw [hvals, numeralValue_numeral]

end Digits

end DepthOS
