import Mathlib.Data.Nat.Digits.Lemmas

/-! Numbers written out, the most significant digit first. -/

namespace Lib

/-- The value of a list of digits. -/
def numeralValue (base : ℕ) (s : List ℕ) : ℕ := s.foldl (fun n d => n * base + d) 0

/-- How `n` is written, without a leading zero; 0 has no digit. -/
def numeral (base n : ℕ) : List ℕ := (Nat.digits base n).reverse

section Numeral

variable {base n : ℕ}

theorem numeralValue_append (s : List ℕ) (d : ℕ) :
    numeralValue base (s ++ [d]) = numeralValue base s * base + d := by
  simp [numeralValue]

theorem numeralValue_reverse (l : List ℕ) :
    numeralValue base l.reverse = Nat.ofDigits base l := by
  induction l with
  | nil => rfl
  | cons d l ih =>
    rw [List.reverse_cons, numeralValue_append, ih, Nat.ofDigits_cons, Nat.mul_comm, Nat.add_comm]

@[simp] theorem numeralValue_numeral (base n : ℕ) : numeralValue base (numeral base n) = n := by
  rw [numeral, numeralValue_reverse, Nat.ofDigits_digits]

@[simp] theorem numeral_zero (base : ℕ) : numeral base 0 = [] := by simp [numeral]

/-- The last digit and those in front of it. -/
theorem numeral_pos (hb : 1 < base) (hn : 0 < n) :
    numeral base n = numeral base (n / base) ++ [n % base] := by
  rw [numeral, Nat.digits_def' hb hn, List.reverse_cons]
  rfl

theorem numeral_lt (hb : 1 < base) {d : ℕ} (hd : d ∈ numeral base n) : d < base :=
  Nat.digits_lt_base hb (List.mem_reverse.1 hd)

theorem numeral_head (d : ℕ) (s : List ℕ) (h : numeral base n = d :: s) : d ≠ 0 := by
  have hne : Nat.digits base n ≠ [] := by
    intro h0
    simp [numeral, h0] at h
  have hlast := Nat.getLast_digit_ne_zero base (m := n) (fun h0 => hne (by simp [h0]))
  have hd : (Nat.digits base n).getLast hne = d := by
    have hrev : Nat.digits base n = s.reverse ++ [d] := by
      rw [← List.reverse_reverse (Nat.digits base n), ← numeral, h, List.reverse_cons]
    simp [hrev]
  exact hd ▸ hlast

theorem numeral_length_le (hb : 1 < base) {k : ℕ} (hn : n < base ^ k) :
    (numeral base n).length ≤ k := by
  rw [numeral, List.length_reverse]
  exact Nat.digits_length_le_iff hb n |>.2 hn

variable (base) in
theorem numeral_length_pos (hn : n ≠ 0) : 0 < (numeral base n).length := by
  rw [numeral, List.length_reverse, List.length_pos_iff]
  exact fun h => hn (Nat.digits_eq_nil_iff_eq_zero.1 h)

end Numeral

end Lib
