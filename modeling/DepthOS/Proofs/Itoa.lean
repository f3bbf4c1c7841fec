import DepthOS.Proofs.Digits
import DepthOS.Sanity.Scan
import DepthOS.Spec.Strconv

/-! `itoa` against `format_int`. `itoa` counts down an `int`, so it sees no digit in the upper
half of the unsigned numbers. -/

namespace DepthOS

open Lib

/-- `itoa` leaves the string that `format_int` emits, and it is the number. -/
def ItoaAgrees (v : BitVec 32) (base : ℕ) (c buf : Mem) : Prop :=
  ∃ buf' s, itoa v base c buf = some buf' ∧ HoldsStr buf' 0 s ∧ s = formatInt v base ∧
    Denotes base v.toNat s

section Itoa

variable {base : ℕ} {v : BitVec 32}

theorem itoaLoop_spec (hb : 1 < base) {n v : ℕ} (i : ℕ) (c : Mem) (hv : v < base ^ n)
    (hpos : v < 2147483648) :
    ∃ c', itoaLoop base n v i c = some (i + (numeral base v).length, c') ∧
      (∀ k < (numeral base v).length,
        c' (i + k) = hexDigit ((numeral base v).reverse.getD k 0)) ∧
      ∀ x < i, c' x = c x := by
  induction n generalizing v i c with
  | zero =>
    obtain rfl : v = 0 := by simpa using hv
    exact ⟨c, by simp [itoaLoop], fun k hk => by simp at hk, fun _ _ => rfl⟩
  | succ n ih =>
    unfold itoaLoop
    by_cases h0 : v = 0
    · subst h0
      exact ⟨c, by simp, fun k hk => by simp at hk, fun _ _ => rfl⟩
    have hdiv : v / base < base ^ n := by
      rw [Nat.div_lt_iff_lt_mul (by omega), ← Nat.pow_succ]
      exact hv
    have hlt : v / base < 2147483648 := (Nat.div_le_self v base).trans_lt hpos
    have hacc : s32 (sizeT v / base) = (v / base : ℕ) := by
      rw [sizeT_natCast (by omega), s32_of_lt hlt]
    have hnum := numeral_pos hb (Nat.pos_of_ne_zero h0)
    obtain ⟨c', hloop, hdigits, hrest⟩ := ih (i + 1) (Function.update c i (hexDigit (v % base)))
      hdiv hlt
    refine ⟨c', ?_, ?_, fun x hx => ?_⟩
    · rw [if_pos (by omega), if_neg (by omega), hacc, sizeT_natCast (by omega), hloop, hnum,
        List.length_append, List.length_singleton, Nat.add_assoc, Nat.add_comm 1]
    · intro k hk
      rw [hnum, List.length_append, List.length_singleton] at hk
      rw [hnum, List.reverse_append, List.reverse_singleton, List.singleton_append]
      cases k with
      | zero => rw [Nat.add_zero, hrest i (Nat.lt_succ_self i), Function.update_self]; rfl
      | succ k =>
        rw [List.getD_cons_succ, ← hdigits k (by omega)]
        congr 1
        omega
    · rw [hrest x (by omega), Function.update_of_ne (Nat.ne_of_lt hx)]

theorem itoaCopy_apply (c : Mem) (i j : ℕ) (buf : Mem) (k : ℕ) :
    itoaCopy c i j buf k = if k < i then c (j + (i - 1 - k)) else buf k := by
  induction i generalizing j buf with
  | zero => rfl
  | succ i ih =>
    rw [itoaCopy, ih]
    rcases Nat.lt_trichotomy k i with h | rfl | h
    · rw [if_pos h, if_pos (by omega)]
      congr 1
      omega
    · simp
    · rw [if_neg (by omega), if_neg (by omega), Function.update_of_ne (by omega)]

theorem hexDigit_ne_nul {d : ℕ} (hd : d < 16) : hexDigit d ≠ 0 := by
  revert d
  decide

theorem itoa_lower (hb : 1 < base) (hb' : base ≤ 16) (hv : v.toNat < 2147483648) (c buf : Mem) :
    ∃ buf', itoa v base c buf = some buf' ∧ HoldsStr buf' 0 (formatInt v base) := by
  unfold itoa
  rw [formatInt_eq hb hb']
  by_cases h0 : v = 0
  · rw [if_pos h0, if_pos h0]
    exact ⟨_, rfl, rfl, by decide, rfl⟩
  have hint : v.toInt = v.toNat := BitVec.toInt_eq_toNat_of_lt (by omega)
  have hpow : v.toNat < base ^ 32 := v.isLt.trans_le (Nat.pow_le_pow_left hb 32)
  obtain ⟨c', hloop, hdigits, -⟩ := itoaLoop_spec hb 0 c hpow hv
  rw [if_neg h0, if_neg h0, if_neg (by omega), hint, hloop, Nat.zero_add]
  refine ⟨_, rfl, holdsStr_iff.2 ⟨fun hmem => ?_, fun k hk => ?_, ?_⟩⟩
  · obtain ⟨d, hd, hzero⟩ := List.mem_map.1 hmem
    exact hexDigit_ne_nul ((numeral_lt hb hd).trans_le hb') hzero
  · rw [List.length_map] at hk
    dsimp only
    have hlast := hdigits ((numeral base v.toNat).length - 1 - k) (by omega)
    rw [Nat.zero_add] at hlast
    rw [Nat.zero_add, itoaCopy_apply, if_pos hk, Function.update_of_ne (by omega), Nat.zero_add,
      hlast]
    have hback : (numeral base v.toNat).reverse.getD ((numeral base v.toNat).length - 1 - k) 0 =
        (numeral base v.toNat).getD k 0 := by
      rw [List.getD_eq_getElem?_getD, List.getElem?_reverse (by omega), ← List.getD_eq_getElem?_getD]
      congr 1
      omega
    rw [hback]
    simp [List.getD_eq_getElem?_getD, hk]
  · dsimp only
    rw [List.length_map, Nat.zero_add, itoaCopy_apply, if_neg (Nat.lt_irrefl _),
      Function.update_self]

/-- Above the half `itoa` leaves an empty string. -/
theorem itoa_upper (hb' : base ≤ 16) (hv : 2147483648 ≤ v.toNat) (c buf : Mem) :
    itoa v base c buf = some (Function.update buf 0 0) := by
  have h0 : v ≠ 0 := by
    rintro rfl
    simp at hv
  have hneg : ¬ v.toInt > 0 := by
    have := v.isLt
    rw [BitVec.toInt_eq_toNat_cond]
    split_ifs <;> omega
  unfold itoa
  rw [if_neg h0, if_neg (by omega), itoaLoop, if_neg hneg]
  rfl

variable (v) in
/-- The two printers agree on the lower half of the numbers and on no others. -/
theorem itoa_agrees_iff (hb : 2 ≤ base) (hb' : base ≤ 16) (c buf : Mem) :
    ItoaAgrees v base c buf ↔ v.toNat < 2147483648 := by
  have hdenotes := formatInt_denotes hb hb' v
  constructor
  · rintro ⟨buf', s, hcall, hstr, hs, -⟩
    by_contra hv
    rw [itoa_upper hb' (Nat.le_of_not_lt hv)] at hcall
    obtain rfl := Option.some.inj hcall
    -- the string in the buffer is empty, the number is not
    have hnil : s = [] := hstr.unique (t := []) (Function.update_self 0 0 buf)
    rcases hdenotes.lead with h | ⟨h, -⟩
    · rw [hs, h] at hnil
      exact absurd hnil (by simp)
    · exact h (hs ▸ hnil)
  · intro hv
    obtain ⟨buf', hcall, hstr⟩ := itoa_lower hb hb' hv c buf
    exact ⟨buf', _, hcall, hstr, rfl, hdenotes⟩

end Itoa

/-- 255 in base 16. -/
theorem itoa_agrees_ff : ItoaAgrees 255 16 (fun _ => 0) fun _ => 0 :=
  (itoa_agrees_iff 255 (by norm_num) (by norm_num) _ _).2 (by decide)

/-- 0x80000000 is the first that `itoa` leaves out. -/
theorem itoa_differs : ¬ ∀ (v : BitVec 32) (base : ℕ) (c buf : Mem), 2 ≤ base → base ≤ 16 →
    ItoaAgrees v base c buf := by
  intro h
  obtain ⟨buf', s, hcall, hstr, -, hs⟩ := h 0x80000000 10 (fun _ => 0) (fun _ => 0) (by norm_num)
    (by norm_num)
  rw [itoa_upper (by norm_num) (by decide)] at hcall
  obtain rfl := Option.some.inj hcall
  obtain rfl : s = [] := hstr.unique (t := []) (Function.update_self 0 0 _)
  exact absurd hs.value (by decide)

end DepthOS
