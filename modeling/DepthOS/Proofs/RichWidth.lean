import DepthOS.Proofs.FormatTrace
import DepthOS.Proofs.RichInt

/-! How many characters `format_rich_int` emits. Of a zero with precision 0 it counts no digit
but emits one, and a precision close to the largest `int` overflows the sum of its widths. -/

namespace DepthOS

open Lib

/-- A flag combination as `vformat` passes it on: numbers of type `int`, 0 for a precision that
is not there. -/
structure RichFlags extends VformatFlags where
  absent : precision = false → precisionValue = 0
  width_int : -2147483648 ≤ widthValue ∧ widthValue < 2147483648
  precision_int : -2147483648 ≤ precisionValue ∧ precisionValue < 2147483648
  radix_eq : radix = 8 ∨ radix = 10 ∨ radix = 16

theorem RichFlags.radix_bounds (flags : RichFlags) : 1 < flags.radix ∧ flags.radix ≤ 16 := by
  have hr := flags.radix_eq
  omega

section Wanted

variable (v : BitVec 32) (flags : VformatFlags)

/-- A zero with an explicit precision of 0. -/
def NoDigit : Prop := flags.precision ∧ flags.precisionValue = 0 ∧ v = 0

instance : Decidable (NoDigit v flags) := by unfold NoDigit; infer_instance

def signWidth : ℤ :=
  if flags.signedValue ∧ (flags.sign ≠ .SIGN_DEFAULT ∨ v.toInt < 0) then 1 else 0

def prefixWidth : ℤ :=
  if flags.alternate then
    if flags.radix = 8 ∧ v ≠ 0 then 1 else if flags.radix = 16 then 2 else 0
  else 0

def digitCount : ℤ :=
  if NoDigit v flags then 0 else max 1 (numeral flags.radix (richMagnitude v flags)).length

/-- Sign, prefix and digits, with the zeros that the precision asks for. -/
def bodyWidth : ℤ :=
  signWidth v flags + prefixWidth v flags +
    max (if flags.precision then flags.precisionValue else 0) (digitCount v flags)

def richWidth : ℤ := max (if flags.width then flags.widthValue else 0) (bodyWidth v flags)

/-- As many characters are emitted as are returned, and as many as there should be. -/
def WidthExact : Prop :=
  ((formatRichInt v flags).flatten.length : ℤ) = richReturn v flags ∧
    richReturn v flags = richWidth v flags

end Wanted

section Widths

variable {v : BitVec 32} {flags : VformatFlags}

theorem formatInt_length {base : ℕ} (hb : 1 < base) (hb' : base ≤ 16) (v : BitVec 32) :
    (formatInt v base).length = max 1 (numeral base v.toNat).length := by
  rw [formatInt_eq hb hb']
  split_ifs with h0
  · subst h0
    simp
  · have hpos := numeral_length_pos base fun h => h0 (BitVec.eq_of_toNat_eq h)
    rw [List.length_map]
    omega

theorem numeral_length_le_32 {base : ℕ} (hb : 1 < base) (v : BitVec 32) :
    (numeral base v.toNat).length ≤ 32 :=
  numeral_length_le hb (v.isLt.trans_le (Nat.pow_le_pow_left hb 32))

theorem richSign_length : ((richSign v flags).flatten.length : ℤ) = signWidth v flags := by
  unfold richSign signWidth
  by_cases hs : flags.signedValue = true <;> by_cases hneg : v.toInt < 0 <;>
    by_cases hd : flags.sign = .SIGN_DEFAULT <;> simp [hs, hneg, hd]

theorem richAbs_eq_zero : richAbs v flags = 0 ↔ v = 0 := by
  unfold richAbs
  split_ifs
  · exact BitVec.neg_eq_zero_iff
  · rfl

theorem richPrefix_length : ((richPrefix v flags).flatten.length : ℤ) = prefixWidth v flags := by
  unfold richPrefix prefixWidth
  simp only [ne_eq, richAbs_eq_zero]
  split_ifs <;> simp

variable (v flags) in
theorem emitted_length : ((formatRichInt v flags).flatten.length : ℤ) =
    sizeT (richWidths v flags).w0 + signWidth v flags + prefixWidth v flags +
      sizeT (richWidths v flags).w1 + (formatInt (richAbs v flags) flags.radix).length +
      sizeT (richWidths v flags).w2 := by
  rw [formatRichInt_eq]
  simp only [List.flatten_append, outputPad_flatten, List.flatten_cons, List.flatten_nil,
    List.append_nil, List.length_append, List.length_replicate, Nat.cast_add, richSign_length,
    richPrefix_length]

variable (v) in
theorem richWidths_vw (hb : 1 < flags.radix) (hb' : flags.radix ≤ 16) :
    (richWidths v flags).vw = digitCount v flags := by
  have hlen := formatInt_length hb hb' (richAbs v flags)
  rw [richAbs_toNat] at hlen
  unfold digitCount
  rw [← Nat.cast_one, ← Nat.cast_max, ← hlen]
  unfold richAbs
  by_cases h0 : NoDigit v flags
  · rw [if_pos h0]
    exact if_pos h0
  · rw [if_neg h0]
    refine (if_neg h0).trans ?_
    split_ifs <;> rfl

/-- The zeros for the precision. -/
def zeroCount (v : BitVec 32) (flags : VformatFlags) : ℤ :=
  if ¬ NoDigit v flags ∧ flags.precisionValue > (richWidths v flags).vw then
    flags.precisionValue - (richWidths v flags).vw
  else 0

def richSum (v : BitVec 32) (flags : VformatFlags) : ℤ :=
  int32 (signWidth v flags + prefixWidth v flags + zeroCount v flags + (richWidths v flags).vw)

/-- The three paddings, for a sum and zeros of the precision. -/
def richPads (flags : VformatFlags) (sum zeros : ℤ) : ℤ × ℤ × ℤ :=
  if flags.width ∧ sum < flags.widthValue then
    if flags.left then (0, zeros, int32 (flags.widthValue - sum))
    else if flags.precision ∨ flags.paddingValue = ch ' ' then
      (int32 (flags.widthValue - sum), zeros, 0)
    else (0, int32 (flags.widthValue - sum), 0)
  else (0, zeros, 0)

theorem richWidths_pads (v : BitVec 32) (flags : VformatFlags) :
    ((richWidths v flags).w0, (richWidths v flags).w1, (richWidths v flags).w2) =
      richPads flags (richSum v flags) (zeroCount v flags) := rfl

theorem richPads_total {sum zeros : ℤ} (hw : flags.widthValue < 2147483648) (h0 : 0 ≤ sum)
    (hsum : sum < 2147483648) (hz : 0 ≤ zeros) (hz' : zeros < 2147483648)
    (habsent : flags.precision = false → zeros = 0) {w0 w1 w2 : ℤ}
    (hpads : (w0, w1, w2) = richPads flags sum zeros) :
    (0 ≤ w0 ∧ w0 < 2147483648) ∧ (0 ≤ w1 ∧ w1 < 2147483648) ∧ (0 ≤ w2 ∧ w2 < 2147483648) ∧
      w0 + w1 + w2 = max (if flags.width then flags.widthValue else 0) sum - sum + zeros := by
  have hdiff : sum < flags.widthValue →
      int32 (flags.widthValue - sum) = flags.widthValue - sum := by
    intro hlt
    unfold int32
    exact Int.bmod_eq_of_le (by omega) (by omega)
  unfold richPads at hpads
  by_cases hwide : flags.width = true ∧ sum < flags.widthValue
  · rw [if_pos hwide, hdiff hwide.2] at hpads
    rw [if_pos hwide.1]
    split_ifs at hpads with hleft hblank
    · simp only [Prod.mk.injEq] at hpads
      omega
    · simp only [Prod.mk.injEq] at hpads
      omega
    · have hno : zeros = 0 := habsent (by simpa using (not_or.1 hblank).1)
      simp only [Prod.mk.injEq] at hpads
      omega
  · rw [if_neg hwide] at hpads
    simp only [Prod.mk.injEq] at hpads
    split_ifs with hwidth
    · have hle : ¬ sum < flags.widthValue := fun h => hwide ⟨hwidth, h⟩
      omega
    · omega

theorem sizeT_of_int {w : ℤ} (h0 : 0 ≤ w) (hw : w < 2147483648) : (sizeT w : ℤ) = w := by
  unfold sizeT
  omega

theorem richPads_zeros {sum zeros : ℤ} (hp : flags.precision = true) :
    (richPads flags sum zeros).2.1 = zeros := by
  unfold richPads
  rw [hp]
  split_ifs <;> simp_all

variable (v) in
theorem widths_bounds (hb : 1 < flags.radix) : (0 ≤ signWidth v flags ∧ signWidth v flags ≤ 1) ∧
    (0 ≤ prefixWidth v flags ∧ prefixWidth v flags ≤ 2) ∧
    0 ≤ digitCount v flags ∧ digitCount v flags ≤ 32 := by
  have hlen := numeral_length_le_32 hb (richAbs v flags)
  rw [richAbs_toNat] at hlen
  unfold signWidth prefixWidth digitCount
  refine ⟨?_, ?_, ?_⟩ <;> split_ifs <;> omega

theorem zeroCount_add (flags : RichFlags) :
    0 ≤ zeroCount v flags.toVformatFlags ∧ zeroCount v flags.toVformatFlags < 2147483648 ∧
    (flags.precision = false → zeroCount v flags.toVformatFlags = 0) ∧
    signWidth v flags.toVformatFlags + prefixWidth v flags.toVformatFlags +
      zeroCount v flags.toVformatFlags + digitCount v flags.toVformatFlags =
        bodyWidth v flags.toVformatFlags := by
  obtain ⟨hr, hr'⟩ := flags.radix_bounds
  have hp := flags.precision_int
  have habsent := flags.absent
  have hbounds := (widths_bounds v hr).2.2
  have hvw := richWidths_vw v hr hr'
  unfold bodyWidth zeroCount
  rw [hvw]
  by_cases h0 : NoDigit v flags.toVformatFlags
  · have hcount : digitCount v flags.toVformatFlags = 0 := if_pos h0
    rw [if_neg fun h => h.1 h0, hcount, if_pos h0.1, h0.2.1]
    simp
  · simp only [h0, not_false_eq_true, true_and]
    cases hprec : flags.precision with
    | false =>
      rw [habsent hprec]
      simp only [Bool.false_eq_true, if_false]
      split_ifs <;> omega
    | true =>
      simp only [if_true, Bool.true_eq_false, false_imp_iff, true_and]
      split_ifs <;> omega

/-- The digits that are emitted: one even where none is counted. -/
theorem emittedDigits_length (v : BitVec 32) (hb : 1 < flags.radix) (hb' : flags.radix ≤ 16) :
    ((formatInt (richAbs v flags) flags.radix).length : ℤ) =
      if NoDigit v flags then 1 else digitCount v flags := by
  have hlen := formatInt_length hb hb' (richAbs v flags)
  rw [richAbs_toNat] at hlen
  unfold digitCount
  split_ifs with h0
  · have hv : richMagnitude v flags = 0 := by
      rw [← richAbs_toNat, richAbs_eq_zero.2 h0.2.2]
      rfl
    rw [hlen, hv]
    simp
  · rw [hlen]
    simp

theorem richReturn_eq (v : BitVec 32) (flags : VformatFlags) : richReturn v flags =
    int32 ((richWidths v flags).w0 + signWidth v flags + prefixWidth v flags +
      (richWidths v flags).w1 + (richWidths v flags).vw + (richWidths v flags).w2) := rfl

theorem widthExact_small {flags : RichFlags}
    (hover : bodyWidth v flags.toVformatFlags < 2147483648) :
    WidthExact v flags.toVformatFlags ↔ ¬ NoDigit v flags.toVformatFlags := by
  obtain ⟨hr, hr'⟩ := flags.radix_bounds
  obtain ⟨hz, hz', hzero, hbody⟩ := zeroCount_add (v := v) flags
  obtain ⟨hsw, haw, hvw⟩ := widths_bounds v hr
  have hcount := richWidths_vw v hr hr'
  have hemitted := emitted_length v flags.toVformatFlags
  have hpads := richWidths_pads v flags.toVformatFlags
  have hsum : richSum v flags.toVformatFlags = bodyWidth v flags.toVformatFlags := by
    unfold richSum int32
    rw [hcount, hbody]
    exact Int.bmod_eq_of_le (by omega) (by omega)
  rw [hsum] at hpads
  obtain ⟨h0, h1, h2, htotal⟩ :=
    richPads_total flags.width_int.2 (by omega) hover hz hz' hzero hpads
  rw [sizeT_of_int h0.1 h0.2, sizeT_of_int h1.1 h1.2, sizeT_of_int h2.1 h2.2,
    emittedDigits_length v hr hr'] at hemitted
  have hexact : richReturn v flags.toVformatFlags = richWidth v flags.toVformatFlags := by
    have hw := flags.width_int
    rw [richReturn_eq, hcount]
    unfold int32 richWidth
    rw [Int.bmod_eq_of_le] <;> split_ifs at htotal ⊢ <;> omega
  unfold WidthExact
  rw [hexact, hemitted]
  unfold richWidth
  refine ⟨fun h hno => ?_, fun h => ⟨?_, rfl⟩⟩
  · have hnone : digitCount v flags.toVformatFlags = 0 := if_pos hno
    rw [if_pos hno] at h
    omega
  · rw [if_neg h]
    omega

theorem not_widthExact {flags : RichFlags}
    (hover : ¬ bodyWidth v flags.toVformatFlags < 2147483648) :
    ¬ WidthExact v flags.toVformatFlags := by
  rintro ⟨hall, -⟩
  obtain ⟨hr, hr'⟩ := flags.radix_bounds
  obtain ⟨hz, hz', hzero, hbody⟩ := zeroCount_add (v := v) flags
  obtain ⟨hsw, haw, hvw⟩ := widths_bounds v hr
  have hprec : flags.precision = true := by
    by_contra hno
    have h0 := hzero (by simpa using hno)
    omega
  have hw1 : (richWidths v flags.toVformatFlags).w1 = zeroCount v flags.toVformatFlags :=
    (congrArg (fun p : ℤ × ℤ × ℤ => p.2.1) (richWidths_pads v flags.toVformatFlags)).trans
      (richPads_zeros hprec)
  have hlt := (int32_range ((richWidths v flags.toVformatFlags).w0 +
    signWidth v flags.toVformatFlags + prefixWidth v flags.toVformatFlags +
    (richWidths v flags.toVformatFlags).w1 + (richWidths v flags.toVformatFlags).vw +
    (richWidths v flags.toVformatFlags).w2)).2
  rw [← richReturn_eq, ← hall, emitted_length, hw1, sizeT_of_int hz hz',
    emittedDigits_length v hr hr'] at hlt
  split_ifs at hlt with hno
  · have hnone : digitCount v flags.toVformatFlags = 0 := if_pos hno
    omega
  · omega

/-- The count is exact but for a zero without digits and for a sum that is no `int`. -/
theorem rich_width_iff (v : BitVec 32) (flags : RichFlags) :
    WidthExact v flags.toVformatFlags ↔
      ¬ NoDigit v flags.toVformatFlags ∧ bodyWidth v flags.toVformatFlags < 2147483648 := by
  by_cases hover : bodyWidth v flags.toVformatFlags < 2147483648
  · rw [widthExact_small hover, and_iff_left hover]
  · exact iff_of_false (not_widthExact hover) fun h => hover h.2

end Widths

/-- The flags of `%.0d`. -/
def zeroPrecision : RichFlags where
  toVformatFlags :=
    { noFlags with precision := true, signedValue := true, paddingValue := ch ' ', radix := 10 }
  absent := nofun
  width_int := by decide
  precision_int := by decide
  radix_eq := by decide

/-- `%.0d` of 0 emits a digit and returns 0. -/
theorem rich_width_zero :
    ¬ ∀ (v : BitVec 32) (flags : RichFlags), WidthExact v flags.toVformatFlags := by
  intro h
  exact absurd (h 0 zeroPrecision).1 (by decide)

/-! The flags a directive hands to `format_rich_int`. -/

section Flags

variable (env : FormatEnv) (ap : ℕ)

theorem countValue_int (count : Count) :
    -2147483648 ≤ count.value env ap ∧ count.value env ap < 2147483648 := by
  cases count with
  | star =>
    change -2147483648 ≤ (env.args ap).toInt ∧ (env.args ap).toInt < 2147483648
    have hle := BitVec.le_toInt (env.args ap)
    have hlt := BitVec.toInt_lt (x := env.args ap)
    omega
  | digits ds =>
    cases ds using List.reverseRecOn with
    | nil =>
      change -2147483648 ≤ (0 : ℤ) ∧ (0 : ℤ) < 2147483648
      decide
    | append_singleton ds d =>
      rw [Count.value, List.foldl_append]
      exact int32_range _

/-- What is read of a number is an `int`, and 0 when it is not there. -/
structure IntFlags (flags : VformatFlags) : Prop where
  absent : flags.precision = false → flags.precisionValue = 0
  width : -2147483648 ≤ flags.widthValue ∧ flags.widthValue < 2147483648
  precision : -2147483648 ≤ flags.precisionValue ∧ flags.precisionValue < 2147483648

theorem noFlags_int : IntFlags noFlags := ⟨fun _ => rfl, by decide, by decide⟩

theorem foldl_applyFlag_int (cs : List Byte) {flags : VformatFlags} (h : IntFlags flags) :
    IntFlags (cs.foldl applyFlag flags) := by
  induction cs generalizing flags with
  | nil => exact h
  | cons c cs ih =>
    refine ih ?_
    unfold applyFlag
    split_ifs <;> exact ⟨h.absent, h.width, h.precision⟩

theorem applyPrecision_int (precision : Option Count) {flags : VformatFlags} (h : IntFlags flags) :
    IntFlags (applyPrecision env ap precision flags) := by
  cases precision with
  | none => exact h
  | some count =>
    refine ⟨fun habsent => ?_, h.width, countValue_int env ap count⟩
    cases count with
    | star => exact absurd habsent (by simp [applyPrecision, Count.present])
    | digits ds =>
      obtain rfl : ds = [] := by simpa [applyPrecision, Count.present] using habsent
      rfl

theorem headFlags_int (head : DirectiveHead) : IntFlags (headFlags env ap head) := by
  have hflags := foldl_applyFlag_int head.flags noFlags_int
  have hwidth : IntFlags { head.flags.foldl applyFlag noFlags with
      width := head.width.present, widthValue := head.width.value env ap } :=
    ⟨hflags.absent, countValue_int env ap head.width, hflags.precision⟩
  have hprecision := applyPrecision_int env (ap + head.width.stars) head.precision hwidth
  unfold headFlags numberFlags applyLength
  split_ifs
  · exact hprecision
  · exact ⟨hprecision.absent, hprecision.width, hprecision.precision⟩

/-- They are such that the width is counted for them. -/
theorem headFlags_rich (head : DirectiveHead) (alternate signedValue : Bool) {radix : ℕ}
    (hr : radix = 8 ∨ radix = 10 ∨ radix = 16) : ∃ rich : RichFlags, rich.toVformatFlags =
      { paddingFlags (headFlags env ap head) with
        alternate := alternate, signedValue := signedValue, radix := radix } := by
  have h := headFlags_int env ap head
  have hpadding : IntFlags (paddingFlags (headFlags env ap head)) := by
    unfold paddingFlags
    dsimp only
    split_ifs <;> exact ⟨h.absent, h.width, h.precision⟩
  exact ⟨{
    toVformatFlags := { paddingFlags (headFlags env ap head) with
      alternate := alternate, signedValue := signedValue, radix := radix }
    absent := hpadding.absent
    width_int := hpadding.width
    precision_int := hpadding.precision
    radix_eq := hr }, rfl⟩

end Flags

end DepthOS
