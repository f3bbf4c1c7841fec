import DepthOS.Spec.Format

/-! `format_int` in the array it fills, and the widths of `format_rich_int`, whose sum it
returns. -/

namespace DepthOS

open Lib

/-- `char c[32]`, by index, and the indices stored at, last first. -/
structure DigitArray where
  i : ℤ
  c : ℤ → Byte
  stored : List ℤ

/-- `c[--i] = b` -/
def storeDigit (s : DigitArray) (b : Byte) : DigitArray :=
  ⟨s.i - 1, Function.update s.c (s.i - 1) b, (s.i - 1) :: s.stored⟩

/-- The loop; `none` is one that has not come to its end. -/
def digitLoop (base : ℕ) : (fuel v : ℕ) → DigitArray → Option DigitArray
  | 0, _, _ => none
  | fuel + 1, v, s =>
    if v > 0 then digitLoop base fuel (v / base) (storeDigit s (hexDigit (v % base))) else some s

/-- The fuel lets the loop go past the array. -/
def formatIntArray (c : ℤ → Byte) (v : BitVec 32) (base : ℕ) : Option DigitArray :=
  let s : DigitArray := ⟨32, c, []⟩
  if v = 0 ∨ base < 2 ∨ base > 16 then some (storeDigit s (ch '0'))
  else digitLoop base 64 v.toNat s

/-- What is passed to `output`. -/
def DigitArray.emitted (s : DigitArray) : Piece :=
  (List.range (32 - s.i).toNat).map fun k : ℕ => s.c (s.i + k)

structure RichWidths where
  sw : ℤ
  aw : ℤ
  vw : ℤ
  w0 : ℤ
  w1 : ℤ
  w2 : ℤ

/-- The part of `format_rich_int` in front of the output. -/
def richWidths (v : BitVec 32) (flags : VformatFlags) : RichWidths :=
  let neg := flags.signedValue ∧ v.toInt < 0
  let sw : ℤ := if flags.signedValue ∧ (flags.sign ≠ .SIGN_DEFAULT ∨ v.toInt < 0) then 1 else 0
  let aw : ℤ :=
    if flags.alternate then
      if flags.radix = 8 ∧ v ≠ 0 then 1 else if flags.radix = 16 then 2 else 0
    else 0
  let empty := flags.precision ∧ flags.precisionValue = 0 ∧ v = 0
  let vw : ℤ :=
    if empty then 0
    else if neg then (formatInt (-v) flags.radix).length
    else (formatInt v flags.radix).length
  let w1 : ℤ := if ¬ empty ∧ flags.precisionValue > vw then flags.precisionValue - vw else 0
  let sum := int32 (sw + aw + w1 + vw)
  let dw := int32 (flags.widthValue - sum)
  let pad : ℤ × ℤ × ℤ :=
    if flags.width ∧ sum < flags.widthValue then
      if flags.left then (0, w1, dw)
      else if flags.precision ∨ flags.paddingValue = ch ' ' then (dw, w1, 0)
      else (0, dw, 0)
    else (0, w1, 0)
  ⟨sw, aw, vw, pad.1, pad.2.1, pad.2.2⟩

/-- What `format_rich_int` returns. -/
def richReturn (v : BitVec 32) (flags : VformatFlags) : ℤ :=
  let w := richWidths v flags
  int32 (w.w0 + w.sw + w.aw + w.w1 + w.vw + w.w2)

end DepthOS
