import DepthOS.Spec.Format

/-! `itoa` of `lib/strconv.c`. The array `c` holds whatever the stack did. -/

namespace DepthOS

open Lib

/-- The first loop, with room for `n` digits and a NUL; `none` is a store behind `c` or a
division by 0. -/
def itoaLoop (base : ℕ) : (n : ℕ) → (acc : ℤ) → (i : ℕ) → Mem → Option (ℕ × Mem)
  | 0, acc, i, c => if acc > 0 then none else some (i, c)
  | n + 1, acc, i, c =>
    if acc > 0 then
      if base = 0 then none
      else
        itoaLoop base n (s32 (sizeT acc / base)) (i + 1)
          (Function.update c i (hexDigit (sizeT acc % base)))
    else some (i, c)

/-- The second loop, with `i` bytes to go. -/
def itoaCopy (c : Mem) : (i j : ℕ) → Mem → Mem
  | 0, _, buf => buf
  | i + 1, j, buf => itoaCopy c i (j + 1) (Function.update buf i (c j))

def itoa (v : BitVec 32) (base : ℕ) (c buf : Mem) : Option Mem :=
  if v = 0 then some (Function.update (Function.update buf 0 (ch '0')) 1 0)
  else if base > 16 then some buf
  else
    (itoaLoop base 32 v.toInt 0 c).map fun r =>
      itoaCopy (Function.update r.2 r.1 0) r.1 0 (Function.update buf r.1 0)

end DepthOS
