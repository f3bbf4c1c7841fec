import DepthOS.Lib.CString
import DepthOS.Spec.Basic

/-! The string functions of `lib/string.c`. A string argument is an address in a memory
or, where the callee only ever reads it, the bytes before its terminator. A loop that looks
for a NUL takes fuel: memory need not hold one. -/

namespace DepthOS

open Lib

/-- Where the loop of `strlen` stops. -/
def strEnd (m : Mem) : ℕ → ℕ → Option ℕ
  | 0, _ => none
  | fuel + 1, s1 => if m s1 ≠ 0 then strEnd m fuel (s1 + 1) else some s1

def strlen (fuel : ℕ) (m : Mem) (s : ℕ) : Option ℕ := (strEnd m fuel s).map (· - s)

/-- `strdup`, as the bytes of the copy. -/
def strdup (fuel : ℕ) (m : Mem) (s : ℕ) : Option (List Byte) :=
  (strlen fuel m s).map fun n => (List.range n).map fun k => m (s + k)

/-- The loop of `strrchr` with `n` bytes to go, at `s + n - 1`; `none` is NULL. -/
def strrchrLoop (m : Mem) (s : ℕ) (c : Byte) : ℕ → Option ℕ
  | 0 => none
  | n + 1 => if m (s + n) ≠ c then strrchrLoop m s c n else some (s + n)

def strrchr (fuel : ℕ) (m : Mem) (s : ℕ) (c : Byte) : Option (Option ℕ) :=
  (strlen fuel m s).map (strrchrLoop m s c)

/-- The second string is given by its bytes; past them stands its NUL. A `char` is signed. -/
def strcmp (m : Mem) : ℕ → List Byte → ℤ
  | a, [] => if m a = 0 then 0 else (m a).toInt - (0 : Byte).toInt
  | a, b :: bs =>
    if m a ≠ 0 ∧ b ≠ 0 ∧ m a = b then strcmp m (a + 1) bs
    else if m a = b then 0 else (m a).toInt - b.toInt

end DepthOS
