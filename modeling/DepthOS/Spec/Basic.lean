import DepthOS.Lib.Mem

/-! Constants and address arithmetic of the kernel (`kernel.h`, `paging.h`,
`tools.h`, `errno.h`). Machine integers are naturals with the reduction written out:
`u32` for `size_t`, `uint32_t` and `uintptr_t`, `u16` for `uint16_t`, and `s32`
for the `ssize_t` reading of a 32-bit pattern. -/

namespace DepthOS

abbrev PAGE_SIZE : ℕ := 4096
abbrev PAGE_TABLE_SIZE : ℕ := 1024
abbrev VIRT_BASE : ℕ := 0xC0000000

abbrev EINVAL : ℤ := 1
abbrev EOVERFLOW : ℤ := 2
abbrev ENIMPL : ℤ := 4
abbrev ENOSYS : ℤ := ENIMPL
abbrev EFAULT : ℤ := 5
abbrev ENOENT : ℤ := 8
abbrev EBADF : ℤ := 9
abbrev EMFILE : ℤ := 13
abbrev EEXIST : ℤ := 15
abbrev ENOMEM : ℤ := 16
abbrev ENOTSOCK : ℤ := 20

def u32 (x : ℕ) : ℕ := x % 4294967296

theorem u32_of_lt {x : ℕ} (h : x < 4294967296) : u32 x = x := Nat.mod_eq_of_lt h

def u16 (x : ℕ) : ℕ := x % 65536

/-- `a - b` on 32-bit unsigned operands. -/
def sub32 (a b : ℕ) : ℕ := u32 (a + (4294967296 - u32 b))

def s32 (x : ℕ) : ℤ := if u32 x < 2147483648 then (u32 x : ℤ) else (u32 x : ℤ) - 4294967296

theorem s32_of_lt {x : ℕ} (h : x < 2147483648) : s32 x = x := by
  have hu : u32 x = x := u32_of_lt (by omega)
  simp [s32, hu, h]

theorem s32_range (x : ℕ) : -2147483648 ≤ s32 x ∧ s32 x < 2147483648 := by
  unfold s32 u32
  split_ifs <;> omega

/-- A sum of type `int`. -/
def int32 (x : ℤ) : ℤ := Int.bmod x 4294967296

theorem int32_range (x : ℤ) : -2147483648 ≤ int32 x ∧ int32 x < 2147483648 := by
  have hle := Int.le_bmod (x := x) (m := 4294967296) (by decide)
  have hlt := Int.bmod_lt (x := x) (m := 4294967296) (by decide)
  unfold int32
  omega

/-- Conversion of a signed value to `size_t`. -/
def sizeT (x : ℤ) : ℕ := (x % 4294967296).toNat

theorem sizeT_natCast {x : ℕ} (h : x < 4294967296) : sizeT (x : ℤ) = x := by
  unfold sizeT
  omega

def roundDown (x s : ℕ) : ℕ := x - x % s

def roundUp (n s : ℕ) : ℕ := u32 (n + s - 1) / s * s

/-- `PG_RND_UP` on an `int` operand, as `kheap_cache_grow` uses it. -/
def pgRndUp (n : ℕ) : ℕ := roundUp n PAGE_SIZE

def pgRndDown (a : ℕ) : ℕ := roundDown a PAGE_SIZE

def addrToPhys (a : ℕ) : ℕ := sub32 a VIRT_BASE

def addrToVirt (a : ℕ) : ℕ := u32 (a + VIRT_BASE)

/-- `ceil_div` on non-negative operands. -/
def ceilDiv (a b : ℕ) : ℕ := a / b + if a % b ≠ 0 then 1 else 0

/-- `ceil_div`, for any operands. -/
def ceilDivInt (a b : ℤ) : ℤ := if Int.tmod a b ≠ 0 then Int.tdiv a b + 1 else Int.tdiv a b

end DepthOS
