import DepthOS.Spec.Basic

/-! `lib/bitmap.c`: a bit vector packed eight to a byte. The storage always
holds at least `size` bits, which `bitmap_in_bounds` relies on and no
operation changes, so the structure carries it. -/

namespace DepthOS

open Lib

structure Bitmap where
  bits : List Byte
  size : ℕ
  size_lt : size < 4294967296
  fits : size ≤ 8 * bits.length

@[ext] theorem Bitmap.ext {a b : Bitmap} (hb : a.bits = b.bits) (hs : a.size = b.size) : a = b := by
  cases a; cases b; cases hb; cases hs; rfl

def EBITMAP : ℤ := 1

def bitmapElemSize : ℕ := 8

def bitmapElemIndex (idx : ℕ) : ℕ := idx / bitmapElemSize

def bitmapElemOffset (idx : ℕ) : ℕ := idx % bitmapElemSize

def bitmapElemMask (idx : ℕ) : Byte := 1#8 <<< bitmapElemOffset idx

/-- `bitmap_byte_size` as a function of the size field. -/
def bitmapByteSize (size : ℕ) : ℕ := bitmapElemIndex (sub32 size 1) + 1

def Bitmap.load (bm : Bitmap) (k : ℕ) : Byte := bm.bits.getD k 0

def Bitmap.store (bm : Bitmap) (k : ℕ) (v : Byte) : Bitmap :=
  { bm with bits := bm.bits.set k v, fits := by simpa using bm.fits }

/-- The state `bitmap_init` leaves on storage of `bitmap_byte_size` bytes. -/
def bitmapInit (size : ℕ) (h : size < 4294967296) : Bitmap where
  bits := List.replicate (bitmapByteSize size) 0
  size := size
  size_lt := h
  fits := by
    simp only [List.length_replicate, bitmapByteSize, bitmapElemIndex, bitmapElemSize, sub32, u32]
    omega

def bitmapInBounds (bm : Bitmap) (idx : ℕ) : Bool := decide (idx < bm.size)

def bitmapMark (bm : Bitmap) (i : ℕ) : Bitmap :=
  if bitmapInBounds bm i then
    bm.store (bitmapElemIndex i) (bm.load (bitmapElemIndex i) ||| bitmapElemMask i)
  else bm

def bitmapReset (bm : Bitmap) (i : ℕ) : Bitmap :=
  if bitmapInBounds bm i then
    bm.store (bitmapElemIndex i) (bm.load (bitmapElemIndex i) &&& ~~~ bitmapElemMask i)
  else bm

def bitmapFlip (bm : Bitmap) (i : ℕ) : Bitmap :=
  if bitmapInBounds bm i then
    bm.store (bitmapElemIndex i) (bm.load (bitmapElemIndex i) ^^^ bitmapElemMask i)
  else bm

def bitmapTest (bm : Bitmap) (i : ℕ) : Bool :=
  if bitmapInBounds bm i then
    (bm.load (bitmapElemIndex i) &&& bitmapElemMask i) != 0
  else false

def bitmapSet (bm : Bitmap) (v : Bool) (idx : ℕ) : Bitmap :=
  if v then bitmapMark bm idx else bitmapReset bm idx

/-- The loop's two exit tests do not depend on the bits, so the number of
rounds is fixed at entry; `bm->size - idx` wraps when `idx` is past the end. -/
def bitmapSetmulti (bm : Bitmap) (v : Bool) (idx c : ℕ) : Bitmap :=
  (List.range (min (sub32 bm.size idx) c)).foldl (fun b i => bitmapSet b v (u32 (idx + i))) bm

/-- The scan loop with `k` indices left, at index `i`, with `r` and `rc` the
start and the length of the current run. -/
def bitmapScanLoop (bm : Bitmap) (s n : ℕ) (v : Bool) : ℕ → ℕ → ℕ → ℕ → ℤ
  | 0, _, _, _ => -EBITMAP
  | k + 1, i, r, rc =>
    if bitmapTest bm (u32 (s + i)) ≠ v then bitmapScanLoop bm s n v k (i + 1) r 0
    else
      let r' := if rc = 0 then i else r
      if rc + 1 = n then s32 r' else bitmapScanLoop bm s n v k (i + 1) r' (rc + 1)

def bitmapScan (bm : Bitmap) (s n : ℕ) (v : Bool) : ℤ := bitmapScanLoop bm s n v bm.size 0 0 0

/-- `idx` is a `size_t` here, so the test `idx < 0` after the scan never fires
and the flipping loop also runs on the failure value. -/
def bitmapScanFlip (bm : Bitmap) (s n : ℕ) (v : Bool) : ℤ × Bitmap :=
  let idx := sizeT (bitmapScan bm s n v)
  (s32 idx, (List.range n).foldl (fun b i => bitmapFlip b (u32 (idx + i))) bm)

end DepthOS
