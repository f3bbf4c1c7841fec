import DepthOS.Lib.Run
import DepthOS.Sanity.Scan

/-! `mm/pmm.c`: the page-frame allocator over `pmm_bitmap`, and its runs. A
frame is named by its number, a block by the physical address `pmm_alloc`
returned and its length in frames. -/

namespace DepthOS

open Lib

/-- `pmm_bitmap.size` for a memory of `memorySize` bytes. -/
def pmmFrames (memorySize : ℕ) : ℕ :=
  u32 memorySize / 4096 + if u32 memorySize % 4096 ≠ 0 then 1 else 0

theorem pmmFrames_le (m : ℕ) : pmmFrames m ≤ 1048576 := by
  unfold pmmFrames u32
  split_ifs <;> omega

/-- The bitmap `pmm_init` leaves: `totalMemory` is the global `__total_memory`
that a zero argument falls back to. -/
def pmmInit (memorySize totalMemory : ℕ) : Bitmap :=
  let m := if memorySize = 0 then totalMemory else memorySize
  (List.range 1024).foldl (fun b k => bitmapFlip b (u32 (0 + k)))
    (bitmapInit (pmmFrames m) (by have := pmmFrames_le m; omega))

/-- `idx` is a `size_t`: the test `idx < 0` never fires, so a failed scan is
shifted and returned like a frame. -/
def pmmAlloc (bm : Bitmap) (count : ℕ) : ℕ × Bitmap :=
  let r := bitmapScanFlip bm 0 count false
  (u32 (sizeT r.1 * 4096), r.2)

def pmmFree (bm : Bitmap) (frame count : ℕ) : Bitmap :=
  bitmapSetmulti bm false (frame / 4096) count

def pmmSet (bm : Bitmap) (frame count : ℕ) (avail : Bool) : Bitmap :=
  bitmapSetmulti bm (!avail) (frame / 4096) count

inductive PmmEvent where
  | alloc (n : ℕ)
  | reserve (frame count : ℕ)
  | free (frame n : ℕ)

structure PmmState where
  bitmap : Bitmap
  /-- blocks handed out and not freed: physical address, number of frames -/
  live : List (ℕ × ℕ)
  /-- reserved ranges: first frame, number of frames -/
  reserved : List (ℕ × ℕ)

def PmmState.init (memorySize : ℕ) : PmmState := ⟨pmmInit memorySize 0, [], [(0, 1024)]⟩

/-- Frame `j` belongs to the block. -/
def holdsFrame (b : ℕ × ℕ) (j : ℕ) : Prop := b.1 / 4096 ≤ j ∧ j < b.1 / 4096 + b.2

def inRange (r : ℕ × ℕ) (j : ℕ) : Prop := r.1 ≤ j ∧ j < r.1 + r.2

/-- One call: an allocation that finds a run, a reservation of frames no live
block holds, or the release of a live block with its own length. The one shape
of reservation left out starts past the bitmap and is so long that the `int`
counter of `bitmap_setmulti` overflows. -/
def PmmStep (s : PmmState) (e : PmmEvent) (s' : PmmState) : Prop :=
  match e with
  | .alloc n =>
    1 ≤ n ∧ HasRun s.bitmap n false ∧
    s' = { s with bitmap := (pmmAlloc s.bitmap n).2
                  live := ((pmmAlloc s.bitmap n).1, n) :: s.live }
  | .reserve frame count =>
    frame < 4294967296 ∧ (frame / 4096 ≤ s.bitmap.size ∨ frame / 4096 + count ≤ 4294967296) ∧
    (∀ b ∈ s.live, ∀ j, holdsFrame b j → ¬ inRange (frame / 4096, count) j) ∧
    s' = { s with bitmap := pmmSet s.bitmap frame count false
                  reserved := (frame / 4096, count) :: s.reserved }
  | .free frame n =>
    (frame, n) ∈ s.live ∧
    s' = { s with bitmap := pmmFree s.bitmap frame n
                  live := s.live.erase (frame, n) }

def PmmRun (memorySize : ℕ) : List PmmEvent → PmmState → Prop :=
  Run (fun s => s = PmmState.init memorySize) PmmStep

end DepthOS
