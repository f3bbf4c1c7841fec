import DepthOS.Lib.Loop
import DepthOS.Spec.Pmm

/-! `multiboot_load_mmap` of `kernel/multiboot.c`: the boot loader's memory map
is folded into the one number `__total_memory`, which `pmm_init(0)` takes for the
length of memory. And the loop of `multiboot_init` that reserves the framebuffer. -/

namespace DepthOS

open Lib

abbrev MULTIBOOT_MMAP_AREA_AVAILABLE : ℕ := 1

/-- `addr` and `length` are 64-bit. -/
structure MmapEntry where
  addr : ℕ
  length : ℕ
  type : ℕ

/-- The value left in `__total_memory`, a `size_t`. -/
def multibootLoadMmap (entries : List MmapEntry) : ℕ :=
  u32 (entries.foldl (fun memLength e =>
    if e.type = MULTIBOOT_MMAP_AREA_AVAILABLE then (memLength + e.length) % 2 ^ 64
    else memLength) 0)

/-- `pmm_bitmap` after `multiboot_load_mmap` and `pmm_init(0)`. -/
def bootBitmap (entries : List MmapEntry) : Bitmap := pmmInit 0 (multibootLoadMmap entries)

/-- Page `f` lies entirely inside an available region. -/
def PageAvailable (entries : List MmapEntry) (f : ℕ) : Prop :=
  ∃ e ∈ entries, e.type = MULTIBOOT_MMAP_AREA_AVAILABLE ∧ e.addr ≤ f * 4096 ∧
    (f + 1) * 4096 ≤ e.addr + e.length

/-- The frames `pmm_alloc` may hand out are available memory. -/
def BootRespected (entries : List MmapEntry) : Prop :=
  ∀ f < (bootBitmap entries).size, (bootBitmap entries).bit f = false → PageAvailable entries f

/-! The framebuffer. -/

/-- The loop over `fa`, a `uintptr_t`, from the 64-bit `framebuffer_addr` until it is the
32-bit product of pitch and height, with fuel for its rounds. -/
def multibootReserveFb (fuel : ℕ) (bm : Bitmap) (addr pitch height : ℕ) : Option Bitmap :=
  (forLoop (fun fa => fa != u32 (pitch * height)) (fun fa => u32 (fa + PAGE_SIZE))
    (fun bm fa => pmmSet bm fa 1 false) fuel bm (u32 addr)).map (·.1)

end DepthOS
