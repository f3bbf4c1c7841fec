import DepthOS.Proofs.Pmm
import DepthOS.Spec.Multiboot

/-! The bitmap of `pmm_init` against the boot memory map. Nothing of the map but
the sum of its available lengths gets through, so the clear frames are the pages
from 4 MiB up to that sum, wherever memory really is. -/

namespace DepthOS

open Lib

theorem lt_pmmFrames (m f : ℕ) : f < pmmFrames m ↔ f * 4096 < m % 2 ^ 32 := by
  unfold pmmFrames u32
  split_ifs <;> omega

/-- The bytes of the available regions, overlaps counted twice. -/
def availableBytes (entries : List MmapEntry) : ℕ :=
  ((entries.filter (fun e => e.type = MULTIBOOT_MMAP_AREA_AVAILABLE)).map MmapEntry.length).sum

/-- The loop of `multiboot_load_mmap` from any partial sum. -/
theorem foldl_available (entries : List MmapEntry) (acc : ℕ) :
    entries.foldl (fun memLength e =>
      if e.type = MULTIBOOT_MMAP_AREA_AVAILABLE then (memLength + e.length) % 2 ^ 64
      else memLength) acc % 2 ^ 64 = (acc + availableBytes entries) % 2 ^ 64 := by
  induction entries generalizing acc with
  | nil => rfl
  | cons e rest ih =>
    rw [List.foldl_cons, ih]
    unfold availableBytes
    by_cases he : e.type = MULTIBOOT_MMAP_AREA_AVAILABLE
    · rw [if_pos he, List.filter_cons_of_pos (by simpa using he), List.map_cons, List.sum_cons,
        Nat.mod_add_mod, Nat.add_assoc]
    · rw [if_neg he, List.filter_cons_of_neg (by simpa using he)]

theorem multibootLoadMmap_eq (entries : List MmapEntry) :
    multibootLoadMmap entries = availableBytes entries % 2 ^ 32 := by
  have h := foldl_available entries 0
  rw [Nat.zero_add] at h
  unfold multibootLoadMmap u32
  omega

theorem bootBitmap_clear (entries : List MmapEntry) (f : ℕ) :
    (f < (bootBitmap entries).size ∧ (bootBitmap entries).bit f = false) ↔
      1024 ≤ f ∧ f * 4096 < availableBytes entries % 2 ^ 32 := by
  obtain ⟨hsize, hbit⟩ := pmmInit_bitmap (m := 0) (if_pos rfl).symm
  have hlt := lt_pmmFrames (multibootLoadMmap entries) f
  rw [multibootLoadMmap_eq, Nat.mod_mod] at hlt
  unfold bootBitmap
  rw [hsize, hbit f, decide_eq_false_iff_not, multibootLoadMmap_eq, ← hlt]
  omega

/-- The memory map is respected exactly when memory is there from 4 MiB up to the sum
of the available lengths, as a `size_t`. -/
theorem boot_map_respected_iff (entries : List MmapEntry) :
    BootRespected entries ↔
      ∀ f, 1024 ≤ f → f * 4096 < availableBytes entries % 2 ^ 32 →
        PageAvailable entries f := by
  constructor
  · intro h f h1 h2
    obtain ⟨hf, hb⟩ := (bootBitmap_clear entries f).2 ⟨h1, h2⟩
    exact h f hf hb
  · intro h f hf hb
    obtain ⟨h1, h2⟩ := (bootBitmap_clear entries f).1 ⟨hf, hb⟩
    exact h f h1 h2

/-- 8 MiB of memory at 16 MiB, and none below. -/
def highMap : List MmapEntry := [⟨0, 0x1000000, 2⟩, ⟨0x1000000, 0x800000, 1⟩]

/-- The frames from 4 to 8 MiB are handed out, and they are reserved. -/
theorem boot_map_ignored : ¬ BootRespected highMap := by
  intro h
  obtain ⟨hf, hb⟩ := (bootBitmap_clear highMap 1024).2 ⟨le_rfl, by decide⟩
  obtain ⟨e, he, ht, ha, -⟩ := h 1024 hf hb
  simp only [highMap, List.mem_cons, List.not_mem_nil, or_false] at he
  rcases he with rfl | rfl
  · exact absurd ht (by decide)
  · exact absurd ha (by decide)

end DepthOS
