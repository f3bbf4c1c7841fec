import DepthOS.Spec.Pmm

/-! The frame allocator over whole runs: ownership of frames is exactly what the
bitmap says, and freeing undoes allocating bit for bit. -/

namespace DepthOS

open Lib

/-- `total` is the memory size `pmm_init` works with. -/
theorem pmmInit_bitmap {m t total : ℕ} (h : total = if m = 0 then t else m) :
    (pmmInit m t).size = pmmFrames total ∧
    ∀ j, (pmmInit m t).bit j = decide (j < 1024 ∧ j < pmmFrames total) := by
  obtain ⟨h1, h2⟩ := bit_foldl_range bitmapFlip (fun b => !b) flip_size bit_flip
    (bitmapInit (pmmFrames total) (by have := pmmFrames_le total; omega)) 0 1024 (by decide)
  simp only [pmmInit, ← h]
  refine ⟨h1, fun j => ?_⟩
  rw [h2 j, bit_init]
  by_cases hj : j < 1024 ∧ j < pmmFrames total
  · rw [if_pos ⟨Nat.zero_le _, by omega, hj.2⟩]
    simp [hj]
  · rw [if_neg (fun h => hj ⟨by omega, h.2.2⟩)]
    simp [hj]

theorem pmmInit_spec (m t : ℕ) (hm : m ≠ 0) :
    (pmmInit m t).size = pmmFrames m ∧
    ∀ j, (pmmInit m t).bit j = decide (j < 1024 ∧ j < pmmFrames m) :=
  pmmInit_bitmap (if_neg hm).symm

/-- A successful `pmm_alloc`: the first fit as a physical address, its bits set
and no other bit touched. -/
theorem pmmAlloc_spec (bm : Bitmap) {n : ℕ} (hn : 1 ≤ n) (hs : bm.size ≤ 1048576)
    (h : HasRun bm n false) :
    ∃ a, FirstFit bm n false a ∧ (pmmAlloc bm n).1 = a * 4096 ∧
      (pmmAlloc bm n).2.size = bm.size ∧
      (pmmAlloc bm n).2.bits.length = bm.bits.length ∧
      ∀ j, (pmmAlloc bm n).2.bit j = if a ≤ j ∧ j < a + n then true else bm.bit j := by
  obtain ⟨a, hfit, hr, hsize, hlen, hbit⟩ := scanFlip_found bm false hn (by omega) h
  have hle := hfit.run.1
  refine ⟨a, hfit, ?_, hsize, hlen, fun j => ?_⟩
  · simp only [pmmAlloc, hr]
    rw [sizeT_natCast (by omega), u32_of_lt (by omega)]
  · simp only [pmmAlloc, hbit j]
    by_cases hin : a ≤ j ∧ j < a + n
    · rw [if_pos hin, if_pos hin, hfit.run.2 j hin.1 hin.2]
      rfl
    · rw [if_neg hin, if_neg hin]

theorem pmmFree_spec (bm : Bitmap) (frame n : ℕ) (hf : frame / 4096 ≤ bm.size) :
    (pmmFree bm frame n).size = bm.size ∧
    ∀ j, (pmmFree bm frame n).bit j =
      if frame / 4096 ≤ j ∧ j < frame / 4096 + n ∧ j < bm.size then false else bm.bit j :=
  setmulti_spec bm false (frame / 4096) n (by have := bm.size_lt; omega) (Or.inl hf)

theorem free_alloc (bm : Bitmap) {n : ℕ} (hn : 1 ≤ n) (hs : bm.size ≤ 1048576)
    (h : HasRun bm n false) : pmmFree (pmmAlloc bm n).2 (pmmAlloc bm n).1 n = bm := by
  obtain ⟨a, hfit, haddr, hsize, hlen, hbit⟩ := pmmAlloc_spec bm hn hs h
  have hle := hfit.run.1
  have hidx : (pmmAlloc bm n).1 / 4096 = a := by rw [haddr]; omega
  obtain ⟨hsize', hbit'⟩ := pmmFree_spec (pmmAlloc bm n).2 (pmmAlloc bm n).1 n (by omega)
  apply bitmap_ext_bit
  · rw [hsize', hsize]
  · rw [pmmFree, setmulti_length, hlen]
  · intro j
    rw [hbit' j, hidx, hsize]
    by_cases hin : a ≤ j ∧ j < a + n
    · rw [if_pos (by omega), hfit.run.2 j hin.1 hin.2]
    · rw [if_neg (by omega), hbit j, if_neg hin]

/-- What holds of the frames in every reachable state. -/
structure PmmInv (s : PmmState) : Prop where
  size_le : s.bitmap.size ≤ 1048576
  low : (0, 1024) ∈ s.reserved
  wf : ∀ b ∈ s.live, 1 ≤ b.2 ∧ b.1 / 4096 + b.2 ≤ s.bitmap.size
  disjoint : s.live.Pairwise fun a b => ∀ j, holdsFrame a j → ¬ holdsFrame b j
  apart : ∀ b ∈ s.live, ∀ r ∈ s.reserved, ∀ j, holdsFrame b j → ¬ inRange r j
  owned : ∀ j < s.bitmap.size, s.bitmap.bit j = true ↔
    (∃ r ∈ s.reserved, inRange r j) ∨ ∃ b ∈ s.live, holdsFrame b j

theorem pmmInv_init {m : ℕ} (hm : 4194304 ≤ m) : PmmInv (PmmState.init m) := by
  obtain ⟨hsize, hbit⟩ := pmmInit_spec m 0 (by omega)
  have hle := pmmFrames_le m
  refine ⟨by simpa [PmmState.init, hsize] using hle, by simp [PmmState.init],
    by simp [PmmState.init], by simp [PmmState.init], by simp [PmmState.init], ?_⟩
  intro j hj
  simp only [PmmState.init] at hj ⊢
  rw [hsize] at hj
  simp [hbit j, hj, inRange]

theorem run_unowned {s : PmmState} (hinv : PmmInv s) {n a j : ℕ}
    (hrun : RunAt s.bitmap n false a) (h1 : a ≤ j) (h2 : j < a + n) :
    (∀ r ∈ s.reserved, ¬ inRange r j) ∧ ∀ b ∈ s.live, ¬ holdsFrame b j := by
  have hj : j < s.bitmap.size := by have := hrun.1; omega
  have hb := hrun.2 j h1 h2
  have hno : ¬((∃ r ∈ s.reserved, inRange r j) ∨ ∃ b ∈ s.live, holdsFrame b j) := by
    rw [← hinv.owned j hj, hb]
    simp
  exact ⟨fun r hr hin => hno (Or.inl ⟨r, hr, hin⟩), fun b hb hin => hno (Or.inr ⟨b, hb, hin⟩)⟩

theorem pmmInv_alloc {s : PmmState} (hinv : PmmInv s) {n : ℕ} (hn : 1 ≤ n)
    (h : HasRun s.bitmap n false) :
    PmmInv { s with bitmap := (pmmAlloc s.bitmap n).2
                    live := ((pmmAlloc s.bitmap n).1, n) :: s.live } := by
  obtain ⟨a, hfit, haddr, hsize, -, hbit⟩ := pmmAlloc_spec s.bitmap hn hinv.size_le h
  have hle := hfit.run.1
  have hhold : ∀ j, holdsFrame ((pmmAlloc s.bitmap n).1, n) j ↔ a ≤ j ∧ j < a + n := by
    intro j
    unfold holdsFrame
    rw [haddr, Nat.mul_div_cancel _ (by decide)]
  refine ⟨by simpa [hsize] using hinv.size_le, hinv.low, ?_, ?_, ?_, ?_⟩
  · rintro b hb
    rcases List.mem_cons.1 hb with rfl | hb
    · exact ⟨hn, by simp only [hsize, haddr]; omega⟩
    · simpa only [hsize] using hinv.wf b hb
  · refine List.pairwise_cons.2 ⟨fun b hb j hj hj' => ?_, hinv.disjoint⟩
    obtain ⟨h1, h2⟩ := (hhold j).1 hj
    exact (run_unowned hinv hfit.run h1 h2).2 b hb hj'
  · intro b hb r hr j hj hj'
    rcases List.mem_cons.1 hb with rfl | hb
    · obtain ⟨h1, h2⟩ := (hhold j).1 hj
      exact (run_unowned hinv hfit.run h1 h2).1 r hr hj'
    · exact hinv.apart b hb r hr j hj hj'
  · intro j hj
    simp only [hsize] at hj
    simp only [hbit j, List.mem_cons, exists_eq_or_imp, hhold]
    by_cases hin : a ≤ j ∧ j < a + n
    · simp [hin]
    · rw [if_neg hin, hinv.owned j hj]
      simp only [hin, false_or]

theorem pmmInv_reserve {s : PmmState} (hinv : PmmInv s) {frame count : ℕ}
    (hf : frame < 4294967296)
    (hc : frame / 4096 ≤ s.bitmap.size ∨ frame / 4096 + count ≤ 4294967296)
    (hfree : ∀ b ∈ s.live, ∀ j, holdsFrame b j → ¬ inRange (frame / 4096, count) j) :
    PmmInv { s with bitmap := pmmSet s.bitmap frame count false
                    reserved := (frame / 4096, count) :: s.reserved } := by
  obtain ⟨hsize, hbit⟩ := setmulti_spec s.bitmap true (frame / 4096) count (by omega) hc
  have he : pmmSet s.bitmap frame count false = bitmapSetmulti s.bitmap true (frame / 4096) count :=
    rfl
  refine ⟨by simpa [he, hsize] using hinv.size_le, List.mem_cons_of_mem _ hinv.low, ?_,
    hinv.disjoint, ?_, ?_⟩
  · intro b hb
    simpa only [he, hsize] using hinv.wf b hb
  · intro b hb r hr
    rcases List.mem_cons.1 hr with rfl | hr
    · exact hfree b hb
    · exact hinv.apart b hb r hr
  · intro j hj
    simp only [he, hsize] at hj
    simp only [he, hbit j, List.mem_cons, exists_eq_or_imp]
    by_cases hin : inRange (frame / 4096, count) j
    · rw [if_pos ⟨hin.1, hin.2, hj⟩]
      simp [hin]
    · rw [if_neg (fun h => hin ⟨h.1, h.2.1⟩), hinv.owned j hj]
      simp only [hin, false_or]

theorem pmmInv_free {s : PmmState} (hinv : PmmInv s) {frame n : ℕ} (hmem : (frame, n) ∈ s.live) :
    PmmInv { s with bitmap := pmmFree s.bitmap frame n, live := s.live.erase (frame, n) } := by
  have hwf := hinv.wf _ hmem
  obtain ⟨hsize, hbit⟩ := pmmFree_spec s.bitmap frame n (by have := hwf.2; simp only at this; omega)
  have hsub : ∀ b ∈ s.live.erase (frame, n), b ∈ s.live := fun b hb => List.mem_of_mem_erase hb
  -- the freed block first, so that the others are disjoint from it
  have hperm := (List.perm_cons_erase hmem).pairwise_iff
    (R := fun a b : ℕ × ℕ => ∀ j, holdsFrame a j → ¬ holdsFrame b j)
    (fun h j h1 h2 => h j h2 h1)
  have hpair := List.pairwise_cons.1 (hperm.1 hinv.disjoint)
  refine ⟨by simpa [hsize] using hinv.size_le, hinv.low, ?_, hpair.2, ?_, ?_⟩
  · intro b hb
    simpa only [hsize] using hinv.wf b (hsub b hb)
  · intro b hb
    exact hinv.apart b (hsub b hb)
  · intro j hj
    simp only [hsize] at hj
    simp only [hbit j]
    by_cases hin : holdsFrame (frame, n) j
    · rw [if_pos ⟨hin.1, hin.2, hj⟩]
      simp only [Bool.false_eq_true, false_iff]
      rintro (⟨r, hr, hrj⟩ | ⟨b, hb, hbj⟩)
      · exact hinv.apart _ hmem r hr j hin hrj
      · exact hpair.1 b hb j hin hbj
    · rw [if_neg (fun h => hin ⟨h.1, h.2.1⟩), hinv.owned j hj]
      have hlive : (∃ b ∈ s.live, holdsFrame b j) ↔
          ∃ b ∈ s.live.erase (frame, n), holdsFrame b j := by
        constructor
        · rintro ⟨b, hb, hbj⟩
          refine ⟨b, (List.mem_erase_of_ne ?_).2 hb, hbj⟩
          rintro rfl
          exact hin hbj
        · rintro ⟨b, hb, hbj⟩
          exact ⟨b, hsub b hb, hbj⟩
      rw [hlive]

theorem pmmInv_step (s : PmmState) (e : PmmEvent) (s' : PmmState) (hinv : PmmInv s)
    (h : PmmStep s e s') : PmmInv s' := by
  cases e with
  | alloc n =>
    obtain ⟨hn, hrun, rfl⟩ := h
    exact pmmInv_alloc hinv hn hrun
  | reserve frame count =>
    obtain ⟨hf, hc, hfree, rfl⟩ := h
    exact pmmInv_reserve hinv hf hc hfree
  | free frame n =>
    obtain ⟨hmem, rfl⟩ := h
    exact pmmInv_free hinv hmem

theorem pmmInv_run {m : ℕ} (hm : 4194304 ≤ m) {evs : List PmmEvent} {s : PmmState}
    (h : PmmRun m evs s) : PmmInv s := by
  refine Run.invariant PmmInv ?_ pmmInv_step h
  rintro s rfl
  exact pmmInv_init hm

/-- Frame ownership in every reachable state: live blocks are pairwise disjoint,
inside the bitmap and clear of the first 1024 frames, the set bits are exactly
the reserved frames and the frames of live blocks, and an allocation followed
by its release gives back the same bitmap. -/
theorem pmm_frames_owned (memorySize : ℕ) (hm : 4194304 ≤ memorySize) (evs : List PmmEvent)
    (s : PmmState) (hrun : PmmRun memorySize evs s) :
    (s.live.Pairwise fun a b => ∀ j, holdsFrame a j → ¬ holdsFrame b j) ∧
    (∀ b ∈ s.live, b.1 / 4096 + b.2 ≤ s.bitmap.size) ∧
    (∀ b ∈ s.live, ∀ j, holdsFrame b j → 1024 ≤ j) ∧
    (∀ j < s.bitmap.size, bitmapTest s.bitmap j = true ↔
      (∃ r ∈ s.reserved, inRange r j) ∨ ∃ b ∈ s.live, holdsFrame b j) ∧
    (∀ n, 1 ≤ n → HasRun s.bitmap n false →
      pmmFree (pmmAlloc s.bitmap n).2 (pmmAlloc s.bitmap n).1 n = s.bitmap) := by
  have hinv := pmmInv_run hm hrun
  refine ⟨hinv.disjoint, fun b hb => (hinv.wf b hb).2, ?_, ?_,
    fun n hn h => free_alloc s.bitmap hn hinv.size_le h⟩
  · intro b hb j hj
    have := hinv.apart b hb _ hinv.low j hj
    unfold inRange at this
    omega
  · intro j hj
    rw [test_eq, ← hinv.owned j hj]
    simp [hj]

/-! Runs on given events. -/

/-- The frame is in a reserved range or in a live block. -/
def Owned (live reserved : List (ℕ × ℕ)) (j : ℕ) : Prop :=
  (∃ r ∈ reserved, inRange r j) ∨ ∃ b ∈ live, holdsFrame b j

/-- These calls can leave these blocks and reservations. -/
def Leaves (memorySize : ℕ) (evs : List PmmEvent) (live reserved : List (ℕ × ℕ)) : Prop :=
  ∃ s, PmmRun memorySize evs s ∧ s.live = live ∧ s.reserved = reserved ∧
    s.bitmap.size = pmmFrames memorySize

theorem PmmInv.runAt {s : PmmState} (h : PmmInv s) {a n : ℕ} (hin : a + n ≤ s.bitmap.size)
    (hfree : ∀ j, a ≤ j → j < a + n → ¬ Owned s.live s.reserved j) : RunAt s.bitmap n false a := by
  refine ⟨hin, fun j h1 h2 => ?_⟩
  rw [← Bool.not_eq_true, h.owned j (by omega)]
  exact hfree j h1 h2

section Leaves

variable {memorySize : ℕ} {evs : List PmmEvent} {live reserved : List (ℕ × ℕ)}

theorem Leaves.alloc (h : Leaves memorySize evs live reserved) (hm : 4194304 ≤ memorySize)
    (n a : ℕ) (hn : 1 ≤ n) (hin : a + n ≤ pmmFrames memorySize)
    (hbelow : ∀ j < a, Owned live reserved j)
    (hfree : ∀ j, a ≤ j → j < a + n → ¬ Owned live reserved j) :
    Leaves memorySize (evs ++ [.alloc n]) ((a * 4096, n) :: live) reserved := by
  obtain ⟨s, hs, rfl, rfl, hsize⟩ := h
  have hinv := pmmInv_run hm hs
  have hrun := hinv.runAt (by omega) hfree
  obtain ⟨b, hfit, haddr, hkeep, -, -⟩ := pmmAlloc_spec s.bitmap hn hinv.size_le ⟨a, hrun⟩
  have hle : b ≤ a := Nat.le_of_not_lt fun hlt => hfit.least a hlt hrun
  have hge : a ≤ b := by
    by_contra hlt
    have hclear := hfit.run.2 b le_rfl (by omega)
    rw [(hinv.owned b (by omega)).2 (hbelow b (by omega))] at hclear
    exact absurd hclear (by decide)
  obtain rfl := Nat.le_antisymm hge hle
  exact ⟨_, Run.snoc hs ⟨hn, ⟨a, hrun⟩, rfl⟩, by rw [haddr], rfl, hkeep.trans hsize⟩

theorem Leaves.reserve (h : Leaves memorySize evs live reserved) (frame count : ℕ)
    (hframe : frame < 4294967296) (hin : frame / 4096 ≤ pmmFrames memorySize)
    (hfree : ∀ b ∈ live, b.1 / 4096 + b.2 ≤ frame / 4096) :
    Leaves memorySize (evs ++ [.reserve frame count]) live
      ((frame / 4096, count) :: reserved) := by
  obtain ⟨s, hs, rfl, rfl, hsize⟩ := h
  have hclear : ∀ b ∈ s.live, ∀ j, holdsFrame b j → ¬ inRange (frame / 4096, count) j := by
    intro b hb j hj hr
    have := hfree b hb
    unfold holdsFrame at hj
    unfold inRange at hr
    omega
  have hidx : frame / 4096 ≤ s.bitmap.size := by rwa [hsize]
  have hkeep := (setmulti_spec s.bitmap true (frame / 4096) count (by omega) (Or.inl hidx)).1
  exact ⟨_, Run.snoc hs ⟨hframe, Or.inl hidx, hclear, rfl⟩, rfl, rfl, hkeep.trans hsize⟩

theorem Leaves.free (h : Leaves memorySize evs live reserved) (frame n : ℕ)
    (hin : frame / 4096 ≤ pmmFrames memorySize) (hb : (frame, n) ∈ live) :
    Leaves memorySize (evs ++ [.free frame n]) (live.erase (frame, n)) reserved := by
  obtain ⟨s, hs, rfl, rfl, hsize⟩ := h
  have hkeep := (pmmFree_spec s.bitmap frame n (by rwa [hsize])).1
  exact ⟨_, Run.snoc hs ⟨hb, rfl⟩, rfl, rfl, hkeep.trans hsize⟩

end Leaves

/-- A 16 MiB machine: two blocks and a reservation behind them, then the first block is freed
and a smaller one takes its place. -/
theorem pmm_frames_owned_reused : ∃ s, PmmRun 16777216 [.alloc 3, .alloc 2,
      .reserve 0x500000 16, .free 0x400000 3, .alloc 1] s ∧
    s.live = [(0x400000, 1), (0x403000, 2)] ∧ s.reserved = [(1280, 16), (0, 1024)] ∧
    (s.live.Pairwise fun a b => ∀ j, holdsFrame a j → ¬ holdsFrame b j) ∧
    (∀ j < s.bitmap.size, bitmapTest s.bitmap j = true ↔
      (∃ r ∈ s.reserved, inRange r j) ∨ ∃ b ∈ s.live, holdsFrame b j) ∧
    pmmFree (pmmAlloc s.bitmap 2).2 (pmmAlloc s.bitmap 2).1 2 = s.bitmap := by
  have hboot : Leaves 16777216 [] [] [(0, 1024)] :=
    ⟨_, Run.nil rfl, rfl, rfl, (pmmInit_spec 16777216 0 (by decide)).1⟩
  have hfirst := hboot.alloc (by decide) 3 1024 (by decide) (by decide)
    (by simp [Owned, inRange]) (by simp [Owned, inRange]; omega)
  have hsecond := hfirst.alloc (by decide) 2 1027 (by decide) (by decide)
    (by simp [Owned, inRange, holdsFrame]; omega) (by simp [Owned, inRange, holdsFrame]; omega)
  have hreserved := hsecond.reserve 0x500000 16 (by decide) (by decide) (by decide)
  have hfreed := hreserved.free 0x400000 3 (by decide) (by decide)
  have hlast := hfreed.alloc (by decide) 1 1024 (by decide) (by decide)
    (by simp [Owned, inRange, holdsFrame]; omega) (by simp [Owned, inRange, holdsFrame]; omega)
  obtain ⟨s, hrun, hlive, hres, hsize⟩ := hlast
  obtain ⟨hdisjoint, -, -, howned, hback⟩ := pmm_frames_owned 16777216 (by decide) _ _ hrun
  have hroom : RunAt s.bitmap 2 false 1025 := by
    refine (pmmInv_run (by decide) hrun).runAt (by rw [hsize]; decide) ?_
    rw [hlive, hres]
    simp [Owned, inRange, holdsFrame]
    omega
  exact ⟨s, hrun, hlive, hres, hdisjoint, howned, hback 2 (by decide) ⟨1025, hroom⟩⟩

end DepthOS
