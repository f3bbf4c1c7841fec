import DepthOS.Proofs.HeapBoot

/-! Blocks of a quarter page or more: they start on a page, as the entries of a page
directory need, for as long as no caller of `kmalloc` asks for a negative size. -/

namespace DepthOS

open Lib

section Sizes

variable {size : ℕ}

theorem sizeT_of_nat (h : size ≤ 2147483647) : sizeT (size : ℤ) = size :=
  sizeT_natCast (by omega)

theorem cellSizeInt_natCast (h : size ≤ 2147483647) : cellSizeInt size = cellSize size := by
  unfold cellSizeInt cellSize
  rw [sizeT_of_nat h]
  split_ifs <;> rfl

theorem kmallocSearchInt_natCast (size : ℕ) : ∀ (cache : List HeapSlab) (i fit fitIdx : ℕ),
    kmallocSearchInt size cache i fit fitIdx = kmallocSearch size cache i fit fitIdx := by
  intro cache
  induction cache with
  | nil => exact fun _ _ _ => rfl
  | cons slab cache ih =>
    intro i fit fitIdx
    simp only [kmallocSearchInt, kmallocSearch, ih, Nat.cast_lt, Nat.cast_inj]

/-- On sizes that are not negative the two readings of `kmalloc` agree. -/
theorem kmallocInt_natCast (h : Kheap) (hsize : size ≤ 2147483647) :
    kmallocInt h size = kmalloc h size := by
  by_cases hbig : size = 0 ∨ size > HEAP_LGSLAB_PAGES * PAGE_SIZE
  · have hbig' : (size : ℤ) = 0 ∨ (size : ℤ) > (HEAP_LGSLAB_PAGES * PAGE_SIZE : ℕ) := by omega
    rw [kmallocInt, if_pos hbig', kmalloc, if_pos hbig]
  · have hbig' : ¬ ((size : ℤ) = 0 ∨ (size : ℤ) > (HEAP_LGSLAB_PAGES * PAGE_SIZE : ℕ)) := by omega
    have hcell : cellSize size ≤ 2147483647 := cellSize_le hsize (by norm_num)
    have hlarge : (1024 : ℤ) ≤ (cellSize size : ℕ) ↔ 1024 ≤ cellSize size := by omega
    rw [kmallocInt, if_neg hbig', kmalloc, if_neg hbig]
    simp only [cellSizeInt_natCast hsize, kmallocSearchInt_natCast, sizeT_of_nat hcell, hlarge]

theorem growFindsInt_natCast {h : Kheap} (h1 : 1 ≤ size) (hsize : size ≤ 2147483647)
    (hg : GrowFindsInt h size) : GrowFinds h size := by
  intro hle hfound hlen
  have hcell : cellSize size ≤ 2147483647 := cellSize_le hsize (by norm_num)
  have hlarge : (1024 : ℤ) ≤ (cellSize size : ℕ) ↔ 1024 ≤ cellSize size := by omega
  have hrun := hg (by omega) (by omega)
  simp only [cellSizeInt_natCast hsize, kmallocSearchInt_natCast, hlarge] at hrun
  exact (hrun hfound hlen).1

end Sizes

/-- The event asks for no negative size. -/
def KmallocEvent.NonNeg : KmallocEvent → Prop
  | .kmalloc size => 0 ≤ size
  | .kfree _ _ => True
  | .write _ _ => True

/-- The runs in which no size is negative. -/
def NonNegRun (mem : Mem) (p : ℕ) (pmm : Bitmap) : List KmallocEvent → HeapState → Prop :=
  Run (fun s => s = ⟨(kheapInit mem p pmm).1, []⟩) fun s e s' => KmallocStep s e s' ∧ e.NonNeg

theorem nonNeg_step {s s' : HeapState} {e : KmallocEvent} (h : KmallocStep s e s') (he : e.NonNeg) :
    s' = s ∨ ∃ e', HeapStep s e' s' := by
  cases e with
  | kmalloc size =>
    obtain ⟨-, hle, hg, rfl⟩ := h
    obtain ⟨n, rfl⟩ := Int.eq_ofNat_of_zero_le (show 0 ≤ size from he)
    have hn : n ≤ 2147483647 := by omega
    rw [kmallocInt_natCast s.heap hn, sizeT_of_nat hn]
    rcases Nat.eq_zero_or_pos n with rfl | hpos
    · left
      simp [kmalloc]
    · exact Or.inr ⟨.kmalloc n, hpos, hn, growFindsInt_natCast hpos hn hg, rfl⟩
  | kfree addr size => exact Or.inr ⟨.kfree addr size, h⟩
  | write addr v =>
    obtain ⟨⟨b, hb, -, hin⟩, rfl⟩ := h
    exact Or.inr ⟨.write addr v, ⟨b, hb, hin⟩, rfl⟩

/-- Cells of a quarter page or more are made of whole pages. -/
def PageCells (slab : HeapSlab) : Prop := 1024 ≤ slab.objectSize → slab.objectSize % 4096 = 0

theorem pageCells_geometry : OfGeometry PageCells := by
  intro slab slab' _ hobject _ hp
  simpa only [PageCells, hobject] using hp

theorem growSize_large (size : ℕ) : growSize size true % 4096 = 0 := by
  simp only [growSize, if_true, pgRndUp, roundUp, u16, u32, PAGE_SIZE]
  omega

/-- A slab that `kmalloc` makes: large as soon as its cells are. -/
theorem pageCells_grown (page size : ℕ) : PageCells (grownSlab page size (decide (1024 ≤ size))) := by
  intro hobject
  by_cases hl : 1024 ≤ size
  · rw [decide_eq_true hl]
    exact growSize_large size
  · simp only [grownSlab, growSize, hl, decide_false, Bool.false_eq_true, if_false, u16] at hobject
    omega

theorem pageCells_large (page size : ℕ) : PageCells (grownSlab page size true) :=
  fun _ => growSize_large size

theorem pageCells_init (mem : Mem) (p : ℕ) (pmm : Bitmap) :
    ∀ slab ∈ (kheapInit mem p pmm).1.cache, PageCells slab := by
  rw [kheapInit_eq]
  have h0 : ∀ slab ∈ (kheapMarked mem p).cache, PageCells slab :=
    fun slab hs => absurd hs List.not_mem_nil
  have h1 := grow_all h0 8 false fun page => pageCells_grown page 8
  have h2 := grow_all h1 16 true fun page => pageCells_large page 16
  have h3 := grow_all h2 32 true fun page => pageCells_large page 32
  exact grow_all (shrink_all h3 1) 16 true fun page => pageCells_large page 16

theorem pageCells_step {s s' : HeapState} {e : HeapEvent} (h : HeapStep s e s')
    (hp : ∀ slab ∈ s.heap.cache, PageCells slab) : ∀ slab ∈ s'.heap.cache, PageCells slab := by
  cases e with
  | kmalloc size =>
    obtain ⟨-, -, -, rfl⟩ := h
    exact kmalloc_all pageCells_geometry hp size fun _ page => pageCells_grown page _
  | kfree addr size =>
    obtain ⟨-, rfl⟩ := h
    exact kfree_all pageCells_geometry hp addr size
  | write addr v =>
    obtain ⟨-, rfl⟩ := h
    exact hp

theorem nonNegRun_inv {mem : Mem} {p : ℕ} {pmm : Bitmap} {evs : List KmallocEvent} {s : HeapState}
    (hrun : NonNegRun mem p pmm evs s) :
    HeapInv s.heap s.live ∧ ∀ slab ∈ s.heap.cache, PageCells slab := by
  refine Run.invariant (fun s => HeapInv s.heap s.live ∧ ∀ slab ∈ s.heap.cache, PageCells slab)
    ?_ ?_ hrun
  · rintro s rfl
    exact ⟨(heapRunFrom_inv (Run.nil rfl : HeapRunFrom mem p pmm [] _)).1, pageCells_init mem p pmm⟩
  · rintro s e s' ⟨hinv, hp⟩ ⟨hstep, he⟩
    rcases nonNeg_step hstep he with rfl | ⟨e', hstep'⟩
    · exact ⟨hinv, hp⟩
    · exact ⟨heapInv_step s e' s' hinv hstep', pageCells_step hstep' hp⟩

section Aligned

variable {h : Kheap} {live : List (ℕ × ℕ)} {slab : HeapSlab}

theorem IsCell.aligned {a : ℕ} (hw : SlabWf slab) (hobject : slab.objectSize % 4096 = 0)
    (hcell : IsCell slab a) : a % 4096 = 0 := by
  obtain ⟨k, -, rfl⟩ := hcell
  have hstart := hw.base
  simp only [HEAP_BASE, VIRT_BASE] at hstart
  rw [Nat.add_mod, Nat.mul_mod, hobject]
  omega

theorem HeapInv.take_cell (hinv : HeapInv h live) {k : ℕ} (hk : h.cache[k]? = some slab)
    (hfirst : slab.first ≠ 0) : IsCell slab (kmallocTake h k).1 := by
  obtain ⟨fl, hfl⟩ := hinv.free k slab hk
  obtain ⟨rest, rfl, -⟩ := hfl.chain.of_ne_zero hfirst
  simp only [kmallocTake, hk]
  exact hfl.cell _ (by simp)

theorem take_grown (h : Kheap) (size : ℕ) (large : Bool) {k : ℕ}
    (hk : (kheapCacheGrow h size large).1 = some k) :
    (kmallocTake (kheapCacheGrow h size large).2 k).1 % 4096 = 0 := by
  simp only [kheapCacheGrow] at hk ⊢
  split_ifs at hk ⊢
  obtain rfl := Option.some.inj hk
  simp only [kmallocTake, List.getElem?_concat_length, u32, u16, HEAP_BASE, VIRT_BASE]
  omega

theorem kmalloc_aligned (hinv : HeapInv h live) (hp : ∀ slab ∈ h.cache, PageCells slab) {size : ℕ}
    (h1 : 1024 ≤ size) (h2 : size ≤ HEAP_LGSLAB_PAGES * PAGE_SIZE) :
    (kmalloc h size).1 % 4096 = 0 := by
  have hbig : ¬ (size = 0 ∨ size > HEAP_LGSLAB_PAGES * PAGE_SIZE) := by omega
  have hcell : cellSize size = size := if_neg (by unfold FREELIST_SIZE; omega)
  simp only [kmalloc, hbig, if_false, hcell]
  by_cases hfound : (kmallocSearch size h.cache 0 0 0).1 ≠ 0
  · rw [if_pos hfound]
    obtain ⟨slab, hk, hfirst, hobject⟩ := kmallocSearch_sound size h.cache h.cache [] 0 0 rfl
      (fun h => absurd rfl h) hfound
    exact (hinv.take_cell hk hfirst).aligned (hinv.wf _ slab hk)
      (hp slab (List.mem_of_getElem? hk) (by omega))
  · rw [if_neg hfound]
    rcases hg : kheapCacheGrow h size (decide (1024 ≤ size)) with ⟨_ | k, h'⟩
    · rfl
    · have hret : (kheapCacheGrow h size (decide (1024 ≤ size))).1 = some k := by rw [hg]
      have := take_grown h size _ hret
      rwa [hg] at this

end Aligned

theorem grow_length (h : Kheap) (size : ℕ) (large : Bool) :
    (kheapCacheGrow h size large).2.cache.length ≤ h.cache.length + 1 := by
  simp only [kheapCacheGrow]
  split_ifs <;> simp

theorem shrink_length (h : Kheap) (k : ℕ) :
    (kheapCacheShrink h k).cache.length ≤ h.cache.length := by
  unfold kheapCacheShrink
  split
  · exact le_rfl
  · rw [List.length_take]
    omega

theorem kheapInit_length (mem : Mem) (p : ℕ) (pmm : Bitmap) :
    (kheapInit mem p pmm).1.cache.length ≤ 4 := by
  rw [kheapInit_eq]
  refine (grow_length _ 16 true).trans (Nat.succ_le_succ ((shrink_length _ 1).trans ?_))
  refine (grow_length _ 32 true).trans (Nat.succ_le_succ ((grow_length _ 16 true).trans ?_))
  exact Nat.succ_le_succ (grow_length _ 8 false)

/-- After `kheap_init` there is room for a slab of either kind. -/
theorem kheapInit_room (mem : Mem) {p : ℕ} {pmm : Bitmap}
    (hptr : (kheapInit mem p pmm).1.imallocPtr ≤ HEAP_BASE) :
    ∃ boot, (kheapInit mem p pmm).1 = boot ∧ HeapInv boot [] ∧ boot.cache.length ≠ 256 ∧
      ∀ large, HasRun boot.bitmap (slabPages large) false := by
  obtain ⟨hinv, hbelow⟩ := heapInv_init mem p pmm hptr
  have hlen := kheapInit_length mem p pmm
  refine ⟨_, rfl, hinv, by omega, fun large => ⟨34, hinv.runAt_below hbelow ?_⟩⟩
  have := slabPages_bounds large
  omega

/-- In every run without negative sizes, large blocks start on a page. -/
theorem large_blocks_aligned {mem : Mem} {p : ℕ} {pmm : Bitmap} {evs : List KmallocEvent}
    {s : HeapState} (hrun : NonNegRun mem p pmm evs s) {size : ℤ} (h1 : 1024 ≤ size)
    (h2 : size ≤ (HEAP_LGSLAB_PAGES * PAGE_SIZE : ℕ)) (hret : (kmallocInt s.heap size).1 ≠ 0) :
    4096 ∣ (kmallocInt s.heap size).1 := by
  obtain ⟨hinv, hp⟩ := nonNegRun_inv hrun
  obtain ⟨n, rfl⟩ := Int.eq_ofNat_of_zero_le (show 0 ≤ size by omega)
  have hn : n ≤ HEAP_LGSLAB_PAGES * PAGE_SIZE := by omega
  rw [kmallocInt_natCast s.heap (hn.trans (by decide))]
  exact Nat.dvd_of_mod_eq_zero (kmalloc_aligned hinv hp (by omega) hn)

theorem nonNegRun_kmalloc {mem : Mem} {p : ℕ} {pmm : Bitmap} {evs : List KmallocEvent}
    {s : HeapState} (h : NonNegRun mem p pmm evs s) (size : ℕ) (hsize : size ≤ 2147483647)
    (hg : GrowFindsInt s.heap size) : NonNegRun mem p pmm (evs ++ [.kmalloc size])
      ⟨(kmallocInt s.heap size).2, if (kmallocInt s.heap size).1 = 0 then s.live
        else ((kmallocInt s.heap size).1, sizeT size) :: s.live⟩ :=
  Run.snoc h ⟨⟨by omega, by omega, hg, rfl⟩, Int.natCast_nonneg size⟩

theorem nonNegRun_kfree {mem : Mem} {p : ℕ} {pmm : Bitmap} {evs : List KmallocEvent}
    {s : HeapState} (h : NonNegRun mem p pmm evs s) (addr size : ℕ) (hb : (addr, size) ∈ s.live) :
    NonNegRun mem p pmm (evs ++ [.kfree addr size])
      ⟨kfree s.heap addr size, s.live.erase (addr, size)⟩ :=
  Run.snoc h ⟨⟨hb, rfl⟩, trivial⟩

/-- Two requests that grow the heap, a small one, and the release of the first: a page is then a
cell of a large slab that moved. -/
theorem large_blocks_aligned_purged : ∃ s, NonNegRun (fun _ => 0) (VIRT_BASE + 2097152)
      (pmmInit 16777216 0)
      [.kmalloc 5000, .kmalloc 20000, .kmalloc 100, .kfree 0xC0418000 5000] s ∧
    s.live = [(0xC040E000, 100), (0xC0422000, 20000)] ∧ (kmallocInt s.heap 4096).1 ≠ 0 ∧
    4096 ∣ (kmallocInt s.heap 4096).1 := by
  have hboot : NonNegRun (fun _ => 0) (VIRT_BASE + 2097152) (pmmInit 16777216 0) []
    ⟨bootHeap, []⟩ := Run.nil rfl
  have hfirst := nonNegRun_kmalloc hboot 5000 (by decide) fun _ _ _ _ =>
    ⟨hasRun_of_bits 24 (by decide +kernel) (by decide +kernel), by decide⟩
  have hsecond := nonNegRun_kmalloc hfirst 20000 (by decide) fun _ _ _ _ =>
    ⟨hasRun_of_bits 34 (by decide +kernel) (by decide +kernel), by decide⟩
  have hthird := nonNegRun_kmalloc hsecond 100 (by decide) fun _ _ h0 _ =>
    absurd h0 (by decide +kernel)
  have hrun := nonNegRun_kfree hthird 0xC0418000 5000 (by decide +kernel)
  exact ⟨_, hrun, by decide +kernel, by decide +kernel,
    large_blocks_aligned hrun (by decide) (by decide) (by decide +kernel)⟩

/-! With a negative size among the requests: once every free cell is taken, it makes a small
slab with cells of more than a page. -/

section Search

variable {size : ℕ}

theorem kmallocSearch_zero (hsize : 0 < size) : ∀ (cache : List HeapSlab) (i fit fitIdx : ℕ),
    (kmallocSearch size cache i fit fitIdx).1 = 0 →
      fit = 0 ∧ ∀ slab ∈ cache, size ≤ slab.objectSize → slab.first = 0 := by
  intro cache
  induction cache with
  | nil => exact fun i fit fitIdx h => ⟨h, fun slab hs => absurd hs List.not_mem_nil⟩
  | cons slab cache ih =>
    intro i fit fitIdx h
    unfold kmallocSearch at h
    by_cases hskip : slab.first = 0 ∨ slab.objectSize < size
    · rw [if_pos hskip] at h
      obtain ⟨hfit, hrest⟩ := ih _ _ _ h
      refine ⟨hfit, fun s hs hobject => ?_⟩
      rcases List.mem_cons.1 hs with rfl | hs
      · exact hskip.resolve_right (by omega)
      · exact hrest s hs hobject
    · rw [if_neg hskip] at h
      split_ifs at h with hfit hexact
      · change slab.objectSize = 0 at h
        omega
      · have := (ih _ _ _ h).1
        omega
      · have := (ih _ _ _ h).1
        omega

theorem kmallocSearchInt_empty (size : ℤ) : ∀ (cache rest : List HeapSlab) (i fit fitIdx : ℕ),
    (∀ slab ∈ cache, slab.first = 0) → kmallocSearchInt size (cache ++ rest) i fit fitIdx =
      kmallocSearchInt size rest (i + cache.length) fit fitIdx := by
  intro cache
  induction cache with
  | nil => exact fun _ _ _ _ _ => rfl
  | cons slab cache ih =>
    intro rest i fit fitIdx hempty
    have hfirst : slab.first = 0 := hempty slab List.mem_cons_self
    rw [List.cons_append, kmallocSearchInt, if_pos (Or.inl hfirst),
      ih _ _ _ _ fun s hs => hempty s (List.mem_cons_of_mem _ hs), List.length_cons]
    congr 1
    omega

end Search

/-- The free cells of the heap. -/
def freeCount (h : Kheap) : ℕ := (h.cache.map fun slab => slab.cells - slab.inuse).sum

theorem sum_set_lt {α : Type} {f : α → ℕ} {x y : α} (hlt : f y < f x) :
    ∀ {l : List α} {k : ℕ}, l[k]? = some x → ((l.set k y).map f).sum < (l.map f).sum := by
  intro l
  induction l with
  | nil => exact fun h => by simp at h
  | cons a l ih =>
    intro k hk
    cases k with
    | zero =>
      obtain rfl : a = x := by simpa using hk
      simp [hlt]
    | succ k =>
      have := ih (show l[k]? = some x by simpa using hk)
      simpa using this

theorem freeCount_take {h : Kheap} {live : List (ℕ × ℕ)} (hinv : HeapInv h live) {k : ℕ}
    {slab : HeapSlab} (hk : h.cache[k]? = some slab) (hfirst : slab.first ≠ 0) :
    freeCount (kmallocTake h k).2 < freeCount h := by
  obtain ⟨fl, hfl⟩ := hinv.free k slab hk
  obtain ⟨rest, rfl, -⟩ := hfl.chain.of_ne_zero hfirst
  have hlt := hfl.inuse_lt (hinv.wf k slab hk)
  have hcount := hfl.count
  rw [List.length_cons] at hlt hcount
  simp only [kmallocTake, hk, freeCount]
  apply sum_set_lt _ hk
  simp only [HeapSlab.cells, HeapSlab.bytes, u16] at hcount ⊢
  omega

section Drain

variable {mem : Mem} {p : ℕ} {pmm : Bitmap}

theorem take_one {evs : List KmallocEvent} {s : HeapState} (hrun : KmallocRun mem p pmm evs s)
    (hinv : HeapInv s.heap s.live) (hfound : (kmallocSearch 4 s.heap.cache 0 0 0).1 ≠ 0) :
    ∃ evs' s', KmallocRun mem p pmm evs' s' ∧ HeapInv s'.heap s'.live ∧
      freeCount s'.heap < freeCount s.heap ∧ s'.heap.bitmap = s.heap.bitmap ∧
      s'.heap.cache.length = s.heap.cache.length := by
  obtain ⟨slab, hk, hfirst, -⟩ := kmallocSearch_sound 4 s.heap.cache s.heap.cache [] 0 0 rfl
    (fun h => absurd rfl h) hfound
  rw [List.length_nil] at hk
  have hcell : cellSize 1 = 4 := rfl
  have hone : kmallocInt s.heap (1 : ℕ) = kmalloc s.heap 1 := kmallocInt_natCast s.heap (by decide)
  have hcall : kmalloc s.heap 1 = kmallocTake s.heap (kmallocSearch 4 s.heap.cache 0 0 0).2 := by
    simp [kmalloc, hcell, hfound]
  have hstep : HeapStep s (.kmalloc 1) ⟨(kmalloc s.heap 1).2, if (kmalloc s.heap 1).1 = 0 then
      s.live else ((kmalloc s.heap 1).1, 1) :: s.live⟩ :=
    ⟨le_rfl, by decide, fun _ h => absurd h hfound, rfl⟩
  have hstep' : KmallocStep s (.kmalloc (1 : ℕ)) ⟨(kmalloc s.heap 1).2,
      if (kmalloc s.heap 1).1 = 0 then s.live else ((kmalloc s.heap 1).1, 1) :: s.live⟩ := by
    refine ⟨by decide, by decide, fun _ _ h => absurd ?_ hfound, ?_⟩
    · rwa [cellSizeInt_natCast (by decide), kmallocSearchInt_natCast] at h
    · rw [hone, sizeT_of_nat (by decide)]
  refine ⟨_, _, Run.snoc hrun hstep', heapInv_step _ _ _ hinv hstep, ?_, ?_, ?_⟩
  · rw [hcall]
    exact freeCount_take hinv hk hfirst
  · rw [hcall]
    simp only [kmallocTake, hk]
  · rw [hcall]
    simp only [kmallocTake, hk, List.length_set]

theorem drained (n : ℕ) : ∀ (evs : List KmallocEvent) (s : HeapState), freeCount s.heap < n →
    KmallocRun mem p pmm evs s → HeapInv s.heap s.live →
    ∃ evs' s', KmallocRun mem p pmm evs' s' ∧ (∀ slab ∈ s'.heap.cache, slab.first = 0) ∧
      s'.heap.bitmap = s.heap.bitmap ∧ s'.heap.cache.length = s.heap.cache.length := by
  induction n with
  | zero => exact fun _ s h => absurd h (Nat.not_lt_zero _)
  | succ n ih =>
    intro evs s hn hrun hinv
    by_cases hfound : (kmallocSearch 4 s.heap.cache 0 0 0).1 = 0
    · refine ⟨evs, s, hrun, fun slab hs => ?_, rfl, rfl⟩
      obtain ⟨i, hi⟩ := List.mem_iff_getElem?.1 hs
      exact (kmallocSearch_zero (by norm_num) _ _ _ _ hfound).2 slab hs (hinv.wf i slab hi).link
    · obtain ⟨evs1, s1, hrun1, hinv1, hless, hbitmap, hlen⟩ := take_one hrun hinv hfound
      obtain ⟨evs', s', hrun', hempty, hbitmap', hlen'⟩ := ih evs1 s1 (by omega) hrun1 hinv1
      exact ⟨evs', s', hrun', hempty, hbitmap'.trans hbitmap, hlen'.trans hlen⟩

end Drain

section Negative

variable {h : Kheap} {a : ℕ}

/-- The state after `kmalloc(-60000)` on a heap without free cells: a slab of two cells of
5536 bytes, of which the second is free. -/
theorem kmalloc_negative (hempty : ∀ slab ∈ h.cache, slab.first = 0) (hlen : h.cache.length ≠ 256)
    (hle : a + 4 ≤ 2048) (hscan : (bitmapScanFlip h.bitmap 0 4 false).1 = a) :
    ∃ slab, (kmallocInt h (-60000)).2.cache = h.cache ++ [slab] ∧ slab.objectSize = 5536 ∧
      slab.first = HEAP_BASE + a * 4096 + 5536 := by
  have hcell : cellSizeInt (-60000) = -60000 := by decide
  have hnone := kmallocSearchInt_empty (-60000) h.cache [] 0 0 0 hempty
  rw [List.append_nil] at hnone
  have hgrow : kheapCacheGrow h 4294907296 false = (some h.cache.length,
      { h with mem := slabMem h.mem (slabAt a 5536 false)
               bitmap := (bitmapScanFlip h.bitmap 0 4 false).2
               cache := h.cache ++ [slabAt a 5536 false] }) :=
    kheapCacheGrow_eq 4294907296 hlen hle hscan
  -- the freelist of the new slab: its two cells
  have hroom : a + slabPages false ≤ 2048 := hle
  have hlist := (slabMem_spec h.mem hroom (show 4 ≤ 5536 by norm_num) (by decide)).1
  have hcells : (List.range (slabAt a 5536 false).cells).map
      (fun t => (slabAt a 5536 false).start + t * 5536) =
      [HEAP_BASE + a * 4096, HEAP_BASE + a * 4096 + 5536] := by
    have htwo : (slabAt a 5536 false).cells = 2 := by
      change slabPages false * 4096 / 5536 = 2
      decide
    rw [htwo]
    rfl
  rw [hcells] at hlist
  have hsecond := hlist.2.2.1
  refine ⟨{ slabAt a 5536 false with inuse := 1, first := HEAP_BASE + a * 4096 + 5536 }, ?_, rfl,
    rfl⟩
  have hsizeT : sizeT (-60000) = 4294907296 := by decide
  have hbig : ¬ ((-60000 : ℤ) = 0 ∨ (-60000 : ℤ) > (HEAP_LGSLAB_PAGES * PAGE_SIZE : ℕ)) := by decide
  have hlarge : decide ((1024 : ℤ) ≤ -60000) = false := by decide
  have hnot : ¬ (0 : ℕ) ≠ 0 := by decide
  simp only [kmallocInt, hbig, if_false, hcell, hnone, kmallocSearchInt, hnot, hsizeT, hlarge,
    hgrow, kmallocTake, List.getElem?_concat_length]
  have hnext : load32 (slabMem h.mem (slabAt a 5536 false)) (slabAt a 5536 false).first =
      HEAP_BASE + a * 4096 + 5536 := hsecond
  rw [hnext, List.set_append_right _ _ le_rfl, Nat.sub_self]
  rfl

theorem kmalloc_misaligned {slab : HeapSlab} {cache : List HeapSlab}
    (hempty : ∀ slab ∈ cache, slab.first = 0) (hcache : h.cache = cache ++ [slab])
    (hobject : slab.objectSize = 5536) (hfirst : slab.first = HEAP_BASE + a * 4096 + 5536) :
    (kmallocInt h 4096).1 = HEAP_BASE + a * 4096 + 5536 := by
  have hfound : kmallocSearchInt 4096 h.cache 0 0 0 = (5536, cache.length) := by
    rw [hcache, kmallocSearchInt_empty 4096 cache [slab] 0 0 0 hempty]
    simp [kmallocSearchInt, hobject, hfirst]
  have hcell : cellSizeInt 4096 = 4096 := by decide
  have hbig : ¬ ((4096 : ℤ) = 0 ∨ (4096 : ℤ) > (HEAP_LGSLAB_PAGES * PAGE_SIZE : ℕ)) := by decide
  have hk : h.cache[cache.length]? = some slab := by rw [hcache, List.getElem?_concat_length]
  simp [kmallocInt, hcell, hfound, kmallocTake, hk, hfirst]

end Negative

/-- `kmalloc(1)` until no cell is free, then `kmalloc(-60000)`: the next page lies 1440 bytes
behind a page boundary. -/
theorem large_blocks_misaligned : ¬ ∀ (mem : Mem) (p : ℕ) (pmm : Bitmap)
    (evs : List KmallocEvent) (s : HeapState), KmallocRun mem p pmm evs s → ∀ size : ℤ,
    1024 ≤ size → size ≤ (HEAP_LGSLAB_PAGES * PAGE_SIZE : ℕ) → (kmallocInt s.heap size).1 ≠ 0 →
      4096 ∣ (kmallocInt s.heap size).1 := by
  intro hall
  obtain ⟨boot, hboot, hinv, hlen, hroom⟩ := kheapInit_room (fun _ => 0) (boot_ptr (fun _ => 0)
    (pmmInit 16777216 0))
  obtain ⟨a, hfit, hscan, -⟩ := scanFlip_found boot.bitmap false (by decide)
    (by rw [hinv.size]; norm_num) (hroom false)
  have hle := hfit.run.1
  rw [hinv.size] at hle
  have hstart : KmallocRun (fun _ => 0) _ _ [] ⟨boot, []⟩ := Run.nil (by rw [hboot])
  obtain ⟨evs, s, hrun, hempty, hbitmap, hcount⟩ :=
    drained (freeCount boot + 1) [] ⟨boot, []⟩ (Nat.lt_succ_self _) hstart hinv
  dsimp only at hbitmap hcount
  rw [← hbitmap] at hscan
  obtain ⟨slab, hcache, hobject, hfirst⟩ := kmalloc_negative hempty (by omega) hle hscan
  obtain ⟨s', hstep, hheap⟩ : ∃ s', KmallocStep s (.kmalloc (-60000)) s' ∧
      s'.heap = (kmallocInt s.heap (-60000)).2 := by
    refine ⟨_, ⟨by decide, by decide, fun _ _ _ _ => ⟨⟨a, ?_⟩, by decide⟩, rfl⟩, rfl⟩
    rw [hbitmap]
    exact hfit.run
  rw [← hheap] at hcache
  have hret := kmalloc_misaligned hempty hcache hobject hfirst
  have hdvd := hall _ _ _ _ s' (Run.snoc hrun hstep) 4096 (by decide) (by decide)
    (by rw [hret]; exact Nat.succ_ne_zero _)
  rw [hret] at hdvd
  simp only [HEAP_BASE, VIRT_BASE] at hdvd
  omega

end DepthOS
