import DepthOS.Proofs.HeapSafety

/-! The heap window against boot memory: `kheap_init` marks the pages below
`imalloc_ptr` at their absolute page numbers, which the bitmap ignores, so slabs
are handed out from `HEAP_BASE` on whatever the boot loader and `kimalloc` put
there. -/

namespace DepthOS

open Lib

theorem heapWindow_lt : ceilDiv HEAP_SIZE PAGE_SIZE < 4294967296 := by decide

/-- The heap as `kheap_init` has it before its first slab. -/
def kheapMarked (mem : Mem) (imallocPtr : ℕ) : Kheap :=
  let total := ceilDiv HEAP_SIZE PAGE_SIZE
  let ptr := u32 (imallocPtr + total)
  let bm := (List.range (ceilDiv (ptr - HEAP_BASE) 4096)).foldl
    (fun b i => bitmapMark b ((HEAP_BASE + i * 4096) / 4096)) (bitmapInit total heapWindow_lt)
  ⟨mem, bm, [], ptr⟩

theorem kheapInit_firstSlabs (mem : Mem) (p : ℕ) (pmm : Bitmap) :
    (kheapInit mem p pmm).1 = kheapFirstSlabs (kheapMarked mem p) := by
  simp only [kheapInit, kheapMarked]

/-- The calls that work on the heap, and writes to memory by anyone. -/
inductive HeapCall where
  | grow (size : ℕ) (large : Bool)
  | shrink (k : ℕ)
  | kmalloc (size : ℕ)
  | kfree (addr size : ℕ)
  | write (addr : ℕ) (v : Byte)

def HeapCall.run (h : Kheap) : HeapCall → Kheap
  | .grow size large => (kheapCacheGrow h size large).2
  | .shrink k => kheapCacheShrink h k
  | .kmalloc size => (DepthOS.kmalloc h size).2
  | .kfree addr size => DepthOS.kfree h addr size
  | .write addr v => { h with mem := Function.update h.mem addr v }

/-- Any calls from the heap with its boot pages marked: the five of `kheap_init`
are the first of them. -/
def HeapCalls (mem : Mem) (p : ℕ) : List HeapCall → Kheap → Prop :=
  Run (fun h => h = kheapMarked mem p) fun h c h' => h' = c.run h

/-- The pages of a slab start in the heap window or after it. -/
def InWindow (slab : HeapSlab) : Prop := HEAP_BASE ≤ slab.start ∧ slab.start % 4096 = 0

/-- Every slab starts in the window, and `imalloc_ptr` is still `ptr`. -/
structure Windowed (ptr : ℕ) (h : Kheap) : Prop where
  ptr : h.imallocPtr = ptr
  slabs : ∀ slab ∈ h.cache, InWindow slab

/-- What `P` says of a slab is a matter of its pages and its cell size. -/
def OfGeometry (P : HeapSlab → Prop) : Prop :=
  ∀ slab slab' : HeapSlab, slab'.start = slab.start → slab'.objectSize = slab.objectSize →
    slab'.large = slab.large → P slab → P slab'

/-- What growing makes of a request for `size` bytes on the pages from `page` on. -/
def grownSlab (page size : ℕ) (large : Bool) : HeapSlab :=
  ⟨u32 (HEAP_BASE + u16 page * 4096), u32 (HEAP_BASE + u16 page * 4096), growSize size large, 0,
    large⟩

section AllSlabs

variable {P : HeapSlab → Prop} {h : Kheap}

theorem grow_all (hall : ∀ slab ∈ h.cache, P slab) (size : ℕ) (large : Bool)
    (hnew : ∀ page, P (grownSlab page size large)) :
    ∀ slab ∈ (kheapCacheGrow h size large).2.cache, P slab := by
  simp only [kheapCacheGrow]
  split_ifs
  · exact hall
  · exact hall
  · intro slab hs
    rcases List.mem_append.1 hs with hs | hs
    · exact hall slab hs
    · obtain rfl := List.mem_singleton.1 hs
      exact hnew _

theorem set_all (hP : OfGeometry P) (hall : ∀ slab ∈ h.cache, P slab) {k : ℕ}
    {slab slab' : HeapSlab} (hk : h.cache[k]? = some slab) (hstart : slab'.start = slab.start)
    (hobject : slab'.objectSize = slab.objectSize) (hlarge : slab'.large = slab.large) :
    ∀ s ∈ h.cache.set k slab', P s := by
  intro s hmem
  rcases List.mem_or_eq_of_mem_set hmem with hmem | rfl
  · exact hall s hmem
  · exact hP slab s hstart hobject hlarge (hall slab (List.mem_of_getElem? hk))

theorem shrink_all (hall : ∀ slab ∈ h.cache, P slab) (k : ℕ) :
    ∀ slab ∈ (kheapCacheShrink h k).cache, P slab := by
  unfold kheapCacheShrink
  split
  · exact hall
  · rename_i slab hslab
    intro s hs
    have hs := List.mem_of_mem_take hs
    split_ifs at hs
    · rcases List.mem_or_eq_of_mem_set hs with hs | rfl
      · exact hall s hs
      · rw [List.getD_eq_getElem?_getD]
        rcases hlast : h.cache[h.cache.length - 1]? with _ | last
        · exact hall slab (List.mem_of_getElem? hslab)
        · exact hall last (List.mem_of_getElem? hlast)
    · exact hall s hs

theorem take_all (hP : OfGeometry P) (hall : ∀ slab ∈ h.cache, P slab) (k : ℕ) :
    ∀ slab ∈ (kmallocTake h k).2.cache, P slab := by
  unfold kmallocTake
  split
  · exact hall
  · rename_i slab hslab
    exact set_all hP hall hslab rfl rfl rfl

theorem kmalloc_all (hP : OfGeometry P) (hall : ∀ slab ∈ h.cache, P slab) (size : ℕ)
    (hnew : cellSize size ≤ HEAP_LGSLAB_PAGES * PAGE_SIZE → ∀ page,
      P (grownSlab page (cellSize size) (decide (1024 ≤ cellSize size)))) :
    ∀ slab ∈ (kmalloc h size).2.cache, P slab := by
  unfold kmalloc
  by_cases hbig : size = 0 ∨ size > HEAP_LGSLAB_PAGES * PAGE_SIZE
  · rw [if_pos hbig]
    exact hall
  · rw [if_neg hbig]
    dsimp only
    have hle : cellSize size ≤ HEAP_LGSLAB_PAGES * PAGE_SIZE := cellSize_le (by omega) (by decide)
    set grown := if (kmallocSearch (cellSize size) h.cache 0 0 0).1 ≠ 0 then
      (some (kmallocSearch (cellSize size) h.cache 0 0 0).2, h)
      else kheapCacheGrow h (cellSize size) (decide (1024 ≤ cellSize size)) with hgrown
    have hg : ∀ slab ∈ grown.2.cache, P slab := by
      rw [hgrown]
      split_ifs
      · exact hall
      · exact grow_all hall _ _ (hnew hle)
    clear_value grown
    obtain ⟨r, h'⟩ := grown
    cases r with
    | none => exact hg
    | some k => exact take_all hP hg k

theorem kfree_all (hP : OfGeometry P) (hall : ∀ slab ∈ h.cache, P slab) (addr size : ℕ) :
    ∀ slab ∈ (kfree h addr size).cache, P slab := by
  unfold kfree
  split_ifs
  · exact hall
  · dsimp only
    split
    · exact hall
    · rename_i k _
      split
      · exact hall
      · rename_i slab hslab
        split_ifs
        · exact set_all hP hall hslab rfl rfl rfl
        · apply shrink_all
          exact set_all hP hall hslab rfl rfl rfl
        · exact set_all hP hall hslab rfl rfl rfl

end AllSlabs

section Pointer

variable (h : Kheap)

theorem take_imallocPtr (k : ℕ) : (kmallocTake h k).2.imallocPtr = h.imallocPtr := by
  unfold kmallocTake
  split <;> rfl

theorem kmalloc_imallocPtr (size : ℕ) : (kmalloc h size).2.imallocPtr = h.imallocPtr := by
  unfold kmalloc
  split_ifs
  · rfl
  · dsimp only
    set grown := if (kmallocSearch (cellSize size) h.cache 0 0 0).1 ≠ 0 then
      (some (kmallocSearch (cellSize size) h.cache 0 0 0).2, h)
      else kheapCacheGrow h (cellSize size) (decide (1024 ≤ cellSize size)) with hgrown
    have hg : grown.2.imallocPtr = h.imallocPtr := by
      rw [hgrown]
      split_ifs
      · rfl
      · exact grow_imallocPtr h _ _
    clear_value grown
    obtain ⟨r, h'⟩ := grown
    cases r with
    | none => exact hg
    | some k => exact (take_imallocPtr h' k).trans hg

theorem kfree_imallocPtr (addr size : ℕ) : (kfree h addr size).imallocPtr = h.imallocPtr := by
  unfold kfree
  split_ifs
  · rfl
  · dsimp only
    split
    · rfl
    · split
      · rfl
      · split_ifs
        · rfl
        · exact shrink_imallocPtr _ _
        · rfl

end Pointer

section Windowed

variable {ptr : ℕ} {h : Kheap}

theorem inWindow_geometry : OfGeometry InWindow := by
  intro slab slab' hstart _ _ hw
  simpa only [InWindow, hstart] using hw

/-- The page number is a `uint16_t`, so the address does not wrap. -/
theorem inWindow_grown (page size : ℕ) (large : Bool) : InWindow (grownSlab page size large) := by
  simp only [InWindow, grownSlab, u32, u16, HEAP_BASE, VIRT_BASE]
  omega

theorem windowed_call (hw : Windowed ptr h) (c : HeapCall) : Windowed ptr (c.run h) := by
  cases c with
  | grow size large =>
    exact ⟨(grow_imallocPtr h size large).trans hw.ptr,
      grow_all hw.slabs size large fun page => inWindow_grown page _ _⟩
  | shrink k => exact ⟨(shrink_imallocPtr h k).trans hw.ptr, shrink_all hw.slabs k⟩
  | kmalloc size =>
    exact ⟨(kmalloc_imallocPtr h size).trans hw.ptr,
      kmalloc_all inWindow_geometry hw.slabs size fun _ page => inWindow_grown page _ _⟩
  | kfree addr size =>
    exact ⟨(kfree_imallocPtr h addr size).trans hw.ptr,
      kfree_all inWindow_geometry hw.slabs addr size⟩
  | write addr v => exact ⟨hw.ptr, hw.slabs⟩

end Windowed

theorem mark_outside (bm : Bitmap) {i : ℕ} (h : bm.size ≤ i) : bitmapMark bm i = bm := by
  unfold bitmapMark bitmapInBounds
  rw [decide_eq_false (by omega)]
  rfl

theorem foldl_mark_outside (bm : Bitmap) (hsize : bm.size = 2048) (n : ℕ) :
    (List.range n).foldl (fun b i => bitmapMark b ((HEAP_BASE + i * 4096) / 4096)) bm = bm := by
  induction n with
  | zero => rfl
  | succ n ih =>
    rw [List.range_succ, List.foldl_append, ih]
    refine mark_outside bm ?_
    rw [hsize]
    simp only [HEAP_BASE, VIRT_BASE]
    omega

theorem heapWindow_pages : ceilDiv HEAP_SIZE PAGE_SIZE = 2048 := by decide

theorem kheapMarked_eq (mem : Mem) (p : ℕ) : kheapMarked mem p =
    ⟨mem, bitmapInit (ceilDiv HEAP_SIZE PAGE_SIZE) heapWindow_lt, [],
      u32 (p + ceilDiv HEAP_SIZE PAGE_SIZE)⟩ := by
  simp only [kheapMarked]
  rw [foldl_mark_outside _ heapWindow_pages]

theorem kheapMarked_ptr (mem : Mem) {p : ℕ} (hp : p ≤ HEAP_BASE + HEAP_SIZE) :
    (kheapMarked mem p).imallocPtr = p + 2048 := by
  change u32 (p + ceilDiv HEAP_SIZE PAGE_SIZE) = p + 2048
  rw [heapWindow_pages]
  apply u32_of_lt
  simp only [HEAP_BASE, VIRT_BASE, HEAP_SIZE] at hp
  omega

theorem heapInv_marked (mem : Mem) (p : ℕ) : HeapInv (kheapMarked mem p) [] := by
  rw [kheapMarked_eq]
  exact heapInv_empty mem _ _

theorem first_slab (mem : Mem) (p : ℕ) :
    ∃ slab, (kheapCacheGrow (kheapMarked mem p) 8 false).2.cache = [slab] ∧
      slab.start = HEAP_BASE ∧ IsCell slab HEAP_BASE := by
  have hc : (kheapMarked mem p).cache = [] := rfl
  have hb : Below (kheapMarked mem p) 0 := fun i s hi => by simp [hc] at hi
  obtain ⟨hinv, hbelow, hlen, -⟩ := boot_grow 8 false (heapInv_marked mem p) hb (by decide)
    (by simp [hc]) (by decide) (by decide)
  rw [hc] at hlen
  obtain ⟨slab, hslab⟩ := List.length_eq_one_iff.1 hlen
  have h0 : (kheapCacheGrow (kheapMarked mem p) 8 false).2.cache[0]? = some slab := by simp [hslab]
  have hpage := hbelow 0 slab h0
  have hwf := hinv.wf 0 slab h0
  have hzero : slab.page = 0 := by
    have hpages := slabPages_bounds slab.large
    have hfour : slabPages false = 4 := rfl
    omega
  have hstart : slab.start = HEAP_BASE := by rw [hwf.base, hzero]
  have hlink := hwf.link
  refine ⟨slab, hslab, hstart, 0, Nat.div_pos hwf.object (by omega), ?_⟩
  rw [hstart, Nat.zero_mul, Nat.add_zero]

theorem grow_head {h : Kheap} {slab : HeapSlab} (h0 : h.cache[0]? = some slab) (size : ℕ)
    (large : Bool) : (kheapCacheGrow h size large).2.cache[0]? = some slab := by
  simp only [kheapCacheGrow]
  split_ifs
  · exact h0
  · exact h0
  · rw [List.getElem?_append_left (List.getElem?_eq_some_iff.1 h0).1]
    exact h0

theorem shrink_head {h : Kheap} {slab : HeapSlab} (h0 : h.cache[0]? = some slab) {k : ℕ}
    (hk : k ≠ 0) : (kheapCacheShrink h k).cache[0]? = some slab := by
  unfold kheapCacheShrink
  rcases hs : h.cache[k]? with _ | s
  · exact h0
  · have hlt := (List.getElem?_eq_some_iff.1 hs).1
    dsimp only
    rw [List.getElem?_take_of_lt (by omega)]
    split_ifs
    · rw [List.getElem?_set_ne hk]
      exact h0
    · exact h0

/-- The slab that `kheap_init` purges is the second one. -/
theorem purged_slab (mem : Mem) (p : ℕ) :
    (kheapCacheGrow (kheapCacheGrow (kheapMarked mem p) 8 false).2 16 true).1 = some 1 := by
  have hc : (kheapMarked mem p).cache = [] := rfl
  have hb : Below (kheapMarked mem p) 0 := fun i s hi => by simp [hc] at hi
  obtain ⟨h1, hb1, hl1, -⟩ := boot_grow 8 false (heapInv_marked mem p) hb (by decide)
    (by simp [hc]) (by decide) (by decide)
  rw [hc] at hl1
  obtain ⟨-, -, -, hret⟩ := boot_grow 16 true h1 hb1 (by decide) (by simp [hl1]) (by decide)
    (by decide)
  rw [hret, hl1]
  rfl

theorem kheapFirstSlabs_eq (h : Kheap)
    (hret : (kheapCacheGrow (kheapCacheGrow h 8 false).2 16 true).1 = some 1) :
    kheapFirstSlabs h = (kheapCacheGrow (kheapCacheShrink (kheapCacheGrow
      (kheapCacheGrow (kheapCacheGrow h 8 false).2 16 true).2 32 true).2 1) 16 true).2 := by
  simp only [kheapFirstSlabs, hret]

/-- What `kheap_init` leaves: three slabs, the second one made again. -/
theorem kheapInit_eq (mem : Mem) (p : ℕ) (pmm : Bitmap) :
    (kheapInit mem p pmm).1 = (kheapCacheGrow (kheapCacheShrink (kheapCacheGrow
      (kheapCacheGrow (kheapCacheGrow (kheapMarked mem p) 8 false).2 16 true).2 32 true).2
        1) 16 true).2 :=
  (kheapInit_firstSlabs mem p pmm).trans (kheapFirstSlabs_eq _ (purged_slab mem p))

theorem heapCalls_grow {mem : Mem} {p : ℕ} {calls : List HeapCall} {h : Kheap}
    (hrun : HeapCalls mem p calls h) (size : ℕ) (large : Bool) :
    HeapCalls mem p (calls ++ [.grow size large]) (kheapCacheGrow h size large).2 :=
  Run.snoc hrun rfl

theorem heapCalls_shrink {mem : Mem} {p : ℕ} {calls : List HeapCall} {h : Kheap}
    (hrun : HeapCalls mem p calls h) (k : ℕ) :
    HeapCalls mem p (calls ++ [.shrink k]) (kheapCacheShrink h k) :=
  Run.snoc hrun rfl

theorem heapCalls_init (mem : Mem) (p : ℕ) (pmm : Bitmap) :
    HeapCalls mem p [.grow 8 false, .grow 16 true, .grow 32 true, .shrink 1, .grow 16 true]
      (kheapInit mem p pmm).1 := by
  rw [kheapInit_eq]
  have h0 : HeapCalls mem p [] (kheapMarked mem p) := Run.nil rfl
  have h1 := heapCalls_grow h0 8 false
  have h2 := heapCalls_grow h1 16 true
  have h3 := heapCalls_grow h2 32 true
  exact heapCalls_grow (heapCalls_shrink h3 1) 16 true

/-- The slab at the base of the window is still there after `kheap_init`. -/
theorem kheapInit_head (mem : Mem) (p : ℕ) (pmm : Bitmap) :
    ∃ slab ∈ (kheapInit mem p pmm).1.cache, slab.start = HEAP_BASE ∧ IsCell slab HEAP_BASE := by
  obtain ⟨slab, hslab, hstart, hcell⟩ := first_slab mem p
  have h1 : (kheapCacheGrow (kheapMarked mem p) 8 false).2.cache[0]? = some slab := by simp [hslab]
  have h3 := grow_head (grow_head h1 16 true) 32 true
  have h5 := grow_head (shrink_head h3 Nat.one_ne_zero) 16 true
  rw [← kheapInit_eq mem p pmm] at h5
  exact ⟨slab, List.mem_of_getElem? h5, hstart, hcell⟩

/-- No page of a slab lies below the page of `imalloc_ptr`, and no cell below it. -/
def ClearOfBoot (h : Kheap) : Prop :=
  ∀ slab ∈ h.cache, h.imallocPtr / 4096 ≤ slab.start / 4096 ∧
    ∀ a, IsCell slab a → h.imallocPtr ≤ a

theorem Windowed.clear {ptr : ℕ} {h : Kheap} (hw : Windowed ptr h) (hptr : ptr ≤ HEAP_BASE) :
    ClearOfBoot h := by
  intro slab hs
  have hstart := (hw.slabs slab hs).1
  have hle : h.imallocPtr ≤ slab.start := by rw [hw.ptr]; exact hptr.trans hstart
  exact ⟨Nat.div_le_div_right hle, fun a ha => hle.trans ha.bounds.1⟩

theorem windowed_marked (mem : Mem) (p : ℕ) :
    Windowed (kheapMarked mem p).imallocPtr (kheapMarked mem p) :=
  ⟨rfl, fun _ hs => absurd hs List.not_mem_nil⟩

theorem windowed_calls {mem : Mem} {p : ℕ} {calls : List HeapCall} {h : Kheap}
    (hrun : HeapCalls mem p calls h) : Windowed (kheapMarked mem p).imallocPtr h := by
  refine Run.invariant (Windowed (kheapMarked mem p).imallocPtr) ?_ ?_ hrun
  · rintro h rfl
    exact windowed_marked mem p
  · rintro h c h' hw rfl
    exact windowed_call hw c

theorem heapStep_call {s s' : HeapState} {e : HeapEvent} (h : HeapStep s e s') :
    ∃ c : HeapCall, s'.heap = c.run s.heap := by
  cases e with
  | kmalloc size =>
    obtain ⟨-, -, -, rfl⟩ := h
    exact ⟨.kmalloc size, rfl⟩
  | kfree addr size =>
    obtain ⟨-, rfl⟩ := h
    exact ⟨.kfree addr size, rfl⟩
  | write addr v =>
    obtain ⟨-, rfl⟩ := h
    exact ⟨.write addr v, rfl⟩

/-- The runs of the allocator after one boot. -/
def HeapRunFrom (mem : Mem) (p : ℕ) (pmm : Bitmap) : List HeapEvent → HeapState → Prop :=
  Run (fun s => s = ⟨(kheapInit mem p pmm).1, []⟩) HeapStep

theorem heapRunFrom_inv {mem : Mem} {p : ℕ} {pmm : Bitmap} {evs : List HeapEvent} {s : HeapState}
    (hrun : HeapRunFrom mem p pmm evs s) :
    HeapInv s.heap s.live ∧ Windowed (kheapMarked mem p).imallocPtr s.heap := by
  refine Run.invariant (fun s => HeapInv s.heap s.live ∧
    Windowed (kheapMarked mem p).imallocPtr s.heap) ?_ ?_ hrun
  · rintro s rfl
    have hw := windowed_calls (heapCalls_init mem p pmm)
    have hinv := (heapInv_firstSlabs (heapInv_marked mem p) rfl).1
    rw [← kheapInit_firstSlabs mem p pmm] at hinv
    dsimp only
    exact ⟨hinv, hw⟩
  · rintro s e s' ⟨hinv, hw⟩ hstep
    obtain ⟨c, hc⟩ := heapStep_call hstep
    exact ⟨heapInv_step s e s' hinv hstep, hc ▸ windowed_call hw c⟩

/-- Heap and boot memory stay apart, in every state that calls on the heap lead to and for
every block that is handed out, exactly when `imalloc_ptr` has not gone past `HEAP_BASE` once
the heap's own bitmap is placed. -/
theorem heap_clear_of_boot_iff (mem : Mem) (p : ℕ) (pmm : Bitmap)
    (hp : p ≤ HEAP_BASE + HEAP_SIZE) :
    ((∀ calls h, HeapCalls mem p calls h → ClearOfBoot h) ∧
      ∀ evs s, HeapRunFrom mem p pmm evs s → ∀ b ∈ s.live, s.heap.imallocPtr ≤ b.1) ↔
    p + ceilDiv HEAP_SIZE PAGE_SIZE ≤ HEAP_BASE := by
  rw [heapWindow_pages, ← kheapMarked_ptr mem hp]
  constructor
  · rintro ⟨hclear, -⟩
    have hrun := heapCalls_init mem p pmm
    obtain ⟨slab, hs, -, hcell⟩ := kheapInit_head mem p pmm
    have := (hclear _ _ hrun slab hs).2 _ hcell
    rwa [(windowed_calls hrun).ptr] at this
  · intro hptr
    refine ⟨fun calls h hrun => (windowed_calls hrun).clear hptr, fun evs s hrun b hb => ?_⟩
    obtain ⟨hinv, hw⟩ := heapRunFrom_inv hrun
    obtain ⟨-, i, slab, hi, hcell, -⟩ := hinv.owned b hb
    exact (hw.clear hptr slab (List.mem_of_getElem? hi)).2 _ hcell

/-- A kernel that ends at 2 MiB, with no module after it. -/
theorem heap_clear_of_boot_small : VIRT_BASE + 2097152 + 2048 ≤ HEAP_BASE ∧ ∀ calls h,
    HeapCalls (fun _ => 0) (VIRT_BASE + 2097152) calls h → ClearOfBoot h :=
  ⟨by decide, ((heap_clear_of_boot_iff (fun _ => 0) (VIRT_BASE + 2097152) (pmmInit 16777216 0)
    (by decide)).2 (by decide)).1⟩

/-- A ramdisk that ends 1 MiB into the window: the first slab lies on top of it. -/
theorem heap_over_ramdisk : ¬ ∀ calls h,
    HeapCalls (fun _ => 0) (HEAP_BASE + 1048576) calls h → ClearOfBoot h := by
  intro hclear
  have hrun := heapCalls_init (fun _ => 0) (HEAP_BASE + 1048576) (pmmInit 16777216 0)
  obtain ⟨slab, hs, hstart, -⟩ :=
    kheapInit_head (fun _ => 0) (HEAP_BASE + 1048576) (pmmInit 16777216 0)
  have := (hclear _ _ hrun slab hs).1
  rw [(windowed_calls hrun).ptr, kheapMarked_ptr _ (by decide), hstart] at this
  exact absurd this (by decide)

end DepthOS
