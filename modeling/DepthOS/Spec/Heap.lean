import DepthOS.Lib.Chain
import DepthOS.Spec.Pmm

/-! `mm/heap.c`: the kernel slab allocator. The freelist of a slab is threaded
through its free cells, so it lives in byte memory next to the data of the
callers; `heap_cache[0..heap_cache_size)` is a list and a slab pointer its
index there. Sizes are non-negative `int`s, except where the name says `Int`. -/

namespace DepthOS

open Lib

abbrev HEAP_SLAB_PAGES : ℕ := 4
abbrev HEAP_LGSLAB_PAGES : ℕ := 10
abbrev HEAP_BASE : ℕ := VIRT_BASE + 1 * 1024 * 4096
abbrev HEAP_SIZE : ℕ := 2 * 1024 * 4096

/-- `sizeof(heap_slab_freelist_t)` -/
abbrev FREELIST_SIZE : ℕ := 4

structure HeapSlab where
  start : ℕ
  first : ℕ
  objectSize : ℕ
  inuse : ℕ
  large : Bool

structure Kheap where
  mem : Mem
  bitmap : Bitmap
  cache : List HeapSlab
  imallocPtr : ℕ

/-- Pages of a slab, by its `large` flag. -/
def slabPages (large : Bool) : ℕ := if !large then HEAP_SLAB_PAGES else HEAP_LGSLAB_PAGES

def HeapSlab.bytes (slab : HeapSlab) : ℕ := slabPages slab.large * 4096

/-- Index of the slab's first page in `kheap_bitmap`. -/
def HeapSlab.page (slab : HeapSlab) : ℕ := sub32 slab.start HEAP_BASE / 4096

def slabHasAddr (slab : HeapSlab) (addr : ℕ) : Bool :=
  decide (slab.start ≤ addr ∧ addr < slab.start + slab.bytes)

/-- The loop of `kheap_cache_grow` that links cell `i - 1` (`current`) to cell
`i`, with `k` cells left, and terminates the list after the last. -/
def freelistLoop (start size : ℕ) : Mem → ℕ → ℕ → ℕ → Mem
  | m, current, _, 0 => store32 m current 0
  | m, current, i, k + 1 =>
    freelistLoop start size (store32 m current (u32 (start + i * size))) (u32 (start + i * size))
      (i + 1) k

/-- The object size of a new slab: the `uint16_t` parameter, rounded to pages for
a large one. -/
def growSize (size : ℕ) (large : Bool) : ℕ :=
  if large then u16 (pgRndUp (u16 size)) else u16 size

def kheapCacheGrow (h : Kheap) (size : ℕ) (large : Bool) : Option ℕ × Kheap :=
  if h.cache.length = 256 then (none, h)
  else
    let r := bitmapScanFlip h.bitmap 0 (slabPages large) false
    if r.1 < 0 then (none, { h with bitmap := r.2 })
    else
      let start := u32 (HEAP_BASE + u16 (sizeT r.1) * 4096)
      let size := growSize size large
      let slab : HeapSlab := ⟨start, start, size, 0, large⟩
      (some h.cache.length,
        { h with mem := freelistLoop start size h.mem start 1 (slab.bytes / size - 1)
                 bitmap := r.2
                 cache := h.cache ++ [slab] })

/-- The slab at index `k` gives back its pages and its place in the cache is
taken by the last slab. -/
def kheapCacheShrink (h : Kheap) (k : ℕ) : Kheap :=
  match h.cache[k]? with
  | none => h
  | some slab =>
    let n := h.cache.length - 1
    let cache := if k ≠ n then h.cache.set k (h.cache.getD n slab) else h.cache
    { h with bitmap := bitmapSetmulti h.bitmap false slab.page (slabPages slab.large)
             cache := cache.take n }

/-- Best fit: the smallest object size that is large enough, among slabs with a
free cell, an exact match ending the search. `fitIdx` is not read while `fit`
is 0. -/
def kmallocSearch (size : ℕ) : List HeapSlab → ℕ → ℕ → ℕ → ℕ × ℕ
  | [], _, fit, fitIdx => (fit, fitIdx)
  | slab :: rest, i, fit, fitIdx =>
    if slab.first = 0 ∨ slab.objectSize < size then kmallocSearch size rest (i + 1) fit fitIdx
    else if fit = 0 ∨ slab.objectSize < fit then
      if slab.objectSize = size then (slab.objectSize, i)
      else kmallocSearch size rest (i + 1) slab.objectSize i
    else kmallocSearch size rest (i + 1) fit fitIdx

/-- The tail of `kmalloc`: unlink the first free cell of slab `k`. -/
def kmallocTake (h : Kheap) (k : ℕ) : ℕ × Kheap :=
  match h.cache[k]? with
  | none => (0, h)
  | some slab =>
    let slab' := { slab with inuse := u16 (slab.inuse + 1), first := load32 h.mem slab.first }
    (slab.first, { h with cache := h.cache.set k slab' })

/-- The size after the minimum both `kmalloc` and `kfree` apply. -/
def cellSize (size : ℕ) : ℕ := if size < FREELIST_SIZE then FREELIST_SIZE else size

def kmalloc (h : Kheap) (size : ℕ) : ℕ × Kheap :=
  if size = 0 ∨ size > HEAP_LGSLAB_PAGES * PAGE_SIZE then (0, h)
  else
    let size := cellSize size
    let found := kmallocSearch size h.cache 0 0 0
    let grown := if found.1 ≠ 0 then (some found.2, h)
      else kheapCacheGrow h size (decide (1024 ≤ size))
    match grown with
    | (none, h') => (0, h')
    | (some k, h') => kmallocTake h' k

def kfree (h : Kheap) (addr size : ℕ) : Kheap :=
  if size = 0 then h
  else
    let size := cellSize size
    match h.cache.findIdx? (fun slab => decide (size ≤ slab.objectSize) && slabHasAddr slab addr) with
    | none => h
    | some k =>
      match h.cache[k]? with
      | none => h
      | some old =>
        let slab := { old with inuse := u16 (old.inuse + 65535) }
        if slab.first = 0 then
          { h with mem := store32 h.mem addr 0
                   cache := h.cache.set k { slab with first := addr } }
        else if slab.inuse = 0 then
          kheapCacheShrink { h with cache := h.cache.set k slab } k
        else
          { h with mem := store32 h.mem addr slab.first
                   cache := h.cache.set k { slab with first := addr } }

/-- The slabs `kheap_init` makes: the second is purged and made again. -/
def kheapFirstSlabs (h : Kheap) : Kheap :=
  let h := (kheapCacheGrow h 8 false).2
  let r := kheapCacheGrow h 16 true
  let h := (kheapCacheGrow r.2 32 true).2
  let h := match r.1 with
    | some k => kheapCacheShrink h k
    | none => h
  (kheapCacheGrow h 16 true).2

/-- `kheap_init` from `imalloc_ptr`: the bitmap takes `total_page_count` bytes of
boot memory, the heap frames are reserved in `pmm`, pages below `imalloc_ptr`
are marked (at the index the code uses), and the first slabs are made. -/
def kheapInit (mem : Mem) (imallocPtr : ℕ) (pmm : Bitmap) : Kheap × Bitmap :=
  let total := ceilDiv HEAP_SIZE PAGE_SIZE
  let ptr := u32 (imallocPtr + total)
  let bm := (List.range (ceilDiv (ptr - HEAP_BASE) 4096)).foldl
    (fun b i => bitmapMark b ((HEAP_BASE + i * 4096) / 4096)) (bitmapInit total (by decide))
  (kheapFirstSlabs ⟨mem, bm, [], ptr⟩, pmmSet pmm (addrToPhys HEAP_BASE) total false)

inductive HeapEvent where
  | kmalloc (size : ℕ)
  | kfree (addr size : ℕ)
  /-- the owner of a live block writes one of its bytes -/
  | write (addr : ℕ) (v : Byte)

structure HeapState where
  heap : Kheap
  /-- blocks handed out and not freed: address and requested size -/
  live : List (ℕ × ℕ)

/-- If the call has to grow the cache, the page bitmap has a free run. -/
def GrowFinds (h : Kheap) (size : ℕ) : Prop :=
  size ≤ HEAP_LGSLAB_PAGES * PAGE_SIZE → (kmallocSearch (cellSize size) h.cache 0 0 0).1 = 0 →
    h.cache.length ≠ 256 → HasRun h.bitmap (slabPages (decide (1024 ≤ cellSize size))) false

def HeapStep (s : HeapState) (e : HeapEvent) (s' : HeapState) : Prop :=
  match e with
  | .kmalloc size =>
    1 ≤ size ∧ size ≤ 2147483647 ∧ GrowFinds s.heap size ∧
    s' = ⟨(kmalloc s.heap size).2,
      if (kmalloc s.heap size).1 = 0 then s.live else ((kmalloc s.heap size).1, size) :: s.live⟩
  | .kfree addr size =>
    (addr, size) ∈ s.live ∧ s' = ⟨kfree s.heap addr size, s.live.erase (addr, size)⟩
  | .write addr v =>
    (∃ b ∈ s.live, b.1 ≤ addr ∧ addr < b.1 + b.2) ∧
    s' = ⟨{ s.heap with mem := Function.update s.heap.mem addr v }, s.live⟩

/-- The states `kheap_init` leaves, whatever memory held before, with
`imalloc_ptr` not above `HEAP_BASE`. -/
def HeapBoot (s : HeapState) : Prop :=
  ∃ mem ptr pmm, (kheapInit mem ptr pmm).1.imallocPtr ≤ HEAP_BASE ∧
    s = ⟨(kheapInit mem ptr pmm).1, []⟩

def HeapRun : List HeapEvent → HeapState → Prop := Run HeapBoot HeapStep

/-! `kmalloc` over the whole of its parameter type. A size below 0 is neither 0 nor too
large, so it gets past the first test. -/

def kmallocSearchInt (size : ℤ) : List HeapSlab → ℕ → ℕ → ℕ → ℕ × ℕ
  | [], _, fit, fitIdx => (fit, fitIdx)
  | slab :: rest, i, fit, fitIdx =>
    if slab.first = 0 ∨ slab.objectSize < size then kmallocSearchInt size rest (i + 1) fit fitIdx
    else if fit = 0 ∨ slab.objectSize < fit then
      if slab.objectSize = size then (slab.objectSize, i)
      else kmallocSearchInt size rest (i + 1) slab.objectSize i
    else kmallocSearchInt size rest (i + 1) fit fitIdx

/-- `sizeof` is unsigned, so the minimum is not applied below 0. -/
def cellSizeInt (size : ℤ) : ℤ := if sizeT size < FREELIST_SIZE then FREELIST_SIZE else size

def kmallocInt (h : Kheap) (size : ℤ) : ℕ × Kheap :=
  if size = 0 ∨ size > (HEAP_LGSLAB_PAGES * PAGE_SIZE : ℕ) then (0, h)
  else
    let size := cellSizeInt size
    let found := kmallocSearchInt size h.cache 0 0 0
    let grown := if found.1 ≠ 0 then (some found.2, h)
      else kheapCacheGrow h (sizeT size) (decide (1024 ≤ size))
    match grown with
    | (none, h') => (0, h')
    | (some k, h') => kmallocTake h' k

/-- `GrowFinds` for any `int`; a growth by cells of 0 bytes divides by 0. -/
def GrowFindsInt (h : Kheap) (size : ℤ) : Prop :=
  size ≠ 0 → size ≤ (HEAP_LGSLAB_PAGES * PAGE_SIZE : ℕ) →
    (kmallocSearchInt (cellSizeInt size) h.cache 0 0 0).1 = 0 → h.cache.length ≠ 256 →
      HasRun h.bitmap (slabPages (decide (1024 ≤ cellSizeInt size))) false ∧
      u16 (sizeT (cellSizeInt size)) ≠ 0

inductive KmallocEvent where
  | kmalloc (size : ℤ)
  | kfree (addr size : ℕ)
  | write (addr : ℕ) (v : Byte)

/-- The size of a live block is the `size_t` that its `kfree` is given; one of a negative
size has no bytes to write. -/
def KmallocStep (s : HeapState) (e : KmallocEvent) (s' : HeapState) : Prop :=
  match e with
  | .kmalloc size =>
    -2147483648 ≤ size ∧ size ≤ 2147483647 ∧ GrowFindsInt s.heap size ∧
    s' = ⟨(kmallocInt s.heap size).2, if (kmallocInt s.heap size).1 = 0 then s.live
      else ((kmallocInt s.heap size).1, sizeT size) :: s.live⟩
  | .kfree addr size =>
    (addr, size) ∈ s.live ∧ s' = ⟨kfree s.heap addr size, s.live.erase (addr, size)⟩
  | .write addr v =>
    (∃ b ∈ s.live, b.2 ≤ 2147483647 ∧ b.1 ≤ addr ∧ addr < b.1 + b.2) ∧
    s' = ⟨{ s.heap with mem := Function.update s.heap.mem addr v }, s.live⟩

/-- Runs of `kmalloc` and `kfree` from what `kheap_init` leaves. -/
def KmallocRun (mem : Mem) (imallocPtr : ℕ) (pmm : Bitmap) : List KmallocEvent → HeapState → Prop :=
  Run (fun s => s = ⟨(kheapInit mem imallocPtr pmm).1, []⟩) KmallocStep

end DepthOS
