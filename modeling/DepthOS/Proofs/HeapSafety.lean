import DepthOS.Proofs.HeapCalls

/-! The kernel heap over whole runs of `kmalloc` and `kfree`, with the owners
writing to their blocks in between: no two callers ever share a byte, and no
freelist runs through memory that somebody holds. -/

namespace DepthOS

open Lib

theorem heapInv_write {h : Kheap} {live : List (ℕ × ℕ)} (hinv : HeapInv h live) {b : ℕ × ℕ}
    (hb : b ∈ live) {addr : ℕ} (h1 : b.1 ≤ addr) (h2 : addr < b.1 + b.2) (v : Byte) :
    HeapInv { h with mem := Function.update h.mem addr v } live := by
  obtain ⟨-, k, slab, hk, hcell, hsz⟩ := hinv.owned b hb
  refine ⟨hinv.size, hinv.wf, hinv.apart, hinv.marked, ?_, hinv.owned, hinv.distinct⟩
  intro i s hi
  obtain ⟨fl, hfl⟩ := hinv.free i s hi
  refine ⟨fl, hfl.frame (fun a ha => hinv.load_other hi hk hcell hfl ha ?_ ?_) hfl.idle rfl⟩
  · rintro rfl
    exact hfl.idle b hb ha
  · intro x hx
    exact Function.update_of_ne (by omega) _ _

/-- All pages in use lie below `P`. -/
def Below (h : Kheap) (P : ℕ) : Prop :=
  ∀ (i : ℕ) s, h.cache[i]? = some s → s.page + slabPages s.large ≤ P

theorem HeapInv.runAt_below {h : Kheap} {live : List (ℕ × ℕ)} (hinv : HeapInv h live) {P n : ℕ}
    (hP : Below h P) (hn : P + n ≤ 2048) : RunAt h.bitmap n false P := by
  refine ⟨by rw [hinv.size]; exact hn, fun j h1 h2 => ?_⟩
  cases hb : h.bitmap.bit j
  · rfl
  · obtain ⟨i, s, hi, -, hs⟩ := (hinv.marked j (by omega)).1 hb
    have := hP i s hi
    omega

theorem boot_grow (size : ℕ) (large : Bool) {h : Kheap} (hinv : HeapInv h []) {P : ℕ}
    (hP : Below h P) (hroom : P + slabPages large ≤ 2048) (hlen : h.cache.length ≠ 256)
    (hlink : 4 ≤ growSize size large) (hfit : growSize size large ≤ slabPages large * 4096) :
    HeapInv (kheapCacheGrow h size large).2 [] ∧
    Below (kheapCacheGrow h size large).2 (P + slabPages large) ∧
    (kheapCacheGrow h size large).2.cache.length = h.cache.length + 1 ∧
    (kheapCacheGrow h size large).1 = some h.cache.length := by
  have hrun := hinv.runAt_below hP hroom
  obtain ⟨a, slab, hff, hpage, hlarge, -, -, hret, hcache, hinv'⟩ :=
    heapInv_grow hinv hlen ⟨P, hrun⟩ rfl hlink hfit
  have ha : a ≤ P := by
    by_contra hlt
    exact hff.least P (by omega) hrun
  refine ⟨hinv', ?_, by rw [hcache]; simp, hret⟩
  intro i s hi
  rw [hcache] at hi
  rcases Nat.lt_or_ge i h.cache.length with hlt | hge
  · rw [List.getElem?_append_left hlt] at hi
    have := hP i s hi
    omega
  · obtain ⟨-, rfl⟩ : i = h.cache.length ∧ slab = s := by
      rw [List.getElem?_append_right hge, List.getElem?_singleton] at hi
      split_ifs at hi with h0
      · exact ⟨by omega, Option.some.inj hi⟩
    rw [hpage, hlarge]
    omega

theorem grow_imallocPtr (h : Kheap) (size : ℕ) (large : Bool) :
    (kheapCacheGrow h size large).2.imallocPtr = h.imallocPtr := by
  simp only [kheapCacheGrow]
  split_ifs <;> rfl

theorem shrink_imallocPtr (h : Kheap) (k : ℕ) :
    (kheapCacheShrink h k).imallocPtr = h.imallocPtr := by
  unfold kheapCacheShrink
  split <;> rfl

theorem firstSlabs_imallocPtr (h : Kheap) : (kheapFirstSlabs h).imallocPtr = h.imallocPtr := by
  simp only [kheapFirstSlabs]
  split <;> simp only [grow_imallocPtr, shrink_imallocPtr]

theorem heapInv_firstSlabs {k0 : Kheap} (h0 : HeapInv k0 []) (hc : k0.cache = []) :
    HeapInv (kheapFirstSlabs k0) [] ∧ Below (kheapFirstSlabs k0) 34 := by
  have hb0 : Below k0 0 := fun i s hi => by simp [hc] at hi
  obtain ⟨h1, hb1, hl1, -⟩ := boot_grow 8 false h0 hb0 (by decide) (by simp [hc]) (by decide)
    (by decide)
  rw [hc, List.length_nil, Nat.zero_add] at hl1
  obtain ⟨h2, hb2, hl2, hret⟩ := boot_grow 16 true h1 hb1 (by decide) (by omega) (by decide)
    (by decide)
  rw [hl1] at hl2 hret
  obtain ⟨h3, hb3, hl3, -⟩ := boot_grow 32 true h2 hb2 (by decide) (by omega) (by decide)
    (by decide)
  rw [hl2] at hl3
  simp only [kheapFirstSlabs, hret]
  set k3 := (kheapCacheGrow (kheapCacheGrow (kheapCacheGrow k0 8 false).2 16 true).2 32 true).2
  obtain ⟨slab, hslab⟩ : ∃ slab, k3.cache[1]? = some slab :=
    ⟨_, List.getElem?_eq_getElem (by omega)⟩
  have h4 : HeapInv (kheapCacheShrink k3 1) [] :=
    heapInv_shrink h3 hslab (by simp) (by simp) (by simp) (by simp)
  have hb4 : Below (kheapCacheShrink k3 1) _ := fun i s hi => hb3 _ s (shrink_lookup hslab hi).1
  have hl4 : (kheapCacheShrink k3 1).cache.length ≤ 3 := by
    simp only [kheapCacheShrink, hslab, List.length_take]
    omega
  obtain ⟨h5, hb5, -⟩ := boot_grow 16 true h4 hb4 (by decide) (by omega) (by decide) (by decide)
  exact ⟨h5, hb5⟩

theorem heapInv_empty (mem : Mem) (ptr : ℕ) (h : ceilDiv HEAP_SIZE PAGE_SIZE < 4294967296) :
    HeapInv ⟨mem, bitmapInit (ceilDiv HEAP_SIZE PAGE_SIZE) h, [], ptr⟩ [] := by
  refine ⟨?_, by simp, by simp, ?_, by simp, by simp, by simp⟩
  · change ceilDiv HEAP_SIZE PAGE_SIZE = 2048
    decide
  · intro p _
    simp [bit_init]

theorem heapInv_init (mem : Mem) (ptr : ℕ) (pmm : Bitmap)
    (hptr : (kheapInit mem ptr pmm).1.imallocPtr ≤ HEAP_BASE) :
    HeapInv (kheapInit mem ptr pmm).1 [] ∧ Below (kheapInit mem ptr pmm).1 34 := by
  have hp : u32 (ptr + ceilDiv HEAP_SIZE PAGE_SIZE) ≤ HEAP_BASE := by
    simpa only [kheapInit, firstSlabs_imallocPtr] using hptr
  have hmarks : ceilDiv (u32 (ptr + ceilDiv HEAP_SIZE PAGE_SIZE) - HEAP_BASE) 4096 = 0 := by
    rw [Nat.sub_eq_zero_of_le hp]
    decide
  simp only [kheapInit, hmarks, List.range_zero, List.foldl_nil]
  exact heapInv_firstSlabs (heapInv_empty mem _ _) rfl

theorem heapInv_step (s : HeapState) (e : HeapEvent) (s' : HeapState)
    (hinv : HeapInv s.heap s.live) (h : HeapStep s e s') : HeapInv s'.heap s'.live := by
  cases e with
  | kmalloc size =>
    obtain ⟨h1, -, hg, rfl⟩ := h
    exact heapInv_kmalloc hinv h1 hg
  | kfree addr size =>
    obtain ⟨hb, rfl⟩ := h
    exact heapInv_kfree hinv hb
  | write addr v =>
    obtain ⟨⟨b, hb, h1, h2⟩, rfl⟩ := h
    exact heapInv_write hinv hb h1 h2 v

theorem heapInv_run {evs : List HeapEvent} {s : HeapState} (h : HeapRun evs s) :
    HeapInv s.heap s.live := by
  refine Run.invariant (fun s => HeapInv s.heap s.live) ?_ heapInv_step h
  rintro s ⟨mem, ptr, pmm, hptr, rfl⟩
  dsimp only
  exact (heapInv_init mem ptr pmm hptr).1

/-- Two live blocks never overlap: they sit in different cells. -/
theorem HeapInv.live_apart {h : Kheap} {live : List (ℕ × ℕ)} (hinv : HeapInv h live) {a b : ℕ × ℕ}
    (ha : a ∈ live) (hb : b ∈ live) (hne : a.1 ≠ b.1) : Apart a.1 a.2 b.1 b.2 := by
  obtain ⟨-, i, s, hi, hca, hsa⟩ := hinv.owned a ha
  obtain ⟨-, j, t, hj, hcb, hsb⟩ := hinv.owned b hb
  have h1 := hca.bounds
  have h2 := hcb.bounds
  by_cases hij : i = j
  · subst hij
    obtain rfl : s = t := Option.some.inj (hi.symm.trans hj)
    have := hca.apart hcb hne
    unfold Apart at *
    omega
  · have := hinv.apart i j s t hij hi hj
    unfold Apart at *
    omega

/-- Heap safety in every reachable state. The pages of the slabs are pairwise
disjoint and exactly they are marked; every freelist is a duplicate-free chain
of cells of its slab and `inuse` counts the other cells; the live blocks are
pairwise disjoint, each inside one cell of one slab and on no freelist. -/
theorem heap_safe (evs : List HeapEvent) (s : HeapState) (hrun : HeapRun evs s) :
    (s.heap.cache.Pairwise fun a b =>
      Apart a.page (slabPages a.large) b.page (slabPages b.large)) ∧
    (∀ p < ceilDiv HEAP_SIZE PAGE_SIZE, bitmapTest s.heap.bitmap p = true ↔
      ∃ slab ∈ s.heap.cache, slab.start = HEAP_BASE + slab.page * 4096 ∧
        slab.page ≤ p ∧ p < slab.page + slabPages slab.large) ∧
    (∀ slab ∈ s.heap.cache, ∃ fl, Chain (load32 s.heap.mem) slab.first fl ∧ fl.Nodup ∧
      (∀ a ∈ fl, ∃ k, a = slab.start + k * slab.objectSize ∧
        a + slab.objectSize ≤ slab.start + slab.bytes) ∧
      slab.inuse + fl.length = slab.bytes / slab.objectSize) ∧
    (s.live.Pairwise fun a b => Apart a.1 a.2 b.1 b.2) ∧
    (∀ b ∈ s.live,
      (∃ slab ∈ s.heap.cache, ∃ k < slab.bytes / slab.objectSize,
        slab.start + k * slab.objectSize ≤ b.1 ∧
        b.1 + b.2 ≤ slab.start + (k + 1) * slab.objectSize) ∧
      ∀ slab ∈ s.heap.cache, ∀ fl, Chain (load32 s.heap.mem) slab.first fl → b.1 ∉ fl) := by
  have hinv := heapInv_run hrun
  refine ⟨?_, ?_, ?_, ?_, ?_⟩
  · rw [List.pairwise_iff_getElem]
    intro i j hi hj hij
    have h1 := List.getElem?_eq_getElem hi
    have h2 := List.getElem?_eq_getElem hj
    have := hinv.apart i j _ _ (by omega) h1 h2
    have := (hinv.wf i _ h1).base
    have := (hinv.wf j _ h2).base
    unfold Apart HeapSlab.bytes at *
    omega
  · intro p hp
    have hp' : p < 2048 := hp
    rw [test_eq, hinv.size]
    simp only [hp', decide_true, Bool.true_and, hinv.marked p hp']
    constructor
    · rintro ⟨i, slab, hi, h1, h2⟩
      exact ⟨slab, List.mem_of_getElem? hi, (hinv.wf i slab hi).base, h1, h2⟩
    · rintro ⟨slab, hm, -, h1, h2⟩
      obtain ⟨i, hi⟩ := List.mem_iff_getElem?.1 hm
      exact ⟨i, slab, hi, h1, h2⟩
  · intro slab hm
    obtain ⟨i, hi⟩ := List.mem_iff_getElem?.1 hm
    obtain ⟨fl, hfl⟩ := hinv.free i slab hi
    refine ⟨fl, hfl.chain, hfl.nodup, fun a ha => ?_, hfl.count⟩
    have hb := (hfl.cell a ha).bounds
    obtain ⟨k, -, hk⟩ := hfl.cell a ha
    exact ⟨k, hk, hb.2⟩
  · exact hinv.distinct.imp_of_mem fun ha hb hne => hinv.live_apart ha hb hne
  · intro b hb
    obtain ⟨-, i, slab, hi, ⟨k, hk, hbk⟩, hsz⟩ := hinv.owned b hb
    refine ⟨⟨slab, List.mem_of_getElem? hi, k, hk, by omega, ?_⟩, ?_⟩
    · rw [Nat.add_mul, Nat.one_mul]
      omega
    · intro t hm fl hchain
      obtain ⟨j, hj⟩ := List.mem_iff_getElem?.1 hm
      obtain ⟨fl', hfl⟩ := hinv.free j t hj
      rw [hchain.unique hfl.chain]
      exact hfl.idle b hb

theorem boot_ptr (mem : Mem) (pmm : Bitmap) :
    (kheapInit mem (VIRT_BASE + 2097152) pmm).1.imallocPtr ≤ HEAP_BASE := by
  simp only [kheapInit, firstSlabs_imallocPtr]
  decide

section Run

variable {evs : List HeapEvent} {s : HeapState}

theorem heapRun_kmalloc (h : HeapRun evs s) (size : ℕ) (h1 : 1 ≤ size) (h2 : size ≤ 2147483647)
    (hg : GrowFinds s.heap size) : HeapRun (evs ++ [.kmalloc size]) ⟨(kmalloc s.heap size).2,
      if (kmalloc s.heap size).1 = 0 then s.live else ((kmalloc s.heap size).1, size) :: s.live⟩ :=
  Run.snoc h ⟨h1, h2, hg, rfl⟩

theorem heapRun_kfree (h : HeapRun evs s) (addr size : ℕ) (hb : (addr, size) ∈ s.live) :
    HeapRun (evs ++ [.kfree addr size]) ⟨kfree s.heap addr size, s.live.erase (addr, size)⟩ :=
  Run.snoc h ⟨hb, rfl⟩

end Run

/-- The heap as `kheap_init` leaves it with the kernel ending at 2 MiB. -/
def bootHeap : Kheap := (kheapInit (fun _ => 0) (VIRT_BASE + 2097152) (pmmInit 16777216 0)).1

/-- Two requests that grow the heap and one from a slab that is there; then the first block is
freed, its slab purged, and the last slab moves to its place. -/
theorem heap_safe_purged : ∃ s,
    HeapRun [.kmalloc 5000, .kmalloc 20000, .kmalloc 100, .kfree 0xC0418000 5000] s ∧
    s.live = [(0xC040E000, 100), (0xC0422000, 20000)] ∧
    s.heap.cache.map (·.start) = [0xC0400000, 0xC040E000, 0xC0404000, 0xC0422000] ∧
    (s.heap.cache.Pairwise fun a b =>
      Apart a.page (slabPages a.large) b.page (slabPages b.large)) ∧
    (s.live.Pairwise fun a b => Apart a.1 a.2 b.1 b.2) ∧
    ∀ slab ∈ s.heap.cache, ∀ fl, Chain (load32 s.heap.mem) slab.first fl → 0xC0422000 ∉ fl := by
  have hboot : HeapRun [] ⟨bootHeap, []⟩ := Run.nil ⟨_, _, _, boot_ptr (fun _ => 0) _, rfl⟩
  have hfirst := heapRun_kmalloc hboot 5000 (by decide) (by decide)
    fun _ _ _ => hasRun_of_bits 24 (by decide +kernel) (by decide +kernel)
  have hsecond := heapRun_kmalloc hfirst 20000 (by decide) (by decide)
    fun _ _ _ => hasRun_of_bits 34 (by decide +kernel) (by decide +kernel)
  have hthird := heapRun_kmalloc hsecond 100 (by decide) (by decide)
    fun _ h0 => absurd h0 (by decide +kernel)
  have hrun := heapRun_kfree hthird 0xC0418000 5000 (by decide +kernel)
  obtain ⟨hpages, -, -, hlive, hblocks⟩ := heap_safe _ _ hrun
  exact ⟨_, hrun, by decide +kernel, by decide +kernel, hpages, hlive,
    (hblocks (0xC0422000, 20000) (by decide +kernel)).2⟩

end DepthOS
