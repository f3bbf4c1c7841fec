import DepthOS.Sanity.Heap

/-! Unlinking a free cell and growing the cache by a slab keep `HeapInv`: a cell
leaves its freelist as it becomes a live block, and a new slab takes pages
that no other slab has. -/

namespace DepthOS

open Lib

/-- A live block's links: the four bytes a freelist would use do not reach into
a free cell, because the two are different cells. -/
theorem HeapInv.load_other {h : Kheap} {live : List (ℕ × ℕ)} (hinv : HeapInv h live)
    {i k a c : ℕ} {s slab : HeapSlab} {fl : List ℕ} (hi : h.cache[i]? = some s)
    (hk : h.cache[k]? = some slab) (hc : IsCell slab c) (hfl : FreeCells h.mem live s fl)
    (ha : a ∈ fl) (hne : a ≠ c) {m' : Mem}
    (hm : ∀ x, x < c ∨ c + slab.objectSize ≤ x → m' x = h.mem x) :
    load32 m' a = load32 h.mem a := by
  have hcell := hfl.cell a ha
  have hb1 := hcell.bounds
  have hb2 := hc.bounds
  have hl1 := (hinv.wf i s hi).link
  apply load32_congr
  intro x h1 h2
  apply hm
  by_cases hik : i = k
  · subst hik
    obtain rfl : slab = s := Option.some.inj (hk.symm.trans hi)
    have := hcell.apart hc hne
    unfold Apart at this
    omega
  · have := hinv.apart i k s slab hik hi hk
    unfold Apart at this
    omega

theorem heapInv_take {h : Kheap} {live : List (ℕ × ℕ)} (hinv : HeapInv h live) {k size : ℕ}
    {slab : HeapSlab} (hk : h.cache[k]? = some slab) (hfirst : slab.first ≠ 0) (h1 : 1 ≤ size)
    (hsize : size ≤ slab.objectSize) :
    (kmallocTake h k).1 = slab.first ∧
    HeapInv (kmallocTake h k).2 ((slab.first, size) :: live) := by
  obtain ⟨fl, hfl⟩ := hinv.free k slab hk
  obtain ⟨rest, rfl, hrest⟩ := hfl.chain.of_ne_zero hfirst
  have hw := hinv.wf k slab hk
  have hcell : IsCell slab slab.first := hfl.cell _ (by simp)
  have hin : slabHasAddr slab slab.first = true := hcell.hasAddr hw
  have hlt := hfl.inuse_lt hw
  have hnd := List.nodup_cons.1 hfl.nodup
  unfold kmallocTake
  rw [hk]
  refine ⟨rfl, hinv.update hk h.mem _ rfl rfl rfl ?_ ?_ ?_ ?_⟩
  · refine ⟨rest, hrest, hnd.2, fun a ha => hfl.cell a (by simp [ha]), ?_, ?_, ?_⟩
    · intro b hb
      rcases List.mem_cons.1 hb with rfl | hb
      · exact hnd.1
      · exact fun h => hfl.idle b hb (by simp [h])
    · have := hfl.count
      simp only [List.length_cons, HeapSlab.cells, HeapSlab.bytes, u16] at this hlt ⊢
      omega
    · change u16 (slab.inuse + 1) =
        (((slab.first, size) :: live).filter fun b => slabHasAddr slab b.1).length
      rw [List.filter_cons_of_pos (by exact hin), List.length_cons, ← hfl.inuse]
      exact Nat.mod_eq_of_lt (by omega)
  · intro i s fl' hik hi hfl'
    have hout : slabHasAddr s slab.first = false := hinv.hasAddr_other hik hk hi hin
    refine hfl'.frame (fun _ _ => rfl) ?_ ?_
    · intro b hb
      rcases List.mem_cons.1 hb with rfl | hb
      · intro hmem
        have := (hfl'.cell _ hmem).hasAddr (hinv.wf i s hi)
        simp [hout] at this
      · exact hfl'.idle b hb
    · rw [List.filter_cons_of_neg (by simp [hout])]
  · intro b hb
    rcases List.mem_cons.1 hb with rfl | hb
    · exact Or.inr ⟨h1, hcell, hsize⟩
    · exact Or.inl hb
  · refine List.pairwise_cons.2 ⟨fun b hb he => ?_, hinv.distinct⟩
    exact hfl.idle b hb (by simp [← he])

theorem HeapInv.run_apart {h : Kheap} {live : List (ℕ × ℕ)} (hinv : HeapInv h live) {n a i : ℕ}
    (hn : 1 ≤ n) (hrun : RunAt h.bitmap n false a) {s : HeapSlab} (hi : h.cache[i]? = some s) :
    a + n ≤ s.page ∨ s.page + slabPages s.large ≤ a := by
  by_contra hno
  have hw := hinv.wf i s hi
  have hle := hrun.1
  rw [hinv.size] at hle
  have hnp := (slabPages_bounds s.large).1
  have hclear := hrun.2 (max a s.page) (by omega) (by omega)
  have hset := (hinv.marked (max a s.page) (by omega)).2 ⟨i, s, hi, by omega, by omega⟩
  rw [hclear] at hset
  simp at hset

/-! A new slab. -/

/-- The slab of `os`-byte cells on the pages from `a` on, all of them free. -/
def slabAt (a os : ℕ) (large : Bool) : HeapSlab :=
  ⟨HEAP_BASE + a * 4096, HEAP_BASE + a * 4096, os, 0, large⟩

section NewSlab

variable {a os : ℕ} {large : Bool}

theorem slabAt_page (hle : a + slabPages large ≤ 2048) : (slabAt a os large).page = a := by
  have hnp := slabPages_bounds large
  simp only [HeapSlab.page, slabAt, sub32, u32, HEAP_BASE, VIRT_BASE]
  omega

theorem slabAt_wf (hle : a + slabPages large ≤ 2048) (hlink : 4 ≤ os)
    (hfit : os ≤ slabPages large * 4096) : SlabWf (slabAt a os large) := by
  have hpage : (slabAt a os large).page = a := slabAt_page hle
  exact ⟨by rw [hpage]; rfl, by rw [hpage]; exact hle, hlink, hfit⟩

/-- The memory after the freelist loop over the slab. -/
def slabMem (m : Mem) (slab : HeapSlab) : Mem :=
  freelistLoop slab.start slab.objectSize m slab.start 1 (slab.cells - 1)

theorem slabMem_spec (m : Mem) (hle : a + slabPages large ≤ 2048) (hlink : 4 ≤ os)
    (hfit : os ≤ slabPages large * 4096) :
    Chain (load32 (slabMem m (slabAt a os large))) (slabAt a os large).first
      ((List.range (slabAt a os large).cells).map fun t => (slabAt a os large).start + t * os) ∧
    ∀ x, x < (slabAt a os large).start ∨
        (slabAt a os large).start + (slabAt a os large).bytes ≤ x →
      slabMem m (slabAt a os large) x = m x := by
  set slab := slabAt a os large with hslab
  have hbytes : slab.bytes = slabPages large * 4096 := rfl
  have hstart : slab.start = HEAP_BASE + a * 4096 := rfl
  have hcells : 1 ≤ slab.cells := Nat.div_pos hfit (show 0 < os by omega)
  have hmul : slab.cells * os ≤ slab.bytes := Nat.div_mul_le_self _ _
  -- the loop runs from cell 0 over the remaining cells
  have hcount : (slab.cells - 1) * os + os = slab.cells * os := by
    rw [← Nat.succ_mul, Nat.succ_eq_add_one, Nat.sub_add_cancel hcells]
  obtain ⟨hchain, hframe⟩ := freelistLoop_spec slab.start os hlink (slab.cells - 1) m 0
    (by simp only [Nat.zero_add, hstart, HEAP_BASE, VIRT_BASE]; omega)
    (by simp only [hstart, HEAP_BASE, VIRT_BASE]; omega)
  simp only [Nat.zero_mul, Nat.zero_add, Nat.add_zero] at hchain hframe
  rw [Nat.sub_add_cancel hcells] at hchain
  exact ⟨hchain, fun x hx => hframe x (by omega)⟩

theorem freeCells_new (m : Mem) {live : List (ℕ × ℕ)} (hle : a + slabPages large ≤ 2048)
    (hlink : 4 ≤ os) (hfit : os ≤ slabPages large * 4096)
    (hout : ∀ b ∈ live, slabHasAddr (slabAt a os large) b.1 = false) :
    ∃ fl, FreeCells (slabMem m (slabAt a os large)) live (slabAt a os large) fl := by
  refine ⟨_, (slabMem_spec m hle hlink hfit).1, ?_, ?_, ?_, ?_, ?_⟩
  · refine (List.nodup_range).map fun x y hxy => ?_
    have : x * os = y * os := by simpa using hxy
    exact Nat.eq_of_mul_eq_mul_right (by omega) this
  · intro c hc
    obtain ⟨t, ht, rfl⟩ := List.mem_map.1 hc
    exact ⟨t, List.mem_range.1 ht, rfl⟩
  · intro b hb hmem
    obtain ⟨t, ht, he⟩ := List.mem_map.1 hmem
    have hc : IsCell (slabAt a os large) b.1 := ⟨t, List.mem_range.1 ht, he.symm⟩
    have := hc.hasAddr (slabAt_wf hle hlink hfit)
    simp [hout b hb] at this
  · simp [slabAt]
  · rw [List.filter_eq_nil_iff.2 (fun b hb => by simp [hout b hb])]
    rfl

end NewSlab

theorem getElem?_append_singleton {cache : List HeapSlab} {slab s : HeapSlab} {i : ℕ} :
    (cache ++ [slab])[i]? = some s ↔ cache[i]? = some s ∨ i = cache.length ∧ s = slab := by
  rcases Nat.lt_or_ge i cache.length with hlt | hge
  · rw [List.getElem?_append_left hlt]
    constructor
    · exact Or.inl
    · rintro (hi | ⟨rfl, -⟩)
      · exact hi
      · exact absurd hlt (Nat.lt_irrefl _)
  · rw [List.getElem?_append_right hge, List.getElem?_eq_none hge]
    rcases hz : i - cache.length with _ | n
    · have hi : i = cache.length := by omega
      simp [hi, eq_comm]
    · have hi : i ≠ cache.length := by omega
      simp [hi]

theorem HeapInv.append {h : Kheap} {live : List (ℕ × ℕ)} (hinv : HeapInv h live) {slab : HeapSlab}
    {m : Mem} {bm : Bitmap} (hw : SlabWf slab)
    (hapart : ∀ (i : ℕ) s, h.cache[i]? = some s → Apart s.start s.bytes slab.start slab.bytes)
    (hsize : bm.size = h.bitmap.size)
    (hbit : ∀ p < 2048, bm.bit p = true ↔
      h.bitmap.bit p = true ∨ slab.page ≤ p ∧ p < slab.page + slabPages slab.large)
    (hmem : ∀ x, x < slab.start ∨ slab.start + slab.bytes ≤ x → m x = h.mem x)
    (hfree : ∃ fl, FreeCells m live slab fl) :
    HeapInv { h with mem := m, bitmap := bm, cache := h.cache ++ [slab] } live := by
  refine ⟨hsize.trans hinv.size, ?_, ?_, ?_, ?_, ?_, hinv.distinct⟩
  · intro i s hi
    rcases getElem?_append_singleton.1 hi with hi | ⟨-, rfl⟩
    · exact hinv.wf i s hi
    · exact hw
  · intro i j x y hij hi hj
    rcases getElem?_append_singleton.1 hi with hi' | ⟨hie, rfl⟩ <;>
      rcases getElem?_append_singleton.1 hj with hj' | ⟨hje, rfl⟩
    · exact hinv.apart i j x y hij hi' hj'
    · exact hapart i x hi'
    · exact (hapart j y hj').symm
    · omega
  · intro p hp
    rw [hbit p hp, hinv.marked p hp]
    constructor
    · rintro (⟨i, s, hi, hp⟩ | hp)
      · exact ⟨i, s, getElem?_append_singleton.2 (Or.inl hi), hp⟩
      · exact ⟨_, slab, getElem?_append_singleton.2 (Or.inr ⟨rfl, rfl⟩), hp⟩
    · rintro ⟨i, s, hi, hp⟩
      rcases getElem?_append_singleton.1 hi with hi' | ⟨-, rfl⟩
      · exact Or.inl ⟨i, s, hi', hp⟩
      · exact Or.inr hp
  · intro i s hi
    rcases getElem?_append_singleton.1 hi with hi' | ⟨-, rfl⟩
    · obtain ⟨fl, hfl⟩ := hinv.free i s hi'
      refine ⟨fl, hfl.frame (fun c hc => load32_congr fun x h1 h2 => hmem x ?_) hfl.idle rfl⟩
      have := (hfl.cell c hc).bounds
      have := hapart i s hi'
      have := (hinv.wf i s hi').link
      unfold Apart at *
      omega
    · exact hfree
  · intro b hb
    obtain ⟨h1, i, s, hi, h2, h3⟩ := hinv.owned b hb
    exact ⟨h1, i, s, getElem?_append_singleton.2 (Or.inl hi), h2, h3⟩

theorem HeapInv.slab_apart {h : Kheap} {live : List (ℕ × ℕ)} (hinv : HeapInv h live) {a : ℕ}
    (os : ℕ) {large : Bool} (hrun : RunAt h.bitmap (slabPages large) false a) {i : ℕ} {s : HeapSlab}
    (hi : h.cache[i]? = some s) :
    Apart s.start s.bytes (slabAt a os large).start (slabAt a os large).bytes := by
  have hnp := slabPages_bounds large
  have hb := (hinv.wf i s hi).base
  simp only [HeapSlab.bytes, slabAt]
  rcases hinv.run_apart (by omega) hrun hi with h1 | h1
  · exact Or.inr (by rw [hb]; omega)
  · exact Or.inl (by rw [hb]; omega)

theorem HeapInv.live_outside {h : Kheap} {live : List (ℕ × ℕ)} (hinv : HeapInv h live)
    {slab : HeapSlab}
    (hapart : ∀ (i : ℕ) s, h.cache[i]? = some s → Apart s.start s.bytes slab.start slab.bytes) :
    ∀ b ∈ live, slabHasAddr slab b.1 = false := by
  intro b hb
  obtain ⟨-, i, s, hi, hc, -⟩ := hinv.owned b hb
  have := hapart i s hi
  have := hc.bounds
  have := (hinv.wf i s hi).link
  simp only [slabHasAddr, decide_eq_false_iff_not]
  unfold Apart at *
  omega

theorem kheapCacheGrow_eq {h : Kheap} (size : ℕ) {a : ℕ} {large : Bool} (hlen : h.cache.length ≠ 256)
    (hle : a + slabPages large ≤ 2048)
    (hr : (bitmapScanFlip h.bitmap 0 (slabPages large) false).1 = a) :
    kheapCacheGrow h size large = (some h.cache.length,
      { h with mem := slabMem h.mem (slabAt a (growSize size large) large)
               bitmap := (bitmapScanFlip h.bitmap 0 (slabPages large) false).2
               cache := h.cache ++ [slabAt a (growSize size large) large] }) := by
  have hnp := slabPages_bounds large
  have hpage : sizeT (a : ℤ) = a := sizeT_natCast (by omega)
  have hstart : u32 (HEAP_BASE + u16 (sizeT (a : ℤ)) * 4096) = HEAP_BASE + a * 4096 := by
    rw [hpage, show u16 a = a from Nat.mod_eq_of_lt (by omega)]
    exact u32_of_lt (by simp only [HEAP_BASE, VIRT_BASE]; omega)
  have hneg : ¬ ((a : ℤ) < 0) := by omega
  simp only [kheapCacheGrow, hlen, if_false, hr, hneg, hstart]
  rfl

theorem heapInv_grow {h : Kheap} {live : List (ℕ × ℕ)} (hinv : HeapInv h live) {size : ℕ}
    {large : Bool} {os : ℕ} (hlen : h.cache.length ≠ 256)
    (hrun : HasRun h.bitmap (slabPages large) false)
    (hos : growSize size large = os) (hlink : 4 ≤ os)
    (hfit : os ≤ slabPages large * 4096) :
    ∃ a slab, FirstFit h.bitmap (slabPages large) false a ∧
      slab.page = a ∧ slab.large = large ∧ slab.first ≠ 0 ∧ slab.objectSize = os ∧
      (kheapCacheGrow h size large).1 = some h.cache.length ∧
      (kheapCacheGrow h size large).2.cache = h.cache ++ [slab] ∧
      HeapInv (kheapCacheGrow h size large).2 live := by
  subst hos
  have hnp := slabPages_bounds large
  obtain ⟨a, hff, hr, hbsize, -, hbit⟩ :=
    scanFlip_found h.bitmap false (by omega) (by rw [hinv.size]; decide) hrun
  have hle := hff.run.1
  rw [hinv.size] at hle
  have hpage : (slabAt a (growSize size large) large).page = a := slabAt_page hle
  have hfirst : (slabAt a (growSize size large) large).first ≠ 0 := by
    simp only [slabAt, HEAP_BASE, VIRT_BASE]
    omega
  have hgrow := kheapCacheGrow_eq size hlen hle hr
  refine ⟨a, _, hff, hpage, rfl, hfirst, rfl, by rw [hgrow], by rw [hgrow], ?_⟩
  rw [hgrow]
  have hapart := fun (i : ℕ) (s : HeapSlab) (hi : h.cache[i]? = some s) =>
    hinv.slab_apart (growSize size large) hff.run hi
  refine hinv.append (slabAt_wf hle hlink hfit) hapart hbsize (fun p hp => ?_)
    (slabMem_spec h.mem hle hlink hfit).2
    (freeCells_new h.mem hle hlink hfit (hinv.live_outside hapart))
  -- the flip sets the bits of the run, which were clear, and no others
  rw [hbit p, hpage]
  by_cases hin : a ≤ p ∧ p < a + slabPages large
  · rw [if_pos hin, hff.run.2 p hin.1 hin.2]
    simp only [Bool.not_false, true_iff]
    exact Or.inr hin
  · rw [if_neg hin]
    exact ⟨Or.inl, fun hp => hp.resolve_right hin⟩

end DepthOS
