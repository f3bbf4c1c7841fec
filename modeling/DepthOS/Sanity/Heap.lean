import DepthOS.Spec.Heap

/-! Slab geometry and the single steps of the allocator: where the cells of a
slab lie, what the freelist loop builds in memory, which slab the best-fit
search picks. `HeapInv` is the invariant of the whole heap. -/

namespace DepthOS

open Lib

def HeapSlab.cells (slab : HeapSlab) : ℕ := slab.bytes / slab.objectSize

/-- `a` is the address of a cell of the slab. -/
def IsCell (slab : HeapSlab) (a : ℕ) : Prop :=
  ∃ k, k < slab.cells ∧ a = slab.start + k * slab.objectSize

/-- A slab inside the heap window, with cells that hold a freelist link. -/
structure SlabWf (slab : HeapSlab) : Prop where
  base : slab.start = HEAP_BASE + slab.page * 4096
  fits : slab.page + slabPages slab.large ≤ 2048
  link : 4 ≤ slab.objectSize
  object : slab.objectSize ≤ slab.bytes

theorem slabPages_bounds (large : Bool) : 4 ≤ slabPages large ∧ slabPages large ≤ 10 := by
  cases large <;> decide

theorem IsCell.bounds {slab : HeapSlab} {a : ℕ} (h : IsCell slab a) :
    slab.start ≤ a ∧ a + slab.objectSize ≤ slab.start + slab.bytes := by
  obtain ⟨k, hk, rfl⟩ := h
  have h1 : (k + 1) * slab.objectSize ≤ slab.cells * slab.objectSize :=
    Nat.mul_le_mul_right _ hk
  have h2 : slab.cells * slab.objectSize ≤ slab.bytes := Nat.div_mul_le_self _ _
  rw [Nat.add_mul, Nat.one_mul] at h1
  omega

theorem IsCell.apart {slab : HeapSlab} {a b : ℕ} (ha : IsCell slab a) (hb : IsCell slab b)
    (hne : a ≠ b) : Apart a slab.objectSize b slab.objectSize := by
  obtain ⟨i, -, rfl⟩ := ha
  obtain ⟨j, -, rfl⟩ := hb
  rcases Nat.lt_trichotomy i j with h | h | h
  · have := Nat.mul_le_mul_right slab.objectSize (Nat.succ_le_of_lt h)
    rw [Nat.succ_mul] at this
    exact Or.inl (by omega)
  · exact absurd (by rw [h]) hne
  · have := Nat.mul_le_mul_right slab.objectSize (Nat.succ_le_of_lt h)
    rw [Nat.succ_mul] at this
    exact Or.inr (by omega)

theorem IsCell.hasAddr {slab : HeapSlab} {a : ℕ} (hw : SlabWf slab) (h : IsCell slab a) :
    slabHasAddr slab a = true := by
  have := h.bounds
  have := hw.link
  simp only [slabHasAddr, decide_eq_true_eq]
  omega

/-- The free cells of a slab and what `inuse` counts. -/
structure FreeCells (m : Mem) (live : List (ℕ × ℕ)) (slab : HeapSlab) (fl : List ℕ) : Prop where
  chain : Chain (load32 m) slab.first fl
  nodup : fl.Nodup
  cell : ∀ a ∈ fl, IsCell slab a
  idle : ∀ b ∈ live, b.1 ∉ fl
  count : slab.inuse + fl.length = slab.cells
  inuse : slab.inuse = (live.filter fun b => slabHasAddr slab b.1).length

/-- The heap invariant: slabs lie apart, exactly their pages are marked, every
cell of a slab is on its freelist or handed out once. -/
structure HeapInv (h : Kheap) (live : List (ℕ × ℕ)) : Prop where
  size : h.bitmap.size = 2048
  wf : ∀ (i : ℕ) slab, h.cache[i]? = some slab → SlabWf slab
  apart : ∀ (i j : ℕ) a b, i ≠ j → h.cache[i]? = some a → h.cache[j]? = some b →
    Apart a.start a.bytes b.start b.bytes
  marked : ∀ p < 2048, h.bitmap.bit p = true ↔
    ∃ (i : ℕ) (slab : HeapSlab), h.cache[i]? = some slab ∧ slab.page ≤ p ∧
      p < slab.page + slabPages slab.large
  free : ∀ (i : ℕ) slab, h.cache[i]? = some slab → ∃ fl, FreeCells h.mem live slab fl
  owned : ∀ b ∈ live, 1 ≤ b.2 ∧
    ∃ (i : ℕ) (slab : HeapSlab), h.cache[i]? = some slab ∧ IsCell slab b.1 ∧ b.2 ≤ slab.objectSize
  distinct : live.Pairwise fun a b => a.1 ≠ b.1

theorem HeapInv.hasAddr_unique {h : Kheap} {live : List (ℕ × ℕ)} (hinv : HeapInv h live)
    {i j x : ℕ} {a b : HeapSlab} (hi : h.cache[i]? = some a) (hj : h.cache[j]? = some b)
    (ha : slabHasAddr a x = true) (hb : slabHasAddr b x = true) : i = j := by
  by_contra hne
  have := hinv.apart i j a b hne hi hj
  simp only [slabHasAddr, decide_eq_true_eq] at ha hb
  unfold Apart at this
  omega

theorem HeapInv.hasAddr_other {h : Kheap} {live : List (ℕ × ℕ)} (hinv : HeapInv h live)
    {i j x : ℕ} {a b : HeapSlab} (hne : j ≠ i) (hi : h.cache[i]? = some a)
    (hj : h.cache[j]? = some b) (ha : slabHasAddr a x = true) : slabHasAddr b x = false := by
  cases hb : slabHasAddr b x
  · rfl
  · exact absurd (hinv.hasAddr_unique hj hi hb ha) hne

theorem FreeCells.frame {m m' : Mem} {live live' : List (ℕ × ℕ)} {slab : HeapSlab} {fl : List ℕ}
    (h : FreeCells m live slab fl) (hm : ∀ a ∈ fl, load32 m' a = load32 m a)
    (hidle : ∀ b ∈ live', b.1 ∉ fl)
    (hcount : (live'.filter fun b => slabHasAddr slab b.1).length =
      (live.filter fun b => slabHasAddr slab b.1).length) : FreeCells m' live' slab fl :=
  ⟨h.chain.congr hm, h.nodup, h.cell, hidle, h.count, by rw [h.inuse, hcount]⟩

theorem FreeCells.inuse_lt {m : Mem} {live : List (ℕ × ℕ)} {slab : HeapSlab} {fl : List ℕ}
    (h : FreeCells m live slab fl) (hw : SlabWf slab) : slab.inuse + fl.length ≤ 10240 := by
  rw [h.count, HeapSlab.cells]
  have hb : slab.bytes ≤ 40960 := by
    have := (slabPages_bounds slab.large).2
    unfold HeapSlab.bytes
    omega
  calc slab.bytes / slab.objectSize ≤ slab.bytes / 4 := Nat.div_le_div_left hw.link (by decide)
    _ ≤ 10240 := by omega

theorem getElem?_set_of_some {α : Type} {l : List α} {k i : ℕ} {x y : α} (hk : l[k]? = some y) :
    (l.set k x)[i]? = if i = k then some x else l[i]? := by
  have hlt : k < l.length := (List.getElem?_eq_some_iff.1 hk).1
  rw [List.getElem?_set]
  by_cases h : k = i
  · subst h; simp [hlt]
  · simp [h, Ne.symm h]

/-- Replacing one slab by one of the same geometry: only its own freelist, the
memory outside the other freelists and the live blocks are left to check. -/
theorem HeapInv.update {h : Kheap} {live live' : List (ℕ × ℕ)} (hinv : HeapInv h live) {k : ℕ}
    {slab : HeapSlab} (hk : h.cache[k]? = some slab) (m' : Mem) (slab' : HeapSlab)
    (hs : slab'.start = slab.start) (ho : slab'.objectSize = slab.objectSize)
    (hl : slab'.large = slab.large) (hfree : ∃ fl, FreeCells m' live' slab' fl)
    (hother : ∀ (i : ℕ) s fl, i ≠ k → h.cache[i]? = some s → FreeCells h.mem live s fl →
      FreeCells m' live' s fl)
    (howned : ∀ b ∈ live', b ∈ live ∨ (1 ≤ b.2 ∧ IsCell slab b.1 ∧ b.2 ≤ slab.objectSize))
    (hdist : live'.Pairwise fun a b => a.1 ≠ b.1) :
    HeapInv { h with mem := m', cache := h.cache.set k slab' } live' := by
  have hpage : slab'.page = slab.page := by simp only [HeapSlab.page, hs]
  have hbytes : slab'.bytes = slab.bytes := by simp only [HeapSlab.bytes, hl]
  have hcell : ∀ a, IsCell slab a → IsCell slab' a := by
    rintro a ⟨n, hn, rfl⟩
    exact ⟨n, by simpa only [HeapSlab.cells, hbytes, ho] using hn, by rw [hs, ho]⟩
  -- every lookup in the new cache is the new slab or an old one
  have hget : ∀ (i : ℕ) s, (h.cache.set k slab')[i]? = some s →
      (i = k ∧ s = slab') ∨ (i ≠ k ∧ h.cache[i]? = some s) := by
    intro i s hi
    rw [getElem?_set_of_some hk] at hi
    split_ifs at hi with hik
    · exact Or.inl ⟨hik, (Option.some.inj hi).symm⟩
    · exact Or.inr ⟨hik, hi⟩
  refine ⟨hinv.size, ?_, ?_, ?_, ?_, ?_, hdist⟩
  · intro i s hi
    rcases hget i s hi with ⟨-, rfl⟩ | ⟨-, hi⟩
    · have hw := hinv.wf k slab hk
      exact ⟨by rw [hs, hpage]; exact hw.base, by rw [hpage, hl]; exact hw.fits,
        by rw [ho]; exact hw.link, by rw [ho, hbytes]; exact hw.object⟩
    · exact hinv.wf i s hi
  · intro i j a b hij hi hj
    rcases hget i a hi with ⟨rfl, rfl⟩ | ⟨-, hi'⟩ <;> rcases hget j b hj with ⟨rfl, rfl⟩ | ⟨-, hj'⟩
    · exact absurd rfl hij
    · rw [hs, hbytes]
      exact hinv.apart _ j slab b hij hk hj'
    · rw [hs, hbytes]
      exact hinv.apart i _ a slab hij hi' hk
    · exact hinv.apart i j a b hij hi' hj'
  · intro p hp
    rw [hinv.marked p hp]
    constructor
    · rintro ⟨i, s, hi, h1, h2⟩
      by_cases hik : i = k
      · subst hik
        obtain rfl : slab = s := Option.some.inj (hk.symm.trans hi)
        exact ⟨i, slab', by rw [getElem?_set_of_some hk, if_pos rfl], by rw [hpage]; exact h1,
          by rw [hpage, hl]; exact h2⟩
      · exact ⟨i, s, by rw [getElem?_set_of_some hk, if_neg hik]; exact hi, h1, h2⟩
    · rintro ⟨i, s, hi, h1, h2⟩
      rcases hget i s hi with ⟨-, rfl⟩ | ⟨-, hi⟩
      · exact ⟨k, slab, hk, by rw [← hpage]; exact h1, by rw [← hpage, ← hl]; exact h2⟩
      · exact ⟨i, s, hi, h1, h2⟩
  · intro i s hi
    rcases hget i s hi with ⟨-, rfl⟩ | ⟨hik, hi⟩
    · exact hfree
    · obtain ⟨fl, hfl⟩ := hinv.free i s hi
      exact ⟨fl, hother i s fl hik hi hfl⟩
  · intro b hb
    rcases howned b hb with hold | ⟨h1, h2, h3⟩
    · obtain ⟨h1, i, s, hi, h2, h3⟩ := hinv.owned b hold
      by_cases hik : i = k
      · subst hik
        obtain rfl : slab = s := Option.some.inj (hk.symm.trans hi)
        exact ⟨h1, i, slab', by rw [getElem?_set_of_some hk, if_pos rfl], hcell _ h2,
          by rw [ho]; exact h3⟩
      · exact ⟨h1, i, s, by rw [getElem?_set_of_some hk, if_neg hik]; exact hi, h2, h3⟩
    · exact ⟨h1, k, slab', by rw [getElem?_set_of_some hk, if_pos rfl], hcell _ h2,
        by rw [ho]; exact h3⟩

/-- The freelist loop links the cells in address order and touches nothing past
them. -/
theorem freelistLoop_spec (start size : ℕ) (hsize : 4 ≤ size) (k : ℕ) :
    ∀ (m : Mem) (i : ℕ), start + (i + k) * size + size ≤ 4294967296 → start ≠ 0 →
      Chain (load32 (freelistLoop start size m (start + i * size) (i + 1) k)) (start + i * size)
        ((List.range (k + 1)).map fun t => start + (i + t) * size) ∧
      ∀ x, x < start + i * size ∨ start + (i + k) * size + size ≤ x →
        freelistLoop start size m (start + i * size) (i + 1) k x = m x := by
  induction k with
  | zero =>
    intro m i hend h0
    simp only [freelistLoop, zero_add, List.range_one, List.map_cons, List.map_nil, Nat.add_zero,
      chain_cons, chain_nil, load32_store32, Nat.zero_mod, and_true, true_and]
    exact ⟨by omega, fun x hx => store32_other (by omega)⟩
  | succ k ih =>
    intro m i hend h0
    have hi : start + (i + (k + 1)) * size = start + (i + 1 + k) * size := by ring
    have hnext : (i + 1) * size = i * size + size := by ring
    have hmono : (i + 1) * size ≤ (i + 1 + k) * size := Nat.mul_le_mul_right _ (by omega)
    have hu : u32 (start + (i + 1) * size) = start + (i + 1) * size := u32_of_lt (by omega)
    rw [hi] at hend ⊢
    simp only [freelistLoop, hu]
    obtain ⟨hchain, hframe⟩ := ih (store32 m (start + i * size) (start + (i + 1) * size)) (i + 1)
      hend h0
    refine ⟨?_, fun x hx => ?_⟩
    · rw [List.range_succ_eq_map, List.map_cons, List.map_map]
      refine ⟨by simp, by simp only [Nat.add_zero]; omega, ?_⟩
      -- the link of the first cell is written before the rest and not touched again
      have hlink : load32 (freelistLoop start size
          (store32 m (start + i * size) (start + (i + 1) * size))
          (start + (i + 1) * size) (i + 1 + 1) k) (start + i * size) =
          start + (i + 1) * size := by
        rw [load32_congr (fun x _ _ => hframe x (by omega)), load32_store32]
        exact Nat.mod_eq_of_lt (by omega)
      simp only [Nat.add_zero, hlink]
      convert hchain using 2
      funext t
      simp only [Function.comp_apply, Nat.succ_eq_add_one]
      ring
    · rw [hframe x (by omega)]
      exact store32_other (by omega)

/-- The best-fit search only ever picks a slab that has a free cell of at least
the requested size. -/
theorem kmallocSearch_sound (size : ℕ) (cache : List HeapSlab) :
    ∀ (rest pre : List HeapSlab) (fit fitIdx : ℕ), cache = pre ++ rest →
      (fit ≠ 0 → ∃ slab, cache[fitIdx]? = some slab ∧ slab.first ≠ 0 ∧ size ≤ slab.objectSize) →
      (kmallocSearch size rest pre.length fit fitIdx).1 ≠ 0 →
      ∃ slab, cache[(kmallocSearch size rest pre.length fit fitIdx).2]? = some slab ∧
        slab.first ≠ 0 ∧ size ≤ slab.objectSize := by
  intro rest
  induction rest with
  | nil => intro pre fit fitIdx _ hfit hne; exact hfit hne
  | cons slab rest ih =>
    intro pre fit fitIdx hc hfit
    have hc' : cache = (pre ++ [slab]) ++ rest := by rw [hc]; simp
    have hlen : (pre ++ [slab]).length = pre.length + 1 := by simp
    have hat : cache[pre.length]? = some slab := by rw [hc]; simp
    unfold kmallocSearch
    by_cases h1 : slab.first = 0 ∨ slab.objectSize < size
    · rw [if_pos h1, ← hlen]
      exact ih _ fit fitIdx hc' hfit
    · rw [if_neg h1]
      push Not at h1
      by_cases h2 : fit = 0 ∨ slab.objectSize < fit
      · rw [if_pos h2]
        by_cases h3 : slab.objectSize = size
        · rw [if_pos h3]
          exact fun _ => ⟨slab, hat, h1.1, h1.2⟩
        · rw [if_neg h3, ← hlen]
          exact ih _ slab.objectSize pre.length hc' (fun _ => ⟨slab, hat, h1.1, h1.2⟩)
      · rw [if_neg h2, ← hlen]
        exact ih _ fit fitIdx hc' hfit

end DepthOS
