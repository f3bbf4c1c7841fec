import DepthOS.Proofs.HeapGrow

/-! The two calls of the slab allocator keep `HeapInv`: `kmalloc` through the
best fit or a new slab, `kfree` by pushing the cell back or, when it was the
last block of its slab, by purging the slab and compacting the cache. -/

namespace DepthOS

open Lib

/-- Lookups after the swap-with-last compaction: the last slab moves to `k`. -/
theorem shrink_getElem? {h : Kheap} {k : ℕ} {slab : HeapSlab} (hk : h.cache[k]? = some slab)
    (i : ℕ) : (kheapCacheShrink h k).cache[i]? =
      if i < h.cache.length - 1 then
        if i = k then h.cache[h.cache.length - 1]? else h.cache[i]?
      else none := by
  have hlt : k < h.cache.length := (List.getElem?_eq_some_iff.1 hk).1
  have hlast : h.cache[h.cache.length - 1]? = some (h.cache.getD (h.cache.length - 1) slab) := by
    rw [List.getD_eq_getElem?_getD, List.getElem?_eq_getElem (by omega)]
    rfl
  unfold kheapCacheShrink
  rw [hk]
  simp only [List.getElem?_take]
  by_cases hi : i < h.cache.length - 1
  · rw [if_pos hi, if_pos hi]
    by_cases hkn : k = h.cache.length - 1
    · rw [if_neg (by simpa using hkn), if_neg (by omega)]
    · rw [if_pos hkn, getElem?_set_of_some hk, hlast]
  · rw [if_neg hi, if_neg hi]

theorem shrink_lookup {h : Kheap} {k i : ℕ} {slab s : HeapSlab} (hk : h.cache[k]? = some slab)
    (hi : (kheapCacheShrink h k).cache[i]? = some s) :
    h.cache[if i = k then h.cache.length - 1 else i]? = some s ∧
    (if i = k then h.cache.length - 1 else i) ≠ k ∧ i < h.cache.length - 1 := by
  rw [shrink_getElem? hk] at hi
  by_cases hlt : i < h.cache.length - 1
  · rw [if_pos hlt] at hi
    by_cases hik : i = k
    · rw [if_pos hik] at hi ⊢
      exact ⟨hi, by omega, hlt⟩
    · rw [if_neg hik] at hi ⊢
      exact ⟨hi, hik, hlt⟩
  · rw [if_neg hlt] at hi
    simp at hi

theorem shrink_keeps {h : Kheap} {k i : ℕ} {slab s : HeapSlab} (hk : h.cache[k]? = some slab)
    (hi : h.cache[i]? = some s) (hne : i ≠ k) :
    ∃ j : ℕ, (kheapCacheShrink h k).cache[j]? = some s := by
  have hlt : k < h.cache.length := (List.getElem?_eq_some_iff.1 hk).1
  have hlti : i < h.cache.length := (List.getElem?_eq_some_iff.1 hi).1
  by_cases hil : i = h.cache.length - 1
  · refine ⟨k, ?_⟩
    rw [shrink_getElem? hk, if_pos (by omega), if_pos rfl, ← hil]
    exact hi
  · refine ⟨i, ?_⟩
    rw [shrink_getElem? hk, if_pos (by omega), if_neg hne]
    exact hi

theorem heapInv_shrink {h : Kheap} {live live' : List (ℕ × ℕ)} (hinv : HeapInv h live) {k : ℕ}
    {slab : HeapSlab} (hk : h.cache[k]? = some slab) (hsub : ∀ b ∈ live', b ∈ live)
    (hempty : ∀ b ∈ live', slabHasAddr slab b.1 = false)
    (hcount : ∀ (i : ℕ) s, i ≠ k → h.cache[i]? = some s →
      (live'.filter fun b => slabHasAddr s b.1).length =
        (live.filter fun b => slabHasAddr s b.1).length)
    (hdist : live'.Pairwise fun a b => a.1 ≠ b.1) : HeapInv (kheapCacheShrink h k) live' := by
  have hw := hinv.wf k slab hk
  have hfits := hw.fits
  have hsize := hinv.size
  have hbm : (kheapCacheShrink h k).bitmap =
      bitmapSetmulti h.bitmap false slab.page (slabPages slab.large) := by
    simp only [kheapCacheShrink, hk]
  have hmem : (kheapCacheShrink h k).mem = h.mem := by simp only [kheapCacheShrink, hk]
  obtain ⟨hbs, hbit⟩ := setmulti_spec h.bitmap false slab.page (slabPages slab.large)
    (by omega) (Or.inl (by omega))
  refine ⟨by rw [hbm, hbs, hsize], ?_, ?_, ?_, ?_, ?_, hdist⟩
  · intro i s hi
    exact hinv.wf _ s (shrink_lookup hk hi).1
  · intro i j a b hij hi hj
    obtain ⟨hi', -, hil⟩ := shrink_lookup hk hi
    obtain ⟨hj', -, hjl⟩ := shrink_lookup hk hj
    exact hinv.apart _ _ a b (by split_ifs <;> omega) hi' hj'
  · intro p hp
    rw [hbm, hbit p, hsize]
    by_cases hin : slab.page ≤ p ∧ p < slab.page + slabPages slab.large
    · rw [if_pos ⟨hin.1, hin.2, hp⟩]
      simp only [Bool.false_eq_true, false_iff]
      rintro ⟨i, s, hi, h1, h2⟩
      obtain ⟨hi', hne, -⟩ := shrink_lookup hk hi
      -- the pages of two different slabs are apart
      have := hinv.apart _ k s slab hne hi' hk
      have := (hinv.wf _ s hi').base
      have := hw.base
      unfold Apart HeapSlab.bytes at *
      omega
    · rw [if_neg (fun h => hin ⟨h.1, h.2.1⟩), hinv.marked p hp]
      constructor
      · rintro ⟨i, s, hi, h1, h2⟩
        have hne : i ≠ k := by
          rintro rfl
          obtain rfl : slab = s := Option.some.inj (hk.symm.trans hi)
          exact hin ⟨h1, h2⟩
        obtain ⟨j, hj⟩ := shrink_keeps hk hi hne
        exact ⟨j, s, hj, h1, h2⟩
      · rintro ⟨i, s, hi, h1, h2⟩
        exact ⟨_, s, (shrink_lookup hk hi).1, h1, h2⟩
  · intro i s hi
    obtain ⟨hi', hne, -⟩ := shrink_lookup hk hi
    obtain ⟨fl, hfl⟩ := hinv.free _ s hi'
    rw [hmem]
    exact ⟨fl, hfl.frame (fun _ _ => rfl) (fun b hb => hfl.idle b (hsub b hb))
      (hcount _ s hne hi')⟩
  · intro b hb
    obtain ⟨h1, i, s, hi, hc, h2⟩ := hinv.owned b (hsub b hb)
    have hne : i ≠ k := by
      rintro rfl
      obtain rfl : slab = s := Option.some.inj (hk.symm.trans hi)
      have := hc.hasAddr hw
      simp [hempty b hb] at this
    obtain ⟨j, hj⟩ := shrink_keeps hk hi hne
    exact ⟨h1, j, s, hj, hc, h2⟩

theorem shrink_set {h : Kheap} {k : ℕ} {slab slab' : HeapSlab} (hk : h.cache[k]? = some slab)
    (hs : slab'.start = slab.start) (hl : slab'.large = slab.large) :
    kheapCacheShrink { h with cache := h.cache.set k slab' } k = kheapCacheShrink h k := by
  have hk' : (h.cache.set k slab')[k]? = some slab' := by rw [getElem?_set_of_some hk, if_pos rfl]
  have hcache : (kheapCacheShrink { h with cache := h.cache.set k slab' } k).cache =
      (kheapCacheShrink h k).cache := by
    apply List.ext_getElem?
    intro i
    rw [shrink_getElem? hk', shrink_getElem? hk]
    simp only [List.length_set, getElem?_set_of_some hk]
    have hlt : k < h.cache.length := (List.getElem?_eq_some_iff.1 hk).1
    by_cases hi : i < h.cache.length - 1
    · rw [if_pos hi, if_pos hi]
      by_cases hik : i = k
      · rw [if_pos hik, if_pos hik, if_neg (by omega)]
      · rw [if_neg hik, if_neg hik, if_neg hik]
    · rw [if_neg hi, if_neg hi]
  have hpage : slab'.page = slab.page := by simp only [HeapSlab.page, hs]
  unfold kheapCacheShrink at hcache ⊢
  simp only [hk, hk', hl, hpage] at hcache ⊢
  rw [hcache]

theorem cellSize_bounds {size : ℕ} (h : 1 ≤ size) : 4 ≤ cellSize size ∧ size ≤ cellSize size := by
  unfold cellSize FREELIST_SIZE
  split_ifs <;> omega

theorem cellSize_le {size n : ℕ} (h : size ≤ n) (hn : 4 ≤ n) : cellSize size ≤ n := by
  unfold cellSize FREELIST_SIZE
  split_ifs <;> omega

theorem growSize_bounds {size : ℕ} (h1 : 4 ≤ size) (h2 : size ≤ 40960) :
    size ≤ growSize size (decide (1024 ≤ size)) ∧
    growSize size (decide (1024 ≤ size)) ≤ slabPages (decide (1024 ≤ size)) * 4096 := by
  by_cases hl : 1024 ≤ size
  · simp only [growSize, hl, decide_true, if_true, pgRndUp, roundUp, u16, u32, slabPages, PAGE_SIZE,
      Bool.not_true, Bool.false_eq_true, if_false, HEAP_LGSLAB_PAGES]
    omega
  · simp only [growSize, hl, decide_false, Bool.false_eq_true, if_false, u16, slabPages,
      Bool.not_false, if_true, HEAP_SLAB_PAGES]
    omega

/-- `kmalloc` with a growth that succeeds: NULL and nothing changes for the
callers, or a fresh block. -/
theorem heapInv_kmalloc {h : Kheap} {live : List (ℕ × ℕ)} (hinv : HeapInv h live) {size : ℕ}
    (h1 : 1 ≤ size) (hg : GrowFinds h size) :
    HeapInv (kmalloc h size).2
      (if (kmalloc h size).1 = 0 then live else ((kmalloc h size).1, size) :: live) := by
  obtain ⟨hc4, hcs⟩ := cellSize_bounds h1
  by_cases hbig : size = 0 ∨ size > HEAP_LGSLAB_PAGES * PAGE_SIZE
  · simp only [kmalloc, hbig, if_true]
    exact hinv
  · have hle : size ≤ HEAP_LGSLAB_PAGES * PAGE_SIZE := by omega
    have hcle : cellSize size ≤ 40960 := cellSize_le hle (by decide)
    by_cases hfound : (kmallocSearch (cellSize size) h.cache 0 0 0).1 = 0
    · by_cases hlen : h.cache.length = 256
      · have hnone : kheapCacheGrow h (cellSize size) (decide (1024 ≤ cellSize size)) = (none, h) := by
          simp only [kheapCacheGrow, hlen, if_true]
        simp only [kmalloc, hbig, hfound, if_false, ne_eq, not_true_eq_false, hnone, if_true]
        exact hinv
      · obtain ⟨hg1, hg2⟩ := growSize_bounds hc4 hcle
        obtain ⟨a, slab, -, -, -, hfirst, hobj, hret, hcache, hinv'⟩ :=
          heapInv_grow hinv hlen (hg hle hfound hlen) rfl (by omega) hg2
        have hgrow : kheapCacheGrow h (cellSize size) (decide (1024 ≤ cellSize size)) =
            (some h.cache.length, (kheapCacheGrow h (cellSize size)
              (decide (1024 ≤ cellSize size))).2) := Prod.ext hret rfl
        set h' := (kheapCacheGrow h (cellSize size) (decide (1024 ≤ cellSize size))).2
        have hk : h'.cache[h.cache.length]? = some slab := by rw [hcache]; simp
        obtain ⟨htake, hinv''⟩ := heapInv_take hinv' hk hfirst h1 (by rw [hobj]; omega)
        have hres : kmalloc h size = kmallocTake h' h.cache.length := by
          simp only [kmalloc, hbig, hfound, if_false, ne_eq, not_true_eq_false, hgrow]
        rw [hres, htake, if_neg hfirst]
        exact hinv''
    · obtain ⟨slab, hk, hfirst, hobj⟩ := kmallocSearch_sound (cellSize size) h.cache h.cache [] 0 0
        rfl (fun h => absurd rfl h) hfound
      obtain ⟨htake, hinv'⟩ := heapInv_take hinv hk hfirst h1 (by omega)
      have hres : kmalloc h size =
          kmallocTake h (kmallocSearch (cellSize size) h.cache 0 0 0).2 := by
        simp only [kmalloc, hbig, hfound, if_false, ne_eq, not_false_eq_true, if_true]
      rw [hres]
      rw [List.length_nil] at htake hinv'
      rw [htake, if_neg hfirst]
      exact hinv'

theorem filter_erase_length {live : List (ℕ × ℕ)} {b : ℕ × ℕ} (hb : b ∈ live)
    (p : ℕ × ℕ → Bool) :
    (live.filter p).length = ((live.erase b).filter p).length + if p b then 1 else 0 := by
  have h := ((List.perm_cons_erase hb).filter p).length_eq
  rw [h]
  by_cases hp : p b = true
  · rw [List.filter_cons_of_pos hp, List.length_cons, if_pos hp]
  · rw [List.filter_cons_of_neg hp, if_neg hp, Nat.add_zero]

section Kfree

variable {h : Kheap} {live : List (ℕ × ℕ)} {k addr size : ℕ} {slab : HeapSlab}

theorem HeapInv.distinct_erase (hinv : HeapInv h live) (hb : (addr, size) ∈ live) :
    (∀ b ∈ live.erase (addr, size), addr ≠ b.1) ∧
    (live.erase (addr, size)).Pairwise fun a b => a.1 ≠ b.1 := by
  have hperm := (List.perm_cons_erase hb).pairwise_iff
    (R := fun a b : ℕ × ℕ => a.1 ≠ b.1) (fun h => h.symm)
  exact List.pairwise_cons.1 (hperm.1 hinv.distinct)

theorem HeapInv.count_other (hinv : HeapInv h live) (hb : (addr, size) ∈ live)
    (hk : h.cache[k]? = some slab) (hin : slabHasAddr slab addr = true) (i : ℕ) (s : HeapSlab)
    (hik : i ≠ k) (hi : h.cache[i]? = some s) :
    ((live.erase (addr, size)).filter fun b => slabHasAddr s b.1).length =
      (live.filter fun b => slabHasAddr s b.1).length := by
  have hout : slabHasAddr s addr = false := hinv.hasAddr_other hik hk hi hin
  rw [filter_erase_length hb, if_neg (by simp [hout]), Nat.add_zero]

theorem HeapInv.find_slab (hinv : HeapInv h live) (hk : h.cache[k]? = some slab)
    (hcell : IsCell slab addr) (hsz : size ≤ slab.objectSize) :
    h.cache.findIdx? (fun s => decide (cellSize size ≤ s.objectSize) && slabHasAddr s addr) =
      some k := by
  have hw := hinv.wf k slab hk
  have hin : slabHasAddr slab addr = true := hcell.hasAddr hw
  have hok : cellSize size ≤ slab.objectSize := cellSize_le hsz hw.link
  rw [List.findIdx?_eq_some_iff_getElem]
  obtain ⟨hlt, hget⟩ := List.getElem?_eq_some_iff.1 hk
  refine ⟨hlt, by simp [hget, hok, hin], ?_⟩
  intro j hj
  have hjl : j < h.cache.length := by omega
  simp [hinv.hasAddr_other (by omega) hk (List.getElem?_eq_getElem hjl) hin]

/-- A cell's address is a 32-bit word and not NULL. -/
theorem IsCell.word (hw : SlabWf slab) (hcell : IsCell slab addr) :
    addr ≠ 0 ∧ addr < 4294967296 := by
  have := hcell.bounds
  have := hw.base
  have := hw.fits
  have := hw.link
  have := slabPages_bounds slab.large
  simp only [HEAP_BASE, VIRT_BASE, HeapSlab.bytes] at *
  omega

theorem heapInv_push (hinv : HeapInv h live) (hb : (addr, size) ∈ live)
    (hk : h.cache[k]? = some slab) (hcell : IsCell slab addr) :
    HeapInv { h with mem := store32 h.mem addr slab.first
                     cache := h.cache.set k { slab with inuse := slab.inuse - 1, first := addr } }
      (live.erase (addr, size)) := by
  have hw := hinv.wf k slab hk
  have hin : slabHasAddr slab addr = true := hcell.hasAddr hw
  have hsub : ∀ b ∈ live.erase (addr, size), b ∈ live := fun b hb => List.mem_of_mem_erase hb
  have hdist := hinv.distinct_erase hb
  obtain ⟨fl, hfl⟩ := hinv.free k slab hk
  have hnew : addr ∉ fl := hfl.idle _ hb
  have hcount := filter_erase_length hb fun b => slabHasAddr slab b.1
  rw [if_pos hin, ← hfl.inuse] at hcount
  have hmem : ∀ x, x < addr ∨ addr + slab.objectSize ≤ x →
      store32 h.mem addr slab.first x = h.mem x := fun x hx =>
    store32_other (by have := hw.link; omega)
  refine hinv.update hk _ _ rfl rfl rfl ⟨addr :: fl, ?_, ?_, ?_, ?_, ?_, ?_⟩ ?_ ?_ hdist.2
  · have hfst : slab.first < 4294967296 := by
      cases fl with
      | nil =>
        have h0 : slab.first = 0 := hfl.chain
        omega
      | cons c t =>
        rw [hfl.chain.1]
        exact ((hfl.cell c (by simp)).word hw).2
    refine ⟨rfl, (hcell.word hw).1, ?_⟩
    rw [load32_store32, Nat.mod_eq_of_lt hfst]
    exact hfl.chain.congr fun a ha => hinv.load_other hk hk hcell hfl ha
      (fun he => hnew (he ▸ ha)) hmem
  · exact List.nodup_cons.2 ⟨hnew, hfl.nodup⟩
  · intro a ha
    rcases List.mem_cons.1 ha with rfl | ha
    · exact hcell
    · exact hfl.cell a ha
  · intro b hb' hmem'
    rcases List.mem_cons.1 hmem' with he | hmem'
    · exact hdist.1 b hb' he.symm
    · exact hfl.idle b (hsub b hb') hmem'
  · have := hfl.count
    change slab.inuse - 1 + (addr :: fl).length = slab.cells
    rw [List.length_cons]
    omega
  · change slab.inuse - 1 = ((live.erase (addr, size)).filter fun b => slabHasAddr slab b.1).length
    omega
  · intro i s fl' hik hi hfl'
    refine hfl'.frame (fun a ha => hinv.load_other hi hk hcell hfl' ha ?_ hmem)
      (fun b hb' => hfl'.idle b (hsub b hb')) (hinv.count_other hb hk hin i s hik hi)
    rintro rfl
    exact hfl'.idle _ hb ha
  · exact fun b hb' => Or.inl (hsub b hb')

/-- `kfree` of a live block: its cell goes back to its slab, or the slab goes
with its last block. -/
theorem heapInv_kfree (hinv : HeapInv h live) (hb : (addr, size) ∈ live) :
    HeapInv (kfree h addr size) (live.erase (addr, size)) := by
  obtain ⟨h1, k, slab, hk, hcell, hsz⟩ := hinv.owned _ hb
  change 1 ≤ size at h1
  change IsCell slab addr at hcell
  have hw := hinv.wf k slab hk
  have hin : slabHasAddr slab addr = true := hcell.hasAddr hw
  have hpush := heapInv_push hinv hb hk hcell
  obtain ⟨fl, hfl⟩ := hinv.free k slab hk
  have hcount := filter_erase_length hb fun b => slabHasAddr slab b.1
  rw [if_pos hin, ← hfl.inuse] at hcount
  have hlt := hfl.inuse_lt hw
  have hdec : u16 (slab.inuse + 65535) = slab.inuse - 1 := by
    unfold u16
    omega
  have h0 : size ≠ 0 := by omega
  have hfind := hinv.find_slab hk hcell hsz
  simp only [kfree, h0, if_false, hfind, hk, hdec]
  by_cases hf : slab.first = 0
  · rw [if_pos hf]
    simpa only [hf] using hpush
  · rw [if_neg hf]
    by_cases hi0 : slab.inuse - 1 = 0
    · rw [if_pos hi0]
      have hnone : ∀ b ∈ live.erase (addr, size), slabHasAddr slab b.1 = false := by
        have hnil : ((live.erase (addr, size)).filter fun b => slabHasAddr slab b.1) = [] :=
          List.length_eq_zero_iff.1 (by omega)
        intro b hb'
        simpa using List.filter_eq_nil_iff.1 hnil b hb'
      have := heapInv_shrink hinv hk (fun b hb => List.mem_of_mem_erase hb) hnone
        (hinv.count_other hb hk hin) (hinv.distinct_erase hb).2
      rwa [← shrink_set hk] at this <;> rfl
    · rw [if_neg hi0]
      exact hpush

end Kfree

end DepthOS
