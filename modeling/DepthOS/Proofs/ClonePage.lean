import DepthOS.Lib.Loop
import DepthOS.Proofs.Pmm
import DepthOS.Sanity.Clone

/-! The loops of `clone_pgd`: what holds after a number of tables and pages, and
that one more page keeps it. -/

namespace DepthOS

open Lib

/-- The pages an address space lives in: its directory, its user tables and the
frames its user pages are mapped to. -/
def InUse (m : Mem) (O a : ℕ) : Prop :=
  a = O ∨ (∃ i < 768, pdeAt m O i ≠ 0 ∧ a = tableAt m O i) ∨
  ∃ p < USER_END, entryAt m O p ≠ 0 ∧ a = extractAddr (entryAt m O p)

/-- How many frames `pmm_alloc` can still hand out one by one. -/
def freeFrames (bm : Bitmap) : ℕ := ((Finset.range bm.size).filter fun f => bm.bit f = false).card

/-- The directory is one `map_page` can have built, heap and frame allocator give
out pages that nobody uses, and there are enough of both. -/
structure CloneOk (s : Machine) (original : ℕ) : Prop where
  block : KBlock original
  tables : ∀ i < 768, pdeAt s.mem (addrToPhys original) i ≠ 0 →
    (pdeAt s.mem (addrToPhys original) i).testBit 0 = true ∧
    (pdeAt s.mem (addrToPhys original) i).testBit 7 = false ∧
    tableAt s.mem (addrToPhys original) i ≠ 0 ∧
    tableAt s.mem (addrToPhys original) i < 0x40000000
  present : ∀ p < USER_END, entryAt s.mem (addrToPhys original) p ≠ 0 →
    (entryAt s.mem (addrToPhys original) p).testBit 0 = true
  pool_block : ∀ b ∈ s.pool, KBlock b
  pool_nodup : (s.pool.map addrToPhys).Nodup
  pool_fresh : ∀ b ∈ s.pool, ¬ InUse s.mem (addrToPhys original) (addrToPhys b)
  size_le : s.pmmBitmap.size ≤ 1048576
  frame_fresh : ∀ f < s.pmmBitmap.size, s.pmmBitmap.bit f = false →
    ¬ InUse s.mem (addrToPhys original) (f * 4096) ∧ ∀ b ∈ s.pool, f * 4096 ≠ addrToPhys b
  heap_enough : remaining (fun i => pdeAt s.mem (addrToPhys original) i ≠ 0) 768 0 + 2 ≤
    s.pool.length
  frames_enough : remaining (fun p => entryAt s.mem (addrToPhys original) p ≠ 0) USER_END 0 ≤
    freeFrames s.pmmBitmap
  cr3_lt : s.cr3 < 4294967296

/-- A page that is neither a heap block nor a free frame. -/
def Old (s : Machine) (a : ℕ) : Prop :=
  a % 4096 = 0 ∧ (∀ b ∈ s.pool, addrToPhys b ≠ a) ∧
  ∀ f < s.pmmBitmap.size, s.pmmBitmap.bit f = false → f * 4096 ≠ a

section Ok

variable {s : Machine} {original : ℕ}

theorem CloneOk.old_of_inUse (h : CloneOk s original) {a : ℕ} (ha : a % 4096 = 0)
    (hu : InUse s.mem (addrToPhys original) a) : Old s a := by
  refine ⟨ha, fun b hb he => h.pool_fresh b hb ?_, fun f hf hb he => (h.frame_fresh f hf hb).1 ?_⟩
  · rw [he]
    exact hu
  · rw [he]
    exact hu

theorem CloneOk.old_pgd (h : CloneOk s original) : Old s (addrToPhys original) :=
  h.old_of_inUse h.block.phys.2.1 (Or.inl rfl)

theorem CloneOk.old_table (h : CloneOk s original) {i : ℕ} (hi : i < 768)
    (h0 : pdeAt s.mem (addrToPhys original) i ≠ 0) :
    Old s (tableAt s.mem (addrToPhys original) i) :=
  h.old_of_inUse (tableAt_aligned _ _ _) (Or.inr (Or.inl ⟨i, hi, h0, rfl⟩))

theorem CloneOk.old_frame (h : CloneOk s original) {p : ℕ} (hp : p < USER_END)
    (h0 : entryAt s.mem (addrToPhys original) p ≠ 0) :
    Old s (extractAddr (entryAt s.mem (addrToPhys original) p)) :=
  h.old_of_inUse (extractAddr_aligned _) (Or.inr (Or.inr ⟨p, hp, h0, rfl⟩))

theorem CloneOk.phys_ne (h : CloneOk s original) {b c : ℕ} (hb : b ∈ s.pool) (hc : c ∈ s.pool)
    (hne : b ≠ c) : addrToPhys b ≠ addrToPhys c :=
  fun he => hne (List.inj_on_of_nodup_map h.pool_nodup hb hc he)

theorem entryAt_of_pde {m : Mem} {O p : ℕ} (h : pdeAt m O (p / 1024) = 0) : entryAt m O p = 0 := by
  rw [entryAt, tableAt, h, if_pos (by rfl)]

end Ok

theorem hasRun_of_free {bm : Bitmap} (h : 0 < freeFrames bm) : HasRun bm 1 false := by
  obtain ⟨f, hf⟩ := Finset.card_pos.1 h
  obtain ⟨hr, hb⟩ := Finset.mem_filter.1 hf
  have hlt := Finset.mem_range.1 hr
  refine ⟨f, hlt, fun j h1 h2 => ?_⟩
  rw [show j = f by omega]
  exact hb

theorem freeFrames_alloc {bm bm' : Bitmap} {a : ℕ} (ha : a < bm.size) (hb : bm.bit a = false)
    (hs : bm'.size = bm.size)
    (hbit : ∀ j, bm'.bit j = if a ≤ j ∧ j < a + 1 then true else bm.bit j) :
    freeFrames bm = freeFrames bm' + 1 := by
  have hset : (Finset.range bm'.size).filter (fun f => bm'.bit f = false) =
      ((Finset.range bm.size).filter fun f => bm.bit f = false).erase a := by
    ext f
    simp only [Finset.mem_filter, Finset.mem_range, Finset.mem_erase, hs, hbit]
    by_cases hfa : f = a
    · simp [hfa]
    · rw [if_neg (by omega)]
      tauto
  unfold freeFrames
  rw [hset, Finset.card_erase_add_one (by simp [ha, hb])]

/-- After `t` tables and the pages below `n`: `T i` is the new table of entry `i`,
`F p` the new frame of page `p`. -/
structure CloneInv (s0 : Machine) (original pgd buffer t n : ℕ) (T F : ℕ → ℕ) (s : Machine) :
    Prop where
  blocks : pgd ∈ s0.pool ∧ buffer ∈ s0.pool ∧ pgd ≠ buffer
  old : ∀ a, Old s0 a → SameOn s0.mem s.mem a 4096
  pde : ∀ i < 1024, pdeAt s.mem (addrToPhys pgd) i =
    if i < t ∧ pdeAt s0.mem (addrToPhys original) i ≠ 0 then
      makePde (addrToPhys (T i)) (getbit (pdeAt s0.mem (addrToPhys original) i) 1)
        (getbit (pdeAt s0.mem (addrToPhys original) i) 2)
    else pdeAt s0.mem (addrToPhys original) i
  tables : ∀ i < t, pdeAt s0.mem (addrToPhys original) i ≠ 0 →
    T i ∈ s0.pool ∧ T i ≠ pgd ∧ T i ≠ buffer ∧ T i ∉ s.pool
  tables_inj : ∀ i < t, ∀ j < t, pdeAt s0.mem (addrToPhys original) i ≠ 0 →
    pdeAt s0.mem (addrToPhys original) j ≠ 0 → i ≠ j → T i ≠ T j
  entry : ∀ p, p / 1024 < t → pdeAt s0.mem (addrToPhys original) (p / 1024) ≠ 0 →
    load32 s.mem (addrToPhys (T (p / 1024)) + 4 * (p % 1024)) =
      if p < n ∧ entryAt s0.mem (addrToPhys original) p ≠ 0 then
        makePte (F p * 4096) (getbit (entryAt s0.mem (addrToPhys original) p) 1)
          (getbit (entryAt s0.mem (addrToPhys original) p) 2)
      else 0
  frames : ∀ p < n, entryAt s0.mem (addrToPhys original) p ≠ 0 →
    F p < s0.pmmBitmap.size ∧ s0.pmmBitmap.bit (F p) = false ∧ s.pmmBitmap.bit (F p) = true
  frames_inj : ∀ p < n, ∀ q < n, entryAt s0.mem (addrToPhys original) p ≠ 0 →
    entryAt s0.mem (addrToPhys original) q ≠ 0 → p ≠ q → F p ≠ F q
  content : ∀ p < n, entryAt s0.mem (addrToPhys original) p ≠ 0 → ∀ k < 4096,
    s.mem (F p * 4096 + k) = s0.mem (extractAddr (entryAt s0.mem (addrToPhys original) p) + k)
  size : s.pmmBitmap.size = s0.pmmBitmap.size
  bits : ∀ f, s.pmmBitmap.bit f = false → s0.pmmBitmap.bit f = false
  free : remaining (fun p => entryAt s0.mem (addrToPhys original) p ≠ 0) USER_END n ≤
    freeFrames s.pmmBitmap
  pool : ∀ b ∈ s.pool, b ∈ s0.pool ∧ b ≠ pgd ∧ b ≠ buffer
  nodup : s.pool.Nodup
  heap : remaining (fun i => pdeAt s0.mem (addrToPhys original) i ≠ 0) 768 t ≤ s.pool.length
  cr3 : s.cr3 = s0.cr3
  current : s.currentPgd = s0.currentPgd ∨ s.currentPgd = addrToVirt s0.cr3

section Page

variable {s0 s s' : Machine} {original pgd buffer t n a : ℕ} {T F : ℕ → ℕ}

/-- No mapped page at `n`: there is nothing to do. -/
theorem CloneInv.skip (h : CloneInv s0 original pgd buffer t n T F s) (hn : n < USER_END)
    (he : entryAt s0.mem (addrToPhys original) n = 0) :
    CloneInv s0 original pgd buffer t (n + 1) T F s := by
  have hlt : ∀ p < n + 1, entryAt s0.mem (addrToPhys original) p ≠ 0 → p < n := by
    intro p hp h0
    have : p ≠ n := fun hpn => h0 (hpn ▸ he)
    omega
  refine { h with entry := ?_, frames := ?_, frames_inj := ?_, content := ?_, free := ?_ }
  · intro p hp h0
    rw [h.entry p hp h0]
    refine if_congr ⟨fun hc => ⟨by omega, hc.2⟩, fun hc => ⟨hlt p hc.1 hc.2, hc.2⟩⟩ rfl rfl
  · exact fun p hp h0 => h.frames p (hlt p hp h0) h0
  · exact fun p hp q hq h0 h1 => h.frames_inj p (hlt p hp h0) q (hlt q hq h1) h0 h1
  · exact fun p hp h0 => h.content p (hlt p hp h0) h0
  · have := h.free
    rwa [remaining_neg hn (by simp [he])] at this

theorem CloneInv.free_ne (hok : CloneOk s0 original) (h : CloneInv s0 original pgd buffer t n T F s)
    (ha : a < s.pmmBitmap.size) (hb : s.pmmBitmap.bit a = false) :
    (∀ c ∈ s0.pool, a * 4096 ≠ addrToPhys c) ∧ ∀ x, Old s0 x → a * 4096 ≠ x := by
  rw [h.size] at ha
  exact ⟨(hok.frame_fresh a ha (h.bits a hb)).2, fun x hx => hx.2.2 a ha (h.bits a hb)⟩

/-- One round on a mapped page, page number `n` in table `i`, with the frame `a`. -/
structure PageStep (s0 s s' : Machine) (original buffer t n i j a : ℕ) (T : ℕ → ℕ) : Prop where
  dir : i < t
  slot : j < 1024
  index : n = i * 1024 + j
  table : pdeAt s0.mem (addrToPhys original) i ≠ 0
  mapped : entryAt s0.mem (addrToPhys original) n ≠ 0
  frame_lt : a < s.pmmBitmap.size
  frame_free : s.pmmBitmap.bit a = false
  mem : s'.mem = clonedMem s.mem (addrToPhys (T i)) j
    (makePte (a * 4096) (getbit (entryAt s0.mem (addrToPhys original) n) 1)
      (getbit (entryAt s0.mem (addrToPhys original) n) 2))
    (addrToPhys buffer) (extractAddr (entryAt s0.mem (addrToPhys original) n)) (a * 4096)
  size : s'.pmmBitmap.size = s.pmmBitmap.size
  bit : ∀ f, s'.pmmBitmap.bit f = if a ≤ f ∧ f < a + 1 then true else s.pmmBitmap.bit f
  pool : s'.pool = s.pool
  cr3 : s'.cr3 = s0.cr3
  current : s'.currentPgd = addrToVirt s0.cr3

variable {i j : ℕ}

theorem PageStep.same (hst : PageStep s0 s s' original buffer t n i j a T)
    (hok : CloneOk s0 original) (h : CloneInv s0 original pgd buffer t n T F s)
    {b : ℕ} (hb : b % 4096 = 0) (hT : addrToPhys (T i) ≠ b) (hB : addrToPhys buffer ≠ b)
    (hA : a * 4096 ≠ b) : SameOn s.mem s'.mem b 4096 := by
  rw [hst.mem]
  exact clonedMem_other (hok.pool_block _ (h.tables i hst.dir hst.table).1).phys.2.1
    (hok.pool_block _ h.blocks.2.1).phys.2.1 (Nat.mul_mod_left _ _) hb hT hB hA hst.slot

theorem PageStep.same_block (hst : PageStep s0 s s' original buffer t n i j a T)
    (hok : CloneOk s0 original) (h : CloneInv s0 original pgd buffer t n T F s)
    {c : ℕ} (hc : c ∈ s0.pool) (hT : T i ≠ c) (hB : buffer ≠ c) :
    SameOn s.mem s'.mem (addrToPhys c) 4096 :=
  hst.same hok h (hok.pool_block c hc).phys.2.1
    (hok.phys_ne (h.tables i hst.dir hst.table).1 hc hT) (hok.phys_ne h.blocks.2.1 hc hB)
    ((h.free_ne hok hst.frame_lt hst.frame_free).1 c hc)

theorem PageStep.same_old (hst : PageStep s0 s s' original buffer t n i j a T)
    (hok : CloneOk s0 original) (h : CloneInv s0 original pgd buffer t n T F s)
    {x : ℕ} (hx : Old s0 x) : SameOn s.mem s'.mem x 4096 :=
  hst.same hok h hx.1 (hx.2.1 _ (h.tables i hst.dir hst.table).1) (hx.2.1 _ h.blocks.2.1)
    ((h.free_ne hok hst.frame_lt hst.frame_free).2 x hx)

/-- The pages cloned so far have their own frames. -/
theorem PageStep.same_frame (hst : PageStep s0 s s' original buffer t n i j a T)
    (hok : CloneOk s0 original) (h : CloneInv s0 original pgd buffer t n T F s)
    {p : ℕ} (hp : p < n) (hp0 : entryAt s0.mem (addrToPhys original) p ≠ 0) :
    F p ≠ a ∧ SameOn s.mem s'.mem (F p * 4096) 4096 := by
  obtain ⟨hlt, hb0, hb⟩ := h.frames p hp hp0
  have hne : F p ≠ a := by
    rintro hpa
    rw [hpa, hst.frame_free] at hb
    cases hb
  have hfresh := (hok.frame_fresh _ hlt hb0).2
  refine ⟨hne, hst.same hok h (Nat.mul_mod_left _ _)
    (hfresh _ (h.tables i hst.dir hst.table).1).symm (hfresh _ h.blocks.2.1).symm ?_⟩
  intro he
  exact hne (Nat.eq_of_mul_eq_mul_right (by norm_num) he.symm)

theorem PageStep.entry (hst : PageStep s0 s s' original buffer t n i j a T)
    (hok : CloneOk s0 original) (h : CloneInv s0 original pgd buffer t n T F s)
    {p : ℕ} (hp : p / 1024 < t) (hp0 : pdeAt s0.mem (addrToPhys original) (p / 1024) ≠ 0) :
    load32 s'.mem (addrToPhys (T (p / 1024)) + 4 * (p % 1024)) =
      if p < n + 1 ∧ entryAt s0.mem (addrToPhys original) p ≠ 0 then
        makePte (Function.update F n a p * 4096)
          (getbit (entryAt s0.mem (addrToPhys original) p) 1)
          (getbit (entryAt s0.mem (addrToPhys original) p) 2)
      else 0 := by
  obtain ⟨hTi, -, hTb, -⟩ := h.tables i hst.dir hst.table
  obtain ⟨hTp, -, hTpb, -⟩ := h.tables _ hp hp0
  have hindex := hst.index
  have hslot := hst.slot
  have hold := h.entry p hp hp0
  by_cases hpi : p / 1024 = i
  · rw [hpi] at hold ⊢
    rw [hst.mem, clonedMem_table (hok.pool_block _ hTi).phys.2.1
      (hok.pool_block _ h.blocks.2.1).phys.2.1 (Nat.mul_mod_left _ _)
      (hok.phys_ne h.blocks.2.1 hTi (Ne.symm hTb))
      ((h.free_ne hok hst.frame_lt hst.frame_free).1 _ hTi) (Nat.mod_lt _ (by norm_num))]
    by_cases hpn : p = n
    · subst hpn
      rw [if_pos (by omega), if_pos ⟨by omega, hst.mapped⟩, Function.update_self]
      exact Nat.mod_eq_of_lt (makeEntry_lt _ _ _)
    · rw [if_neg (by omega), hold, Function.update_of_ne hpn]
      exact if_congr ⟨fun hc => ⟨by omega, hc.2⟩, fun hc => ⟨by omega, hc.2⟩⟩ rfl rfl
  · have hpn : p ≠ n := fun hpn => hpi (by omega)
    have hsame := hst.same_block hok h hTp
      (h.tables_inj i hst.dir _ hp hst.table hp0 (Ne.symm hpi)) (Ne.symm hTpb)
    rw [hsame.load32 (by omega), hold, Function.update_of_ne hpn]
    exact if_congr ⟨fun hc => ⟨by omega, hc.2⟩, fun hc => ⟨by omega, hc.2⟩⟩ rfl rfl

theorem PageStep.frames (hst : PageStep s0 s s' original buffer t n i j a T)
    (h : CloneInv s0 original pgd buffer t n T F s) {p : ℕ} (hp : p < n + 1)
    (hp0 : entryAt s0.mem (addrToPhys original) p ≠ 0) :
    Function.update F n a p < s0.pmmBitmap.size ∧
    s0.pmmBitmap.bit (Function.update F n a p) = false ∧
    s'.pmmBitmap.bit (Function.update F n a p) = true := by
  rw [hst.bit]
  by_cases hpn : p = n
  · rw [hpn, Function.update_self, if_pos (by omega), ← h.size]
    exact ⟨hst.frame_lt, h.bits a hst.frame_free, rfl⟩
  · rw [Function.update_of_ne hpn]
    obtain ⟨hlt, hb0, hb⟩ := h.frames p (by omega) hp0
    refine ⟨hlt, hb0, ?_⟩
    split_ifs
    · rfl
    · exact hb

theorem PageStep.content (hst : PageStep s0 s s' original buffer t n i j a T)
    (hok : CloneOk s0 original) (h : CloneInv s0 original pgd buffer t n T F s) (hn : n < USER_END)
    {p k : ℕ} (hp : p < n + 1) (hp0 : entryAt s0.mem (addrToPhys original) p ≠ 0)
    (hk : k < 4096) :
    s'.mem (Function.update F n a p * 4096 + k) =
      s0.mem (extractAddr (entryAt s0.mem (addrToPhys original) p) + k) := by
  by_cases hpn : p = n
  · rw [hpn, Function.update_self, hst.mem, clonedMem_frame hk]
    exact h.old _ (hok.old_frame hn hst.mapped) k hk
  · rw [Function.update_of_ne hpn, (hst.same_frame hok h (by omega) hp0).2 k hk]
    exact h.content p (by omega) hp0 k hk

theorem PageStep.inv (hst : PageStep s0 s s' original buffer t n i j a T)
    (hok : CloneOk s0 original) (h : CloneInv s0 original pgd buffer t n T F s)
    (hn : n < USER_END) :
    CloneInv s0 original pgd buffer t (n + 1) T (Function.update F n a) s' := by
  have hTi := h.tables i hst.dir hst.table
  refine {
    blocks := h.blocks
    old := fun x hx => (h.old x hx).trans (hst.same_old hok h hx)
    pde := fun i' hi' => ?_
    tables := fun i' hi' h0 => by rw [hst.pool]; exact h.tables i' hi' h0
    tables_inj := h.tables_inj
    entry := fun p hp hp0 => hst.entry hok h hp hp0
    frames := fun p hp hp0 => hst.frames h hp hp0
    frames_inj := fun p hp q hq hp0 hq0 hpq => ?_
    content := fun p hp hp0 k hk => hst.content hok h hn hp hp0 hk
    size := hst.size.trans h.size
    bits := fun f hf => h.bits f ?_
    free := ?_
    pool := by rw [hst.pool]; exact h.pool
    nodup := by rw [hst.pool]; exact h.nodup
    heap := by rw [hst.pool]; exact h.heap
    cr3 := hst.cr3
    current := Or.inr hst.current }
  · rw [← h.pde i' hi']
    exact (hst.same_block hok h h.blocks.1 hTi.2.1 h.blocks.2.2.symm).load32 (by omega)
  · by_cases hpn : p = n
    · subst hpn
      rw [Function.update_self, Function.update_of_ne (Ne.symm hpq)]
      exact (hst.same_frame hok h (by omega) hq0).1.symm
    · rw [Function.update_of_ne hpn]
      by_cases hqn : q = n
      · rw [hqn, Function.update_self]
        exact (hst.same_frame hok h (by omega) hp0).1
      · rw [Function.update_of_ne hqn]
        exact h.frames_inj p (by omega) q (by omega) hp0 hq0 hpq
  · rw [hst.bit] at hf
    split_ifs at hf
    exact hf
  · have hrem := h.free
    rw [remaining_pos hn hst.mapped,
      freeFrames_alloc hst.frame_lt hst.frame_free hst.size hst.bit] at hrem
    omega

theorem CloneInv.pde_original (hok : CloneOk s0 original)
    (h : CloneInv s0 original pgd buffer t n T F s) (hi : i < 1024) :
    pdeAt s.mem (addrToPhys original) i = pdeAt s0.mem (addrToPhys original) i :=
  (h.old _ hok.old_pgd).load32 (by omega)

theorem CloneInv.table_original (hok : CloneOk s0 original)
    (h : CloneInv s0 original pgd buffer t n T F s) (hi : i < 1024) :
    tableAt s.mem (addrToPhys original) i = tableAt s0.mem (addrToPhys original) i := by
  rw [tableAt, h.pde_original hok hi, tableAt]

theorem CloneInv.entry_original (hok : CloneOk s0 original)
    (h : CloneInv s0 original pgd buffer t n T F s) (hi : i < 768) (hj : j < 1024)
    (h0 : pdeAt s0.mem (addrToPhys original) i ≠ 0) :
    load32 s.mem (tableAt s.mem (addrToPhys original) i + 4 * j) =
      entryAt s0.mem (addrToPhys original) (i * 1024 + j) := by
  obtain ⟨hdiv, hmod⟩ := clone_index (i := i) hj
  rw [h.table_original hok (by omega), (h.old _ (hok.old_table hi h0)).load32 (by omega), entryAt,
    hdiv, hmod, if_neg (hok.tables i hi h0).2.2.1]

theorem CloneInv.ready (hok : CloneOk s0 original) (h : CloneInv s0 original pgd buffer t n T F s)
    (hit : i < t) (hi : i < 768) (hj : j < 1024) (h0 : pdeAt s0.mem (addrToPhys original) i ≠ 0)
    (he : entryAt s0.mem (addrToPhys original) (i * 1024 + j) ≠ 0) :
    CloneReady s original pgd buffer (T i) i j
      (entryAt s0.mem (addrToPhys original) (i * 1024 + j)) := by
  obtain ⟨hp, h7, ht, hw⟩ := hok.tables i hi h0
  obtain ⟨hTi, hTp, hTb, -⟩ := h.tables i hit h0
  have hpage : i * 1024 + j < USER_END := by
    simp only [USER_END]
    omega
  have hT := hok.pool_block _ hTi
  refine {
    block_original := hok.block
    block_pgd := hok.pool_block _ h.blocks.1
    block_buffer := hok.pool_block _ h.blocks.2.1
    block_table := hT
    dir := hi
    slot := hj
    old_table := by rw [h.table_original hok (by omega)]; exact ht
    old_window := by rw [h.table_original hok (by omega)]; exact hw
    old_present := by rw [h.pde_original hok (by omega)]; exact hp
    old_small := by rw [h.pde_original hok (by omega)]; exact h7
    entry := h.entry_original hok hi hj h0
    present := hok.present _ hpage he
    new_pde := ⟨_, _, (h.pde i (by omega)).trans (if_pos ⟨hit, h0⟩)⟩
    table_ne := ⟨hok.old_pgd.2.1 _ hTi, (hok.old_frame hpage he).2.1 _ hTi, ?_,
      hok.phys_ne hTi h.blocks.1 hTp, hok.phys_ne hTi h.blocks.2.1 hTb⟩
    buffer_ne := hok.phys_ne h.blocks.2.1 h.blocks.1 h.blocks.2.2.symm }
  rw [h.table_original hok (by omega)]
  exact (hok.old_table hi h0).2.1 _ hTi

theorem cloneEntry_spec (hok : CloneOk s0 original)
    (h : CloneInv s0 original pgd buffer t (i * 1024 + j) T F s) (hit : i < t) (hi : i < 768)
    (hj : j < 1024) (h0 : pdeAt s0.mem (addrToPhys original) i ≠ 0) :
    ∃ F' s', cloneEntry original pgd buffer (addrToVirt s0.cr3) (T i) i s j = some s' ∧
      CloneInv s0 original pgd buffer t (i * 1024 + (j + 1)) T F' s' := by
  have hpage : i * 1024 + j < USER_END := by
    simp only [USER_END]
    omega
  have hdir : i < 1024 := hi.trans (by norm_num)
  rw [← Nat.add_assoc]
  by_cases he : entryAt s0.mem (addrToPhys original) (i * 1024 + j) = 0
  · obtain ⟨-, -, ht, hw⟩ := hok.tables i hi h0
    rw [← h.table_original hok hdir] at ht hw
    refine ⟨F, s, cloneEntry_empty hok.block hi hj ht hw ?_, h.skip hpage he⟩
    rw [h.entry_original hok hi hj h0, he]
  · have hfree : 0 < freeFrames s.pmmBitmap := by
      have hrem := h.free
      rw [remaining_pos hpage he] at hrem
      omega
    obtain ⟨a, hfit, haddr, hsize, -, hbit⟩ := pmmAlloc_spec s.pmmBitmap (n := 1) le_rfl
      (by rw [h.size]; exact hok.size_le) (hasRun_of_free hfree)
    have hle := hfit.run.1
    have hlt : a < 1048576 := by
      have := hok.size_le
      have := h.size
      omega
    refine ⟨Function.update F (i * 1024 + j) a, _,
      cloneEntry_mapped (h.ready hok hit hi hj h0 he) haddr hlt, ?_⟩
    refine PageStep.inv (i := i) (j := j) ?_ hok h hpage
    exact {
      dir := hit
      slot := hj
      index := rfl
      table := h0
      mapped := he
      frame_lt := by omega
      frame_free := hfit.run.2 a le_rfl (by omega)
      mem := by rw [activatePgd]
      size := hsize
      bit := hbit
      pool := by rw [activatePgd]
      cr3 := by rw [activatePgd, phys_virt' hok.cr3_lt]
      current := by rw [activatePgd] }

end Page

end DepthOS
