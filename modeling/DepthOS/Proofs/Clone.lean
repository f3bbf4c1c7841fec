import DepthOS.Proofs.ClonePage

/-! `clone_pgd` as a whole: the loop over the tables, and the address space it
returns. -/

namespace DepthOS

open Lib

section Table

variable {s0 s s' : Machine} {original pgd buffer i n b : ℕ} {T F : ℕ → ℕ} {rest : List ℕ}

theorem cloneEntry_fold (hok : CloneOk s0 original)
    (h : CloneInv s0 original pgd buffer (i + 1) (i * 1024) T F s) (hi : i < 768)
    (h0 : pdeAt s0.mem (addrToPhys original) i ≠ 0) : ∀ k ≤ 1024, ∃ F' s',
    (List.range k).foldlM (cloneEntry original pgd buffer (addrToVirt s0.cr3) (T i) i) s = some s' ∧
      CloneInv s0 original pgd buffer (i + 1) (i * 1024 + k) T F' s' := by
  intro k
  induction k with
  | zero =>
    intro _
    rw [Nat.add_zero (i * 1024)]
    exact ⟨F, s, rfl, h⟩
  | succ k ih =>
    intro hk
    obtain ⟨F', s', hfold, hinv⟩ := ih (by omega)
    obtain ⟨F'', s'', hstep, hinv'⟩ := cloneEntry_spec hok hinv (by omega) hi (by omega) h0
    refine ⟨F'', s'', ?_, hinv'⟩
    rw [foldlM_range_succ, hfold, Option.bind_some, hstep]

theorem CloneInv.skip_pages (h : CloneInv s0 original pgd buffer i (i * 1024) T F s) (hi : i < 768)
    (h0 : pdeAt s0.mem (addrToPhys original) i = 0) : ∀ k ≤ 1024,
    CloneInv s0 original pgd buffer i (i * 1024 + k) T F s := by
  intro k
  induction k with
  | zero => exact fun _ => by rw [Nat.add_zero]; exact h
  | succ k ih =>
    intro hk
    rw [← Nat.add_assoc]
    refine (ih (by omega)).skip ?_ (entryAt_of_pde ?_)
    · simp only [USER_END]
      omega
    · rw [(clone_index (by omega)).1]
      exact h0

theorem CloneInv.skip_table (h : CloneInv s0 original pgd buffer i n T F s) (hi : i < 768)
    (h0 : pdeAt s0.mem (addrToPhys original) i = 0) :
    CloneInv s0 original pgd buffer (i + 1) n T F s := by
  have hlt : ∀ j < i + 1, pdeAt s0.mem (addrToPhys original) j ≠ 0 → j < i := by
    intro j hj hj0
    have : j ≠ i := fun hji => hj0 (hji ▸ h0)
    omega
  refine { h with pde := ?_, tables := ?_, tables_inj := ?_, entry := ?_, heap := ?_ }
  · intro j hj
    rw [h.pde j hj]
    exact if_congr ⟨fun hc => ⟨by omega, hc.2⟩, fun hc => ⟨hlt j hc.1 hc.2, hc.2⟩⟩ rfl rfl
  · exact fun j hj hj0 => h.tables j (hlt j hj hj0) hj0
  · exact fun j hj k hk hj0 hk0 => h.tables_inj j (hlt j hj hj0) k (hlt k hk hk0) hj0 hk0
  · exact fun p hp hp0 => h.entry p (hlt _ hp hp0) hp0
  · have := h.heap
    rwa [remaining_neg hi (by simp [h0])] at this

/-- The head of one round of the outer loop: an empty table `b` in the new directory. -/
structure TableStep (s0 s s' : Machine) (original pgd i b : ℕ) : Prop where
  dir : i < 768
  table : pdeAt s0.mem (addrToPhys original) i ≠ 0
  mem : s'.mem = withTable s.mem pgd i b (getbit (pdeAt s0.mem (addrToPhys original) i) 1)
    (getbit (pdeAt s0.mem (addrToPhys original) i) 2)
  pool : s.pool = b :: s'.pool
  pmm : s'.pmmBitmap = s.pmmBitmap
  cr3 : s'.cr3 = s.cr3
  current : s'.currentPgd = s.currentPgd

theorem TableStep.block (hst : TableStep s0 s s' original pgd i b)
    (h : CloneInv s0 original pgd buffer i n T F s) : b ∈ s0.pool ∧ b ≠ pgd ∧ b ≠ buffer :=
  h.pool b (by rw [hst.pool]; exact List.mem_cons_self)

theorem TableStep.same (hst : TableStep s0 s s' original pgd i b) (hok : CloneOk s0 original)
    (h : CloneInv s0 original pgd buffer i n T F s) {x : ℕ} (hx : x % 4096 = 0)
    (hxp : addrToPhys pgd ≠ x) (hxb : addrToPhys b ≠ x) : SameOn s.mem s'.mem x 4096 := by
  have hi := hst.dir
  rw [hst.mem]
  exact withTable_page (hok.pool_block _ h.blocks.1) (hok.pool_block _ (hst.block h).1) (by omega)
    hx hxp hxb

theorem TableStep.table_ne (hst : TableStep s0 s s' original pgd i b)
    (h : CloneInv s0 original pgd buffer i n T F s) {j : ℕ} (hj : j < i)
    (hj0 : pdeAt s0.mem (addrToPhys original) j ≠ 0) : T j ≠ b := by
  intro he
  apply (h.tables j hj hj0).2.2.2
  rw [he, hst.pool]
  exact List.mem_cons_self

theorem TableStep.pde (hst : TableStep s0 s s' original pgd i b) (hok : CloneOk s0 original)
    (h : CloneInv s0 original pgd buffer i n T F s) {j : ℕ} (hj : j < 1024) :
    pdeAt s'.mem (addrToPhys pgd) j =
      if j < i + 1 ∧ pdeAt s0.mem (addrToPhys original) j ≠ 0 then
        makePde (addrToPhys (Function.update T i b j))
          (getbit (pdeAt s0.mem (addrToPhys original) j) 1)
          (getbit (pdeAt s0.mem (addrToPhys original) j) 2)
      else pdeAt s0.mem (addrToPhys original) j := by
  obtain ⟨hb, hbp, -⟩ := hst.block h
  rw [hst.mem, pdeAt_withTable (hok.pool_block _ h.blocks.1) (hok.pool_block _ hb)
    (hok.phys_ne hb h.blocks.1 hbp) hj]
  by_cases hji : j = i
  · subst hji
    rw [if_pos rfl, if_pos ⟨by omega, hst.table⟩, Function.update_self]
  · rw [if_neg hji, h.pde j hj, Function.update_of_ne hji]
    exact if_congr ⟨fun hc => ⟨by omega, hc.2⟩, fun hc => ⟨by omega, hc.2⟩⟩ rfl rfl

theorem TableStep.entry (hst : TableStep s0 s s' original pgd i b) (hok : CloneOk s0 original)
    (h : CloneInv s0 original pgd buffer i (i * 1024) T F s) {p : ℕ} (hp : p / 1024 < i + 1)
    (hp0 : pdeAt s0.mem (addrToPhys original) (p / 1024) ≠ 0) :
    load32 s'.mem (addrToPhys (Function.update T i b (p / 1024)) + 4 * (p % 1024)) =
      if p < i * 1024 ∧ entryAt s0.mem (addrToPhys original) p ≠ 0 then
        makePte (F p * 4096) (getbit (entryAt s0.mem (addrToPhys original) p) 1)
          (getbit (entryAt s0.mem (addrToPhys original) p) 2)
      else 0 := by
  obtain ⟨hb, hbp, -⟩ := hst.block h
  have hdir := hst.dir
  by_cases hpi : p / 1024 = i
  · rw [hpi, Function.update_self, if_neg (by omega), hst.mem]
    exact load_withTable_new (hok.pool_block _ h.blocks.1) (hok.pool_block _ hb) (by omega)
      (hok.phys_ne hb h.blocks.1 hbp) (by omega)
  · have hlt : p / 1024 < i := by omega
    obtain ⟨hT, hTp, -, -⟩ := h.tables _ hlt hp0
    have hsame := hst.same hok h (hok.pool_block _ hT).phys.2.1
      (hok.phys_ne h.blocks.1 hT (Ne.symm hTp))
      (hok.phys_ne hb hT (hst.table_ne h hlt hp0).symm)
    rw [Function.update_of_ne hpi, hsame.load32 (by omega), h.entry p hlt hp0]

theorem TableStep.inv (hst : TableStep s0 s s' original pgd i b) (hok : CloneOk s0 original)
    (h : CloneInv s0 original pgd buffer i (i * 1024) T F s) :
    CloneInv s0 original pgd buffer (i + 1) (i * 1024) (Function.update T i b) F s' := by
  obtain ⟨hb, hbp, hbb⟩ := hst.block h
  have hnodup := h.nodup
  rw [hst.pool, List.nodup_cons] at hnodup
  have hsub : ∀ c ∈ s'.pool, c ∈ s.pool := fun c hc => by
    rw [hst.pool]
    exact List.mem_cons_of_mem _ hc
  refine {
    blocks := h.blocks
    old := fun x hx => (h.old x hx).trans
      (hst.same hok h hx.1 (hx.2.1 _ h.blocks.1) (hx.2.1 _ hb))
    pde := fun j hj => hst.pde hok h hj
    tables := fun j hj hj0 => ?_
    tables_inj := fun j hj k hk hj0 hk0 hjk => ?_
    entry := fun p hp hp0 => hst.entry hok h hp hp0
    frames := fun p hp hp0 => by rw [hst.pmm]; exact h.frames p hp hp0
    frames_inj := h.frames_inj
    content := fun p hp hp0 k hk => ?_
    size := by rw [hst.pmm]; exact h.size
    bits := by rw [hst.pmm]; exact h.bits
    free := by rw [hst.pmm]; exact h.free
    pool := fun c hc => h.pool c (hsub c hc)
    nodup := hnodup.2
    heap := ?_
    cr3 := hst.cr3.trans h.cr3
    current := by rw [hst.current]; exact h.current }
  · by_cases hji : j = i
    · rw [hji, Function.update_self]
      exact ⟨hb, hbp, hbb, hnodup.1⟩
    · rw [Function.update_of_ne hji]
      obtain ⟨h1, h2, h3, h4⟩ := h.tables j (by omega) hj0
      exact ⟨h1, h2, h3, fun hc => h4 (hsub _ hc)⟩
  · by_cases hji : j = i
    · rw [hji, Function.update_self, Function.update_of_ne (fun hki => hjk (hji.trans hki.symm))]
      exact (hst.table_ne h (by omega) hk0).symm
    · rw [Function.update_of_ne hji]
      by_cases hki : k = i
      · rw [hki, Function.update_self]
        exact hst.table_ne h (by omega) hj0
      · rw [Function.update_of_ne hki]
        exact h.tables_inj j (by omega) k (by omega) hj0 hk0 hjk
  · obtain ⟨hlt, hb0, -⟩ := h.frames p hp hp0
    have hfresh := (hok.frame_fresh _ hlt hb0).2
    rw [hst.same hok h (Nat.mul_mod_left _ _) (hfresh _ h.blocks.1).symm (hfresh _ hb).symm k hk]
    exact h.content p hp hp0 k hk
  · have hrem := h.heap
    rw [remaining_pos hst.dir hst.table, hst.pool, List.length_cons] at hrem
    omega

theorem clone_kernel_half (hi : i < 1024) : u32 (i * 1024 * 4096) ≥ VIRT_BASE ↔ 768 ≤ i := by
  simp only [u32, VIRT_BASE]
  omega

theorem cloneTable_spec (hok : CloneOk s0 original)
    (h : CloneInv s0 original pgd buffer i (i * 1024) T F s) (hi : i < 768) :
    ∃ T' F' s', cloneTable original pgd buffer (addrToVirt s0.cr3) s i = some s' ∧
      CloneInv s0 original pgd buffer (i + 1) ((i + 1) * 1024) T' F' s' := by
  have hdir : i < 1024 := hi.trans (by norm_num)
  have hkernel : ¬ u32 (i * 1024 * 4096) ≥ VIRT_BASE := by
    rw [clone_kernel_half hdir, not_le]
    exact hi
  have hload : kload s (original + 4 * i) = pdeAt s0.mem (addrToPhys original) i := by
    rw [kload_pde hok.block hdir, h.pde_original hok hdir]
  rw [Nat.succ_mul]
  by_cases h0 : pdeAt s0.mem (addrToPhys original) i = 0
  · refine ⟨T, F, s, ?_, (h.skip_pages hi h0 1024 le_rfl).skip_table hi h0⟩
    unfold cloneTable
    dsimp only
    rw [hload, if_pos (Or.inl h0)]
  · obtain ⟨b, rest, hpool⟩ : ∃ b rest, s.pool = b :: rest := by
      have hrem := h.heap
      rw [remaining_pos hi h0] at hrem
      exact List.exists_cons_of_length_pos (by omega)
    have hb := (h.pool b (by rw [hpool]; exact List.mem_cons_self)).1
    have hblock := hok.pool_block _ hb
    have hne : b ≠ 0 := by
      have := hblock.above
      omega
    have hpgd : addrToPhys (pgd + 4 * i) = addrToPhys pgd + 4 * i :=
      (hok.pool_block _ h.blocks.1).phys_add (by omega)
    have hst : TableStep s0 s { s with
        mem := withTable s.mem pgd i b (getbit (pdeAt s0.mem (addrToPhys original) i) 1)
          (getbit (pdeAt s0.mem (addrToPhys original) i) 2)
        pool := rest } original pgd i b :=
      ⟨hi, h0, by dsimp only, hpool, by dsimp only, by dsimp only, by dsimp only⟩
    obtain ⟨F', s', hfold, hinv⟩ := cloneEntry_fold hok (hst.inv hok h) hi h0 1024 le_rfl
    rw [Function.update_self] at hfold
    refine ⟨_, F', s', ?_, hinv⟩
    rw [← hfold]
    unfold cloneTable kmallocPage kstore kmemset0
    rw [hpool]
    dsimp only
    rw [hload, if_neg (not_or.2 ⟨h0, hkernel⟩), if_neg hne, hpgd]
    unfold withTable
    dsimp only

theorem cloneTable_kernel (hi : i < 1024) (h : 768 ≤ i) {saved : ℕ} :
    cloneTable original pgd buffer saved s i = some s := by
  unfold cloneTable
  dsimp only
  rw [if_pos (Or.inr ((clone_kernel_half hi).2 h))]

theorem cloneTable_fold (hok : CloneOk s0 original)
    (h : CloneInv s0 original pgd buffer 0 0 T F s) : ∀ k ≤ 1024, ∃ T' F' s',
    (List.range k).foldlM (cloneTable original pgd buffer (addrToVirt s0.cr3)) s = some s' ∧
      CloneInv s0 original pgd buffer (min k 768) (min k 768 * 1024) T' F' s' := by
  intro k
  induction k with
  | zero =>
    intro _
    rw [Nat.zero_min, Nat.zero_mul]
    exact ⟨T, F, s, rfl, h⟩
  | succ k ih =>
    intro hk
    obtain ⟨T', F', s', hfold, hinv⟩ := ih (by omega)
    rw [foldlM_range_succ, hfold, Option.bind_some]
    by_cases hlt : k < 768
    · rw [Nat.min_eq_left (by omega)] at hinv
      rw [Nat.min_eq_left (by omega)]
      exact cloneTable_spec hok hinv hlt
    · rw [Nat.min_eq_right (by omega)] at hinv
      rw [Nat.min_eq_right (by omega), cloneTable_kernel (by omega) (by omega)]
      exact ⟨T', F', s', rfl, hinv⟩

end Table

section Whole

variable {s s' : Machine} {original pgd buffer : ℕ} {rest : List ℕ} {T F : ℕ → ℕ}

theorem load32_shift (m : Mem) (a k : ℕ) : load32 (fun x => m (a + x)) k = load32 m (a + k) := by
  unfold load32
  rfl

theorem cloneInv_init (hok : CloneOk s original) (hpool : s.pool = pgd :: buffer :: s'.pool)
    (hmem : s'.mem = blit s.mem (addrToPhys pgd) (fun k => s.mem (addrToPhys original + k)) 4096)
    (hpmm : s'.pmmBitmap = s.pmmBitmap) (hcr3 : s'.cr3 = s.cr3)
    (hcur : s'.currentPgd = s.currentPgd) : CloneInv s original pgd buffer 0 0 T F s' := by
  have hnodup := List.Nodup.of_map _ hok.pool_nodup
  rw [hpool, List.nodup_cons, List.nodup_cons, List.mem_cons, not_or] at hnodup
  obtain ⟨⟨hpb, hpr⟩, hbr, hrest⟩ := hnodup
  have hsub : ∀ c, c = pgd ∨ c = buffer ∨ c ∈ s'.pool → c ∈ s.pool := fun c hc => by
    rw [hpool]
    simpa using hc
  have hpgd := hsub pgd (Or.inl rfl)
  refine {
    blocks := ⟨hpgd, hsub buffer (Or.inr (Or.inl rfl)), hpb⟩
    old := fun x hx => ?_
    pde := fun i hi => ?_
    tables := fun i hi => absurd hi (Nat.not_lt_zero i)
    tables_inj := fun i hi => absurd hi (Nat.not_lt_zero i)
    entry := fun p hp => absurd hp (Nat.not_lt_zero (p / 1024))
    frames := fun p hp => absurd hp (Nat.not_lt_zero p)
    frames_inj := fun p hp => absurd hp (Nat.not_lt_zero p)
    content := fun p hp => absurd hp (Nat.not_lt_zero p)
    size := by rw [hpmm]
    bits := fun f hf => by rw [← hpmm]; exact hf
    free := by rw [hpmm]; exact hok.frames_enough
    pool := fun c hc => ⟨hsub c (Or.inr (Or.inr hc)), fun he => hpr (he ▸ hc),
      fun he => hbr (he ▸ hc)⟩
    nodup := hrest
    heap := ?_
    cr3 := hcr3
    current := Or.inl hcur }
  · rw [hmem]
    exact blit_page (hok.pool_block _ hpgd).phys.2.1 hx.1 (hx.2.1 _ hpgd)
  · rw [if_neg (by omega), hmem, pdeAt, load32_blit_inside (by omega), load32_shift, pdeAt]
  · have hlen := hok.heap_enough
    rw [hpool, List.length_cons, List.length_cons] at hlen
    omega

theorem kmallocPage_cons (b : ℕ) (rest : List ℕ) (h : s.pool = b :: rest) :
    kmallocPage s = (b, { s with pool := rest }) := by
  unfold kmallocPage
  rw [h]

theorem dupPgd_cons {b : ℕ} (h : s.pool = b :: rest) (hb : b ≠ 0) :
    dupPgd s original = some (b, { s with
      mem := blit s.mem (addrToPhys b) (fun k => s.mem (addrToPhys original + k)) 4096
      pool := rest }) := by
  unfold dupPgd kmemcpy
  rw [kmallocPage_cons _ _ h]
  dsimp only
  rw [if_neg hb]

theorem clonePgd_spec (hok : CloneOk s original) :
    ∃ pgd buffer T F s1, CloneInv s original pgd buffer 768 USER_END T F s1 ∧
      clonePgd s original = some (pgd, { s1 with pool := buffer :: s1.pool }) := by
  obtain ⟨pgd, buffer, rest, hpool⟩ : ∃ pgd buffer rest, s.pool = pgd :: buffer :: rest := by
    have hlen := hok.heap_enough
    match hp : s.pool with
    | [] => rw [hp, List.length_nil] at hlen; omega
    | [_] => rw [hp, List.length_singleton] at hlen; omega
    | b :: c :: rest => exact ⟨b, c, rest, rfl⟩
  have hinit : CloneInv s original pgd buffer 0 0 id id { s with
      mem := blit s.mem (addrToPhys pgd) (fun k => s.mem (addrToPhys original + k)) 4096
      pool := rest } := cloneInv_init hok hpool (by dsimp only) (by dsimp only) (by dsimp only)
        (by dsimp only)
  obtain ⟨T, F, s1, hfold, hinv⟩ := cloneTable_fold hok hinit 1024 le_rfl
  rw [Nat.min_eq_right (by norm_num)] at hinv
  refine ⟨pgd, buffer, T, F, s1, hinv, ?_⟩
  have hne : ∀ c ∈ s.pool, c ≠ 0 := fun c hc => by
    have := (hok.pool_block c hc).above
    omega
  have hp0 := hne pgd hinv.blocks.1
  have hb0 := hne buffer hinv.blocks.2.1
  unfold clonePgd getCurrentPgd
  rw [dupPgd_cons hpool hp0, Option.bind_some]
  dsimp only
  rw [kmallocPage_cons buffer rest (by dsimp only)]
  dsimp only
  rw [hfold, Option.map_some, if_neg hb0]

/-- The clone `pgd` of `original`, `s` before the call and `s'` after it. -/
structure Cloned (s s' : Machine) (original pgd : ℕ) : Prop where
  pages : ∀ va < VIRT_BASE, pageEntry s' pgd va = 0 ↔ pageEntry s original va = 0
  flags : ∀ va < VIRT_BASE, pageEntry s original va ≠ 0 → ∀ bit, bit = 1 ∨ bit = 2 →
    (pageEntry s' pgd va).testBit bit = (pageEntry s original va).testBit bit ∧
    (kload s' (pgd + 4 * pdeIndex va)).testBit bit =
      (kload s (original + 4 * pdeIndex va)).testBit bit
  contents : ∀ va < VIRT_BASE, pageEntry s original va ≠ 0 → ∀ k < 4096,
    s'.mem (extractAddr (pageEntry s' pgd va) + k) =
      s.mem (extractAddr (pageEntry s original va) + k)
  fresh : ∀ va < VIRT_BASE, pageEntry s original va ≠ 0 →
    s.pmmBitmap.bit (extractAddr (pageEntry s' pgd va) / 4096) = false ∧
    s'.pmmBitmap.bit (extractAddr (pageEntry s' pgd va) / 4096) = true ∧
    ¬ InUse s.mem (addrToPhys original) (extractAddr (pageEntry s' pgd va))
  distinct : ∀ va < VIRT_BASE, ∀ va' < VIRT_BASE, pageEntry s original va ≠ 0 →
    pageEntry s original va' ≠ 0 → va / 4096 ≠ va' / 4096 →
    extractAddr (pageEntry s' pgd va) ≠ extractAddr (pageEntry s' pgd va')
  kernel : ∀ i, 768 ≤ i → i < 1024 → kload s' (pgd + 4 * i) = kload s (original + 4 * i)
  original_pgd : ∀ i < 1024, kload s' (original + 4 * i) = kload s (original + 4 * i)
  original_pages : ∀ va < VIRT_BASE, pageEntry s' original va = pageEntry s original va
  original_contents : ∀ va < VIRT_BASE, pageEntry s original va ≠ 0 → ∀ k < 4096,
    s'.mem (extractAddr (pageEntry s original va) + k) =
      s.mem (extractAddr (pageEntry s original va) + k)
  active : s'.cr3 = s.cr3 ∧
    (s.currentPgd = getCurrentPgd s → s'.currentPgd = s.currentPgd)

variable {s1 : Machine}

theorem CloneOk.window (hok : CloneOk s original) {i : ℕ} (hi : i < 768) :
    tableAt s.mem (addrToPhys original) i < 0x40000000 := by
  by_cases h0 : pdeAt s.mem (addrToPhys original) i = 0
  · rw [tableAt, h0]
    decide
  · exact (hok.tables i hi h0).2.2.2

theorem CloneInv.table_new (hok : CloneOk s original)
    (h : CloneInv s original pgd buffer 768 USER_END T F s1) {i : ℕ} (hi : i < 768) :
    tableAt s1.mem (addrToPhys pgd) i =
      if pdeAt s.mem (addrToPhys original) i = 0 then 0 else addrToPhys (T i) := by
  rw [tableAt, h.pde i (by omega)]
  by_cases h0 : pdeAt s.mem (addrToPhys original) i = 0
  · rw [if_neg (fun hc => hc.2 h0), if_pos h0, h0]
    rfl
  · rw [if_pos ⟨hi, h0⟩, if_neg h0, extract_block (hok.pool_block _ (h.tables i hi h0).1)]

theorem CloneInv.entry_new (hok : CloneOk s original)
    (h : CloneInv s original pgd buffer 768 USER_END T F s1) {p : ℕ} (hp : p < USER_END) :
    entryAt s1.mem (addrToPhys pgd) p =
      if entryAt s.mem (addrToPhys original) p = 0 then 0
      else makePte (F p * 4096) (getbit (entryAt s.mem (addrToPhys original) p) 1)
        (getbit (entryAt s.mem (addrToPhys original) p) 2) := by
  have hi : p / 1024 < 768 := by
    simp only [USER_END] at hp
    omega
  by_cases h0 : pdeAt s.mem (addrToPhys original) (p / 1024) = 0
  · rw [if_pos (entryAt_of_pde h0), entryAt, h.table_new hok hi, if_pos h0, if_pos rfl]
  · have hT := (hok.pool_block _ (h.tables _ hi h0).1).phys.2.2.1
    rw [entryAt, h.table_new hok hi, if_neg h0, if_neg hT, h.entry p hi h0]
    by_cases he : entryAt s.mem (addrToPhys original) p = 0
    · rw [if_neg (fun hc => hc.2 he), if_pos he]
    · rw [if_pos ⟨hp, he⟩, if_neg he]

theorem user_page {va : ℕ} (hva : va < VIRT_BASE) :
    va < 4294967296 ∧ va / 4096 < USER_END ∧ va / 4096 / 1024 < 768 := by
  simp only [VIRT_BASE, USER_END] at *
  omega

theorem CloneOk.pageEntry_eq (hok : CloneOk s original) {va : ℕ} (hva : va < VIRT_BASE) :
    pageEntry s original va = entryAt s.mem (addrToPhys original) (va / 4096) := by
  obtain ⟨h1, -, h3⟩ := user_page hva
  exact DepthOS.pageEntry_eq hok.block h1 (hok.window h3)

theorem CloneInv.pageEntry_eq (hok : CloneOk s original)
    (h : CloneInv s original pgd buffer 768 USER_END T F s1) (hmem : s'.mem = s1.mem) {va : ℕ}
    (hva : va < VIRT_BASE) :
    pageEntry s' pgd va =
      if pageEntry s original va = 0 then 0
      else makePte (F (va / 4096) * 4096) (getbit (pageEntry s original va) 1)
        (getbit (pageEntry s original va) 2) := by
  obtain ⟨h1, h2, h3⟩ := user_page hva
  rw [hok.pageEntry_eq hva, DepthOS.pageEntry_eq (hok.pool_block _ h.blocks.1) h1, hmem,
    h.entry_new hok h2]
  rw [hmem, h.table_new hok h3]
  split_ifs with h0
  · norm_num
  · exact (hok.pool_block _ (h.tables _ h3 h0).1).phys.2.2.2

theorem CloneInv.frame_eq (hok : CloneOk s original)
    (h : CloneInv s original pgd buffer 768 USER_END T F s1) (hmem : s'.mem = s1.mem) {va : ℕ}
    (hva : va < VIRT_BASE) (h0 : pageEntry s original va ≠ 0) :
    extractAddr (pageEntry s' pgd va) = F (va / 4096) * 4096 := by
  have hf := (h.frames _ (user_page hva).2.1 (by rw [← hok.pageEntry_eq hva]; exact h0)).1
  rw [h.pageEntry_eq hok hmem hva, if_neg h0, makePte, extract_frame]
  exact hf.trans_le hok.size_le

theorem CloneInv.entryAt_original (hok : CloneOk s original)
    (h : CloneInv s original pgd buffer 768 USER_END T F s1) {p : ℕ} (hp : p / 1024 < 768) :
    entryAt s1.mem (addrToPhys original) p = entryAt s.mem (addrToPhys original) p := by
  have hdir : p / 1024 < 1024 := hp.trans (by norm_num)
  by_cases h0 : pdeAt s.mem (addrToPhys original) (p / 1024) = 0
  · rw [entryAt_of_pde h0, entryAt_of_pde (by rw [h.pde_original hok hdir, h0])]
  · rw [entryAt, h.table_original hok hdir, entryAt,
      (h.old _ (hok.old_table hp h0)).load32 (by omega)]

theorem CloneInv.pde_flags (h : CloneInv s original pgd buffer 768 USER_END T F s1)
    {i bit : ℕ} (hi : i < 768) (hbit : bit = 1 ∨ bit = 2) :
    (pdeAt s1.mem (addrToPhys pgd) i).testBit bit =
      (pdeAt s.mem (addrToPhys original) i).testBit bit := by
  rw [h.pde i (by omega)]
  split_ifs
  · obtain ⟨-, hw, hu, -⟩ := makeEntry_flags (addrToPhys (T i))
      (getbit (pdeAt s.mem (addrToPhys original) i) 1)
      (getbit (pdeAt s.mem (addrToPhys original) i) 2)
    rcases hbit with rfl | rfl
    · exact hw
    · exact hu
  · rfl

theorem CloneInv.cloned (hok : CloneOk s original)
    (h : CloneInv s original pgd buffer 768 USER_END T F s1) (hmem : s'.mem = s1.mem)
    (hpmm : s'.pmmBitmap = s1.pmmBitmap) (hcr3 : s'.cr3 = s1.cr3)
    (hcur : s'.currentPgd = s1.currentPgd) : Cloned s s' original pgd := by
  have hpgd := hok.pool_block _ h.blocks.1
  have hent : ∀ {va}, va < VIRT_BASE → pageEntry s original va ≠ 0 →
      entryAt s.mem (addrToPhys original) (va / 4096) ≠ 0 := fun hva h0 => by
    rw [← hok.pageEntry_eq hva]
    exact h0
  refine {
    pages := fun va hva => ?_
    flags := fun va hva h0 bit hbit => ⟨?_, ?_⟩
    contents := fun va hva h0 k hk => ?_
    fresh := fun va hva h0 => ?_
    distinct := fun va hva va' hva' h0 h0' hne => ?_
    kernel := fun i h1 h2 => ?_
    original_pgd := fun i hi => ?_
    original_pages := fun va hva => ?_
    original_contents := fun va hva h0 k hk => ?_
    active := ⟨hcr3.trans h.cr3, fun hs => ?_⟩ }
  · rw [h.pageEntry_eq hok hmem hva]
    split_ifs with h0
    · exact iff_of_true rfl h0
    · exact iff_of_false (makeEntry_ne_zero _ _ _) h0
  · rw [h.pageEntry_eq hok hmem hva, if_neg h0]
    obtain ⟨-, hw, hu, -⟩ := makeEntry_flags (F (va / 4096) * 4096)
      (getbit (pageEntry s original va) 1) (getbit (pageEntry s original va) 2)
    rcases hbit with rfl | rfl
    · exact hw
    · exact hu
  · have hi := (user_page hva).2.2
    have hdir : va / 4096 / 1024 < 1024 := hi.trans (by norm_num)
    rw [pdeIndex_eq, kload_pde hpgd hdir, kload_pde hok.block hdir, hmem]
    exact h.pde_flags hi hbit
  · rw [h.frame_eq hok hmem hva h0, hmem, h.content _ (user_page hva).2.1 (hent hva h0) k hk,
      hok.pageEntry_eq hva]
  · rw [h.frame_eq hok hmem hva h0, Nat.mul_div_cancel _ (by norm_num), hpmm]
    obtain ⟨hlt, hb0, hb⟩ := h.frames _ (user_page hva).2.1 (hent hva h0)
    exact ⟨hb0, hb, (hok.frame_fresh _ hlt hb0).1⟩
  · rw [h.frame_eq hok hmem hva h0, h.frame_eq hok hmem hva' h0']
    intro he
    exact h.frames_inj _ (user_page hva).2.1 _ (user_page hva').2.1 (hent hva h0) (hent hva' h0')
      hne (Nat.eq_of_mul_eq_mul_right (by norm_num) he)
  · rw [kload_pde hpgd h2, kload_pde hok.block h2, hmem, h.pde i h2, if_neg (by omega)]
  · rw [kload_pde hok.block hi, kload_pde hok.block hi, hmem, h.pde_original hok hi]
  · obtain ⟨h1, -, h3⟩ := user_page hva
    have hdir : va / 4096 / 1024 < 1024 := h3.trans (by norm_num)
    rw [hok.pageEntry_eq hva, DepthOS.pageEntry_eq hok.block h1, hmem, h.entryAt_original hok h3]
    rw [hmem, h.table_original hok hdir]
    exact hok.window h3
  · rw [hok.pageEntry_eq hva, hmem]
    exact h.old _ (hok.old_frame (user_page hva).2.1 (hent hva h0)) k hk
  · rcases h.current with hc | hc
    · rw [hcur, hc]
    · rw [hcur, hc, hs, getCurrentPgd]

/-- `clone_pgd` returns an isolated copy of the address space. -/
theorem clone_pgd_isolated (hok : CloneOk s original) :
    ∃ pgd s', clonePgd s original = some (pgd, s') ∧ Cloned s s' original pgd := by
  obtain ⟨pgd, buffer, T, F, s1, hinv, hcall⟩ := clonePgd_spec hok
  exact ⟨pgd, _, hcall, hinv.cloned hok (by dsimp only) (by dsimp only) (by dsimp only)
    (by dsimp only)⟩

end Whole

/-- An address space with a single page, 0x400000, mapped to the frame at 0x100000;
the directory at 0x1000, its table at 0x2000. -/
def onePageMem : Mem :=
  store32 (store32 (fun _ => 0) (0x1000 + 4 * 1) (makePde 0x2000 true true)) (0x2000 + 4 * 0)
    (makePte 0x100000 true true)

def onePage : Machine where
  mem := onePageMem
  pmmBitmap := pmmInit 0x800000 0
  pool := [0xC0003000, 0xC0004000, 0xC0005000]
  kernelPgd := 0
  cr3 := 0x1000
  currentPgd := 0xC0001000
  pagingEnabled := true
  installs := []

theorem onePage_pde {i : ℕ} (hi : i < 1024) :
    pdeAt onePageMem 0x1000 i = if i = 1 then makePde 0x2000 true true else 0 := by
  rw [pdeAt, onePageMem, load32_store32_of_apart
    (apart_of_pages (by norm_num) (by norm_num) (by norm_num) (by norm_num) hi)]
  split_ifs with h
  · rw [h, load32_store32]
    exact Nat.mod_eq_of_lt (makeEntry_lt _ _ _)
  · rw [load32_store32_of_apart (apart_of_index (Ne.symm h))]
    rfl

theorem onePage_entry {p : ℕ} (hp : p < USER_END) :
    entryAt onePageMem 0x1000 p = if p = 1024 then makePte 0x100000 true true else 0 := by
  have hdir : p / 1024 < 1024 := by
    simp only [USER_END] at hp
    omega
  rw [entryAt, tableAt, onePage_pde hdir]
  by_cases h1 : p / 1024 = 1
  · rw [if_pos h1, show extractAddr (makePde 0x2000 true true) = 0x2000 by decide, if_neg (by decide),
      onePageMem]
    by_cases h2 : p % 1024 = 0
    · rw [h2, load32_store32, if_pos (by omega)]
      exact Nat.mod_eq_of_lt (makeEntry_lt _ _ _)
    · rw [if_neg (by omega), load32_store32_of_apart (apart_of_index (Ne.symm h2)),
        load32_store32_of_apart
          (apart_of_pages (by norm_num) (by norm_num) (by norm_num) (by norm_num) (by omega))]
      rfl
  · rw [if_neg h1, if_pos (by decide), if_neg (by omega)]

theorem onePage_inUse {a : ℕ} (h : InUse onePageMem 0x1000 a) :
    a = 0x1000 ∨ a = 0x2000 ∨ a = 0x100000 := by
  rcases h with h | ⟨i, hi, h0, rfl⟩ | ⟨p, hp, h0, rfl⟩
  · exact Or.inl h
  · have hpde := onePage_pde (i := i) (by omega)
    rw [hpde] at h0
    rw [tableAt, hpde]
    split_ifs at h0 ⊢ with h1
    · exact Or.inr (Or.inl (by decide))
    · exact absurd rfl h0
  · rw [onePage_entry hp] at h0 ⊢
    split_ifs at h0 ⊢ with h1
    · exact Or.inr (Or.inr (by decide))
    · exact absurd rfl h0

theorem onePage_free : (pmmInit 0x800000 0).size = 2048 ∧
    (∀ f < 2048, (pmmInit 0x800000 0).bit f = false → 1024 ≤ f) ∧
    (pmmInit 0x800000 0).bit 1024 = false := by
  obtain ⟨hsize, hbit⟩ := pmmInit_spec 0x800000 0 (by norm_num)
  rw [show pmmFrames 0x800000 = 2048 by decide] at hsize hbit
  refine ⟨hsize, fun f hf hb => ?_, ?_⟩
  · rw [hbit f, decide_eq_false_iff_not] at hb
    omega
  · rw [hbit 1024, decide_eq_false_iff_not]
    omega

theorem remaining_single {P : ℕ → Prop} [DecidablePred P] {N a : ℕ}
    (h : ∀ n < N, P n → n = a) : remaining P N 0 ≤ 1 := by
  refine Finset.card_le_one.2 fun x hx y hy => ?_
  simp only [Finset.mem_filter, Finset.mem_Ico] at hx hy
  rw [h x hx.1.2 hx.2, h y hy.1.2 hy.2]

theorem onePage_ok : CloneOk onePage 0xC0001000 := by
  have hO : addrToPhys 0xC0001000 = 0x1000 := by decide
  obtain ⟨hsize, hfree, hfirst⟩ := onePage_free
  have hpde : ∀ i < 768, pdeAt onePageMem 0x1000 i ≠ 0 → i = 1 := fun i hi h0 => by
    by_contra hne
    exact h0 (by rw [onePage_pde (by omega), if_neg hne])
  have hent : ∀ p < USER_END, entryAt onePageMem 0x1000 p ≠ 0 → p = 1024 := fun p hp h0 => by
    by_contra hne
    exact h0 (by rw [onePage_entry hp, if_neg hne])
  have hblock : ∀ b ∈ [0xC0003000, 0xC0004000, 0xC0005000], KBlock b ∧
      (addrToPhys b = 0x3000 ∨ addrToPhys b = 0x4000 ∨ addrToPhys b = 0x5000) := by
    intro b hb
    simp only [List.mem_cons, List.not_mem_nil, or_false] at hb
    rcases hb with rfl | rfl | rfl <;> exact ⟨⟨by decide, by decide, by decide⟩, by decide⟩
  constructor
  · exact ⟨by decide, by decide, by decide⟩
  all_goals simp only [hO, onePage]
  · intro i hi h0
    rw [hpde i hi h0, tableAt, onePage_pde (by norm_num)]
    exact ⟨by decide, by decide, by decide, by decide⟩
  · intro p hp h0
    rw [hent p hp h0, onePage_entry (by norm_num)]
    decide
  · exact fun b hb => (hblock b hb).1
  · decide
  · intro b hb hu
    have h1 := (hblock b hb).2
    have h2 := onePage_inUse hu
    omega
  · rw [hsize]
    norm_num
  · intro f hf hb
    rw [hsize] at hf
    have hge := hfree f hf hb
    refine ⟨fun hu => ?_, fun b hb' he => ?_⟩
    · have h2 := onePage_inUse hu
      omega
    · have h1 := (hblock b hb').2
      omega
  · exact Nat.add_le_add_right (remaining_single hpde) 2
  · refine (remaining_single hent).trans (Finset.card_pos.2 ⟨1024, ?_⟩)
    rw [Finset.mem_filter, Finset.mem_range, hsize]
    exact ⟨by norm_num, hfirst⟩
  · norm_num

/-- The page of `onePage` is mapped, and the clone has it. -/
theorem clone_pgd_isolated_one :
    pageEntry onePage 0xC0001000 0x400000 ≠ 0 ∧ ∃ pgd s',
      clonePgd onePage 0xC0001000 = some (pgd, s') ∧ Cloned onePage s' 0xC0001000 pgd := by
  refine ⟨?_, clone_pgd_isolated onePage_ok⟩
  rw [onePage_ok.pageEntry_eq (by decide)]
  exact fun h => makeEntry_ne_zero _ _ _ ((onePage_entry (by decide)).symm.trans h)

end DepthOS
