import DepthOS.Proofs.MmapFail
import DepthOS.Proofs.PagesAdded
import DepthOS.Proofs.Fault
import DepthOS.Spec.NullStore

/-! Whether an anonymous mapping that `do_mmap` has accepted can be faulted in. It accepts any
page-aligned range below the kernel, but `map_page` never makes the first page table: a fault
in a mapping that starts in the first 4 MiB ends in a store through NULL. -/

namespace DepthOS

open Lib

section Rounds

variable {st : FaultState} {d vaddr pstart n hi : ℕ} {user : Bool}

theorem mapPage_null {s : Machine} {va phys : ℕ} (h : MapPageNull s d va user) :
    mapPage s d va phys user = none := by
  obtain ⟨s', hs', h0⟩ := h
  simp [mapPage, hs', h0]

theorem mapRound_eq (st : FaultState) (i : ℕ) :
    mapRound d vaddr pstart user st i =
      match mapPage st.machine d (u32 (vaddr + u32 (i * PAGE_SIZE)))
        (u32 (pstart + u32 (i * PAGE_SIZE))) user with
      | none => (st, false)
      | some s => (⟨s, st.log ++ [(d, u32 (vaddr + u32 (i * PAGE_SIZE)) / PAGE_SIZE)]⟩, true) := by
  have hone : mapFixedOne d vaddr pstart user true st.machine i =
      mapPage st.machine d (u32 (vaddr + u32 (i * PAGE_SIZE)))
        (u32 (pstart + u32 (i * PAGE_SIZE))) user := by
    simp [mapFixedOne]
  unfold mapRound
  cases hm : mapPage st.machine d (u32 (vaddr + u32 (i * PAGE_SIZE)))
      (u32 (pstart + u32 (i * PAGE_SIZE))) user with
  | none => simp only [hone, hm]
  | some s => simp only [hone, hm]

theorem not_null_of_returns (h : (faultMapFixed st d vaddr pstart n user).2 = true) :
    ¬ FaultMapFixedNull st d vaddr pstart n user := by
  intro hnull
  have hstop : (faultMapFixed st d vaddr pstart n user).2 = false := by
    apply hnull.stops
    intro st i hi
    rw [mapRound_eq, mapPage_null hi]
  rw [h] at hstop
  exact Bool.true_eq_false_eq_False hstop

theorem mapRound_added {i : ℕ} (pstart : ℕ) (user : Bool) (h : PgdInv st.machine d)
    (hp : vaddr / 4096 + i < USER_END)
    (hcan : ∀ va, va / 4096 = vaddr / 4096 + i → CanMap st.machine d va) :
    (mapRound d (pgRndDown vaddr) pstart user st i).2 = true ∧
      PageAdded st.machine (mapRound d (pgRndDown vaddr) pstart user st i).1.machine d
        (vaddr / 4096 + i) := by
  have hva := fixed_page hp
  rw [mapRound_eq]
  obtain ⟨s', hs'⟩ := Option.isSome_iff_exists.1 ((mapPage_canMap h
    (u32 (pgRndDown vaddr + u32 (i * PAGE_SIZE))) (by rw [hva]; exact hp)
    (u32 (pstart + u32 (i * PAGE_SIZE))) user).2 (hcan _ hva))
  have hadd := mapPage_added h (by rw [hva]; exact hp) hs'
  rw [hva] at hadd
  rw [hs']
  exact ⟨rfl, hadd⟩

theorem faultMapFixed_supplied (h : PgdInv st.machine d)
    (hlow : vaddr / 4096 / 1024 = 0 → tableAt st.machine.mem (addrToPhys d) 0 ≠ 0)
    (hle : hi ≤ 1024)
    (hs : missingTables st.machine d hi (vaddr / 4096 / 1024) ≤ st.machine.pool.length)
    (hp : ∀ i < n, vaddr / 4096 + i < USER_END ∧ (vaddr / 4096 + i) / 1024 < hi) :
    (faultMapFixed st d vaddr pstart n user).2 = true := by
  refine (runLoop_completes (I := fun i (st' : FaultState) =>
    PagesAdded st.machine st'.machine d (vaddr / 4096) i hi) (PagesAdded.init h) ?_).1
  intro i hi' st' hst
  obtain ⟨hu, hidx⟩ := hp i hi'
  obtain ⟨hr, hadd⟩ := mapRound_added pstart user hst.inv hu
    fun va hva => hst.canMap hidx hs (fun h0 => hlow (by omega)) hva
  exact ⟨hr, hst.step hidx hle hadd⟩

theorem faultMapFixed_null (st : FaultState) (h : PgdInv st.machine d) (hn : 0 < n)
    (hv : vaddr / 4096 / 1024 = 0) (ht : tableAt st.machine.mem (addrToPhys d) 0 = 0) :
    FaultMapFixedNull st d vaddr pstart n user := by
  have hva : u32 (pgRndDown vaddr + u32 (0 * PAGE_SIZE)) = vaddr / 4096 * 4096 := by
    rw [pgRndDown_eq]
    simp only [u32, PAGE_SIZE]
    omega
  have hpage : vaddr / 4096 * 4096 / 4096 = vaddr / 4096 := Nat.mul_div_cancel _ (by norm_num)
  refine ⟨0, hn, rfl, ?_⟩
  change MapPageNull st.machine d (u32 (pgRndDown vaddr + u32 (0 * PAGE_SIZE))) user
  rw [hva]
  refine ⟨st.machine, ?_, ?_⟩
  · unfold mapPageTable
    rw [pdeIndex_eq, hpage, hv]
    simp
  · apply (getPage_spec h.block (by omega) (h.window _ (by omega))).1.2
    rw [hpage, hv]
    exact ht

theorem faultMap_null (st : FaultState) (h : PgdInv st.machine d) (hn : 0 < n)
    (hv : vaddr / 4096 / 1024 = 0) (ht : tableAt st.machine.mem (addrToPhys d) 0 = 0) :
    FaultMapNull st d vaddr n user := by
  have hinv : PgdInv { st.machine with pmmBitmap := (pmmAlloc st.machine.pmmBitmap n).2 } d :=
    h.congr rfl fun _ _ => rfl
  have hdown : pgRndDown vaddr / 4096 / 1024 = 0 := by
    rw [pgRndDown_eq]
    omega
  exact faultMapFixed_null ⟨_, st.log⟩ hinv hn hdown ht

end Rounds

section Zero

variable {s : Machine} {pgds : List ℕ} {d tries : ℕ} {st : FaultState} {a : VmArea} {user : Bool}
  {nested : FaultState → ℕ → FaultOut} {null : FaultState → ℕ → Prop}

theorem writePage_faults {va : ℕ} (h : WritePageNull nested null va tries st) :
    translate st.machine.mem st.machine.cr3 va = none := by
  cases tries with
  | zero => exact h.elim
  | succ tries => exact h.1

/-- The `memset` over pages that are all mapped meets no fault. -/
theorem zeroArea_safe (hd : d ∈ pgds) (hcr3 : s.cr3 = addrToPhys d) (hal : a.addr % 4096 = 0)
    (hend : a.addr / 4096 + a.nPages ≤ USER_END) (hclear : AllocClear s pgds a.nPages)
    (h : Kept s pgds d st)
    (hmap : MappedPages st d (a.addr / 4096) (pmmAlloc s.pmmBitmap a.nPages).1 a.nPages user) :
    ¬ ZeroAreaNull nested null tries a st := by
  have hcount : u32 (PAGE_SIZE * a.nPages) / PAGE_SIZE = a.nPages := by
    simp only [u32, PAGE_SIZE, USER_END] at *
    omega
  unfold ZeroAreaNull
  rw [hcount]
  apply not_reaches (I := fun _ st => Kept s pgds d st ∧ MappedPages st d (a.addr / 4096)
    (pmmAlloc s.pmmBitmap a.nPages).1 a.nPages user)
    (P := fun i st => WritePageNull nested null (u32 (a.addr + i * PAGE_SIZE)) tries st) ⟨h, hmap⟩
  · intro i hi st' hI _
    exact (zeroRound_spec nested tries hd hcr3 hal hend hclear hI.1 hI.2 hi).1
  · intro i hi st' hI hnull
    have hva : u32 (a.addr + i * PAGE_SIZE) = (a.addr / 4096 + i) * 4096 := by
      simp only [u32, PAGE_SIZE, USER_END] at *
      omega
    have hfault := writePage_faults hnull
    rw [hva, translate_mapped hI.1 hd hcr3 (by omega) (hI.2 i hi)] at hfault
    simp at hfault

end Zero

section Anon

variable {env : FaultEnv} {pgds : List ℕ} {M : Machine} {a : VmArea} {cr2 : ℕ}

/-- Memory for the fault: as many frames in a row as the area has pages, and a block of the
heap for each page table that is missing. -/
structure EnoughMemory (M : Machine) (pgd : ℕ) (a : VmArea) : Prop where
  frames : HasRun M.pmmBitmap a.nPages false
  tables : missingTables M pgd (pdeIndex (a.addr + a.nPages * PAGE_SIZE - 1) + 1)
    (pdeIndex a.addr) ≤ M.pool.length

/-- No run of free frames is as long as the address space, since a directory lies in one. -/
theorem run_short {n : ℕ} (h : SpacesInv M pgds) (hf : FramesClear M pgds) {d : ℕ} (hd : d ∈ pgds)
    (hrun : HasRun M.pmmBitmap n false) : n < 1048576 := by
  obtain ⟨r, hle, hfree⟩ := hrun
  have hsize := hf.size_le
  by_contra hge
  obtain ⟨-, hal, -, hlt⟩ := (h.dir d hd).block.phys
  have hframe : addrToPhys d / 4096 < 1048576 := by omega
  have hclear := hf.clear (addrToPhys d / 4096) (by omega) (hfree _ (by omega) (by omega))
  apply hclear.table
  refine ⟨d, hd, Or.inl ?_⟩
  omega

theorem anon_fits (h : SpacesInv M pgds) (hf : FramesClear M pgds) {d : ℕ} (hd : d ∈ pgds)
    (ha : AreaOk a) (hcov : CoversAddr a cr2) (hanon : a.flags &&& MAP_ANON ≠ 0)
    (hrun : HasRun M.pmmBitmap a.nPages false) : Fits a := by
  have hshort := run_short h hf hd hrun
  obtain ⟨-, -, -, hn⟩ := ha.anon hanon
  have hsize := ha.size_le
  have hpos : 0 < a.size := by
    by_contra h0
    obtain ⟨h1, h2⟩ := hcov
    rw [Nat.eq_zero_of_not_pos h0, Nat.add_zero] at h2
    have hle : u32 a.addr ≤ a.addr := Nat.mod_le _ _
    omega
  obtain ⟨hsmall, hlarge⟩ :=
    ceilDivInt_pages (n := a.size) (by simp only [VIRT_BASE] at hsize; omega)
  rw [← hn] at hsmall hlarge
  have hlt : a.size < 2147483648 := by
    by_contra hge
    have := hlarge (not_lt.1 hge)
    omega
  have hcount := hsmall hlt
  unfold Fits
  rw [pgRndUp_small (by omega), hcount]
  simp only [PAGE_SIZE]
  omega

theorem faultWalkNull_first (nested : FaultState → ℕ → FaultOut) (null : FaultState → ℕ → Prop)
    (tries : ℕ) (write : Bool) (st : FaultState) {l r : List ℕ} {x item fuel : ℕ}
    (hc : Chain (fun x => (env.mem.entries x).next) item (l ++ x :: r))
    (hx : CoversAddr (areaAt env.mem x) cr2) (hl : ∀ y ∈ l, ¬ CoversAddr (areaAt env.mem y) cr2) :
    FaultWalkNull env nested null tries false write st cr2 fuel item ↔
      l.length < fuel ∧ FaultAreaNull env nested null tries st cr2 (areaAt env.mem x) := by
  induction l generalizing item fuel with
  | nil =>
    obtain ⟨rfl, h0, -⟩ := hc
    cases fuel with
    | zero => simp [FaultWalkNull]
    | succ fuel =>
      unfold FaultWalkNull
      rw [if_neg h0, if_pos hx, if_pos rfl]
      simp
  | cons y l ih =>
    obtain ⟨rfl, h0, hc'⟩ := hc
    cases fuel with
    | zero => simp [FaultWalkNull]
    | succ fuel =>
      unfold FaultWalkNull
      rw [if_neg h0, if_neg (hl item (by simp)), ih hc' fun z hz => hl z (by simp [hz])]
      simp

theorem nullStore_first (write : Bool) (st : FaultState) (ha : FirstArea env.mem env.task cr2 a) :
    ∃ n, ∀ fuel, NullStore env (fuel + 1) false write st cr2 ↔
      n < fuel ∧ FaultAreaNull env (fun st va => vmaPagefaultHandler env fuel false true st va)
        (fun st va => NullStore env fuel false true st va) fuel st cr2 a := by
  obtain ⟨l, x, r, hc, rfl, hx, hl⟩ := ha
  exact ⟨l.length, fun fuel => faultWalkNull_first _ _ fuel write st hc hx hl⟩

variable (nested : FaultState → ℕ → FaultOut) (null : FaultState → ℕ → Prop) (tries : ℕ)

theorem faultAreaNull_anon (st : FaultState) (ha : AreaOk a) (hanon : a.flags &&& MAP_ANON ≠ 0) :
    FaultAreaNull env nested null tries st cr2 a ↔
      FaultMapNull st env.task.pgd a.addr a.nPages (!(env.task.pgd == st.machine.kernelPgd)) ∨
      FinishFaultNull nested null tries a
        (faultMap st env.task.pgd a.addr a.nPages (!(env.task.pgd == st.machine.kernelPgd))) := by
  obtain ⟨hphys, hops, hlim, -⟩ := ha.anon hanon
  unfold FaultAreaNull
  simp [hphys, hops, hlim]

theorem anonArea_safe (h : SpacesInv M pgds) (hf : FramesClear M pgds) (hd : env.task.pgd ∈ pgds)
    (hcr3 : M.cr3 = addrToPhys env.task.pgd) (ha : AreaOk a) (hanon : a.flags &&& MAP_ANON ≠ 0)
    (hfit : Fits a) (hen : EnoughMemory M env.task.pgd a)
    (hlow : a.addr / 4096 / 1024 = 0 → tableAt M.mem (addrToPhys env.task.pgd) 0 ≠ 0) :
    ¬ FaultAreaNull env nested null tries ⟨M, []⟩ cr2 a := by
  have hend := ha.pages_end hfit
  have hpos := hfit.1
  have hal := ha.aligned
  have hinit := (Kept.init h env.task.pgd).bitmap (pmmAlloc M.pmmBitmap a.nPages).2
  have htab := hen.tables
  rw [pdeIndex_eq, pdeIndex_eq] at htab
  have hdown : pgRndDown a.addr / 4096 = a.addr / 4096 := by
    rw [pgRndDown_eq, Nat.mul_div_cancel _ (by norm_num)]
  have hret : ∀ user, (faultMap ⟨M, []⟩ env.task.pgd a.addr a.nPages user).2 = true := by
    intro user
    refine faultMapFixed_supplied (hinit.inv.dir _ hd) (by rw [hdown]; exact hlow) ?_
      (by rw [hdown]; exact htab) ?_
    · simp only [USER_END, PAGE_SIZE] at *
      omega
    · intro i hi
      rw [hdown]
      simp only [USER_END, PAGE_SIZE] at *
      omega
  rw [faultAreaNull_anon nested null tries ⟨M, []⟩ ha hanon]
  generalize (!(env.task.pgd == (FaultState.mk M []).machine.kernelPgd)) = user
  rintro (hnull | ⟨-, -, hzero⟩)
  · exact not_null_of_returns (hret user) hnull
  · obtain ⟨hk, hmap⟩ := faultMap_spec user (Kept.init h env.task.pgd) hd hend
    exact zeroArea_safe hd hcr3 hal hend (hf.alloc hpos hen.frames) hk (hmap (hret user)) hzero

/-- A fault in an anonymous area uses no NULL pointer if and only if the area lies above the
first 4 MiB, or the first table is there. -/
theorem anonArea_iff (env : FaultEnv) (h : SpacesInv M pgds) (hf : FramesClear M pgds)
    (hd : env.task.pgd ∈ pgds) (hcr3 : M.cr3 = addrToPhys env.task.pgd)
    (hfirst : FirstArea env.mem env.task cr2 a)
    (ha : AreaOk a) (hanon : a.flags &&& MAP_ANON ≠ 0) (hen : EnoughMemory M env.task.pgd a) :
    NullSafe env M cr2 ↔ 0x400000 ≤ a.addr ∨ getPagetable M env.task.pgd 0 ≠ 0 := by
  have hfit := anon_fits h hf hd ha hfirst.covers hanon hen.frames
  have hinv := h.dir _ hd
  constructor
  · intro hsafe
    by_contra hno
    rw [not_or, not_le, not_not, getPagetable_zero hinv] at hno
    obtain ⟨n, hn⟩ := nullStore_first false ⟨M, []⟩ hfirst
    apply hsafe (n + 1 + 1) false
    rw [hn (n + 1), faultAreaNull_anon _ _ _ ⟨M, []⟩ ha hanon]
    refine ⟨Nat.lt_succ_self n, Or.inl ?_⟩
    exact faultMap_null ⟨M, []⟩ hinv hfit.1 (by omega) hno.2
  · intro hor fuel write hnull
    cases fuel with
    | zero => exact hnull
    | succ fuel =>
      obtain ⟨n, hn⟩ := nullStore_first write ⟨M, []⟩ hfirst
      refine anonArea_safe _ _ fuel h hf hd hcr3 ha hanon hfit hen ?_ ((hn fuel).1 hnull).2
      intro h0 ht
      rcases hor with hor | hor
      · omega
      · exact hor ((getPagetable_zero hinv).2 ht)

end Anon

section Accepted

variable {m m' : VmMem} {t t' : VmTask} {es : List ℕ} {fuel addr length flags cr2 : ℕ}
  {fd offset : ℤ} {env : MmapEnv}

theorem not_covers {a b : VmArea} (h : vmaOverlap a b = false)
    (hb : u32 (b.addr + b.size) = b.addr + b.size) (h1 : b.addr ≤ cr2)
    (h2 : cr2 < b.addr + b.size) : ¬ CoversAddr a cr2 := by
  unfold vmaOverlap at h
  rw [hb] at h
  unfold CoversAddr
  split_ifs at h <;> rw [decide_eq_false_iff_not] at h <;> omega

theorem create_aligned {size vma entry a : ℕ} (h : AreaList m t es) (hfr : FreshBlocks m vma entry)
    (hc : vmaCreate fuel m t addr size flags vma entry = some (.ok a, m', t')) :
    addr % PAGE_SIZE = 0 ∧ t'.pgd = t.pgd := by
  rcases create_inserts h.rep (fun x hx => (h.owned x hx).2) hfr.vma_new hc with
    ⟨e, he, -⟩ | ⟨-, hal, l, k, r, -, heq, -⟩
  · simp at he
  · exact ⟨hal, congrArg (fun q => q.2.pgd) heq⟩

theorem create_first {size vma entry a : ℕ} (h : AreaList m t es) (hfr : FreshBlocks m vma entry)
    (hend : addr + size ≤ VIRT_BASE) (h1 : addr ≤ cr2) (h2 : cr2 < addr + size)
    (hc : vmaCreate fuel m t addr size flags vma entry = some (.ok a, m', t')) :
    FirstArea m' t' cr2 (vmaNew t addr size flags) := by
  have hwrap : u32 (addr + size) = addr + size := by
    simp only [u32, VIRT_BASE] at *
    omega
  rcases create_inserts h.rep (fun x hx => (h.owned x hx).2) hfr.vma_new hc with
    ⟨e, he, -⟩ | ⟨-, -, l, k, r, rfl, heq, hfree, -⟩
  · simp at he
  · have hent : ∀ x ∈ l ++ (k ++ r), x ≠ entry := by
      rintro x hx rfl
      exact hfr.entry_new (h.owned x hx).1
    obtain ⟨hval, hareas, -, L', hL', hrep, -⟩ :=
      vmaInsert_spec (m := allocated m vma (vmaNew t addr size flags)) t vma h.rep hfr.entry_ne
        fun hx => hent entry (by simp only [List.mem_append] at hx ⊢; tauto) rfl
    rw [← heq] at hval hareas hL' hrep
    change m'.areas = Function.update m.areas vma (vmaNew t addr size flags) at hareas
    change ∀ x, (m'.entries x).value = if x = entry then vma else (m.entries x).value at hval
    refine ⟨l, entry, r, ?_, ?_, ⟨h1, by rw [← hwrap] at h2; exact h2⟩, fun x hx hcov => ?_⟩
    · have hchain := hrep.chain
      rw [← VmTask.list_some hL', t'.list_first] at hchain
      simpa using hchain
    · unfold areaAt
      rw [hval, if_pos rfl, hareas, Function.update_self]
    · have hmem : x ∈ l ++ (k ++ r) := List.mem_append_left _ hx
      have hsame : areaAt m' x = areaAt m x := by
        unfold areaAt
        rw [hval, if_neg (hent x hmem), hareas]
        have hne : (m.entries x).value ≠ vma := fun he => hfr.vma_new (he ▸ (h.owned x hmem).2)
        rw [Function.update_of_ne hne]
      rw [hsame] at hcov
      exact not_covers (hfree x hx) hwrap h1 h2 hcov

theorem doMmap_first (h : AreaList m t es) (hfr : FreshBlocks m env.vma env.entry)
    (hanon : flags &&& MAP_ANON ≠ 0) (h1 : addr ≤ cr2) (h2 : cr2 < addr + pgRndUp length)
    (hc : doMmap fuel m t addr length flags fd offset env = some (.ok (), m', t')) :
    AreaOk (vmaNew t addr (pgRndUp length) flags) ∧
      FirstArea m' t' cr2 (vmaNew t addr (pgRndUp length) flags) ∧ t'.pgd = t.pgd := by
  unfold doMmap at hc
  split_ifs at hc with h0 h3 h4
  · simp at hc
  · simp at hc
  · simp at hc
  · cases hv : vmaCreate fuel m t addr (pgRndUp length) flags env.vma env.entry with
    | none => simp [hv] at hc
    | some r =>
      obtain ⟨ret, m₁, t₁⟩ := r
      cases ret with
      | error e => simp [hv] at hc
      | ok a =>
        simp only [hv, mmapFile, hanon, false_and, if_false, Option.some.injEq,
          Prod.mk.injEq] at hc
        obtain ⟨-, rfl, rfl⟩ := hc
        obtain ⟨hal, hp⟩ := create_aligned h hfr hv
        have hend := (pgRndUp_user h0 hal (not_lt.1 h4)).2
        have hup : pgRndUp length ≤ VIRT_BASE := (Nat.le_add_left _ _).trans hend
        refine ⟨areaOk_new t hal hup ?_, create_first h hfr hend h1 h2 hv, hp⟩
        have hle : length ≤ VIRT_BASE := (Nat.le_add_left _ _).trans (not_lt.1 h4)
        obtain ⟨-, hr, -⟩ := pgRndUp_bounds hle
        obtain ⟨h5, h6, h7⟩ := pgRndUp_bounds hup
        omega

end Accepted

/-- In every state that stacks, `mmap` and `fork` lead to, with memory for the pages and their
tables: a fault in an anonymous area, and one in a mapping just accepted, use no NULL pointer
if and only if the area starts above the first 4 MiB, or the first page table is there. -/
theorem anon_fault_iff {evs : List MapEvent} {s : MapSystem} (h : MapRun evs s) {i cr2 : ℕ}
    {t : VmTask} (ht : s.tasks[i]? = some t) {M : Machine} {pgds : List ℕ} (hM : SpacesInv M pgds)
    (hall : ∀ d ∈ s.pgds, d ∈ pgds) (hf : FramesClear M pgds) (hcr3 : M.cr3 = addrToPhys t.pgd)
    (files : ℕ → Option (Ext2Fs × Ext2Inode)) (stack : Mem) :
    (∀ a, FirstArea s.mem t cr2 a → a.flags &&& MAP_ANON ≠ 0 → EnoughMemory M t.pgd a →
      (NullSafe (s.faultEnv t files stack) M cr2 ↔
        0x400000 ≤ a.addr ∨ getPagetable M t.pgd 0 ≠ 0)) ∧
    ∀ fuel addr length flags fd offset env m' t', FreshBlocks s.mem env.vma env.entry →
      doMmap fuel s.mem t addr length flags fd offset env = some (.ok (), m', t') →
      flags &&& MAP_ANON ≠ 0 → addr ≤ cr2 → cr2 < addr + pgRndUp length →
      EnoughMemory M t.pgd (vmaNew t addr (pgRndUp length) flags) →
      (NullSafe ⟨m', t', files, stack⟩ M cr2 ↔
        0x400000 ≤ addr ∨ getPagetable M t.pgd 0 ≠ 0) := by
  have hd : t.pgd ∈ pgds := hall _ (List.mem_map_of_mem (List.mem_of_getElem? ht))
  constructor
  · intro a hfirst hanon hen
    have ha : AreaOk a := by
      obtain ⟨es, hi⟩ := areas_run h
      obtain ⟨l, x, r, hc, rfl, -, -⟩ := hfirst
      have hmem : x ∈ es i := by
        rw [← hc.unique (hi.lists.chain ht)]
        simp
      exact hi.ok i x hmem
    exact anonArea_iff (s.faultEnv t files stack) hM hf hd hcr3 hfirst ha hanon hen
  · intro fuel addr length flags fd offset env m' t' hfr hc hanon h1 h2 hen
    obtain ⟨es, hlist⟩ := areaList_run h ht
    obtain ⟨ha, hfirst, hp⟩ := doMmap_first hlist hfr hanon h1 h2 hc
    rw [← hp] at hd hcr3 hen ⊢
    exact anonArea_iff ⟨m', t', files, stack⟩ hM hf hd hcr3 hfirst ha hanon hen

/-- A task with nothing mapped yet. -/
def newTask : MapSystem := ⟨vmaBoot0.mem, [⟨1, 0xC0301000, some listInit⟩], fun _ => 0⟩

theorem newTask_run : MapRun [] newTask := Run.nil (by simp [MapBoot, newTask])

/-- 16 MiB of memory have room for a page and its table. -/
theorem faultMachine_enough {a : VmArea} (hn : a.nPages = 1)
    (hidx : pdeIndex (a.addr + 1 * PAGE_SIZE - 1) ≤ pdeIndex a.addr) :
    EnoughMemory (faultMachine (pmmInit 16777216 0)) 0xC0301000 a := by
  obtain ⟨hsize, hbit⟩ := pmmInit_spec 16777216 0 (by norm_num)
  rw [show pmmFrames 16777216 = 4096 by decide] at hsize hbit
  generalize pmmInit 16777216 0 = bm at hsize hbit
  have hpool : (faultMachine bm).pool.length = 2 := rfl
  constructor
  · rw [hn]
    refine ⟨1024, show 1024 + 1 ≤ bm.size by omega, fun j h1 h2 => ?_⟩
    change bm.bit j = false
    rw [hbit j, decide_eq_false_iff_not]
    omega
  · rw [hn, hpool]
    unfold missingTables
    apply le_trans (remaining_le _)
    omega

/-- A page at 4 MiB, written to. -/
theorem anon_fault_above : ∃ m' t',
    doMmap 1 newTask.mem ⟨1, 0xC0301000, some listInit⟩ 0x400000 4096 MAP_ANON 0 0
      (noOpenFiles 100 101) = some (.ok (), m', t') ∧
    NullSafe ⟨m', t', fun _ => none, fun _ => 0⟩ (faultMachine (pmmInit 16777216 0)) 0x400010 := by
  have hc : doMmap 1 newTask.mem ⟨1, 0xC0301000, some listInit⟩ 0x400000 4096 MAP_ANON 0 0
      (noOpenFiles 100 101) = some (.ok (), _, _) := rfl
  refine ⟨_, _, hc, ((anon_fault_iff newTask_run (i := 0) rfl (faultMachine_spaces _)
    (by simp [newTask, MapSystem.pgds]) faultMachine_frames rfl _ _).2 _ _ _ _ _ _ _ _ _
    ⟨by decide, by decide, by decide, by decide, by decide⟩ hc (by decide) (by decide)
    (by decide) (faultMachine_enough (by decide) (by decide))).2 (Or.inl (by decide))⟩

/-- A page at 0x1000: it is accepted, and the fault stores through NULL. -/
theorem anon_fault_low : ∃ m' t',
    doMmap 1 newTask.mem ⟨1, 0xC0301000, some listInit⟩ 0x1000 4096 MAP_ANON 0 0
      (noOpenFiles 100 101) = some (.ok (), m', t') ∧
    SpacesInv (faultMachine (pmmInit 16777216 0)) [0xC0300000, 0xC0301000] ∧
    FramesClear (faultMachine (pmmInit 16777216 0)) [0xC0300000, 0xC0301000] ∧
    EnoughMemory (faultMachine (pmmInit 16777216 0)) 0xC0301000
      (vmaNew ⟨1, 0xC0301000, some listInit⟩ 0x1000 4096 MAP_ANON) ∧
    ¬ NullSafe ⟨m', t', fun _ => none, fun _ => 0⟩ (faultMachine (pmmInit 16777216 0)) 0x1010 := by
  obtain ⟨m', t', hc⟩ : ∃ m' t', doMmap 1 newTask.mem ⟨1, 0xC0301000, some listInit⟩ 0x1000 4096
      MAP_ANON 0 0 (noOpenFiles 100 101) = some (.ok (), m', t') := ⟨_, _, rfl⟩
  have hspaces := faultMachine_spaces (pmmInit 16777216 0)
  have hen : EnoughMemory (faultMachine (pmmInit 16777216 0)) 0xC0301000
      (vmaNew ⟨1, 0xC0301000, some listInit⟩ 0x1000 4096 MAP_ANON) :=
    faultMachine_enough (by decide) (by decide)
  obtain ⟨es, hlist⟩ := areaList_run newTask_run (i := 0) rfl
  obtain ⟨ha, hfirst, hp⟩ := doMmap_first hlist ⟨by decide, by decide, by decide, by decide,
    by decide⟩ (by decide) (show 0x1000 ≤ 0x1010 by decide) (by decide) hc
  have hmem : t'.pgd ∈ [0xC0300000, 0xC0301000] := by
    rw [hp]
    decide
  have hno := getPagetable_zero (hspaces.dir _ hmem)
  refine ⟨m', t', hc, hspaces, faultMachine_frames, hen, fun hsafe => ?_⟩
  rcases (anonArea_iff ⟨m', t', fun _ => none, fun _ => 0⟩ hspaces faultMachine_frames hmem
    (by rw [hp]; rfl) hfirst ha (by decide) (by rw [hp]; exact hen)).1 hsafe with hle | htab
  · exact absurd hle (by decide)
  · exact htab (hno.2 (faultMachine_table _ _ _))

end DepthOS
