import DepthOS.Proofs.Paging
import DepthOS.Proofs.Pmm

/-! `map_addr` and the end of physical memory. A scan that finds no run returns
`-EBITMAP`; neither `pmm_alloc` nor `map_addr` notices, their values being
unsigned, and entries for frames nobody allocated are installed. -/

namespace DepthOS

open Lib

/-- The frame an entry points to was free and is taken now. -/
def FreshFrame (bm bm' : Bitmap) (pte : ℕ) : Prop :=
  extractAddr pte / 4096 < bm.size ∧ bm.bit (extractAddr pte / 4096) = false ∧
  bm'.bit (extractAddr pte / 4096) = true

/-- All entries a call installs are for frames it has just allocated, and without
a free run it returns NULL and changes nothing. -/
def MapAddrSafe (s : Machine) (pgd vaddr npages : ℕ) (user overwrite : Bool) : Prop :=
  (∀ ret s', mapAddr s pgd vaddr npages user overwrite = some (ret, s') →
    ∃ new, s'.installs = s.installs ++ new ∧
      ∀ pte ∈ new, FreshFrame s.pmmBitmap s'.pmmBitmap pte) ∧
  (¬ HasRun s.pmmBitmap npages false →
    ∃ s', mapAddr s pgd vaddr npages user overwrite = some (0, s') ∧
      s'.mem = s.mem ∧ s'.pmmBitmap = s.pmmBitmap)

section Installs

variable {s s' : Machine} {pgd vaddr pstart n : ℕ} {user overwrite : Bool}

/-- Whatever the directory looks like, `map_page` stores one entry. -/
theorem mapPage_installs {phys : ℕ} (h : mapPage s pgd vaddr phys user = some s') :
    s'.installs = s.installs ++ [makePte phys true user] ∧ s'.pmmBitmap = s.pmmBitmap := by
  obtain ⟨s1, h1, h2⟩ := Option.bind_eq_some_iff.1 h
  have hs1 : s1.installs = s.installs ∧ s1.pmmBitmap = s.pmmBitmap := by
    unfold mapPageTable at h1
    dsimp only at h1
    split_ifs at h1
    · obtain rfl := Option.some.inj h1
      simp
    · obtain rfl := Option.some.inj h1
      exact ⟨rfl, rfl⟩
  dsimp only at h2
  split_ifs at h2
  obtain rfl := Option.some.inj h2
  exact ⟨by rw [← hs1.1], hs1.2⟩

theorem mapFixed_installs
    (h : (List.range n).foldlM (mapFixedOne pgd vaddr pstart user overwrite) s = some s') :
    s'.pmmBitmap = s.pmmBitmap ∧ ∃ new, s'.installs = s.installs ++ new ∧
      ∀ pte ∈ new, ∃ i < n, pte = fixedPte pstart i user := by
  induction n generalizing s' with
  | zero =>
    obtain rfl := Option.some.inj h
    exact ⟨rfl, [], by simp, by simp⟩
  | succ n ih =>
    rw [foldlM_range_succ] at h
    obtain ⟨s1, h1, h2⟩ := Option.bind_eq_some_iff.1 h
    obtain ⟨hbm, new, hnew, hall⟩ := ih h1
    have hall' : ∀ pte ∈ new, ∃ i < n + 1, pte = fixedPte pstart i user := fun pte hp => by
      obtain ⟨i, hi, rfl⟩ := hall pte hp
      exact ⟨i, by omega, rfl⟩
    unfold mapFixedOne at h2
    dsimp only at h2
    split_ifs at h2
    · obtain rfl := Option.some.inj h2
      exact ⟨hbm, new, hnew, hall'⟩
    · obtain ⟨hins, hbm'⟩ := mapPage_installs h2
      refine ⟨by rw [hbm', hbm], new ++ [fixedPte pstart n user], ?_, fun pte hp => ?_⟩
      · rw [hins, hnew, List.append_assoc]
        rfl
      · rcases List.mem_append.1 hp with hp | hp
        · exact hall' pte hp
        · exact ⟨n, by omega, List.mem_singleton.1 hp⟩

end Installs

section MapAddr

variable {s : Machine} {pgd vaddr npages : ℕ} {user overwrite : Bool}

theorem pmmAlloc_missing {bm : Bitmap} (hn : 1 ≤ npages) (h : ¬ HasRun bm npages false) :
    (pmmAlloc bm npages).1 = 0xFFFFF000 := by
  simp only [pmmAlloc]
  rw [scanFlip_missing bm false hn h]
  decide

theorem mapAddr_cases {ret : ℕ} {s' : Machine}
    (h : mapAddr s pgd vaddr npages user overwrite = some (ret, s')) :
    ret = (pmmAlloc s.pmmBitmap npages).1 ∧
    (List.range npages).foldlM (mapFixedOne pgd (pgRndDown (pgRndDown vaddr)) ret user overwrite)
      { s with pmmBitmap := (pmmAlloc s.pmmBitmap npages).2 } = some s' := by
  obtain ⟨s1, h1, h2⟩ := Option.map_eq_some_iff.1 h
  obtain ⟨rfl, rfl⟩ := Prod.mk.inj h2
  exact ⟨rfl, h1⟩

theorem not_safe_of_missing (hn : 1 ≤ npages) (h : ¬ HasRun s.pmmBitmap npages false) :
    ¬ MapAddrSafe s pgd vaddr npages user overwrite := by
  rintro ⟨-, hnull⟩
  obtain ⟨s', hm, -⟩ := hnull h
  have hret := (mapAddr_cases hm).1
  rw [pmmAlloc_missing hn h] at hret
  simp at hret

theorem fixedPte_frame {a i : ℕ} (h : a + i < 1048576) :
    extractAddr (fixedPte (a * 4096) i user) / 4096 = a + i := by
  rw [fixedPte, makePte, extractAddr_makeEntry]
  simp only [u32, PAGE_SIZE]
  omega

theorem safe_of_run (hs : s.pmmBitmap.size ≤ 1048576) (hn : 1 ≤ npages)
    (hrun : HasRun s.pmmBitmap npages false) :
    MapAddrSafe s pgd vaddr npages user overwrite := by
  obtain ⟨a, hfit, haddr, -, -, hbit⟩ := pmmAlloc_spec s.pmmBitmap hn hs hrun
  have hle := hfit.run.1
  refine ⟨fun ret s' hm => ?_, fun hno => absurd hrun hno⟩
  obtain ⟨hret, hfold⟩ := mapAddr_cases hm
  obtain ⟨hbm, new, hnew, hall⟩ := mapFixed_installs hfold
  refine ⟨new, hnew, fun pte hpte => ?_⟩
  obtain ⟨i, hi, rfl⟩ := hall pte hpte
  rw [hret, haddr, FreshFrame, fixedPte_frame (by omega), hbm, hbit, if_pos ⟨by omega, by omega⟩]
  exact ⟨by omega, hfit.run.2 _ (by omega) (by omega), rfl⟩

theorem mapAddr_returns (h : PgdInv s pgd) (hp : ∀ i < npages, UserPage (vaddr / 4096 + i))
    (hpool : npages ≤ s.pool.length) :
    ∃ ret s', mapAddr s pgd vaddr npages user overwrite = some (ret, s') := by
  have hpage : pgRndDown vaddr / 4096 = vaddr / 4096 := by
    simp only [pgRndDown, roundDown, PAGE_SIZE]
    omega
  have hp' : ∀ i < npages, UserPage (pgRndDown vaddr / 4096 + i) := by
    rw [hpage]
    exact hp
  have hinv : PgdInv { s with pmmBitmap := (pmmAlloc s.pmmBitmap npages).2 } pgd :=
    h.congr rfl fun _ _ => rfl
  obtain ⟨s', hm⟩ := mapFixed_returns (pmmAlloc s.pmmBitmap npages).1 user overwrite hinv hp' hpool
  refine ⟨(pmmAlloc s.pmmBitmap npages).1, s', ?_⟩
  simp only [mapAddr, mapAddrFixed, hm, Option.map_some]

/-- `map_addr` is safe exactly when there is a run of free frames to allocate; on a
directory in order it always comes back. -/
theorem map_addr_safe_iff (hs : s.pmmBitmap.size ≤ 1048576) (hn : 1 ≤ npages) :
    (MapAddrSafe s pgd vaddr npages user overwrite ↔ HasRun s.pmmBitmap npages false) ∧
    (PgdInv s pgd → (∀ i < npages, UserPage (vaddr / 4096 + i)) → npages ≤ s.pool.length →
      ∃ ret s', mapAddr s pgd vaddr npages user overwrite = some (ret, s')) := by
  refine ⟨⟨fun hsafe => ?_, safe_of_run hs hn⟩, mapAddr_returns⟩
  by_contra hno
  exact not_safe_of_missing hn hno hsafe

end MapAddr

theorem pgBoot_bitmap (bm : Bitmap) :
    ∃ s, PgdInv s 0xC0200000 ∧ s.pmmBitmap = bm ∧ s.pool = [0xC0201000] :=
  ⟨_, (createPgd_spec (pgMachine_fresh bm) rfl).1, rfl, rfl⟩

/-- With 8 MiB of memory there is a free frame, and the call is safe. -/
theorem map_addr_safe_8mib : ∃ s, s.pmmBitmap = pmmInit 0x800000 0 ∧
    MapAddrSafe s 0xC0200000 0x8000000 1 true true ∧
    ∃ ret s', mapAddr s 0xC0200000 0x8000000 1 true true = some (ret, s') := by
  obtain ⟨s, hinv, hbm, hpool⟩ := pgBoot_bitmap (pmmInit 0x800000 0)
  obtain ⟨hsize, hbit⟩ := pmmInit_spec 0x800000 0 (by norm_num)
  rw [show pmmFrames 0x800000 = 2048 by decide] at hsize hbit
  have hrun : HasRun s.pmmBitmap 1 false := by
    rw [hbm]
    refine ⟨1024, by omega, fun j h1 h2 => ?_⟩
    rw [hbit j, decide_eq_false_iff_not]
    omega
  have hsize' : s.pmmBitmap.size ≤ 1048576 := by
    rw [hbm, hsize]
    norm_num
  obtain ⟨hsafe, hret⟩ :
      (MapAddrSafe s 0xC0200000 0x8000000 1 true true ↔ HasRun s.pmmBitmap 1 false) ∧ _ :=
    map_addr_safe_iff hsize' (Nat.le_refl 1)
  refine ⟨s, hbm, hsafe.2 hrun, hret hinv (fun i hi => ?_) (by rw [hpool]; decide)⟩
  rw [Nat.lt_one_iff.1 hi]
  exact ⟨by decide, by decide⟩

/-- With 4 MiB, all of it reserved, the call returns 0xFFFFF000 and maps that
frame. -/
theorem map_addr_exhausted : ∃ s, PgdInv s 0xC0200000 ∧ s.pmmBitmap = pmmInit 0x400000 0 ∧
    s.pool.length = 1 ∧ ¬ MapAddrSafe s 0xC0200000 0x8000000 1 true true := by
  obtain ⟨s, hinv, hbm, hpool⟩ := pgBoot_bitmap (pmmInit 0x400000 0)
  obtain ⟨hsize, hbit⟩ := pmmInit_spec 0x400000 0 (by norm_num)
  rw [show pmmFrames 0x400000 = 1024 by decide] at hsize hbit
  refine ⟨s, hinv, hbm, by rw [hpool]; rfl, not_safe_of_missing (by norm_num) ?_⟩
  rw [hbm]
  rintro ⟨r, hle, hfree⟩
  have := hfree r (Nat.le_refl _) (by omega)
  rw [hbit r, decide_eq_false_iff_not] at this
  omega

end DepthOS
