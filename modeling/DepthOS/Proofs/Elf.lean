import DepthOS.Proofs.PagesAdded
import DepthOS.Spec.Elf

/-! The segments of a program: which of their pages the loader maps, and where it writes. The
number of pages is that of the size alone, so a segment that starts inside a page can be one
page short; and the one check against the kernel's addresses is made on a sum that wraps. -/

namespace DepthOS

open Lib

section Page

variable {s s' : Machine} {pgd va : ℕ}

theorem mapAddr_single (s : Machine) (pgd : ℕ) (user : Bool) (va : ℕ) :
    mapAddr s pgd va 1 user false =
      (mapFixedOne pgd (pgRndDown (pgRndDown va)) (pmmAlloc s.pmmBitmap 1).1 user false
        { s with pmmBitmap := (pmmAlloc s.pmmBitmap 1).2 } 0).map
          fun s' => ((pmmAlloc s.pmmBitmap 1).1, s') := by
  unfold mapAddr mapAddrFixed
  dsimp only
  rw [foldlM_range_one]

theorem page_va (hp : va / 4096 < USER_END) :
    u32 (pgRndDown (pgRndDown va) + u32 (0 * PAGE_SIZE)) = va / 4096 * 4096 := by
  simp only [u32, pgRndDown, roundDown, PAGE_SIZE, USER_END] at *
  omega

theorem mapAddr_added (user : Bool) (h : PgdInv s pgd) (hp : va / 4096 < USER_END)
    (hcan : CanMap s pgd va) :
    ∃ r s', mapAddr s pgd va 1 user false = some (r, s') ∧ PageAdded s s' pgd (va / 4096) := by
  have hpage : va / 4096 * 4096 / 4096 = va / 4096 := Nat.mul_div_cancel _ (by norm_num)
  have hinv : PgdInv { s with pmmBitmap := (pmmAlloc s.pmmBitmap 1).2 } pgd :=
    h.congr rfl fun _ _ => rfl
  rw [mapAddr_single]
  unfold mapFixedOne
  dsimp only
  rw [page_va hp]
  split_ifs with hkept
  · refine ⟨_, _, rfl, ?_⟩
    have hne : entryAt s.mem (addrToPhys pgd) (va / 4096) ≠ 0 := by
      have hent : pageEntry s pgd (va / 4096 * 4096) =
          entryAt s.mem (addrToPhys pgd) (va / 4096 * 4096 / 4096) := by
        simp only [USER_END] at hp
        exact pageEntry_eq h.block (by omega) (h.window _ (by omega))
      rw [hpage] at hent
      have hget : getPage s pgd (va / 4096 * 4096) ≠ 0 := hkept.1
      rw [← hent, pageEntry, if_neg hget]
      exact hkept.2.1
    have ht := table_of_entry hne
    refine ⟨hinv, ht, fun _ _ _ => rfl, Or.inl ⟨ht, rfl⟩, fun q _ => ?_⟩
    constructor
    · exact Or.inr
    · rintro (rfl | hq)
      · exact hne
      · exact hq
  · obtain ⟨s', hs'⟩ := Option.isSome_iff_exists.1 ((mapPage_canMap hinv (va / 4096 * 4096)
      (page_user hp) (u32 ((pmmAlloc s.pmmBitmap 1).1 + u32 (0 * PAGE_SIZE))) user).2
      (canMap_page.2 hcan))
    rw [hs']
    have hadd := mapPage_added hinv (page_user hp) hs'
    rw [hpage] at hadd
    exact ⟨_, s', rfl, hadd.inv, hadd.table, hadd.others, hadd.pool, hadd.entry⟩

theorem mapAddr_stuck (user : Bool) (h : PgdInv s pgd) (hp : va / 4096 < USER_END)
    (hcan : ¬ CanMap s pgd va) : mapAddr s pgd va 1 user false = none := by
  have hva : va / 4096 * 4096 < 4294967296 := by simp only [USER_END] at hp; omega
  have hinv : PgdInv { s with pmmBitmap := (pmmAlloc s.pmmBitmap 1).2 } pgd :=
    h.congr rfl fun _ _ => rfl
  have ht : tableAt s.mem (addrToPhys pgd) (va / 4096 * 4096 / 4096 / 1024) = 0 := by
    by_contra hne
    apply hcan
    rw [← canMap_page]
    unfold CanMap
    rw [pdeIndex_eq]
    exact Or.inl hne
  have hget : getPage { s with pmmBitmap := (pmmAlloc s.pmmBitmap 1).2 } pgd
      (va / 4096 * 4096) = 0 :=
    (getPage_spec hinv.block hva (hinv.window _ (by omega))).1.2 ht
  have hnone := Option.not_isSome_iff_eq_none.1 fun hs => hcan (canMap_page.1
    ((mapPage_canMap hinv (va / 4096 * 4096) (page_user hp)
      (u32 ((pmmAlloc s.pmmBitmap 1).1 + u32 (0 * PAGE_SIZE))) user).1 hs))
  rw [mapAddr_single]
  unfold mapFixedOne
  dsimp only
  rw [page_va hp, if_neg fun hc => hc.1 hget, hnone]
  rfl

end Page

section Loop

variable {s s' : Machine} {pgd n hi : ℕ}

theorem round_page {vaddr i : ℕ} (hp : vaddr / 4096 + i < USER_END) :
    u32 (vaddr + u32 (i * PAGE_SIZE)) = vaddr + i * 4096 ∧
      (vaddr + i * 4096) / 4096 = vaddr / 4096 + i := by
  simp only [u32, PAGE_SIZE, USER_END] at *
  omega

theorem elfMapRound_added {vaddr i : ℕ} {st : ElfState} (h : PgdInv st.machine pgd)
    (hp : vaddr / 4096 + i < USER_END) (hcan : CanMap st.machine pgd (vaddr + i * 4096)) :
    (elfMapRound pgd vaddr st i).2 = true ∧
      PageAdded st.machine (elfMapRound pgd vaddr st i).1.machine pgd (vaddr / 4096 + i) := by
  obtain ⟨hva, hpage⟩ := round_page hp
  obtain ⟨r, s', hs', hadd⟩ := mapAddr_added true h (by rw [hpage]; exact hp) hcan
  rw [hpage] at hadd
  unfold elfMapRound
  dsimp only
  rw [hva, hs']
  exact ⟨rfl, hadd⟩

theorem elfMapRound_stuck {vaddr i : ℕ} {st : ElfState} (h : PgdInv st.machine pgd)
    (hp : vaddr / 4096 + i < USER_END) (hcan : ¬ CanMap st.machine pgd (vaddr + i * 4096)) :
    (elfMapRound pgd vaddr st i).2 = false := by
  obtain ⟨hva, hpage⟩ := round_page hp
  unfold elfMapRound
  dsimp only
  rw [hva, mapAddr_stuck true h (by rw [hpage]; exact hp) hcan]

theorem elfMap_added {vaddr : ℕ} (h : PgdInv s pgd)
    (hlow : vaddr / 4096 / 1024 = 0 → tableAt s.mem (addrToPhys pgd) 0 ≠ 0)
    (hle : hi ≤ 1024) (hs : missingTables s pgd hi (vaddr / 4096 / 1024) ≤ s.pool.length)
    (hp : ∀ i < n, vaddr / 4096 + i < USER_END ∧ (vaddr / 4096 + i) / 1024 < hi) :
    (runLoop (elfMapRound pgd vaddr) ⟨s, []⟩ n).2 = true ∧
      PagesAdded s (runLoop (elfMapRound pgd vaddr) ⟨s, []⟩ n).1.machine pgd (vaddr / 4096) n
        hi := by
  apply runLoop_completes
    (I := fun i (st : ElfState) => PagesAdded s st.machine pgd (vaddr / 4096) i hi)
  · exact PagesAdded.init h
  · intro i hi' st hst
    obtain ⟨hu, hidx⟩ := hp i hi'
    have hcan := hst.canMap hidx hs (fun h0 => hlow (by omega)) (round_page hu).2
    obtain ⟨hr, hadd⟩ := elfMapRound_added hst.inv hu hcan
    exact ⟨hr, hst.step hidx hle hadd⟩

theorem elfMap_came {vaddr : ℕ} (h : PgdInv s pgd) (hle : hi ≤ 1024)
    (hp : ∀ i < n, vaddr / 4096 + i < USER_END ∧ (vaddr / 4096 + i) / 1024 < hi)
    (hret : (runLoop (elfMapRound pgd vaddr) ⟨s, []⟩ n).2 = true) :
    PagesAdded s (runLoop (elfMapRound pgd vaddr) ⟨s, []⟩ n).1.machine pgd (vaddr / 4096) n hi := by
  have hrule := runLoop_rule (f := elfMapRound pgd vaddr) (a := ⟨s, []⟩) (n := n)
    (I := fun i (st : ElfState) => PagesAdded s st.machine pgd (vaddr / 4096) i hi)
    (J := fun _ => True) (PagesAdded.init h) ?_ fun _ _ _ _ _ => trivial
  · rwa [if_pos hret] at hrule
  · intro i hi' st hst hr
    obtain ⟨hu, hidx⟩ := hp i hi'
    have hcan : CanMap st.machine pgd (vaddr + i * 4096) := by
      by_contra hcan
      rw [elfMapRound_stuck hst.inv hu hcan] at hr
      exact Bool.false_ne_true hr
    exact hst.step hidx hle (elfMapRound_added hst.inv hu hcan).2

theorem elfMap_completes {vaddr : ℕ} (h : PgdInv s pgd) (hn : 0 < n)
    (hp : vaddr / 4096 + n ≤ USER_END) :
    (runLoop (elfMapRound pgd vaddr) ⟨s, []⟩ n).2 = true ↔
      ¬ (vaddr / 4096 / 1024 = 0 ∧ tableAt s.mem (addrToPhys pgd) 0 = 0) ∧
        missingTables s pgd ((vaddr / 4096 + n - 1) / 1024 + 1) (vaddr / 4096 / 1024) ≤
          s.pool.length := by
  have hle : (vaddr / 4096 + n - 1) / 1024 + 1 ≤ 1024 := by
    simp only [USER_END] at hp
    omega
  have hpages : ∀ i < n, vaddr / 4096 + i < USER_END ∧
      (vaddr / 4096 + i) / 1024 < (vaddr / 4096 + n - 1) / 1024 + 1 := fun i hi => by omega
  constructor
  · intro hret
    refine ⟨?_, (elfMap_came h hle hpages hret).supplied hn hle le_rfl⟩
    rintro ⟨hidx, ht⟩
    have hcan : ¬ CanMap s pgd (vaddr + 0 * 4096) := by
      unfold CanMap
      rw [pdeIndex_eq, Nat.zero_mul, Nat.add_zero, hidx]
      rintro (h0 | ⟨h0, -⟩)
      · exact h0 ht
      · exact h0 rfl
    have hfirst : (elfMapRound pgd vaddr ⟨s, []⟩ 0).2 = false :=
      elfMapRound_stuck h (hpages 0 hn).1 hcan
    have hround : (runLoop (elfMapRound pgd vaddr) ⟨s, []⟩ 1).2 = false := hfirst
    rw [runLoop_stopped hn hround, hround] at hret
    exact Bool.false_ne_true hret
  · rintro ⟨hlow, hs⟩
    exact (elfMap_added h (fun h0 ht => hlow ⟨h0, ht⟩) hle hs hpages).1

end Loop

section Segment

variable {s : Machine} {pgd : ℕ} {segment : ElfProgramHeader}

/-- The heap has a block for each page table that the pages mapped below the kernel lack. -/
def Supplied (s : Machine) (pgd : ℕ) (segment : ElfProgramHeader) : Prop :=
  missingTables s pgd
      (min 768 (pdeIndex (segment.vaddr + pgRndUp segment.memsz - PAGE_SIZE) + 1))
    (pdeIndex segment.vaddr) ≤ s.pool.length

/-- The segment starts below 4 MiB, where no page table is ever made, and there is none. -/
def NoFirstTable (s : Machine) (pgd : ℕ) (segment : ElfProgramHeader) : Prop :=
  pdeIndex segment.vaddr = 0 ∧ getPagetable s pgd 0 = 0

/-- There is a page table for every page of the segment below the kernel, or one can be made. -/
def HasTables (s : Machine) (pgd : ℕ) (segment : ElfProgramHeader) : Prop :=
  ¬ NoFirstTable s pgd segment ∧ Supplied s pgd segment

theorem hasTables_iff {n : ℕ} (h : PgdInv s pgd) (hn : 0 < n)
    (hp : segment.vaddr / 4096 + n ≤ USER_END)
    (hlast : min 768 (pdeIndex (segment.vaddr + pgRndUp segment.memsz - PAGE_SIZE) + 1) =
      (segment.vaddr / 4096 + n - 1) / 1024 + 1) :
    HasTables s pgd segment ↔
      (runLoop (elfMapRound pgd segment.vaddr) ⟨s, []⟩ n).2 = true := by
  rw [elfMap_completes h hn hp]
  unfold HasTables NoFirstTable Supplied
  rw [hlast, getPagetable_zero h, pdeIndex_eq]

theorem elfMap_done (h : PgdInv s pgd) (hm : 0 < segment.memsz)
    (hend : segment.vaddr + segment.memsz < VIRT_BASE) :
    HasTables s pgd segment ↔ (elfMapSegment ⟨s, []⟩ pgd segment).2 = true := by
  have hup := pgRndUp_small (n := segment.memsz) (by simp only [VIRT_BASE] at hend; omega)
  have hn : pgRndUp segment.memsz / PAGE_SIZE = (segment.memsz + 4095) / 4096 := by
    rw [hup, Nat.mul_div_cancel _ (by norm_num)]
  unfold elfMapSegment
  rw [hn]
  simp only [VIRT_BASE] at hend
  apply hasTables_iff h (by omega)
  · simp only [USER_END]
    omega
  · rw [pdeIndex_eq, hup]
    simp only [PAGE_SIZE]
    omega

theorem next_page {v m : ℕ} (hend : v + m < VIRT_BASE) (hlt : v % 4096 + m > pgRndUp m) :
    pgRndDown v + pgRndUp m < v + m ∧
      (pgRndDown v + pgRndUp m) / 4096 = v / 4096 + (m + 4095) / 4096 ∧
      pgRndDown v + pgRndUp m < 4294967296 := by
  simp only [VIRT_BASE] at hend
  rw [pgRndUp_small (by omega)] at hlt ⊢
  rw [pgRndDown_eq]
  omega

theorem next_entry (h : PgdInv s pgd) (hend : segment.vaddr + segment.memsz < VIRT_BASE)
    (hlt : segment.vaddr % 4096 + segment.memsz > pgRndUp segment.memsz) :
    pageEntry s pgd (pgRndDown segment.vaddr + pgRndUp segment.memsz) =
      entryAt s.mem (addrToPhys pgd) (segment.vaddr / 4096 + (segment.memsz + 4095) / 4096) := by
  obtain ⟨-, hpage, hva⟩ := next_page hend hlt
  rw [pageEntry_eq h.block hva (h.window _ (by omega)), hpage]

theorem elfMap_entry (h : PgdInv s pgd) (hend : segment.vaddr + segment.memsz < VIRT_BASE)
    (hret : (elfMapSegment ⟨s, []⟩ pgd segment).2 = true) {va : ℕ} (hva : va < VIRT_BASE) :
    pageEntry (elfMapSegment ⟨s, []⟩ pgd segment).1.machine pgd va ≠ 0 ↔
      (segment.vaddr / 4096 ≤ va / 4096 ∧
        va / 4096 < segment.vaddr / 4096 + (segment.memsz + 4095) / 4096) ∨
      entryAt s.mem (addrToPhys pgd) (va / 4096) ≠ 0 := by
  simp only [VIRT_BASE] at hend hva
  have hup := pgRndUp_small (n := segment.memsz) (by omega)
  have hn : pgRndUp segment.memsz / PAGE_SIZE = (segment.memsz + 4095) / 4096 := by
    rw [hup, Nat.mul_div_cancel _ (by norm_num)]
  have hadd := elfMap_came (n := pgRndUp segment.memsz / PAGE_SIZE) h (le_refl 1024)
    (fun i hi => by rw [hn] at hi; simp only [USER_END]; omega) hret
  rw [hn] at hadd
  have hinv : PgdInv (elfMapSegment ⟨s, []⟩ pgd segment).1.machine pgd := by
    unfold elfMapSegment
    rw [hn]
    exact hadd.inv
  rw [pageEntry_eq hinv.block (by omega) (hinv.window _ (by omega))]
  unfold elfMapSegment
  rw [hn]
  exact hadd.entry _ (by omega)

theorem segmentMapped_of (h : PgdInv s pgd) (hm : 0 < segment.memsz)
    (hend : segment.vaddr + segment.memsz < VIRT_BASE)
    (hret : (elfMapSegment ⟨s, []⟩ pgd segment).2 = true) :
    SegmentMapped s pgd segment ↔
      (segment.vaddr % PAGE_SIZE + segment.memsz ≤ pgRndUp segment.memsz ∨
        pageEntry s pgd (pgRndDown segment.vaddr + pgRndUp segment.memsz) ≠ 0) := by
  have hup := pgRndUp_small (n := segment.memsz) (by simp only [VIRT_BASE] at hend; omega)
  have hdown := pgRndDown_eq segment.vaddr
  rw [show PAGE_SIZE = 4096 from rfl]
  constructor
  · intro hmap
    by_contra hc
    rw [not_or, not_le, not_not] at hc
    obtain ⟨hlt, hzero⟩ := hc
    obtain ⟨hbelow, hpage, -⟩ := next_page hend hlt
    have hva := hmap.2 (pgRndDown segment.vaddr + pgRndUp segment.memsz) (by omega) hbelow
    rw [elfMap_entry h hend hret (by omega), hpage, ← next_entry h hend hlt, hzero] at hva
    omega
  · intro hor
    refine ⟨hret, fun va h1 h2 => (elfMap_entry h hend hret (by omega)).2 ?_⟩
    by_cases hcount : va / 4096 < segment.vaddr / 4096 + (segment.memsz + 4095) / 4096
    · exact Or.inl ⟨by omega, hcount⟩
    · have hlt : segment.vaddr % 4096 + segment.memsz > pgRndUp segment.memsz := by
        rw [hup]
        omega
      have hpage : va / 4096 = segment.vaddr / 4096 + (segment.memsz + 4095) / 4096 := by
        omega
      have hkept := hor.resolve_left (not_le.2 hlt)
      rw [next_entry h hend hlt] at hkept
      rw [hpage]
      exact Or.inr hkept

/-- Every page of the segment is mapped if and only if there are tables for the pages counted,
and the segment's last page is among these, or there already. -/
theorem segment_mapped_iff (h : PgdInv s pgd) (hm : 0 < segment.memsz)
    (hend : segment.vaddr + segment.memsz < VIRT_BASE) :
    SegmentMapped s pgd segment ↔ HasTables s pgd segment ∧
      (segment.vaddr % PAGE_SIZE + segment.memsz ≤ pgRndUp segment.memsz ∨
        pageEntry s pgd (pgRndDown segment.vaddr + pgRndUp segment.memsz) ≠ 0) := by
  rw [elfMap_done h hm hend]
  constructor
  · intro hmap
    exact ⟨hmap.1, (segmentMapped_of h hm hend hmap.1).1 hmap⟩
  · rintro ⟨hret, hor⟩
    exact (segmentMapped_of h hm hend hret).2 hor

end Segment

theorem newSpace_block (bm : Bitmap) : ∃ s, PgdInv s 0xC0200000 ∧
    s.pool.length = 1 ∧ ∀ p < USER_END, entryAt s.mem (addrToPhys 0xC0200000) p = 0 := by
  obtain ⟨hinv, hent⟩ := createPgd_spec (pgMachine_fresh bm) rfl
  exact ⟨_, hinv, rfl, hent⟩

theorem hasTables_one {s : Machine} {pgd : ℕ} {segment : ElfProgramHeader}
    (hpool : s.pool.length = 1) (hlow : pdeIndex segment.vaddr ≠ 0)
    (hlast : pdeIndex (segment.vaddr + pgRndUp segment.memsz - PAGE_SIZE) =
      pdeIndex segment.vaddr) : HasTables s pgd segment := by
  constructor
  · rintro ⟨h0, -⟩
    exact hlow h0
  · unfold Supplied missingTables
    rw [hlast, hpool]
    apply le_trans (remaining_le _)
    omega

/-- A page for a program at 4 MiB. -/
theorem segment_mapped_aligned : ∃ s, SegmentMapped s 0xC0200000
    ⟨ELF_PHEADER_LOAD, 0x1000, 0x400000, 0x1000, 0x1000⟩ := by
  obtain ⟨s, hinv, hpool, -⟩ := newSpace_block (pmmInit 0x400000 0)
  refine ⟨s, (segment_mapped_iff hinv (by decide) (by decide)).2
    ⟨hasTables_one hpool (by decide) (by decide), Or.inl (by decide)⟩⟩

/-- Two bytes across the end of a page: only the first of the two pages is mapped. -/
theorem segment_mapped_across : ∃ s, PgdInv s 0xC0200000 ∧ s.pool.length = 1 ∧
    (elfMapSegment ⟨s, []⟩ 0xC0200000 ⟨ELF_PHEADER_LOAD, 0x1FFF, 0x400FFF, 2, 2⟩).2 = true ∧
    pageEntry (elfMapSegment ⟨s, []⟩ 0xC0200000
      ⟨ELF_PHEADER_LOAD, 0x1FFF, 0x400FFF, 2, 2⟩).1.machine 0xC0200000 0x401000 = 0 := by
  obtain ⟨s, hinv, hpool, hent⟩ := newSpace_block (pmmInit 0x400000 0)
  have hret : (elfMapSegment ⟨s, []⟩ 0xC0200000
      ⟨ELF_PHEADER_LOAD, 0x1FFF, 0x400FFF, 2, 2⟩).2 = true :=
    (elfMap_done hinv (by decide) (by decide)).1 (hasTables_one hpool (by decide) (by decide))
  refine ⟨s, hinv, hpool, hret, ?_⟩
  by_contra hne
  rw [← ne_eq, elfMap_entry hinv (by decide) hret (by decide)] at hne
  rcases hne with ⟨-, hlt⟩ | hne
  · exact absurd hlt (by decide)
  · exact hne (hent _ (by decide))

end DepthOS
