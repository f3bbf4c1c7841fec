import DepthOS.Proofs.FaultPages

/-! What mapping pages one by one does to a page directory: each page gets its entry, and a
page table is made wherever there is none yet, except in the first 4 MiB. So many blocks of the
heap are taken as there were tables missing. -/

namespace DepthOS

open Lib

theorem pgRndUp_small {n : ℕ} (h : n ≤ 0xFFFFF000) : pgRndUp n = (n + 4095) / 4096 * 4096 := by
  simp only [pgRndUp, roundUp, u32, PAGE_SIZE]
  omega

section Page

variable {s s' : Machine} {pgd va phys : ℕ} {user : Bool}

/-- A page has got an entry, and a table for it if there was none. -/
structure PageAdded (s s' : Machine) (pgd page : ℕ) : Prop where
  inv : PgdInv s' pgd
  table : tableAt s'.mem (addrToPhys pgd) (page / 1024) ≠ 0
  others : ∀ j < 1024, j ≠ page / 1024 →
    tableAt s'.mem (addrToPhys pgd) j = tableAt s.mem (addrToPhys pgd) j
  pool : tableAt s.mem (addrToPhys pgd) (page / 1024) ≠ 0 ∧ s'.pool = s.pool ∨
    tableAt s.mem (addrToPhys pgd) (page / 1024) = 0 ∧ s.pool.length = s'.pool.length + 1
  entry : ∀ q < 1048576, entryAt s'.mem (addrToPhys pgd) q ≠ 0 ↔
    q = page ∨ entryAt s.mem (addrToPhys pgd) q ≠ 0

theorem table_of_entry {m : Mem} {P p : ℕ} (h : entryAt m P p ≠ 0) :
    tableAt m P (p / 1024) ≠ 0 := by
  intro h0
  rw [entryAt, if_pos h0] at h
  exact h rfl

theorem entry_added {p q e e' v : ℕ} (hv : v ≠ 0) (h : e' = if q = p then v else e) :
    e' ≠ 0 ↔ q = p ∨ e ≠ 0 := by
  rw [h]
  split_ifs with hq
  · simp [hq, hv]
  · simp [hq]

theorem storePte_table {p v : ℕ} (h : PgdInv s pgd) (hp : p < USER_END)
    (ht : tableAt s.mem (addrToPhys pgd) (p / 1024) ≠ 0) {j : ℕ} (hj : j < 1024) :
    tableAt (storePte s pgd p v).mem (addrToPhys pgd) j = tableAt s.mem (addrToPhys pgd) j :=
  congrArg extractAddr ((setEntry_spec h hp ht).1 j hj)

theorem mapPage_added (h : PgdInv s pgd) (hp : va / 4096 < USER_END)
    (hm : mapPage s pgd va phys user = some s') : PageAdded s s' pgd (va / 4096) := by
  have hidx := (user_va_lt hp).2
  have hent := (mapPage_step h hp hm).2
  have hentry : ∀ q < 1048576, entryAt s'.mem (addrToPhys pgd) q ≠ 0 ↔
      q = va / 4096 ∨ entryAt s.mem (addrToPhys pgd) q ≠ 0 :=
    fun q hq => entry_added (makeEntry_ne_zero _ _ _) (hent q hq)
  have htable := table_of_entry ((hentry (va / 4096) (by simp only [USER_END] at hp; omega)).2
    (Or.inl rfl))
  have hinv := (mapPage_step h hp hm).1.inv
  by_cases ht : tableAt s.mem (addrToPhys pgd) (va / 4096 / 1024) = 0
  · by_cases hlow : va / 4096 / 1024 = 0
    · simp [mapPage_of_low h hlow ht] at hm
    · have hup : UserPage (va / 4096) := ⟨by simp only [USER_FIRST]; omega, hp⟩
      cases hpool : s.pool with
      | nil => simp [mapPage_of_nil h hup ht hpool] at hm
      | cons b rest =>
        rw [mapPage_of_pool h hup ht hpool] at hm
        obtain rfl := Option.some.inj hm
        have hb := h.pool_block b (by simp [hpool])
        have hne := h.pool_pgd b (by simp [hpool])
        obtain ⟨hnew, htab, -⟩ := newTable_spec (w := true) (u := user) h hpool (by omega) ht
        refine ⟨hinv, htable, fun j hj hji => ?_, Or.inr ⟨ht, by rw [hpool]; rfl⟩, hentry⟩
        rw [storePte_table hnew hp (by rw [htab]; exact hb.phys.2.2.1) hj]
        unfold tableAt
        rw [pdeAt_withTable h.block hb hne hj, if_neg hji]
  · rw [mapPage_of_table h hp ht] at hm
    obtain rfl := Option.some.inj hm
    exact ⟨hinv, htable, fun j hj _ => storePte_table h hp ht hj, Or.inl ⟨ht, rfl⟩, hentry⟩

theorem getPagetable_zero (h : PgdInv s pgd) :
    getPagetable s pgd 0 = 0 ↔ tableAt s.mem (addrToPhys pgd) 0 = 0 := by
  have hw := virt_ne_zero (h.window 0 (by norm_num))
  have hi : pdeIndex 0 = 0 := rfl
  have hload : kload s (pgd + 4 * 0) = pdeAt s.mem (addrToPhys pgd) 0 :=
    kload_pde h.block (by norm_num)
  unfold getPagetable
  dsimp only
  rw [hi, hload]
  change (if tableAt s.mem (addrToPhys pgd) 0 = 0 then 0
    else addrToVirt (tableAt s.mem (addrToPhys pgd) 0)) = 0 ↔ _
  split_ifs with h0
  · exact iff_of_true rfl h0
  · exact iff_of_false hw h0

end Page

section Loop

variable {s s' : Machine} {pgd page n lo hi : ℕ}

/-- The page tables from number `lo` to below `hi` that the directory lacks. -/
def missingTables (s : Machine) (pgd hi lo : ℕ) : ℕ :=
  remaining (fun i => tableAt s.mem (addrToPhys pgd) i = 0) hi lo

/-- `n` pages from `page` on have got entries, and each table made on the way has taken a block
of the heap. -/
structure PagesAdded (s s' : Machine) (pgd page n hi : ℕ) : Prop where
  inv : PgdInv s' pgd
  tables : ∀ j < 1024, tableAt s.mem (addrToPhys pgd) j ≠ 0 →
    tableAt s'.mem (addrToPhys pgd) j ≠ 0
  taken : missingTables s pgd hi (page / 1024) + s'.pool.length =
    missingTables s' pgd hi (page / 1024) + s.pool.length
  entry : ∀ q < 1048576, entryAt s'.mem (addrToPhys pgd) q ≠ 0 ↔
    page ≤ q ∧ q < page + n ∨ entryAt s.mem (addrToPhys pgd) q ≠ 0

theorem PagesAdded.init (h : PgdInv s pgd) : PagesAdded s s pgd page 0 hi := by
  refine ⟨h, fun _ _ h0 => h0, rfl, fun q _ => ?_⟩
  constructor
  · exact Or.inr
  · rintro (hq | hq)
    · omega
    · exact hq

theorem PagesAdded.canMap (h : PagesAdded s s' pgd page n hi) (hhi : (page + n) / 1024 < hi)
    (hs : missingTables s pgd hi (page / 1024) ≤ s.pool.length)
    (hlow : (page + n) / 1024 = 0 → tableAt s.mem (addrToPhys pgd) 0 ≠ 0) {va : ℕ}
    (hva : va / 4096 = page + n) : CanMap s' pgd va := by
  unfold CanMap
  rw [pdeIndex_eq, hva]
  by_cases ht : tableAt s'.mem (addrToPhys pgd) ((page + n) / 1024) = 0
  · apply Or.inr
    constructor
    · intro h0
      rw [h0] at ht
      exact h.tables 0 (by norm_num) (hlow h0) ht
    · apply List.ne_nil_of_length_pos
      have hanti : missingTables s' pgd hi ((page + n) / 1024) ≤
          missingTables s' pgd hi (page / 1024) := remaining_anti (by omega)
      have hpos : missingTables s' pgd hi ((page + n) / 1024) =
          missingTables s' pgd hi ((page + n) / 1024 + 1) + 1 := remaining_pos hhi ht
      have hle := h.taken
      omega
  · exact Or.inl ht

theorem PagesAdded.step {s'' : Machine} (h : PagesAdded s s' pgd page n hi)
    (hhi : (page + n) / 1024 < hi) (hle : hi ≤ 1024) (hadd : PageAdded s' s'' pgd (page + n)) :
    PagesAdded s s'' pgd page (n + 1) hi := by
  have htaken := h.taken
  refine ⟨hadd.inv, fun j hj h0 => ?_, ?_, fun q hq => ?_⟩
  · by_cases hji : j = (page + n) / 1024
    · rw [hji]
      exact hadd.table
    · rw [hadd.others j hj hji]
      exact h.tables j hj h0
  · rcases hadd.pool with ⟨ht, hp⟩ | ⟨ht, hp⟩
    · have hsame : missingTables s'' pgd hi (page / 1024) =
          missingTables s' pgd hi (page / 1024) := by
        apply remaining_congr
        intro i hi'
        by_cases hie : i = (page + n) / 1024
        · rw [hie]
          exact iff_of_false hadd.table ht
        · rw [hadd.others i (by omega) hie]
      rw [hsame, hp]
      exact htaken
    · -- the table is new, and there is one less to come
      have hset : missingTables s' pgd hi (page / 1024) =
          missingTables s'' pgd hi (page / 1024) + 1 := by
        apply remaining_settle (by omega) hhi ht
        intro i hi'
        by_cases hie : i = (page + n) / 1024
        · simp [hie, hadd.table]
        · rw [hadd.others i (by omega) hie]
          simp [hie]
      omega
  · rw [hadd.entry q hq, h.entry q hq]
    constructor
    · rintro (rfl | ⟨h1, h2⟩ | h0)
      · exact Or.inl ⟨by omega, by omega⟩
      · exact Or.inl ⟨h1, by omega⟩
      · exact Or.inr h0
    · rintro (⟨h1, h2⟩ | h0)
      · rcases Nat.lt_or_ge q (page + n) with hlt | hge
        · exact Or.inr (Or.inl ⟨h1, hlt⟩)
        · exact Or.inl (by omega)
      · exact Or.inr (Or.inr h0)

theorem PagesAdded.supplied (h : PagesAdded s s' pgd page n hi) (hn : 0 < n)
    (hhi : hi ≤ 1024) (hlast : hi ≤ (page + n - 1) / 1024 + 1) :
    missingTables s pgd hi (page / 1024) ≤ s.pool.length := by
  have hnone : missingTables s' pgd hi (page / 1024) = 0 := by
    apply remaining_none
    intro i hlo hi'
    have hq : max page (i * 1024) / 1024 = i := by omega
    have hent := (h.entry (max page (i * 1024)) (by omega)).2 (Or.inl (by omega))
    rw [← hq]
    exact table_of_entry hent
  have htaken := h.taken
  omega

end Loop

end DepthOS
