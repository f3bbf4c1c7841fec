import DepthOS.Proofs.PagingCalls

/-! Page tables refine a partial map from pages to frames, over any sequence of
`map_page`, `map_addr_fixed` and `unmap_page` on a directory of `create_pgd`. -/

namespace DepthOS

open Lib

/-- What the tables are for: each page has a frame and a user bit, or nothing. -/
abbrev PageMap := ℕ → Option (ℕ × Bool)

def PageMap.apply (M : PageMap) (e : PgEvent) : PageMap :=
  match e with
  | .mapPage vaddr phys user => Function.update M (vaddr / PAGE_SIZE) (some (phys, user))
  | .mapAddrFixed vaddr pstart npages user overwrite => fun p =>
    if vaddr / PAGE_SIZE ≤ p ∧ p < vaddr / PAGE_SIZE + npages ∧
      ¬ ((M p).isSome ∧ overwrite = false)
    then some (u32 (pstart + u32 ((p - vaddr / PAGE_SIZE) * PAGE_SIZE)), user) else M p
  | .unmapPage vaddr => Function.update M (vaddr / PAGE_SIZE) none

/-- The map after a sequence of calls on an empty address space. -/
def PageMap.after (evs : List PgEvent) : PageMap := evs.foldl PageMap.apply fun _ => none

/-- The page-table entry that stands for a mapping. -/
def pteOf : Option (ℕ × Bool) → ℕ
  | none => 0
  | some (frame, user) => makePte frame true user

theorem pteOf_eq_zero (o : Option (ℕ × Bool)) : pteOf o = 0 ↔ o = none := by
  cases o with
  | none => simp [pteOf]
  | some x => simp [pteOf, makePte, makeEntry_ne_zero]

/-- The tables of `pgd` hold the map `M`. -/
structure Refines (s : Machine) (pgd : ℕ) (M : PageMap) : Prop where
  inv : PgdInv s pgd
  entry : ∀ p, UserPage p → entryAt s.mem (addrToPhys pgd) p = pteOf (M p)
  frame : ∀ p f u, M p = some (f, u) → f < 4294967296

theorem refines_step {s s' : Machine} {pgd : ℕ} {M : PageMap} {e : PgEvent}
    (h : Refines s pgd M) (hs : PgStep pgd s e s') :
    Refines s' pgd (M.apply e) ∧ SameElse s s' pgd ∧
    ∀ q < 1048576, ¬ e.touches q →
      entryAt s'.mem (addrToPhys pgd) q = entryAt s.mem (addrToPhys pgd) q := by
  obtain ⟨huser, hok, happ⟩ := hs
  have hlt : ∀ p, UserPage p → p < 1048576 := by
    intro p hp
    have := hp.2
    simp only [USER_END] at this
    omega
  cases e with
  | mapPage vaddr phys user =>
    have hp : UserPage (vaddr / 4096) := huser _ rfl
    obtain ⟨hinv, hsame, -, -, hent⟩ := mapPage_spec h.inv hp happ
    refine ⟨⟨hinv, fun p hpu => ?_, fun p f u hM => ?_⟩, hsame, fun q hq ht => ?_⟩
    · rw [hent p (hlt p hpu), PageMap.apply, Function.update_apply]
      split_ifs with hpv
      · rfl
      · exact h.entry p hpu
    · rw [PageMap.apply, Function.update_apply] at hM
      split_ifs at hM
      · obtain ⟨rfl, -⟩ := Prod.mk.inj (Option.some.inj hM)
        exact hok
      · exact h.frame p f u hM
    · have hne : q ≠ vaddr / 4096 := ht
      rw [hent q hq, if_neg hne]
  | mapAddrFixed vaddr pstart npages user overwrite =>
    have hp : ∀ i < npages, UserPage (vaddr / 4096 + i) := fun i hi => huser _
      ⟨Nat.le_add_right _ _, Nat.add_lt_add_left hi _⟩
    have hdone := mapFixed_spec h.inv hp happ
    refine ⟨⟨hdone.inv, fun p hpu => ?_, fun p f u hM => ?_⟩, hdone.same, fun q hq ht => ?_⟩
    · have hz : entryAt s.mem (addrToPhys pgd) p ≠ 0 ↔ (M p).isSome := by
        rw [h.entry p hpu, Ne, pteOf_eq_zero, Option.isSome_iff_ne_none]
      simp only [hdone.entry p (hlt p hpu), hz, PageMap.apply]
      split_ifs
      · rfl
      · exact h.entry p hpu
    · simp only [PageMap.apply] at hM
      split_ifs at hM
      · obtain ⟨rfl, -⟩ := Prod.mk.inj (Option.some.inj hM)
        exact Nat.mod_lt _ (by norm_num)
      · exact h.frame p f u hM
    · rw [hdone.entry q hq, if_neg fun hc => ht ⟨hc.1, hc.2.1⟩]
  | unmapPage vaddr =>
    have hp : UserPage (vaddr / 4096) := huser _ rfl
    obtain ⟨hinv, hsame, hent⟩ := unmapPage_spec h.inv hp.2
    obtain rfl := Option.some.inj happ
    refine ⟨⟨hinv, fun p hpu => ?_, fun p f u hM => ?_⟩, hsame, fun q hq ht => ?_⟩
    · rw [hent p (hlt p hpu), PageMap.apply, Function.update_apply]
      split_ifs with hpv
      · rfl
      · exact h.entry p hpu
    · rw [PageMap.apply, Function.update_apply] at hM
      split_ifs at hM
      exact h.frame p f u hM
    · have hne : q ≠ vaddr / 4096 := ht
      rw [hent q hq, if_neg hne]

/-- A directory as `create_pgd` leaves it. -/
def PgBoot (pgd : ℕ) (s : Machine) : Prop := ∃ s0, FreshHeap s0 ∧ createPgd s0 = some (pgd, s)

def PgRun (pgd : ℕ) : List PgEvent → Machine → Prop := Run (PgBoot pgd) (PgStep pgd)

theorem refines_run {pgd : ℕ} {evs : List PgEvent} {s : Machine} (h : PgRun pgd evs s) :
    Refines s pgd (PageMap.after evs) := by
  induction h with
  | nil hb =>
    obtain ⟨s0, hfresh, hc⟩ := hb
    obtain ⟨hinv, hent⟩ := createPgd_spec hfresh hc
    exact ⟨hinv, fun p hp => hent p hp.2, by simp [PageMap.after]⟩
  | snoc _ hs ih =>
    rw [PageMap.after, List.foldl_append]
    exact (refines_step ih hs).1

/-- In every reachable state the entry of a user page is that of the last mapping
made there, or zero; a further call leaves all other pages and the kernel's
directory entries alone; and `get_phys_addr` gives the mapped frame. -/
theorem page_tables_refine {pgd : ℕ} {evs : List PgEvent} {s : Machine} (h : PgRun pgd evs s) :
    (∀ va, UserPage (va / PAGE_SIZE) →
      pageEntry s pgd va = pteOf (PageMap.after evs (va / PAGE_SIZE))) ∧
    (∀ e s', PgStep pgd s e s' →
      (∀ va < 4294967296, ¬ e.touches (va / PAGE_SIZE) → pageEntry s' pgd va = pageEntry s pgd va) ∧
      ∀ i, 768 ≤ i → i < 1024 → kload s' (pgd + 4 * i) = kload s (pgd + 4 * i)) ∧
    (s.pagingEnabled = true → ∀ va frame user, UserPage (va / PAGE_SIZE) →
      PageMap.after evs (va / PAGE_SIZE) = some (frame, user) →
      getPhysAddr s pgd va = pgRndDown frame + va % PAGE_SIZE) := by
  have hr := refines_run h
  have hentry : ∀ va, UserPage (va / PAGE_SIZE) →
      pageEntry s pgd va = pteOf (PageMap.after evs (va / PAGE_SIZE)) := by
    intro va hva
    have hidx : va / 4096 / 1024 < 768 := hva.index.2
    rw [pageEntry_eq hr.inv.block hva.va_lt (hr.inv.window _ (by omega))]
    exact hr.entry _ hva
  refine ⟨hentry, fun e s' hs => ?_, fun hpg va frame user hva hM => ?_⟩
  · obtain ⟨hr', hsame, hother⟩ := refines_step hr hs
    constructor
    · intro va hva ht
      rw [pageEntry_eq hr'.inv.block hva (hr'.inv.window _ (by omega)),
        pageEntry_eq hr.inv.block hva (hr.inv.window _ (by omega))]
      exact hother _ (by omega) ht
    · intro i hi hi'
      rw [kload_pde hr.inv.block hi', kload_pde hr.inv.block hi']
      exact hsame.kernel i hi hi'
  · have he := hentry va hva
    rw [hM] at he
    have hf := hr.frame _ _ _ hM
    have hpg0 : getPage s pgd va ≠ 0 := by
      intro h0
      rw [pageEntry, if_pos h0] at he
      exact makeEntry_ne_zero _ _ _ he.symm
    rw [pageEntry, if_neg hpg0] at he
    simp only [getPhysAddr, hpg, Bool.true_eq_false, if_false, if_neg hpg0, he]
    rw [pteOf, makePte, extractAddr_makeEntry]
    simp only [u32, pgRndDown, roundDown, PAGE_SIZE]
    omega

/-- The most blocks a call can need: one table for each of its pages. -/
def PgEvent.blocks : PgEvent → ℕ
  | .mapPage _ _ _ => 1
  | .mapAddrFixed _ _ npages _ _ => npages
  | .unmapPage _ => 0

/-- A call comes back as long as the heap has these blocks. -/
theorem pgApply_returns {pgd : ℕ} {evs : List PgEvent} {s : Machine} (h : PgRun pgd evs s)
    {e : PgEvent} (hu : e.InUser) (hpool : e.blocks ≤ s.pool.length) :
    ∃ s', pgApply s pgd e = some s' := by
  have hr := refines_run h
  cases e with
  | mapPage vaddr phys user =>
    exact mapPage_returns _ _ hr.inv (hu _ rfl) (List.ne_nil_of_length_pos hpool)
  | mapAddrFixed vaddr pstart npages user overwrite =>
    have hp : ∀ i < npages, UserPage (vaddr / 4096 + i) := fun i hi => hu _
      ⟨Nat.le_add_right _ _, Nat.add_lt_add_left hi _⟩
    exact mapFixed_returns _ _ _ hr.inv hp hpool
  | unmapPage vaddr => exact ⟨_, rfl⟩

/-- Zeroed memory and a heap of two pages. -/
def pgMachine (bm : Bitmap) : Machine :=
  { mem := fun _ => 0, pmmBitmap := bm
    pool := [0xC0200000, 0xC0201000], kernelPgd := 0xC0100000, cr3 := 0x100000
    currentPgd := 0xC0100000, pagingEnabled := true, installs := [] }

theorem pgMachine_fresh (bm : Bitmap) : FreshHeap (pgMachine bm) := by
  have hpool : ∀ b ∈ (pgMachine bm).pool, b = 0xC0200000 ∨ b = 0xC0201000 := by
    simp [pgMachine]
  have hblock : ∀ b ∈ (pgMachine bm).pool, KBlock b := by
    intro b hb
    rcases hpool b hb with rfl | rfl <;> exact ⟨by decide, by decide, by decide⟩
  have hkernel : (pgMachine bm).kernelPgd = 0xC0100000 := rfl
  have htab : ∀ i, tableAt (pgMachine bm).mem (addrToPhys (pgMachine bm).kernelPgd) i = 0 := by
    intro i
    simp [tableAt, pdeAt, load32, pgMachine, extractAddr]
  refine ⟨hblock, ?_, ?_, ?_, fun i _ _ => ?_,
    fun b hb i _ _ => ?_⟩
  · show [addrToPhys 0xC0200000, addrToPhys 0xC0201000].Nodup
    decide
  · rw [hkernel]
    exact ⟨by decide, by decide, by decide⟩
  · intro b hb
    rw [hkernel]
    rcases hpool b hb with rfl | rfl <;> decide
  · rw [htab]
    norm_num
  · rw [htab]
    exact (hblock b hb).phys.2.2.1

/-- A page mapped in a new address space. -/
theorem page_tables_refine_one : ∃ s, PgRun 0xC0200000 [.mapPage 0x400123 0x7000 true] s ∧
    pageEntry s 0xC0200000 0x400000 = makePte 0x7000 true true ∧
    getPhysAddr s 0xC0200000 0x400123 = 0x7123 := by
  have hb : PgBoot 0xC0200000 _ := ⟨_, pgMachine_fresh (pmmInit 0x400000 0), rfl⟩
  have h0 : PgRun 0xC0200000 [] _ := Run.nil hb
  have hu : UserPage (0x400123 / 4096) := ⟨by decide, by decide⟩
  have hinv := (refines_run h0).inv
  obtain ⟨s, hs⟩ := mapPage_returns 0x7000 true hinv hu (List.cons_ne_nil _ _)
  have hpg : s.pagingEnabled = true := (mapPage_spec hinv hu hs).2.1.paging
  have h : PgRun 0xC0200000 [.mapPage 0x400123 0x7000 true] s := by
    refine h0.snoc ⟨?_, ?_, hs⟩
    · rintro p rfl
      exact hu
    · show 0x7000 < 4294967296
      norm_num
  obtain ⟨hent, -, hphys⟩ := page_tables_refine h
  exact ⟨s, h, hent 0x400000 ⟨by decide, by decide⟩, hphys hpg 0x400123 0x7000 true hu rfl⟩

end DepthOS
