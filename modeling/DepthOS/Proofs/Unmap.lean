import DepthOS.Proofs.Paging

/-! `unmap_addr`: single pages up to the first whole table, whole tables, and the pages
that are left. Whether tables are freed or not, the same entries are gone. -/

namespace DepthOS

open Lib

section Table

variable {s : Machine} {pgd va : ℕ}

/-- On a 32-bit entry both ways of cutting off the flags are the same. -/
theorem shift_eq_extract {v : ℕ} (h : v < 4294967296) : v >>> 12 <<< 12 = extractAddr v := by
  rw [extractAddr_eq, Nat.shiftRight_eq_div_pow, Nat.shiftLeft_eq]
  omega

/-- Memory once directory entry `i` is cleared and its table, at `t`, is back on a
freelist. -/
def withoutTable (m : Mem) (P i t : ℕ) (link : Option ℕ) : Mem :=
  match link with
  | none => store32 m (P + 4 * i) 0
  | some next => store32 (store32 m (P + 4 * i) 0) t next

theorem load_withoutTable {m : Mem} {P i t x k : ℕ} (link : Option ℕ) (ht : t % 4096 = 0)
    (hx : x % 4096 = 0) (hne : t ≠ x) (hk : k < 1024) :
    load32 (withoutTable m P i t link) (x + 4 * k) =
      load32 (store32 m (P + 4 * i) 0) (x + 4 * k) := by
  cases link with
  | none => rfl
  | some next =>
    apply load32_store32_of_apart
    unfold Apart
    omega

theorem tableAt_withoutTable {P i t j : ℕ} (m : Mem) (link : Option ℕ) (hP : P % 4096 = 0)
    (ht : t % 4096 = 0) (hne : t ≠ P) (hj : j < 1024) :
    tableAt (withoutTable m P i t link) P j = if j = i then 0 else tableAt m P j := by
  unfold tableAt pdeAt
  rw [load_withoutTable link ht hP hne hj]
  split_ifs with hji
  · rw [hji, load32_store32]
    rfl
  · rw [load32_store32_of_apart (apart_of_index (Ne.symm hji))]

theorem kfreePage_kstore (link : Option ℕ) (h : PgdInv s pgd) {i : ℕ} (hi : i < 1024) :
    kfreePage (kstore s (pgd + 4 * i) 0) (addrToVirt (tableAt s.mem (addrToPhys pgd) i)) link =
      { s with
        mem := withoutTable s.mem (addrToPhys pgd) i (tableAt s.mem (addrToPhys pgd) i) link
        pool := addrToVirt (tableAt s.mem (addrToPhys pgd) i) :: s.pool } := by
  have hw := h.window i hi
  unfold kfreePage kstore
  dsimp only
  rw [h.block.phys_add (by omega), phys_virt' (by omega)]
  cases link <;> rfl

theorem unmapTable_cases (links : ℕ → Option ℕ) (h : PgdInv s pgd) (hp : va / 4096 < USER_END) :
    unmapTable links s pgd va =
      if tableAt s.mem (addrToPhys pgd) (va / 4096 / 1024) = 0 then s
      else
        { s with
          mem := withoutTable s.mem (addrToPhys pgd) (va / 4096 / 1024)
            (tableAt s.mem (addrToPhys pgd) (va / 4096 / 1024))
            (links (addrToVirt (tableAt s.mem (addrToPhys pgd) (va / 4096 / 1024))))
          pool := addrToVirt (tableAt s.mem (addrToPhys pgd) (va / 4096 / 1024)) :: s.pool } := by
  have hidx := (user_va_lt hp).2
  have hg : ¬ pdeIndex va ≥ 1024 := by
    rw [pdeIndex_eq]
    omega
  have ht : kload s (pgd + 4 * pdeIndex va) >>> 12 <<< 12 =
      tableAt s.mem (addrToPhys pgd) (va / 4096 / 1024) := by
    rw [pdeIndex_eq, kload_pde h.block (by omega), pdeAt, shift_eq_extract (load32_lt _ _)]
    rfl
  unfold unmapTable
  rw [if_neg hg]
  dsimp only
  rw [ht]
  split_ifs with h0
  · rfl
  · rw [pdeIndex_eq]
    exact kfreePage_kstore _ h (by omega)

theorem kblock_table (h : PgdInv s pgd) {i : ℕ} (hi : i < 1024)
    (ht : tableAt s.mem (addrToPhys pgd) i ≠ 0) :
    KBlock (addrToVirt (tableAt s.mem (addrToPhys pgd) i)) := by
  have hw := h.window i hi
  have hal := tableAt_aligned s.mem (addrToPhys pgd) i
  constructor
  · simp only [addrToVirt, u32, VIRT_BASE]
    omega
  · simp only [addrToVirt, u32, VIRT_BASE]
    omega
  · simp only [addrToVirt, u32, VIRT_BASE]
    omega

theorem pgdInv_withoutTable {i t b : ℕ} (link : Option ℕ) (h : PgdInv s pgd) (hi : i < 768)
    (ht : tableAt s.mem (addrToPhys pgd) i = t) (h0 : t ≠ 0) (hb : KBlock b)
    (hphys : addrToPhys b = t) :
    PgdInv { s with mem := withoutTable s.mem (addrToPhys pgd) i t link, pool := b :: s.pool }
      pgd := by
  have htab : ∀ j < 1024, tableAt (withoutTable s.mem (addrToPhys pgd) i t link)
      (addrToPhys pgd) j = if j = i then 0 else tableAt s.mem (addrToPhys pgd) j := fun j hj =>
    tableAt_withoutTable s.mem link h.block.phys.2.1 (ht ▸ tableAt_aligned _ _ _)
      (ht ▸ h.apart i (by omega)) hj
  refine ⟨h.block, fun j hj => ?_, fun j hj => ?_, fun j hj k hk hjk hj0 => ?_,
    List.forall_mem_cons.2 ⟨hb, h.pool_block⟩, ?_, List.forall_mem_cons.2 ⟨?_, h.pool_pgd⟩,
    List.forall_mem_cons.2 ⟨fun j hj => ?_, fun c hc j hj => ?_⟩⟩
  · rw [htab j hj]
    split_ifs
    · norm_num
    · exact h.window j hj
  · rw [htab j hj]
    split_ifs
    · exact h.block.phys.2.2.1.symm
    · exact h.apart j hj
  · rw [htab j (by omega)] at hj0 ⊢
    rw [htab k hk]
    by_cases hji : j = i
    · exact absurd (if_pos hji) hj0
    · rw [if_neg hji] at hj0 ⊢
      split_ifs
      · exact hj0
      · exact h.distinct j hj k hk hjk hj0
  · rw [List.map_cons, List.nodup_cons, hphys]
    refine ⟨fun hmem => ?_, h.pool_nodup⟩
    obtain ⟨c, hc, he⟩ := List.mem_map.1 hmem
    exact h.pool_table c hc i (by omega) (he.trans ht.symm)
  · rw [hphys, ← ht]
    exact h.apart i (by omega)
  · rw [htab j hj, hphys]
    split_ifs with hji
    · exact h0
    · rw [← ht] at h0 ⊢
      exact h.distinct i hi j hj (Ne.symm hji) h0
  · rw [htab j hj]
    split_ifs
    · exact (h.pool_block c hc).phys.2.2.1
    · exact h.pool_table c hc j hj

theorem entryAt_withoutTable {i q : ℕ} (link : Option ℕ) (h : PgdInv s pgd) (hi : i < 768)
    (h0 : tableAt s.mem (addrToPhys pgd) i ≠ 0) (hq : q < 1048576) :
    entryAt (withoutTable s.mem (addrToPhys pgd) i (tableAt s.mem (addrToPhys pgd) i) link)
      (addrToPhys pgd) q = if q / 1024 = i then 0 else entryAt s.mem (addrToPhys pgd) q := by
  have hal := tableAt_aligned s.mem (addrToPhys pgd) i
  have hdir := h.block.phys.2.1
  rw [entryAt, tableAt_withoutTable s.mem link hdir hal (h.apart i (by omega)) (by omega), entryAt]
  by_cases hqi : q / 1024 = i
  · rw [if_pos hqi, if_pos rfl, if_pos hqi]
  · rw [if_neg hqi, if_neg hqi]
    split_ifs with hq0
    · rfl
    · -- the table of another page is neither the directory nor the table freed
      rw [load_withoutTable link hal (tableAt_aligned _ _ _)
        (h.distinct i hi _ (by omega) (Ne.symm hqi) h0) (by omega)]
      exact load32_store32_of_apart (apart_of_pages hdir (tableAt_aligned _ _ _)
        (h.apart _ (by omega)).symm (by omega) (by omega))

theorem unmapTable_spec (links : ℕ → Option ℕ) (h : PgdInv s pgd) (hp : va / 4096 < USER_END) :
    PgdInv (unmapTable links s pgd va) pgd ∧
    ∀ q < 1048576, entryAt (unmapTable links s pgd va).mem (addrToPhys pgd) q =
      if q / 1024 = va / 4096 / 1024 then 0 else entryAt s.mem (addrToPhys pgd) q := by
  rw [unmapTable_cases links h hp]
  have hi := (user_va_lt hp).2
  generalize va / 4096 / 1024 = i at hi
  by_cases h0 : tableAt s.mem (addrToPhys pgd) i = 0
  · rw [if_pos h0]
    refine ⟨h, fun q _ => ?_⟩
    split_ifs with hq
    · rw [entryAt, hq, if_pos h0]
    · rfl
  · rw [if_neg h0]
    have hw := h.window i (by omega)
    refine ⟨pgdInv_withoutTable _ h hi rfl h0 (kblock_table h (by omega) h0)
      (phys_virt' (by omega)), fun q hq => entryAt_withoutTable _ h hi h0 hq⟩

end Table

section Range

variable {s s' : Machine} {pgd a stop : ℕ}

/-- The pages from `a` to below `b` have lost their entries, the others have kept theirs. -/
structure Cleared (s s' : Machine) (pgd a b : ℕ) : Prop where
  inv : PgdInv s' pgd
  entry : ∀ q < 1048576, entryAt s'.mem (addrToPhys pgd) q =
    if a ≤ q ∧ q < b then 0 else entryAt s.mem (addrToPhys pgd) q

theorem Cleared.init (h : PgdInv s pgd) (a : ℕ) : Cleared s s pgd a a :=
  ⟨h, fun q _ => by rw [if_neg (by omega)]⟩

theorem Cleared.page {cur : ℕ} (h : Cleared s s' pgd a (cur / 4096)) (ha : a ≤ cur / 4096)
    (hp : cur / 4096 < USER_END) :
    Cleared s (unmapPage s' pgd cur) pgd a (cur / 4096 + 1) := by
  obtain ⟨hinv, -, hent⟩ := unmapPage_spec h.inv hp
  refine ⟨hinv, fun q hq => ?_⟩
  rw [hent q hq, h.entry q hq]
  split_ifs <;> first | rfl | omega

theorem Cleared.table {cur : ℕ} (links : ℕ → Option ℕ) (h : Cleared s s' pgd a (cur / 4096))
    (ha : a ≤ cur / 4096) (hp : cur / 4096 < USER_END) (hal : cur % 4194304 = 0) :
    Cleared s (unmapTable links s' pgd cur) pgd a (cur / 4096 + 1024) := by
  obtain ⟨hinv, hent⟩ := unmapTable_spec links h.inv hp
  refine ⟨hinv, fun q hq => ?_⟩
  rw [hent q hq, h.entry q hq]
  split_ifs <;> first | rfl | omega

/-- Where a loop stands: at a page boundary, with the pages behind it cleared. -/
structure UnmapAt (s : Machine) (pgd a stop : ℕ) (s' : Machine) (cur : ℕ) : Prop where
  aligned : cur % 4096 = 0
  start : a ≤ cur / 4096
  le : cur ≤ stop
  cleared : Cleared s s' pgd a (cur / 4096)

theorem pagesLoop_spec {bound cur fuel : ℕ} (hstop : stop % 4096 = 0) (hle : stop ≤ VIRT_BASE)
    (hbound : bound % 4096 = 0) (h : UnmapAt s pgd a stop s' cur) (hcur : cur ≤ bound)
    (hfuel : (stop - cur) / 4096 < fuel) :
    ∃ s1 cur1, unmapLoop (fun s cur => unmapPage s pgd cur) PAGE_SIZE bound stop fuel s' cur =
      some (s1, cur1) ∧ UnmapAt s pgd a stop s1 cur1 ∧ cur ≤ cur1 ∧
      (cur1 = bound ∨ cur1 = stop) := by
  have hstep : ∀ s1 c, (UnmapAt s pgd a stop s1 c ∧ cur ≤ c ∧ c ≤ bound) →
      decide (c < bound ∧ c < stop) = true →
      (UnmapAt s pgd a stop (unmapPage s1 pgd c) (u32 (c + PAGE_SIZE)) ∧ cur ≤ u32 (c + PAGE_SIZE) ∧
        u32 (c + PAGE_SIZE) ≤ bound) ∧
      (stop - u32 (c + PAGE_SIZE)) / 4096 < (stop - c) / 4096 := by
    intro s1 c hat hc
    obtain ⟨⟨hal, hst, hcs, hcl⟩, hge, hcb⟩ := hat
    have hlt := of_decide_eq_true hc
    have hnext : u32 (c + PAGE_SIZE) = c + 4096 := by
      simp only [VIRT_BASE] at hle
      exact u32_of_lt (show c + 4096 < 4294967296 by omega)
    have hpage : (c + 4096) / 4096 = c / 4096 + 1 := by omega
    rw [hnext]
    refine ⟨⟨⟨by omega, by omega, by omega, ?_⟩, by omega, by omega⟩, by omega⟩
    rw [hpage]
    apply hcl.page hst
    simp only [VIRT_BASE, USER_END] at *
    omega
  obtain ⟨s1, c, hrun, ⟨hat, hge, hcb⟩, hend⟩ := forLoop_rule
    (I := fun s1 c => UnmapAt s pgd a stop s1 c ∧ cur ≤ c ∧ c ≤ bound)
    (fun c => (stop - c) / 4096) hstep ⟨h, le_refl _, hcur⟩ hfuel
  have hno := of_decide_eq_false hend
  have hcs := hat.le
  exact ⟨s1, c, hrun, hat, hge, by omega⟩

theorem tablesLoop_spec {cur fuel : ℕ} (links : ℕ → Option ℕ) (hle : stop ≤ VIRT_BASE)
    (h : UnmapAt s pgd a stop s' cur) (hcur : cur < stop → cur % 4194304 = 0)
    (hfuel : (stop - cur) / 4096 < fuel) :
    ∃ s1 cur1, unmapLoop (fun s cur => unmapTable links s pgd cur) (PAGE_SIZE * PAGE_TABLE_SIZE)
      (roundDown stop (PAGE_TABLE_SIZE * PAGE_SIZE)) stop fuel s' cur = some (s1, cur1) ∧
      UnmapAt s pgd a stop s1 cur1 ∧ cur ≤ cur1 := by
  have hstep : ∀ s1 c, (UnmapAt s pgd a stop s1 c ∧ cur ≤ c ∧ (c < stop → c % 4194304 = 0)) →
      decide (c < roundDown stop (PAGE_TABLE_SIZE * PAGE_SIZE) ∧ c < stop) = true →
      (UnmapAt s pgd a stop (unmapTable links s1 pgd c) (u32 (c + PAGE_SIZE * PAGE_TABLE_SIZE)) ∧
        cur ≤ u32 (c + PAGE_SIZE * PAGE_TABLE_SIZE) ∧
        (u32 (c + PAGE_SIZE * PAGE_TABLE_SIZE) < stop →
          u32 (c + PAGE_SIZE * PAGE_TABLE_SIZE) % 4194304 = 0)) ∧
      (stop - u32 (c + PAGE_SIZE * PAGE_TABLE_SIZE)) / 4096 < (stop - c) / 4096 := by
    intro s1 c hat hc
    obtain ⟨⟨hal, hst, hcs, hcl⟩, hge, h4m⟩ := hat
    have hlt := of_decide_eq_true hc
    simp only [roundDown, PAGE_TABLE_SIZE, PAGE_SIZE] at hlt
    have hmod := h4m hlt.2
    have hnext : u32 (c + PAGE_SIZE * PAGE_TABLE_SIZE) = c + 4194304 := by
      simp only [VIRT_BASE] at hle
      exact u32_of_lt (show c + 4194304 < 4294967296 by omega)
    have hpage : (c + 4194304) / 4096 = c / 4096 + 1024 := by omega
    rw [hnext]
    refine ⟨⟨⟨by omega, by omega, by omega, ?_⟩, by omega, fun _ => by omega⟩, by omega⟩
    rw [hpage]
    refine hcl.table links hst ?_ hmod
    simp only [VIRT_BASE, USER_END] at *
    omega
  obtain ⟨s1, c, hrun, ⟨hat, hge, -⟩, -⟩ := forLoop_rule
    (I := fun s1 c => UnmapAt s pgd a stop s1 c ∧ cur ≤ c ∧ (c < stop → c % 4194304 = 0))
    (fun c => (stop - c) / 4096) hstep ⟨h, le_refl _, hcur⟩ hfuel
  exact ⟨s1, c, hrun, hat, hge⟩

theorem unmapAddr_spec {vaddr npages fuel : ℕ} (links : ℕ → Option ℕ) (freetbl : Bool)
    (h : PgdInv s pgd) (hal : vaddr % PAGE_SIZE = 0)
    (hend : vaddr + npages * PAGE_SIZE ≤ VIRT_BASE) (hfuel : npages < fuel) :
    ∃ s', unmapAddr links fuel s pgd vaddr npages freetbl = some s' ∧
      Cleared s s' pgd (vaddr / 4096) (vaddr / 4096 + npages) := by
  simp only [PAGE_SIZE, VIRT_BASE] at hal hend
  have hstop : u32 (vaddr + u32 (npages * PAGE_SIZE)) = vaddr + npages * 4096 := by
    simp only [u32, PAGE_SIZE]
    omega
  unfold unmapAddr
  rw [hstop]
  dsimp only
  generalize hb : vaddr + npages * 4096 = stop at hend
  have h0 : UnmapAt s pgd (vaddr / 4096) stop s vaddr :=
    ⟨hal, le_refl _, by omega, Cleared.init h _⟩
  have hlast : ∀ {s1 : Machine} {cur : ℕ}, UnmapAt s pgd (vaddr / 4096) stop s1 cur → vaddr ≤ cur →
      ∃ s', (unmapLoop (fun s cur => unmapPage s pgd cur) PAGE_SIZE stop stop fuel s1 cur).map
        Prod.fst = some s' ∧ Cleared s s' pgd (vaddr / 4096) (vaddr / 4096 + npages) := by
    intro s1 cur hat hge
    obtain ⟨s', c, hrun, hat', -, hc⟩ := pagesLoop_spec (by omega) hend (by omega) hat hat.le
      (by omega : (stop - cur) / 4096 < fuel)
    have hpage : c / 4096 = vaddr / 4096 + npages := by omega
    exact ⟨s', by rw [hrun, Option.map_some], hpage ▸ hat'.cleared⟩
  have hmap : ∀ o : Option (Machine × ℕ), (o.bind fun x => some x.1) = o.map Prod.fst := fun o => by
    cases o <;> rfl
  cases freetbl with
  | false => simpa [hmap] using hlast h0 (le_refl _)
  | true =>
    have hround : roundUp vaddr (PAGE_TABLE_SIZE * PAGE_SIZE) % 4194304 = 0 ∧
        vaddr ≤ roundUp vaddr (PAGE_TABLE_SIZE * PAGE_SIZE) := by
      simp only [roundUp, u32, PAGE_TABLE_SIZE, PAGE_SIZE]
      omega
    obtain ⟨s1, c1, hrun1, hat1, hge1, hc1⟩ := pagesLoop_spec (by omega) hend
      (by omega : roundUp vaddr (PAGE_TABLE_SIZE * PAGE_SIZE) % 4096 = 0) h0 hround.2
      (by omega : (stop - vaddr) / 4096 < fuel)
    obtain ⟨s2, c2, hrun2, hat2, hge2⟩ := tablesLoop_spec links hend hat1
      (fun hlt => by rcases hc1 with hc | hc <;> omega) (by omega : (stop - c1) / 4096 < fuel)
    simpa [hrun1, hrun2, hmap] using hlast hat2 (by omega)

end Range

/-- Unmapping a range below the kernel, with whole tables freed or not: its pages have no
entry any more, all others have the entry they had. -/
theorem unmap_addr_exact {s : Machine} {pgd vaddr npages fuel : ℕ} (links : ℕ → Option ℕ)
    (h : PgdInv s pgd) (hal : vaddr % PAGE_SIZE = 0)
    (hend : vaddr + npages * PAGE_SIZE ≤ VIRT_BASE) (hfuel : npages < fuel) :
    ∃ out : Bool → Machine,
      (∀ freetbl, unmapAddr links fuel s pgd vaddr npages freetbl = some (out freetbl) ∧
        PgdInv (out freetbl) pgd ∧
        (∀ va, vaddr ≤ va → va < vaddr + npages * PAGE_SIZE → pageEntry (out freetbl) pgd va = 0) ∧
        ∀ va < 4294967296, va < vaddr ∨ vaddr + npages * PAGE_SIZE ≤ va →
          pageEntry (out freetbl) pgd va = pageEntry s pgd va) ∧
      ∀ va < 4294967296, pageEntry (out true) pgd va = pageEntry (out false) pgd va := by
  choose out hrun hclr using fun freetbl => unmapAddr_spec links freetbl h hal hend hfuel
  simp only [PAGE_SIZE, VIRT_BASE] at hal hend
  have hold : ∀ va < 4294967296, pageEntry s pgd va = entryAt s.mem (addrToPhys pgd) (va / 4096) :=
    fun va hva => pageEntry_eq h.block hva (h.window _ (by omega))
  have hent : ∀ freetbl, ∀ va < 4294967296, pageEntry (out freetbl) pgd va =
      if vaddr / 4096 ≤ va / 4096 ∧ va / 4096 < vaddr / 4096 + npages then 0
      else pageEntry s pgd va := by
    intro freetbl va hva
    have hinv := (hclr freetbl).inv
    rw [pageEntry_eq hinv.block hva (hinv.window _ (by omega)), hold va hva]
    exact (hclr freetbl).entry _ (by omega)
  refine ⟨out, fun freetbl => ⟨hrun freetbl, (hclr freetbl).inv, fun va hlo hhi => ?_,
    fun va hva hout => ?_⟩, fun va hva => ?_⟩
  · simp only [PAGE_SIZE] at hhi
    rw [hent freetbl va (by omega), if_pos (by omega)]
  · simp only [PAGE_SIZE] at hout
    rw [hent freetbl va hva, if_neg (by omega)]
  · rw [hent true va hva, hent false va hva]

/-- A page mapped in a new address space, and its table unmapped. -/
theorem unmap_addr_exact_table : ∃ (s : Machine) (out : Bool → Machine),
    pageEntry s 0xC0200000 0x400000 ≠ 0 ∧
    ∀ freetbl : Bool, unmapAddr (fun _ => some 0) 1025 s 0xC0200000 0x400000 1024 freetbl =
      some (out freetbl) ∧ pageEntry (out freetbl) 0xC0200000 0x400000 = 0 := by
  obtain ⟨s0, hinv, hpool⟩ : ∃ s, PgdInv s 0xC0200000 ∧ s.pool = [0xC0201000] :=
    ⟨_, (createPgd_spec (pgMachine_fresh (pmmInit 0x400000 0)) rfl).1, rfl⟩
  have hu : UserPage (0x400000 / 4096) := ⟨by decide, by decide⟩
  obtain ⟨s, hs⟩ := mapPage_returns 0x7000 true hinv hu (by rw [hpool]; exact List.cons_ne_nil _ _)
  obtain ⟨hinv', -, -, -, hent⟩ := mapPage_spec hinv hu hs
  obtain ⟨out, hout, -⟩ := unmap_addr_exact (fun _ => some 0) hinv'
    (by decide : 0x400000 % PAGE_SIZE = 0) (by decide : 0x400000 + 1024 * PAGE_SIZE ≤ VIRT_BASE)
    (by decide : 1024 < 1025)
  refine ⟨s, out, ?_, fun freetbl => ⟨(hout freetbl).1, ?_⟩⟩
  · rw [pageEntry_eq hinv'.block (by norm_num) (hinv'.window _ (by norm_num)),
      hent _ (by norm_num), if_pos rfl]
    exact makeEntry_ne_zero _ _ _
  · exact (hout freetbl).2.2.1 _ (le_refl _) (by decide)

end DepthOS
