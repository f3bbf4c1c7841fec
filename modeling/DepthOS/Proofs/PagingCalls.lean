import DepthOS.Lib.Loop
import DepthOS.Sanity.Paging

/-! What each call does to the entries of a directory: `map_page`, the loop of
`map_addr_fixed`, `unmap_page` and `create_pgd`. -/

namespace DepthOS

open Lib

section MapPage

variable {s s' : Machine} {pgd va phys : ℕ} {user : Bool}

/-- The user pages, and what a call on one of them may assume. -/
def UserPage (p : ℕ) : Prop := USER_FIRST ≤ p ∧ p < USER_END

/-- The closing store of `map_page`. -/
def storePte (s : Machine) (pgd p v : ℕ) : Machine :=
  { s with mem := store32 s.mem (tableAt s.mem (addrToPhys pgd) (p / 1024) + 4 * (p % 1024)) v
           installs := s.installs ++ [v] }

theorem UserPage.va_lt {va : ℕ} (h : UserPage (va / 4096)) : va < 4294967296 := by
  have := h.2
  simp only [USER_END] at this
  omega

theorem UserPage.index {p : ℕ} (h : UserPage p) : p / 1024 ≠ 0 ∧ p / 1024 < 768 := by
  obtain ⟨h1, h2⟩ := h
  simp only [USER_FIRST, USER_END] at h1 h2
  omega

theorem user_va_lt {va : ℕ} (h : va / 4096 < USER_END) :
    va < 4294967296 ∧ va / 4096 / 1024 < 768 := by
  simp only [USER_END] at h
  omega

/-- The store of `map_page`, once there is a table. -/
theorem store_of_table (h : PgdInv s pgd) (hp : va / 4096 < USER_END)
    (ht : tableAt s.mem (addrToPhys pgd) (va / 4096 / 1024) ≠ 0) (v : ℕ) :
    getPage s pgd va ≠ 0 ∧
    { kstore s (getPage s pgd va) v with installs := s.installs ++ [v] } =
      storePte s pgd (va / 4096) v := by
  obtain ⟨hva, hidx⟩ := user_va_lt hp
  obtain ⟨h0, h1⟩ := getPage_spec h.block hva (h.window _ (by omega))
  have hne : getPage s pgd va ≠ 0 := fun hz => ht (h0.1 hz)
  exact ⟨hne, by rw [kstore, h1 hne]; rfl⟩

theorem mapPage_of_table (h : PgdInv s pgd) (hp : va / 4096 < USER_END)
    (ht : tableAt s.mem (addrToPhys pgd) (va / 4096 / 1024) ≠ 0) :
    mapPage s pgd va phys user = some (storePte s pgd (va / 4096) (makePte phys true user)) := by
  obtain ⟨hne, hst⟩ := store_of_table h hp ht (makePte phys true user)
  have hidx := (user_va_lt hp).2
  have hcond : ¬ (pdeIndex va ≠ 0 ∧ extractAddr (kload s (pgd + 4 * pdeIndex va)) = 0) := by
    rw [pdeIndex_eq, kload_pde h.block (by omega)]
    exact fun hc => ht hc.2
  simp only [mapPage, mapPageTable, if_neg hcond, Option.bind_some, if_neg hne, hst]

/-- Below 4 MiB there is never a table to add: the store goes through NULL. -/
theorem mapPage_of_low (h : PgdInv s pgd) (hp : va / 4096 / 1024 = 0)
    (ht : tableAt s.mem (addrToPhys pgd) (va / 4096 / 1024) = 0) :
    mapPage s pgd va phys user = none := by
  have hva : va < 4294967296 := by omega
  have hpg := (getPage_spec h.block hva (h.window _ (by omega))).1.2 ht
  have hcond : ¬ (pdeIndex va ≠ 0 ∧ extractAddr (kload s (pgd + 4 * pdeIndex va)) = 0) := by
    rw [pdeIndex_eq, hp]
    exact fun hc => hc.1 rfl
  simp only [mapPage, mapPageTable, if_neg hcond, Option.bind_some, if_pos hpg]

theorem mapPage_of_pool {b : ℕ} {rest : List ℕ} (h : PgdInv s pgd) (hp : UserPage (va / 4096))
    (ht : tableAt s.mem (addrToPhys pgd) (va / 4096 / 1024) = 0) (hpool : s.pool = b :: rest) :
    mapPage s pgd va phys user = some (storePte
      { s with mem := withTable s.mem pgd (va / 4096 / 1024) b true user, pool := rest }
      pgd (va / 4096) (makePte phys true user)) := by
  have hidx := hp.index
  have hb := h.pool_block b (by simp [hpool])
  obtain ⟨hinv, htab, -⟩ := newTable_spec (w := true) (u := user) h hpool (by omega) ht
  have ht' : tableAt (withTable s.mem pgd (va / 4096 / 1024) b true user) (addrToPhys pgd)
      (va / 4096 / 1024) ≠ 0 := by
    rw [htab]
    exact hb.phys.2.2.1
  obtain ⟨hne, hst⟩ := store_of_table hinv hp.2 ht' (makePte phys true user)
  have hcond : pdeIndex va ≠ 0 ∧ extractAddr (kload s (pgd + 4 * pdeIndex va)) = 0 := by
    rw [pdeIndex_eq, kload_pde h.block (by omega)]
    exact ⟨hidx.1, ht⟩
  have hb0 : b ≠ 0 := by
    have := hb.above
    omega
  have hs1 : kstore (kmemset0 { s with pool := rest } b PAGE_SIZE) (pgd + 4 * pdeIndex va)
      (makePde (addrToPhys b) true user) =
      { s with mem := withTable s.mem pgd (va / 4096 / 1024) b true user, pool := rest } := by
    rw [pdeIndex_eq]
    unfold kstore kmemset0 withTable
    dsimp only
    rw [h.block.phys_add (by omega)]
  simp only [mapPage, mapPageTable, if_pos hcond, kmallocPage, hpool, if_neg hb0, hs1,
    Option.bind_some, if_neg hne, hst]

theorem mapPage_of_nil (h : PgdInv s pgd) (hp : UserPage (va / 4096))
    (ht : tableAt s.mem (addrToPhys pgd) (va / 4096 / 1024) = 0) (hpool : s.pool = []) :
    mapPage s pgd va phys user = none := by
  have hidx := hp.index
  have hcond : pdeIndex va ≠ 0 ∧ extractAddr (kload s (pgd + 4 * pdeIndex va)) = 0 := by
    rw [pdeIndex_eq, kload_pde h.block (by omega)]
    exact ⟨hidx.1, ht⟩
  simp [mapPage, mapPageTable, hcond, kmallocPage, hpool]

/-- What a call leaves as it was. -/
structure SameElse (s s' : Machine) (pgd : ℕ) : Prop where
  kernel : ∀ i, 768 ≤ i → i < 1024 →
    pdeAt s'.mem (addrToPhys pgd) i = pdeAt s.mem (addrToPhys pgd) i
  paging : s'.pagingEnabled = s.pagingEnabled
  bitmap : s'.pmmBitmap = s.pmmBitmap

theorem SameElse.trans {a b c : Machine} {pgd : ℕ} (h : SameElse a b pgd) (h' : SameElse b c pgd) :
    SameElse a c pgd :=
  ⟨fun i hi hi' => (h'.kernel i hi hi').trans (h.kernel i hi hi'), h'.paging.trans h.paging,
    h'.bitmap.trans h.bitmap⟩

theorem SameElse.refl (s : Machine) (pgd : ℕ) : SameElse s s pgd :=
  ⟨fun _ _ _ => rfl, rfl, rfl⟩

theorem storePte_spec {p v : ℕ} (h : PgdInv s pgd) (hp : p < USER_END)
    (ht : tableAt s.mem (addrToPhys pgd) (p / 1024) ≠ 0) :
    PgdInv (storePte s pgd p v) pgd ∧ SameElse s (storePte s pgd p v) pgd ∧
    ∀ q < 1048576, entryAt (storePte s pgd p v).mem (addrToPhys pgd) q =
      if q = p then v % 4294967296 else entryAt s.mem (addrToPhys pgd) q := by
  obtain ⟨hpde, hent⟩ := setEntry_spec (v := v) h hp ht
  exact ⟨h.congr rfl hpde, ⟨fun i _ hi => hpde i hi, rfl, rfl⟩, hent⟩

theorem mapPage_spec (h : PgdInv s pgd) (hp : UserPage (va / 4096))
    (hm : mapPage s pgd va phys user = some s') :
    PgdInv s' pgd ∧ SameElse s s' pgd ∧ s'.installs = s.installs ++ [makePte phys true user] ∧
    s.pool.length ≤ s'.pool.length + 1 ∧
    ∀ q < 1048576, entryAt s'.mem (addrToPhys pgd) q =
      if q = va / 4096 then makePte phys true user else entryAt s.mem (addrToPhys pgd) q := by
  have hmod : makePte phys true user % 4294967296 = makePte phys true user :=
    Nat.mod_eq_of_lt (makeEntry_lt _ _ _)
  by_cases ht : tableAt s.mem (addrToPhys pgd) (va / 4096 / 1024) = 0
  · cases hpool : s.pool with
    | nil => simp [mapPage_of_nil h hp ht hpool] at hm
    | cons b rest =>
      rw [mapPage_of_pool h hp ht hpool] at hm
      obtain rfl := Option.some.inj hm
      have hidx := hp.index
      obtain ⟨hinv, htab, hent⟩ := newTable_spec (w := true) (u := user) h hpool (by omega) ht
      have hb := h.pool_block b (by simp [hpool])
      obtain ⟨hinv', hsame, hent'⟩ := storePte_spec (v := makePte phys true user) hinv hp.2
        (by rw [htab]; exact hb.phys.2.2.1)
      refine ⟨hinv', ⟨fun i hi hi' => ?_, rfl, rfl⟩, rfl, by simp [storePte], fun q hq => ?_⟩
      · rw [hsame.kernel i hi hi', pdeAt_withTable h.block hb (h.pool_pgd b (by simp [hpool])) hi',
          if_neg (by omega)]
      · rw [hent' q hq, hent q hq, hmod]
  · rw [mapPage_of_table h hp.2 ht] at hm
    obtain rfl := Option.some.inj hm
    obtain ⟨hinv, hsame, hent⟩ := storePte_spec (v := makePte phys true user) h hp.2 ht
    refine ⟨hinv, hsame, rfl, by simp [storePte], fun q hq => ?_⟩
    rw [hent q hq, hmod]

theorem mapPage_returns (phys : ℕ) (user : Bool) (h : PgdInv s pgd) (hp : UserPage (va / 4096))
    (hpool : s.pool ≠ []) :
    ∃ s', mapPage s pgd va phys user = some s' := by
  by_cases ht : tableAt s.mem (addrToPhys pgd) (va / 4096 / 1024) = 0
  · obtain ⟨b, rest, hb⟩ := List.exists_cons_of_ne_nil hpool
    exact ⟨_, mapPage_of_pool h hp ht hb⟩
  · exact ⟨_, mapPage_of_table h hp.2 ht⟩

end MapPage

section Fixed

variable {s s' : Machine} {pgd vaddr pstart n : ℕ} {user overwrite : Bool}

/-- What `map_addr_fixed` stores for its `i`-th page. -/
def fixedPte (pstart i : ℕ) (user : Bool) : ℕ :=
  makePte (u32 (pstart + u32 (i * PAGE_SIZE))) true user

theorem fixed_page {i : ℕ} (h : vaddr / 4096 + i < USER_END) :
    u32 (pgRndDown vaddr + u32 (i * PAGE_SIZE)) / 4096 = vaddr / 4096 + i := by
  simp only [u32, pgRndDown, roundDown, PAGE_SIZE, USER_END] at *
  omega

/-- After `n` rounds of the loop: pages already mapped are kept unless
`overwrite`, the others get their frame, and the rest is untouched. -/
structure FixedDone (s s' : Machine) (pgd page pstart n : ℕ) (user overwrite : Bool) : Prop where
  inv : PgdInv s' pgd
  same : SameElse s s' pgd
  entry : ∀ q < 1048576, entryAt s'.mem (addrToPhys pgd) q =
    if page ≤ q ∧ q < page + n ∧ ¬ (entryAt s.mem (addrToPhys pgd) q ≠ 0 ∧ overwrite = false)
    then fixedPte pstart (q - page) user else entryAt s.mem (addrToPhys pgd) q
  installs : ∃ new, s'.installs = s.installs ++ new ∧
    ∀ pte ∈ new, ∃ i < n, pte = fixedPte pstart i user
  pool : s.pool.length ≤ s'.pool.length + n

theorem mapFixedOne_spec {i : ℕ} (h : PgdInv s pgd) (hp : UserPage (vaddr / 4096 + i))
    (hm : mapFixedOne pgd (pgRndDown vaddr) pstart user overwrite s i = some s') :
    PgdInv s' pgd ∧ SameElse s s' pgd ∧ s.pool.length ≤ s'.pool.length + 1 ∧
    (∃ new, s'.installs = s.installs ++ new ∧ ∀ pte ∈ new, pte = fixedPte pstart i user) ∧
    ∀ q < 1048576, entryAt s'.mem (addrToPhys pgd) q =
      if q = vaddr / 4096 + i ∧ ¬ (entryAt s.mem (addrToPhys pgd) q ≠ 0 ∧ overwrite = false)
      then fixedPte pstart i user else entryAt s.mem (addrToPhys pgd) q := by
  have hva := fixed_page hp.2
  rw [← hva] at hp
  have hent := pageEntry_eq (s := s) h.block hp.va_lt (h.window _ (by have := hp.index; omega))
  unfold mapFixedOne at hm
  unfold pageEntry at hent
  rw [hva] at hent
  by_cases hk : entryAt s.mem (addrToPhys pgd) (vaddr / 4096 + i) ≠ 0 ∧ overwrite = false
  · have hpg : getPage s pgd (u32 (pgRndDown vaddr + u32 (i * PAGE_SIZE))) ≠ 0 := by
      intro h0
      rw [if_pos h0] at hent
      exact hk.1 hent.symm
    rw [if_neg hpg] at hent
    rw [if_pos ⟨hpg, by rw [hent]; exact hk.1, hk.2⟩] at hm
    obtain rfl := Option.some.inj hm
    refine ⟨h, SameElse.refl _ _, Nat.le_succ _, ⟨[], by simp, by simp⟩, fun q hq => ?_⟩
    rw [if_neg]
    rintro ⟨rfl, hn⟩
    exact hn hk
  · have hcond : ¬ (getPage s pgd (u32 (pgRndDown vaddr + u32 (i * PAGE_SIZE))) ≠ 0 ∧
        kload s (getPage s pgd (u32 (pgRndDown vaddr + u32 (i * PAGE_SIZE)))) ≠ 0 ∧
        overwrite = false) := by
      rintro ⟨h1, h2, h3⟩
      rw [if_neg h1] at hent
      exact hk ⟨by rw [← hent]; exact h2, h3⟩
    rw [if_neg hcond] at hm
    obtain ⟨hinv, hsame, hins, hpool, hent'⟩ := mapPage_spec h hp hm
    refine ⟨hinv, hsame, hpool, ⟨_, hins, by simp [fixedPte]⟩, fun q hq => ?_⟩
    rw [hent' q hq, hva]
    by_cases hq' : q = vaddr / 4096 + i
    · rw [if_pos hq', if_pos ⟨hq', by rw [hq']; exact hk⟩]
      rfl
    · rw [if_neg hq', if_neg (fun hc => hq' hc.1)]

theorem mapFixed_spec (h : PgdInv s pgd)
    (hp : ∀ i < n, UserPage (vaddr / 4096 + i))
    (hm : (List.range n).foldlM (mapFixedOne pgd (pgRndDown vaddr) pstart user overwrite) s =
      some s') : FixedDone s s' pgd (vaddr / 4096) pstart n user overwrite := by
  induction n generalizing s' with
  | zero =>
    obtain rfl := Option.some.inj hm
    refine ⟨h, SameElse.refl _ _, fun q _ => ?_, ⟨[], by simp, by simp⟩, Nat.le_refl _⟩
    rw [if_neg (by omega)]
  | succ n ih =>
    rw [foldlM_range_succ] at hm
    obtain ⟨s1, hm1, hm2⟩ := Option.bind_eq_some_iff.1 hm
    have h1 := ih (fun i hi => hp i (by omega)) hm1
    obtain ⟨hinv, hsame, hpool, ⟨new, hnew, hall⟩, hent⟩ :=
      mapFixedOne_spec h1.inv (hp n (by omega)) hm2
    obtain ⟨old, hold, hall'⟩ := h1.installs
    have hpool1 := h1.pool
    refine ⟨hinv, h1.same.trans hsame, fun q hq => ?_, ⟨old ++ new, ?_, ?_⟩, by omega⟩
    · rw [hent q hq]
      by_cases hq' : q = vaddr / 4096 + n
      · -- the page of this round has not been touched by the earlier ones
        have hq1 : entryAt s1.mem (addrToPhys pgd) q = entryAt s.mem (addrToPhys pgd) q := by
          rw [h1.entry q hq, if_neg (by omega)]
        rw [hq1]
        by_cases hk : entryAt s.mem (addrToPhys pgd) q ≠ 0 ∧ overwrite = false
        · rw [if_neg (fun hc => hc.2 hk), if_neg (fun hc => hc.2.2 hk)]
        · rw [if_pos ⟨hq', hk⟩, if_pos ⟨by omega, by omega, hk⟩, hq', Nat.add_sub_cancel_left]
      · rw [if_neg (fun hc => hq' hc.1), h1.entry q hq]
        refine if_congr ?_ rfl rfl
        constructor
        · rintro ⟨h1, h2, h3⟩
          exact ⟨h1, by omega, h3⟩
        · rintro ⟨h1, h2, h3⟩
          exact ⟨h1, by omega, h3⟩
    · rw [hnew, hold, List.append_assoc]
    · intro pte hpte
      rcases List.mem_append.1 hpte with hpte | hpte
      · obtain ⟨i, hi, rfl⟩ := hall' pte hpte
        exact ⟨i, by omega, rfl⟩
      · exact ⟨n, by omega, hall pte hpte⟩

theorem mapFixed_returns (pstart : ℕ) (user overwrite : Bool) (h : PgdInv s pgd)
    (hp : ∀ i < n, UserPage (vaddr / 4096 + i)) (hpool : n ≤ s.pool.length) :
    ∃ s', (List.range n).foldlM (mapFixedOne pgd (pgRndDown vaddr) pstart user overwrite) s =
      some s' := by
  induction n with
  | zero => exact ⟨s, rfl⟩
  | succ n ih =>
    obtain ⟨s1, hm1⟩ := ih (fun i hi => hp i (by omega)) (by omega)
    have h1 := mapFixed_spec h (fun i hi => hp i (by omega)) hm1
    have hpool1 := h1.pool
    rw [foldlM_range_succ, hm1, Option.bind_some]
    unfold mapFixedOne
    dsimp only
    split_ifs
    · exact ⟨_, rfl⟩
    · refine mapPage_returns _ _ h1.inv ?_ (List.ne_nil_of_length_pos (by omega))
      rw [fixed_page (hp n (by omega)).2]
      exact hp n (by omega)

end Fixed

theorem unmapPage_spec {s : Machine} {pgd va : ℕ} (h : PgdInv s pgd)
    (hp : va / 4096 < USER_END) :
    PgdInv (unmapPage s pgd va) pgd ∧ SameElse s (unmapPage s pgd va) pgd ∧
    ∀ q < 1048576, entryAt (unmapPage s pgd va).mem (addrToPhys pgd) q =
      if q = va / 4096 then 0 else entryAt s.mem (addrToPhys pgd) q := by
  obtain ⟨hva, hidx⟩ := user_va_lt hp
  obtain ⟨h0, h1⟩ := getPage_spec (s := s) h.block hva (h.window _ (by omega))
  by_cases hz : getPage s pgd va = 0
  · have ht := h0.1 hz
    simp only [unmapPage, if_pos hz]
    refine ⟨h, SameElse.refl _ _, fun q hq => ?_⟩
    split_ifs with hq'
    · rw [hq', entryAt, if_pos ht]
    · rfl
  · have ht : tableAt s.mem (addrToPhys pgd) (va / 4096 / 1024) ≠ 0 := fun ht => hz (h0.2 ht)
    obtain ⟨hpde, hent⟩ := setEntry_spec (v := 0) h hp ht
    rw [unmapPage, if_neg hz, kstore, h1 hz]
    exact ⟨h.congr rfl hpde, ⟨fun i _ hi => hpde i hi, rfl, rfl⟩, hent⟩

/-- Before `create_pgd`: the heap's blocks are pages of their own, apart from the
kernel's directory and the tables it names. -/
structure FreshHeap (s : Machine) : Prop where
  pool_block : ∀ b ∈ s.pool, KBlock b
  pool_nodup : (s.pool.map addrToPhys).Nodup
  kernel : KBlock s.kernelPgd
  pool_kernel : ∀ b ∈ s.pool, addrToPhys b ≠ addrToPhys s.kernelPgd
  window : ∀ i, 768 ≤ i → i < 1024 → tableAt s.mem (addrToPhys s.kernelPgd) i < 0x40000000
  pool_table : ∀ b ∈ s.pool, ∀ i, 768 ≤ i → i < 1024 →
    addrToPhys b ≠ tableAt s.mem (addrToPhys s.kernelPgd) i

theorem pdeAt_create {m : Mem} {P K : ℕ} (hP : P % 4096 = 0) (hK : K % 4096 = 0) (hne : P ≠ K)
    {i : ℕ} (hi : i < 1024) :
    pdeAt (blit (blit m P (fun _ => 0) 4096) (P + 3072)
      (fun k => blit m P (fun _ => 0) 4096 (K + 3072 + k)) 1024) P i =
      if i < 768 then 0 else pdeAt m K i := by
  unfold pdeAt
  split_ifs with h
  · rw [load32_blit_of_apart (by unfold Apart; omega), load32_blit_inside (by omega)]
    rfl
  · have h1 : P + 4 * i = P + 3072 + (4 * i - 3072) := by omega
    have h2 : load32 (fun k => blit m P (fun _ => 0) 4096 (K + 3072 + k)) (4 * i - 3072) =
        load32 (blit m P (fun _ => 0) 4096) (K + 3072 + (4 * i - 3072)) := by
      simp only [load32, Nat.add_assoc]
    rw [h1, load32_blit_inside (by omega), h2, load32_blit_of_apart (by unfold Apart; omega),
      Nat.add_assoc, show 3072 + (4 * i - 3072) = 4 * i by omega]

/-- What `create_pgd` has done: a block of the heap is the directory, and no other page
has changed. -/
structure PgdCreated (s s' : Machine) (pgd : ℕ) : Prop where
  pool : s.pool = pgd :: s'.pool
  pde : ∀ i < 1024, pdeAt s'.mem (addrToPhys pgd) i =
    if i < 768 then 0 else pdeAt s.mem (addrToPhys s.kernelPgd) i
  same : ∀ x, x % 4096 = 0 → x ≠ addrToPhys pgd → SameOn s.mem s'.mem x 4096
  bitmap : s'.pmmBitmap = s.pmmBitmap
  kernelPgd : s'.kernelPgd = s.kernelPgd

section Create

variable {s s' : Machine} {pgd : ℕ}

theorem createPgd_created (h : FreshHeap s) (hc : createPgd s = some (pgd, s')) :
    PgdCreated s s' pgd := by
  cases hpool : s.pool with
  | nil => simp [createPgd, kmallocPage, hpool] at hc
  | cons b rest =>
    have hmem : b ∈ s.pool := by simp [hpool]
    have hb := h.pool_block b hmem
    have hb0 : b ≠ 0 := by
      have := hb.above
      omega
    have hi0 : pdeIndex VIRT_BASE = 768 := by decide
    simp only [createPgd, kmallocPage, hpool, if_neg hb0, Option.some.injEq, Prod.mk.injEq,
      hi0] at hc
    obtain ⟨rfl, hs'⟩ := hc
    have hrest : s'.pool = rest := by rw [← hs']; rfl
    have hbm : s'.pmmBitmap = s.pmmBitmap := by rw [← hs', kmemcpy_pmmBitmap, kmemset0_pmmBitmap]
    have hk : s'.kernelPgd = s.kernelPgd := by rw [← hs', kmemcpy_kernelPgd, kmemset0_kernelPgd]
    refine ⟨by rw [hpool, hrest], fun i hi => ?_, fun x hx hxb => ?_, hbm, hk⟩
    · rw [← hs']
      unfold kmemcpy kmemset0
      dsimp only
      rw [hb.phys_add (by norm_num), h.kernel.phys_add (by norm_num)]
      exact pdeAt_create hb.phys.2.1 h.kernel.phys.2.1 (h.pool_kernel b hmem) hi
    · have hal := hb.phys.2.1
      rw [← hs']
      unfold kmemcpy kmemset0
      dsimp only
      rw [hb.phys_add (by norm_num)]
      refine (sameOn_blit ?_).trans (sameOn_blit ?_)
      · unfold Apart
        omega
      · unfold Apart
        omega

theorem PgdCreated.table_low (hc : PgdCreated s s' pgd) {i : ℕ} (hi : i < 768) :
    tableAt s'.mem (addrToPhys pgd) i = 0 := by
  rw [tableAt, hc.pde i (by omega), if_pos hi]
  rfl

theorem PgdCreated.table_high (hc : PgdCreated s s' pgd) {i : ℕ} (h1 : 768 ≤ i) (h2 : i < 1024) :
    tableAt s'.mem (addrToPhys pgd) i = tableAt s.mem (addrToPhys s.kernelPgd) i := by
  rw [tableAt, hc.pde i h2, if_neg (by omega), tableAt]

theorem createPgd_spec (h : FreshHeap s) (hc : createPgd s = some (pgd, s')) :
    PgdInv s' pgd ∧ ∀ p < USER_END, entryAt s'.mem (addrToPhys pgd) p = 0 := by
  have hnew := createPgd_created h hc
  have hmem : pgd ∈ s.pool := by simp [hnew.pool]
  have hb := h.pool_block pgd hmem
  have hnd := h.pool_nodup
  rw [hnew.pool, List.map_cons, List.nodup_cons] at hnd
  have hsub : ∀ c ∈ s'.pool, c ∈ s.pool := fun c hc => by simp [hnew.pool, hc]
  refine ⟨⟨hb, fun i hi => ?_, fun i hi => ?_, fun i hi j hj hij h0 => ?_,
    fun c hc => h.pool_block c (hsub c hc), hnd.2,
    fun c hc he => hnd.1 (he ▸ List.mem_map_of_mem hc), fun c hc i hi => ?_⟩, fun p hp => ?_⟩
  · by_cases hi' : i < 768
    · rw [hnew.table_low hi']
      norm_num
    · rw [hnew.table_high (by omega) hi]
      exact h.window i (by omega) hi
  · by_cases hi' : i < 768
    · rw [hnew.table_low hi']
      exact hb.phys.2.2.1.symm
    · rw [hnew.table_high (by omega) hi]
      exact (h.pool_table pgd hmem i (by omega) hi).symm
  · exact absurd (hnew.table_low hi) h0
  · by_cases hi' : i < 768
    · rw [hnew.table_low hi']
      exact (h.pool_block c (hsub c hc)).phys.2.2.1
    · rw [hnew.table_high (by omega) hi]
      exact h.pool_table c (hsub c hc) i (by omega) hi
  · simp only [USER_END] at hp
    rw [entryAt, if_pos (hnew.table_low (by omega))]

end Create

end DepthOS
