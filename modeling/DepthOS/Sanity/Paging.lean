import DepthOS.Spec.Paging

/-! Two-level tables seen in physical memory: the arithmetic of entries and
indices, and the two writes every operation is made of, adding an empty table
and setting one entry. -/

namespace DepthOS

open Lib

theorem and_addr_mask (x : ℕ) : x &&& 0xFFFFF000 = x / 4096 % 1048576 * 4096 := by
  have h : (0xFFFFF000 : ℕ) = (2 ^ 20 - 1) <<< 12 := by decide
  have h' : x / 4096 % 1048576 * 4096 = (x >>> 12 % 2 ^ 20) <<< 12 := by
    rw [Nat.shiftRight_eq_div_pow, Nat.shiftLeft_eq]
    norm_num
  rw [h, h', ← Nat.and_two_pow_sub_one_eq_mod]
  apply Nat.eq_of_testBit_eq
  intro i
  simp only [Nat.testBit_and, Nat.testBit_shiftLeft, Nat.testBit_shiftRight]
  by_cases hi : 12 ≤ i
  · simp [hi]
  · simp [hi]

theorem makeEntry_eq (frame : ℕ) (w u : Bool) :
    makeEntry frame w u = frame / 4096 % 1048576 * 4096 + (9 + 2 * w.toNat + 4 * u.toNat) := by
  have hflags : 1 <<< 0 ||| 1 <<< 3 ||| w.toNat <<< 1 ||| u.toNat <<< 2 =
      9 + 2 * w.toNat + 4 * u.toNat := by
    cases w <;> cases u <;> rfl
  have hlt : 9 + 2 * w.toNat + 4 * u.toNat < 2 ^ 12 := by
    cases w <;> cases u <;> decide
  have hshift : frame / 4096 % 1048576 * 4096 = (frame / 4096 % 1048576) <<< 12 := by
    rw [Nat.shiftLeft_eq]
  rw [makeEntry, hflags, and_addr_mask, hshift, Nat.or_comm,
    Nat.shiftLeft_add_eq_or_of_lt hlt]

theorem extractAddr_eq (v : ℕ) : extractAddr v = v / 4096 % 1048576 * 4096 := by
  rw [extractAddr, Nat.shiftRight_eq_div_pow, show (0xFFFFF : ℕ) = 2 ^ 20 - 1 by decide,
    Nat.and_two_pow_sub_one_eq_mod]

theorem makeEntry_lt (frame : ℕ) (w u : Bool) : makeEntry frame w u < 4294967296 := by
  rw [makeEntry_eq]
  have hw : w.toNat ≤ 1 := Bool.toNat_le w
  have hu : u.toNat ≤ 1 := Bool.toNat_le u
  omega

theorem makeEntry_ne_zero (frame : ℕ) (w u : Bool) : makeEntry frame w u ≠ 0 := by
  rw [makeEntry_eq]
  omega

theorem extractAddr_makeEntry (frame : ℕ) (w u : Bool) :
    extractAddr (makeEntry frame w u) = frame / 4096 % 1048576 * 4096 := by
  rw [extractAddr_eq, makeEntry_eq]
  have hw : w.toNat ≤ 1 := Bool.toNat_le w
  have hu : u.toNat ≤ 1 := Bool.toNat_le u
  omega

theorem extractAddr_aligned (v : ℕ) : extractAddr v % 4096 = 0 := by
  rw [extractAddr_eq]
  omega

/-- A page-aligned kernel block that is not the first page of the window. -/
structure KBlock (b : ℕ) : Prop where
  aligned : b % 4096 = 0
  above : VIRT_BASE < b
  below : b + 4096 ≤ 4294967296

theorem KBlock.phys {b : ℕ} (h : KBlock b) : addrToPhys b = b - VIRT_BASE ∧
    addrToPhys b % 4096 = 0 ∧ addrToPhys b ≠ 0 ∧ addrToPhys b < 0x40000000 := by
  obtain ⟨h1, h2, h3⟩ := h
  simp only [addrToPhys, sub32, u32, VIRT_BASE] at *
  omega

theorem KBlock.phys_add {b k : ℕ} (h : KBlock b) (hk : k < 4096) :
    addrToPhys (b + k) = addrToPhys b + k := by
  obtain ⟨h1, h2, h3⟩ := h
  simp only [addrToPhys, sub32, u32, VIRT_BASE] at *
  omega

theorem phys_virt {t k : ℕ} (h : t + k < 4294967296) : addrToPhys (addrToVirt t + k) = t + k := by
  simp only [addrToPhys, addrToVirt, sub32, u32, VIRT_BASE]
  omega

theorem phys_virt' {t : ℕ} (h : t < 4294967296) : addrToPhys (addrToVirt t) = t := by
  simp only [addrToPhys, addrToVirt, sub32, u32, VIRT_BASE]
  omega

theorem virt_ne_zero {t : ℕ} (h : t < 0x40000000) : addrToVirt t ≠ 0 := by
  simp only [addrToVirt, u32, VIRT_BASE]
  omega

-- by `rw` and not `rfl`: the kernel would compare the two memories first
section Fields

variable (s : Machine) (va v n : ℕ)

@[simp] theorem kstore_installs : (kstore s va v).installs = s.installs := by rw [kstore]

@[simp] theorem kstore_pmmBitmap : (kstore s va v).pmmBitmap = s.pmmBitmap := by rw [kstore]

@[simp] theorem kmemset0_installs : (kmemset0 s va n).installs = s.installs := by rw [kmemset0]

@[simp] theorem kmemset0_pmmBitmap : (kmemset0 s va n).pmmBitmap = s.pmmBitmap := by rw [kmemset0]

@[simp] theorem kmemset0_kernelPgd : (kmemset0 s va n).kernelPgd = s.kernelPgd := by rw [kmemset0]

@[simp] theorem kmemcpy_pmmBitmap {dst src : ℕ} :
    (kmemcpy s dst src n).pmmBitmap = s.pmmBitmap := by rw [kmemcpy]

@[simp] theorem kmemcpy_kernelPgd {dst src : ℕ} :
    (kmemcpy s dst src n).kernelPgd = s.kernelPgd := by rw [kmemcpy]

@[simp] theorem kmallocPage_installs : (kmallocPage s).2.installs = s.installs := by
  unfold kmallocPage
  split <;> rfl

@[simp] theorem kmallocPage_kernelPgd : (kmallocPage s).2.kernelPgd = s.kernelPgd := by
  unfold kmallocPage
  split <;> rfl

@[simp] theorem kmallocPage_pmmBitmap : (kmallocPage s).2.pmmBitmap = s.pmmBitmap := by
  unfold kmallocPage
  split <;> rfl

end Fields

section Tables

/-- Directory entry `i` of the directory at physical address `P`. -/
def pdeAt (m : Mem) (P i : ℕ) : ℕ := load32 m (P + 4 * i)

/-- The table it names, 0 for none. -/
def tableAt (m : Mem) (P i : ℕ) : ℕ := extractAddr (pdeAt m P i)

/-- The entry of page number `p`, 0 where there is no table. -/
def entryAt (m : Mem) (P p : ℕ) : ℕ :=
  if tableAt m P (p / 1024) = 0 then 0 else load32 m (tableAt m P (p / 1024) + 4 * (p % 1024))

theorem pdeIndex_eq (va : ℕ) : pdeIndex va = va / 4096 / 1024 := by
  rw [pdeIndex, Nat.div_div_eq_div_mul]

variable {s : Machine} {pgd va : ℕ}

theorem kload_pde (h : KBlock pgd) {i : ℕ} (hi : i < 1024) :
    kload s (pgd + 4 * i) = pdeAt s.mem (addrToPhys pgd) i := by
  rw [kload, pdeAt, h.phys_add (by omega)]

theorem getPage_spec (h : KBlock pgd) (hva : va < 4294967296)
    (hw : tableAt s.mem (addrToPhys pgd) (va / 4096 / 1024) < 0x40000000) :
    (getPage s pgd va = 0 ↔ tableAt s.mem (addrToPhys pgd) (va / 4096 / 1024) = 0) ∧
    (getPage s pgd va ≠ 0 → addrToPhys (getPage s pgd va) =
      tableAt s.mem (addrToPhys pgd) (va / 4096 / 1024) + 4 * (va / 4096 % 1024)) := by
  have hidx : va / 4096 / 1024 < 1024 := by omega
  have hpt : getPagetable s pgd va =
      if tableAt s.mem (addrToPhys pgd) (va / 4096 / 1024) = 0 then 0
      else addrToVirt (tableAt s.mem (addrToPhys pgd) (va / 4096 / 1024)) := by
    rw [getPagetable, pdeIndex_eq, kload_pde h hidx]
    rfl
  have hg : ¬ (pdeIndex va > 1024 ∨ pteIndex va > 1024) := by
    rw [pdeIndex_eq]
    simp only [pteIndex, PAGE_SIZE, PAGE_TABLE_SIZE]
    omega
  rw [getPage, if_neg hg, hpt]
  by_cases ht : tableAt s.mem (addrToPhys pgd) (va / 4096 / 1024) = 0
  · simp [ht]
  · have hv := virt_ne_zero hw
    have hp : pteIndex va = va / 4096 % 1024 := rfl
    simp only [ht, if_false, hv, hp]
    refine ⟨?_, fun _ => phys_virt (by omega)⟩
    simp [hv]

theorem pageEntry_eq (h : KBlock pgd) (hva : va < 4294967296)
    (hw : tableAt s.mem (addrToPhys pgd) (va / 4096 / 1024) < 0x40000000) :
    pageEntry s pgd va = entryAt s.mem (addrToPhys pgd) (va / 4096) := by
  obtain ⟨h0, h1⟩ := getPage_spec h hva hw
  unfold pageEntry entryAt
  by_cases hp : getPage s pgd va = 0
  · rw [if_pos hp, if_pos (h0.1 hp)]
  · rw [if_neg hp, if_neg (fun ht => hp (h0.2 ht)), kload, h1 hp]

end Tables

theorem apart_of_pages {a b i j : ℕ} (ha : a % 4096 = 0) (hb : b % 4096 = 0) (hab : a ≠ b)
    (hi : i < 1024) (hj : j < 1024) : Apart (a + 4 * i) 4 (b + 4 * j) 4 := by
  unfold Apart
  omega

theorem apart_of_index {a i j : ℕ} (h : i ≠ j) : Apart (a + 4 * i) 4 (a + 4 * j) 4 := by
  unfold Apart
  omega

theorem tableAt_aligned (m : Mem) (P i : ℕ) : tableAt m P i % 4096 = 0 := extractAddr_aligned _

/-- The directory and its tables are pages of their own, user tables are not
shared, and the blocks still to be allocated are none of them. -/
structure PgdInv (s : Machine) (pgd : ℕ) : Prop where
  block : KBlock pgd
  window : ∀ i < 1024, tableAt s.mem (addrToPhys pgd) i < 0x40000000
  apart : ∀ i < 1024, tableAt s.mem (addrToPhys pgd) i ≠ addrToPhys pgd
  distinct : ∀ i < 768, ∀ j < 1024, i ≠ j → tableAt s.mem (addrToPhys pgd) i ≠ 0 →
    tableAt s.mem (addrToPhys pgd) i ≠ tableAt s.mem (addrToPhys pgd) j
  pool_block : ∀ b ∈ s.pool, KBlock b
  pool_nodup : (s.pool.map addrToPhys).Nodup
  pool_pgd : ∀ b ∈ s.pool, addrToPhys b ≠ addrToPhys pgd
  pool_table : ∀ b ∈ s.pool, ∀ i < 1024, addrToPhys b ≠ tableAt s.mem (addrToPhys pgd) i

theorem PgdInv.congr {s s' : Machine} {pgd : ℕ} (h : PgdInv s pgd) (hp : s'.pool = s.pool)
    (hm : ∀ i < 1024, pdeAt s'.mem (addrToPhys pgd) i = pdeAt s.mem (addrToPhys pgd) i) :
    PgdInv s' pgd := by
  have ht : ∀ i < 1024, tableAt s'.mem (addrToPhys pgd) i = tableAt s.mem (addrToPhys pgd) i := by
    intro i hi
    rw [tableAt, hm i hi, tableAt]
  refine ⟨h.block, fun i hi => ?_, fun i hi => ?_, fun i hi j hj hij h0 => ?_, ?_, ?_, ?_, ?_⟩
  · rw [ht i hi]
    exact h.window i hi
  · rw [ht i hi]
    exact h.apart i hi
  · rw [ht i (by omega)] at h0 ⊢
    rw [ht j hj]
    exact h.distinct i hi j hj hij h0
  · rw [hp]
    exact h.pool_block
  · rw [hp]
    exact h.pool_nodup
  · rw [hp]
    exact h.pool_pgd
  · rw [hp]
    intro b hb i hi
    rw [ht i hi]
    exact h.pool_table b hb i hi

section SetEntry

variable {s : Machine} {pgd p v : ℕ}

theorem setEntry_spec (h : PgdInv s pgd) (hp : p < USER_END)
    (ht : tableAt s.mem (addrToPhys pgd) (p / 1024) ≠ 0) :
    let m := store32 s.mem (tableAt s.mem (addrToPhys pgd) (p / 1024) + 4 * (p % 1024)) v
    (∀ i < 1024, pdeAt m (addrToPhys pgd) i = pdeAt s.mem (addrToPhys pgd) i) ∧
    ∀ q < 1048576, entryAt m (addrToPhys pgd) q =
      if q = p then v % 4294967296 else entryAt s.mem (addrToPhys pgd) q := by
  intro m
  have hi : p / 1024 < 768 := by simp only [USER_END] at hp; omega
  have hal := h.block.phys.2.1
  have hpde : ∀ i < 1024, pdeAt m (addrToPhys pgd) i = pdeAt s.mem (addrToPhys pgd) i :=
    fun i hi' => load32_store32_of_apart
      (apart_of_pages (tableAt_aligned _ _ _) hal (h.apart _ (by omega)) (by omega) hi')
  refine ⟨hpde, fun q hq => ?_⟩
  have htab : tableAt m (addrToPhys pgd) (q / 1024) = tableAt s.mem (addrToPhys pgd) (q / 1024) := by
    rw [tableAt, hpde _ (by omega), tableAt]
  rw [entryAt, htab, entryAt]
  by_cases hqp : q = p
  · subst hqp
    rw [if_neg ht, if_pos rfl, load32_store32]
  · rw [if_neg hqp]
    split_ifs with h0
    · rfl
    · refine load32_store32_of_apart ?_
      by_cases hidx : q / 1024 = p / 1024
      · rw [hidx]
        exact apart_of_index (by omega)
      · exact apart_of_pages (tableAt_aligned _ _ _) (tableAt_aligned _ _ _)
          (h.distinct _ hi _ (by omega) (fun he => hidx he.symm) ht) (by omega) (by omega)

end SetEntry

section NewTable

variable {s : Machine} {pgd i b : ℕ} {w u : Bool}

/-- Memory after an empty table at `b` has been hung under directory entry `i`. -/
def withTable (m : Mem) (pgd i b : ℕ) (w u : Bool) : Mem :=
  store32 (blit m (addrToPhys b) (fun _ => 0) PAGE_SIZE) (addrToPhys pgd + 4 * i)
    (makePde (addrToPhys b) w u)

theorem extract_block (hb : KBlock b) : extractAddr (makePde (addrToPhys b) w u) = addrToPhys b := by
  obtain ⟨-, h1, -, h2⟩ := hb.phys
  rw [makePde, extractAddr_makeEntry]
  omega

theorem pdeAt_withTable (h : KBlock pgd) (hb : KBlock b) (hne : addrToPhys b ≠ addrToPhys pgd)
    {j : ℕ} (hj : j < 1024) :
    pdeAt (withTable s.mem pgd i b w u) (addrToPhys pgd) j =
      if j = i then makePde (addrToPhys b) w u else pdeAt s.mem (addrToPhys pgd) j := by
  obtain ⟨-, h1, -⟩ := h.phys
  obtain ⟨-, h2, -⟩ := hb.phys
  unfold pdeAt withTable
  split_ifs with hji
  · rw [hji, load32_store32]
    exact Nat.mod_eq_of_lt (makeEntry_lt _ _ _)
  · rw [load32_store32_of_apart (apart_of_index (Ne.symm hji)), load32_blit_of_apart]
    unfold Apart
    simp only [PAGE_SIZE]
    omega

theorem load_withTable_other (h : KBlock pgd) (hb : KBlock b) {t k : ℕ} (hi : i < 1024)
    (ht : t % 4096 = 0) (hk : k < 1024) (htp : t ≠ addrToPhys pgd) (htb : t ≠ addrToPhys b) :
    load32 (withTable s.mem pgd i b w u) (t + 4 * k) = load32 s.mem (t + 4 * k) := by
  obtain ⟨-, h1, -⟩ := h.phys
  obtain ⟨-, h2, -⟩ := hb.phys
  unfold withTable
  rw [load32_store32_of_apart (apart_of_pages h1 ht (Ne.symm htp) hi hk), load32_blit_of_apart]
  unfold Apart
  simp only [PAGE_SIZE]
  omega

theorem load_withTable_new (h : KBlock pgd) (hb : KBlock b) {k : ℕ} (hi : i < 1024)
    (hne : addrToPhys b ≠ addrToPhys pgd) (hk : k < 1024) :
    load32 (withTable s.mem pgd i b w u) (addrToPhys b + 4 * k) = 0 := by
  obtain ⟨-, h1, -⟩ := h.phys
  obtain ⟨-, h2, -⟩ := hb.phys
  unfold withTable
  rw [load32_store32_of_apart (apart_of_pages h1 h2 (Ne.symm hne) hi hk),
    load32_blit_inside (by simp only [PAGE_SIZE]; omega)]
  rfl

theorem newTable_spec {rest : List ℕ} (h : PgdInv s pgd) (hpool : s.pool = b :: rest)
    (hi : i < 1024) (ht : tableAt s.mem (addrToPhys pgd) i = 0) :
    PgdInv { s with mem := withTable s.mem pgd i b w u, pool := rest } pgd ∧
    tableAt (withTable s.mem pgd i b w u) (addrToPhys pgd) i = addrToPhys b ∧
    ∀ q < 1048576, entryAt (withTable s.mem pgd i b w u) (addrToPhys pgd) q =
      entryAt s.mem (addrToPhys pgd) q := by
  have hmem : b ∈ s.pool := by simp [hpool]
  have hb := h.pool_block b hmem
  have hne := h.pool_pgd b hmem
  obtain ⟨-, hal, h0, hlt⟩ := hb.phys
  have htab : ∀ j < 1024, tableAt (withTable s.mem pgd i b w u) (addrToPhys pgd) j =
      if j = i then addrToPhys b else tableAt s.mem (addrToPhys pgd) j := by
    intro j hj
    rw [tableAt, pdeAt_withTable h.block hb hne hj]
    split_ifs
    · exact extract_block hb
    · rfl
  have hnd := h.pool_nodup
  rw [hpool, List.map_cons, List.nodup_cons] at hnd
  have hrest : ∀ c ∈ rest, addrToPhys c ≠ addrToPhys b := fun c hc he =>
    hnd.1 (he ▸ List.mem_map_of_mem hc)
  have hsub : ∀ c ∈ rest, c ∈ s.pool := fun c hc => by simp [hpool, hc]
  refine ⟨⟨h.block, fun j hj => ?_, fun j hj => ?_, fun j hj k hk hjk hj0 => ?_,
    fun c hc => h.pool_block c (hsub c hc), hnd.2, fun c hc => h.pool_pgd c (hsub c hc),
    fun c hc j hj => ?_⟩, by rw [htab i hi, if_pos rfl], fun q hq => ?_⟩
  · rw [htab j hj]
    split_ifs
    · exact hlt
    · exact h.window j hj
  · rw [htab j hj]
    split_ifs
    · exact hne
    · exact h.apart j hj
  · rw [htab j (by omega)] at hj0 ⊢
    rw [htab k hk]
    by_cases hji : j = i
    · rw [if_pos hji, if_neg (fun hki => hjk (hji.trans hki.symm))]
      exact h.pool_table b hmem k hk
    · rw [if_neg hji] at hj0 ⊢
      split_ifs
      · exact (h.pool_table b hmem j (by omega)).symm
      · exact h.distinct j hj k hk hjk hj0
  · rw [htab j hj]
    split_ifs
    · exact hrest c hc
    · exact h.pool_table c (hsub c hc) j hj
  · rw [entryAt, htab _ (by omega), entryAt]
    by_cases hqi : q / 1024 = i
    · rw [if_pos hqi, if_neg h0, hqi, if_pos ht]
      exact load_withTable_new h.block hb hi hne (by omega)
    · rw [if_neg hqi]
      split_ifs with hq0
      · rfl
      · exact load_withTable_other h.block hb hi (tableAt_aligned _ _ _) (by omega)
          (h.apart _ (by omega)) (h.pool_table b hmem _ (by omega)).symm

end NewTable

end DepthOS
