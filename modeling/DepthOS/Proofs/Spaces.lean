import DepthOS.Proofs.MapAddr
import DepthOS.Sanity.Clone

/-! The address spaces of several tasks in one physical memory. What `map_page` does
for one directory leaves the others alone, since no two of them share a user
table; the kernel's tables may be shared. -/

namespace DepthOS

open Lib

/-- The page holds one of the directories, or a table of one. -/
def TablePage (m : Mem) (pgds : List ℕ) (x : ℕ) : Prop :=
  ∃ d ∈ pgds, x = addrToPhys d ∨
    ∃ i < 1024, tableAt m (addrToPhys d) i ≠ 0 ∧ x = tableAt m (addrToPhys d) i

/-- The page is no part of the page tables, and will not become one. -/
structure Clear (s : Machine) (pgds : List ℕ) (x : ℕ) : Prop where
  table : ¬ TablePage s.mem pgds x
  pool : ∀ b ∈ s.pool, x ≠ addrToPhys b

/-- Every directory is in order by itself, and they are apart from one another. -/
structure SpacesInv (s : Machine) (pgds : List ℕ) : Prop where
  dir : ∀ d ∈ pgds, PgdInv s d
  present : ∀ d ∈ pgds, ∀ i < 768, tableAt s.mem (addrToPhys d) i ≠ 0 →
    (pdeAt s.mem (addrToPhys d) i).testBit 0 = true ∧
    (pdeAt s.mem (addrToPhys d) i).testBit 7 = false
  apart : ∀ d ∈ pgds, ∀ e ∈ pgds, ∀ i < 1024, tableAt s.mem (addrToPhys d) i ≠ addrToPhys e
  distinct : ∀ d ∈ pgds, ∀ e ∈ pgds, d ≠ e → ∀ i < 768, ∀ j < 1024,
    tableAt s.mem (addrToPhys d) i ≠ 0 →
    tableAt s.mem (addrToPhys d) i ≠ tableAt s.mem (addrToPhys e) j

/-- The frames that are free are no pages of the tables. -/
structure FramesClear (s : Machine) (pgds : List ℕ) : Prop where
  size_le : s.pmmBitmap.size ≤ 1048576
  clear : ∀ f < s.pmmBitmap.size, s.pmmBitmap.bit f = false → Clear s pgds (f * 4096)

/-- A directory and the pages it maps are the same in both states. -/
structure DirSame (s s' : Machine) (d : ℕ) : Prop where
  pde : ∀ i < 1024, pdeAt s'.mem (addrToPhys d) i = pdeAt s.mem (addrToPhys d) i
  entry : ∀ q < 1048576, entryAt s'.mem (addrToPhys d) q = entryAt s.mem (addrToPhys d) q

theorem DirSame.refl (s : Machine) (d : ℕ) : DirSame s s d := ⟨fun _ _ => rfl, fun _ _ => rfl⟩

theorem DirSame.trans {a b c : Machine} {d : ℕ} (h : DirSame a b d) (h' : DirSame b c d) :
    DirSame a c d :=
  ⟨fun i hi => (h'.pde i hi).trans (h.pde i hi), fun q hq => (h'.entry q hq).trans (h.entry q hq)⟩

theorem KBlock.phys_inj {b c : ℕ} (hb : KBlock b) (hc : KBlock c)
    (h : addrToPhys b = addrToPhys c) : b = c := by
  have h1 := hb.above
  have h2 := hc.above
  rw [hb.phys.1, hc.phys.1] at h
  omega

theorem spacesInv_empty {s : Machine} {pgds : List ℕ} (hd : ∀ d ∈ pgds, KBlock d)
    (ht : ∀ d ∈ pgds, ∀ i < 1024, tableAt s.mem (addrToPhys d) i = 0)
    (hpool : ∀ b ∈ s.pool, KBlock b ∧ b ∉ pgds) (hnd : (s.pool.map addrToPhys).Nodup) :
    SpacesInv s pgds := by
  have hne : ∀ b ∈ s.pool, ∀ d ∈ pgds, addrToPhys b ≠ addrToPhys d := fun b hb d hdp he =>
    (hpool b hb).2 ((hpool b hb).1.phys_inj (hd d hdp) he ▸ hdp)
  refine ⟨fun d hdp => ?_, fun d hdp i hi h0 => absurd (ht d hdp i (by omega)) h0,
    fun d hdp e he i hi => ?_, fun d hdp _ _ _ i hi _ _ h0 => absurd (ht d hdp i (by omega)) h0⟩
  · refine ⟨hd d hdp, fun i hi => ?_, fun i hi => ?_, fun i hi _ _ _ h0 => ?_, fun b hb =>
      (hpool b hb).1, hnd, fun b hb => hne b hb d hdp, fun b hb i hi => ?_⟩
    · rw [ht d hdp i hi]
      norm_num
    · rw [ht d hdp i hi]
      exact ((hd d hdp).phys.2.2.1).symm
    · exact absurd (ht d hdp i (by omega)) h0
    · rw [ht d hdp i hi]
      exact (hpool b hb).1.phys.2.2.1
  · rw [ht d hdp i hi]
    exact ((hd e he).phys.2.2.1).symm

section Frame

variable {s s' : Machine} {pgds : List ℕ} {d x : ℕ}

/-- The pages of a directory have kept their contents, so it maps what it did. -/
theorem dirSame_of_pages (hdir : SameOn s.mem s'.mem (addrToPhys d) 4096)
    (htab : ∀ i < 1024, tableAt s.mem (addrToPhys d) i ≠ 0 →
      SameOn s.mem s'.mem (tableAt s.mem (addrToPhys d) i) 4096) : DirSame s s' d := by
  have hpde : ∀ i < 1024, pdeAt s'.mem (addrToPhys d) i = pdeAt s.mem (addrToPhys d) i :=
    fun i hi => hdir.load32 (by omega)
  refine ⟨hpde, fun q hq => ?_⟩
  have ht : tableAt s'.mem (addrToPhys d) (q / 1024) = tableAt s.mem (addrToPhys d) (q / 1024) := by
    rw [tableAt, hpde _ (by omega), tableAt]
  rw [entryAt, ht, entryAt]
  split_ifs with h0
  · rfl
  · exact (htab _ (by omega) h0).load32 (by omega)

theorem DirSame.table (h : DirSame s s' d) {i : ℕ} (hi : i < 1024) :
    tableAt s'.mem (addrToPhys d) i = tableAt s.mem (addrToPhys d) i := by
  rw [tableAt, h.pde i hi, tableAt]

theorem PgdInv.mono (h : PgdInv s d) (hsame : DirSame s s' d) (hpool : ∀ b ∈ s'.pool, b ∈ s.pool)
    (hnd : (s'.pool.map addrToPhys).Nodup) : PgdInv s' d := by
  refine ⟨h.block, fun i hi => ?_, fun i hi => ?_, fun i hi j hj hij h0 => ?_,
    fun b hb => h.pool_block b (hpool b hb), hnd, fun b hb => h.pool_pgd b (hpool b hb),
    fun b hb i hi => ?_⟩
  · rw [hsame.table hi]
    exact h.window i hi
  · rw [hsame.table hi]
    exact h.apart i hi
  · rw [hsame.table (by omega)] at h0 ⊢
    rw [hsame.table hj]
    exact h.distinct i hi j hj hij h0
  · rw [hsame.table hi]
    exact h.pool_table b (hpool b hb) i hi

end Frame

/-- What an operation on the directory `d` may do: it writes to the directory and
its user tables, and takes blocks from the heap for new ones. -/
structure DirStep (s s' : Machine) (d : ℕ) : Prop where
  inv : PgdInv s' d
  same : ∀ x, x % 4096 = 0 → x ≠ addrToPhys d →
    (∀ i < 768, tableAt s.mem (addrToPhys d) i ≠ 0 → x ≠ tableAt s.mem (addrToPhys d) i) →
    (∀ b ∈ s.pool, x ≠ addrToPhys b) → SameOn s.mem s'.mem x 4096
  table : ∀ i < 1024, pdeAt s'.mem (addrToPhys d) i = pdeAt s.mem (addrToPhys d) i ∨
    ∃ b ∈ s.pool, b ∉ s'.pool ∧ ∃ w u, pdeAt s'.mem (addrToPhys d) i = makePde (addrToPhys b) w u
  pool : ∀ b ∈ s'.pool, b ∈ s.pool
  bitmap : s'.pmmBitmap = s.pmmBitmap
  cr3 : s'.cr3 = s.cr3
  kernelPgd : s'.kernelPgd = s.kernelPgd

section Step

variable {s s' : Machine} {pgds : List ℕ} {d e x : ℕ}

theorem DirStep.table_cases (hs : DirStep s s' d) (h : PgdInv s d) {i : ℕ} (hi : i < 1024) :
    tableAt s'.mem (addrToPhys d) i = tableAt s.mem (addrToPhys d) i ∨
    ∃ b ∈ s.pool, b ∉ s'.pool ∧ tableAt s'.mem (addrToPhys d) i = addrToPhys b := by
  rcases hs.table i hi with ht | ⟨b, hb, hb', w, u, ht⟩
  · exact Or.inl (by rw [tableAt, ht, tableAt])
  · exact Or.inr ⟨b, hb, hb', by rw [tableAt, ht, extract_block (h.pool_block b hb)]⟩

theorem DirStep.other (hs : DirStep s s' d) (h : SpacesInv s pgds) (hd : d ∈ pgds) (he : e ∈ pgds)
    (hne : e ≠ d) : DirSame s s' e := by
  have hD := h.dir d hd
  have hE := h.dir e he
  refine dirSame_of_pages (hs.same _ hE.block.phys.2.1 ?_ ?_ ?_) fun i hi h0 =>
    hs.same _ (tableAt_aligned _ _ _) (h.apart e he d hd i hi) ?_ ?_
  · exact fun hp => hne (hE.block.phys_inj hD.block hp)
  · exact fun i hi _ => (h.apart d hd e he i (by omega)).symm
  · exact fun b hb => (hE.pool_pgd b hb).symm
  · exact fun j hj hj0 => (h.distinct d hd e he (Ne.symm hne) j hj i hi hj0).symm
  · exact fun b hb => (hE.pool_table b hb i hi).symm

theorem DirStep.clear (hs : DirStep s s' d) (h : SpacesInv s pgds) (hd : d ∈ pgds)
    (hx : Clear s pgds x) : Clear s' pgds x := by
  refine ⟨?_, fun b hb => hx.pool b (hs.pool b hb)⟩
  rintro ⟨e, he, hxe⟩
  refine hx.table ⟨e, he, ?_⟩
  rcases hxe with hxe | ⟨i, hi, h0, hxe⟩
  · exact Or.inl hxe
  · by_cases hed : e = d
    · subst hed
      rcases hs.table_cases (h.dir e he) hi with ht | ⟨b, hb, -, ht⟩
      · rw [ht] at h0 hxe
        exact Or.inr ⟨i, hi, h0, hxe⟩
      · exact absurd (hxe.trans ht) (hx.pool b hb)
    · rw [(hs.other h hd he hed).table hi] at h0 hxe
      exact Or.inr ⟨i, hi, h0, hxe⟩

theorem SpacesInv.step (h : SpacesInv s pgds) (hd : d ∈ pgds) (hs : DirStep s s' d) :
    SpacesInv s' pgds := by
  have hD := h.dir d hd
  have hother := fun {e} (he : e ∈ pgds) (hne : e ≠ d) => hs.other h hd he hne
  -- the tables of any directory afterwards
  have htab : ∀ e ∈ pgds, ∀ i < 1024,
      tableAt s'.mem (addrToPhys e) i = tableAt s.mem (addrToPhys e) i ∨
      (e = d ∧ ∃ b ∈ s.pool, tableAt s'.mem (addrToPhys e) i = addrToPhys b) := by
    intro e he i hi
    by_cases hed : e = d
    · subst hed
      rcases hs.table_cases hD hi with ht | ⟨b, hb, -, ht⟩
      · exact Or.inl ht
      · exact Or.inr ⟨rfl, b, hb, ht⟩
    · exact Or.inl ((hother he hed).table hi)
  refine ⟨fun e he => ?_, fun e he i hi h0 => ?_, fun a ha b hb i hi => ?_,
    fun a ha b hb hab i hi j hj h0 => ?_⟩
  · by_cases hed : e = d
    · rw [hed]
      exact hs.inv
    · exact (h.dir e he).mono (hother he hed) hs.pool hs.inv.pool_nodup
  · by_cases hed : e = d
    · subst hed
      rcases hs.table i (by omega) with ht | ⟨b, -, -, w, u, ht⟩
      · rw [tableAt, ht] at h0
        rw [ht]
        exact h.present e he i hi h0
      · obtain ⟨h1, -, -, h7⟩ := makeEntry_flags (addrToPhys b) w u
        rw [ht]
        exact ⟨h1, h7⟩
    · have hsame := hother he hed
      rw [hsame.table (by omega)] at h0
      rw [hsame.pde i (by omega)]
      exact h.present e he i hi h0
  · rcases htab a ha i hi with ht | ⟨-, blk, hblk, ht⟩
    · rw [ht]
      exact h.apart a ha b hb i hi
    · rw [ht]
      exact (h.dir b hb).pool_pgd blk hblk
  · rcases htab a ha i (by omega) with hti | ⟨rfl, blk, hblk, hti⟩
    · rw [hti] at h0 ⊢
      rcases htab b hb j hj with htj | ⟨rfl, blk, hblk, htj⟩
      · rw [htj]
        exact h.distinct a ha b hb hab i hi j hj h0
      · rw [htj]
        exact ((h.dir a ha).pool_table blk hblk i (by omega)).symm
    · rw [hti, (hother hb (Ne.symm hab)).table hj]
      exact (h.dir b hb).pool_table blk hblk j hj

theorem DirStep.trans {s'' : Machine} (hs : DirStep s s' d) (hs' : DirStep s' s'' d)
    (h : PgdInv s d) : DirStep s s'' d := by
  refine ⟨hs'.inv, fun x hx hxd hxt hxp => ?_, fun i hi => ?_, fun b hb => hs.pool b (hs'.pool b hb),
    hs'.bitmap.trans hs.bitmap, hs'.cr3.trans hs.cr3, hs'.kernelPgd.trans hs.kernelPgd⟩
  · refine (hs.same x hx hxd hxt hxp).trans (hs'.same x hx hxd (fun i hi h0 => ?_) fun b hb =>
      hxp b (hs.pool b hb))
    rcases hs.table_cases h (i := i) (by omega) with ht | ⟨b, hb, -, ht⟩
    · rw [ht] at h0 ⊢
      exact hxt i hi h0
    · rw [ht]
      exact hxp b hb
  · rcases hs'.table i hi with ht' | ⟨b, hb, hb', w, u, ht'⟩
    · rw [ht']
      rcases hs.table i hi with ht | ⟨b, hb, hb', hnew⟩
      · exact Or.inl ht
      · exact Or.inr ⟨b, hb, fun hc => hb' (hs'.pool b hc), hnew⟩
    · exact Or.inr ⟨b, hs.pool b hb, hb', w, u, ht'⟩

end Step

section MapPage

variable {s s' : Machine} {pgds : List ℕ} {d va phys : ℕ} {user : Bool}

theorem storePte_step {p : ℕ} (v : ℕ) (h : PgdInv s d) (hp : p < USER_END)
    (ht : tableAt s.mem (addrToPhys d) (p / 1024) ≠ 0) : DirStep s (storePte s d p v) d := by
  have hidx : p / 1024 < 768 := by
    simp only [USER_END] at hp
    omega
  refine ⟨(storePte_spec h hp ht).1, fun x hx _ hxt _ => ?_, fun i hi => Or.inl ?_, fun b hb => hb,
    rfl, rfl, rfl⟩
  · exact store_page (tableAt_aligned _ _ _) hx (hxt _ hidx ht).symm (by omega)
  · exact (setEntry_spec h hp ht).1 i hi

theorem newTable_step {b i : ℕ} {rest : List ℕ} (w u : Bool) (h : PgdInv s d)
    (hpool : s.pool = b :: rest) (hi : i < 1024)
    (ht : tableAt s.mem (addrToPhys d) i = 0) :
    DirStep s { s with mem := withTable s.mem d i b w u, pool := rest } d := by
  have hmem : b ∈ s.pool := by simp [hpool]
  have hb := h.pool_block b hmem
  have hnd := h.pool_nodup
  rw [hpool, List.map_cons, List.nodup_cons] at hnd
  refine ⟨(newTable_spec h hpool hi ht).1, fun x hx hxd _ hxp => ?_, fun j hj => ?_, fun c hc => ?_,
    rfl, rfl, rfl⟩
  · exact withTable_page h.block hb hi hx (Ne.symm hxd) (hxp b hmem).symm
  · have hpde := pdeAt_withTable (s := s) (i := i) (w := w) (u := u) h.block hb (h.pool_pgd b hmem) hj
    by_cases hji : j = i
    · refine Or.inr ⟨b, hmem, fun hc => hnd.1 (List.mem_map_of_mem hc), w, u, ?_⟩
      rw [hpde, if_pos hji]
    · exact Or.inl (by rw [hpde, if_neg hji])
  · rw [hpool]
    exact List.mem_cons_of_mem _ hc

/-- `map_page` on any page below the kernel: it works on its directory, and the entry of
the page is the new one. -/
theorem mapPage_step (h : PgdInv s d) (hp : va / 4096 < USER_END)
    (hm : mapPage s d va phys user = some s') :
    DirStep s s' d ∧ ∀ q < 1048576, entryAt s'.mem (addrToPhys d) q =
      if q = va / 4096 then makePte phys true user else entryAt s.mem (addrToPhys d) q := by
  have hidx := (user_va_lt hp).2
  by_cases ht : tableAt s.mem (addrToPhys d) (va / 4096 / 1024) = 0
  · by_cases hlow : va / 4096 / 1024 = 0
    · simp [mapPage_of_low h hlow ht] at hm
    · have hup : UserPage (va / 4096) := ⟨by simp only [USER_FIRST]; omega, hp⟩
      refine ⟨?_, (mapPage_spec h hup hm).2.2.2.2⟩
      cases hpool : s.pool with
      | nil => simp [mapPage_of_nil h hup ht hpool] at hm
      | cons b rest =>
        rw [mapPage_of_pool h hup ht hpool] at hm
        obtain rfl := Option.some.inj hm
        have hb := h.pool_block b (by simp [hpool])
        have hnew := newTable_step true user h hpool (by omega) ht
        obtain ⟨hinv, htab, -⟩ := newTable_spec (w := true) (u := user) h hpool (by omega) ht
        exact hnew.trans (storePte_step _ hinv hp (by rw [htab]; exact hb.phys.2.2.1)) h
  · rw [mapPage_of_table h hp ht] at hm
    obtain rfl := Option.some.inj hm
    have hmod : makePte phys true user % 4294967296 = makePte phys true user :=
      Nat.mod_eq_of_lt (makeEntry_lt _ _ _)
    refine ⟨storePte_step _ h hp ht, fun q hq => ?_⟩
    rw [(storePte_spec h hp ht).2.2 q hq, hmod]

end MapPage

section Same

variable {s s' : Machine} {pgds : List ℕ} {x n : ℕ} {src : ℕ → Byte}

theorem Clear.congr (hx : Clear s pgds x) (hsame : ∀ d ∈ pgds, DirSame s s' d)
    (hpool : s'.pool = s.pool) : Clear s' pgds x := by
  refine ⟨?_, by rw [hpool]; exact hx.pool⟩
  rintro ⟨d, hd, hxd⟩
  refine hx.table ⟨d, hd, ?_⟩
  rcases hxd with hxd | ⟨i, hi, h0, hxd⟩
  · exact Or.inl hxd
  · rw [(hsame d hd).table hi] at h0 hxd
    exact Or.inr ⟨i, hi, h0, hxd⟩

theorem SpacesInv.congr (h : SpacesInv s pgds) (hsame : ∀ d ∈ pgds, DirSame s s' d)
    (hpool : s'.pool = s.pool) : SpacesInv s' pgds := by
  have htab := fun d (hd : d ∈ pgds) i (hi : i < 1024) => (hsame d hd).table hi
  refine ⟨fun d hd => ?_, fun d hd i hi h0 => ?_, fun d hd e he i hi => ?_,
    fun d hd e he hde i hi j hj h0 => ?_⟩
  · exact (h.dir d hd).congr hpool (hsame d hd).pde
  · rw [htab d hd i (by omega)] at h0
    rw [(hsame d hd).pde i (by omega)]
    exact h.present d hd i hi h0
  · rw [htab d hd i hi]
    exact h.apart d hd e he i hi
  · rw [htab d hd i (by omega)] at h0 ⊢
    rw [htab e he j hj]
    exact h.distinct d hd e he hde i hi j hj h0

theorem dirSame_blit (h : SpacesInv s pgds) (hx : x % 4096 = 0) (ht : ¬ TablePage s.mem pgds x)
    (hn : n ≤ 4096) {d : ℕ} (hd : d ∈ pgds) : DirSame s { s with mem := blit s.mem x src n } d := by
  have hpage : ∀ y, y % 4096 = 0 → y ≠ x → SameOn s.mem (blit s.mem x src n) y 4096 := by
    intro y hy hyx
    apply sameOn_blit
    unfold Apart
    omega
  refine dirSame_of_pages (hpage _ (h.dir d hd).block.phys.2.1 fun he => ?_) fun i hi h0 =>
    hpage _ (tableAt_aligned _ _ _) fun he => ?_
  · exact ht ⟨d, hd, Or.inl he.symm⟩
  · exact ht ⟨d, hd, Or.inr ⟨i, hi, h0, he.symm⟩⟩

theorem SpacesInv.clear_high (h : SpacesInv s pgds) {d : ℕ} (hd : d ∈ pgds)
    (hx : 0x40000000 ≤ x) : Clear s pgds x := by
  constructor
  · rintro ⟨e, he, hxe⟩
    rcases hxe with hxe | ⟨i, hi, -, hxe⟩
    · have := (h.dir e he).block.phys.2.2.2
      omega
    · have := (h.dir e he).window i hi
      omega
  · intro b hb hxb
    have := ((h.dir d hd).pool_block b hb).phys.2.2.2
    omega

theorem DirSame.reads {d : ℕ} (hsame : DirSame s s' d) (h : PgdInv s d) :
    (∀ i < 1024, kload s' (d + 4 * i) = kload s (d + 4 * i)) ∧
    ∀ va < 4294967296, pageEntry s' d va = pageEntry s d va := by
  refine ⟨fun i hi => ?_, fun va hva => ?_⟩
  · rw [kload_pde h.block hi, kload_pde h.block hi, hsame.pde i hi]
  · have hidx : va / 4096 / 1024 < 1024 := by omega
    have hw := h.window _ hidx
    rw [pageEntry_eq h.block hva hw, pageEntry_eq h.block hva (by rw [hsame.table hidx]; exact hw),
      hsame.entry _ (by omega)]

end Same

end DepthOS
