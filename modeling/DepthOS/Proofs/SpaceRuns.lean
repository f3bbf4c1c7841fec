import DepthOS.Lib.Run
import DepthOS.Proofs.Clone
import DepthOS.Proofs.Spaces

/-! The page tables of all tasks over runs: new directories by `create_pgd` and
`clone_pgd`, pages mapped in any of them, frames taken, and writes to pages that
are no tables. The address spaces are in order and apart in every state. -/

namespace DepthOS

open Lib

/-- A directory that has been added. Its page and its user tables are blocks the heap
has given out, its kernel tables those of `o`, and the other directories are as before. -/
structure NewDir (s s' : Machine) (pgds : List ℕ) (o pgd : ℕ) : Prop where
  block : pgd ∈ s.pool
  taken : pgd ∉ s'.pool
  low : ∀ i < 768, tableAt s'.mem (addrToPhys pgd) i ≠ 0 →
    ∃ b ∈ s.pool, b ∉ s'.pool ∧ b ≠ pgd ∧
      ∃ w u, pdeAt s'.mem (addrToPhys pgd) i = makePde (addrToPhys b) w u
  inj : ∀ i < 768, ∀ j < 768, i ≠ j → tableAt s'.mem (addrToPhys pgd) i ≠ 0 →
    tableAt s'.mem (addrToPhys pgd) i ≠ tableAt s'.mem (addrToPhys pgd) j
  high : ∀ i, 768 ≤ i → i < 1024 →
    tableAt s'.mem (addrToPhys pgd) i = tableAt s.mem (addrToPhys o) i
  same : ∀ d ∈ pgds, DirSame s s' d
  pool : ∀ b ∈ s'.pool, b ∈ s.pool
  pool_nodup : (s'.pool.map addrToPhys).Nodup

section Add

variable {s s' : Machine} {pgds : List ℕ} {o pgd x : ℕ}

theorem NewDir.table_cases (hn : NewDir s s' pgds o pgd) (ho : PgdInv s o) {i : ℕ} (hi : i < 1024) :
    tableAt s'.mem (addrToPhys pgd) i = 0 ∨
    (∃ b ∈ s.pool, b ∉ s'.pool ∧ b ≠ pgd ∧ tableAt s'.mem (addrToPhys pgd) i = addrToPhys b) ∨
    768 ≤ i ∧ tableAt s'.mem (addrToPhys pgd) i = tableAt s.mem (addrToPhys o) i := by
  by_cases h0 : tableAt s'.mem (addrToPhys pgd) i = 0
  · exact Or.inl h0
  · rcases Nat.lt_or_ge i 768 with hlow | hhigh
    · obtain ⟨b, hb, hb', hne, w, u, hpde⟩ := hn.low i hlow h0
      refine Or.inr (Or.inl ⟨b, hb, hb', hne, ?_⟩)
      rw [tableAt, hpde, extract_block (ho.pool_block b hb)]
    · exact Or.inr (Or.inr ⟨hhigh, hn.high i hhigh hi⟩)

theorem PgdInv.phys_ne (ho : PgdInv s o) {b c : ℕ} (hb : b ∈ s.pool) (hc : c ∈ s.pool)
    (hne : b ≠ c) : addrToPhys b ≠ addrToPhys c :=
  fun he => hne ((ho.pool_block b hb).phys_inj (ho.pool_block c hc) he)

theorem NewDir.inv (hn : NewDir s s' pgds o pgd) (ho : PgdInv s o) : PgdInv s' pgd := by
  have hblock := ho.pool_block pgd hn.block
  have hcases := fun {i} (hi : i < 1024) => hn.table_cases ho hi
  refine ⟨hblock, fun i hi => ?_, fun i hi => ?_, fun i hi j hj hij h0 => ?_,
    fun b hb => ho.pool_block b (hn.pool b hb), hn.pool_nodup, fun b hb => ?_, fun b hb i hi => ?_⟩
  · rcases hcases hi with h0 | ⟨b, hb, -, -, ht⟩ | ⟨-, ht⟩
    · rw [h0]
      norm_num
    · rw [ht]
      exact (ho.pool_block b hb).phys.2.2.2
    · rw [ht]
      exact ho.window i hi
  · rcases hcases hi with h0 | ⟨b, hb, -, hne, ht⟩ | ⟨-, ht⟩
    · rw [h0]
      exact hblock.phys.2.2.1.symm
    · rw [ht]
      exact ho.phys_ne hb hn.block hne
    · rw [ht]
      exact (ho.pool_table pgd hn.block i hi).symm
  · rcases Nat.lt_or_ge j 768 with hlow | hhigh
    · exact hn.inj i hi j hlow hij h0
    · rcases hcases (show i < 1024 by omega) with h | ⟨b, hb, -, -, ht⟩ | ⟨hge, -⟩
      · exact absurd h h0
      · rw [ht, hn.high j hhigh hj]
        exact ho.pool_table b hb j hj
      · omega
  · exact ho.phys_ne (hn.pool b hb) hn.block fun he => hn.taken (he ▸ hb)
  · rcases hcases hi with h0 | ⟨c, hc, hc', -, ht⟩ | ⟨-, ht⟩
    · rw [h0]
      exact (ho.pool_block b (hn.pool b hb)).phys.2.2.1
    · rw [ht]
      exact ho.phys_ne (hn.pool b hb) hc fun he => hc' (he ▸ hb)
    · rw [ht]
      exact ho.pool_table b (hn.pool b hb) i hi

theorem SpacesInv.add (h : SpacesInv s pgds) (ho : o ∈ pgds) (hn : NewDir s s' pgds o pgd) :
    SpacesInv s' (pgd :: pgds) := by
  have hO := h.dir o ho
  have hcases := fun {i} (hi : i < 1024) => hn.table_cases hO hi
  have htab := fun {d} (hd : d ∈ pgds) {i} (hi : i < 1024) => (hn.same d hd).table hi
  refine ⟨fun d hd => ?_, fun d hd i hi h0 => ?_, fun d hd e he i hi => ?_,
    fun d hd e he hde i hi j hj h0 => ?_⟩
  · rcases List.mem_cons.1 hd with rfl | hd
    · exact hn.inv hO
    · exact (h.dir d hd).mono (hn.same d hd) hn.pool hn.pool_nodup
  · rcases List.mem_cons.1 hd with rfl | hd
    · obtain ⟨b, -, -, -, w, u, hpde⟩ := hn.low i hi h0
      obtain ⟨h1, -, -, h7⟩ := makeEntry_flags (addrToPhys b) w u
      rw [hpde]
      exact ⟨h1, h7⟩
    · rw [htab hd (by omega)] at h0
      rw [(hn.same d hd).pde i (by omega)]
      exact h.present d hd i hi h0
  · rcases List.mem_cons.1 hd with rfl | hd' <;> rcases List.mem_cons.1 he with rfl | he'
    · exact (hn.inv hO).apart i hi
    · have hE := h.dir e he'
      rcases hcases hi with h0 | ⟨b, hb, -, -, ht⟩ | ⟨-, ht⟩
      · rw [h0]
        exact hE.block.phys.2.2.1.symm
      · rw [ht]
        exact hE.pool_pgd b hb
      · rw [ht]
        exact h.apart o ho e he' i hi
    · rw [htab hd' hi]
      exact ((h.dir d hd').pool_table e hn.block i hi).symm
    · rw [htab hd' hi]
      exact h.apart d hd' e he' i hi
  · rcases List.mem_cons.1 hd with rfl | hd' <;> rcases List.mem_cons.1 he with rfl | he'
    · exact absurd rfl hde
    · rw [htab he' hj]
      rcases hcases (show i < 1024 by omega) with hz | ⟨b, hb, -, -, ht⟩ | ⟨hge, -⟩
      · exact absurd hz h0
      · rw [ht]
        exact (h.dir e he').pool_table b hb j hj
      · omega
    · rw [htab hd' (by omega)] at h0 ⊢
      rcases hcases hj with hz | ⟨b, hb, -, -, ht⟩ | ⟨hge, ht⟩
      · rw [hz]
        exact h0
      · rw [ht]
        exact ((h.dir d hd').pool_table b hb i (by omega)).symm
      · rw [ht]
        by_cases hdo : d = o
        · subst hdo
          exact hO.distinct i hi j hj (by omega) h0
        · exact h.distinct d hd' o ho hdo i hi j hj h0
    · rw [htab hd' (by omega)] at h0 ⊢
      rw [htab he' hj]
      exact h.distinct d hd' e he' hde i hi j hj h0

theorem NewDir.clear (hn : NewDir s s' pgds o pgd) (h : SpacesInv s pgds) (ho : o ∈ pgds)
    (hx : Clear s pgds x) : Clear s' (pgd :: pgds) x := by
  refine ⟨?_, fun b hb => hx.pool b (hn.pool b hb)⟩
  rintro ⟨d, hd, hxd⟩
  rcases List.mem_cons.1 hd with rfl | hd
  · rcases hxd with hxd | ⟨i, hi, h0, hxd⟩
    · exact hx.pool d hn.block hxd
    · rcases hn.table_cases (h.dir o ho) hi with hz | ⟨b, hb, -, -, ht⟩ | ⟨-, ht⟩
      · exact h0 hz
      · exact hx.pool b hb (hxd.trans ht)
      · rw [ht] at h0 hxd
        exact hx.table ⟨o, ho, Or.inr ⟨i, hi, h0, hxd⟩⟩
  · refine hx.table ⟨d, hd, ?_⟩
    rcases hxd with hxd | ⟨i, hi, h0, hxd⟩
    · exact Or.inl hxd
    · rw [(hn.same d hd).table hi] at h0 hxd
      exact Or.inr ⟨i, hi, h0, hxd⟩

end Add

section New

variable {s s' : Machine} {pgds : List ℕ} {pgd : ℕ}

theorem SpacesInv.freshHeap (h : SpacesInv s pgds) (hk : s.kernelPgd ∈ pgds) : FreshHeap s := by
  have hK := h.dir _ hk
  exact ⟨hK.pool_block, hK.pool_nodup, hK.block, hK.pool_pgd, fun i _ hi => hK.window i hi,
    fun b hb i _ hi => hK.pool_table b hb i hi⟩

theorem PgdCreated.newDir (h : SpacesInv s pgds) (hk : s.kernelPgd ∈ pgds)
    (hc : PgdCreated s s' pgd) : NewDir s s' pgds s.kernelPgd pgd := by
  have hK := h.dir _ hk
  have hmem : pgd ∈ s.pool := by simp [hc.pool]
  have hnd := hK.pool_nodup
  rw [hc.pool, List.map_cons, List.nodup_cons] at hnd
  refine ⟨hmem, fun hm => hnd.1 (List.mem_map_of_mem hm), fun i hi h0 => absurd (hc.table_low hi) h0,
    fun i hi _ _ _ h0 => absurd (hc.table_low hi) h0, fun i h1 h2 => hc.table_high h1 h2,
    fun d hd => ?_, fun b hb => ?_, hnd.2⟩
  · have hD := h.dir d hd
    exact dirSame_of_pages (hc.same _ hD.block.phys.2.1 (hD.pool_pgd pgd hmem).symm) fun i hi _ =>
      hc.same _ (tableAt_aligned _ _ _) (hD.pool_table pgd hmem i hi).symm
  · rw [hc.pool]
    exact List.mem_cons_of_mem _ hb

end New

section Clone

variable {s s' s1 : Machine} {pgds : List ℕ} {original pgd buffer x : ℕ} {T F : ℕ → ℕ}

theorem TablePage.old (hx : TablePage s.mem pgds x) (hS : SpacesInv s pgds)
    (hF : FramesClear s pgds) : Old s x := by
  have hclear := fun f hf hfree (he : f * 4096 = x) => (hF.clear f hf hfree).table (he ▸ hx)
  obtain ⟨d, hd, hxd⟩ := hx
  have hD := hS.dir d hd
  rcases hxd with hxd | ⟨i, hi, -, hxd⟩
  · refine ⟨?_, fun b hb he => hD.pool_pgd b hb (he.trans hxd), hclear⟩
    rw [hxd]
    exact hD.block.phys.2.1
  · refine ⟨?_, fun b hb he => hD.pool_table b hb i hi (he.trans hxd), hclear⟩
    rw [hxd]
    exact tableAt_aligned _ _ _

theorem CloneInv.newDir (hok : CloneOk s original) (hS : SpacesInv s pgds)
    (hF : FramesClear s pgds) (ho : original ∈ pgds)
    (h : CloneInv s original pgd buffer 768 USER_END T F s1) :
    NewDir s { s1 with pool := buffer :: s1.pool } pgds original pgd := by
  obtain ⟨hpgd, hbuf, hne⟩ := h.blocks
  have hO := hS.dir original ho
  have htab : ∀ i < 768, tableAt s1.mem (addrToPhys pgd) i ≠ 0 →
      pdeAt s.mem (addrToPhys original) i ≠ 0 ∧
        tableAt s1.mem (addrToPhys pgd) i = addrToPhys (T i) := by
    intro i hi h0
    rw [h.table_new hok hi] at h0 ⊢
    by_cases hp : pdeAt s.mem (addrToPhys original) i = 0
    · exact absurd (if_pos hp) h0
    · exact ⟨hp, if_neg hp⟩
  refine ⟨hpgd, fun hm => ?_, fun i hi h0 => ?_, fun i hi j hj hij h0 => ?_, fun i h1 h2 => ?_,
    fun d hd => ?_, fun b hb => ?_, ?_⟩
  · rcases List.mem_cons.1 hm with he | hm
    · exact hne he
    · exact (h.pool pgd hm).2.1 rfl
  · obtain ⟨hp, -⟩ := htab i hi h0
    obtain ⟨hT, hTp, hTb, hTs⟩ := h.tables i hi hp
    refine ⟨T i, hT, fun hm => ?_, hTp, _, _, (h.pde i (by omega)).trans (if_pos ⟨hi, hp⟩)⟩
    rcases List.mem_cons.1 hm with he | hm
    · exact hTb he
    · exact hTs hm
  · obtain ⟨hp, ht⟩ := htab i hi h0
    intro he
    obtain ⟨hq, ht'⟩ := htab j hj (he ▸ h0)
    exact hO.phys_ne (h.tables i hi hp).1 (h.tables j hj hq).1 (h.tables_inj i hi j hj hp hq hij)
      (ht.symm.trans (he.trans ht'))
  · have hpde : pdeAt s1.mem (addrToPhys pgd) i = pdeAt s.mem (addrToPhys original) i := by
      rw [h.pde i h2, if_neg (by omega)]
    change tableAt s1.mem (addrToPhys pgd) i = _
    rw [tableAt, hpde, tableAt]
  · refine dirSame_of_pages (h.old _ ?_) fun i hi h0 => h.old _ ?_
    · exact TablePage.old ⟨d, hd, Or.inl rfl⟩ hS hF
    · exact TablePage.old ⟨d, hd, Or.inr ⟨i, hi, h0, rfl⟩⟩ hS hF
  · rcases List.mem_cons.1 hb with rfl | hb
    · exact hbuf
    · exact (h.pool b hb).1
  · have hnd : (buffer :: s1.pool).Nodup :=
      List.nodup_cons.2 ⟨fun hm => (h.pool buffer hm).2.2 rfl, h.nodup⟩
    refine hnd.map_on fun b hb c hc he => ?_
    have hmem : ∀ b ∈ buffer :: s1.pool, b ∈ s.pool := by
      intro b hb
      rcases List.mem_cons.1 hb with rfl | hb
      · exact hbuf
      · exact (h.pool b hb).1
    by_contra hbc
    exact hO.phys_ne (hmem b hb) (hmem c hc) hbc he

theorem copyIn_kernelPgd {va : ℕ} (h : copyIn s buffer va = some s') :
    s'.kernelPgd = s.kernelPgd := by
  unfold copyIn at h
  split_ifs at h
  obtain ⟨p, -, rfl⟩ := Option.map_eq_some_iff.1 h
  rfl

theorem copyOut_kernelPgd {va : ℕ} (h : copyOut s va buffer = some s') :
    s'.kernelPgd = s.kernelPgd := by
  obtain ⟨p, -, rfl⟩ := Option.map_eq_some_iff.1 h
  rfl

theorem cloneEntry_kernelPgd {saved table i j : ℕ}
    (h : cloneEntry original pgd buffer saved table i s j = some s') :
    s'.kernelPgd = s.kernelPgd := by
  unfold cloneEntry at h
  dsimp only at h
  split_ifs at h
  · rw [Option.some.inj h]
  · obtain ⟨m1, h1, h2⟩ := Option.bind_eq_some_iff.1 h
    obtain ⟨m2, h3, rfl⟩ := Option.map_eq_some_iff.1 h2
    have ha : ∀ (m : Machine) p, (activatePgd m p).kernelPgd = m.kernelPgd := by
      intro m p
      rw [activatePgd]
    rw [ha, copyOut_kernelPgd h3, ha, copyIn_kernelPgd h1, ha, kstore]

theorem cloneTable_kernelPgd {saved i : ℕ}
    (h : cloneTable original pgd buffer saved s i = some s') : s'.kernelPgd = s.kernelPgd := by
  have hk := kmallocPage_kernelPgd s
  unfold cloneTable at h
  dsimp only at h
  split_ifs at h
  · rw [Option.some.inj h]
  · refine foldlM_range_rule (I := fun m => m.kernelPgd = s.kernelPgd) (fun a j b ha hb => ?_) 1024
      ?_ h
    · rw [cloneEntry_kernelPgd hb, ha]
    · rw [kstore, kmemset0_kernelPgd, hk]

theorem clonePgd_kernelPgd (h : clonePgd s original = some (pgd, s')) :
    s'.kernelPgd = s.kernelPgd := by
  obtain ⟨⟨b, m⟩, hd, h⟩ := Option.bind_eq_some_iff.1 h
  have hm : m.kernelPgd = s.kernelPgd := by
    have hk := kmallocPage_kernelPgd s
    unfold dupPgd at hd
    dsimp only at hd
    split_ifs at hd
    obtain ⟨-, rfl⟩ := Prod.mk.inj (Option.some.inj hd)
    rw [kmemcpy_kernelPgd, hk]
  obtain ⟨m', hfold, heq⟩ := Option.map_eq_some_iff.1 h
  obtain ⟨-, rfl⟩ := Prod.mk.inj heq
  refine foldlM_range_rule (I := fun m => m.kernelPgd = s.kernelPgd) (fun a j c ha hc => ?_) 1024
    ?_ hfold
  · rw [cloneTable_kernelPgd hc, ha]
  · exact (kmallocPage_kernelPgd m).trans hm

end Clone

/-- The machine and the directories in use. -/
structure SpaceState where
  machine : Machine
  pgds : List ℕ

inductive SpaceEvent where
  | create
  | clone (original : ℕ)
  | map (pgd vaddr phys : ℕ) (user : Bool)
  | alloc (n : ℕ)
  | write (x : ℕ) (src : ℕ → Byte) (n : ℕ)

/-- A clone is one that finds the heap blocks and the frames it needs; a page is mapped
below the kernel, and what is written is no page of the tables. -/
def SpaceStep (s : SpaceState) (e : SpaceEvent) (s' : SpaceState) : Prop :=
  match e with
  | .create => ∃ pgd m, createPgd s.machine = some (pgd, m) ∧ s' = ⟨m, pgd :: s.pgds⟩
  | .clone original => original ∈ s.pgds ∧ CloneOk s.machine original ∧
    ∃ pgd m, clonePgd s.machine original = some (pgd, m) ∧ s' = ⟨m, pgd :: s.pgds⟩
  | .map pgd vaddr phys user => pgd ∈ s.pgds ∧ vaddr / 4096 < USER_END ∧
    ∃ m, mapPage s.machine pgd vaddr phys user = some m ∧ s' = ⟨m, s.pgds⟩
  | .alloc n => 1 ≤ n ∧ HasRun s.machine.pmmBitmap n false ∧
    s' = ⟨{ s.machine with pmmBitmap := (pmmAlloc s.machine.pmmBitmap n).2 }, s.pgds⟩
  | .write x src n => x % 4096 = 0 ∧ n ≤ 4096 ∧ Clear s.machine s.pgds x ∧
    s' = ⟨{ s.machine with mem := blit s.machine.mem x src n }, s.pgds⟩

/-- The kernel's directory alone, with no table below the kernel. -/
def SpaceBoot (s : SpaceState) : Prop :=
  s.pgds = [s.machine.kernelPgd] ∧ PgdInv s.machine s.machine.kernelPgd ∧
  (∀ i < 768, tableAt s.machine.mem (addrToPhys s.machine.kernelPgd) i = 0) ∧
  FramesClear s.machine s.pgds

def SpaceRun : List SpaceEvent → SpaceState → Prop := Run SpaceBoot SpaceStep

/-- What holds of every state of a run. -/
structure SpacesOk (s : SpaceState) : Prop where
  spaces : SpacesInv s.machine s.pgds
  frames : FramesClear s.machine s.pgds
  kernel : s.machine.kernelPgd ∈ s.pgds

section Run

variable {s s' : SpaceState}

theorem spacesOk_boot (h : SpaceBoot s) : SpacesOk s := by
  obtain ⟨hpgds, hinv, hlow, hframes⟩ := h
  refine ⟨?_, hframes, by simp [hpgds]⟩
  rw [hpgds]
  refine ⟨fun d hd => ?_, fun d hd i hi h0 => ?_, fun d hd e he i hi => ?_, fun d hd e he hde => ?_⟩
  · rw [List.mem_singleton.1 hd]
    exact hinv
  · rw [List.mem_singleton.1 hd] at h0
    exact absurd (hlow i hi) h0
  · rw [List.mem_singleton.1 hd, List.mem_singleton.1 he]
    exact hinv.apart i hi
  · exact absurd ((List.mem_singleton.1 hd).trans (List.mem_singleton.1 he).symm) hde

theorem spacesOk_create (h : SpacesOk s) (hs : SpaceStep s .create s') : SpacesOk s' := by
  obtain ⟨pgd, m, hc, rfl⟩ := hs
  have hnew := createPgd_created (h.spaces.freshHeap h.kernel) hc
  have hdir := hnew.newDir h.spaces h.kernel
  refine ⟨h.spaces.add h.kernel hdir, ⟨?_, fun f hf hfree => ?_⟩, ?_⟩
  · rw [hnew.bitmap]
    exact h.frames.size_le
  · rw [hnew.bitmap] at hf hfree
    exact hdir.clear h.spaces h.kernel (h.frames.clear f hf hfree)
  · rw [hnew.kernelPgd]
    exact List.mem_cons_of_mem _ h.kernel

theorem spacesOk_clone {original : ℕ} (h : SpacesOk s) (hs : SpaceStep s (.clone original) s') :
    SpacesOk s' := by
  obtain ⟨ho, hok, pgd, m, hc, rfl⟩ := hs
  have hk := clonePgd_kernelPgd hc
  obtain ⟨pgd', buffer, T, F, s1, hinv, hc'⟩ := clonePgd_spec hok
  obtain ⟨rfl, rfl⟩ := Prod.mk.inj (Option.some.inj (hc.symm.trans hc'))
  have hdir := hinv.newDir hok h.spaces h.frames ho
  refine ⟨h.spaces.add ho hdir, ⟨?_, fun f hf hfree => ?_⟩, ?_⟩
  · exact hinv.size.le.trans h.frames.size_le
  · exact hdir.clear h.spaces ho (h.frames.clear f (hf.trans_eq hinv.size) (hinv.bits f hfree))
  · rw [hk]
    exact List.mem_cons_of_mem _ h.kernel

theorem spacesOk_map {pgd vaddr phys : ℕ} {user : Bool} (h : SpacesOk s)
    (hs : SpaceStep s (.map pgd vaddr phys user) s') : SpacesOk s' := by
  obtain ⟨hd, hp, m, hm, rfl⟩ := hs
  have hstep := (mapPage_step (h.spaces.dir pgd hd) hp hm).1
  refine ⟨h.spaces.step hd hstep, ⟨?_, fun f hf hfree => ?_⟩, ?_⟩
  · rw [hstep.bitmap]
    exact h.frames.size_le
  · rw [hstep.bitmap] at hf hfree
    exact hstep.clear h.spaces hd (h.frames.clear f hf hfree)
  · rw [hstep.kernelPgd]
    exact h.kernel

theorem spacesOk_same {m : Machine} (h : SpacesOk s) (hsame : ∀ d ∈ s.pgds, DirSame s.machine m d)
    (hpool : m.pool = s.machine.pool) (hk : m.kernelPgd = s.machine.kernelPgd)
    (hsize : m.pmmBitmap.size = s.machine.pmmBitmap.size)
    (hbits : ∀ f, m.pmmBitmap.bit f = false → s.machine.pmmBitmap.bit f = false) :
    SpacesOk ⟨m, s.pgds⟩ := by
  refine ⟨h.spaces.congr hsame hpool, ⟨hsize.le.trans h.frames.size_le, fun f hf hfree => ?_⟩, ?_⟩
  · exact (h.frames.clear f (hf.trans_eq hsize) (hbits f hfree)).congr hsame hpool
  · rw [hk]
    exact h.kernel

theorem spacesOk_step {e : SpaceEvent} (h : SpacesOk s) (hs : SpaceStep s e s') : SpacesOk s' := by
  cases e with
  | create => exact spacesOk_create h hs
  | clone original => exact spacesOk_clone h hs
  | map pgd vaddr phys user => exact spacesOk_map h hs
  | alloc n =>
    obtain ⟨hn, hrun, rfl⟩ := hs
    obtain ⟨a, -, -, hsize, -, hbit⟩ := pmmAlloc_spec s.machine.pmmBitmap hn h.frames.size_le hrun
    refine spacesOk_same h (fun d _ => ⟨fun _ _ => rfl, fun _ _ => rfl⟩) rfl rfl hsize fun f hf => ?_
    rw [hbit] at hf
    split_ifs at hf
    exact hf
  | write x src n =>
    obtain ⟨hx, hn, hclear, rfl⟩ := hs
    exact spacesOk_same h (fun d hd => dirSame_blit h.spaces hx hclear.table hn hd) rfl rfl rfl
      fun f hf => hf

/-- In every state of a run the address spaces are in order and apart, and the frames
that are free hold none of their tables. -/
theorem spaces_run {evs : List SpaceEvent} (h : SpaceRun evs s) : SpacesOk s :=
  Run.invariant SpacesOk (fun _ => spacesOk_boot) (fun _ _ _ => spacesOk_step) h

end Run

end DepthOS
