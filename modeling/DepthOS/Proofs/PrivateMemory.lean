import DepthOS.Proofs.UserMemory

/-! The memories of the processes are private: what is stored in one is read there, and in the
address spaces forked from it since, and nowhere else. -/

namespace DepthOS

open Lib

section Last

variable {evs mid later : List ProcEvent} {t t' : UserSpaces} {d va : ℕ} {b : Byte}

/-- The directory is in use, and its byte at `va` is `b`. -/
def Holds (d va : ℕ) (b : Byte) (t : UserSpaces) : Prop :=
  t.current ∈ t.dirs ∧ d ∈ t.dirs ∧ t.mem d va = some b

theorem current_step {e : ProcEvent} (h : t.current ∈ t.dirs) (hs : UserStep t e t') :
    t'.current ∈ t'.dirs := by
  cases e with
  | spawn self pgd =>
    obtain ⟨-, rfl⟩ := hs
    exact List.mem_cons_of_mem _ h
  | fork i original self pgd blks =>
    obtain ⟨-, -, rfl⟩ := hs
    exact List.mem_cons_of_mem _ h
  | alloc pgd vaddr npages user overwrite =>
    obtain ⟨-, old, rfl⟩ := hs
    exact h
  | fault i pgd cr2 area =>
    obtain ⟨-, rfl⟩ := hs
    exact h
  | switch pgd =>
    obtain ⟨hd, rfl⟩ := hs
    exact hd
  | store pgd va b =>
    obtain ⟨-, -, rfl⟩ := hs
    exact h
  | load pgd va b =>
    obtain ⟨-, -, rfl⟩ := hs
    exact h
  | stack i vma entry =>
    obtain rfl := hs
    exact h
  | mmap i p env =>
    obtain rfl := hs
    exact h

theorem UserRun.current (h : UserRun evs t) : t.current ∈ t.dirs :=
  Run.invariant (fun t => t.current ∈ t.dirs) (fun t ht => by rw [ht.1]; exact List.mem_cons_self)
    (fun _ _ _ => current_step) h

/-- The memory of a directory that has changed only where the event says so. -/
theorem set_byte {pgd : ℕ} {f : ℕ → Option Byte} (h : pgd = d → f va = t.mem d va) :
    (t.set pgd f).mem d va = t.mem d va := by
  change Function.update t.mem pgd f d va = t.mem d va
  by_cases hd : d = pgd
  · rw [hd, Function.update_self, h hd.symm, hd]
  · rw [Function.update_of_ne hd]

theorem holds_step {e : ProcEvent} (he : ¬ e.Changes d va) (h : Holds d va b t)
    (hs : UserStep t e t') : Holds d va b t' := by
  obtain ⟨hcur, hd, hb⟩ := h
  refine ⟨current_step hcur hs, ?_⟩
  cases e with
  | spawn self pgd =>
    obtain ⟨hnew, rfl⟩ := hs
    exact ⟨List.mem_cons_of_mem _ hd, (set_byte fun hp => absurd hd (by rwa [← hp])).trans hb⟩
  | fork i original self pgd blks =>
    obtain ⟨-, hnew, rfl⟩ := hs
    exact ⟨List.mem_cons_of_mem _ hd, (set_byte fun hp => absurd hd (by rwa [← hp])).trans hb⟩
  | alloc pgd vaddr npages user overwrite =>
    obtain ⟨-, old, rfl⟩ := hs
    refine ⟨hd, (set_byte fun hp => ?_).trans hb⟩
    rw [if_neg fun hc => he ⟨hp, hc.1⟩, hp]
  | fault i pgd cr2 area =>
    obtain ⟨-, rfl⟩ := hs
    refine ⟨hd, (set_byte fun hp => ?_).trans hb⟩
    rw [if_neg fun hc => he ⟨hp, hc⟩, hp]
  | switch pgd =>
    obtain ⟨-, rfl⟩ := hs
    exact ⟨hd, hb⟩
  | store pgd va' b' =>
    obtain ⟨-, -, rfl⟩ := hs
    refine ⟨hd, (set_byte fun hp => ?_).trans hb⟩
    rw [Function.update_of_ne fun hc => he ⟨hp, hc.symm⟩, hp]
  | load pgd va' b' =>
    obtain ⟨-, -, rfl⟩ := hs
    exact ⟨hd, hb⟩
  | stack i vma entry =>
    obtain rfl := hs
    exact ⟨hd, hb⟩
  | mmap i p env =>
    obtain rfl := hs
    exact ⟨hd, hb⟩

theorem UserRun.stored (hmid : ∀ e ∈ mid, ¬ e.Changes d va)
    (h : UserRun (evs ++ .store d va b :: mid) t) : Holds d va b t := by
  rw [List.append_cons] at h
  obtain ⟨t₁, h₁, hlater⟩ := h.split
  obtain ⟨t₀, h₀, hcur, hne, rfl⟩ := Run.last h₁
  refine Run.keeps (Holds d va b) ?_ (fun _ _ _ he ht hs => holds_step he ht hs) hmid hlater
  rintro t' rfl
  refine ⟨UserRun.current h₁, ?_, ?_⟩
  · rw [hcur]
    exact (UserRun.current h₀ : t₀.current ∈ t₀.dirs)
  · change Function.update t₀.mem d _ d va = some b
    rw [Function.update_self, Function.update_self]

end Last

/-- 4 GiB of memory, and the kernel's directory in its second page. -/
def procMachine (pool : List ℕ) : Machine :=
  { mem := fun _ => 0, pmmBitmap := pmmInit 0xFFFFF000 0, pool := pool
    kernelPgd := 0xC0001000, cr3 := 0x1000, currentPgd := 0xC0001000, pagingEnabled := true
    installs := [] }

def procStart (pool : List ℕ) : ProcState :=
  ⟨⟨vmaBoot0.mem, [], fun _ => 0⟩, procMachine pool, [0xC0001000]⟩

/-- The heap holds pages of the first 4 MiB. -/
structure LowHeap (pool : List ℕ) : Prop where
  block : ∀ b ∈ pool, KBlock b ∧ 0x2000 ≤ addrToPhys b ∧ addrToPhys b < 4194304
  nodup : (pool.map addrToPhys).Nodup

theorem lowHeap_exists {n : ℕ} (hn : n ≤ 1000) : ∃ pool, pool.length = n ∧ LowHeap pool := by
  have hphys : ∀ k < n, addrToPhys (0xC0002000 + 4096 * k) = 0x2000 + 4096 * k := by
    intro k hk
    simp only [addrToPhys, sub32, u32, VIRT_BASE]
    omega
  refine ⟨(List.range n).map fun k => 0xC0002000 + 4096 * k, by simp, fun b hb => ?_, ?_⟩
  · obtain ⟨k, hk, rfl⟩ := List.mem_map.1 hb
    have hlt := List.mem_range.1 hk
    rw [hphys k hlt]
    exact ⟨⟨by omega, by simp only [VIRT_BASE]; omega, by omega⟩, by omega, by omega⟩
  · rw [List.map_map]
    refine List.Nodup.map_on (fun x hx y hy hxy => ?_) List.nodup_range
    rw [Function.comp_apply, Function.comp_apply, hphys x (List.mem_range.1 hx),
      hphys y (List.mem_range.1 hy)] at hxy
    omega

section Start

variable {pool : List ℕ}

theorem procMachine_pde (d i : ℕ) : pdeAt (procMachine pool).mem (addrToPhys d) i = 0 := by
  simp [procMachine, pdeAt, load32]

theorem procMachine_table (d i : ℕ) : tableAt (procMachine pool).mem (addrToPhys d) i = 0 := by
  rw [tableAt, procMachine_pde]
  rfl

theorem procMachine_bits (pool : List ℕ) : (procMachine pool).pmmBitmap.size = 1048575 ∧
    ∀ j, (procMachine pool).pmmBitmap.bit j = decide (j < 1024) := by
  obtain ⟨hsize, hbit⟩ := pmmInit_spec 0xFFFFF000 0 (by norm_num)
  have hframes : pmmFrames 0xFFFFF000 = 1048575 := by decide
  have hbm : (procMachine pool).pmmBitmap = pmmInit 0xFFFFF000 0 := by rw [procMachine]
  rw [hframes] at hsize hbit
  refine ⟨by rw [hbm, hsize], fun j => ?_⟩
  rw [hbm, hbit, decide_eq_decide]
  omega

theorem procStart_boot (h : LowHeap pool) : ProcBoot (procStart pool) := by
  have hk : KBlock 0xC0001000 ∧ addrToPhys 0xC0001000 = 0x1000 :=
    ⟨⟨by decide, by decide, by decide⟩, rfl⟩
  have hspaces : SpacesInv (procMachine pool) [0xC0001000] := by
    refine spacesInv_empty (fun d hd => by rw [List.mem_singleton.1 hd]; exact hk.1)
      (fun d _ i _ => procMachine_table d i) (fun b hb => ⟨(h.block b hb).1, fun hc => ?_⟩) h.nodup
    have := (h.block b hb).2.1
    rw [List.mem_singleton.1 hc, hk.2] at this
    omega
  obtain ⟨hsize, hbit⟩ := procMachine_bits pool
  have hframes : FramesClear (procMachine pool) [0xC0001000] := by
    refine ⟨by rw [hsize]; norm_num, fun f hf hfree => ⟨?_, fun b hb he => ?_⟩⟩
    · rintro ⟨d, hd, he | ⟨i, -, h0, -⟩⟩
      · rw [List.mem_singleton.1 hd, hk.2] at he
        rw [hbit, decide_eq_false_iff_not] at hfree
        omega
      · exact h0 (procMachine_table d i)
    · have := (h.block b hb).2.2
      rw [hbit, decide_eq_false_iff_not] at hfree
      omega
  exact ⟨rfl, rfl, hspaces.dir _ List.mem_cons_self, fun i _ => procMachine_pde _ i, hframes,
    hk.2.symm⟩

end Start

section Run

variable {evs : List ProcEvent} {s s' : ProcState} {pool : List ℕ}

theorem ProcRun.ok (h : ProcRun evs s) : ProcOk s := by
  obtain ⟨t, -, hsame⟩ := procRun_same h
  exact hsame.ok

/-- The first process of a machine with `n` blocks in its heap. -/
theorem first_spawn {n : ℕ} (h : LowHeap pool) (hn : pool.length = n + 1) :
    ∃ pgd s, pool.head? = some pgd ∧ ProcRun [.spawn 1 pgd, .switch pgd] s ∧
      s.pgds = [pgd, 0xC0001000] ∧
      s.maps = (procStart pool).maps.spawn 1 pgd ∧ s.machine.cr3 = addrToPhys pgd ∧
      s.machine.pool.length = n ∧ s.machine.pmmBitmap = (procMachine pool).pmmBitmap := by
  obtain ⟨b, rest, rfl⟩ := List.exists_cons_of_length_eq_add_one hn
  have hnil : ProcRun [] (procStart (b :: rest)) := Run.nil (procStart_boot h)
  have hb0 : b ≠ 0 := by
    have := (h.block b List.mem_cons_self).1.above
    omega
  obtain ⟨m, hm⟩ : ∃ m, createPgd (procMachine (b :: rest)) = some (b, m) := by
    unfold createPgd
    rw [kmallocPage_cons b rest (by rw [procMachine])]
    dsimp only
    rw [if_neg hb0]
    exact ⟨_, rfl⟩
  have hok := ProcRun.ok hnil
  have hc := createPgd_created (hok.own.spaces.freshHeap hok.kernel) hm
  have hrest : m.pool = rest := (List.cons.inj hc.pool).2.symm
  have h1 : ProcRun [.spawn 1 b] ⟨(procStart (b :: rest)).maps.spawn 1 b, m, [b, 0xC0001000]⟩ :=
    hnil.snoc ⟨m, hm, rfl⟩
  have h2 : ProcRun [.spawn 1 b, .switch b]
      ⟨(procStart (b :: rest)).maps.spawn 1 b, activatePgd m b, [b, 0xC0001000]⟩ :=
    h1.snoc ⟨List.mem_cons_self, rfl⟩
  refine ⟨b, _, rfl, h2, rfl, rfl, by rw [activatePgd], ?_, ?_⟩
  · have hpool : (activatePgd m b).pool = m.pool := by rw [activatePgd]
    change (activatePgd m b).pool.length = n
    rw [hpool, hrest]
    simpa using hn
  · have hbm : (activatePgd m b).pmmBitmap = m.pmmBitmap := by rw [activatePgd]
    exact hbm.trans hc.bitmap

/-- A page for the active process: the call comes back, takes at most one block, and the page
is there. -/
theorem alloc_one {pgd : ℕ} (vaddr : ℕ) (h : ProcRun evs s) (hd : pgd ∈ s.pgds)
    (hp : UserPage (vaddr / 4096)) (hrun : HasRun s.machine.pmmBitmap 1 false)
    (hpool : 1 ≤ s.machine.pool.length) :
    ∃ m, ProcRun (evs ++ [.alloc pgd vaddr 1 true true]) { s with machine := m } ∧
      s.machine.pool.length ≤ m.pool.length + 1 ∧ m.cr3 = s.machine.cr3 ∧
      m.pmmBitmap = (pmmAlloc s.machine.pmmBitmap 1).2 ∧
      ∃ b, userByte m.mem pgd (vaddr / 4096 * 4096) = some b := by
  have hok := h.ok
  have hinv := hok.own.spaces.dir pgd hd
  have hlt := hp.2
  obtain ⟨ret, m, hm⟩ : ∃ ret m, mapAddr s.machine pgd vaddr 1 true true = some (ret, m) :=
    mapAddr_returns hinv (fun i hi => by rw [Nat.lt_one_iff.1 hi]; exact hp) hpool
  obtain ⟨a, hclear, hmap⟩ := mapAddr_pages hok.own hok.frames hd (Nat.le_refl 1) (by omega) hrun hm
  have hrun' : ProcRun (evs ++ [.alloc pgd vaddr 1 true true]) { s with machine := m } :=
    h.snoc ⟨hd, Nat.le_refl 1, by omega, hrun, ret, m, hm, rfl⟩
  have hva : vaddr / 4096 * 4096 < VIRT_BASE := by
    simp only [VIRT_BASE, USER_END] at *
    omega
  refine ⟨m, hrun', ?_, hmap.cr3, hmap.bitmap, ?_⟩
  · obtain ⟨-, hfold⟩ := mapAddr_cases hm
    have hdown : pgRndDown vaddr / 4096 = vaddr / 4096 := by
      rw [pgRndDown_eq, Nat.mul_div_cancel _ (by norm_num)]
    have hpage := fixed_page (show pgRndDown vaddr / 4096 + 0 < USER_END by rw [hdown]; omega)
    rw [hdown, Nat.add_zero] at hpage
    rw [foldlM_range_one] at hfold
    unfold mapFixedOne at hfold
    dsimp only at hfold
    rw [if_neg (by simp)] at hfold
    have hinv' : PgdInv { s.machine with pmmBitmap := (pmmAlloc s.machine.pmmBitmap 1).2 } pgd :=
      hinv.congr rfl fun _ _ => rfl
    exact (mapPage_spec hinv' (by rw [hpage]; exact hp) hfold).2.2.2.1
  · refine ⟨_, (hrun'.ok.own.userByte hd hva).trans ((hmap.bytes pgd hd _ hva).trans
      (if_pos ⟨rfl, ?_, Or.inl rfl⟩))⟩
    rw [Nat.mul_div_cancel _ (by norm_num)]
    omega

theorem store_there {pgd va : ℕ} (h : ProcRun evs s) (hd : pgd ∈ s.pgds)
    (hcr3 : s.machine.cr3 = addrToPhys pgd) (hva : va < VIRT_BASE)
    (hb : userByte s.machine.mem pgd va ≠ none) (b' : Byte) :
    ∃ mem, ProcRun (evs ++ [.store pgd va b'])
      { s with machine := { s.machine with mem := mem } } := by
  unfold userByte at hb
  rw [← hcr3] at hb
  have hne : translate s.machine.mem s.machine.cr3 va ≠ none := fun hc => hb (by rw [hc]; rfl)
  obtain ⟨x, hx⟩ := Option.ne_none_iff_exists'.1 hne
  exact ⟨_, h.snoc ⟨hd, hcr3, hva, x, hx, rfl⟩⟩

theorem fork_there {i self pgd : ℕ} (self' : ℕ) (h : ProcRun evs s)
    (ht : s.maps.tasks[i]? = some ⟨self, pgd, some listInit⟩)
    (hpool : 770 ≤ s.machine.pool.length) (hframes : 786432 ≤ freeFrames s.machine.pmmBitmap) :
    ∃ child s', ProcRun (evs ++ [.fork i pgd self' child []]) s' ∧ s'.pgds = child :: s.pgds := by
  have hok := h.ok
  have ho : pgd ∈ s.pgds := hok.mem_pgds ht
  obtain ⟨t, -, hsame⟩ := procRun_same h
  have hcr3 : s.machine.cr3 < 4294967296 := by
    have := (hok.own.spaces.dir _ hsame.current).block.phys.2.2.2
    rw [hsame.cr3]
    omega
  have hfit : ForkFits s.machine pgd := by
    constructor
    · have := remaining_le (N := 768) (n := 0) fun i => pdeAt s.machine.mem (addrToPhys pgd) i ≠ 0
      omega
    · have := remaining_le (N := USER_END) (n := 0)
        fun p => entryAt s.machine.mem (addrToPhys pgd) p ≠ 0
      exact this.trans hframes
  have hcok := hok.own.cloneOk hok.frames ho hcr3 hfit
  obtain ⟨child, buffer, T, F, s1, hinv, hc⟩ := clonePgd_spec hcok
  have hnew : child ∉ s.pgds := (hinv.own hok.own hok.frames ho hcok rfl).2.2.1
  refine ⟨child, ⟨⟨s.maps.mem, s.maps.tasks ++ [⟨self', child, some listInit⟩],
    Function.update s.maps.bump s.maps.tasks.length (s.maps.bump i)⟩, _, child :: s.pgds⟩,
    h.snoc ⟨⟨_, ht, rfl⟩, hfit, hc, ⟨by simp, List.nodup_nil, fun hm => hnew ?_, _,
      (s.maps.mem, ⟨self', child, some listInit⟩), ht, rfl, rfl⟩, rfl⟩, rfl⟩
  exact hok.pgds child hm

/-- 4 GiB less the first 4 MiB, and a page. -/
theorem enough_frames (hbm : s.machine.pmmBitmap = (procMachine pool).pmmBitmap) :
    HasRun s.machine.pmmBitmap 1 false ∧
    786432 ≤ freeFrames (pmmAlloc s.machine.pmmBitmap 1).2 := by
  obtain ⟨hsize, hbit⟩ := procMachine_bits pool
  rw [← hbm] at hsize hbit
  generalize s.machine.pmmBitmap = bm at hsize hbit
  have hrun : HasRun bm 1 false := by
    refine ⟨1024, by rw [hsize]; norm_num, fun j h1 _ => ?_⟩
    rw [hbit, decide_eq_false_iff_not]
    omega
  obtain ⟨a, -, -, hsize', -, hbit'⟩ :=
    pmmAlloc_spec bm (Nat.le_refl 1) (by rw [hsize]; norm_num) hrun
  refine ⟨hrun, ?_⟩
  have hsub : (Finset.Ico 1024 1048575).erase a ⊆ (Finset.range (pmmAlloc bm 1).2.size).filter
      fun f => (pmmAlloc bm 1).2.bit f = false := by
    intro f hf
    obtain ⟨hfa, hf⟩ := Finset.mem_erase.1 hf
    obtain ⟨h1, h2⟩ := Finset.mem_Ico.1 hf
    rw [Finset.mem_filter, Finset.mem_range, hsize', hsize, hbit', if_neg (by omega), hbit,
      decide_eq_false_iff_not]
    omega
  have hcard := Finset.pred_card_le_card_erase (s := Finset.Ico 1024 1048575) (a := a)
  rw [Nat.card_Ico] at hcard
  exact (le_trans (by norm_num) hcard).trans (Finset.card_le_card hsub)

end Run

/-- A process has a page, stores a byte there and forks, and the child reads it. -/
def forkedEvents (pgd child : ℕ) (b : Byte) : List ProcEvent :=
  [.spawn 1 pgd, .switch pgd, .alloc pgd 0x400000 1 true true] ++ .store pgd 0x400000 7 :: [] ++
    .fork 0 pgd 2 child [] :: [.switch child] ++ [.load child 0x400000 b]

theorem forked_run : ∃ pgd child b s, ProcRun (forkedEvents pgd child b) s := by
  obtain ⟨pool, hlen, hlow⟩ := lowHeap_exists (n := 800) (by norm_num)
  obtain ⟨pgd, s₁, -, h₁, hpgds, hmaps, hcr3, hpool, hbm⟩ := first_spawn (n := 799) hlow hlen
  have hd : pgd ∈ s₁.pgds := by
    rw [hpgds]
    exact List.mem_cons_self
  obtain ⟨hrun, hfree⟩ := enough_frames hbm
  obtain ⟨m, h₂, hpool₂, hcr3₂, hbm₂, b₂, hb₂⟩ := alloc_one 0x400000 h₁ hd
    ⟨by decide, by decide⟩ hrun (by omega)
  obtain ⟨mem, h₃⟩ := store_there h₂ hd (hcr3₂.trans hcr3) (show 0x400000 < VIRT_BASE by decide)
    (fun hn => by simp [hb₂] at hn) 7
  have ht : s₁.maps.tasks[0]? = some ⟨1, pgd, some listInit⟩ := by
    rw [hmaps]
    rfl
  obtain ⟨child, s₄, h₄, hpgds₄⟩ := fork_there 2 h₃ ht (by dsimp only; omega)
    (by dsimp only; rw [hbm₂]; exact hfree)
  have hc : child ∈ s₄.pgds := by
    rw [hpgds₄]
    exact List.mem_cons_self
  have h₅ := h₄.snoc (show ProcStep s₄ (.switch child) _ from ⟨hc, rfl⟩)
  obtain ⟨t, ht, hsame⟩ := procRun_same h₅
  obtain ⟨t₁, ht₁, -, rfl⟩ := Run.last ht
  obtain ⟨t₀, ht₀, -, -, rfl⟩ := Run.last ht₁
  have hstored := (UserRun.stored (List.forall_mem_nil _) ht₀).2.2
  have hbyte := (hsame.bytes child hc 0x400000 (by decide)).symm
  change _ = Function.update t₀.mem child (t₀.mem pgd) child 0x400000 at hbyte
  rw [Function.update_self, hstored] at hbyte
  unfold userByte at hbyte
  obtain ⟨x, hx, -⟩ := Option.map_eq_some_iff.1 hbyte
  have h₆ := h₅.snoc (show ProcStep _ (.load child 0x400000 _) _ from
    ⟨hc, hsame.cr3, by decide, x, by rw [hsame.cr3]; exact hx, rfl, rfl⟩)
  exact ⟨pgd, child, _, _, h₆⟩

/-- Over any run, the bytes below the kernel that each directory shows are those of a memory of
its own: of the run of the abstract system with the same events. -/
theorem memories_private {evs : List ProcEvent} {s : ProcState} (h : ProcRun evs s) :
    ∃ t, UserRun evs t ∧ t.dirs = s.pgds ∧ s.machine.cr3 = addrToPhys t.current ∧
      ∀ d ∈ s.pgds, ∀ va < VIRT_BASE, userByte s.machine.mem d va = t.mem d va := by
  obtain ⟨t, ht, hsame⟩ := procRun_same h
  exact ⟨t, ht, hsame.dirs, hsame.cr3, fun d hd va hva => (hsame.bytes d hd va hva).symm⟩

/-- A child has read what its parent stored. -/
theorem memories_private_forked : ∃ pgd child b s t, ProcRun (forkedEvents pgd child b) s ∧
    UserRun (forkedEvents pgd child b) t ∧ t.dirs = s.pgds := by
  obtain ⟨pgd, child, b, s, h⟩ := forked_run
  obtain ⟨t, ht, hdirs, -⟩ := memories_private h
  exact ⟨pgd, child, b, s, t, h, ht, hdirs⟩

/-- A byte that is stored is read back, in the address space it was stored in and in one
that was forked from it since, whatever the other processes do meanwhile. -/
theorem stored_byte_read {evs mid : List ProcEvent} {d va : ℕ} {b : Byte}
    (hmid : ∀ e ∈ mid, ¬ e.Changes d va) :
    (∀ s b', ProcRun (evs ++ .store d va b :: mid ++ [.load d va b']) s → b' = b) ∧
    ∀ s i self child blks later b', (∀ e ∈ later, ¬ e.Changes child va) →
      ProcRun (evs ++ .store d va b :: mid ++ .fork i d self child blks :: later ++
        [.load child va b']) s → b' = b := by
  constructor
  · intro s b' h
    obtain ⟨t, ht, -⟩ := procRun_same h
    obtain ⟨t₀, h₀, -, hload, -⟩ := Run.last ht
    exact Option.some.inj (hload.symm.trans (UserRun.stored hmid h₀).2.2)
  · intro s i self child blks later b' hlater h
    obtain ⟨t, ht, -⟩ := procRun_same h
    obtain ⟨t₂, h₂, -, hload, -⟩ := Run.last ht
    rw [List.append_cons] at h₂
    obtain ⟨t₁, h₁, hl⟩ := Run.split h₂
    obtain ⟨t₀, h₀, -, -, rfl⟩ := Run.last h₁
    obtain ⟨-, -, hb⟩ := UserRun.stored hmid h₀
    have hkept : Holds child va b t₂ := by
      refine Run.keeps (Holds child va b) ?_ (fun _ _ _ he ht hs => holds_step he ht hs) hlater hl
      rintro t' rfl
      refine ⟨UserRun.current h₁, List.mem_cons_self, ?_⟩
      change Function.update t₀.mem child _ child va = some b
      rw [Function.update_self]
      exact hb
    exact Option.some.inj (hload.symm.trans hkept.2.2)

/-- What the child reads is what its parent stored before the fork. -/
theorem stored_byte_read_forked : ∃ pgd child s, ProcRun (forkedEvents pgd child 7) s := by
  obtain ⟨pgd, child, b, s, h⟩ := forked_run
  obtain rfl := (stored_byte_read (List.forall_mem_nil _)).2 s 0 2 child [] [.switch child] b
    (by simp [ProcEvent.Changes]) h
  exact ⟨pgd, child, s, h⟩

end DepthOS
