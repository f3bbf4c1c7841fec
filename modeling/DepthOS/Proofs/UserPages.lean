import DepthOS.Proofs.AnonFault
import DepthOS.Proofs.UserFrames

/-! What `map_addr` and a fault in an anonymous mapping do to the memory of a directory: pages
that hold what their frames held, and pages of zeros. -/

namespace DepthOS

open Lib

section Rounds

variable {s s' s'' : Machine} {pgds : List ℕ} {d vaddr a n i : ℕ} {user overwrite : Bool}

theorem PagesMapped.round (h : PagesMapped s pgds d (vaddr / 4096) a n overwrite i s')
    (hf : FramesTaken s pgds a n) (hd : d ∈ pgds) (hi : i < n) (hp : vaddr / 4096 + i < USER_END)
    (hr : mapFixedOne d (pgRndDown vaddr) (a * 4096) user overwrite s' i = some s'') :
    PagesMapped s pgds d (vaddr / 4096) a n overwrite (i + 1) s'' := by
  have hva := fixed_page hp
  have hle := hf.le
  have hphys : u32 (a * 4096 + u32 (i * PAGE_SIZE)) = (a + i) * 4096 := by
    simp only [u32, PAGE_SIZE]
    omega
  have hinv := h.own.spaces.dir d hd
  obtain ⟨hlt, hidx⟩ := user_va_lt (show u32 (pgRndDown vaddr + u32 (i * PAGE_SIZE)) / 4096 <
    USER_END by rw [hva]; exact hp)
  have hent : pageEntry s' d (u32 (pgRndDown vaddr + u32 (i * PAGE_SIZE))) =
      entryAt s'.mem (addrToPhys d) (vaddr / 4096 + i) := by
    rw [pageEntry_eq hinv.block hlt (hinv.window _ (by omega)), hva]
  unfold pageEntry at hent
  unfold mapFixedOne at hr
  dsimp only at hr
  split_ifs at hr with hskip
  · obtain rfl := Option.some.inj hr
    rw [if_neg hskip.1] at hent
    exact h.skip hskip.2.2 (hent ▸ hskip.2.1)
  · refine h.step hf hd hi hp ?_ hva hphys hr
    rw [← hent]
    by_cases how : overwrite = true
    · exact Or.inl how
    · right
      by_contra h0
      split_ifs at h0 with hpage
      · exact h0 rfl
      · exact hskip ⟨hpage, h0, by simpa using how⟩

theorem FramesTaken.alloc (h : OwnFrames s pgds) (hf : FramesClear s pgds) (hn : 1 ≤ n)
    (hrun : HasRun s.pmmBitmap n false) :
    ∃ a, (pmmAlloc s.pmmBitmap n).1 = a * 4096 ∧
      OwnFrames { s with pmmBitmap := (pmmAlloc s.pmmBitmap n).2 } pgds ∧
      FramesClear { s with pmmBitmap := (pmmAlloc s.pmmBitmap n).2 } pgds ∧
      FramesTaken { s with pmmBitmap := (pmmAlloc s.pmmBitmap n).2 } pgds a n := by
  obtain ⟨a, hfit, haddr, hsize, -, hbit⟩ := pmmAlloc_spec s.pmmBitmap hn hf.size_le hrun
  have hle := hfit.run.1
  have hmax := hf.size_le
  have hfree : ∀ j < n, s.pmmBitmap.bit (a + j) = false := fun j hj =>
    hfit.run.2 (a + j) (by omega) (by omega)
  have hsame : ∀ d ∈ pgds, DirSame s { s with pmmBitmap := (pmmAlloc s.pmmBitmap n).2 } d :=
    fun d _ => ⟨fun _ _ => rfl, fun _ _ => rfl⟩
  refine ⟨a, haddr, h.congr hsame rfl fun f hf => ?_, ⟨?_, fun f hlt hb => ?_⟩, by omega,
    fun j hj => ?_, fun j hj => ?_, fun j hj => h.unmapped (hfree j hj)⟩
  · change (pmmAlloc s.pmmBitmap n).2.bit f = true
    rw [hbit, hf]
    split_ifs <;> rfl
  · change (pmmAlloc s.pmmBitmap n).2.size ≤ _
    rw [hsize]
    exact hmax
  · change f < (pmmAlloc s.pmmBitmap n).2.size at hlt
    change (pmmAlloc s.pmmBitmap n).2.bit f = false at hb
    rw [hsize] at hlt
    rw [hbit] at hb
    split_ifs at hb
    exact (hf.clear f hlt hb).congr hsame rfl
  · exact (hf.clear (a + j) (by omega) (hfree j hj)).congr hsame rfl
  · change (pmmAlloc s.pmmBitmap n).2.bit (a + j) = true
    rw [hbit, if_pos ⟨by omega, by omega⟩]

theorem mapAddr_pages {ret : ℕ} (h : OwnFrames s pgds) (hf : FramesClear s pgds) (hd : d ∈ pgds)
    (hn : 1 ≤ n) (hp : vaddr / 4096 + n ≤ USER_END) (hrun : HasRun s.pmmBitmap n false)
    (hm : mapAddr s d vaddr n user overwrite = some (ret, s')) :
    ∃ a, FramesClear s' pgds ∧
      PagesMapped { s with pmmBitmap := (pmmAlloc s.pmmBitmap n).2 } pgds d (vaddr / 4096) a n
        overwrite n s' := by
  obtain ⟨a, haddr, hown, hclear, htaken⟩ := FramesTaken.alloc h hf hn hrun
  obtain ⟨hret, hfold⟩ := mapAddr_cases hm
  have hdown : pgRndDown vaddr / 4096 = vaddr / 4096 := by
    rw [pgRndDown_eq, Nat.mul_div_cancel _ (by norm_num)]
  have hrounds : ∀ k ≤ n, ∀ s'', (List.range k).foldlM
      (mapFixedOne d (pgRndDown (pgRndDown vaddr)) ret user overwrite)
      { s with pmmBitmap := (pmmAlloc s.pmmBitmap n).2 } = some s'' →
      PagesMapped { s with pmmBitmap := (pmmAlloc s.pmmBitmap n).2 } pgds d
        (pgRndDown vaddr / 4096) a n overwrite k s'' := by
    intro k
    induction k with
    | zero =>
      intro _ s'' hs
      obtain rfl := Option.some.inj hs
      exact PagesMapped.init hown htaken
    | succ k ih =>
      intro hk s'' hs
      rw [foldlM_range_succ] at hs
      obtain ⟨s1, h1, h2⟩ := Option.bind_eq_some_iff.1 hs
      rw [hret, haddr] at h2
      exact (ih (by omega) s1 h1).round htaken hd (by omega) (by rw [hdown]; omega) h2
  have hdone := hrounds n (Nat.le_refl n) s' hfold
  rw [hdown] at hdone
  exact ⟨a, hclear.of_clear hdone.bitmap hdone.clear, hdone⟩

theorem faultMap_pages (h : OwnFrames s pgds) (hf : FramesClear s pgds) (hd : d ∈ pgds)
    (hn : 1 ≤ n) (hp : vaddr / 4096 + n ≤ USER_END) (hrun : HasRun s.pmmBitmap n false)
    (hm : (faultMap ⟨s, []⟩ d vaddr n user).2 = true) :
    ∃ a, FramesClear (faultMap ⟨s, []⟩ d vaddr n user).1.machine pgds ∧
      PagesMapped { s with pmmBitmap := (pmmAlloc s.pmmBitmap n).2 } pgds d (vaddr / 4096) a n
        true n (faultMap ⟨s, []⟩ d vaddr n user).1.machine := by
  obtain ⟨a, haddr, hown, hclear, htaken⟩ := FramesTaken.alloc h hf hn hrun
  have hdown : pgRndDown vaddr / 4096 = vaddr / 4096 := by
    rw [pgRndDown_eq, Nat.mul_div_cancel _ (by norm_num)]
  have hrule := runLoop_rule
    (f := mapRound d (pgRndDown (pgRndDown vaddr)) (pmmAlloc s.pmmBitmap n).1 user)
    (a := ⟨{ s with pmmBitmap := (pmmAlloc s.pmmBitmap n).2 }, []⟩) (n := n)
    (I := fun i st => PagesMapped { s with pmmBitmap := (pmmAlloc s.pmmBitmap n).2 } pgds d
      (pgRndDown vaddr / 4096) a n true i st.machine)
    (J := fun _ => True) (PagesMapped.init hown htaken) ?_ fun _ _ _ _ _ => trivial
  · have hdone : (runLoop (mapRound d (pgRndDown (pgRndDown vaddr)) (pmmAlloc s.pmmBitmap n).1 user)
        ⟨{ s with pmmBitmap := (pmmAlloc s.pmmBitmap n).2 }, []⟩ n).2 = true := hm
    rw [if_pos hdone, hdown] at hrule
    exact ⟨a, hclear.of_clear hrule.bitmap hrule.clear, hrule⟩
  · intro i hi st hst hdone
    unfold mapRound at hdone ⊢
    rw [haddr] at hdone ⊢
    cases hone : mapFixedOne d (pgRndDown (pgRndDown vaddr)) (a * 4096) user true st.machine i with
    | none =>
      rw [hone] at hdone
      exact absurd hdone Bool.false_ne_true
    | some m =>
      dsimp only
      exact hst.round htaken hd hi (by rw [hdown]; omega) hone

end Rounds

section Zero

variable {s : Machine} {pgds : List ℕ} {d page n tries : ℕ}

/-- The first `i` pages from `page` on hold zeros. -/
structure PagesZeroed (s : Machine) (pgds : List ℕ) (d page i : ℕ) (s' : Machine) : Prop where
  own : OwnFrames s' pgds
  same : ∀ e ∈ pgds, DirSame s s' e
  pool : s'.pool = s.pool
  bitmap : s'.pmmBitmap = s.pmmBitmap
  cr3 : s'.cr3 = s.cr3
  kernelPgd : s'.kernelPgd = s.kernelPgd
  bytes : ∀ e ∈ pgds, ∀ va < VIRT_BASE, byteAt s'.mem (addrToPhys e) va =
    if e = d ∧ page ≤ va / 4096 ∧ va / 4096 < page + i then some 0
    else byteAt s.mem (addrToPhys e) va

theorem PagesZeroed.init (h : OwnFrames s pgds) : PagesZeroed s pgds d page 0 s := by
  refine ⟨h, fun e _ => DirSame.refl s e, rfl, rfl, rfl, rfl, fun e _ va _ => ?_⟩
  rw [if_neg fun hc => ?_]
  omega

theorem PagesZeroed.step {i : ℕ} {st : FaultState} {nested : FaultState → ℕ → FaultOut}
    (h : PagesZeroed s pgds d page i st.machine) (hd : d ∈ pgds) (hcr3 : s.cr3 = addrToPhys d)
    (hp : page + i < USER_END) (h0 : entryAt s.mem (addrToPhys d) (page + i) ≠ 0)
    (hw : (writePage nested ((page + i) * 4096) (fun _ => 0) PAGE_SIZE tries st).2 = true) :
    PagesZeroed s pgds d page (i + 1)
      (writePage nested ((page + i) * 4096) (fun _ => 0) PAGE_SIZE tries st).1.machine := by
  have hva : (page + i) * 4096 < VIRT_BASE := by
    simp only [VIRT_BASE, USER_END] at *
    omega
  have hdiv : (page + i) * 4096 / 4096 = page + i := Nat.mul_div_cancel _ (by norm_num)
  have hmod : (page + i) * 4096 % 4096 = 0 := Nat.mul_mod_left _ _
  have hent : entryAt st.machine.mem (addrToPhys d) (page + i) ≠ 0 := by
    rw [(h.same d hd).entry _ (hp.trans (by norm_num))]
    exact h0
  cases tries with
  | zero => exact absurd hw Bool.false_ne_true
  | succ tries =>
    unfold writePage
    rw [h.cr3, hcr3, h.own.translate hd hva, hdiv, hmod, if_neg hent]
    dsimp only
    obtain ⟨hsame, hown, hbytes⟩ := h.own.write 0 PAGE_SIZE (fun _ => 0) hd hp hent
      (by norm_num) rfl
    refine ⟨hown, fun e he => (h.same e he).trans (hsame e he), h.pool, h.bitmap, h.cr3,
      h.kernelPgd, fun e he va' hva' => ?_⟩
    rw [hbytes e he va' hva', h.bytes e he va' hva']
    have hlt : va' % 4096 < 0 + PAGE_SIZE := by
      rw [Nat.zero_add]
      exact Nat.mod_lt _ (by norm_num)
    by_cases hhere : e = d ∧ va' / 4096 = page + i
    · rw [if_pos ⟨hhere.1, hhere.2, Nat.zero_le _, hlt⟩, if_pos ⟨hhere.1, by omega, by omega⟩]
    · rw [if_neg fun hc => hhere ⟨hc.1, hc.2.1⟩]
      refine if_congr (and_congr_right fun hed => ?_) rfl rfl
      have hne : va' / 4096 ≠ page + i := fun hc => hhere ⟨hed, hc⟩
      omega

theorem zeroArea_pages {nested : FaultState → ℕ → FaultOut} {a : VmArea} {st : FaultState}
    (h : OwnFrames st.machine pgds) (hd : d ∈ pgds) (hcr3 : st.machine.cr3 = addrToPhys d)
    (hal : a.addr % 4096 = 0) (hend : a.addr / 4096 + a.nPages ≤ USER_END)
    (hmap : ∀ j < a.nPages, entryAt st.machine.mem (addrToPhys d) (a.addr / 4096 + j) ≠ 0)
    (hz : (zeroArea nested tries a st).2 = true) :
    PagesZeroed st.machine pgds d (a.addr / 4096) a.nPages
      (zeroArea nested tries a st).1.machine := by
  have hcount : u32 (PAGE_SIZE * a.nPages) / PAGE_SIZE = a.nPages := by
    simp only [u32, PAGE_SIZE, USER_END] at *
    omega
  have hva : ∀ i < a.nPages, u32 (a.addr + i * PAGE_SIZE) = (a.addr / 4096 + i) * 4096 := by
    intro i hi
    simp only [u32, PAGE_SIZE, USER_END] at *
    omega
  unfold zeroArea at hz ⊢
  rw [hcount] at hz ⊢
  have hrule := runLoop_rule (a := st) (n := a.nPages)
    (f := fun st i => writePage nested (u32 (a.addr + i * PAGE_SIZE)) (fun _ => 0) PAGE_SIZE tries
      st)
    (I := fun i st' => PagesZeroed st.machine pgds d (a.addr / 4096) i st'.machine)
    (J := fun _ => True) (PagesZeroed.init h) (fun i hi st' hst hdone => ?_)
    fun _ _ _ _ _ => trivial
  · rw [if_pos hz] at hrule
    exact hrule
  · rw [hva i hi] at hdone ⊢
    exact hst.step hd hcr3 (by omega) (hmap i hi) hdone

end Zero

section Fault

variable {s : Machine} {pgds : List ℕ} {env : FaultEnv} {a : VmArea} {cr2 : ℕ}

/-- The memory after a fault in an anonymous mapping that has been ignored: its pages hold
zeros, and no other byte has changed. -/
structure AnonDone (s : Machine) (pgds : List ℕ) (d : ℕ) (a : VmArea) (s' : Machine) : Prop where
  own : OwnFrames s' pgds
  frames : FramesClear s' pgds
  cr3 : s'.cr3 = s.cr3
  kernelPgd : s'.kernelPgd = s.kernelPgd
  bytes : ∀ e ∈ pgds, ∀ va < VIRT_BASE, byteAt s'.mem (addrToPhys e) va =
    if e = d ∧ InPages a.addr a.nPages va then some 0 else byteAt s.mem (addrToPhys e) va

theorem anonArea_pages {nested : FaultState → ℕ → FaultOut} {tries : ℕ} {st : FaultState}
    (h : OwnFrames s pgds) (hf : FramesClear s pgds) (hd : env.task.pgd ∈ pgds)
    (hcr3 : s.cr3 = addrToPhys env.task.pgd) (ha : AreaOk a) (hanon : a.flags &&& MAP_ANON ≠ 0)
    (hfit : Fits a) (hrun : HasRun s.pmmBitmap a.nPages false)
    (hr : faultArea env nested tries ⟨s, []⟩ cr2 a = ⟨st, some .ignore⟩) :
    AnonDone s pgds env.task.pgd a st.machine := by
  obtain ⟨hphys, hops, hlim, -⟩ := ha.anon hanon
  have hend := ha.pages_end hfit
  unfold faultArea at hr
  dsimp only at hr
  rw [if_neg fun hc => hc.1 hlim, if_neg (not_not.2 hphys), if_neg (not_not.2 hops)] at hr
  generalize (!(env.task.pgd == s.kernelPgd)) = user at hr
  unfold finishFault at hr
  by_cases hm : (faultMap ⟨s, []⟩ env.task.pgd a.addr a.nPages user).2 = false
  · rw [if_pos hm] at hr
    simp at hr
  · rw [if_neg hm, if_pos hanon] at hr
    obtain ⟨f, hclear, hmap⟩ := faultMap_pages h hf hd hfit.1 hend hrun (by simpa using hm)
    generalize (faultMap ⟨s, []⟩ env.task.pgd a.addr a.nPages user).1 = st1 at hr hclear hmap
    have hz : (zeroArea nested tries a st1).2 = true := by
      by_contra hno
      dsimp only at hr
      rw [if_neg hno] at hr
      simp at hr
    have hst : st = (zeroArea nested tries a st1).1 := by
      dsimp only at hr
      exact (FaultOut.mk.inj hr).1.symm
    have hpage : ∀ j < a.nPages, (a.addr / 4096 + j) * 4096 < VIRT_BASE := by
      intro j hj
      simp only [VIRT_BASE, USER_END] at *
      omega
    have hdone := zeroArea_pages hmap.own hd (hmap.cr3.trans hcr3) ha.aligned hend
      (fun j hj => ?_) hz
    · rw [← hst] at hdone
      refine ⟨hdone.own, hclear.of_clear hdone.bitmap fun x hx => hx.congr hdone.same hdone.pool,
        hdone.cr3.trans hmap.cr3, hdone.kernelPgd.trans hmap.kernelPgd, fun e he va hva => ?_⟩
      rw [hdone.bytes e he va hva, hmap.bytes e he va hva]
      by_cases hhere : e = env.task.pgd ∧ InPages a.addr a.nPages va
      · exact (if_pos hhere).trans (if_pos hhere).symm
      · refine Eq.trans ?_ (if_neg hhere).symm
        exact (if_neg hhere).trans (if_neg fun hc => hhere ⟨hc.1, hc.2.1⟩)
    · have hbyte := hmap.bytes _ hd _ (hpage j hj)
      have hdiv : (a.addr / 4096 + j) * 4096 / 4096 = a.addr / 4096 + j :=
        Nat.mul_div_cancel _ (by norm_num)
      rw [if_pos ⟨rfl, by rw [hdiv]; omega, Or.inl rfl⟩] at hbyte
      intro h0
      rw [byteAt_none.2 (by rw [hdiv]; exact h0)] at hbyte
      simp at hbyte

theorem anonFault_pages (env : FaultEnv) {fuel : ℕ} {write : Bool} {st : FaultState}
    (h : OwnFrames s pgds) (hf : FramesClear s pgds) (hd : env.task.pgd ∈ pgds)
    (hcr3 : s.cr3 = addrToPhys env.task.pgd)
    (hfirst : FirstArea env.mem env.task cr2 a) (ha : AreaOk a) (hanon : a.flags &&& MAP_ANON ≠ 0)
    (hrun : HasRun s.pmmBitmap a.nPages false)
    (hr : vmaPagefaultHandler env fuel false write ⟨s, []⟩ cr2 = ⟨st, some .ignore⟩) :
    AnonDone s pgds env.task.pgd a st.machine := by
  have hfit := anon_fits h.spaces hf hd ha hfirst.covers hanon hrun
  cases fuel with
  | zero => simp [vmaPagefaultHandler] at hr
  | succ fuel =>
    obtain ⟨n, hn⟩ := handler_first write ⟨s, []⟩ hfirst
    rw [hn fuel] at hr
    split_ifs at hr
    · exact anonArea_pages h hf hd hcr3 ha hanon hfit hrun hr
    · simp at hr

end Fault

end DepthOS
