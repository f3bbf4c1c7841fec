import DepthOS.Proofs.Ext2Read
import DepthOS.Proofs.Ext2Supply
import DepthOS.Proofs.FaultPages
import DepthOS.Proofs.MapAreas

/-! Whether a page fault stays with the task that faulted. Device and anonymous
areas are mapped in the directory of the current task, but a page of a file is
mapped in the directory of the area, which after a fork is still that of the
parent. -/

namespace DepthOS

open Lib

/-- The area has a limit, and the address lies past it. -/
abbrev PastLimit (a : VmArea) (cr2 : ℕ) : Prop := a.limit ≠ 0 ∧ u32 (a.addr + a.limit) ≤ cr2

/-- The area has pages, and no more of them than its size makes room for. -/
def Fits (a : VmArea) : Prop := 0 < a.nPages ∧ a.nPages * PAGE_SIZE ≤ pgRndUp a.size

/-- The file has something to read at the place of the faulting page. -/
def PageRead (env : FaultEnv) (a : VmArea) (cr2 : ℕ) : Prop :=
  ∃ fs inode r, env.files a.file = some (fs, inode) ∧
    ext2Read fs inode env.stack PAGE_SIZE
      (pgRndDown (u32 (sub32 (pgRndDown cr2) a.addr + a.fileOff))) = some r ∧
    u32 (sub32 (pgRndDown cr2) a.addr + a.fileOff) < r.offset

/-- The volume of the file has block buffers. -/
def FileBuffered (env : FaultEnv) (a : VmArea) : Prop :=
  ∀ fs inode, env.files a.file = some (fs, inode) → fs.Buffered

/-- The faults that stay with their task. -/
def FaultOk (env : FaultEnv) (pgds : List ℕ) (s : Machine) (a : VmArea) (cr2 : ℕ) : Prop :=
  PastLimit a cr2 ∨
  if a.physAddr ≠ 0 then Fits a
  else if a.ops ≠ 0 then
    PageRead env a cr2 → CanMap s a.pgd cr2 → a.pgd = env.task.pgd ∧ AllocClear s pgds 1
  else Fits a ∧ (a.flags &&& MAP_ANON ≠ 0 → AllocClear s pgds a.nPages)

section Area

variable {s : Machine} {pgds : List ℕ} {env : FaultEnv} {a : VmArea} {cr2 tries : ℕ}

/-- The area lies above the first 4 MiB, the heap has a block for every page, and there
is fuel to write to a page. -/
structure Enough (s : Machine) (a : VmArea) (tries : ℕ) : Prop where
  low : USER_FIRST ≤ a.addr / 4096
  heap : a.nPages ≤ s.pool.length
  block : s.pool ≠ []
  tries : 0 < tries

/-- A fault handled as it should be: nothing but the directory of the task has changed,
an ignored fault has left an entry, and the call has come back if it could. -/
structure Handled (s : Machine) (pgds : List ℕ) (d cr2 : ℕ) (ready : Prop) (out : FaultOut) :
    Prop where
  kept : Kept s pgds d out.state
  mapped : out.ret = some .ignore →
    (entryAt out.state.machine.mem (addrToPhys d) (cr2 / 4096)).testBit 0 = true
  returned : ready → out.ret ≠ none

theorem Handled.ready {d : ℕ} {ready ready' : Prop} {out : FaultOut}
    (h : Handled s pgds d cr2 ready out) (himp : ready' → ready) : Handled s pgds d cr2 ready' out :=
  ⟨h.kept, h.mapped, fun hr => h.returned (himp hr)⟩

theorem AreaOk.page_of (ha : AreaOk a) (hcov : CoversAddr a cr2) (hn : a.nPages ≠ 0)
    (hlim : ¬ PastLimit a cr2) :
    ∃ j < a.nPages, cr2 / 4096 = a.addr / 4096 + j := by
  obtain ⟨hlow, hhigh⟩ := hcov
  have hal := ha.aligned
  have hsize : u32 (a.addr + a.size) ≤ a.addr + a.size := Nat.mod_le _ _
  have hlimit : u32 (a.addr + a.limit) ≤ a.addr + a.limit := Nat.mod_le _ _
  have hj := ha.cover hn (cr2 - a.addr) (by omega) (by omega)
  simp only [PAGE_SIZE] at hj hal
  exact ⟨(cr2 - a.addr) / 4096, hj, by omega⟩

theorem CoversAddr.user (ha : AreaOk a) (hcov : CoversAddr a cr2) : cr2 / 4096 < USER_END := by
  have hsize : u32 (a.addr + a.size) ≤ a.addr + a.size := Nat.mod_le _ _
  have hup := (pgRndUp_bounds ha.size_le).1
  have hu := ha.user
  have hlt := hcov.2
  simp only [VIRT_BASE, USER_END] at *
  omega

theorem AreaOk.pages_end (ha : AreaOk a) (hfit : Fits a) :
    a.addr / 4096 + a.nPages ≤ USER_END := by
  have hal := ha.aligned
  have hu := ha.user
  have hle := hfit.2
  simp only [PAGE_SIZE, VIRT_BASE, USER_END] at *
  omega

theorem Enough.pages (hen : Enough s a tries) (ha : AreaOk a) (hfit : Fits a) (i : ℕ)
    (hi : i < a.nPages) : UserPage (a.addr / 4096 + i) :=
  ⟨hen.low.trans (Nat.le_add_right _ _), by have := ha.pages_end hfit; omega⟩

theorem Enough.canMap (hen : Enough s a tries) (hcov : CoversAddr a cr2) (d : ℕ) :
    CanMap s d cr2 := by
  refine Or.inr ⟨?_, hen.block⟩
  have hlow := hen.low
  have hle := hcov.1
  rw [pdeIndex_eq]
  simp only [USER_FIRST] at hlow
  omega

theorem mapped_testBit {st : FaultState} {d page pstart n j : ℕ} {user : Bool}
    (hmap : MappedPages st d page pstart n user) (hj : j < n) (hc : cr2 / 4096 = page + j) :
    (entryAt st.machine.mem (addrToPhys d) (cr2 / 4096)).testBit 0 = true := by
  rw [hc, hmap j hj]
  exact (makeEntry_flags _ _ _).1

theorem finish_plain {nested : FaultState → ℕ → FaultOut} {d : ℕ} {m : FaultState × Bool}
    {ready : Prop} (hflag : ¬ a.flags &&& MAP_ANON ≠ 0) (hk : Kept s pgds d m.1)
    (hm : m.2 = true → (entryAt m.1.machine.mem (addrToPhys d) (cr2 / 4096)).testBit 0 = true)
    (hr : ready → m.2 = true) : Handled s pgds d cr2 ready (finishFault nested tries a m) := by
  unfold finishFault
  by_cases h2 : m.2 = false
  · rw [if_pos h2]
    exact ⟨hk, by simp, fun hready => by simp [hr hready] at h2⟩
  · rw [if_neg h2, if_neg hflag]
    exact ⟨hk, fun _ => hm (by simpa using h2), by simp⟩

variable (nested : FaultState → ℕ → FaultOut) (tries)

theorem device_handled (user : Bool) (h : SpacesInv s pgds) (hd : env.task.pgd ∈ pgds)
    (ha : AreaOk a) (hcov : CoversAddr a cr2) (hfit : Fits a) (hphys : a.physAddr ≠ 0)
    (hlim : ¬ PastLimit a cr2) :
    Handled s pgds env.task.pgd cr2 (Enough s a tries) (finishFault nested tries a
      (faultMapFixed ⟨s, []⟩ env.task.pgd a.addr a.physAddr a.nPages user)) := by
  have hinit := Kept.init h env.task.pgd
  obtain ⟨hk, hmap⟩ := faultMapFixed_spec a.physAddr user hinit hd (ha.pages_end hfit)
  obtain ⟨j, hj, hpage⟩ := ha.page_of hcov hfit.1.ne' hlim
  refine finish_plain (fun hf => hphys (ha.anon hf).1) hk
    (fun h2 => mapped_testBit (hmap h2) hj hpage) fun hen => ?_
  exact faultMapFixed_returns a.physAddr user hinit hd (hen.pages ha hfit) hen.heap

theorem anon_handled (user : Bool) (h : SpacesInv s pgds) (hd : env.task.pgd ∈ pgds)
    (hcr3 : s.cr3 = addrToPhys env.task.pgd) (ha : AreaOk a) (hcov : CoversAddr a cr2)
    (hfit : Fits a) (hclear : a.flags &&& MAP_ANON ≠ 0 → AllocClear s pgds a.nPages)
    (hlim : ¬ PastLimit a cr2) :
    Handled s pgds env.task.pgd cr2 (Enough s a tries) (finishFault nested tries a
      (faultMap ⟨s, []⟩ env.task.pgd a.addr a.nPages user)) := by
  have hinit := Kept.init h env.task.pgd
  have hend := ha.pages_end hfit
  obtain ⟨hk, hmap⟩ := faultMap_spec user hinit hd hend
  obtain ⟨j, hj, hpage⟩ := ha.page_of hcov hfit.1.ne' hlim
  have hret : Enough s a tries →
      (faultMap ⟨s, []⟩ env.task.pgd a.addr a.nPages user).2 = true := fun hen => by
    refine faultMapFixed_returns _ user (hinit.bitmap _) hd ?_ hen.heap
    rw [pgRndDown_eq, Nat.mul_div_cancel _ (by norm_num)]
    exact hen.pages ha hfit
  by_cases hflag : a.flags &&& MAP_ANON ≠ 0
  · unfold finishFault
    by_cases h2 : (faultMap ⟨s, []⟩ env.task.pgd a.addr a.nPages user).2 = false
    · rw [if_pos h2]
      exact ⟨hk, by simp, fun hen => by simp [hret hen] at h2⟩
    · rw [if_neg h2, if_pos hflag]
      obtain ⟨hk', hmap', hz⟩ := zeroArea_spec nested tries hd hcr3 ha.aligned hend
        (hclear hflag) hk (hmap (by simpa using h2))
      refine ⟨hk', fun hret => mapped_testBit (hmap' ?_) hj hpage, fun hen => ?_⟩
      · by_contra hno
        dsimp only at hret
        rw [if_neg hno] at hret
        simp at hret
      · simp [hz hen.tries]
  · exact finish_plain hflag hk (fun h2 => mapped_testBit (hmap h2) hj hpage) hret

theorem load_handled {user : Bool} {src : ℕ → Byte} {k : ℕ}
    (h : SpacesInv s pgds) (hd : env.task.pgd ∈ pgds) (hcr3 : s.cr3 = addrToPhys env.task.pgd)
    (huser : cr2 / 4096 < USER_END) (hclear : AllocClear s pgds 1) (hk : k ≤ 4096)
    (hm : (faultMap ⟨s, []⟩ env.task.pgd (cr2 / 4096 * 4096) 1 user).2 = true) :
    Handled s pgds env.task.pgd cr2 (Enough s a tries)
      ⟨(writePage nested (cr2 / 4096 * 4096) src k tries
        (faultMap ⟨s, []⟩ env.task.pgd (cr2 / 4096 * 4096) 1 user).1).1,
      if (writePage nested (cr2 / 4096 * 4096) src k tries
        (faultMap ⟨s, []⟩ env.task.pgd (cr2 / 4096 * 4096) 1 user).1).2 then some .ignore
      else none⟩ := by
  have hdiv : cr2 / 4096 * 4096 / 4096 = cr2 / 4096 := Nat.mul_div_cancel _ (by norm_num)
  obtain ⟨hkept, hmap⟩ := faultMap_spec user (Kept.init h env.task.pgd) hd
    (show cr2 / 4096 * 4096 / 4096 + 1 ≤ USER_END by rw [hdiv]; omega)
  have hent := hmap hm 0 (by norm_num)
  rw [hdiv, Nat.add_zero] at hent
  have hfr := hclear 0 (by norm_num)
  rw [← fixedPte_alloc _ _ _ user] at hfr
  obtain ⟨hkept', hdir, hret⟩ := writePage_spec nested tries src hkept hd hcr3 huser hent hfr hk
  refine ⟨hkept', fun _ => ?_, fun hen => by simp [hret hen.tries]⟩
  rw [hdir.entry _ (by simp only [USER_END] at huser; omega), hent]
  exact (makeEntry_flags _ _ _).1

theorem file_handled (h : SpacesInv s pgds) (hd : env.task.pgd ∈ pgds)
    (hcr3 : s.cr3 = addrToPhys env.task.pgd) (ha : AreaOk a) (hcov : CoversAddr a cr2)
    (hpgd : a.pgd ∈ pgds)
    (hok : PageRead env a cr2 → CanMap s a.pgd cr2 → a.pgd = env.task.pgd ∧ AllocClear s pgds 1) :
    Handled s pgds env.task.pgd cr2 (Enough s a tries ∧ FileBuffered env a)
      (genericFileLoadMappedPage env nested tries ⟨s, []⟩ a (pgRndDown cr2)
        (u32 (sub32 (pgRndDown cr2) a.addr + a.fileOff))) := by
  have hinit := Kept.init h env.task.pgd
  have huser := hcov.user ha
  have hdown := pgRndDown_eq cr2
  unfold genericFileLoadMappedPage
  cases hf : env.files a.file with
  | none => exact ⟨hinit, by simp, by simp⟩
  | some q =>
    obtain ⟨fs, inode⟩ := q
    dsimp only
    cases hread : ext2Read fs inode env.stack PAGE_SIZE
        (pgRndDown (u32 (sub32 (pgRndDown cr2) a.addr + a.fileOff))) with
    | none =>
      refine ⟨hinit, by simp, fun hen => ?_⟩
      rw [ext2Read_some (hen.2 fs inode hf)] at hread
      cases hread
    | some r =>
      dsimp only
      by_cases hend : r.offset ≤ u32 (sub32 (pgRndDown cr2) a.addr + a.fileOff)
      · rw [if_pos hend]
        exact ⟨hinit, by simp, by simp⟩
      · have hpage : PageRead env a cr2 := ⟨fs, inode, r, hf, hread, not_le.1 hend⟩
        have hlen : r.r ≤ PAGE_SIZE := ext2Read_le env.stack hread (by norm_num)
        rw [if_neg hend]
        by_cases hc : CanMap s a.pgd cr2
        · obtain ⟨hsame, hclear⟩ := hok hpage hc
          have hst := (faultMap_stores h hpgd (!(a.pgd == s.kernelPgd)) (page_user huser)
            (canMap_page.2 hc)).1
          rw [hdown, if_pos hst]
          rw [hsame] at hst ⊢
          exact (load_handled tries nested h hd hcr3 huser hclear hlen hst).ready And.left
        · rw [hdown, faultMap_stuck h hpgd _ (page_user huser) fun hc' => hc (canMap_page.1 hc'),
            if_neg (by simp)]
          exact ⟨hinit.bitmap _, by simp, fun hen => absurd (hen.1.canMap hcov a.pgd) hc⟩

theorem faultArea_handled (h : SpacesInv s pgds) (hd : env.task.pgd ∈ pgds)
    (hcr3 : s.cr3 = addrToPhys env.task.pgd) (ha : AreaOk a) (hcov : CoversAddr a cr2)
    (hpgd : a.pgd ∈ pgds) (hok : FaultOk env pgds s a cr2) :
    Handled s pgds env.task.pgd cr2 (Enough s a tries ∧ FileBuffered env a)
      (faultArea env nested tries ⟨s, []⟩ cr2 a) := by
  unfold faultArea
  unfold FaultOk at hok
  dsimp only
  by_cases hlim : PastLimit a cr2
  · rw [if_pos hlim]
    exact ⟨Kept.init h _, by simp, by simp⟩
  · rw [if_neg hlim]
    have hok := hok.resolve_left hlim
    by_cases hphys : a.physAddr ≠ 0
    · rw [if_pos hphys] at hok ⊢
      exact (device_handled tries nested _ h hd ha hcov hok hphys hlim).ready And.left
    · rw [if_neg hphys] at hok ⊢
      by_cases hops : a.ops ≠ 0
      · rw [if_pos hops] at hok ⊢
        have hfile := file_handled tries nested h hd hcr3 ha hcov hpgd hok
        have hflag : ¬ a.flags &&& MAP_ANON ≠ 0 := fun hf => hops (ha.anon hf).2.1
        split
        · rename_i st hout
          rw [hout] at hfile
          exact finish_plain hflag hfile.kept (fun _ => hfile.mapped rfl) fun _ => rfl
        · exact hfile
      · rw [if_neg hops] at hok ⊢
        exact (anon_handled tries nested _ h hd hcr3 ha hcov hok.1 hok.2 hlim).ready And.left

end Area

section Walk

variable {env : FaultEnv} {cr2 : ℕ}

theorem faultWalk_first (nested : FaultState → ℕ → FaultOut) (tries : ℕ) (write : Bool)
    (st : FaultState) {l r : List ℕ} {x item fuel : ℕ}
    (hc : Chain (fun x => (env.mem.entries x).next) item (l ++ x :: r))
    (hx : CoversAddr (areaAt env.mem x) cr2) (hl : ∀ y ∈ l, ¬ CoversAddr (areaAt env.mem y) cr2) :
    faultWalk env nested tries false write st cr2 fuel item =
      if l.length < fuel then faultArea env nested tries st cr2 (areaAt env.mem x)
      else ⟨st, none⟩ := by
  induction l generalizing item fuel with
  | nil =>
    obtain ⟨rfl, h0, -⟩ := hc
    cases fuel with
    | zero => rfl
    | succ fuel =>
      unfold faultWalk
      rw [if_neg h0, if_pos hx, if_pos rfl, if_pos (by simp)]
  | cons y l ih =>
    obtain ⟨rfl, h0, hc'⟩ := hc
    cases fuel with
    | zero => rfl
    | succ fuel =>
      unfold faultWalk
      rw [if_neg h0, if_neg (hl item (by simp)), ih hc' fun z hz => hl z (by simp [hz])]
      refine if_congr ?_ rfl rfl
      rw [List.length_cons, Nat.succ_lt_succ_iff]

theorem handler_first (write : Bool) (st : FaultState) {a : VmArea}
    (ha : FirstArea env.mem env.task cr2 a) :
    ∃ n, ∀ fuel, vmaPagefaultHandler env (fuel + 1) false write st cr2 =
      if n < fuel then
        faultArea env (fun st va => vmaPagefaultHandler env fuel false true st va) fuel st cr2 a
      else ⟨st, none⟩ := by
  obtain ⟨l, x, r, hc, rfl, hx, hl⟩ := ha
  refine ⟨l.length, fun fuel => ?_⟩
  exact faultWalk_first _ fuel write st hc hx hl

end Walk

/-- Entries that have been stored stay on record. -/
def KeepsLog (st st' : FaultState) : Prop := ∀ x ∈ st.log, x ∈ st'.log

section KeepsLog

variable {st : FaultState}

theorem mapRound_keeps (pgd vaddr pstart : ℕ) (user : Bool) (st : FaultState) (i : ℕ) :
    KeepsLog st (mapRound pgd vaddr pstart user st i).1 := by
  intro x hx
  unfold mapRound
  split
  · exact hx
  · exact List.mem_append_left _ hx

theorem keepsLog_loop {f : FaultState → ℕ → FaultState × Bool}
    (hf : ∀ st i, KeepsLog st (f st i).1) (st : FaultState) (n : ℕ) :
    KeepsLog st (runLoop f st n).1 := by
  apply runLoop_keeps (P := KeepsLog st) (fun b i hb x hx => hf b i x (hb x hx)) (Nat.zero_le n)
  exact fun _ hx => hx

theorem faultMap_keeps (st : FaultState) (pgd vaddr n : ℕ) (user : Bool) :
    KeepsLog st (faultMap st pgd vaddr n user).1 := by
  intro x hx
  unfold faultMap faultMapFixed
  dsimp only
  exact keepsLog_loop (mapRound_keeps _ _ _ _) _ n x hx

variable {nested : FaultState → ℕ → FaultOut} (hn : ∀ st va, KeepsLog st (nested st va).state)

include hn

theorem writePage_keeps (va : ℕ) (src : ℕ → Byte) (n tries : ℕ) (st : FaultState) :
    KeepsLog st (writePage nested va src n tries st).1 := by
  induction tries generalizing st with
  | zero => exact fun x hx => hx
  | succ tries ih =>
    intro x hx
    have hx' := hn st va x hx
    unfold writePage
    split
    · exact hx
    · split
      · rename_i st' hout
        rw [hout] at hx'
        exact ih st' x hx'
      · rename_i st' ret hne hout
        rw [hout] at hx'
        exact hx'

theorem finishFault_keeps (tries : ℕ) (a : VmArea) (m : FaultState × Bool) :
    KeepsLog m.1 (finishFault nested tries a m).state := by
  unfold finishFault
  split_ifs
  · exact fun x hx => hx
  · exact keepsLog_loop (fun st i => writePage_keeps hn _ _ _ _ st) m.1 _
  · exact fun x hx => hx

theorem load_keeps (env : FaultEnv) (tries : ℕ) (a : VmArea) (vaddr offset : ℕ) (st : FaultState) :
    KeepsLog st (genericFileLoadMappedPage env nested tries st a vaddr offset).state := by
  intro x hx
  unfold genericFileLoadMappedPage
  split
  · exact hx
  · split
    · exact hx
    · dsimp only
      split_ifs
      · exact hx
      · exact writePage_keeps hn _ _ _ _ _ x (faultMap_keeps st _ _ _ _ x hx)
      · exact writePage_keeps hn _ _ _ _ _ x (faultMap_keeps st _ _ _ _ x hx)
      · exact faultMap_keeps st _ _ _ _ x hx

theorem faultArea_keeps (env : FaultEnv) (tries cr2 : ℕ) (a : VmArea) (st : FaultState) :
    KeepsLog st (faultArea env nested tries st cr2 a).state := by
  intro x hx
  unfold faultArea
  dsimp only
  split_ifs
  · exact hx
  · exact finishFault_keeps hn tries a _ x (keepsLog_loop (mapRound_keeps _ _ _ _) st _ x hx)
  · have hload := load_keeps hn env tries a (pgRndDown cr2)
      (u32 (sub32 (pgRndDown cr2) a.addr + a.fileOff)) st x hx
    split
    · rename_i st' hout
      rw [hout] at hload
      exact finishFault_keeps hn tries a (st', true) x hload
    · exact hload
  · exact finishFault_keeps hn tries a _ x (faultMap_keeps st _ _ _ _ x hx)

theorem faultWalk_keeps (env : FaultEnv) (tries : ℕ) (present write : Bool) (st : FaultState)
    (cr2 fuel item : ℕ) :
    KeepsLog st (faultWalk env nested tries present write st cr2 fuel item).state := by
  induction fuel generalizing item with
  | zero => exact fun x hx => hx
  | succ fuel ih =>
    intro x hx
    unfold faultWalk
    split_ifs
    · exact hx
    · exact faultArea_keeps hn env tries cr2 _ st x hx
    · exact hx
    · exact ih _ x hx
    · exact ih _ x hx

end KeepsLog

theorem handler_keeps (env : FaultEnv) (fuel : ℕ) (present write : Bool) (st : FaultState)
    (cr2 : ℕ) : KeepsLog st (vmaPagefaultHandler env fuel present write st cr2).state := by
  induction fuel generalizing present write st cr2 with
  | zero => exact fun x hx => hx
  | succ fuel ih =>
    exact faultWalk_keeps (fun st va => ih false true st va) env fuel present write st cr2 _ _

section Confined

variable {env : FaultEnv} {pgds : List ℕ} {s : Machine} {a : VmArea} {cr2 : ℕ}

theorem FirstArea.covers {m : VmMem} {t : VmTask} (h : FirstArea m t cr2 a) : CoversAddr a cr2 := by
  obtain ⟨l, x, r, -, rfl, hx, -⟩ := h
  exact hx

theorem Handled.confined {ready : Prop} {out : FaultOut} (h : SpacesInv s pgds)
    (hd : env.task.pgd ∈ pgds) (huser : cr2 / 4096 < USER_END)
    (hout : Handled s pgds env.task.pgd cr2 ready out) : Confined env pgds s cr2 out := by
  refine ⟨hout.kept.log, fun d hdp hne => (hout.kept.others d hdp hne).reads (h.dir d hdp),
    fun hret => ?_⟩
  have hinv := hout.kept.inv.dir _ hd
  obtain ⟨hva, hidx⟩ := user_va_lt huser
  rw [pageEntry_eq hinv.block hva (hinv.window _ (by omega))]
  exact hout.mapped hret

/-- A fault of the kind described stays with its task, and is handled to its end if the
heap has the blocks for it. -/
theorem confined_of_ok (h : SpacesInv s pgds) (hd : env.task.pgd ∈ pgds)
    (hcr3 : s.cr3 = addrToPhys env.task.pgd) (hfirst : FirstArea env.mem env.task cr2 a)
    (ha : AreaOk a) (hpgd : a.pgd ∈ pgds) (hok : FaultOk env pgds s a cr2) :
    FaultConfined env pgds s cr2 ∧ (Enough s a 1 → FileBuffered env a → ∀ write, ∃ fuel k,
      (vmaPagefaultHandler env fuel false write ⟨s, []⟩ cr2).ret = some k) := by
  have hcov := hfirst.covers
  have hhandled := fun nested tries => faultArea_handled tries nested h hd hcr3 ha hcov hpgd hok
  constructor
  · intro fuel write
    have hnone : Handled s pgds env.task.pgd cr2 False ⟨⟨s, []⟩, none⟩ :=
      ⟨Kept.init h _, by simp, fun hf => hf.elim⟩
    cases fuel with
    | zero => exact hnone.confined h hd (hcov.user ha)
    | succ fuel =>
      obtain ⟨n, hn⟩ := handler_first write ⟨s, []⟩ hfirst
      rw [hn fuel]
      split_ifs
      · exact (hhandled _ fuel).confined h hd (hcov.user ha)
      · exact hnone.confined h hd (hcov.user ha)
  · intro hen hbuf write
    obtain ⟨n, hn⟩ := handler_first write ⟨s, []⟩ hfirst
    refine ⟨n + 1 + 1, ?_⟩
    rw [hn (n + 1), if_pos (Nat.lt_succ_self n)]
    exact Option.ne_none_iff_exists'.1
      ((hhandled _ (n + 1)).returned ⟨⟨hen.low, hen.heap, hen.block, Nat.succ_pos n⟩, hbuf⟩)

/-- A file page to be mapped in another directory than that of the task. -/
structure Foreign (env : FaultEnv) (s : Machine) (a : VmArea) (cr2 : ℕ) : Prop where
  limit : ¬ PastLimit a cr2
  phys : a.physAddr = 0
  ops : a.ops ≠ 0
  read : PageRead env a cr2
  can : CanMap s a.pgd cr2
  other : a.pgd ≠ env.task.pgd

theorem foreign_logged {nested : FaultState → ℕ → FaultOut} (tries : ℕ)
    (hn : ∀ st va, KeepsLog st (nested st va).state) (h : SpacesInv s pgds) (hpgd : a.pgd ∈ pgds)
    (huser : cr2 / 4096 < USER_END) (hf : Foreign env s a cr2) :
    (a.pgd, cr2 / 4096) ∈ (faultArea env nested tries ⟨s, []⟩ cr2 a).state.log := by
  obtain ⟨fs, inode, r, hfile, hread, hlt⟩ := hf.read
  obtain ⟨hst, hlog⟩ := faultMap_stores h hpgd (!(a.pgd == s.kernelPgd)) (page_user huser)
    (canMap_page.2 hf.can)
  have hload : (a.pgd, cr2 / 4096) ∈ (genericFileLoadMappedPage env nested tries ⟨s, []⟩ a
      (pgRndDown cr2) (u32 (sub32 (pgRndDown cr2) a.addr + a.fileOff))).state.log := by
    unfold genericFileLoadMappedPage
    simp only [hfile, hread, if_neg (not_le.2 hlt)]
    rw [pgRndDown_eq cr2, if_pos hst]
    refine writePage_keeps hn _ _ _ _ _ _ ?_
    rw [hlog, Nat.mul_div_cancel _ (by norm_num)]
    exact List.mem_singleton_self _
  unfold faultArea
  dsimp only
  rw [if_neg hf.limit, if_neg (not_not.2 hf.phys), if_pos hf.ops]
  split
  · rename_i st' hout
    rw [hout] at hload
    exact finishFault_keeps hn tries a (st', true) _ hload
  · exact hload

theorem escapes_of_foreign (h : SpacesInv s pgds) (hfirst : FirstArea env.mem env.task cr2 a)
    (ha : AreaOk a) (hpgd : a.pgd ∈ pgds) (hf : Foreign env s a cr2) :
    ¬ FaultConfined env pgds s cr2 := by
  obtain ⟨n, hn⟩ := handler_first true ⟨s, []⟩ hfirst
  intro hconf
  have hrun := (hconf (n + 1 + 1) true).installs (a.pgd, cr2 / 4096)
  rw [hn (n + 1), if_pos (Nat.lt_succ_self n)] at hrun
  have hkeeps := fun st va => handler_keeps env (n + 1) false true st va
  exact hf.other (hrun (foreign_logged (n + 1) hkeeps h hpgd (hfirst.covers.user ha) hf))

/-- A fault on an area without pages, such as a framebuffer of length zero, at a page
that is indeed not present. -/
structure Pageless (env : FaultEnv) (s : Machine) (a : VmArea) (cr2 : ℕ) : Prop where
  limit : ¬ PastLimit a cr2
  mapping : a.physAddr ≠ 0 ∨ a.ops = 0
  pages : a.nPages = 0
  absent : (pageEntry s env.task.pgd cr2).testBit 0 = false

theorem pageless_ignored (nested : FaultState → ℕ → FaultOut) (tries : ℕ)
    (hp : Pageless env s a cr2) : ∃ bm, faultArea env nested tries ⟨s, []⟩ cr2 a =
      ⟨⟨{ s with pmmBitmap := bm }, []⟩, some .ignore⟩ := by
  have hfinish : ∀ st, finishFault nested tries a (st, true) = ⟨st, some .ignore⟩ := by
    intro st
    have hz : u32 (PAGE_SIZE * a.nPages) / PAGE_SIZE = 0 := by
      rw [hp.pages]
      decide
    unfold finishFault zeroArea
    rw [hz]
    simp [runLoop]
  unfold faultArea
  dsimp only
  rw [if_neg hp.limit]
  by_cases hphys : a.physAddr ≠ 0
  · rw [if_pos hphys, hp.pages]
    exact ⟨s.pmmBitmap, hfinish ⟨s, []⟩⟩
  · rw [if_neg hphys, if_neg (not_not.2 (hp.mapping.resolve_left hphys)), hp.pages]
    exact ⟨(pmmAlloc s.pmmBitmap 0).2, hfinish ⟨{ s with pmmBitmap := _ }, []⟩⟩

theorem unmapped_of_pageless (hfirst : FirstArea env.mem env.task cr2 a)
    (hp : Pageless env s a cr2) : ¬ FaultConfined env pgds s cr2 := by
  obtain ⟨n, hn⟩ := handler_first true ⟨s, []⟩ hfirst
  intro hconf
  have hrun := (hconf (n + 1 + 1) true).mapped
  obtain ⟨bm, hout⟩ := pageless_ignored
    (fun st va => vmaPagefaultHandler env (n + 1) false true st va) (n + 1) hp
  rw [hn (n + 1), if_pos (Nat.lt_succ_self n), hout] at hrun
  have hsame : pageEntry { s with pmmBitmap := bm } env.task.pgd cr2 =
      pageEntry s env.task.pgd cr2 := rfl
  have hbit := hrun rfl
  rw [hsame, hp.absent] at hbit
  simp at hbit

end Confined

/-- Every task and area that stacks, `mmap` and `fork` lead to, every state of the page
tables in which the directories, those of the tasks among them, are in order, and every
not-present fault of a task inside one of its areas: the fault stays with the task under
`FaultOk`, and does not where a page of a file is to be mapped in the directory of
another task or the area has no pages. -/
theorem fault_confined {evs : List MapEvent} {s : MapSystem} (h : MapRun evs s) {i cr2 : ℕ}
    {t : VmTask} (ht : s.tasks[i]? = some t) (hin : InsideArea s.mem t cr2) {M : Machine}
    {pgds : List ℕ} (hM : SpacesInv M pgds) (hall : ∀ d ∈ s.pgds, d ∈ pgds)
    (hcr3 : M.cr3 = addrToPhys t.pgd) (files : ℕ → Option (Ext2Fs × Ext2Inode)) (stack : Mem) :
    ∃ a, FirstArea s.mem t cr2 a ∧
      (FaultOk (s.faultEnv t files stack) pgds M a cr2 →
        FaultConfined (s.faultEnv t files stack) pgds M cr2 ∧
        (Enough M a 1 → FileBuffered (s.faultEnv t files stack) a → ∀ write, ∃ fuel k,
          (vmaPagefaultHandler (s.faultEnv t files stack) fuel false write ⟨M, []⟩ cr2).ret =
            some k)) ∧
      (Foreign (s.faultEnv t files stack) M a cr2 ∨ Pageless (s.faultEnv t files stack) M a cr2 →
        ¬ FaultConfined (s.faultEnv t files stack) pgds M cr2) := by
  obtain ⟨a, hfirst, ha, hpgd⟩ := firstArea_ok h ht hin
  have hd : t.pgd ∈ pgds := hall _ (List.mem_map_of_mem (List.mem_of_getElem? ht))
  refine ⟨a, hfirst, fun hok => ?_, fun hesc => ?_⟩
  · exact confined_of_ok hM hd hcr3 hfirst ha (hall _ hpgd) hok
  · rcases hesc with hf | hp
    · exact escapes_of_foreign hM hfirst ha (hall _ hpgd) hf
    · exact unmapped_of_pageless hfirst hp

/-- Zeroed memory, a heap of two pages, and two address spaces: that of a parent and
that of its child, which is running. -/
def faultMachine (bm : Bitmap) : Machine := { pgMachine bm with cr3 := addrToPhys 0xC0301000 }

theorem faultMachine_table (bm : Bitmap) (d i : ℕ) :
    tableAt (faultMachine bm).mem (addrToPhys d) i = 0 := by
  simp [faultMachine, pgMachine, tableAt, pdeAt, load32, extractAddr]

theorem faultMachine_block {b : ℕ} (hb : b ∈ [0xC0300000, 0xC0301000, 0xC0200000, 0xC0201000]) :
    KBlock b ∧ addrToPhys b < 4194304 := by
  simp only [List.mem_cons, List.not_mem_nil, or_false] at hb
  rcases hb with rfl | rfl | rfl | rfl <;> exact ⟨⟨by decide, by decide, by decide⟩, by decide⟩

theorem faultMachine_spaces (bm : Bitmap) : SpacesInv (faultMachine bm) [0xC0300000, 0xC0301000] := by
  refine spacesInv_empty (fun d hd => (faultMachine_block ?_).1)
    (fun d _ i _ => faultMachine_table bm d i) (fun b hb => ⟨(faultMachine_block ?_).1, ?_⟩) ?_
  · exact List.mem_append_left [0xC0200000, 0xC0201000] hd
  · exact List.mem_append_right [0xC0300000, 0xC0301000] hb
  · change b ∈ [0xC0200000, 0xC0201000] at hb
    revert b
    decide
  · show [addrToPhys 0xC0200000, addrToPhys 0xC0201000].Nodup
    decide

/-- `pmm_init` reserves the first 4 MiB. -/
theorem faultMachine_frames :
    FramesClear (faultMachine (pmmInit 16777216 0)) [0xC0300000, 0xC0301000] := by
  obtain ⟨hsize, hbit⟩ := pmmInit_spec 16777216 0 (by norm_num)
  have hframes : pmmFrames 16777216 = 4096 := by decide
  rw [hframes] at hsize hbit
  generalize pmmInit 16777216 0 = bm at hsize hbit
  refine ⟨show bm.size ≤ _ by rw [hsize]; norm_num, fun f hf hfree => ?_⟩
  change f < bm.size at hf
  change bm.bit f = false at hfree
  rw [hbit, decide_eq_false_iff_not] at hfree
  refine ⟨?_, fun b hb he => ?_⟩
  · rintro ⟨d, hd, he | ⟨i, hi, h0, -⟩⟩
    · have := (faultMachine_block (List.mem_append_left [0xC0200000, 0xC0201000] hd)).2
      omega
    · exact h0 (faultMachine_table bm d i)
  · have := (faultMachine_block (List.mem_append_right [0xC0300000, 0xC0301000] hb)).2
    omega

theorem FirstArea.single {m : VmMem} {t : VmTask} {cr2 x : ℕ} {a : VmArea}
    (h : FirstArea m t cr2 a) (hc : Chain (fun x => (m.entries x).next) t.first [x]) :
    a = areaAt m x := by
  obtain ⟨l, y, r, hc', rfl, -, -⟩ := h
  have hmem : y ∈ [x] := hc.unique hc' ▸ by simp
  rw [List.mem_singleton.1 hmem]

/-- The entries after a task has mapped an area in block 100. -/
def pageEntries : Entries × DList := listInsertValue vmaBoot0.mem.entries listInit 0 0 100 101

/-- The entries after its fork. -/
def forkedEntries : Entries × DList := listPush pageEntries.1 listInit 100 102

/-- A task and its child, with the area between them. -/
def forkedPage (areas : ℕ → VmArea) : MapSystem :=
  ⟨⟨forkedEntries.1, areas, [102, 101, 100]⟩,
    [⟨1, 0xC0300000, some pageEntries.2⟩, ⟨2, 0xC0301000, some forkedEntries.2⟩],
    Function.update (Function.update (fun _ => 0) 0 1) 1 1⟩

theorem forkedPage_run {p : MmapParams} {table : ℤ → Option MmapFile} {areas : ℕ → VmArea}
    (hc : mmapCall 1 ⟨vmaBoot0.mem, ⟨1, 0xC0300000, some listInit⟩, 0⟩ p ⟨table, 100, 101, 0⟩ =
      some (.ok MMAP_BASE,
        ⟨⟨pageEntries.1, areas, [101, 100]⟩, ⟨1, 0xC0300000, some pageEntries.2⟩, 1⟩)) :
    MapRun [.mmap 0 p ⟨table, 100, 101, 0⟩, .fork 0 2 0xC0301000 [102]] (forkedPage areas) := by
  have hfresh : FreshBlocks vmaBoot0.mem 100 101 := by constructor <;> decide
  have h0 : MapRun [] ⟨vmaBoot0.mem, [⟨1, 0xC0300000, some listInit⟩], fun _ => 0⟩ :=
    Run.nil (by simp [MapBoot])
  have h1 := h0.snoc (show MapStep _ (.mmap 0 p ⟨table, 100, 101, 0⟩) _ from
    ⟨hfresh, _, 1, _, rfl, hc, rfl⟩)
  exact h1.snoc ⟨show ∀ b ∈ [102], b ≠ 0 ∧ b ∉ [101, 100] by decide, by simp,
    show 0xC0301000 ∉ [0xC0300000] by decide, _, _, rfl, rfl, rfl⟩

theorem forkedPage_inside (areas : ℕ → VmArea) {cr2 : ℕ} (h : CoversAddr (areas 100) cr2) :
    InsideArea (forkedPage areas).mem ⟨2, 0xC0301000, some forkedEntries.2⟩ cr2 ∧
    ∀ a, FirstArea (forkedPage areas).mem ⟨2, 0xC0301000, some forkedEntries.2⟩ cr2 a →
      a = areas 100 := by
  have hc : Chain (fun x => ((forkedPage areas).mem.entries x).next)
      (VmTask.first ⟨2, 0xC0301000, some forkedEntries.2⟩) [102] := ⟨rfl, by decide, rfl⟩
  exact ⟨⟨[102], hc, 102, List.mem_cons_self, h⟩, fun a ha => ha.single hc⟩

/-- The area of an anonymous page. -/
def anonPage : VmArea := vmaNew ⟨1, 0xC0300000, some listInit⟩ MMAP_BASE 4096 MAP_ANON

/-- An anonymous page, touched by the child: it is mapped for the child. -/
theorem fault_confined_forked : ∃ s t,
    MapRun [.mmap 0 (anonParams 0 4096) (noOpenFiles 100 101), .fork 0 2 0xC0301000 [102]] s ∧
    s.tasks[1]? = some t ∧
    FaultConfined (s.faultEnv t (fun _ => none) fun _ => 0) s.pgds (faultMachine (pmmInit 16777216 0))
      MMAP_BASE ∧
    ∀ write, ∃ fuel k, (vmaPagefaultHandler (s.faultEnv t (fun _ => none) fun _ => 0) fuel false
      write ⟨faultMachine (pmmInit 16777216 0), []⟩ MMAP_BASE).ret = some k := by
  have hrun : MapRun [.mmap 0 (anonParams 0 4096) (noOpenFiles 100 101), .fork 0 2 0xC0301000 [102]]
      (forkedPage (Function.update vmaBoot0.mem.areas 100 anonPage)) := forkedPage_run rfl
  have hspaces := faultMachine_spaces (pmmInit 16777216 0)
  have hone := faultMachine_frames.alloc_one hspaces List.mem_cons_self
  have hpool : (faultMachine (pmmInit 16777216 0)).pool = [0xC0200000, 0xC0201000] := rfl
  obtain ⟨hin, honly⟩ := forkedPage_inside (Function.update vmaBoot0.mem.areas 100 anonPage)
    (show CoversAddr anonPage MMAP_BASE by decide)
  obtain ⟨a, hfirst, hok, -⟩ := fault_confined hrun (i := 1) rfl hin hspaces (fun _ hd => hd) rfl
    (fun _ => none) fun _ => 0
  obtain rfl : a = anonPage := honly a hfirst
  obtain ⟨hconf, hret⟩ := hok (Or.inr ⟨⟨by decide, by decide⟩, fun _ => hone⟩)
  refine ⟨_, _, hrun, rfl, hconf, hret ⟨by decide, ?_, ?_, by decide⟩ fun _ _ hfile => ?_⟩
  · rw [hpool]
    decide
  · rw [hpool]
    decide
  · cases hfile

/-- Descriptor 3 is open on a file of an ext2 volume. -/
def openFile : ℤ → Option MmapFile := fun fd => if fd = 3 then some ⟨7, some .ext2⟩ else none

/-- The area of its first page. -/
def filePage : VmArea :=
  (mapFileArea openFile (vmaNew ⟨1, 0xC0300000, some listInit⟩ MMAP_BASE 4096 0) 3 0).2

/-- The areas of the task that has mapped it. -/
def fileAreas : ℕ → VmArea :=
  Function.update (Function.update vmaBoot0.mem.areas 100
    (vmaNew ⟨1, 0xC0300000, some listInit⟩ MMAP_BASE 4096 0)) 100 filePage

/-- The page of a file, mapped before the fork and touched by the child: its entry goes
to the parent. -/
theorem forked_file_escapes : ∃ s t,
    MapRun [.mmap 0 ⟨0, 4096, 0, 3, 0⟩ ⟨openFile, 100, 101, 0⟩, .fork 0 2 0xC0301000 [102]] s ∧
    s.tasks[1]? = some t ∧ InsideArea s.mem t MMAP_BASE ∧
    SpacesInv (faultMachine (pmmInit 16777216 0)) s.pgds ∧
    (faultMachine (pmmInit 16777216 0)).cr3 = addrToPhys t.pgd ∧
    pageEntry (faultMachine (pmmInit 16777216 0)) t.pgd MMAP_BASE = 0 ∧
    ¬ FaultConfined (s.faultEnv t (fun _ => some (sampleFs, sampleInode)) fun _ => 0) s.pgds
      (faultMachine (pmmInit 16777216 0)) MMAP_BASE := by
  have hrun : MapRun [.mmap 0 ⟨0, 4096, 0, 3, 0⟩ ⟨openFile, 100, 101, 0⟩, .fork 0 2 0xC0301000 [102]]
      (forkedPage fileAreas) := forkedPage_run rfl
  have hspaces := faultMachine_spaces (pmmInit 16777216 0)
  have hpool : (faultMachine (pmmInit 16777216 0)).pool = [0xC0200000, 0xC0201000] := rfl
  have hwindow := faultMachine_table (pmmInit 16777216 0) 0xC0301000 (MMAP_BASE / 4096 / 1024)
  obtain ⟨hin, honly⟩ := forkedPage_inside fileAreas (show CoversAddr filePage MMAP_BASE by decide)
  obtain ⟨a, hfirst, ha, hpgd⟩ := firstArea_ok hrun (i := 1) rfl hin
  obtain rfl : a = filePage := honly a hfirst
  have hread : 0 < (readFile sampleFs sampleInode (fun _ => 0) PAGE_SIZE 0).offset := by
    unfold readFile
    rw [readData_spec (fun _ _ => rfl) sample_allocated (by norm_num)]
    decide
  refine ⟨_, _, hrun, rfl, hin, hspaces, rfl, ?_, escapes_of_foreign hspaces hfirst ha hpgd
    ⟨by decide, by decide, by decide,
      ⟨_, _, _, rfl, ext2Read_some (by decide) _ _ _ _, hread⟩, Or.inr ⟨by decide, ?_⟩, by decide⟩⟩
  · have hblock := (hspaces.dir 0xC0301000 (by simp)).block
    rw [pageEntry_eq hblock (by norm_num) (by rw [hwindow]; norm_num), entryAt, if_pos hwindow]
  · rw [hpool]
    decide

end DepthOS
