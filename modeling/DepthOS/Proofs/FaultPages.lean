import DepthOS.Proofs.Spaces
import DepthOS.Spec.Fault

/-! What the handling of a fault does to the page tables: the loops of `map_addr_fixed`
and `map_addr` in one directory, and the writes to the pages they have mapped. They
leave every other directory alone, as long as the frames hold no part of one. -/

namespace DepthOS

open Lib

/-- The frames `pmm_alloc` would hand out hold no directory and no table. -/
def AllocClear (s : Machine) (pgds : List ℕ) (n : ℕ) : Prop :=
  ∀ i < n, Clear s pgds (u32 ((pmmAlloc s.pmmBitmap n).1 + u32 (i * PAGE_SIZE)))

section Alloc

variable {s : Machine} {pgds : List ℕ} {n : ℕ}

theorem FramesClear.alloc (h : FramesClear s pgds) (hn : 1 ≤ n) (hrun : HasRun s.pmmBitmap n false) :
    AllocClear s pgds n := by
  obtain ⟨a, hfit, haddr, -⟩ := pmmAlloc_spec s.pmmBitmap hn h.size_le hrun
  have hle := hfit.run.1
  have hsize := h.size_le
  intro i hi
  have hva : u32 (a * 4096 + u32 (i * PAGE_SIZE)) = (a + i) * 4096 := by
    simp only [u32, PAGE_SIZE]
    omega
  rw [haddr, hva]
  exact h.clear (a + i) (by omega) (hfit.run.2 (a + i) (by omega) (by omega))

/-- For a single page it may fail as well: the frame at 0xFFFFF000 is no table either. -/
theorem FramesClear.alloc_one (h : FramesClear s pgds) (hs : SpacesInv s pgds) {d : ℕ}
    (hd : d ∈ pgds) : AllocClear s pgds 1 := by
  by_cases hrun : HasRun s.pmmBitmap 1 false
  · exact h.alloc (Nat.le_refl 1) hrun
  · intro i hi
    have h0 : i = 0 := Nat.lt_one_iff.1 hi
    rw [pmmAlloc_missing (Nat.le_refl 1) hrun, h0]
    exact hs.clear_high hd (by decide)

end Alloc

/-- The directory has a table for the address, or can get one. -/
def CanMap (s : Machine) (pgd va : ℕ) : Prop :=
  tableAt s.mem (addrToPhys pgd) (pdeIndex va) ≠ 0 ∨ (pdeIndex va ≠ 0 ∧ s.pool ≠ [])

/-- What the handling of a fault in directory `d` has kept so far. -/
structure Kept (s : Machine) (pgds : List ℕ) (d : ℕ) (st : FaultState) : Prop where
  inv : SpacesInv st.machine pgds
  others : ∀ e ∈ pgds, e ≠ d → DirSame s st.machine e
  log : ∀ x ∈ st.log, x.1 = d
  cr3 : st.machine.cr3 = s.cr3
  clear : ∀ x, Clear s pgds x → Clear st.machine pgds x

theorem Kept.init {s : Machine} {pgds : List ℕ} (h : SpacesInv s pgds) (d : ℕ) :
    Kept s pgds d ⟨s, []⟩ :=
  ⟨h, fun _ _ _ => DirSame.refl _ _, by simp, rfl, fun _ hx => hx⟩

section Map

variable {s : Machine} {pgds : List ℕ} {d : ℕ} {st : FaultState} {vaddr n : ℕ}

/-- The entries of `n` pages from `page` on are those `map_addr_fixed` stores. -/
def MappedPages (st : FaultState) (d page pstart n : ℕ) (user : Bool) : Prop :=
  ∀ j < n, entryAt st.machine.mem (addrToPhys d) (page + j) = fixedPte pstart j user

theorem mapRound_spec {i : ℕ} (pstart : ℕ) (user : Bool) (h : Kept s pgds d st)
    (hd : d ∈ pgds) (hp : vaddr / 4096 + i < USER_END) :
    Kept s pgds d (mapRound d (pgRndDown vaddr) pstart user st i).1 ∧
    ((mapRound d (pgRndDown vaddr) pstart user st i).2 = true →
      ∀ q < 1048576, entryAt (mapRound d (pgRndDown vaddr) pstart user st i).1.machine.mem
        (addrToPhys d) q = if q = vaddr / 4096 + i then fixedPte pstart i user
          else entryAt st.machine.mem (addrToPhys d) q) := by
  have hva := fixed_page hp
  have hone : mapFixedOne d (pgRndDown vaddr) pstart user true st.machine i =
      mapPage st.machine d (u32 (pgRndDown vaddr + u32 (i * PAGE_SIZE)))
        (u32 (pstart + u32 (i * PAGE_SIZE))) user := by
    simp [mapFixedOne]
  unfold mapRound
  rw [hone]
  cases hm : mapPage st.machine d (u32 (pgRndDown vaddr + u32 (i * PAGE_SIZE)))
      (u32 (pstart + u32 (i * PAGE_SIZE))) user with
  | none => exact ⟨h, by simp⟩
  | some s' =>
    obtain ⟨hstep, hent⟩ := mapPage_step (h.inv.dir d hd) (by rw [hva]; exact hp) hm
    rw [hva] at hent
    refine ⟨⟨h.inv.step hd hstep, fun e he hne => ?_, fun x hx => ?_, hstep.cr3.trans h.cr3,
      fun x hx => hstep.clear h.inv hd (h.clear x hx)⟩, fun _ => hent⟩
    · exact (h.others e he hne).trans (hstep.other h.inv hd he hne)
    · rcases List.mem_append.1 hx with hx | hx
      · exact h.log x hx
      · rw [List.mem_singleton.1 hx]

theorem faultMapFixed_spec (pstart : ℕ) (user : Bool) (h : Kept s pgds d st) (hd : d ∈ pgds)
    (hp : vaddr / 4096 + n ≤ USER_END) :
    Kept s pgds d (faultMapFixed st d vaddr pstart n user).1 ∧
    ((faultMapFixed st d vaddr pstart n user).2 = true →
      MappedPages (faultMapFixed st d vaddr pstart n user).1 d (vaddr / 4096) pstart n user) := by
  have hrule := runLoop_rule (f := mapRound d (pgRndDown vaddr) pstart user) (a := st) (n := n)
    (I := fun i st => Kept s pgds d st ∧ MappedPages st d (vaddr / 4096) pstart i user)
    (J := Kept s pgds d) ⟨h, fun j hj => absurd hj (Nat.not_lt_zero _)⟩ ?_ ?_
  · unfold faultMapFixed
    split_ifs at hrule with hr
    · exact ⟨hrule.1, fun _ => hrule.2⟩
    · exact ⟨hrule, fun hc => absurd hc hr⟩
  · rintro i hi st' ⟨hk, hmap⟩ hr
    obtain ⟨hk', hent⟩ := mapRound_spec pstart user hk hd
      (show vaddr / 4096 + i < USER_END by omega)
    refine ⟨hk', fun j hj => ?_⟩
    have hlt : vaddr / 4096 + j < 1048576 := by
      simp only [USER_END] at hp
      omega
    rw [hent hr _ hlt]
    by_cases hji : j = i
    · rw [if_pos (by rw [hji]), hji]
    · rw [if_neg (by omega)]
      exact hmap j (by omega)
  · rintro i hi st' ⟨hk, -⟩ -
    exact (mapRound_spec pstart user hk hd (by omega)).1

theorem Kept.bitmap (h : Kept s pgds d st) (bm : Bitmap) :
    Kept s pgds d { st with machine := { st.machine with pmmBitmap := bm } } := by
  have hsame : ∀ e ∈ pgds, DirSame st.machine { st.machine with pmmBitmap := bm } e :=
    fun e _ => ⟨fun _ _ => rfl, fun _ _ => rfl⟩
  exact ⟨h.inv.congr hsame rfl, fun e he hne => (h.others e he hne).trans (hsame e he), h.log, h.cr3,
    fun x hx => (h.clear x hx).congr hsame rfl⟩

theorem faultMap_spec (user : Bool) (h : Kept s pgds d st) (hd : d ∈ pgds)
    (hp : vaddr / 4096 + n ≤ USER_END) :
    Kept s pgds d (faultMap st d vaddr n user).1 ∧
    ((faultMap st d vaddr n user).2 = true → MappedPages (faultMap st d vaddr n user).1 d
      (vaddr / 4096) (pmmAlloc st.machine.pmmBitmap n).1 n user) := by
  have hpage : pgRndDown vaddr / 4096 = vaddr / 4096 := by
    simp only [pgRndDown, roundDown, PAGE_SIZE]
    omega
  have hspec := faultMapFixed_spec (pmmAlloc st.machine.pmmBitmap n).1 user
    (h.bitmap (pmmAlloc st.machine.pmmBitmap n).2) hd (show pgRndDown vaddr / 4096 + n ≤ USER_END by
      rw [hpage]; exact hp)
  rw [hpage] at hspec
  exact hspec

theorem faultMapFixed_returns (pstart : ℕ) (user : Bool) (h : Kept s pgds d st) (hd : d ∈ pgds)
    (hp : ∀ i < n, UserPage (vaddr / 4096 + i)) (hpool : n ≤ st.machine.pool.length) :
    (faultMapFixed st d vaddr pstart n user).2 = true := by
  refine (runLoop_completes (I := fun i st' => Kept s pgds d st' ∧
    st.machine.pool.length ≤ st'.machine.pool.length + i) ⟨h, Nat.le_refl _⟩ ?_).1
  rintro i hi st' ⟨hk, hlen⟩
  have hu := hp i hi
  have hva := fixed_page hu.2
  rw [← hva] at hu
  have hinv := hk.inv.dir d hd
  obtain ⟨s', hs'⟩ := mapPage_returns (u32 (pstart + u32 (i * PAGE_SIZE))) user hinv hu
    (List.ne_nil_of_length_pos (by omega))
  have hblocks := (mapPage_spec hinv hu hs').2.2.2.1
  have hone : mapFixedOne d (pgRndDown vaddr) pstart user true st'.machine i = some s' := by
    rw [← hs']
    simp [mapFixedOne]
  have hk' := (mapRound_spec pstart user hk hd (hp i hi).2).1
  unfold mapRound at hk' ⊢
  rw [hone] at hk' ⊢
  exact ⟨rfl, hk', by dsimp only; omega⟩

end Map

section Write

variable {s : Machine} {pgds : List ℕ} {d : ℕ} {st : FaultState} {page pstart n : ℕ} {user : Bool}

/-- The memory management unit finds a page that has been mapped in `d`. -/
theorem translate_mapped (h : Kept s pgds d st) (hd : d ∈ pgds) (hcr3 : s.cr3 = addrToPhys d)
    {p frame : ℕ} {w u : Bool} (hp : p < USER_END)
    (he : entryAt st.machine.mem (addrToPhys d) p = makePte frame w u) :
    translate st.machine.mem st.machine.cr3 (p * 4096) = some (extractAddr (makePte frame w u)) := by
  have hidx : p / 1024 < 768 := by
    simp only [USER_END] at hp
    omega
  have ht : tableAt st.machine.mem (addrToPhys d) (p / 1024) ≠ 0 := by
    intro h0
    rw [entryAt, if_pos h0] at he
    exact makeEntry_ne_zero _ _ _ he.symm
  rw [entryAt, if_neg ht] at he
  obtain ⟨h0, h7⟩ := h.inv.present d hd _ hidx ht
  rw [h.cr3, hcr3, translate_page h0 h7, he]
  rw [he]
  exact (makeEntry_flags _ _ _).1

theorem writePage_spec (nested : FaultState → ℕ → FaultOut) (tries : ℕ) (src : ℕ → Byte)
    (h : Kept s pgds d st) (hd : d ∈ pgds) (hcr3 : s.cr3 = addrToPhys d) {p frame k : ℕ}
    {w u : Bool} (hp : p < USER_END)
    (he : entryAt st.machine.mem (addrToPhys d) p = makePte frame w u)
    (hclear : Clear s pgds (extractAddr (makePte frame w u))) (hk : k ≤ 4096) :
    Kept s pgds d (writePage nested (p * 4096) src k tries st).1 ∧
    DirSame st.machine (writePage nested (p * 4096) src k tries st).1.machine d ∧
    (0 < tries → (writePage nested (p * 4096) src k tries st).2 = true) := by
  cases tries with
  | zero => exact ⟨h, DirSame.refl _ _, fun h0 => absurd h0 (Nat.lt_irrefl 0)⟩
  | succ tries =>
    have hsame : ∀ e ∈ pgds, DirSame st.machine { st.machine with
        mem := blit st.machine.mem (extractAddr (makePte frame w u)) src k } e :=
      fun e he' => dirSame_blit h.inv (extractAddr_aligned _) (h.clear _ hclear).table hk he'
    unfold writePage
    rw [translate_mapped h hd hcr3 hp he]
    refine ⟨⟨h.inv.congr hsame rfl, fun e he' hne => (h.others e he' hne).trans (hsame e he'), h.log,
      h.cr3, fun x hx => (h.clear x hx).congr hsame rfl⟩, hsame d hd, fun _ => rfl⟩

theorem fixedPte_alloc (bm : Bitmap) (n i : ℕ) (user : Bool) :
    extractAddr (fixedPte (pmmAlloc bm n).1 i user) =
      u32 ((pmmAlloc bm n).1 + u32 (i * PAGE_SIZE)) := by
  obtain ⟨k, hk⟩ : ∃ k, (pmmAlloc bm n).1 = u32 (k * 4096) := ⟨_, rfl⟩
  rw [hk, fixedPte, makePte, extractAddr_makeEntry]
  simp only [u32, PAGE_SIZE]
  omega

variable (nested : FaultState → ℕ → FaultOut) (tries : ℕ) {a : VmArea}

theorem zeroRound_spec (hd : d ∈ pgds) (hcr3 : s.cr3 = addrToPhys d) (hal : a.addr % 4096 = 0)
    (hend : a.addr / 4096 + a.nPages ≤ USER_END) (hclear : AllocClear s pgds a.nPages)
    (h : Kept s pgds d st)
    (hmap : MappedPages st d (a.addr / 4096) (pmmAlloc s.pmmBitmap a.nPages).1 a.nPages user)
    {i : ℕ} (hi : i < a.nPages) :
    (Kept s pgds d (writePage nested (u32 (a.addr + i * PAGE_SIZE)) (fun _ => 0) PAGE_SIZE tries
      st).1 ∧ MappedPages (writePage nested (u32 (a.addr + i * PAGE_SIZE)) (fun _ => 0) PAGE_SIZE
      tries st).1 d (a.addr / 4096) (pmmAlloc s.pmmBitmap a.nPages).1 a.nPages user) ∧
    (0 < tries → (writePage nested (u32 (a.addr + i * PAGE_SIZE)) (fun _ => 0) PAGE_SIZE tries
      st).2 = true) := by
  have hva : u32 (a.addr + i * PAGE_SIZE) = (a.addr / 4096 + i) * 4096 := by
    simp only [u32, PAGE_SIZE, USER_END] at *
    omega
  have hc := hclear i hi
  rw [← fixedPte_alloc _ _ _ user] at hc
  rw [hva]
  obtain ⟨hk', hsame, hret⟩ := writePage_spec nested tries (fun _ => 0) h hd hcr3
    (show a.addr / 4096 + i < USER_END by omega) (hmap i hi) hc (k := PAGE_SIZE) le_rfl
  refine ⟨⟨hk', fun j hj => ?_⟩, hret⟩
  rw [hsame.entry _ (by simp only [USER_END] at hend; omega)]
  exact hmap j hj

theorem zeroArea_spec (hd : d ∈ pgds) (hcr3 : s.cr3 = addrToPhys d) (hal : a.addr % 4096 = 0)
    (hend : a.addr / 4096 + a.nPages ≤ USER_END) (hclear : AllocClear s pgds a.nPages)
    (h : Kept s pgds d st)
    (hmap : MappedPages st d (a.addr / 4096) (pmmAlloc s.pmmBitmap a.nPages).1 a.nPages user) :
    Kept s pgds d (zeroArea nested tries a st).1 ∧
    ((zeroArea nested tries a st).2 = true → MappedPages (zeroArea nested tries a st).1 d
      (a.addr / 4096) (pmmAlloc s.pmmBitmap a.nPages).1 a.nPages user) ∧
    (0 < tries → (zeroArea nested tries a st).2 = true) := by
  have hcount : u32 (PAGE_SIZE * a.nPages) / PAGE_SIZE = a.nPages := by
    simp only [u32, PAGE_SIZE, USER_END] at *
    omega
  unfold zeroArea
  rw [hcount]
  have hround := fun i (hi : i < a.nPages) st'
      (hI : Kept s pgds d st' ∧ MappedPages st' d (a.addr / 4096)
        (pmmAlloc s.pmmBitmap a.nPages).1 a.nPages user) =>
    zeroRound_spec nested tries hd hcr3 hal hend hclear hI.1 hI.2 hi
  have hrule := runLoop_rule (a := st) (n := a.nPages)
    (f := fun st i => writePage nested (u32 (a.addr + i * PAGE_SIZE)) (fun _ => 0) PAGE_SIZE tries st)
    (I := fun _ st => Kept s pgds d st ∧ MappedPages st d (a.addr / 4096)
      (pmmAlloc s.pmmBitmap a.nPages).1 a.nPages user)
    (J := Kept s pgds d) ⟨h, hmap⟩ (fun i hi st' hI _ => (hround i hi st' hI).1)
    fun i hi st' hI _ => (hround i hi st' hI).1.1
  have hdone : 0 < tries → (runLoop (fun st i => writePage nested (u32 (a.addr + i * PAGE_SIZE))
      (fun _ => 0) PAGE_SIZE tries st) st a.nPages).2 = true := fun h0 =>
    (runLoop_completes (I := fun _ st => Kept s pgds d st ∧ MappedPages st d (a.addr / 4096)
      (pmmAlloc s.pmmBitmap a.nPages).1 a.nPages user) ⟨h, hmap⟩ fun i hi st' hI =>
        ⟨(hround i hi st' hI).2 h0, (hround i hi st' hI).1⟩).1
  split_ifs at hrule with hr
  · exact ⟨hrule.1, fun _ => hrule.2, hdone⟩
  · exact ⟨hrule, fun hc => absurd hc hr, hdone⟩

end Write

section Page

variable {s : Machine} {e cr2 : ℕ}

theorem pgRndDown_eq (x : ℕ) : pgRndDown x = x / 4096 * 4096 := by
  simp only [pgRndDown, roundDown, PAGE_SIZE]
  omega

theorem page_user (h : cr2 / 4096 < USER_END) : cr2 / 4096 * 4096 / 4096 < USER_END := by
  rwa [Nat.mul_div_cancel _ (by norm_num)]

theorem canMap_page : CanMap s e (cr2 / 4096 * 4096) ↔ CanMap s e cr2 := by
  unfold CanMap
  rw [pdeIndex_eq, pdeIndex_eq, Nat.mul_div_cancel _ (by norm_num)]

end Page

section One

variable {s : Machine} {pgds : List ℕ} {d e va : ℕ}

/-- `map_page` comes back if and only if there can be a table. -/
theorem mapPage_canMap (h : PgdInv s e) (va : ℕ) (hp : va / 4096 < USER_END) (phys : ℕ)
    (user : Bool) :
    (mapPage s e va phys user).isSome ↔ CanMap s e va := by
  unfold CanMap
  rw [pdeIndex_eq]
  by_cases ht : tableAt s.mem (addrToPhys e) (va / 4096 / 1024) = 0
  · by_cases hlow : va / 4096 / 1024 = 0
    · rw [mapPage_of_low h hlow ht]
      rw [hlow] at ht ⊢
      simp [ht]
    · have hup : UserPage (va / 4096) := ⟨by simp only [USER_FIRST]; omega, hp⟩
      cases hpool : s.pool with
      | nil =>
        rw [mapPage_of_nil h hup ht hpool]
        simp [ht]
      | cons b rest =>
        rw [mapPage_of_pool h hup ht hpool]
        simp [hlow]
  · rw [mapPage_of_table h hp ht]
    simp [ht]

theorem faultMap_one (s : Machine) (e : ℕ) (user : Bool) (hp : va / 4096 < USER_END) :
    faultMap ⟨s, []⟩ e va 1 user =
      match mapPage { s with pmmBitmap := (pmmAlloc s.pmmBitmap 1).2 } e (va / 4096 * 4096)
        (u32 ((pmmAlloc s.pmmBitmap 1).1 + u32 (0 * PAGE_SIZE))) user with
      | none => (⟨{ s with pmmBitmap := (pmmAlloc s.pmmBitmap 1).2 }, []⟩, false)
      | some s' => (⟨s', [(e, va / 4096)]⟩, true) := by
  have hva : u32 (pgRndDown (pgRndDown va) + u32 (0 * PAGE_SIZE)) = va / 4096 * 4096 := by
    simp only [u32, pgRndDown, roundDown, PAGE_SIZE, USER_END] at *
    omega
  unfold faultMap faultMapFixed
  dsimp only
  simp only [runLoop, if_true, mapRound, mapFixedOne, hva, Bool.true_eq_false, and_false, if_false]
  cases mapPage { s with pmmBitmap := (pmmAlloc s.pmmBitmap 1).2 } e (va / 4096 * 4096)
    (u32 ((pmmAlloc s.pmmBitmap 1).1 + u32 (0 * PAGE_SIZE))) user with
  | none => rfl
  | some s' =>
    have hdiv : va / 4096 * 4096 / PAGE_SIZE = va / 4096 := Nat.mul_div_cancel _ (by norm_num)
    simp only [hdiv, List.nil_append]

theorem mapOne_canMap (h : SpacesInv s pgds) (he : e ∈ pgds) (bm : Bitmap) (phys : ℕ) (user : Bool)
    (hp : va / 4096 < USER_END) :
    (mapPage { s with pmmBitmap := bm } e (va / 4096 * 4096) phys user).isSome ↔
      CanMap s e va := by
  have hinv : PgdInv { s with pmmBitmap := bm } e := (h.dir e he).congr rfl fun _ _ => rfl
  rw [mapPage_canMap hinv (va / 4096 * 4096) (page_user hp)]
  exact canMap_page

theorem faultMap_stuck (h : SpacesInv s pgds) (he : e ∈ pgds) (user : Bool)
    (hp : va / 4096 < USER_END) (hcan : ¬ CanMap s e va) :
    faultMap ⟨s, []⟩ e va 1 user =
      (⟨{ s with pmmBitmap := (pmmAlloc s.pmmBitmap 1).2 }, []⟩, false) := by
  have hnone := Option.not_isSome_iff_eq_none.1 fun hs =>
    hcan ((mapOne_canMap h he (pmmAlloc s.pmmBitmap 1).2
      (u32 ((pmmAlloc s.pmmBitmap 1).1 + u32 (0 * PAGE_SIZE))) user hp).1 hs)
  rw [faultMap_one s e user hp, hnone]

theorem faultMap_stores (h : SpacesInv s pgds) (he : e ∈ pgds) (user : Bool)
    (hp : va / 4096 < USER_END) (hcan : CanMap s e va) :
    (faultMap ⟨s, []⟩ e va 1 user).2 = true ∧
    (faultMap ⟨s, []⟩ e va 1 user).1.log = [(e, va / 4096)] := by
  obtain ⟨s', hs'⟩ := Option.isSome_iff_exists.1
    ((mapOne_canMap h he (pmmAlloc s.pmmBitmap 1).2
      (u32 ((pmmAlloc s.pmmBitmap 1).1 + u32 (0 * PAGE_SIZE))) user hp).2 hcan)
  rw [faultMap_one s e user hp, hs']
  exact ⟨rfl, rfl⟩

end One

end DepthOS
