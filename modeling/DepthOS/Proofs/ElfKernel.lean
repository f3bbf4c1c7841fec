import DepthOS.Proofs.Elf

/-! Where the loader writes. Its one check against the kernel's addresses is made on a sum of
32 bits, of the size in memory alone: a sum that wraps passes it, and the size in the file is
never looked at. What stops the copy short of the kernel is a page that is not there. -/

namespace DepthOS

open Lib

/-- The addresses are the user's. -/
def ElfAccess.Below (a : ElfAccess) : Prop := ∀ x, a.At x → x < VIRT_BASE

theorem map_below {va : ℕ} : (ElfAccess.map va).Below ↔ va < VIRT_BASE := by
  constructor
  · intro h
    exact h va rfl
  · rintro h x rfl
    exact h

/-- Every access from the one address up to the other goes on. -/
def GoesThrough (goes : ℕ → Bool) (a b : ℕ) : Prop := ∀ x, a ≤ x → x < b → goes x

/-- Bytes stored from `va` on get to an address of the kernel. -/
def GetsThere (goes : ℕ → Bool) (va n : ℕ) : Prop :=
  0 < n ∧ VIRT_BASE < va + n ∧ GoesThrough goes va (max va VIRT_BASE + 1)

theorem elfStored_le (goes : ℕ → Bool) (va n : ℕ) : elfStored goes va n ≤ n := by
  induction n with
  | zero => exact le_rfl
  | succ n ih =>
    unfold elfStored
    split_ifs
    · exact le_rfl
    · omega

theorem lt_elfStored {goes : ℕ → Bool} {va n k : ℕ} :
    k < elfStored goes va n ↔ k < n ∧ ∀ j ≤ k, goes (u32 (va + j)) := by
  induction n generalizing k with
  | zero => simp [elfStored]
  | succ n ih =>
    have hall : elfStored goes va n = n ↔ ∀ j < n, goes (u32 (va + j)) := by
      have hle := elfStored_le goes va n
      constructor
      · intro h j hj
        exact (ih.1 (h.symm ▸ hj)).2 j le_rfl
      · intro h
        by_contra hne
        exact absurd (ih.2 ⟨by omega, fun j hj => h j (by omega)⟩)
          (lt_irrefl (elfStored goes va n))
    unfold elfStored
    split_ifs with hgo
    · refine ⟨fun hk => ⟨hk, fun j hj => ?_⟩, And.left⟩
      rcases Nat.lt_or_eq_of_le (show j ≤ n by omega) with hj' | rfl
      · exact hall.1 hgo.1 j hj'
      · exact hgo.2
    · rw [ih]
      refine ⟨fun h => ⟨by omega, h.2⟩, fun h => ⟨?_, h.2⟩⟩
      by_contra hk
      exact hgo ⟨hall.2 fun j hj => h.2 j (by omega), h.2 n (by omega)⟩

theorem elfStored_all {goes : ℕ → Bool} {va n : ℕ} (hend : va + n ≤ 4294967296) :
    elfStored goes va n = n ↔ GoesThrough goes va (va + n) := by
  have hall : elfStored goes va n = n ↔ ∀ k < n, k < elfStored goes va n := by
    have := elfStored_le goes va n
    refine ⟨fun h k hk => h.symm ▸ hk, fun h => ?_⟩
    by_contra hne
    exact absurd (h (elfStored goes va n) (by omega)) (lt_irrefl _)
  rw [hall]
  constructor
  · intro h x hx hlt
    have hgo := (lt_elfStored.1 (h (x - va) (by omega))).2 (x - va) le_rfl
    rwa [show u32 (va + (x - va)) = x by simp only [u32]; omega] at hgo
  · intro h k hk
    refine lt_elfStored.2 ⟨hk, fun j hj => h _ ?_ ?_⟩ <;> simp only [u32] <;> omega

theorem stored_below {goes : ℕ → Bool} {va n : ℕ} (hva : va < 4294967296) :
    (∀ x, (∃ k < elfStored goes va n, x = u32 (va + k)) → x < VIRT_BASE) ↔
      ¬GetsThere goes va n := by
  simp only [GetsThere, GoesThrough, VIRT_BASE]
  constructor
  · rintro h ⟨hn, hend, hgo⟩
    have hk : max va 3221225472 - va < elfStored goes va n := by
      refine lt_elfStored.2 ⟨by omega, fun j hj => hgo _ ?_ ?_⟩ <;> simp only [u32] <;> omega
    have := h _ ⟨_, hk, rfl⟩
    simp only [u32] at this
    omega
  · rintro h x ⟨k, hk, rfl⟩
    by_contra hx
    obtain ⟨hkn, hgo⟩ := lt_elfStored.1 hk
    simp only [u32] at hx
    refine h ⟨by omega, by omega, fun x hx1 hx2 => ?_⟩
    have hgo' := hgo (x - va) (by omega)
    rwa [show u32 (va + (x - va)) = x by simp only [u32]; omega] at hgo'

/-- A file delivers all that is asked of it, and every store of it goes on. -/
def ReadDone (goes : ℕ → Bool) (va b n : ℕ) : Prop := GoesThrough goes va (va + b) ∧ b = n

theorem readDone_iff {goes : ℕ → Bool} {va b n : ℕ} (hva : va < 4294967296)
    (hno : ¬GetsThere goes va b) :
    ReadDone goes va b n ↔ elfStored goes va b = b ∧ b = n := by
  refine and_congr_left fun _ => ?_
  rcases Nat.lt_or_ge 4294967296 (va + b) with hbig | hsmall
  · -- what is missing on the way to the kernel is missing for both
    refine iff_of_false (fun hgo => hno ⟨by omega, ?_, fun x h1 h2 => hgo x h1 ?_⟩)
      fun hall => hno ⟨by omega, ?_, fun x h1 h2 => ?_⟩
    · simp only [VIRT_BASE]
      omega
    · simp only [VIRT_BASE] at h2
      omega
    · simp only [VIRT_BASE]
      omega
    · simp only [VIRT_BASE] at h2
      have hk : x - va < elfStored goes va b := by omega
      have hgo := (lt_elfStored.1 hk).2 _ le_rfl
      rwa [show u32 (va + (x - va)) = x by simp only [u32]; omega] at hgo
  · exact (elfStored_all hsmall).symm

theorem read_below {goes : ℕ → Bool} {va n : ℕ} (hva : va < 4294967296) :
    (ElfAccess.read va (elfStored goes va n)).Below ↔ ¬GetsThere goes va n := stored_below hva

theorem zero_below {goes : ℕ → Bool} {va n : ℕ} (hva : va < 4294967296) :
    (ElfAccess.zero va (elfStored goes va n)).Below ↔ ¬GetsThere goes va n := stored_below hva

section Rounds

variable {s : Machine} {pgd vaddr : ℕ}

theorem elfMapRound_log (st : ElfState) (i : ℕ) :
    (elfMapRound pgd vaddr st i).1.log =
      st.log ++ [.map (u32 (vaddr + u32 (i * PAGE_SIZE)))] := by
  unfold elfMapRound
  dsimp only
  split <;> rfl

theorem elfMap_log {n : ℕ} {a : ElfAccess}
    (ha : a ∈ (runLoop (elfMapRound pgd vaddr) ⟨s, []⟩ n).1.log) :
    ∃ i < n, a = .map (u32 (vaddr + u32 (i * PAGE_SIZE))) := by
  induction n with
  | zero => simp [runLoop] at ha
  | succ n ih =>
    unfold runLoop at ha
    split_ifs at ha with hr
    · rw [elfMapRound_log, List.mem_append, List.mem_singleton] at ha
      rcases ha with ha | ha
      · obtain ⟨i, hi, heq⟩ := ih ha
        exact ⟨i, by omega, heq⟩
      · exact ⟨n, Nat.lt_succ_self n, ha⟩
    · obtain ⟨i, hi, heq⟩ := ih ha
      exact ⟨i, by omega, heq⟩

theorem elfMap_reached {k n : ℕ} (hk : k < n)
    (hret : (runLoop (elfMapRound pgd vaddr) ⟨s, []⟩ k).2 = true) :
    .map (u32 (vaddr + u32 (k * PAGE_SIZE))) ∈
      (runLoop (elfMapRound pgd vaddr) ⟨s, []⟩ n).1.log := by
  apply runLoop_keeps (P := fun st : ElfState =>
    .map (u32 (vaddr + u32 (k * PAGE_SIZE))) ∈ st.log) (k := k + 1)
  · exact hk
  · unfold runLoop
    rw [if_pos hret, elfMapRound_log]
    simp
  · intro st i hst
    rw [elfMapRound_log]
    exact List.mem_append_left _ hst

theorem elfMap_below {n : ℕ} (hp : vaddr / 4096 + n ≤ USER_END) {a : ElfAccess}
    (ha : a ∈ (runLoop (elfMapRound pgd vaddr) ⟨s, []⟩ n).1.log) : a.Below := by
  obtain ⟨i, hi, rfl⟩ := elfMap_log ha
  rw [map_below, (round_page (by omega)).1]
  simp only [USER_END, VIRT_BASE] at *
  omega

end Rounds

section Segment

variable {s : Machine} {pgd : ℕ} {segment : ElfProgramHeader} {file : ℕ → ℕ → ℕ}
  {there : ℕ → Bool}

/-- The segment is loaded: its type, and the check against the kernel's addresses. -/
def ElfProgramHeader.Taken (segment : ElfProgramHeader) : Prop :=
  segment.type = ELF_PHEADER_LOAD ∧ u32 (segment.vaddr + segment.memsz) < VIRT_BASE

theorem elfLoad_skips (h : ¬ segment.Taken) :
    elfLoadSegment file there ⟨s, []⟩ pgd segment = (⟨s, []⟩, true) := by
  unfold elfLoadSegment
  by_cases ht : segment.type = ELF_PHEADER_LOAD
  · rw [if_neg (not_not.2 ht), if_pos (not_lt.1 fun hlt => h ⟨ht, hlt⟩)]
  · rw [if_pos ht]

theorem elfLoad_stuck (h : segment.Taken)
    (hret : (elfMapSegment ⟨s, []⟩ pgd segment).2 = false) :
    (elfLoadSegment file there ⟨s, []⟩ pgd segment).1 = (elfMapSegment ⟨s, []⟩ pgd segment).1 := by
  unfold elfLoadSegment
  rw [if_neg (not_not.2 h.1), if_neg (not_le.2 h.2)]
  generalize elfMapSegment ⟨s, []⟩ pgd segment = r at hret
  obtain ⟨st, b⟩ := r
  cases hret
  rfl

theorem goes_read (st : ElfState) (va n : ℕ) :
    ElfState.goes there { st with log := st.log ++ [.read va n] } = st.goes there := by
  funext x
  simp [ElfState.goes, ElfAccess.maps]

theorem elfLoad_done (hv : segment.vaddr < 4294967296) (h : segment.Taken)
    (hret : (elfMapSegment ⟨s, []⟩ pgd segment).2 = true) {goes : ℕ → Bool}
    (hgoes : (elfMapSegment ⟨s, []⟩ pgd segment).1.goes there = goes) :
    BelowKernel (elfLoadSegment file there ⟨s, []⟩ pgd segment).1 ↔
      (∀ a ∈ (elfMapSegment ⟨s, []⟩ pgd segment).1.log, a.Below) ∧
      ¬GetsThere goes segment.vaddr (file segment.offset segment.filesz) ∧
      (ReadDone goes segment.vaddr (file segment.offset segment.filesz) segment.filesz →
        ¬GetsThere goes (u32 (segment.vaddr + segment.filesz))
          (segment.memsz - segment.filesz)) := by
  have hva : u32 (segment.vaddr + segment.filesz) < 4294967296 := Nat.mod_lt _ (by norm_num)
  rw [← zero_below hva, and_congr_right fun hno => imp_congr_left (readDone_iff hv hno),
    ← read_below hv]
  unfold elfLoadSegment BelowKernel
  rw [if_neg (not_not.2 h.1), if_neg (not_le.2 h.2)]
  generalize elfMapSegment ⟨s, []⟩ pgd segment = r at hret hgoes
  obtain ⟨st, b⟩ := r
  cases hret
  dsimp only at hgoes ⊢
  rw [goes_read, hgoes]
  split_ifs with hstored hb hz
  · simp only [List.forall_mem_append, List.forall_mem_singleton]
    exact and_congr_right fun _ => ⟨fun hr => ⟨hr, fun hd => absurd hd.1 hstored⟩, And.left⟩
  · simp only [List.forall_mem_append, List.forall_mem_singleton]
    exact and_congr_right fun _ => ⟨fun hr => ⟨hr, fun hd => absurd hd.2 hb⟩, And.left⟩
  · simp only [List.forall_mem_append, List.forall_mem_singleton, and_assoc]
    exact and_congr_right fun _ => and_congr_right fun _ =>
      ⟨fun hz' _ => hz', fun hz' => hz' ⟨not_not.1 hstored, not_not.1 hb⟩⟩
  · simp only [List.forall_mem_append, List.forall_mem_singleton]
    refine and_congr_right fun _ => ⟨fun hr => ⟨hr, fun _ => ?_⟩, And.left⟩
    rw [Nat.sub_eq_zero_of_le (not_lt.1 hz)]
    rintro x ⟨k, hk, -⟩
    exact absurd hk (Nat.not_lt_zero k)

/-- A page that the loop counts. -/
def ElfProgramHeader.Counts (segment : ElfProgramHeader) (x : ℕ) : Bool :=
  segment.vaddr / PAGE_SIZE ≤ x / PAGE_SIZE ∧
    x / PAGE_SIZE < segment.vaddr / PAGE_SIZE + pgRndUp segment.memsz / PAGE_SIZE

/-- Where an access goes on once the loop has come to its end. -/
def ElfProgramHeader.backed (there : ℕ → Bool) (segment : ElfProgramHeader) (x : ℕ) : Bool :=
  there x || segment.Counts x

theorem elfMap_goes (hp : segment.vaddr / 4096 + pgRndUp segment.memsz / 4096 ≤ USER_END)
    (hret : (elfMapSegment ⟨s, []⟩ pgd segment).2 = true) :
    (elfMapSegment ⟨s, []⟩ pgd segment).1.goes there = segment.backed there := by
  funext x
  unfold ElfState.goes ElfProgramHeader.backed
  congr 1
  rw [Bool.eq_iff_iff, List.any_eq_true]
  simp only [ElfProgramHeader.Counts, Bool.decide_and, Bool.and_eq_true, decide_eq_true_eq]
  have hn : pgRndUp segment.memsz / PAGE_SIZE = pgRndUp segment.memsz / 4096 := rfl
  constructor
  · rintro ⟨a, ha, hmaps⟩
    obtain ⟨i, hi, rfl⟩ := elfMap_log ha
    have hpage := @round_page segment.vaddr i (by omega)
    simp only [ElfAccess.maps, decide_eq_true_eq] at hmaps
    rw [hpage.1] at hmaps
    change (segment.vaddr + i * 4096) / 4096 = x / 4096 at hmaps
    rw [hpage.2] at hmaps
    change segment.vaddr / 4096 ≤ x / 4096 ∧ x / 4096 < segment.vaddr / 4096 + _
    omega
  · rintro ⟨h1, h2⟩
    change segment.vaddr / 4096 ≤ x / 4096 at h1
    change x / 4096 < segment.vaddr / 4096 + _ at h2
    have hi : x / 4096 - segment.vaddr / 4096 < pgRndUp segment.memsz / PAGE_SIZE := by omega
    have hpage := @round_page segment.vaddr (x / 4096 - segment.vaddr / 4096) (by omega)
    have hcame : (runLoop (elfMapRound pgd segment.vaddr) ⟨s, []⟩
        (x / 4096 - segment.vaddr / 4096)).2 = true := by
      by_contra hstop
      have hend := runLoop_stopped hi.le (Bool.eq_false_iff.2 hstop)
      unfold elfMapSegment at hret
      rw [hend] at hret
      exact hstop hret
    refine ⟨_, elfMap_reached hi hcame, ?_⟩
    simp only [ElfAccess.maps, decide_eq_true_eq]
    rw [hpage.1]
    change (_ : ℕ) / 4096 = x / 4096
    rw [hpage.2]
    omega

/-- A segment whose end does not wrap is mapped and cleared below the kernel; the read gets as
far as the file and the pages do. -/
theorem below_small (h : PgdInv s pgd) (ht : segment.type = ELF_PHEADER_LOAD)
    (hend : segment.vaddr + segment.memsz < VIRT_BASE) :
    BelowKernel (elfLoadSegment file there ⟨s, []⟩ pgd segment).1 ↔
      0 < pgRndUp segment.memsz ∧ ¬ HasTables s pgd segment ∨
      ¬GetsThere (segment.backed there) segment.vaddr (file segment.offset segment.filesz) ∧
        (ReadDone (segment.backed there) segment.vaddr (file segment.offset segment.filesz)
            segment.filesz →
          ¬GetsThere (segment.backed there) (u32 (segment.vaddr + segment.filesz))
            (segment.memsz - segment.filesz)) := by
  have hend' := hend
  simp only [VIRT_BASE] at hend'
  have hup := pgRndUp_small (n := segment.memsz) (by omega)
  have hn : pgRndUp segment.memsz / PAGE_SIZE = (segment.memsz + 4095) / 4096 := by
    rw [hup, Nat.mul_div_cancel _ (by norm_num)]
  have htaken : segment.Taken := ⟨ht, lt_of_le_of_lt (Nat.mod_le _ _) hend⟩
  have hmaps : ∀ a ∈ (elfMapSegment ⟨s, []⟩ pgd segment).1.log, a.Below := by
    intro a ha
    apply elfMap_below ?_ ha
    rw [hn]
    simp only [USER_END]
    omega
  have hpos : 0 < pgRndUp segment.memsz ↔ 0 < segment.memsz := by
    rw [hup]
    omega
  have htab : ¬ (0 < pgRndUp segment.memsz ∧ ¬ HasTables s pgd segment) ↔
      (elfMapSegment ⟨s, []⟩ pgd segment).2 = true := by
    rw [hpos]
    by_cases hm : 0 < segment.memsz
    · rw [← elfMap_done h hm hend]
      simp [hm]
    · have h0 : segment.memsz = 0 := by omega
      refine iff_of_true (fun hc => hm hc.1) ?_
      unfold elfMapSegment
      rw [hn, h0]
      rfl
  by_cases hret : (elfMapSegment ⟨s, []⟩ pgd segment).2 = true
  · have hgoes : _ = segment.backed there := elfMap_goes
      (by rw [hup, Nat.mul_div_cancel _ (by norm_num)]; simp only [USER_END]; omega) hret
    rw [elfLoad_done (by omega) htaken hret hgoes, or_iff_right (htab.2 hret)]
    exact and_iff_right hmaps
  · refine iff_of_true ?_ (Or.inl (by_contra fun hc => hret (htab.1 hc)))
    unfold BelowKernel
    rw [elfLoad_stuck htaken (Bool.eq_false_iff.2 hret)]
    exact hmaps

theorem map_below_of_reached {k : ℕ} (hv : segment.vaddr < 4294967296) (htaken : segment.Taken)
    (hk : k < pgRndUp segment.memsz / PAGE_SIZE)
    (hret : (runLoop (elfMapRound pgd segment.vaddr) ⟨s, []⟩ k).2 = true)
    (hbelow : BelowKernel (elfLoadSegment file there ⟨s, []⟩ pgd segment).1) :
    u32 (segment.vaddr + u32 (k * PAGE_SIZE)) < VIRT_BASE := by
  have hlog : .map (u32 (segment.vaddr + u32 (k * PAGE_SIZE))) ∈
      (elfMapSegment ⟨s, []⟩ pgd segment).1.log := elfMap_reached hk hret
  apply map_below.1
  cases hend : (elfMapSegment ⟨s, []⟩ pgd segment).2 with
  | true => exact ((elfLoad_done hv htaken hend rfl).1 hbelow).1 _ hlog
  | false =>
    apply hbelow
    rw [elfLoad_stuck htaken hend]
    exact hlog

/-- Pages counted, and an end that wraps: the loop gets to the kernel unless it is stuck. -/
theorem below_wraps (h : PgdInv s pgd) (hv : segment.vaddr < 4294967296)
    (hm : segment.memsz ≤ 0xFFFFF000) (htaken : segment.Taken)
    (hwrap : 4294967296 ≤ segment.vaddr + segment.memsz) :
    BelowKernel (elfLoadSegment file there ⟨s, []⟩ pgd segment).1 ↔ ¬ HasTables s pgd segment := by
  have hup := pgRndUp_small hm
  have hn : pgRndUp segment.memsz / PAGE_SIZE = (segment.memsz + 4095) / 4096 := by
    rw [hup, Nat.mul_div_cancel _ (by norm_num)]
  rcases Nat.lt_or_ge segment.vaddr VIRT_BASE with hlow | hhigh
  · simp only [VIRT_BASE] at hlow
    -- the rounds up to the kernel's first page
    have hlast : min 768 (pdeIndex (segment.vaddr + pgRndUp segment.memsz - PAGE_SIZE) + 1) =
        (segment.vaddr / 4096 + (786432 - segment.vaddr / 4096) - 1) / 1024 + 1 := by
      rw [pdeIndex_eq, hup]
      simp only [PAGE_SIZE]
      omega
    rw [hasTables_iff h (by omega) (by simp only [USER_END]; omega) hlast]
    cases hret : (runLoop (elfMapRound pgd segment.vaddr) ⟨s, []⟩
        (786432 - segment.vaddr / 4096)).2 with
    | true =>
      refine iff_of_false (fun hbelow => ?_) (not_not.2 rfl)
      have hva := map_below_of_reached hv htaken (by omega) hret hbelow
      simp only [VIRT_BASE, u32, PAGE_SIZE] at hva
      omega
    | false =>
      refine iff_of_true ?_ Bool.false_ne_true
      have hstop : elfMapSegment ⟨s, []⟩ pgd segment =
          runLoop (elfMapRound pgd segment.vaddr) ⟨s, []⟩ (786432 - segment.vaddr / 4096) := by
        unfold elfMapSegment
        rw [hn]
        exact runLoop_stopped (by omega) hret
      unfold BelowKernel
      rw [elfLoad_stuck htaken (by rw [hstop, hret]), hstop]
      intro a ha
      apply elfMap_below ?_ ha
      simp only [USER_END]
      omega
  · simp only [VIRT_BASE] at hhigh
    have htab : HasTables s pgd segment := by
      unfold HasTables NoFirstTable Supplied
      rw [pdeIndex_eq]
      constructor
      · rintro ⟨h0, -⟩
        omega
      · unfold missingTables
        rw [remaining_none (fun i h1 h2 => absurd h2 (by omega))]
        exact Nat.zero_le _
    refine iff_of_false (fun hbelow => ?_) (not_not.2 htab)
    have hva := map_below_of_reached hv htaken (show 0 < _ by omega) rfl hbelow
    simp only [VIRT_BASE, u32, PAGE_SIZE] at hva
    omega

theorem pgRndUp_wraps {n : ℕ} (h : 0xFFFFF000 < n) (h' : n < 4294967296) : pgRndUp n = 0 := by
  simp only [pgRndUp, roundUp, u32, PAGE_SIZE]
  omega

/-- No pages counted, and an end that wraps: a complete read is followed by stores up to the
last address. -/
theorem below_uncounted (hv : segment.vaddr < 4294967296)
    (hm : 0xFFFFF000 < segment.memsz) (hm' : segment.memsz < 4294967296) (htaken : segment.Taken) :
    BelowKernel (elfLoadSegment file there ⟨s, []⟩ pgd segment).1 ↔
      ¬GetsThere (segment.backed there) segment.vaddr (file segment.offset segment.filesz) ∧
      (ReadDone (segment.backed there) segment.vaddr (file segment.offset segment.filesz)
          segment.filesz →
        ¬GetsThere (segment.backed there) (u32 (segment.vaddr + segment.filesz))
          (segment.memsz - segment.filesz)) := by
  have hup := pgRndUp_wraps hm hm'
  have hloop : elfMapSegment ⟨s, []⟩ pgd segment = (⟨s, []⟩, true) := by
    unfold elfMapSegment
    rw [hup]
    rfl
  have hgoes : (elfMapSegment ⟨s, []⟩ pgd segment).1.goes there = segment.backed there := by
    rw [hloop]
    funext x
    have hnone : segment.Counts x = false := by
      unfold ElfProgramHeader.Counts
      rw [hup]
      simp
    simp [ElfState.goes, ElfProgramHeader.backed, hnone]
  rw [elfLoad_done hv htaken (by rw [hloop]) hgoes, hloop]
  simp

/-- The loader keeps below the kernel if and only if it skips the segment; or is stuck at a
page table before it gets that far; or neither the read nor, behind a read that is complete, the
stores of zeros get to the kernel, for a segment whose end does not wrap or of which no page is
counted. -/
theorem below_kernel_iff (h : PgdInv s pgd) (hv : segment.vaddr < 4294967296)
    (hm : segment.memsz < 4294967296) :
    BelowKernel (elfLoadSegment file there ⟨s, []⟩ pgd segment).1 ↔
      segment.type ≠ ELF_PHEADER_LOAD ∨
      VIRT_BASE ≤ u32 (segment.vaddr + segment.memsz) ∨
      (0 < pgRndUp segment.memsz ∧ ¬ HasTables s pgd segment) ∨
      ((segment.vaddr + segment.memsz < VIRT_BASE ∨ pgRndUp segment.memsz = 0) ∧
        ¬GetsThere (segment.backed there) segment.vaddr (file segment.offset segment.filesz) ∧
        (ReadDone (segment.backed there) segment.vaddr (file segment.offset segment.filesz)
            segment.filesz →
          ¬GetsThere (segment.backed there) (u32 (segment.vaddr + segment.filesz))
            (segment.memsz - segment.filesz))) := by
  by_cases htaken : segment.Taken
  · rw [or_iff_right (not_not.2 htaken.1), or_iff_right (not_le.2 htaken.2)]
    by_cases hend : segment.vaddr + segment.memsz < VIRT_BASE
    · rw [below_small h htaken.1 hend]
      simp [hend]
    · have hwrap : 4294967296 ≤ segment.vaddr + segment.memsz := by
        have hlt := htaken.2
        simp only [u32, VIRT_BASE] at hlt hend
        omega
      rcases Nat.lt_or_ge 0xFFFFF000 segment.memsz with hbig | hsmall
      · rw [below_uncounted hv hbig hm htaken]
        simp [hend, pgRndUp_wraps hbig hm]
      · have hpos : 0 < pgRndUp segment.memsz := by
          rw [pgRndUp_small hsmall]
          omega
        rw [below_wraps h hv hsmall htaken hwrap]
        simp [hend, hpos, hpos.ne']
  · refine iff_of_true ?_ ?_
    · rw [elfLoad_skips htaken]
      intro a ha
      simp at ha
    · by_contra hc
      rw [not_or, not_or, not_not, not_le] at hc
      exact htaken ⟨hc.1, hc.2.1⟩

end Segment

/-- A page for a program at 4 MiB, with a page of the file. -/
theorem below_kernel_aligned : ∃ s, BelowKernel (elfLoadSegment (fun _ n => n) (fun _ => false)
    ⟨s, []⟩ 0xC0200000 ⟨ELF_PHEADER_LOAD, 0x1000, 0x400000, 0x1000, 0x1000⟩).1 := by
  obtain ⟨s, hinv, -⟩ := newSpace_block (pmmInit 0x400000 0)
  refine ⟨s, (below_kernel_iff hinv (by decide) (by decide)).2
    (Or.inr (Or.inr (Or.inr ⟨Or.inl (by decide), ?_, ?_⟩)))⟩
  · rintro ⟨-, hfar, -⟩
    exact absurd hfar (by decide)
  · rintro - ⟨hpos, -⟩
    exact absurd hpos (by decide)

/-- The size in the file is larger than the size in memory: its second page is read over the
first page of the kernel. -/
theorem below_kernel_filesz : ∃ s, PgdInv s 0xC0200000 ∧
    ¬ BelowKernel (elfLoadSegment (fun _ n => n) (fun x => VIRT_BASE ≤ x) ⟨s, []⟩ 0xC0200000
      ⟨ELF_PHEADER_LOAD, 0x1000, 0xBFFFF000, 0x2000, 1⟩).1 := by
  obtain ⟨s, hinv, hpool, -⟩ := newSpace_block (pmmInit 0x400000 0)
  refine ⟨s, hinv, fun hbelow => ?_⟩
  rw [below_small hinv rfl (by decide)] at hbelow
  rcases hbelow with ⟨-, hno⟩ | hread
  · exact hno (hasTables_one hpool (by decide) (by decide))
  · refine hread.1 ⟨by decide, by decide, fun x h1 h2 => ?_⟩
    change 0xBFFFF000 ≤ x at h1
    simp only [VIRT_BASE] at h2
    simp only [ElfProgramHeader.backed, ElfProgramHeader.Counts, VIRT_BASE, Bool.or_eq_true,
      decide_eq_true_eq]
    have hcount : pgRndUp 1 / PAGE_SIZE = 1 := by decide
    rw [hcount]
    simp only [PAGE_SIZE]
    omega

end DepthOS
