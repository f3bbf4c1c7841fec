import DepthOS.Proofs.SpaceRuns
import DepthOS.Spec.UserMemory

/-! The frames of the mapped pages. Each belongs to one page of one directory, it is taken in
the bitmap and holds no part of the page tables; so what is written to one page is seen
at no other. -/

namespace DepthOS

open Lib

/-- The byte behind `va` by the tables of the directory at `P`. -/
def byteAt (m : Mem) (P va : ℕ) : Option Byte :=
  if entryAt m P (va / 4096) = 0 then none
  else some (m (extractAddr (entryAt m P (va / 4096)) + va % 4096))

/-- A present entry, whose frame is taken and holds no table. -/
structure FrameOk (s : Machine) (pgds : List ℕ) (e : ℕ) : Prop where
  present : e.testBit 0 = true
  clear : Clear s pgds (extractAddr e)
  taken : s.pmmBitmap.bit (extractAddr e / 4096) = true

/-- No mapped page has the frame at `x`. -/
def Unmapped (m : Mem) (pgds : List ℕ) (x : ℕ) : Prop :=
  ∀ d ∈ pgds, ∀ p < USER_END, entryAt m (addrToPhys d) p ≠ 0 →
    extractAddr (entryAt m (addrToPhys d) p) ≠ x

/-- The address spaces are apart, and so are the frames they map. -/
structure OwnFrames (s : Machine) (pgds : List ℕ) : Prop where
  spaces : SpacesInv s pgds
  absent : ∀ d ∈ pgds, ∀ i < 768, tableAt s.mem (addrToPhys d) i = 0 →
    pdeAt s.mem (addrToPhys d) i = 0
  frame : ∀ d ∈ pgds, ∀ p < USER_END, entryAt s.mem (addrToPhys d) p ≠ 0 →
    FrameOk s pgds (entryAt s.mem (addrToPhys d) p)
  inj : ∀ d ∈ pgds, ∀ e ∈ pgds, ∀ p < USER_END, ∀ q < USER_END,
    entryAt s.mem (addrToPhys d) p ≠ 0 → entryAt s.mem (addrToPhys e) q ≠ 0 →
    extractAddr (entryAt s.mem (addrToPhys d) p) = extractAddr (entryAt s.mem (addrToPhys e) q) →
    d = e ∧ p = q

section Byte

variable {s s' : Machine} {pgds : List ℕ} {d va : ℕ}

theorem user_page_lt (hva : va < VIRT_BASE) :
    va / 4096 < USER_END ∧ va / 4096 < 1048576 ∧ va / 4096 / 1024 < 768 := by
  simp only [VIRT_BASE, USER_END] at *
  omega

theorem OwnFrames.translate (h : OwnFrames s pgds) (hd : d ∈ pgds) (hva : va < VIRT_BASE) :
    translate s.mem (addrToPhys d) va =
      if entryAt s.mem (addrToPhys d) (va / 4096) = 0 then none
      else some (extractAddr (entryAt s.mem (addrToPhys d) (va / 4096)) + va % 4096) := by
  obtain ⟨hp, -, hi⟩ := user_page_lt hva
  have hpte : pteIndex va = va / 4096 % 1024 := rfl
  have hpde : load32 s.mem (addrToPhys d + 4 * pdeIndex va) =
      pdeAt s.mem (addrToPhys d) (va / 4096 / 1024) := by
    rw [pdeIndex_eq, pdeAt]
  unfold DepthOS.translate
  rw [hpde, hpte]
  dsimp only
  by_cases ht : tableAt s.mem (addrToPhys d) (va / 4096 / 1024) = 0
  · rw [h.absent d hd _ hi ht, if_pos (Nat.zero_testBit 0)]
    exact (if_pos (if_pos ht)).symm
  · obtain ⟨h0, h7⟩ := h.spaces.present d hd _ hi ht
    have hent : entryAt s.mem (addrToPhys d) (va / 4096) =
        load32 s.mem (extractAddr (pdeAt s.mem (addrToPhys d) (va / 4096 / 1024)) +
          4 * (va / 4096 % 1024)) := if_neg ht
    rw [← hent, h0, h7]
    simp only [Bool.true_eq_false, Bool.false_eq_true, if_false]
    by_cases he : entryAt s.mem (addrToPhys d) (va / 4096) = 0
    · rw [he, if_pos (Nat.zero_testBit 0), if_pos rfl]
    · rw [(h.frame d hd _ hp he).present, if_neg (by simp), if_neg he]

theorem OwnFrames.userByte (h : OwnFrames s pgds) (hd : d ∈ pgds) (hva : va < VIRT_BASE) :
    userByte s.mem d va = byteAt s.mem (addrToPhys d) va := by
  unfold DepthOS.userByte byteAt
  rw [h.translate hd hva]
  split_ifs
  · rfl
  · rfl

theorem byteAt_none {m : Mem} {P : ℕ} : byteAt m P va = none ↔ entryAt m P (va / 4096) = 0 := by
  unfold byteAt
  split_ifs with h
  · simp [h]
  · simp [h]

theorem byteAt_congr {m m' : Mem} {P : ℕ}
    (he : entryAt m' P (va / 4096) = entryAt m P (va / 4096))
    (hs : entryAt m P (va / 4096) ≠ 0 →
      SameOn m m' (extractAddr (entryAt m P (va / 4096))) 4096) :
    byteAt m' P va = byteAt m P va := by
  unfold byteAt
  rw [he]
  split_ifs with h0
  · rfl
  · rw [hs h0 (va % 4096) (Nat.mod_lt _ (by norm_num))]

theorem byteAt_entry {m : Mem} {P e : ℕ} (he : entryAt m P (va / 4096) = e) (h0 : e ≠ 0) :
    byteAt m P va = some (m (extractAddr e + va % 4096)) := by
  unfold byteAt
  rw [he, if_neg h0]

end Byte

section Keep

variable {s s' : Machine} {pgds : List ℕ} {d x : ℕ}

theorem OwnFrames.unmapped (h : OwnFrames s pgds) (hfree : s.pmmBitmap.bit x = false) :
    Unmapped s.mem pgds (x * 4096) := by
  intro d hd p hp h0 he
  have ht := (h.frame d hd p hp h0).taken
  rw [he, Nat.mul_div_cancel _ (by norm_num), hfree] at ht
  exact Bool.false_ne_true ht

theorem OwnFrames.congr (h : OwnFrames s pgds) (hsame : ∀ d ∈ pgds, DirSame s s' d)
    (hpool : s'.pool = s.pool)
    (hbits : ∀ f, s.pmmBitmap.bit f = true → s'.pmmBitmap.bit f = true) : OwnFrames s' pgds := by
  have hent : ∀ d ∈ pgds, ∀ p < USER_END, entryAt s'.mem (addrToPhys d) p =
      entryAt s.mem (addrToPhys d) p := fun d hd p hp =>
    (hsame d hd).entry p (hp.trans (by norm_num))
  refine ⟨h.spaces.congr hsame hpool, fun d hd i hi h0 => ?_, fun d hd p hp h0 => ?_,
    fun d hd e he p hp q hq h0 h1 heq => ?_⟩
  · rw [(hsame d hd).table (by omega)] at h0
    rw [(hsame d hd).pde i (by omega)]
    exact h.absent d hd i hi h0
  · rw [hent d hd p hp] at h0 ⊢
    obtain ⟨h1, h2, h3⟩ := h.frame d hd p hp h0
    exact ⟨h1, h2.congr hsame hpool, hbits _ h3⟩
  · rw [hent d hd p hp] at h0 heq
    rw [hent e he q hq] at h1 heq
    exact h.inj d hd e he p hp q hq h0 h1 heq

theorem dirSame_write {off n : ℕ} {src : ℕ → Byte} (h : SpacesInv s pgds) (hx : x % 4096 = 0)
    (ht : ¬ TablePage s.mem pgds x) (hn : off + n ≤ 4096) (hd : d ∈ pgds) :
    DirSame s { s with mem := blit s.mem (x + off) src n } d := by
  have hpage : ∀ y, y % 4096 = 0 → y ≠ x → SameOn s.mem (blit s.mem (x + off) src n) y 4096 := by
    intro y hy hyx
    apply sameOn_blit
    unfold Apart
    omega
  refine dirSame_of_pages (hpage _ (h.dir d hd).block.phys.2.1 fun he => ?_) fun i hi h0 =>
    hpage _ (tableAt_aligned _ _ _) fun he => ?_
  · exact ht ⟨d, hd, Or.inl he.symm⟩
  · exact ht ⟨d, hd, Or.inr ⟨i, hi, h0, he.symm⟩⟩

theorem OwnFrames.write {p : ℕ} (off n : ℕ) (src : ℕ → Byte) (h : OwnFrames s pgds) (hd : d ∈ pgds)
    (hp : p < USER_END) (h0 : entryAt s.mem (addrToPhys d) p ≠ 0) (hn : off + n ≤ 4096)
    (hs' : s' = { s with
      mem := blit s.mem (extractAddr (entryAt s.mem (addrToPhys d) p) + off) src n }) :
    (∀ e ∈ pgds, DirSame s s' e) ∧ OwnFrames s' pgds ∧ ∀ e ∈ pgds, ∀ va < VIRT_BASE,
      byteAt s'.mem (addrToPhys e) va =
        if e = d ∧ va / 4096 = p ∧ off ≤ va % 4096 ∧ va % 4096 < off + n
        then some (src (va % 4096 - off)) else byteAt s.mem (addrToPhys e) va := by
  have hok := h.frame d hd p hp h0
  have hal := extractAddr_aligned (entryAt s.mem (addrToPhys d) p)
  have hsame : ∀ e ∈ pgds, DirSame s s' e := fun e he => by
    rw [hs']
    exact dirSame_write h.spaces hal hok.clear.table hn he
  refine ⟨hsame, h.congr hsame (by rw [hs']) (by rw [hs']; exact fun _ hf => hf),
    fun e he va hva => ?_⟩
  obtain ⟨hq, hq', -⟩ := user_page_lt hva
  have hent := (hsame e he).entry _ hq'
  have hmem : s'.mem = blit s.mem (extractAddr (entryAt s.mem (addrToPhys d) p) + off) src n := by
    rw [hs']
  by_cases hhere : e = d ∧ va / 4096 = p
  · obtain ⟨rfl, rfl⟩ := hhere
    rw [byteAt_entry hent h0, byteAt_entry rfl h0, hmem]
    by_cases hin : off ≤ va % 4096 ∧ va % 4096 < off + n
    · rw [if_pos ⟨rfl, rfl, hin⟩]
      have hsplit : extractAddr (entryAt s.mem (addrToPhys e) (va / 4096)) + va % 4096 =
          extractAddr (entryAt s.mem (addrToPhys e) (va / 4096)) + off + (va % 4096 - off) := by
        omega
      rw [hsplit, blit_inside (by omega)]
    · rw [if_neg fun hc => hin hc.2.2, blit_other (by omega)]
  · rw [if_neg fun hc => hhere ⟨hc.1, hc.2.1⟩]
    refine byteAt_congr hent fun hq0 => ?_
    have hne : extractAddr (entryAt s.mem (addrToPhys e) (va / 4096)) ≠
        extractAddr (entryAt s.mem (addrToPhys d) p) := fun heq =>
      hhere (h.inj e he d hd _ hq p hp hq0 h0 heq)
    have hal' := extractAddr_aligned (entryAt s.mem (addrToPhys e) (va / 4096))
    rw [hmem]
    apply sameOn_blit
    unfold Apart
    omega

end Keep

section Map

variable {s s' : Machine} {pgds : List ℕ} {d p x : ℕ} {user : Bool}

theorem OwnFrames.absent_step (h : OwnFrames s pgds) (hd : d ∈ pgds) (hs : DirStep s s' d) {e i : ℕ}
    (he : e ∈ pgds) (hi : i < 768) (h0 : tableAt s'.mem (addrToPhys e) i = 0) :
    pdeAt s'.mem (addrToPhys e) i = 0 := by
  by_cases hed : e = d
  · subst hed
    rcases hs.table i (by omega) with ht | ⟨b, hb, -, w, u, ht⟩
    · rw [tableAt, ht] at h0
      rw [ht]
      exact h.absent e he i hi h0
    · rw [tableAt, ht, extract_block ((h.spaces.dir e he).pool_block b hb)] at h0
      exact absurd h0 ((h.spaces.dir e he).pool_block b hb).phys.2.2.1
  · have hsame := hs.other h.spaces hd he hed
    rw [hsame.table (by omega)] at h0
    rw [hsame.pde i (by omega)]
    exact h.absent e he i hi h0

theorem DirStep.same_clear (hs : DirStep s s' d) (hd : d ∈ pgds) {y : ℕ} (hy : y % 4096 = 0)
    (hc : Clear s pgds y) : SameOn s.mem s'.mem y 4096 := by
  refine hs.same y hy (fun hyd => ?_) (fun i hi h0 hyt => ?_) hc.pool
  · exact hc.table ⟨d, hd, Or.inl hyd⟩
  · exact hc.table ⟨d, hd, Or.inr ⟨i, by omega, h0, hyt⟩⟩

theorem OwnFrames.entry_mapped (h : OwnFrames s pgds) (hd : d ∈ pgds) (hs : DirStep s s' d)
    {v : ℕ} (hent : ∀ q < 1048576, entryAt s'.mem (addrToPhys d) q =
      if q = p then v else entryAt s.mem (addrToPhys d) q) {e q : ℕ} (he : e ∈ pgds)
    (hq : q < USER_END) : entryAt s'.mem (addrToPhys e) q =
      if e = d ∧ q = p then v else entryAt s.mem (addrToPhys e) q := by
  have hq' : q < 1048576 := hq.trans (by norm_num)
  by_cases hed : e = d
  · subst hed
    rw [hent q hq']
    simp
  · rw [(hs.other h.spaces hd he hed).entry q hq', if_neg fun hc => hed hc.1]

/-- A directory with one entry changed, to a frame nobody has. -/
theorem OwnFrames.mapped (h : OwnFrames s pgds) (hd : d ∈ pgds) (hs : DirStep s s' d)
    (hal : x % 4096 = 0) (hlt : x < 4294967296)
    (hent : ∀ q < 1048576, entryAt s'.mem (addrToPhys d) q =
      if q = p then makePte x true user else entryAt s.mem (addrToPhys d) q)
    (hclear : Clear s pgds x) (htaken : s.pmmBitmap.bit (x / 4096) = true)
    (hnew : Unmapped s.mem pgds x) :
    OwnFrames s' pgds ∧ ∀ e ∈ pgds, ∀ va < VIRT_BASE,
      byteAt s'.mem (addrToPhys e) va = if e = d ∧ va / 4096 = p
        then some (s.mem (x + va % 4096)) else byteAt s.mem (addrToPhys e) va := by
  have hxe : extractAddr (makePte x true user) = x := by
    rw [makePte, extractAddr_makeEntry]
    omega
  have hpte : makePte x true user ≠ 0 := makeEntry_ne_zero _ _ _
  have hent' : ∀ e ∈ pgds, ∀ q < USER_END, entryAt s'.mem (addrToPhys e) q =
      if e = d ∧ q = p then makePte x true user else entryAt s.mem (addrToPhys e) q :=
    fun e he q hq => h.entry_mapped hd hs hent he hq
  have hclear' : ∀ {y}, Clear s pgds y → Clear s' pgds y := fun hy => hs.clear h.spaces hd hy
  have hbits : s'.pmmBitmap = s.pmmBitmap := hs.bitmap
  refine ⟨⟨h.spaces.step hd hs, fun e he i hi h0 => h.absent_step hd hs he hi h0,
    fun e he q hq h0 => ?_, fun e he e' he' q hq q' hq' h0 h0' heq => ?_⟩, fun e he va hva => ?_⟩
  · rw [hent' e he q hq] at h0 ⊢
    split_ifs at h0 ⊢ with hhere
    · refine ⟨(makeEntry_flags _ _ _).1, ?_, ?_⟩
      · rw [hxe]
        exact hclear' hclear
      · rw [hxe, hbits]
        exact htaken
    · obtain ⟨h1, h2, h3⟩ := h.frame e he q hq h0
      exact ⟨h1, hclear' h2, by rw [hbits]; exact h3⟩
  · rw [hent' e he q hq] at h0 heq
    rw [hent' e' he' q' hq'] at h0' heq
    by_cases h1 : e = d ∧ q = p
    · by_cases h2 : e' = d ∧ q' = p
      · exact ⟨h1.1.trans h2.1.symm, h1.2.trans h2.2.symm⟩
      · rw [if_pos h1, if_neg h2, hxe] at heq
        rw [if_neg h2] at h0'
        exact absurd heq.symm (hnew e' he' q' hq' h0')
    · rw [if_neg h1] at h0 heq
      by_cases h2 : e' = d ∧ q' = p
      · rw [if_pos h2, hxe] at heq
        exact absurd heq (hnew e he q hq h0)
      · rw [if_neg h2] at h0' heq
        exact h.inj e he e' he' q hq q' hq' h0 h0' heq
  · obtain ⟨hq, -, -⟩ := user_page_lt hva
    have he' := hent' e he _ hq
    by_cases hhere : e = d ∧ va / 4096 = p
    · rw [if_pos hhere] at he' ⊢
      rw [byteAt_entry he' hpte, hxe,
        hs.same_clear hd hal hclear _ (Nat.mod_lt _ (by norm_num))]
    · rw [if_neg hhere] at he' ⊢
      refine byteAt_congr he' fun hq0 => hs.same_clear hd (extractAddr_aligned _) ?_
      exact (h.frame e he _ hq hq0).clear

end Map

theorem FramesClear.of_clear {s s' : Machine} {pgds pgds' : List ℕ} (h : FramesClear s pgds)
    (hbm : s'.pmmBitmap = s.pmmBitmap) (hc : ∀ x, Clear s pgds x → Clear s' pgds' x) :
    FramesClear s' pgds' := by
  refine ⟨by rw [hbm]; exact h.size_le, fun f hlt hfree => ?_⟩
  rw [hbm] at hlt hfree
  exact hc _ (h.clear f hlt hfree)

section Add

variable {s s' : Machine} {pgds : List ℕ} {o pgd : ℕ}

theorem NewDir.not_mem (hn : NewDir s s' pgds o pgd) (h : SpacesInv s pgds) : pgd ∉ pgds :=
  fun hm => (h.dir pgd hm).pool_pgd pgd hn.block rfl

/-- The frames of a new directory: taken from those that were free. -/
structure NewFrames (s s' : Machine) (pgds : List ℕ) (pgd : ℕ) : Prop where
  absent : ∀ i < 768, tableAt s'.mem (addrToPhys pgd) i = 0 → pdeAt s'.mem (addrToPhys pgd) i = 0
  taken : ∀ f, s.pmmBitmap.bit f = true → s'.pmmBitmap.bit f = true
  frame : ∀ p < USER_END, entryAt s'.mem (addrToPhys pgd) p ≠ 0 →
    (entryAt s'.mem (addrToPhys pgd) p).testBit 0 = true ∧
    ∃ f, extractAddr (entryAt s'.mem (addrToPhys pgd) p) = f * 4096 ∧
      f < s.pmmBitmap.size ∧ s.pmmBitmap.bit f = false ∧ s'.pmmBitmap.bit f = true
  inj : ∀ p < USER_END, ∀ q < USER_END, entryAt s'.mem (addrToPhys pgd) p ≠ 0 →
    entryAt s'.mem (addrToPhys pgd) q ≠ 0 → extractAddr (entryAt s'.mem (addrToPhys pgd) p) =
      extractAddr (entryAt s'.mem (addrToPhys pgd) q) → p = q

theorem OwnFrames.add (h : OwnFrames s pgds) (hf : FramesClear s pgds) (ho : o ∈ pgds)
    (hn : NewDir s s' pgds o pgd) (hnew : NewFrames s s' pgds pgd) :
    OwnFrames s' (pgd :: pgds) := by
  have hent : ∀ d ∈ pgds, ∀ p < USER_END, entryAt s'.mem (addrToPhys d) p =
      entryAt s.mem (addrToPhys d) p := fun d hd p hp =>
    (hn.same d hd).entry p (hp.trans (by norm_num))
  -- a new frame was free, an old one was not
  have hapart : ∀ p < USER_END, entryAt s'.mem (addrToPhys pgd) p ≠ 0 → ∀ d ∈ pgds, ∀ q < USER_END,
      entryAt s.mem (addrToPhys d) q ≠ 0 → extractAddr (entryAt s.mem (addrToPhys d) q) ≠
        extractAddr (entryAt s'.mem (addrToPhys pgd) p) := by
    intro p hp hp0 d hd q hq hq0
    obtain ⟨-, f, hx, -, hfree, -⟩ := hnew.frame p hp hp0
    rw [hx]
    exact h.unmapped hfree d hd q hq hq0
  refine ⟨h.spaces.add ho hn, fun d hd i hi h0 => ?_, fun d hd p hp h0 => ?_,
    fun d hd e he p hp q hq h0 h1 heq => ?_⟩
  · rcases List.mem_cons.1 hd with rfl | hd
    · exact hnew.absent i hi h0
    · rw [(hn.same d hd).table (by omega)] at h0
      rw [(hn.same d hd).pde i (by omega)]
      exact h.absent d hd i hi h0
  · rcases List.mem_cons.1 hd with rfl | hd
    · obtain ⟨hpres, f, hx, hlt, hfree, htaken⟩ := hnew.frame p hp h0
      refine ⟨hpres, ?_, ?_⟩
      · rw [hx]
        exact hn.clear h.spaces ho (hf.clear f hlt hfree)
      · rw [hx, Nat.mul_div_cancel _ (by norm_num)]
        exact htaken
    · rw [hent d hd p hp] at h0 ⊢
      obtain ⟨hpres, hclear, htaken⟩ := h.frame d hd p hp h0
      exact ⟨hpres, hn.clear h.spaces ho hclear, hnew.taken _ htaken⟩
  · rcases List.mem_cons.1 hd with rfl | hd' <;> rcases List.mem_cons.1 he with rfl | he'
    · exact ⟨rfl, hnew.inj p hp q hq h0 h1 heq⟩
    · rw [hent e he' q hq] at h1 heq
      exact absurd heq.symm (hapart p hp h0 e he' q hq h1)
    · rw [hent d hd' p hp] at h0 heq
      exact absurd heq (hapart q hq h1 d hd' p hp h0)
    · rw [hent d hd' p hp] at h0 heq
      rw [hent e he' q hq] at h1 heq
      exact h.inj d hd' e he' p hp q hq h0 h1 heq

theorem NewDir.byteAt_old (hn : NewDir s s' pgds o pgd) (h : OwnFrames s pgds)
    (hpages : ∀ x, x % 4096 = 0 → Clear s pgds x →
      (∀ f < s.pmmBitmap.size, s.pmmBitmap.bit f = false → f * 4096 ≠ x) →
        SameOn s.mem s'.mem x 4096)
    {d va : ℕ} (hd : d ∈ pgds) (hva : va < VIRT_BASE) :
    byteAt s'.mem (addrToPhys d) va = byteAt s.mem (addrToPhys d) va := by
  obtain ⟨hp, hlt, -⟩ := user_page_lt hva
  refine byteAt_congr ((hn.same d hd).entry _ hlt) fun h0 => ?_
  have hok := h.frame d hd _ hp h0
  exact hpages _ (extractAddr_aligned _) hok.clear fun f _ hfree he =>
    h.unmapped hfree d hd _ hp h0 he.symm

/-- `create_pgd`: nothing is mapped. -/
theorem PgdCreated.own (h : OwnFrames s pgds) (hf : FramesClear s pgds)
    (hk : s.kernelPgd ∈ pgds) (hc : PgdCreated s s' pgd) :
    OwnFrames s' (pgd :: pgds) ∧ FramesClear s' (pgd :: pgds) ∧ pgd ∉ pgds ∧
    (∀ va < VIRT_BASE, byteAt s'.mem (addrToPhys pgd) va = none) ∧
    ∀ d ∈ pgds, ∀ va < VIRT_BASE,
      byteAt s'.mem (addrToPhys d) va = byteAt s.mem (addrToPhys d) va := by
  have hn := hc.newDir h.spaces hk
  have hempty : ∀ p < USER_END, entryAt s'.mem (addrToPhys pgd) p = 0 := fun p hp =>
    if_pos (hc.table_low (by simp only [USER_END] at hp; omega))
  refine ⟨h.add hf hk hn ⟨fun i hi _ => ?_, fun f hb => ?_, fun p hp h0 => ?_,
    fun p hp _ _ h0 => ?_⟩, hf.of_clear hc.bitmap fun x hx => hn.clear h.spaces hk hx,
    hn.not_mem h.spaces, fun va hva => byteAt_none.2 (hempty _ (user_page_lt hva).1),
    fun d hd va hva => hn.byteAt_old h (fun x hx hclear _ => ?_) hd hva⟩
  · rw [hc.pde i (by omega), if_pos hi]
  · rw [hc.bitmap]
    exact hb
  · exact absurd (hempty p hp) h0
  · exact absurd (hempty p hp) h0
  · exact hc.same x hx (hclear.pool pgd hn.block)

/-- Memory for a fork: a block of the heap for the directory, the buffer and each table, and
a frame for each page. -/
structure ForkFits (s : Machine) (original : ℕ) : Prop where
  heap : remaining (fun i => pdeAt s.mem (addrToPhys original) i ≠ 0) 768 0 + 2 ≤ s.pool.length
  frames : remaining (fun p => entryAt s.mem (addrToPhys original) p ≠ 0) USER_END 0 ≤
    freeFrames s.pmmBitmap

theorem OwnFrames.cloneOk (h : OwnFrames s pgds) (hf : FramesClear s pgds) (ho : o ∈ pgds)
    (hcr3 : s.cr3 < 4294967296) (hfit : ForkFits s o) : CloneOk s o := by
  have hD := h.spaces.dir o ho
  have htab : ∀ i < 768, pdeAt s.mem (addrToPhys o) i ≠ 0 → tableAt s.mem (addrToPhys o) i ≠ 0 :=
    fun i hi hp h0 => hp (h.absent o ho i hi h0)
  refine ⟨hD.block, fun i hi hp => ?_, fun p hp h0 => (h.frame o ho p hp h0).present,
    hD.pool_block, hD.pool_nodup, fun b hb => ?_, hf.size_le,
    fun f hlt hfree => ⟨?_, fun b hb => (hf.clear f hlt hfree).pool b hb⟩, hfit.heap, hfit.frames,
    hcr3⟩
  · obtain ⟨h0, h7⟩ := h.spaces.present o ho i hi (htab i hi hp)
    exact ⟨h0, h7, htab i hi hp, hD.window i (by omega)⟩
  · rintro (he | ⟨i, hi, -, he⟩ | ⟨p, hp, h0, he⟩)
    · exact hD.pool_pgd b hb he
    · exact hD.pool_table b hb i (by omega) he
    · exact (h.frame o ho p hp h0).clear.pool b hb he.symm
  · rintro (he | ⟨i, hi, hp, he⟩ | ⟨p, hp, h0, he⟩)
    · exact (hf.clear f hlt hfree).table ⟨o, ho, Or.inl he⟩
    · exact (hf.clear f hlt hfree).table ⟨o, ho, Or.inr ⟨i, by omega, htab i hi hp, he⟩⟩
    · exact h.unmapped hfree o ho p hp h0 he.symm

/-- `clone_pgd`: the same bytes, in frames of its own. -/
theorem CloneInv.own {buffer : ℕ} {T F : ℕ → ℕ} {s1 : Machine} (h : OwnFrames s pgds)
    (hf : FramesClear s pgds) (ho : o ∈ pgds) (hok : CloneOk s o)
    (hc : CloneInv s o pgd buffer 768 USER_END T F s1)
    (hs' : s' = { s1 with pool := buffer :: s1.pool }) :
    OwnFrames s' (pgd :: pgds) ∧ FramesClear s' (pgd :: pgds) ∧ pgd ∉ pgds ∧
    (∀ va < VIRT_BASE, byteAt s'.mem (addrToPhys pgd) va = byteAt s.mem (addrToPhys o) va) ∧
    ∀ d ∈ pgds, ∀ va < VIRT_BASE,
      byteAt s'.mem (addrToPhys d) va = byteAt s.mem (addrToPhys d) va := by
  have hn : NewDir s s' pgds o pgd := by
    rw [hs']
    exact hc.newDir hok h.spaces hf ho
  have hmem : s'.mem = s1.mem := by rw [hs']
  have hbm : s'.pmmBitmap = s1.pmmBitmap := by rw [hs']
  have hent : ∀ p < USER_END, entryAt s'.mem (addrToPhys pgd) p =
      if entryAt s.mem (addrToPhys o) p = 0 then 0
      else makePte (F p * 4096) (getbit (entryAt s.mem (addrToPhys o) p) 1)
        (getbit (entryAt s.mem (addrToPhys o) p) 2) := fun p hp => by
    rw [hmem]
    exact hc.entry_new hok hp
  have hframe : ∀ p < USER_END, entryAt s'.mem (addrToPhys pgd) p ≠ 0 →
      entryAt s.mem (addrToPhys o) p ≠ 0 ∧
      extractAddr (entryAt s'.mem (addrToPhys pgd) p) = F p * 4096 := by
    intro p hp h0
    rw [hent p hp] at h0 ⊢
    by_cases hz : entryAt s.mem (addrToPhys o) p = 0
    · exact absurd (if_pos hz) h0
    · have hlt := (hc.frames p hp hz).1
      rw [if_neg hz, makePte, extract_frame (hlt.trans_le hok.size_le)]
      exact ⟨hz, rfl⟩
  have hbits : ∀ f, s'.pmmBitmap.bit f = false → s.pmmBitmap.bit f = false := fun f hb =>
    hc.bits f (by rw [← hbm]; exact hb)
  refine ⟨h.add hf ho hn ⟨fun i hi h0 => ?_, fun f hb => ?_, fun p hp h0 => ?_,
    fun p hp q hq h0 h1 heq => ?_⟩, ⟨?_, fun f hlt hb => ?_⟩, hn.not_mem h.spaces, fun va hva => ?_,
    fun d hd va hva => hn.byteAt_old h (fun x hx hclear hfree => ?_) hd hva⟩
  · rw [hmem] at h0 ⊢
    rw [hc.table_new hok hi] at h0
    rw [hc.pde i (by omega)]
    by_cases hp : pdeAt s.mem (addrToPhys o) i = 0
    · rw [if_neg fun hcc => hcc.2 hp, hp]
    · rw [if_neg hp] at h0
      exact absurd h0 (hok.pool_block _ (hc.tables i hi hp).1).phys.2.2.1
  · by_contra hno
    rw [hbits f (by simpa using hno)] at hb
    exact Bool.false_ne_true hb
  · obtain ⟨hz, hx⟩ := hframe p hp h0
    obtain ⟨hlt, hfree, htaken⟩ := hc.frames p hp hz
    refine ⟨?_, F p, hx, hlt, hfree, by rw [hbm]; exact htaken⟩
    rw [hent p hp, if_neg hz]
    exact (makeEntry_flags _ _ _).1
  · obtain ⟨hz, hx⟩ := hframe p hp h0
    obtain ⟨hz', hx'⟩ := hframe q hq h1
    by_contra hpq
    exact hc.frames_inj p hp q hq hz hz' hpq (by omega)
  · rw [hbm, hc.size]
    exact hf.size_le
  · rw [hbm, hc.size] at hlt
    exact hn.clear h.spaces ho (hf.clear f hlt (hbits f hb))
  · obtain ⟨hp, -, -⟩ := user_page_lt hva
    by_cases h0 : entryAt s'.mem (addrToPhys pgd) (va / 4096) = 0
    · rw [byteAt_none.2 h0, eq_comm, byteAt_none]
      by_contra hz
      rw [hent _ hp, if_neg hz] at h0
      exact makeEntry_ne_zero _ _ _ h0
    · obtain ⟨hz, hx⟩ := hframe _ hp h0
      rw [byteAt_entry rfl h0, byteAt_entry rfl hz, hx, hmem,
        hc.content _ hp hz _ (Nat.mod_lt _ (by norm_num))]
  · rw [hmem]
    exact hc.old x ⟨hx, fun b hb he => hclear.pool b hb he.symm, hfree⟩

end Add

section Loop

variable {s : Machine} {pgds : List ℕ} {d page a n : ℕ} {user overwrite : Bool}

/-- The frames `a + j` have been taken for the pages `page + j` of the directory `d`. -/
structure FramesTaken (s : Machine) (pgds : List ℕ) (a n : ℕ) : Prop where
  le : a + n ≤ 1048576
  clear : ∀ j < n, Clear s pgds ((a + j) * 4096)
  taken : ∀ j < n, s.pmmBitmap.bit (a + j) = true
  unmapped : ∀ j < n, Unmapped s.mem pgds ((a + j) * 4096)

/-- The first `i` of them have been mapped, except where an old page stays. -/
structure PagesMapped (s : Machine) (pgds : List ℕ) (d page a n : ℕ) (overwrite : Bool) (i : ℕ)
    (s' : Machine) : Prop where
  own : OwnFrames s' pgds
  bitmap : s'.pmmBitmap = s.pmmBitmap
  cr3 : s'.cr3 = s.cr3
  kernelPgd : s'.kernelPgd = s.kernelPgd
  clear : ∀ x, Clear s pgds x → Clear s' pgds x
  unmapped : ∀ j, i ≤ j → j < n → Unmapped s'.mem pgds ((a + j) * 4096)
  pages : ∀ x, x % 4096 = 0 → Clear s pgds x → SameOn s.mem s'.mem x 4096
  bytes : ∀ e ∈ pgds, ∀ va < VIRT_BASE, byteAt s'.mem (addrToPhys e) va =
    if e = d ∧ (page ≤ va / 4096 ∧ va / 4096 < page + i) ∧
      (overwrite = true ∨ byteAt s.mem (addrToPhys e) va = none)
    then some (s.mem ((a + (va / 4096 - page)) * 4096 + va % 4096))
    else byteAt s.mem (addrToPhys e) va

theorem PagesMapped.init (h : OwnFrames s pgds) (hf : FramesTaken s pgds a n) :
    PagesMapped s pgds d page a n overwrite 0 s := by
  refine ⟨h, rfl, rfl, rfl, fun _ hx => hx, fun j _ hj => hf.unmapped j hj,
    fun _ _ _ => SameOn.refl _ _ _, fun e _ va _ => ?_⟩
  rw [if_neg fun hc => ?_]
  omega

theorem PagesMapped.skip {i : ℕ} {s' : Machine} (h : PagesMapped s pgds d page a n overwrite i s')
    (how : overwrite = false) (h0 : entryAt s'.mem (addrToPhys d) (page + i) ≠ 0) :
    PagesMapped s pgds d page a n overwrite (i + 1) s' := by
  refine { h with
    unmapped := fun j h1 h2 => h.unmapped j (by omega) h2
    bytes := fun e he va hva => ?_ }
  have hold := h.bytes e he va hva
  rw [hold]
  by_cases hhere : e = d ∧ va / 4096 = page + i
  · obtain ⟨rfl, hpage⟩ := hhere
    have hbyte : byteAt s'.mem (addrToPhys e) va ≠ none := by
      rw [Ne, byteAt_none, hpage]
      exact h0
    rw [hold, if_neg fun hc => absurd hc.2.1.2 (by omega)] at hbyte
    rw [if_neg fun hc => absurd hc.2.1.2 (by omega), if_neg]
    rintro ⟨-, -, hc | hc⟩
    · rw [how] at hc
      exact Bool.false_ne_true hc
    · exact hbyte hc
  · refine if_congr ?_ rfl rfl
    refine and_congr_right fun hed => and_congr_left fun _ => ?_
    have hne : va / 4096 ≠ page + i := fun hc => hhere ⟨hed, hc⟩
    omega

theorem PagesMapped.step {i : ℕ} {s' s'' : Machine}
    (h : PagesMapped s pgds d page a n overwrite i s') (hf : FramesTaken s pgds a n)
    (hd : d ∈ pgds) (hi : i < n) (hp : page + i < USER_END)
    (h0 : overwrite = true ∨ entryAt s'.mem (addrToPhys d) (page + i) = 0) {va phys : ℕ}
    (hva : va / 4096 = page + i) (hphys : phys = (a + i) * 4096)
    (hm : mapPage s' d va phys user = some s'') :
    PagesMapped s pgds d page a n overwrite (i + 1) s'' := by
  obtain ⟨hstep, hent⟩ := mapPage_step (h.own.spaces.dir d hd) (by rw [hva]; exact hp) hm
  have hle := hf.le
  have hfr := hf.clear i hi
  have hclear := h.clear _ hfr
  have hun := h.unmapped i (Nat.le_refl i) hi
  rw [hva, hphys] at hent
  obtain ⟨hown, hbytes⟩ := h.own.mapped hd hstep (x := (a + i) * 4096) (by omega) (by omega) hent
    hclear (by rw [Nat.mul_div_cancel _ (by norm_num), h.bitmap]; exact hf.taken i hi) hun
  have hpages : ∀ x, x % 4096 = 0 → Clear s pgds x → SameOn s'.mem s''.mem x 4096 := by
    intro x hx hc
    have hc' := h.clear x hc
    refine hstep.same x hx (fun hxd => ?_) (fun i hi h0 hxt => ?_) hc'.pool
    · exact hc'.table ⟨d, hd, Or.inl hxd⟩
    · exact hc'.table ⟨d, hd, Or.inr ⟨i, by omega, h0, hxt⟩⟩
  refine ⟨hown, hstep.bitmap.trans h.bitmap, hstep.cr3.trans h.cr3,
    hstep.kernelPgd.trans h.kernelPgd, fun x hx => hstep.clear h.own.spaces hd (h.clear x hx),
    fun j h1 h2 e he q hq hq0 => ?_,
    fun x hx hc => (h.pages x hx hc).trans (hpages x hx hc), fun e he va' hva' => ?_⟩
  · by_cases hhere : e = d ∧ q = page + i
    · obtain ⟨rfl, rfl⟩ := hhere
      rw [hent _ (hq.trans (by norm_num)), if_pos rfl, makePte, extractAddr_makeEntry]
      omega
    · have hsame : entryAt s''.mem (addrToPhys e) q = entryAt s'.mem (addrToPhys e) q := by
        by_cases hed : e = d
        · subst hed
          rw [hent q (hq.trans (by norm_num)), if_neg fun hc => hhere ⟨rfl, hc⟩]
        · exact (hstep.other h.own.spaces hd he hed).entry q (hq.trans (by norm_num))
      rw [hsame] at hq0 ⊢
      exact h.unmapped j (by omega) h2 e he q hq hq0
  · rw [hbytes e he va' hva']
    by_cases hhere : e = d ∧ va' / 4096 = page + i
    · obtain ⟨rfl, hpage⟩ := hhere
      have hold := h.bytes e he va' hva'
      rw [if_neg fun hc => absurd hc.2.1.2 (by omega)] at hold
      have hcond : overwrite = true ∨ byteAt s.mem (addrToPhys e) va' = none := by
        rw [← hold, byteAt_none, hpage]
        exact h0
      rw [if_pos ⟨rfl, hpage⟩, if_pos ⟨rfl, ⟨by omega, by omega⟩, hcond⟩, hpage,
        Nat.add_sub_cancel_left, h.pages _ (by omega) hfr _ (Nat.mod_lt _ (by norm_num))]
    · rw [if_neg hhere, h.bytes e he va' hva']
      refine if_congr ?_ rfl rfl
      refine and_congr_right fun hed => and_congr_left fun _ => ?_
      have hne : va' / 4096 ≠ page + i := fun hc => hhere ⟨hed, hc⟩
      omega

end Loop

end DepthOS
