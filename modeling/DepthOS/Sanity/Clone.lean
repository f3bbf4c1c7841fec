import DepthOS.Sanity.Paging
import DepthOS.Spec.Clone

/-! One page of `clone_pgd`: the entry it stores, the two copies through the
buffer, and what the three writes leave alone. -/

namespace DepthOS

open Lib

theorem makeEntry_testBit (frame : ℕ) (w u : Bool) {i : ℕ} (hi : i < 12) :
    (makeEntry frame w u).testBit i = (9 + 2 * w.toNat + 4 * u.toNat).testBit i := by
  have hmod : makeEntry frame w u % 2 ^ 12 = 9 + 2 * w.toNat + 4 * u.toNat := by
    have hw : w.toNat ≤ 1 := Bool.toNat_le w
    have hu : u.toNat ≤ 1 := Bool.toNat_le u
    rw [makeEntry_eq]
    omega
  rw [← hmod, Nat.testBit_mod_two_pow, decide_eq_true hi, Bool.true_and]

theorem makeEntry_flags (frame : ℕ) (w u : Bool) :
    (makeEntry frame w u).testBit 0 = true ∧ (makeEntry frame w u).testBit 1 = w ∧
    (makeEntry frame w u).testBit 2 = u ∧ (makeEntry frame w u).testBit 7 = false := by
  rw [makeEntry_testBit _ _ _ (by norm_num), makeEntry_testBit _ _ _ (by norm_num),
    makeEntry_testBit _ _ _ (by norm_num), makeEntry_testBit _ _ _ (by norm_num)]
  cases w <;> cases u <;> decide

section Pages

variable {m : Mem} {a b j v : ℕ} {src : ℕ → Byte}

theorem blit_page (ha : a % 4096 = 0) (hb : b % 4096 = 0) (hab : a ≠ b) :
    SameOn m (blit m a src 4096) b 4096 := by
  apply sameOn_blit
  unfold Apart
  omega

theorem store_page (ha : a % 4096 = 0) (hb : b % 4096 = 0) (hab : a ≠ b) (hj : j < 1024) :
    SameOn m (store32 m (a + 4 * j) v) b 4096 := by
  apply sameOn_store32
  unfold Apart
  omega

theorem withTable_page {pgd i x : ℕ} {w u : Bool} (hp : KBlock pgd) (hb : KBlock b)
    (hi : i < 1024) (hx : x % 4096 = 0) (hxp : addrToPhys pgd ≠ x) (hxb : addrToPhys b ≠ x) :
    SameOn m (withTable m pgd i b w u) x 4096 :=
  (blit_page hb.phys.2.1 hx hxb).trans (store_page hp.phys.2.1 hx hxp hi)

end Pages

theorem translate_page {m : Mem} {P p : ℕ} (h0 : (pdeAt m P (p / 1024)).testBit 0 = true)
    (h7 : (pdeAt m P (p / 1024)).testBit 7 = false)
    (he : (load32 m (tableAt m P (p / 1024) + 4 * (p % 1024))).testBit 0 = true) :
    translate m P (p * 4096) =
      some (extractAddr (load32 m (tableAt m P (p / 1024) + 4 * (p % 1024)))) := by
  have hpde : pdeIndex (p * 4096) = p / 1024 := by
    rw [pdeIndex_eq, Nat.mul_div_cancel _ (by norm_num)]
  have hpte : pteIndex (p * 4096) = p % 1024 := by
    simp only [pteIndex, PAGE_SIZE, PAGE_TABLE_SIZE]
    rw [Nat.mul_div_cancel _ (by norm_num)]
  have hoff : p * 4096 % PAGE_SIZE = 0 := Nat.mul_mod_left _ _
  unfold pdeAt at h0 h7
  unfold tableAt pdeAt at he ⊢
  simp only [translate, hpde, hpte, hoff, h0, h7, he, Nat.add_zero, Bool.true_eq_false,
    Bool.false_eq_true, if_false]

/-- Memory after one page has been cloned: the entry in the table `T`, and the page
`src` copied to the buffer `B` and to the new frame `A`. -/
def clonedMem (m : Mem) (T j pte B src A : ℕ) : Mem :=
  blit (blit (store32 m (T + 4 * j) pte) B (fun k => m (src + k)) 4096) A
    (fun k => m (src + k)) 4096

section Cloned

variable {m : Mem} {T j pte B src A b : ℕ}

theorem clonedMem_other (hT : T % 4096 = 0) (hB : B % 4096 = 0) (hA : A % 4096 = 0)
    (hb : b % 4096 = 0) (hbT : T ≠ b) (hbB : B ≠ b) (hbA : A ≠ b) (hj : j < 1024) :
    SameOn m (clonedMem m T j pte B src A) b 4096 :=
  ((store_page hT hb hbT hj).trans (blit_page hB hb hbB)).trans (blit_page hA hb hbA)

theorem clonedMem_table (hT : T % 4096 = 0) (hB : B % 4096 = 0) (hA : A % 4096 = 0)
    (hTB : B ≠ T) (hTA : A ≠ T) {i : ℕ} (hi : i < 1024) :
    load32 (clonedMem m T j pte B src A) (T + 4 * i) =
      if i = j then pte % 4294967296 else load32 m (T + 4 * i) := by
  have h : SameOn (store32 m (T + 4 * j) pte) (clonedMem m T j pte B src A) T 4096 :=
    (blit_page hB hT hTB).trans (blit_page hA hT hTA)
  rw [h.load32 (show 4 * i + 4 ≤ 4096 by omega)]
  split_ifs with hij
  · rw [hij, load32_store32]
  · exact load32_store32_of_apart (apart_of_index (Ne.symm hij))

theorem clonedMem_frame {k : ℕ} (hk : k < 4096) :
    clonedMem m T j pte B src A (A + k) = m (src + k) :=
  blit_inside hk

end Cloned

theorem clone_va {i j : ℕ} (hi : i < 768) (hj : j < 1024) :
    u32 (u32 (i * 1024 * 4096) + u32 (j * 4096)) = (i * 1024 + j) * 4096 := by
  simp only [u32]
  omega

theorem extract_frame {a : ℕ} (ha : a < 1048576) {w u : Bool} :
    extractAddr (makeEntry (a * 4096) w u) = a * 4096 := by
  rw [extractAddr_makeEntry]
  omega

theorem clone_index {i j : ℕ} (hj : j < 1024) :
    (i * 1024 + j) / 1024 = i ∧ (i * 1024 + j) % 1024 = j := by
  omega

section Entry

variable {s : Machine} {original pgd buffer saved table i j : ℕ}

theorem clone_getPage (hO : KBlock original) (hi : i < 768) (hj : j < 1024)
    (ht : tableAt s.mem (addrToPhys original) i ≠ 0)
    (hw : tableAt s.mem (addrToPhys original) i < 0x40000000) :
    getPage s original ((i * 1024 + j) * 4096) ≠ 0 ∧
    kload s (getPage s original ((i * 1024 + j) * 4096)) =
      load32 s.mem (tableAt s.mem (addrToPhys original) i + 4 * j) := by
  have hp : (i * 1024 + j) * 4096 / 4096 = i * 1024 + j := Nat.mul_div_cancel _ (by norm_num)
  obtain ⟨hdiv, hmod⟩ := clone_index (i := i) hj
  have hlt : (i * 1024 + j) * 4096 < 4294967296 := by
    clear ht hw
    omega
  obtain ⟨h0, h1⟩ := getPage_spec (s := s) hO hlt
    (by rw [hp, hdiv]; exact hw)
  rw [hp, hdiv] at h0
  rw [hp, hdiv, hmod] at h1
  have hne : getPage s original ((i * 1024 + j) * 4096) ≠ 0 := fun hz => ht (h0.1 hz)
  exact ⟨hne, by rw [kload, h1 hne]⟩

theorem cloneEntry_empty (hO : KBlock original) (hi : i < 768) (hj : j < 1024)
    (ht : tableAt s.mem (addrToPhys original) i ≠ 0)
    (hw : tableAt s.mem (addrToPhys original) i < 0x40000000)
    (he : load32 s.mem (tableAt s.mem (addrToPhys original) i + 4 * j) = 0) :
    cloneEntry original pgd buffer saved table i s j = some s := by
  obtain ⟨hne, hk⟩ := clone_getPage hO hi hj ht hw
  simp only [cloneEntry, clone_va hi hj, if_neg hne, hk, he, if_true]

/-- What one round relies on: the page is mapped in the original, the new table
hangs in the new directory, and the pages written are none of those read. -/
structure CloneReady (s : Machine) (original pgd buffer table i j e : ℕ) : Prop where
  block_original : KBlock original
  block_pgd : KBlock pgd
  block_buffer : KBlock buffer
  block_table : KBlock table
  dir : i < 768
  slot : j < 1024
  old_table : tableAt s.mem (addrToPhys original) i ≠ 0
  old_window : tableAt s.mem (addrToPhys original) i < 0x40000000
  old_present : (pdeAt s.mem (addrToPhys original) i).testBit 0 = true
  old_small : (pdeAt s.mem (addrToPhys original) i).testBit 7 = false
  entry : load32 s.mem (tableAt s.mem (addrToPhys original) i + 4 * j) = e
  present : e.testBit 0 = true
  new_pde : ∃ w u, pdeAt s.mem (addrToPhys pgd) i = makePde (addrToPhys table) w u
  table_ne : addrToPhys table ≠ addrToPhys original ∧ addrToPhys table ≠ extractAddr e ∧
    addrToPhys table ≠ tableAt s.mem (addrToPhys original) i ∧
    addrToPhys table ≠ addrToPhys pgd ∧ addrToPhys table ≠ addrToPhys buffer
  buffer_ne : addrToPhys buffer ≠ addrToPhys pgd

theorem clone_copyIn {e : ℕ} (h : CloneReady s original pgd buffer table i j e) (bm : Bitmap)
    (pte : ℕ) :
    copyIn (activatePgd (kstore { s with pmmBitmap := bm } (table + 4 * j) pte) original) buffer
      ((i * 1024 + j) * 4096) =
    some { s with
      mem := blit (store32 s.mem (addrToPhys table + 4 * j) pte) (addrToPhys buffer)
        (fun k => s.mem (extractAddr e + k)) 4096
      pmmBitmap := bm, cr3 := addrToPhys original, currentPgd := original } := by
  obtain ⟨hTO, hTe, hTt, -, -⟩ := h.table_ne
  have hj := h.slot
  have hdir := h.dir
  have hT := h.block_table.phys.2.1
  have hO := h.block_original.phys.2.1
  have hb0 : buffer ≠ 0 := by
    have := h.block_buffer.above
    omega
  have hst : addrToPhys (table + 4 * j) = addrToPhys table + 4 * j := h.block_table.phys_add (by omega)
  obtain ⟨hdiv, hmod⟩ := clone_index (i := i) hj
  have hpde : pdeAt (store32 s.mem (addrToPhys table + 4 * j) pte) (addrToPhys original) i =
      pdeAt s.mem (addrToPhys original) i := (store_page hT hO hTO hj).load32 (by omega)
  have htab : tableAt (store32 s.mem (addrToPhys table + 4 * j) pte) (addrToPhys original) i =
      tableAt s.mem (addrToPhys original) i := by rw [tableAt, hpde, tableAt]
  have hent : load32 (store32 s.mem (addrToPhys table + 4 * j) pte)
      (tableAt s.mem (addrToPhys original) i + 4 * j) = e := by
    rw [← h.entry]
    exact (store_page hT (tableAt_aligned _ _ _) hTt hj).load32 (by omega)
  have htr : translate (store32 s.mem (addrToPhys table + 4 * j) pte) (addrToPhys original)
      ((i * 1024 + j) * 4096) = some (extractAddr e) := by
    rw [translate_page, hdiv, hmod, htab, hent]
    · rw [hdiv, hpde]
      exact h.old_present
    · rw [hdiv, hpde]
      exact h.old_small
    · rw [hdiv, hmod, htab, hent]
      exact h.present
  have hsrc : ∀ k < 4096, store32 s.mem (addrToPhys table + 4 * j) pte (extractAddr e + k) =
      s.mem (extractAddr e + k) := store_page hT (extractAddr_aligned e) hTe hj
  unfold copyIn activatePgd kstore
  dsimp only
  rw [if_neg hb0, hst, htr, Option.map_some, blit_congr hsrc]

theorem clone_copyOut {e a : ℕ} {w u : Bool} (h : CloneReady s original pgd buffer table i j e)
    (ha : a < 1048576) (bm : Bitmap) :
    copyOut (activatePgd { s with
      mem := blit (store32 s.mem (addrToPhys table + 4 * j) (makePte (a * 4096) w u))
        (addrToPhys buffer) (fun k => s.mem (extractAddr e + k)) 4096
      pmmBitmap := bm, cr3 := addrToPhys original, currentPgd := original } pgd)
      ((i * 1024 + j) * 4096) buffer =
    some { s with
      mem := clonedMem s.mem (addrToPhys table) j (makePte (a * 4096) w u) (addrToPhys buffer)
        (extractAddr e) (a * 4096)
      pmmBitmap := bm, cr3 := addrToPhys pgd, currentPgd := pgd } := by
  obtain ⟨-, -, -, hTP, hTB⟩ := h.table_ne
  obtain ⟨w', u', hnew⟩ := h.new_pde
  have hj := h.slot
  have hdir := h.dir
  have hT := h.block_table.phys.2.1
  have hP := h.block_pgd.phys.2.1
  have hB := h.block_buffer.phys.2.1
  obtain ⟨hdiv, hmod⟩ := clone_index (i := i) hj
  generalize hpte : makePte (a * 4096) w u = pte
  have hpde : pdeAt (blit (store32 s.mem (addrToPhys table + 4 * j) pte) (addrToPhys buffer)
      (fun k => s.mem (extractAddr e + k)) 4096) (addrToPhys pgd) i =
      makePde (addrToPhys table) w' u' := by
    rw [← hnew]
    exact ((store_page hT hP hTP hj).trans (blit_page hB hP h.buffer_ne)).load32 (by omega)
  have htab : tableAt (blit (store32 s.mem (addrToPhys table + 4 * j) pte) (addrToPhys buffer)
      (fun k => s.mem (extractAddr e + k)) 4096) (addrToPhys pgd) i = addrToPhys table := by
    rw [tableAt, hpde, extract_block h.block_table]
  have hent : load32 (blit (store32 s.mem (addrToPhys table + 4 * j) pte) (addrToPhys buffer)
      (fun k => s.mem (extractAddr e + k)) 4096) (addrToPhys table + 4 * j) = pte := by
    rw [(blit_page hB hT hTB.symm).load32 (by omega), load32_store32, ← hpte]
    exact Nat.mod_eq_of_lt (makeEntry_lt _ _ _)
  have htr : translate (blit (store32 s.mem (addrToPhys table + 4 * j) pte) (addrToPhys buffer)
      (fun k => s.mem (extractAddr e + k)) 4096) (addrToPhys pgd) ((i * 1024 + j) * 4096) =
      some (a * 4096) := by
    rw [translate_page, hdiv, hmod, htab, hent, ← hpte, makePte, extract_frame ha]
    · rw [hdiv, hpde]
      exact (makeEntry_flags _ _ _).1
    · rw [hdiv, hpde]
      exact (makeEntry_flags _ _ _).2.2.2
    · rw [hdiv, hmod, htab, hent, ← hpte]
      exact (makeEntry_flags _ _ _).1
  have hbuf : ∀ k < 4096, blit (store32 s.mem (addrToPhys table + 4 * j) pte) (addrToPhys buffer)
      (fun k => s.mem (extractAddr e + k)) 4096 (addrToPhys buffer + k) =
      s.mem (extractAddr e + k) := fun k hk => blit_inside hk
  unfold copyOut activatePgd
  dsimp only
  rw [htr, Option.map_some, blit_congr hbuf, clonedMem]

theorem cloneEntry_mapped {e a : ℕ} (h : CloneReady s original pgd buffer table i j e)
    (ha : (pmmAlloc s.pmmBitmap 1).1 = a * 4096) (hlt : a < 1048576) :
    cloneEntry original pgd buffer saved table i s j =
    some (activatePgd { s with
      mem := clonedMem s.mem (addrToPhys table) j (makePte (a * 4096) (getbit e 1) (getbit e 2))
        (addrToPhys buffer) (extractAddr e) (a * 4096)
      pmmBitmap := (pmmAlloc s.pmmBitmap 1).2 } saved) := by
  obtain ⟨hne, hk⟩ := clone_getPage h.block_original h.dir h.slot h.old_table h.old_window
  have he0 : e ≠ 0 := by
    rintro rfl
    simpa using h.present
  rw [h.entry] at hk
  simp only [cloneEntry, clone_va h.dir h.slot, if_neg hne, hk, if_neg he0, ha]
  rw [clone_copyIn h, Option.bind_some, clone_copyOut h hlt, Option.map_some]
  unfold activatePgd
  dsimp only

end Entry

end DepthOS
