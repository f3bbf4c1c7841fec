import DepthOS.Proofs.Elf
import DepthOS.Proofs.OpenFile
import DepthOS.Proofs.PrivateMemory
import DepthOS.Spec.ElfImage

/-! A program in memory. Loading it is a run of the events that the private memories are about:
an address space is made, pages are mapped in it and bytes stored. So the program has the image
of its file to itself, and nothing else has changed. -/

namespace DepthOS

open Lib

/-! The image that a file describes. -/

/-- The file as it stands on the disk. -/
def Ext2File.bytes (f : Ext2File) : Mem := fileByte f.fs f.cached

/-- A read for `n` bytes at `pos` gets them all. -/
def Ext2File.ReadsWhole (f : Ext2File) (pos n : ℕ) : Prop :=
  ext2ReadLen f.fs f.cached.sizeLo pos n = n

def elfSegments (f : Ext2File) : List ElfProgramHeader :=
  (List.range (elfHeader f.bytes).pheaderNum).map fun i =>
    elfProgramHeader f.bytes ((elfHeader f.bytes).pheaderOffset + 32 * i)

/-- The pages that are mapped for a segment. -/
def ElfProgramHeader.pages (segment : ElfProgramHeader) : ℕ :=
  if segment.type = ELF_PHEADER_LOAD then pgRndUp segment.memsz / PAGE_SIZE else 0

/-- The byte that a segment has at an address: of the file, and zero behind that. -/
def ElfProgramHeader.byte (f : Ext2File) (segment : ElfProgramHeader) (va : ℕ) : Option Byte :=
  if segment.type = ELF_PHEADER_LOAD ∧ segment.vaddr ≤ va ∧ va < segment.vaddr + segment.memsz then
    some (if va - segment.vaddr < segment.filesz then
      f.bytes (segment.offset + (va - segment.vaddr)) else 0)
  else none

/-- Where segments overlap, the last has the byte. -/
def imageByte (f : Ext2File) (segments : List ElfProgramHeader) (va : ℕ) : Option Byte :=
  segments.foldl (fun b segment => (segment.byte f va).or b) none

/-- The address lies in a page that is mapped for a segment. -/
def InImage (segments : List ElfProgramHeader) (va : ℕ) : Prop :=
  ∃ segment ∈ segments, InPages segment.vaddr segment.pages va

/-- What the segment asks for is below the kernel and in the file. -/
def ElfProgramHeader.Fits (f : Ext2File) (segment : ElfProgramHeader) : Prop :=
  segment.filesz ≤ segment.memsz ∧ segment.vaddr + segment.memsz < VIRT_BASE ∧
    (segment.filesz = 0 ∨ segment.offset + segment.filesz ≤ f.cached.sizeLo)

/-- A program below the kernel, whose headers can be read. -/
structure ElfProgram (f : Ext2File) : Prop where
  header : 52 ≤ f.cached.sizeLo
  magic : f.bytes 0 = 0x7f ∧ f.bytes 1 = 69 ∧ f.bytes 2 = 76 ∧ f.bytes 3 = 70
  entrySize : (elfHeader f.bytes).phentrySize = 32
  table : f.ReadsWhole (elfHeader f.bytes).pheaderOffset (32 * (elfHeader f.bytes).pheaderNum)
  fits : ∀ segment ∈ elfSegments f, segment.type = ELF_PHEADER_LOAD → segment.Fits f

section Reads

variable {f : Ext2File} {pos off n : ℕ}

theorem Ext2File.ReadsWhole.le (h : f.ReadsWhole pos n) (hn : 0 < n) :
    pos + n ≤ f.cached.sizeLo := by
  have hle := ext2ReadLen_le f.fs f.cached.sizeLo pos n
  rw [show ext2ReadLen f.fs f.cached.sizeLo pos n = n from h] at hle
  omega

theorem Ext2File.ReadsWhole.of_small (h : pos + n ≤ f.cached.sizeLo) (hn : n ≤ 1024) :
    f.ReadsWhole pos n := by
  have hbs := f.fs.blockSize_eq
  have hN := f.fs.four_idblocks
  have hpow := Nat.one_le_two_pow (n := f.fs.logBlockSize)
  have hmin : min n (f.cached.sizeLo - pos) = n := by omega
  unfold ReadsWhole
  rw [ext2ReadLen_eq_iff.2, hmin]
  rw [hmin]
  rintro ⟨-, heq⟩
  have hlarge : 2 * 1024 ≤ f.fs.idblocksCount * f.fs.blockSize :=
    Nat.mul_le_mul (by omega) (by omega)
  omega

theorem Ext2File.Sound.reads_bytes (hf : f.Sound) (hn : pos + n < 4294967296)
    (fresh : ℕ → Leftovers) (buf : Mem) :
    ∃ x, elfRead f fresh buf n pos = some x ∧ x.r = ext2ReadLen f.fs f.cached.sizeLo pos n ∧
      x.offset < 4294967296 ∧
      ∀ k < ext2ReadLen f.fs f.cached.sizeLo pos n, x.buf k = f.bytes (pos + k) := by
  have hbuf : (f.fs.refresh fresh).Buffered := hf.buffered
  have hdev : (f.fs.refresh fresh).dev.ReadsSucceed := hf.reads
  have hdata := readData_spec hdev (hf.allocated.refresh fresh) hn buf
  refine ⟨_, ext2Read_some hbuf f.cached buf n pos, ?_, Nat.mod_lt _ (by norm_num), fun k hk => ?_⟩
  · unfold readFile
    rw [hdata]
    rfl
  · unfold readFile
    rw [hdata]
    exact @blit_front buf _ _ (fun k => fileByte f.fs f.cached (pos + k)) hk

theorem Ext2File.Sound.reads_whole (hf : f.Sound) (h : f.ReadsWhole pos n) (hn : 0 < n)
    (fresh : ℕ → Leftovers) (buf : Mem) :
    ∃ x, elfRead f fresh buf n pos = some x ∧ x.r = n ∧ x.offset < 4294967296 ∧
      ∀ k < n, x.buf k = f.bytes (pos + k) := by
  have hS := hf.allocated.size_lt
  have hle := h.le hn
  have hread := hf.reads_bytes (by omega : pos + n < 4294967296) fresh buf
  rwa [show ext2ReadLen f.fs f.cached.sizeLo pos n = n from h] at hread

theorem elfSeek_set (hf : f.Sound) (h : off < f.cached.sizeLo) :
    elfSeek f pos off SEEK_SET = off := by
  have hS := hf.allocated.size_lt
  have hlast := s32_last hS
  have hoff : s32 off = off := s32_of_lt (by omega)
  unfold elfSeek ext2Seek genericFileSeekSize ext2InodeSize vfsSetpos
  rw [if_neg (by decide), if_neg (by decide), hoff, hlast, if_neg (by omega), if_neg (by omega)]
  exact sizeT_natCast (by omega)

theorem elfSeek_lt (h : pos < 4294967296) (whence : ℤ) :
    elfSeek f pos off whence < 4294967296 := by
  have hset : ∀ v max : ℤ, (vfsSetpos pos v max).pos < 4294967296 := by
    intro v max
    unfold vfsSetpos sizeT
    split_ifs
    · exact h
    · exact h
    · dsimp only
      omega
  unfold elfSeek ext2Seek genericFileSeekSize
  split_ifs
  · exact hset _ _
  · exact h
  · exact hset _ _
  · exact hset _ _

theorem Ext2File.Sound.elfRead_some (hf : f.Sound) (fresh : ℕ → Leftovers) (buf : Mem) (n pos : ℕ) :
    ∃ x, elfRead f fresh buf n pos = some x ∧ x.offset < 4294967296 :=
  have hbuf : (f.fs.refresh fresh).Buffered := hf.buffered
  ⟨_, ext2Read_some hbuf f.cached buf n pos, Nat.mod_lt _ (by norm_num)⟩

theorem elfSectionNames_some (hf : f.Sound) (fresh : ℕ → ℕ → Leftovers) (b sections : Mem)
    (h : ElfHeader) (hpos : pos < 4294967296) :
    ∃ pos', elfSectionNames f fresh b sections h pos = some pos' ∧ pos' < 4294967296 := by
  unfold elfSectionNames
  induction List.range h.sheaderNum generalizing pos with
  | nil => exact ⟨pos, rfl, hpos⟩
  | cons i rest ih =>
    obtain ⟨x, hx, hlt⟩ := hf.elfRead_some (fresh i) b 50 (elfSeek f pos
      (u32 (load32 sections (40 * h.shstrndx + 16) + load32 sections (40 * i))) SEEK_SET)
    rw [List.foldlM_cons]
    dsimp only
    rw [hx]
    exact ih hlt

end Reads

section Headers

variable {f : Ext2File} {m m' : Mem}

theorem load16_congr {a : ℕ} (h : ∀ x, a ≤ x → x < a + 2 → m' x = m x) :
    load16 m' a = load16 m a := by
  unfold load16
  rw [h a (by omega) (by omega), h (a + 1) (by omega) (by omega)]

theorem elfHeader_congr (h : ∀ k < 52, m' k = m k) : elfHeader m' = elfHeader m := by
  unfold elfHeader
  congr 1
  · exact load32_congr fun x _ hx => h x (by omega)
  · exact load32_congr fun x _ hx => h x (by omega)
  · exact load32_congr fun x _ hx => h x (by omega)
  · exact load16_congr fun x _ hx => h x (by omega)
  · exact load16_congr fun x _ hx => h x (by omega)
  · exact load16_congr fun x _ hx => h x (by omega)
  · exact load16_congr fun x _ hx => h x (by omega)
  · exact load16_congr fun x _ hx => h x (by omega)

theorem elfProgramHeader_congr {a off : ℕ} (h : ∀ k < 32, m' (a + k) = m (off + a + k)) :
    elfProgramHeader m' a = elfProgramHeader m (off + a) := by
  have hword : ∀ i ≤ 28, load32 m' (a + i) = load32 m (off + a + i) := by
    intro i hi
    unfold load32
    simp only [Nat.add_assoc a, Nat.add_assoc (off + a)]
    rw [h i (by omega), h (i + 1) (by omega), h (i + 2) (by omega), h (i + 3) (by omega)]
  unfold elfProgramHeader
  congr 1
  · exact hword 0 (by omega)
  · exact hword 4 (by omega)
  · exact hword 8 (by omega)
  · exact hword 16 (by omega)
  · exact hword 20 (by omega)

theorem elfProbef_program (hf : f.Sound) (hp : ElfProgram f) (fresh : ℕ → Leftovers) (buf : Mem)
    (pos : ℕ) : ∃ pos', elfProbef f fresh buf pos = some (true, pos') := by
  have hsize := hp.header
  obtain ⟨h0, h1, h2, h3⟩ := hp.magic
  have hseek : elfSeek f pos 0 SEEK_SET = 0 := elfSeek_set hf (by omega)
  obtain ⟨x, hx, hr, -, hbuf⟩ :=
    hf.reads_whole (Ext2File.ReadsWhole.of_small (by omega : 0 + 4 ≤ _) (by norm_num)) (by norm_num)
      fresh buf
  have e0 := (hbuf 0 (by norm_num)).trans h0
  have e1 := (hbuf 1 (by norm_num)).trans h1
  have e2 := (hbuf 2 (by norm_num)).trans h2
  have e3 := (hbuf 3 (by norm_num)).trans h3
  refine ⟨x.offset, ?_⟩
  unfold elfProbef
  rw [hseek, hx, Option.map_some, hr]
  simp [strcmp, e0, e1, e2, e3]

end Headers

section Writes

variable {s₀ s : ProcState} {t : UserSpaces} {m : Machine} {src : ℕ → Byte} {va n : ℕ}

/-- A run that has come this far, in step with the memories. -/
structure Goes (s₀ s : ProcState) (t : UserSpaces) : Prop where
  run : ∃ evs, Run (· = s₀) ProcStep evs s
  same : SameBytes s t

theorem Goes.refl (h : SameBytes s t) : Goes s s t := ⟨⟨[], Run.nil rfl⟩, h⟩

theorem Goes.step {e : ProcEvent} {s' : ProcState} (h : Goes s₀ s t) (hs : ProcStep s e s') :
    ∃ t', UserStep t e t' ∧ Goes s₀ s' t' := by
  obtain ⟨evs, hrun⟩ := h.run
  obtain ⟨t', hstep, hsame⟩ := same_step h.same hs
  exact ⟨t', hstep, ⟨evs ++ [e], hrun.snoc hs⟩, hsame⟩

theorem Goes.store {b : Byte} (h : Goes s₀ s t) (hva : va < VIRT_BASE)
    (hs : userStore s.machine va b = some m) : t.mem t.current va ≠ none ∧
      Goes s₀ { s with machine := m }
        (t.set t.current (Function.update (t.mem t.current) va (some b))) := by
  obtain ⟨x, hx, rfl⟩ := Option.map_eq_some_iff.1 hs
  obtain ⟨t', ⟨-, hne, rfl⟩, hgoes⟩ :=
    h.step (e := .store t.current va b) ⟨h.same.current, h.same.cr3, hva, x, hx, rfl⟩
  exact ⟨hne, hgoes⟩

/-- The memory after a write. -/
def written (src : ℕ → Byte) (va n : ℕ) (g : ℕ → Option Byte) : ℕ → Option Byte := fun x =>
  if va ≤ x ∧ x < va + n then some (src (x - va)) else g x

theorem written_zero (g : ℕ → Option Byte) : written src va 0 g = g := by
  funext x
  exact if_neg (by omega)

theorem written_succ (g : ℕ → Option Byte) :
    Function.update (written src va n g) (va + n) (some (src n)) = written src va (n + 1) g := by
  funext x
  unfold written
  by_cases hx : x = va + n
  · subst hx
    rw [Function.update_self, if_pos (by omega), Nat.add_sub_cancel_left]
  · rw [Function.update_of_ne hx]
    by_cases hin : va ≤ x ∧ x < va + n
    · rw [if_pos hin, if_pos (by omega)]
    · rw [if_neg hin, if_neg (by omega)]

theorem set_self (t : UserSpaces) : t.set t.current (t.mem t.current) = t := by
  unfold UserSpaces.set
  rw [Function.update_eq_self]

theorem set_set (t : UserSpaces) (d : ℕ) (g g' : ℕ → Option Byte) :
    (t.set d g).set d g' = t.set d g' := by
  unfold UserSpaces.set
  dsimp only
  rw [Function.update_idem]

@[simp] theorem set_current (t : UserSpaces) (d : ℕ) (g : ℕ → Option Byte) :
    (t.set d g).current = t.current := rfl

@[simp] theorem set_mem (t : UserSpaces) (d : ℕ) (g : ℕ → Option Byte) : (t.set d g).mem d = g :=
  Function.update_self _ _ _

theorem userWrite_keeps {s m : Machine} (h : userWrite src va n s = some m) :
    m.pmmBitmap = s.pmmBitmap ∧ m.pool = s.pool := by
  induction n generalizing m with
  | zero =>
    obtain rfl := Option.some.inj h
    exact ⟨rfl, rfl⟩
  | succ n ih =>
    obtain ⟨m₁, h₁, h₂⟩ := Option.bind_eq_some_iff.1 h
    obtain ⟨x, -, rfl⟩ := Option.map_eq_some_iff.1 h₂
    have hkeeps := ih h₁
    exact hkeeps

theorem Goes.write (h : Goes s₀ s t) (hva : va + n ≤ VIRT_BASE)
    (hw : userWrite src va n s.machine = some m) :
    (∀ x, va ≤ x → x < va + n → t.mem t.current x ≠ none) ∧
      Goes s₀ { s with machine := m } (t.set t.current (written src va n (t.mem t.current))) := by
  induction n generalizing m with
  | zero =>
    obtain rfl := Option.some.inj hw
    rw [written_zero, set_self]
    exact ⟨fun x h1 h2 => by omega, h⟩
  | succ n ih =>
    obtain ⟨m₁, h₁, h₂⟩ := Option.bind_eq_some_iff.1 hw
    obtain ⟨hpresent, hgoes⟩ := ih (by omega) h₁
    have haddr : u32 (va + n) = va + n := u32_of_lt (by simp only [VIRT_BASE] at hva; omega)
    rw [haddr] at h₂
    obtain ⟨hne, hnext⟩ := Goes.store hgoes (by omega) h₂
    dsimp only [UserSpaces.set] at hne
    rw [Function.update_self, written, if_neg (by omega)] at hne
    refine ⟨fun x h1 h2 => ?_, ?_⟩
    · by_cases hx : x = va + n
      · rwa [hx]
      · exact hpresent x h1 (by omega)
    · rw [set_current, set_set, set_mem, written_succ] at hnext
      exact hnext

end Writes

section Mapping

variable {s₀ s : ProcState} {t : UserSpaces} {st : ElfState} {vaddr n i : ℕ}
  {g g' g'' : ℕ → Option Byte}

/-- `n` pages from `page` on have been mapped where there was none. -/
structure Mapped (page n : ℕ) (g g' : ℕ → Option Byte) : Prop where
  kept : ∀ x b, g x = some b → g' x = some b
  none_iff : ∀ x, g' x = none ↔ g x = none ∧ ¬ (page ≤ x / 4096 ∧ x / 4096 < page + n)

theorem Mapped.zero {page : ℕ} : Mapped page 0 g g :=
  ⟨fun _ _ h => h, fun x => ⟨fun h => ⟨h, by omega⟩, fun h => h.1⟩⟩

theorem Mapped.succ {page : ℕ} (h : Mapped page n g g') (h' : Mapped (page + n) 1 g' g'') :
    Mapped page (n + 1) g g'' := by
  refine ⟨fun x b hb => h'.kept x b (h.kept x b hb), fun x => ?_⟩
  rw [h'.none_iff, h.none_iff]
  constructor
  · rintro ⟨⟨h0, h1⟩, h2⟩
    exact ⟨h0, by omega⟩
  · rintro ⟨h0, h1⟩
    exact ⟨⟨h0, by omega⟩, by omega⟩

theorem freeFrames_one {bm : Bitmap} (hs : bm.size ≤ 1048576) (h : 0 < freeFrames bm) :
    freeFrames bm = freeFrames (pmmAlloc bm 1).2 + 1 := by
  obtain ⟨a, hfit, -, hsize, -, hbit⟩ := pmmAlloc_spec bm (Nat.le_refl 1) hs (hasRun_of_free h)
  have hrun := hfit.run
  exact freeFrames_alloc (by have := hrun.1; omega) (hrun.2 a (Nat.le_refl a) (by omega)) hsize hbit

theorem Goes.map_round (h : Goes s₀ { s with machine := st.machine } t)
    (hp : vaddr / 4096 + i < USER_END) (hfree : 0 < freeFrames st.machine.pmmBitmap)
    (hret : (elfMapRound t.current vaddr st i).2 = true) :
    ∃ g, Goes s₀ { s with machine := (elfMapRound t.current vaddr st i).1.machine }
        (t.set t.current g) ∧ Mapped (vaddr / 4096 + i) 1 (t.mem t.current) g ∧
      freeFrames st.machine.pmmBitmap =
        freeFrames (elfMapRound t.current vaddr st i).1.machine.pmmBitmap + 1 := by
  have hok := h.same.ok
  have hd := h.same.current
  have hrun := hasRun_of_free hfree
  obtain ⟨hva, hpage⟩ := round_page hp
  unfold elfMapRound at hret ⊢
  dsimp only at hret ⊢
  rw [hva] at hret ⊢
  cases hm : mapAddr st.machine t.current (vaddr + i * 4096) 1 true false with
  | none => simp [hm] at hret
  | some r =>
    obtain ⟨ret, m⟩ := r
    dsimp only
    have hend : (vaddr + i * 4096) / 4096 + 1 ≤ USER_END := by omega
    obtain ⟨a, -, hmap⟩ := mapAddr_pages hok.own hok.frames hd (Nat.le_refl 1) hend hrun hm
    obtain ⟨t', ⟨-, old, rfl⟩, hgoes⟩ :=
      h.step (e := .alloc t.current (vaddr + i * 4096) 1 true false)
        ⟨hd, Nat.le_refl 1, hend, hrun, ret, m, hm, rfl⟩
    have hpages : ∀ x, InPages (vaddr + i * 4096) 1 x ↔
        vaddr / 4096 + i ≤ x / 4096 ∧ x / 4096 < vaddr / 4096 + i + 1 := by
      intro x
      rw [← hpage]
      rfl
    refine ⟨_, hgoes, ⟨fun x b hb => ?_, fun x => ?_⟩, ?_⟩
    · rw [if_neg fun hc => ?_, hb]
      rw [hb] at hc
      simp at hc
    · rw [← hpages x]
      by_cases hin : InPages (vaddr + i * 4096) 1 x
      · by_cases h0 : t.mem t.current x = none <;> simp [hin, h0]
      · simp [hin]
    · rw [hmap.bitmap]
      exact freeFrames_one hok.frames.size_le hfree

theorem Goes.map (h : Goes s₀ { s with machine := st.machine } t)
    (hp : vaddr / 4096 + n ≤ USER_END) (hfree : n ≤ freeFrames st.machine.pmmBitmap)
    (hret : (runLoop (elfMapRound t.current vaddr) st n).2 = true) :
    ∃ g, Goes s₀ { s with machine := (runLoop (elfMapRound t.current vaddr) st n).1.machine }
        (t.set t.current g) ∧ Mapped (vaddr / 4096) n (t.mem t.current) g ∧
      freeFrames st.machine.pmmBitmap = freeFrames
        (runLoop (elfMapRound t.current vaddr) st n).1.machine.pmmBitmap + n := by
  induction n with
  | zero => exact ⟨t.mem t.current, by rw [set_self]; exact h, Mapped.zero, rfl⟩
  | succ n ih =>
    rw [runLoop] at hret ⊢
    by_cases hr : (runLoop (elfMapRound t.current vaddr) st n).2 = true
    · rw [if_pos hr] at hret ⊢
      obtain ⟨g, hgoes, hmap, hfrees⟩ := ih (by omega) (by omega) hr
      have hleft : 0 < freeFrames
          (runLoop (elfMapRound t.current vaddr) st n).1.machine.pmmBitmap := by omega
      obtain ⟨g', hgoes', hmap', hfrees'⟩ := hgoes.map_round (by omega) hleft hret
      rw [set_current, set_set] at hgoes'
      rw [set_current, set_mem] at hmap'
      rw [set_current] at hfrees'
      exact ⟨g', hgoes', hmap.succ hmap', by rw [hfrees, hfrees']; omega⟩
    · rw [if_neg hr] at hret
      exact absurd hret hr

end Mapping

section Segment

variable {s₀ s : ProcState} {t : UserSpaces} {m m' : Machine} {f : Ext2File} {pos pos' : ℕ}
  {segment : ElfProgramHeader} {g g' : ℕ → Option Byte}

/-- What a segment does to the memory it is loaded into. -/
structure SegmentIn (f : Ext2File) (segment : ElfProgramHeader) (g g' : ℕ → Option Byte) :
    Prop where
  byte : ∀ x b, segment.byte f x = some b → g' x = some b
  kept : ∀ x b, segment.byte f x = none → g x = some b → g' x = some b
  none_iff : ∀ x, g' x = none ↔ g x = none ∧ ¬ InPages segment.vaddr segment.pages x

theorem SegmentIn.other (hload : segment.type ≠ ELF_PHEADER_LOAD) : SegmentIn f segment g g := by
  have hbyte : ∀ x, segment.byte f x = none := fun x => if_neg fun h => hload h.1
  have hpages : segment.pages = 0 := if_neg hload
  refine ⟨fun x b hb => ?_, fun _ _ _ hb => hb, fun x => ?_⟩
  · rw [hbyte] at hb
    cases hb
  · rw [hpages]
    unfold InPages
    exact ⟨fun h => ⟨h, by omega⟩, fun h => h.1⟩

theorem written_none {src : ℕ → Byte} {va n : ℕ}
    (h : ∀ x, va ≤ x → x < va + n → g x ≠ none) (x : ℕ) :
    written src va n g x = none ↔ g x = none := by
  unfold written
  split_ifs with hin
  · simp [h x hin.1 hin.2]
  · rfl

theorem SegmentIn.of_written {src : ℕ → Byte} (hload : segment.type = ELF_PHEADER_LOAD)
    (hle : segment.filesz ≤ segment.memsz)
    (hsrc : ∀ k < segment.filesz, src k = f.bytes (segment.offset + k))
    (hmap : Mapped (segment.vaddr / 4096) segment.pages g g')
    (hread : ∀ x, segment.vaddr ≤ x → x < segment.vaddr + segment.filesz → g' x ≠ none)
    (hzero : ∀ x, segment.vaddr + segment.filesz ≤ x →
      x < segment.vaddr + segment.filesz + (segment.memsz - segment.filesz) →
        written src segment.vaddr segment.filesz g' x ≠ none) :
    SegmentIn f segment g (written (fun _ => 0) (segment.vaddr + segment.filesz)
      (segment.memsz - segment.filesz) (written src segment.vaddr segment.filesz g')) := by
  refine ⟨fun x b hb => ?_, fun x b hb hg => ?_, fun x => ?_⟩
  · unfold ElfProgramHeader.byte at hb
    split_ifs at hb with hin hfile
    · obtain rfl := Option.some.inj hb
      rw [written, if_neg (by omega), written, if_pos (by omega), hsrc _ hfile]
    · obtain rfl := Option.some.inj hb
      exact if_pos (by omega)
  · unfold ElfProgramHeader.byte at hb
    split_ifs at hb with hin
    rw [written, if_neg fun hc => hin ⟨hload, by omega, by omega⟩, written,
      if_neg fun hc => hin ⟨hload, by omega, by omega⟩]
    exact hmap.kept x b hg
  · rw [written_none hzero, written_none hread, hmap.none_iff]
    rfl

theorem pages_end (hload : segment.type = ELF_PHEADER_LOAD)
    (hend : segment.vaddr + segment.memsz < VIRT_BASE) :
    segment.pages = pgRndUp segment.memsz / PAGE_SIZE ∧
      segment.vaddr / 4096 + segment.pages ≤ USER_END := by
  have hpages : segment.pages = pgRndUp segment.memsz / PAGE_SIZE := if_pos hload
  refine ⟨hpages, ?_⟩
  simp only [VIRT_BASE] at hend
  rw [hpages, pgRndUp_small (by omega), Nat.mul_div_cancel _ (by norm_num)]
  simp only [USER_END]
  omega

theorem segment_read (hf : f.Sound) (hfits : segment.Fits f) {buf : Mem} {x : Ext2ReadResult}
    (hx : elfRead f fresh buf segment.filesz (elfSeek f pos segment.offset SEEK_SET) = some x)
    (hr : x.r = segment.filesz) :
    ∀ k < segment.filesz, x.buf k = f.bytes (segment.offset + k) := by
  intro k hk
  obtain ⟨-, -, h0 | hin⟩ := hfits
  · omega
  · have hS := hf.allocated.size_lt
    rw [elfSeek_set hf (by omega)] at hx
    have hsum : segment.offset + segment.filesz < 4294967296 := by omega
    obtain ⟨y, hy, hlen, -, hbytes⟩ := hf.reads_bytes hsum fresh buf
    obtain rfl := Option.some.inj (hx.symm.trans hy)
    exact hbytes k (by rw [← hlen, hr]; exact hk)

theorem elfReadSegment_cases {pgd : ℕ} (hf : f.Sound) (hload : segment.type = ELF_PHEADER_LOAD)
    (hfits : segment.Fits f) (hr : elfReadSegment f fresh pgd (m, pos) segment = some (m', pos')) :
    ∃ st m₁ src, elfMapSegment ⟨m, []⟩ pgd segment = (st, true) ∧
      (∀ k < segment.filesz, src k = f.bytes (segment.offset + k)) ∧
      userWrite src segment.vaddr segment.filesz st.machine = some m₁ ∧
      userWrite (fun _ => 0) (segment.vaddr + segment.filesz) (segment.memsz - segment.filesz) m₁ =
        some m' := by
  have hend := hfits.2.1
  simp only [VIRT_BASE] at hend
  have hsum : u32 (segment.vaddr + segment.memsz) = segment.vaddr + segment.memsz :=
    u32_of_lt (by omega)
  unfold elfReadSegment at hr
  rw [if_neg (not_not.2 hload), if_neg (by rw [hsum]; exact not_le.2 hend)] at hr
  dsimp only at hr
  split at hr
  · cases hr
  · rename_i st hmap
    obtain ⟨x, hx, hr⟩ := Option.bind_eq_some_iff.1 hr
    obtain ⟨m₁, h₁, hr⟩ := Option.bind_eq_some_iff.1 hr
    have hwhole : x.r = segment.filesz := by
      by_contra hshort
      rw [if_pos hshort] at hr
      cases hr
    have hsrc := segment_read hf hfits hx hwhole
    rw [if_neg (not_not.2 hwhole)] at hr
    rw [hwhole] at h₁
    refine ⟨st, m₁, _, hmap, hsrc, h₁, ?_⟩
    by_cases hmore : segment.memsz > segment.filesz
    · rw [if_pos hmore, u32_of_lt (by omega)] at hr
      obtain ⟨m₂, h₂, heq⟩ := Option.map_eq_some_iff.1 hr
      rw [← (Prod.mk.inj heq).1]
      exact h₂
    · rw [if_neg hmore] at hr
      rw [Nat.sub_eq_zero_of_le (not_lt.1 hmore), ← (Prod.mk.inj (Option.some.inj hr)).1]
      rfl

theorem Goes.load (h : Goes s₀ { s with machine := m } t) (hf : f.Sound)
    (hfits : segment.type = ELF_PHEADER_LOAD → segment.Fits f)
    (hfree : segment.pages ≤ freeFrames m.pmmBitmap)
    (hr : elfReadSegment f fresh t.current (m, pos) segment = some (m', pos')) :
    ∃ g, Goes s₀ { s with machine := m' } (t.set t.current g) ∧
      SegmentIn f segment (t.mem t.current) g ∧
      freeFrames m.pmmBitmap ≤ freeFrames m'.pmmBitmap + segment.pages := by
  by_cases hload : segment.type = ELF_PHEADER_LOAD
  · have hfit := hfits hload
    have hle := hfit.1
    have hend := hfit.2.1
    obtain ⟨hpages, hlast⟩ := pages_end hload hend
    obtain ⟨st, m₁, src, hmap, hsrc, h₁, h₂⟩ := elfReadSegment_cases hf hload hfit hr
    have hloop : runLoop (elfMapRound t.current segment.vaddr) ⟨m, []⟩ segment.pages =
        (st, true) := by
      rw [hpages]
      exact hmap
    have hstart : Goes s₀ { s with machine := (⟨m, []⟩ : ElfState).machine } t := h
    obtain ⟨g, hgoes, hmapped, hfrees⟩ := hstart.map hlast hfree (by rw [hloop])
    rw [hloop] at hgoes hfrees
    obtain ⟨hread, hgoes₁⟩ := hgoes.write (by omega) h₁
    obtain ⟨hzero, hgoes₂⟩ := hgoes₁.write (by omega) h₂
    simp only [set_current, set_mem, set_set] at hread hgoes₁ hzero hgoes₂
    refine ⟨_, hgoes₂, SegmentIn.of_written hload hle hsrc hmapped hread hzero, ?_⟩
    rw [(userWrite_keeps h₂).1, (userWrite_keeps h₁).1]
    exact hfrees.le
  · unfold elfReadSegment at hr
    rw [if_pos hload] at hr
    obtain ⟨rfl, rfl⟩ := Prod.mk.inj (Option.some.inj hr)
    exact ⟨t.mem t.current, by rw [set_self]; exact h, SegmentIn.other hload, by omega⟩

/-- What the segments of a table do to the memory they are loaded into. -/
structure ImageIn (f : Ext2File) (segments : List ElfProgramHeader) (g g' : ℕ → Option Byte) :
    Prop where
  byte : ∀ x b, imageByte f segments x = some b → g' x = some b
  none_iff : ∀ x, g' x = none ↔ g x = none ∧ ¬ InImage segments x

theorem ImageIn.nil : ImageIn f [] g g := by
  refine ⟨fun x b hb => ?_, fun x => ?_⟩
  · cases hb
  · simp [InImage]

theorem ImageIn.snoc {segments : List ElfProgramHeader} {g'' : ℕ → Option Byte}
    (h : ImageIn f segments g g') (h' : SegmentIn f segment g' g'') :
    ImageIn f (segments ++ [segment]) g g'' := by
  refine ⟨fun x b hb => ?_, fun x => ?_⟩
  · have hlast : imageByte f (segments ++ [segment]) x =
        (segment.byte f x).or (imageByte f segments x) := by
      unfold imageByte
      rw [List.foldl_append]
      rfl
    rw [hlast] at hb
    cases hbyte : segment.byte f x with
    | none =>
      rw [hbyte, Option.none_or] at hb
      exact h'.kept x b hbyte (h.byte x b hb)
    | some b' =>
      rw [hbyte, Option.some_or] at hb
      rw [← hb]
      exact h'.byte x b' hbyte
  · rw [h'.none_iff, h.none_iff]
    unfold InImage
    simp only [List.mem_append, List.mem_singleton, or_and_right, exists_or, exists_eq_left,
      not_or, and_assoc]

theorem Goes.loads {reads : List (ElfProgramHeader × (ℕ → Leftovers))}
    {segments : List ElfProgramHeader} (hsegments : reads.map Prod.fst = segments)
    (h : Goes s₀ { s with machine := m } t) (hf : f.Sound)
    (hfits : ∀ segment ∈ segments, segment.type = ELF_PHEADER_LOAD → segment.Fits f)
    (hfree : (segments.map ElfProgramHeader.pages).sum ≤ freeFrames m.pmmBitmap)
    (hr : reads.foldlM (fun st x => elfReadSegment f x.2 t.current st x.1) (m, pos) =
      some (m', pos')) :
    ∃ g, Goes s₀ { s with machine := m' } (t.set t.current g) ∧
      ImageIn f segments (t.mem t.current) g ∧
      freeFrames m.pmmBitmap ≤
        freeFrames m'.pmmBitmap + (segments.map ElfProgramHeader.pages).sum := by
  subst hsegments
  induction reads using List.reverseRecOn generalizing m' pos' with
  | nil =>
    obtain ⟨rfl, rfl⟩ := Prod.mk.inj (Option.some.inj hr)
    exact ⟨t.mem t.current, by rw [set_self]; exact h, ImageIn.nil, le_rfl⟩
  | append_singleton reads x ih =>
    rw [List.foldlM_append] at hr
    obtain ⟨⟨m₁, pos₁⟩, h₁, h₂⟩ := Option.bind_eq_some_iff.1 hr
    rw [List.map_append, List.map_singleton] at hfits hfree ⊢
    rw [List.map_append, List.sum_append, List.map_singleton, List.sum_singleton] at hfree ⊢
    obtain ⟨g, hgoes, himage, hfrees⟩ :=
      ih h₁ (fun x hx => hfits x (List.mem_append_left _ hx)) (by omega)
    have hone : elfReadSegment f x.2 (t.set t.current g).current (m₁, pos₁) x.1 =
        some (m', pos') := by
      simpa using h₂
    obtain ⟨g', hgoes', hin, hfrees'⟩ := hgoes.load hf (hfits x.1 (by simp)) (by omega) hone
    rw [set_current, set_set] at hgoes'
    rw [set_current, set_mem] at hin
    exact ⟨g', hgoes', himage.snoc hin, by omega⟩

end Segment

section Program

variable {f : Ext2File} {b : ElfBuffers} {s : Machine} {old pos : ℕ}

theorem elfLoadf_program (hf : f.Sound) (hp : ElfProgram f) (b : ElfBuffers) (s : Machine)
    (old pos : ℕ) : ∃ fresh pos' table, pos' < 4294967296 ∧
      (List.range (elfHeader f.bytes).pheaderNum).map
        (fun i => elfProgramHeader table (32 * i)) = elfSegments f ∧
      elfLoadf f b s old pos =
        (elfLoadSegments f fresh s old pos' (elfHeader f.bytes) table).map some := by
  have hsize := hp.header
  obtain ⟨pos₁, hprobe⟩ := elfProbef_program hf hp (b.fresh 0) b.magic pos
  obtain ⟨x, hx, -, -, hbuf⟩ := hf.reads_whole
    (Ext2File.ReadsWhole.of_small (by omega : 0 + 52 ≤ f.cached.sizeLo) (by norm_num))
    (by norm_num) (b.fresh 1) b.header
  have hheader : elfHeader x.buf = elfHeader f.bytes :=
    elfHeader_congr fun k hk => by rw [hbuf k hk, Nat.zero_add]
  unfold elfLoadf
  rw [hprobe, Option.bind_some]
  dsimp only
  rw [if_neg (by simp), elfSeek_set hf (by omega : 0 < f.cached.sizeLo), hx, Option.bind_some,
    hheader, hp.entrySize]
  -- the table of segments is read, and of the sections what there is
  obtain ⟨y, hy, -⟩ := hf.elfRead_some (b.fresh 2) b.segments
    (32 * (elfHeader f.bytes).pheaderNum)
    (elfSeek f x.offset (elfHeader f.bytes).pheaderOffset SEEK_SET)
  rw [hy, Option.bind_some]
  obtain ⟨z, hz, hzlt⟩ := hf.elfRead_some (b.fresh 3) b.sections
    ((elfHeader f.bytes).shentrySize * (elfHeader f.bytes).sheaderNum)
    (elfSeek f y.offset (elfHeader f.bytes).sheaderOffset SEEK_SET)
  rw [hz, Option.bind_some]
  obtain ⟨pos', hnames, hpos'⟩ := elfSectionNames_some hf (fun i => b.fresh (4 + i)) b.name z.buf
    (elfHeader f.bytes) hzlt
  rw [hnames]
  refine ⟨_, pos', y.buf, hpos', List.map_congr_left fun i hi => ?_, rfl⟩
  have hlt := List.mem_range.1 hi
  have hpos : 0 < 32 * (elfHeader f.bytes).pheaderNum := by omega
  have hle := hp.table.le hpos
  rw [elfSeek_set hf (by omega)] at hy
  obtain ⟨y', hy', -, -, htable⟩ := hf.reads_whole hp.table hpos (b.fresh 2) b.segments
  obtain rfl := Option.some.inj (hy.symm.trans hy')
  refine elfProgramHeader_congr fun k hk => ?_
  rw [htable _ (by omega), Nat.add_assoc]

/-- What `elf_loadf` reads for its segments, read by read. -/
def segmentReads (fresh : ℕ → ℕ → Leftovers) (table : Mem) (n : ℕ) :
    List (ElfProgramHeader × (ℕ → Leftovers)) :=
  (List.range n).map fun i => (elfProgramHeader table (32 * i), fresh i)

theorem segmentReads_fst (fresh : ℕ → ℕ → Leftovers) (table : Mem) (n : ℕ) :
    (segmentReads fresh table n).map Prod.fst =
      (List.range n).map fun i => elfProgramHeader table (32 * i) := by
  rw [segmentReads, List.map_map]
  rfl

theorem KBlock.virt_phys {d : ℕ} (h : KBlock d) : addrToVirt (addrToPhys d) = d := by
  have habove := h.above
  have hbelow := h.below
  rw [h.phys.1, addrToVirt]
  simp only [VIRT_BASE] at habove ⊢
  rw [Nat.sub_add_cancel habove.le]
  exact u32_of_lt (by omega)

theorem Goes.created {s₀ s : ProcState} {t : UserSpaces} {pgd : ℕ} {m : Machine}
    (h : Goes s₀ s t) (hc : createPgd s.machine = some (pgd, m)) (self : ℕ) :
    pgd ∉ t.dirs ∧
    Goes s₀ ⟨s.maps.spawn self pgd, activatePgd m pgd, pgd :: s.pgds⟩
      { t.add pgd (fun _ => none) with current := pgd } ∧
    (activatePgd m pgd).pmmBitmap = s.machine.pmmBitmap ∧
    s.machine.pool = pgd :: (activatePgd m pgd).pool := by
  have hok := h.same.ok
  have hcreated := createPgd_created (hok.own.spaces.freshHeap hok.kernel) hc
  obtain ⟨t₁, ⟨hnew, rfl⟩, h₁⟩ := h.step (e := .spawn self pgd) ⟨m, hc, rfl⟩
  obtain ⟨t₂, ⟨-, rfl⟩, h₂⟩ := h₁.step (e := .switch pgd) ⟨List.mem_cons_self, rfl⟩
  refine ⟨hnew, h₂, ?_, ?_⟩
  · rw [activatePgd]
    exact hcreated.bitmap
  · rw [activatePgd]
    exact hcreated.pool

theorem Goes.program {s₀ s : ProcState} {t : UserSpaces} {h : ElfHeader} {table : Mem}
    {fresh : ℕ → ℕ → Leftovers} {r : ElfLoaded} (hgoes : Goes s₀ s t) (hf : f.Sound) (self : ℕ)
    (htable : (List.range h.pheaderNum).map (fun i => elfProgramHeader table (32 * i)) =
      elfSegments f)
    (hfits : ∀ segment ∈ elfSegments f, segment.type = ELF_PHEADER_LOAD → segment.Fits f)
    (hframes : ((elfSegments f).map ElfProgramHeader.pages).sum ≤
      freeFrames s.machine.pmmBitmap)
    (hr : elfLoadSegments f fresh s.machine 0 pos h table = some r) :
    r.entry = h.entry ∧ r.pgd ∉ t.dirs ∧ ∃ g, ImageIn f (elfSegments f) (fun _ => none) g ∧
      Goes s₀ ⟨s.maps.spawn self r.pgd, r.machine, r.pgd :: s.pgds⟩ (t.add r.pgd g) := by
  have hsame := hgoes.same
  unfold elfLoadSegments at hr
  dsimp only at hr
  rw [if_neg (by simp)] at hr
  obtain ⟨⟨pgd, m⟩, hc, hr⟩ := Option.bind_eq_some_iff.1 hr
  obtain ⟨⟨m', pos'⟩, hfold, rfl⟩ := Option.map_eq_some_iff.1 hr
  dsimp only at hfold ⊢
  generalize elfSeek f (elfSeek f pos 0 SEEK_END) _ SEEK_SET = pos₁ at hfold
  have hback : getCurrentPgd m = t.current := by
    have hblock := (hsame.ok.own.spaces.dir _ hsame.current).block
    rw [getCurrentPgd, createPgd_cr3 hc, hsame.cr3, hblock.virt_phys]
  obtain ⟨hnew, h₁, hbitmap, -⟩ := hgoes.created hc self
  have hloads : (segmentReads fresh table h.pheaderNum).foldlM
      (fun st x => elfReadSegment f x.2 pgd st x.1) (activatePgd m pgd, pos₁) = some (m', pos') := by
    rw [segmentReads, List.foldlM_map]
    exact hfold
  generalize activatePgd m pgd = m₁ at h₁ hloads hbitmap
  obtain ⟨g, h₂, himage, -⟩ := Goes.loads (s := ⟨s.maps.spawn self pgd, m, pgd :: s.pgds⟩)
    ((segmentReads_fst fresh table h.pheaderNum).trans htable) h₁ hf hfits
    (by rw [hbitmap]; exact hframes) hloads
  obtain ⟨t₃, ⟨-, rfl⟩, h₃⟩ :=
    h₂.step (e := .switch t.current) ⟨List.mem_cons_of_mem _ hsame.current, rfl⟩
  refine ⟨rfl, hnew, g, ?_, ?_⟩
  · change ImageIn f _ (Function.update t.mem pgd _ pgd) g at himage
    rwa [Function.update_self] at himage
  · have hmem : Function.update (Function.update t.mem pgd fun _ => none) pgd g =
        Function.update t.mem pgd g := Function.update_idem _ _ _
    rw [hback]
    unfold UserSpaces.add UserSpaces.set at h₃ ⊢
    dsimp only at h₃ ⊢
    rwa [hmem] at h₃

end Program

section Loads

variable {s₀ s : ProcState} {t : UserSpaces} {m : Machine} {f : Ext2File} {st : ElfState}
  {vaddr n pos off pgd : ℕ} {segment : ElfProgramHeader} {src : ℕ → Byte}

theorem map_completes (h : PgdInv st.machine pgd) (hlow : 1024 ≤ vaddr / 4096)
    (hp : vaddr / 4096 + n ≤ USER_END) (hpool : n ≤ st.machine.pool.length) :
    (runLoop (elfMapRound pgd vaddr) st n).2 = true ∧
      st.machine.pool.length ≤
        (runLoop (elfMapRound pgd vaddr) st n).1.machine.pool.length + n := by
  obtain ⟨hdone, -, hleft⟩ := @runLoop_completes ElfState (elfMapRound pgd vaddr) st
    (fun i b => PgdInv b.machine pgd ∧ st.machine.pool.length ≤ b.machine.pool.length + i) n
    ⟨h, le_rfl⟩ fun i hi b hb => by
      obtain ⟨hinv, hlen⟩ := hb
      have hround := @round_page vaddr i (by omega)
      have hcan : CanMap b.machine pgd (vaddr + i * 4096) := by
        refine Or.inr ⟨?_, fun h0 => ?_⟩
        · rw [pdeIndex_eq, hround.2]
          omega
        · rw [h0] at hlen
          simp only [List.length_nil] at hlen
          omega
      obtain ⟨hret, hadd⟩ := elfMapRound_added hinv (by omega) hcan
      refine ⟨hret, hadd.inv, ?_⟩
      rcases hadd.pool with ⟨-, heq⟩ | ⟨-, heq⟩
      · rw [heq]
        omega
      · omega
  exact ⟨hdone, hleft⟩

theorem Goes.write_there (h : Goes s₀ s t) (hva : vaddr + n ≤ VIRT_BASE)
    (hthere : ∀ x, vaddr ≤ x → x < vaddr + n → t.mem t.current x ≠ none) :
    ∃ m, userWrite src vaddr n s.machine = some m := by
  induction n with
  | zero => exact ⟨s.machine, rfl⟩
  | succ n ih =>
    obtain ⟨m₁, h₁⟩ := ih (by omega) fun x h1 h2 => hthere x h1 (by omega)
    obtain ⟨-, hgoes⟩ := h.write (by omega) h₁
    have haddr : u32 (vaddr + n) = vaddr + n :=
      u32_of_lt (by simp only [VIRT_BASE] at hva; omega)
    have hbyte := hgoes.same.bytes _ hgoes.same.current (vaddr + n) (by omega)
    rw [set_current, set_mem, written, if_neg (by omega)] at hbyte
    have hne := hthere (vaddr + n) (by omega) (by omega)
    have hcr3 : m₁.cr3 = addrToPhys t.current := hgoes.same.cr3
    rw [hbyte, userByte, ← hcr3] at hne
    have hpresent : translate m₁.mem m₁.cr3 (vaddr + n) ≠ none := fun hc => hne (by rw [hc]; rfl)
    obtain ⟨x, hx⟩ := Option.ne_none_iff_exists'.1 hpresent
    refine ⟨{ m₁ with mem := Function.update m₁.mem x (src n) }, ?_⟩
    rw [userWrite, h₁, Option.bind_some, haddr, userStore, hx]
    rfl

/-- The segment is above the first 4 MiB, its pages are those of its size, and one read gets
all of it. -/
structure ElfProgramHeader.Ready (f : Ext2File) (segment : ElfProgramHeader) : Prop where
  low : 0x400000 ≤ segment.vaddr
  covered : segment.vaddr % PAGE_SIZE + segment.memsz ≤ pgRndUp segment.memsz
  whole : f.ReadsWhole segment.offset segment.filesz

theorem segment_length (hf : f.Sound)
    (hwhole : f.ReadsWhole segment.offset segment.filesz) (hpos : pos < 4294967296)
    (fresh : ℕ → Leftovers) (buf : Mem) :
    ∃ x, elfRead f fresh buf segment.filesz (elfSeek f pos segment.offset SEEK_SET) = some x ∧
      x.r = segment.filesz ∧ x.offset < 4294967296 := by
  have hS := hf.allocated.size_lt
  rcases Nat.eq_zero_or_pos segment.filesz with h0 | h0
  · have hlt : elfSeek f pos segment.offset SEEK_SET + 0 < 4294967296 := elfSeek_lt hpos _
    have hle := ext2ReadLen_le f.fs f.cached.sizeLo (elfSeek f pos segment.offset SEEK_SET) 0
    obtain ⟨x, hx, hr, hoff, -⟩ := hf.reads_bytes hlt fresh buf
    rw [h0]
    exact ⟨x, hx, by omega, hoff⟩
  · have hle := hwhole.le h0
    rw [elfSeek_set hf (by omega)]
    obtain ⟨x, hx, hr, hoff, -⟩ := hf.reads_whole hwhole h0 fresh buf
    exact ⟨x, hx, hr, hoff⟩

theorem Goes.load_there (h : Goes s₀ { s with machine := m } t) (hf : f.Sound)
    (hload : segment.type = ELF_PHEADER_LOAD) (hfits : segment.Fits f) (hready : segment.Ready f)
    (hfree : segment.pages ≤ freeFrames m.pmmBitmap) (hpool : segment.pages ≤ m.pool.length)
    (hpos : pos < 4294967296) (fresh : ℕ → Leftovers) :
    ∃ m' pos', elfReadSegment f fresh t.current (m, pos) segment = some (m', pos') ∧
      pos' < 4294967296 ∧ m.pool.length ≤ m'.pool.length + segment.pages := by
  have hle := hfits.1
  have hend := hfits.2.1
  obtain ⟨hpages, hlast⟩ := pages_end hload hend
  have hlow : 1024 ≤ segment.vaddr / 4096 := by
    have := hready.low
    omega
  have hinv : PgdInv (⟨m, []⟩ : ElfState).machine t.current :=
    h.same.ok.own.spaces.dir _ h.same.current
  obtain ⟨hdone, hleft⟩ := map_completes hinv hlow hlast hpool
  have hstart : Goes s₀ { s with machine := (⟨m, []⟩ : ElfState).machine } t := h
  obtain ⟨g, hgoes, hmapped, -⟩ := hstart.map hlast hfree hdone
  have hmap : elfMapSegment ⟨m, []⟩ t.current segment =
      ((runLoop (elfMapRound t.current segment.vaddr) ⟨m, []⟩ segment.pages).1, true) := by
    rw [elfMapSegment, ← hpages, ← hdone]
  generalize (runLoop (elfMapRound t.current segment.vaddr) ⟨m, []⟩ segment.pages).1 = st
    at hgoes hleft hmap
  have hthere : ∀ x, segment.vaddr ≤ x → x < segment.vaddr + segment.memsz → g x ≠ none := by
    intro x h1 h2 hx
    have hcov := hready.covered
    rw [pgRndUp_small (by simp only [VIRT_BASE] at hend; omega)] at hpages hcov
    have hout := ((hmapped.none_iff x).1 hx).2
    simp only [PAGE_SIZE] at hcov hpages
    omega
  obtain ⟨x, hx, hr, hlt⟩ := segment_length hf hready.whole hpos fresh
    (userView st.machine segment.vaddr)
  unfold elfReadSegment
  have hsum : u32 (segment.vaddr + segment.memsz) < VIRT_BASE := by
    rw [u32_of_lt (by simp only [VIRT_BASE] at hend; omega)]
    exact hend
  rw [if_neg (not_not.2 hload), if_neg (not_le.2 hsum), hmap]
  dsimp only
  rw [hx, Option.bind_some]
  obtain ⟨m₁, h₁⟩ : ∃ m₁, userWrite x.buf segment.vaddr segment.filesz st.machine = some m₁ := by
    refine hgoes.write_there (by omega) fun y h1 h2 => ?_
    rw [set_current, set_mem]
    exact hthere y h1 (by omega)
  obtain ⟨-, hgoes₁⟩ := hgoes.write (by omega) h₁
  obtain ⟨m₂, h₂⟩ : ∃ m₂, userWrite (fun _ => 0) (segment.vaddr + segment.filesz)
      (segment.memsz - segment.filesz) m₁ = some m₂ := by
    refine hgoes₁.write_there (by omega) fun y h1 h2 => ?_
    simp only [set_current, set_mem]
    rw [written, if_neg (by omega)]
    exact hthere y (by omega) (by omega)
  refine ⟨m₂, x.offset, ?_, hlt, ?_⟩
  · rw [hr, h₁, Option.bind_some, if_neg (not_not.2 rfl)]
    by_cases hmore : segment.memsz > segment.filesz
    · rw [if_pos hmore, u32_of_lt (by simp only [VIRT_BASE] at hend; omega), h₂]
      rfl
    · rw [Nat.sub_eq_zero_of_le (not_lt.1 hmore)] at h₂
      rw [if_neg hmore, Option.some.inj h₂]
  · rw [(userWrite_keeps h₂).2, (userWrite_keeps h₁).2]
    exact hleft

theorem Goes.loads_there {reads : List (ElfProgramHeader × (ℕ → Leftovers))}
    {segments : List ElfProgramHeader} (hsegments : reads.map Prod.fst = segments)
    (h : Goes s₀ { s with machine := m } t) (hf : f.Sound)
    (hfits : ∀ segment ∈ segments, segment.type = ELF_PHEADER_LOAD → segment.Fits f)
    (hready : ∀ segment ∈ segments, segment.type = ELF_PHEADER_LOAD → segment.Ready f)
    (hfree : (segments.map ElfProgramHeader.pages).sum ≤ freeFrames m.pmmBitmap)
    (hpool : (segments.map ElfProgramHeader.pages).sum ≤ m.pool.length)
    (hpos : pos < 4294967296) :
    ∃ m' pos', reads.foldlM (fun st x => elfReadSegment f x.2 t.current st x.1) (m, pos) =
        some (m', pos') ∧
      pos' < 4294967296 ∧
      m.pool.length ≤ m'.pool.length + (segments.map ElfProgramHeader.pages).sum := by
  subst hsegments
  induction reads using List.reverseRecOn with
  | nil => exact ⟨m, pos, rfl, hpos, le_rfl⟩
  | append_singleton reads x ih =>
    rw [List.map_append, List.map_singleton] at hfits hready hfree hpool ⊢
    rw [List.map_append, List.sum_append, List.map_singleton, List.sum_singleton] at hfree hpool ⊢
    have hfits' := fun x hx => hfits x (List.mem_append_left _ hx)
    obtain ⟨m₁, pos₁, h₁, hpos₁, hleft⟩ :=
      ih hfits' (fun x hx => hready x (List.mem_append_left _ hx)) (by omega) (by omega)
    obtain ⟨g, hgoes, -, hfrees⟩ := Goes.loads rfl h hf hfits' (by omega) h₁
    by_cases hload : x.1.type = ELF_PHEADER_LOAD
    · obtain ⟨m', pos', h₂, hpos', hleft'⟩ := hgoes.load_there hf hload
        (hfits x.1 (by simp) hload) (hready x.1 (by simp) hload) (by omega) (by omega) hpos₁ x.2
      refine ⟨m', pos', ?_, hpos', by omega⟩
      rw [List.foldlM_append, h₁]
      simpa using h₂
    · refine ⟨m₁, pos₁, ?_, hpos₁, by omega⟩
      rw [List.foldlM_append, h₁]
      simp [elfReadSegment, hload]

end Loads

/-- A program is loaded where there is a frame and a block for each of its pages, and a block
for the directory. -/
theorem program_loads {evs : List ProcEvent} {s : ProcState} {f : Ext2File} (h : ProcRun evs s)
    (hf : f.Sound) (hp : ElfProgram f)
    (hready : ∀ segment ∈ elfSegments f, segment.type = ELF_PHEADER_LOAD → segment.Ready f)
    (hframes : ((elfSegments f).map ElfProgramHeader.pages).sum ≤
      freeFrames s.machine.pmmBitmap)
    (hpool : ((elfSegments f).map ElfProgramHeader.pages).sum < s.machine.pool.length)
    (b : ElfBuffers) (pos : ℕ) : ∃ r, elfLoadf f b s.machine 0 pos = some (some r) := by
  obtain ⟨t, -, hsame⟩ := procRun_same h
  obtain ⟨fresh, pos', table, hpos', htable, heq⟩ := elfLoadf_program hf hp b s.machine 0 pos
  obtain ⟨pgd, m, hc⟩ : ∃ pgd m, createPgd s.machine = some (pgd, m) := by
    obtain ⟨d, rest, hcons⟩ := List.exists_cons_of_length_pos (Nat.zero_lt_of_lt hpool)
    have hd := (hsame.ok.own.spaces.dir _ hsame.current).pool_block d (by simp [hcons])
    have hd0 : d ≠ 0 := by
      have := hd.above
      omega
    unfold createPgd
    rw [kmallocPage_cons d rest hcons]
    dsimp only
    rw [if_neg hd0]
    exact ⟨_, _, rfl⟩
  obtain ⟨-, hgoes, hbitmap, hblocks⟩ := (Goes.refl hsame).created hc pgd
  have hleft : s.machine.pool.length = (activatePgd m pgd).pool.length + 1 := by
    rw [hblocks, List.length_cons]
  rw [heq]
  unfold elfLoadSegments
  dsimp only
  rw [if_neg (by simp), hc, Option.bind_some]
  dsimp only
  generalize hseek : elfSeek f (elfSeek f pos' 0 SEEK_END) _ SEEK_SET = pos₁
  have hpos₁ : pos₁ < 4294967296 := hseek ▸ elfSeek_lt (elfSeek_lt hpos' _) _
  generalize activatePgd m pgd = m₁ at hgoes hbitmap hleft ⊢
  obtain ⟨m', last, hloads, -⟩ :=
    Goes.loads_there (s := ⟨s.maps.spawn pgd pgd, m, pgd :: s.pgds⟩)
      ((segmentReads_fst fresh table _).trans htable) hgoes hf hp.fits hready
      (by rw [hbitmap]; exact hframes) (by omega) hpos₁
  rw [segmentReads, List.foldlM_map] at hloads
  refine ⟨⟨activatePgd m' (getCurrentPgd m), pgd, (elfHeader f.bytes).entry⟩, ?_⟩
  rw [show List.foldlM (fun st i =>
      elfReadSegment f (fresh i) pgd st (elfProgramHeader table (32 * i)))
    (m₁, pos₁) (List.range (elfHeader f.bytes).pheaderNum) = some (m', last) from hloads]
  rfl

/-- A loaded program is in an address space of its own, which holds the image of its file and
no page more. No other memory has changed, and the loading is a run. -/
theorem program_image {evs : List ProcEvent} {s : ProcState} {f : Ext2File} {b : ElfBuffers}
    {pos : ℕ} {r : ElfLoaded} (h : ProcRun evs s) (hf : f.Sound) (hp : ElfProgram f)
    (hframes : ((elfSegments f).map ElfProgramHeader.pages).sum ≤
      freeFrames s.machine.pmmBitmap)
    (hr : elfLoadf f b s.machine 0 pos = some (some r)) (self : ℕ) :
    r.entry = (elfHeader f.bytes).entry ∧ r.pgd ∉ s.pgds ∧
    (∀ va < VIRT_BASE, ∀ x, imageByte f (elfSegments f) va = some x →
      userByte r.machine.mem r.pgd va = some x) ∧
    (∀ va < VIRT_BASE, userByte r.machine.mem r.pgd va = none ↔ ¬ InImage (elfSegments f) va) ∧
    (∀ d ∈ s.pgds, ∀ va < VIRT_BASE,
      userByte r.machine.mem d va = userByte s.machine.mem d va) ∧
    ∃ later, ProcRun (evs ++ later) ⟨s.maps.spawn self r.pgd, r.machine, r.pgd :: s.pgds⟩ := by
  obtain ⟨t, -, hsame⟩ := procRun_same h
  obtain ⟨fresh, pos', table, -, htable, heq⟩ := elfLoadf_program hf hp b s.machine 0 pos
  rw [heq] at hr
  obtain ⟨r', hr', hsome⟩ := Option.map_eq_some_iff.1 hr
  obtain rfl := Option.some.inj hsome
  obtain ⟨hentry, hnew, g, himage, hlast⟩ :=
    (Goes.refl hsame).program hf self htable hp.fits hframes hr'
  rw [hsame.dirs] at hnew
  have hbytes := hlast.same.bytes
  have hown : ∀ va < VIRT_BASE, userByte r'.machine.mem r'.pgd va = g va := by
    intro va hva
    rw [← hbytes r'.pgd List.mem_cons_self va hva]
    exact congrFun (Function.update_self _ _ _) va
  obtain ⟨later, hlater⟩ := hlast.run
  refine ⟨hentry, hnew, fun va hva x hx => ?_, fun va hva => ?_, fun d hd va hva => ?_,
    later, Run.append h hlater⟩
  · rw [hown va hva]
    exact himage.byte va x hx
  · rw [hown va hva, himage.none_iff]
    exact and_iff_right rfl
  · have hne : d ≠ r'.pgd := fun hc => hnew (hc ▸ hd)
    rw [← hbytes d (List.mem_cons_of_mem _ hd) va hva, ← hsame.bytes d hd va hva]
    exact congrFun (Function.update_of_ne hne _ _) va

/-! A file of a header, a segment of two bytes, and the one that is in the file. -/

def elfBytes (k : ℕ) : Byte :=
  ([(0, 0x7f), (1, 69), (2, 76), (3, 70), (26, 0x40), (28, 52), (42, 32), (44, 1), (52, 1),
    (56, 84), (62, 0x40), (68, 1), (72, 2), (84, 0xC3)].lookup k).getD 0

def elfFs : Ext2Fs :=
  { sampleFs with
    dev := { sampleFs.dev with
      disk := fun x => if x = 4609 then 0x80 else if x = 4612 then 85 else if x = 4648 then 3
        else if 3072 ≤ x ∧ x < 3157 then elfBytes (x - 3072) else 0 } }

def elfFile : Ext2File := ⟨elfFs, ext2GetInode elfFs 2, false⟩

theorem elfFile_size : elfFile.cached.sizeLo = 85 := by decide

theorem elfFile_sound : elfFile.Sound := by
  have hbs : elfFs.blockSize = 1024 := rfl
  have hN : elfFs.idblocksCount = 256 := rfl
  have hsize : (ext2GetInode elfFs 2).sizeLo = 85 := elfFile_size
  refine ⟨fun _ _ => rfl, by decide, ?_⟩
  change Ext2Allocated elfFs (ext2GetInode elfFs 2)
  constructor
  · rw [hsize]
    norm_num
  · rw [hsize, hbs, hN]
    norm_num
  · intro i hi
    rw [hsize, hbs] at hi
    obtain rfl : i = 0 := by omega
    rw [blockMap_direct (by norm_num)]
    exact ⟨by decide, by decide⟩
  · rw [hsize, hbs]
    exact fun h => absurd h (by norm_num)
  · rw [hsize, hbs, hN]
    exact fun h => absurd h (by norm_num)
  · intro j h
    rw [hsize, hbs, hN] at h
    omega

def elfSegment : ElfProgramHeader := ⟨1, 84, 0x400000, 1, 2⟩

theorem elfFile_segments : elfSegments elfFile = [elfSegment] := by
  have hnum : (elfHeader elfFile.bytes).pheaderNum = 1 := by decide
  have hoff : (elfHeader elfFile.bytes).pheaderOffset = 52 := by decide
  have hone : elfProgramHeader elfFile.bytes 52 = elfSegment := rfl
  rw [elfSegments, hnum, hoff]
  exact congrArg (fun x => [x]) hone

theorem elfFile_program : ElfProgram elfFile := by
  have hnum : (elfHeader elfFile.bytes).pheaderNum = 1 := by decide
  have hoff : (elfHeader elfFile.bytes).pheaderOffset = 52 := by decide
  have hsize := elfFile_size
  refine ⟨by omega, ⟨by decide, by decide, by decide, by decide⟩, by decide, ?_, ?_⟩
  · rw [hnum, hoff]
    exact Ext2File.ReadsWhole.of_small (by omega) (by norm_num)
  · intro segment hsegment _
    rw [elfFile_segments] at hsegment
    obtain rfl := List.mem_singleton.1 hsegment
    exact ⟨by decide, by decide, Or.inr (by rw [hsize]; decide)⟩

def zeroBuffers : ElfBuffers :=
  ⟨fun _ => 0, fun _ => 0, fun _ => 0, fun _ => 0, fun _ => 0, fun _ _ => Leftovers.all fun _ => 0⟩

theorem program_image_loaded : ∃ pool r, ProcRun [] (procStart pool) ∧
    elfLoadf elfFile zeroBuffers (procStart pool).machine 0 0 = some (some r) ∧ r.entry = 0x400000 ∧
    userByte r.machine.mem r.pgd 0x400000 = some 0xC3 ∧
    userByte r.machine.mem r.pgd 0x400001 = some 0 ∧
    userByte r.machine.mem r.pgd 0x401000 = none := by
  obtain ⟨pool, hlen, hlow⟩ := lowHeap_exists (n := 800) (by norm_num)
  have h : ProcRun [] (procStart pool) := Run.nil (procStart_boot hlow)
  have hpages : ((elfSegments elfFile).map ElfProgramHeader.pages).sum = 1 := by
    rw [elfFile_segments]
    decide
  have hframes : ((elfSegments elfFile).map ElfProgramHeader.pages).sum ≤
      freeFrames (procStart pool).machine.pmmBitmap := by
    obtain ⟨hsize, hbit⟩ := procMachine_bits pool
    rw [hpages]
    refine Finset.card_pos.2 ⟨1024, Finset.mem_filter.2 ⟨Finset.mem_range.2 ?_, ?_⟩⟩
    · exact lt_of_lt_of_eq (by norm_num) hsize.symm
    · exact (hbit 1024).trans (decide_eq_false (by norm_num))
  have hready : ∀ segment ∈ elfSegments elfFile, segment.type = ELF_PHEADER_LOAD →
      segment.Ready elfFile := by
    intro segment hsegment _
    rw [elfFile_segments] at hsegment
    obtain rfl := List.mem_singleton.1 hsegment
    refine ⟨by decide, by decide, Ext2File.ReadsWhole.of_small ?_ (by decide)⟩
    rw [elfFile_size]
    decide
  obtain ⟨r, hr⟩ := program_loads h elfFile_sound elfFile_program hready hframes
    (by rw [hpages]; exact lt_of_lt_of_eq (by norm_num) hlen.symm)
    zeroBuffers 0
  obtain ⟨hentry, -, hbyte, hnone, -⟩ :=
    program_image h elfFile_sound elfFile_program hframes hr 1
  rw [elfFile_segments] at hbyte hnone
  refine ⟨pool, r, h, hr, hentry.trans (by decide), hbyte _ (by decide) _ (by decide),
    hbyte _ (by decide) _ (by decide), (hnone _ (by decide)).2 ?_⟩
  rintro ⟨segment, hsegment, hin⟩
  obtain rfl := List.mem_singleton.1 hsegment
  exact absurd hin (by decide)

end DepthOS
