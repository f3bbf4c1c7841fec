import DepthOS.Lib.Loop
import DepthOS.Spec.Paging

/-! `elf_load_segment` of `kernel/elf.c`: pages are mapped one by one, the file is read to
the segment's address, and what the file does not fill is cleared. The calls are kept in a
log with the addresses they are given. The file is a parameter: how many bytes a read
delivers after a seek. So is what becomes of an access where the call has mapped nothing: it
goes on if the page was there before, or if an area of the current task serves the page
fault. -/

namespace DepthOS

open Lib

abbrev ELF_PHEADER_LOAD : ℕ := 1

structure ElfProgramHeader where
  type : ℕ
  offset : ℕ
  vaddr : ℕ
  filesz : ℕ
  memsz : ℕ

/-- A page mapped at an address; bytes stored from one on, by the read and by the `memset`. -/
inductive ElfAccess where
  | map (va : ℕ)
  | read (va n : ℕ)
  | zero (va n : ℕ)
deriving DecidableEq

structure ElfState where
  machine : Machine
  log : List ElfAccess

/-- A round of the loop; `map_addr` may panic or store through NULL. -/
def elfMapRound (pgd vaddr : ℕ) (st : ElfState) (i : ℕ) : ElfState × Bool :=
  let va := u32 (vaddr + u32 (i * PAGE_SIZE))
  match mapAddr st.machine pgd va 1 true false with
  | none => (⟨st.machine, st.log ++ [.map va]⟩, false)
  | some (_, s) => (⟨s, st.log ++ [.map va]⟩, true)

/-- The mapping loop; the flag says that it has come to its end. -/
def elfMapSegment (st : ElfState) (pgd : ℕ) (segment : ElfProgramHeader) : ElfState × Bool :=
  runLoop (elfMapRound pgd segment.vaddr) st (pgRndUp segment.memsz / PAGE_SIZE)

/-- The call has mapped the page of the address. -/
def ElfAccess.maps (x : ℕ) : ElfAccess → Bool
  | .map va => va / PAGE_SIZE = x / PAGE_SIZE
  | _ => false

def ElfState.goes (there : ℕ → Bool) (st : ElfState) (x : ℕ) : Bool :=
  there x || st.log.any (ElfAccess.maps x)

/-- How many of `n` bytes are stored, one by one from `va` on, before an access dies. -/
def elfStored (goes : ℕ → Bool) (va : ℕ) : (n : ℕ) → ℕ
  | 0 => 0
  | n + 1 =>
    if elfStored goes va n = n ∧ goes (u32 (va + n)) then n + 1 else elfStored goes va n

/-- The flag is false after a panic or a page fault. -/
def elfLoadSegment (file : ℕ → ℕ → ℕ) (there : ℕ → Bool) (st : ElfState) (pgd : ℕ)
    (segment : ElfProgramHeader) : ElfState × Bool :=
  if segment.type ≠ ELF_PHEADER_LOAD then (st, true)
  else if u32 (segment.vaddr + segment.memsz) ≥ VIRT_BASE then (st, true)
  else
    match elfMapSegment st pgd segment with
    | (st, false) => (st, false)
    | (st, true) =>
      let b := file segment.offset segment.filesz
      let n := elfStored (st.goes there) segment.vaddr b
      let st := { st with log := st.log ++ [.read segment.vaddr n] }
      if n ≠ b then (st, false)
      else if b ≠ segment.filesz then (st, false)
      else if segment.memsz > segment.filesz then
        let va := u32 (segment.vaddr + segment.filesz)
        let z := elfStored (st.goes there) va (segment.memsz - segment.filesz)
        ({ st with log := st.log ++ [.zero va z] }, z = segment.memsz - segment.filesz)
      else (st, true)

/-- The addresses an access is about. -/
def ElfAccess.At : ElfAccess → ℕ → Prop
  | .map va, x => x = va
  | .read va n, x => ∃ k < n, x = u32 (va + k)
  | .zero va n, x => ∃ k < n, x = u32 (va + k)

/-- Every page that the bytes of the segment touch has an entry after the mapping loop. -/
def SegmentMapped (s : Machine) (pgd : ℕ) (segment : ElfProgramHeader) : Prop :=
  (elfMapSegment ⟨s, []⟩ pgd segment).2 = true ∧
  ∀ va, segment.vaddr ≤ va → va < segment.vaddr + segment.memsz →
    pageEntry (elfMapSegment ⟨s, []⟩ pgd segment).1.machine pgd va ≠ 0

/-- Nothing is done at an address of the kernel. -/
def BelowKernel (st : ElfState) : Prop := ∀ a ∈ st.log, ∀ x, a.At x → x < VIRT_BASE

end DepthOS
