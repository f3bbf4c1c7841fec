import DepthOS.Spec.Seek
import DepthOS.Spec.String

/-! The kernel's symbol table: `kernel/ksymbols.c` over a map file of the initial ramdisk,
which it reads byte by byte. A `kmalloc` is taken to succeed; `fuel` bounds the loops, and a
store past a table or a buffer has no result. -/

namespace DepthOS

open Lib

abbrev MAX_KERNEL_SYMBOLS : ℕ := 1024 * 3

/-- The size of the buffer the names are read into. -/
abbrev KSYMBOLS_BUFFER : ℕ := 256

/-- `none` is `errno` set to `EINVAL`. -/
def parseHex (sym : ℤ) : Option ℤ :=
  if sym < 48 ∨ sym > 102 then none
  else some (if sym ≥ 97 then 10 + sym - 97 else sym - 48)

/-- A name that was never stored is NULL. -/
structure KernelSymbol where
  address : ℕ
  type : Byte
  name : Option (List Byte)
deriving DecidableEq

/-- `kernel_symbols` and `kernel_symbols_length`. -/
structure KernelSymbols where
  table : ℕ → KernelSymbol
  length : ℕ

/-- What the loader keeps of the `fs_node`. -/
structure MapFile where
  pos : ℕ
  eof : Bool

structure ByteRead where
  r : ℕ
  byte : Byte
  file : MapFile

structure AddressRead where
  address : ℕ
  byte : Byte
  file : MapFile
  bad : Bool

structure NameRead where
  ptr : ℕ
  buffer : Mem
  file : MapFile

structure LoadState where
  symbols : KernelSymbols
  buffer : Mem
  file : MapFile

/-- `&kernel_symbols[kernel_symbols_length]` takes the value of `f`. -/
def KernelSymbols.modify (k : KernelSymbols) (f : KernelSymbol → KernelSymbol) : KernelSymbols :=
  { k with table := Function.update k.table k.length (f (k.table k.length)) }

section Load

variable (m : Mem) (rd : Initrd) (inode : ℕ)

/-- `vfs_read` of one byte to where `old` stands. -/
def readByte (old : Byte) (f : MapFile) : ByteRead :=
  let read := initrdfsRead m rd inode (fun _ => old) 1 f.pos
  ⟨read.r, read.buf 0, ⟨read.offset, f.eof || read.eof⟩⟩

/-- The digits of an address, up to the space. -/
def addressLoop : ℕ → ℕ → Byte → MapFile → Option AddressRead
  | 0, _, _, _ => none
  | fuel + 1, address, byte, f =>
    let read := readByte m rd inode byte f
    if read.r ≠ 0 ∧ read.byte ≠ 32 then
      match parseHex read.byte.toInt with
      | none => some ⟨address, read.byte, read.file, true⟩
      | some v => addressLoop fuel (u32 (u32 (address <<< 4) + sizeT v)) read.byte read.file
    else some ⟨address, read.byte, read.file, false⟩

/-- The rest of the line. -/
def nameLoop : ℕ → ℕ → Mem → MapFile → Option NameRead
  | 0, _, _, _ => none
  | fuel + 1, ptr, buffer, f =>
    if ptr < KSYMBOLS_BUFFER then
      let read := readByte m rd inode (buffer ptr) f
      let buffer' := Function.update buffer ptr read.byte
      if read.r ≠ 0 ∧ read.byte ≠ 10 then nameLoop fuel (ptr + 1) buffer' read.file
      else some ⟨ptr, buffer', read.file⟩
    else none

/-- From the type on, once the address is in the table. The flag says that another line may
follow. -/
def loadEntry (fuel : ℕ) (s : LoadState) : Option (LoadState × Bool) :=
  let type := readByte m rd inode (s.symbols.table s.symbols.length).type s.file
  let symbols := s.symbols.modify fun e => { e with type := type.byte }
  if type.r = 0 then some (⟨symbols, s.buffer, type.file⟩, false)
  else
    -- the separator is not read
    let file := { type.file with pos := u32 (type.file.pos + 1) }
    match nameLoop m rd inode fuel 0 (Function.update s.buffer 0 0) file with
    | none => none
    | some read =>
      let buffer := Function.update read.buffer read.ptr 0
      match strdup KSYMBOLS_BUFFER buffer 0 with
      | none => none
      | some name =>
        let stored := symbols.modify fun e => { e with name := some name }
        some (⟨{ stored with length := stored.length + 1 }, buffer, read.file⟩, !read.file.eof)

/-- One round of the loop over the lines. -/
def loadRound (fuel : ℕ) (s : LoadState) : Option (LoadState × Bool) :=
  if s.symbols.length < MAX_KERNEL_SYMBOLS then
    match addressLoop m rd inode fuel 0 (s.buffer 0) s.file with
    | none => none
    | some read =>
      let s' : LoadState :=
        ⟨s.symbols.modify fun e => { e with address := read.address },
          Function.update s.buffer 0 read.byte, read.file⟩
      if read.bad ∨ read.file.eof then some (s', false) else loadEntry m rd inode fuel s'
  else none

def loadLoop (fuel : ℕ) : ℕ → LoadState → Option LoadState
  | 0, _ => none
  | n + 1, s =>
    match loadRound m rd inode fuel s with
    | none => none
    | some (s', again) => if again then loadLoop fuel n s' else some s'

end Load

/-- `path` is relative to where the ramdisk is mounted, and `buffer` what the memory from
`kmalloc` holds. -/
def ksymbolsLoadFile (fuel : ℕ) (m : Mem) (rd : Initrd) (path : List Byte) (buffer : Mem)
    (k : KernelSymbols) : Option (ℤ × KernelSymbols) :=
  match initrdfsOpen m rd path with
  | none => some (-ENOENT, k)
  | some inode =>
    let file : MapFile := ⟨(initrdfsSeek m rd inode 0 0 SEEK_SET).pos, false⟩
    (loadLoop m rd inode fuel fuel ⟨{ k with length := 0 }, buffer, file⟩).map fun s =>
      (s.symbols.length, s.symbols)

/-- The loop of `ksymbols_lookup` with `n` symbols to go. -/
def lookupLoop (k : KernelSymbols) (addr : ℕ) (precise : Bool) : ℕ → Option ℕ
  | 0 => none
  | n + 1 =>
    if addr = (k.table n).address ∨ precise = false ∧ addr > (k.table n).address then some n
    else lookupLoop k addr precise n

/-- The index of the symbol that is returned. -/
def ksymbolsLookup (k : KernelSymbols) (addr : ℕ) (precise : Bool) : Option ℕ :=
  lookupLoop k addr precise k.length

end DepthOS
