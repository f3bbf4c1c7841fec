import DepthOS.Spec.Ext2
import DepthOS.Spec.Vfs

/-! The initial ramdisk from both sides: `tools/initrd.py` packs files into an image, and
`fs/initrd.c` lays its structures over that image in memory. Pointers are 32-bit, so the
image is seen through addresses that wrap. -/

namespace DepthOS

open Lib

/-! The image writer. -/

abbrev INITRD_PATH_LENGTH : ℕ := 60

/-- A file the tool is given: its path as text, and what it holds. -/
structure HostFile where
  path : List Byte
  contents : List Byte

/-- `Header` of the tool. -/
structure ImageHeader where
  filepath : List Byte
  length : ℕ
  offset : ℕ

def le16 (x : ℕ) : List Byte := [BitVec.ofNat 8 x, BitVec.ofNat 8 (x / 256)]

def le32 (x : ℕ) : List Byte :=
  [BitVec.ofNat 8 x, BitVec.ofNat 8 (x / 256), BitVec.ofNat 8 (x / 65536),
    BitVec.ofNat 8 (x / 16777216)]

/-- `struct.pack` of an unsigned short; a value that does not fit is refused. -/
def packH (x : ℕ) : Option (List Byte) := if x < 65536 then some (le16 x) else none

/-- `struct.pack` of an unsigned long of standard size. -/
def packL (x : ℕ) : Option (List Byte) := if x < 4294967296 then some (le32 x) else none

/-- `bytes(s, encoding='ascii')` -/
def asciiBytes (s : List Byte) : Option (List Byte) :=
  if ∀ b ∈ s, b.toNat < 128 then some s else none

/-- `struct.pack` of `60s`: cut or filled up with NULs. -/
def packName (s : List Byte) : List Byte :=
  (s ++ List.replicate INITRD_PATH_LENGTH 0).take INITRD_PATH_LENGTH

def ImageHeader.pack (h : ImageHeader) (baseOffset : ℕ) : Option (List Byte) := do
  let name ← asciiBytes (h.filepath.take (INITRD_PATH_LENGTH - 1))
  let length ← packL h.length
  let offset ← packL (h.offset + baseOffset)
  some (packName name ++ length ++ offset)

/-- `'/' + p[len('initrd/'):]` -/
def rewritten (f : HostFile) : List Byte := PATH_SEPARATOR :: f.path.drop 7

structure ImageState where
  headers : List ImageHeader
  offset : ℕ
  data : List Byte

/-- One round of the loop over the files; a path that is too long is skipped. -/
def addFile (s : ImageState) (f : HostFile) : ImageState :=
  if f.path.length > INITRD_PATH_LENGTH then s
  else
    { headers := s.headers ++ [⟨rewritten f, f.contents.length, s.offset⟩]
      offset := s.offset + f.contents.length
      data := s.data ++ f.contents }

def packHeaders : List ImageHeader → Option (List Byte)
  | [] => some []
  | h :: hs => do
    let b ← h.pack 0
    let bs ← packHeaders hs
    some (b ++ bs)

/-- The image, unless `struct` or the encoding refuses a value. -/
def writeImage (files : List HostFile) : Option (List Byte) := do
  let s := files.foldl addFile ⟨[], 0, []⟩
  let count ← packH s.headers.length
  let headers ← packHeaders s.headers
  some (count ++ headers ++ s.data)

/-- The files that get into the image. -/
def accepted (files : List HostFile) : List HostFile :=
  files.filter fun f => f.path.length ≤ INITRD_PATH_LENGTH

/-! The file system. -/

/-- Memory from a 32-bit address on. -/
def view (m : Mem) (a : ℕ) : Mem := fun k => m (u32 (a + k))

/-- `sizeof(initrd_header_t)` -/
abbrev INITRD_HEADER_SIZE : ℕ := 68

structure Initrd where
  nheaders : ℕ
  headers : ℕ
  data : ℕ

/-- `start` is the virtual address of the module. -/
def initrdInit (m : Mem) (start : ℕ) : Initrd :=
  let nheaders := load16 (view m start) 0
  let headers := u32 (start + 2)
  ⟨nheaders, headers, u32 (headers + INITRD_HEADER_SIZE * nheaders)⟩

/-- `initrd_headers[i]` as memory. -/
def Initrd.header (rd : Initrd) (m : Mem) (i : ℕ) : Mem :=
  view m (rd.headers + INITRD_HEADER_SIZE * i)

/-- The inode number in the node that is opened; `name` is the first field of a header. -/
def initrdfsOpen (m : Mem) (rd : Initrd) (path : List Byte) : Option ℕ :=
  (List.range rd.nheaders).find? fun i => strcmp (rd.header m i) 0 path = 0

/-- `initrd_headers[inode].length` -/
def initrdLength (m : Mem) (rd : Initrd) (inode : ℕ) : ℕ :=
  load32 (rd.header m inode) INITRD_PATH_LENGTH

/-- The bytes of file `inode`, from where its header says. -/
def initrdContents (m : Mem) (rd : Initrd) (inode : ℕ) : List Byte :=
  (List.range (initrdLength m rd inode)).map fun k =>
    view m rd.data (load32 (rd.header m inode) (INITRD_PATH_LENGTH + 4) + k)

structure InitrdRead where
  r : ℕ
  buf : Mem
  offset : ℕ
  eof : Bool

/-- Both bounds of the loop are fixed, so the number of its rounds is known at entry. -/
def initrdfsRead (m : Mem) (rd : Initrd) (inode : ℕ) (buf : Mem) (nbytes offset : ℕ) :
    InitrdRead :=
  let length := load32 (rd.header m inode) INITRD_PATH_LENGTH
  let start := load32 (rd.header m inode) (INITRD_PATH_LENGTH + 4)
  let n := min (sub32 length offset) nbytes
  ⟨n, blit buf 0 (fun i => view m rd.data (start + i + offset)) n, u32 (offset + n), n == 0⟩

/-- The bytes of the first `k` reads of a file that was just opened, and its offset then.
Read `j` is for `sizes j` bytes, into a buffer that held `bufs j`. -/
def initrdReads (m : Mem) (rd : Initrd) (inode : ℕ) (bufs : ℕ → Mem) (sizes : ℕ → ℕ) :
    ℕ → List Byte × ℕ
  | 0 => ([], 0)
  | k + 1 =>
    let s := initrdReads m rd inode bufs sizes k
    let read := initrdfsRead m rd inode (bufs k) (sizes k) s.2
    (s.1 ++ (List.range read.r).map read.buf, read.offset)

/-- What read `k` returns. -/
def readResult (m : Mem) (rd : Initrd) (inode : ℕ) (bufs : ℕ → Mem) (sizes : ℕ → ℕ) (k : ℕ) : ℕ :=
  (initrdfsRead m rd inode (bufs k) (sizes k) (initrdReads m rd inode bufs sizes k).2).r

/-- The image stands in memory at `start`. -/
def Loaded (m : Mem) (start : ℕ) (image : List Byte) : Prop := Shows (view m start) image

end DepthOS
