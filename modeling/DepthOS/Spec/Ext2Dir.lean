import DepthOS.Spec.Ext2

/-! Directories of `fs/ext2.c`: `ext2_iter` reads one record after the other
through `ext2_read`, `ext2_read_dentries` scans one block, and `ext2_open` looks
a path component up in what that scan has left in its buffer. A name is the list
of its bytes before the terminator. `none` is a call that does not come back: from a
page fault, or from the assertion on the block buffer. -/

namespace DepthOS

open Lib

structure Dentry where
  inode : ℕ
  type : ℕ
  name : List Byte
  offset : ℕ

/-- The fields of `struct ext2_dentry` for a record at `a`. -/
def rawInode (m : Mem) (a : ℕ) : ℕ := load32 m a

def rawSize (m : Mem) (a : ℕ) : ℕ := load16 m (a + 4)

def rawNameLength (m : Mem) (a : ℕ) : ℕ := (m (a + 6)).toNat

def rawType (m : Mem) (a : ℕ) : ℕ := (m (a + 7)).toNat

def bytesAt (m : Mem) (a n : ℕ) : List Byte := (List.range n).map fun k => m (a + k)

@[simp] theorem bytesAt_length (m : Mem) (a n : ℕ) : (bytesAt m a n).length = n := by
  simp [bytesAt]

theorem bytesAt_add (m : Mem) (a n k : ℕ) :
    bytesAt m a (n + k) = bytesAt m a n ++ bytesAt m (a + n) k := by
  simp only [bytesAt, List.range_add, List.map_append, List.map_map]
  congr 1
  apply List.map_congr_left
  intro i _
  exact congrArg m (by simp [Nat.add_assoc])

/-- What a reader of the C string sees. -/
def cstring (s : List Byte) : List Byte := s.takeWhile (· ≠ 0)

theorem cstring_append {s l : List Byte} (h : (0 : Byte) ∉ s) : cstring (s ++ 0 :: l) = s := by
  have hall : ∀ b ∈ s, decide (b ≠ 0) = true :=
    fun b hb => decide_eq_true fun h0 : b = 0 => h (h0 ▸ hb)
  unfold cstring
  rw [List.takeWhile_append_of_pos hall, List.takeWhile_cons_of_neg (by simp), List.append_nil]

/-- The loop of `ext2_read_dentries`; `raw` is where `raw_dentries` points. The slot of
a record without inode is counted but not written. -/
def readDentriesLoop (blkbuf : Mem) (blockSize n : ℕ) :
    (fuel i j raw : ℕ) → (ℕ → Dentry) → ℕ × (ℕ → Dentry)
  | 0, _, j, _, dentries => (j, dentries)
  | fuel + 1, i, j, raw, dentries =>
    if i < blockSize ∧ j < n ∧ (rawSize blkbuf raw ≠ 0 ∨ rawNameLength blkbuf raw ≠ 0) then
      if rawInode blkbuf i = 0 then
        readDentriesLoop blkbuf blockSize n fuel (u32 (i + rawSize blkbuf i)) (j + 1) i dentries
      else if rawSize blkbuf i = 0 then (j, dentries)
      else
        readDentriesLoop blkbuf blockSize n fuel (u32 (i + rawSize blkbuf i)) (j + 1) i
          (Function.update dentries j
            ⟨rawInode blkbuf i, rawType blkbuf i, bytesAt blkbuf (i + 8) (rawNameLength blkbuf i), i⟩)
    else (j, dentries)

/-- Every round takes a slot, so `n` rounds are enough. -/
def ext2ReadDentries (fs : Ext2Fs) (inode : Ext2Inode) (dentries : ℕ → Dentry) (n : ℕ) :
    Option (ℕ × (ℕ → Dentry)) :=
  (fs.kmallocBlock (fs.fresh 0).dentries).bind fun blkbuf =>
  let blkbuf := blit blkbuf 0 (fun _ => 0) fs.blockSize
  (ext2SyncInodeData fs inode 0 blkbuf fs.blockSize false).map fun (_, blkbuf) =>
  readDentriesLoop blkbuf fs.blockSize n n 0 0 0 dentries

abbrev EXT2_INODE_T_DIR : ℕ := 0x4000

/-- The walk of `ext2_open` over the components of a path, with the inode it ends at, `some none`
for NULL. `==` binds tighter than `&`, so the test for a directory masks with 0. -/
def ext2Walk : (fs : Ext2Fs) → List (List Byte) → Ext2Inode → ℕ → (ℕ → Dentry) →
    Option (Option (Ext2Inode × ℕ))
  | _, [], curr, icurr, _ => some (some (curr, icurr))
  | fs, pfrag :: rest, curr, icurr, dentryBuffer =>
    if curr.typePermissions &&& (EXT2_INODE_T_DIR == 0).toNat ≠ 0 then
      ext2Walk fs rest curr icurr dentryBuffer
    else if pfrag = [] then ext2Walk fs rest curr icurr dentryBuffer
    else
      (ext2ReadDentries fs curr dentryBuffer 1024).bind fun (n, dentryBuffer) =>
      match (List.range n).find? fun j => cstring pfrag == cstring (dentryBuffer j).name with
      | some j => ext2Walk fs.next rest (ext2GetInode fs (dentryBuffer j).inode)
          (dentryBuffer j).inode dentryBuffer
      | none => some none

/-- Returns the value, the entry and the new offset. `raw` and `name` are the contents
of the two buffers before the call. -/
def ext2Iter (fs : Ext2Fs) (file : Ext2Inode) (raw name : Mem) (dst : Dentry)
    (maxNameLen offset : ℕ) : Option (ℕ × Dentry × ℕ) :=
  let dst := { dst with offset := offset }
  (ext2Read fs file raw 8 offset).bind fun h =>
  if h.r = 0 then some (0, dst, offset)
  else if h.r < 8 then some (0, dst, offset)
  else
    let len := min (sub32 maxNameLen 1) (rawNameLength h.buf 0)
    (ext2Read fs.next file name len h.offset).map fun nm =>
    (u32 (h.r + nm.r),
      { dst with
        name := bytesAt nm.buf 0 nm.r
        inode := rawInode h.buf 0
        type := rawType h.buf 0 },
      u32 (offset + rawSize h.buf 0))

/-- What the same call leaves in `dst->name`: the bytes it has read and a terminator. -/
def ext2IterName (fs : Ext2Fs) (file : Ext2Inode) (raw name : Mem) (maxNameLen offset : ℕ) :
    Option Mem :=
  (ext2Read fs file raw 8 offset).bind fun h =>
  if h.r < 8 then some name
  else
    let len := min (sub32 maxNameLen 1) (rawNameLength h.buf 0)
    (ext2Read fs.next file name len h.offset).map fun nm => Function.update nm.buf nm.r 0

/-- Calls repeated from `offset` on until one returns 0 yield the entry `d`; the
buffers may hold anything at each call. -/
inductive IterYields (fs : Ext2Fs) (file : Ext2Inode) (maxNameLen : ℕ) : ℕ → Dentry → Prop
  | here {fresh : ℕ → Leftovers} {raw name : Mem} {dst d : Dentry} {offset ret next : ℕ} :
    ext2Iter (fs.refresh fresh) file raw name dst maxNameLen offset = some (ret, d, next) →
    ret ≠ 0 → IterYields fs file maxNameLen offset d
  | later {fresh : ℕ → Leftovers} {raw name : Mem} {dst e d : Dentry} {offset ret next : ℕ} :
    ext2Iter (fs.refresh fresh) file raw name dst maxNameLen offset = some (ret, e, next) →
    ret ≠ 0 → IterYields fs file maxNameLen next d → IterYields fs file maxNameLen offset d

/-- A record on disk. -/
structure DirRec where
  inode : ℕ
  size : ℕ
  type : ℕ
  name : List Byte

def recAt (c : Mem) (a : ℕ) : DirRec :=
  ⟨rawInode c a, rawSize c a, rawType c a, bytesAt c (a + 8) (rawNameLength c a)⟩

/-- The records `rs` fill the bytes from `a` to `e`. -/
def Tiled (c : Mem) : ℕ → ℕ → List DirRec → Prop
  | a, e, [] => a = e
  | a, e, r :: rs => recAt c a = r ∧ 8 + r.name.length ≤ r.size ∧ a + r.size ≤ e ∧
    Tiled c (a + r.size) e rs

/-- Byte `x` of a file. -/
def pathByte (fs : Ext2Fs) (inode : Ext2Inode) (triple x : ℕ) : Byte :=
  mapByte fs (fun i => (blockPath fs inode triple i).getLastD 0) x

/-- A directory as the format has it: its blocks are allocated, wherever they lie, and filled
by the given records. -/
structure Ext2WellFormed (fs : Ext2Fs) (dir : Ext2Inode) (triple : ℕ)
    (blocks : List (List DirRec)) : Prop where
  size_lt : dir.sizeLo < 2147483648
  size : dir.sizeLo = blocks.length * fs.blockSize
  allocated : ∀ i < blocks.length, ∀ b ∈ blockPath fs dir triple i, b ≠ 0
  tiled : ∀ (b : ℕ) (hb : b < blocks.length),
    Tiled (pathByte fs dir triple) (b * fs.blockSize) ((b + 1) * fs.blockSize) blocks[b]
  aligned : ∀ r ∈ blocks.flatten, 4 ∣ r.size

/-- A directory whose blocks are allocated, wherever they lie, and hold the given records, those
in use with distinct names. -/
structure Ext2Directory (fs : Ext2Fs) (dir : Ext2Inode) (triple : ℕ)
    (blocks : List (List DirRec)) : Prop where
  size_lt : dir.sizeLo < 4294967296
  size : dir.sizeLo = blocks.length * fs.blockSize
  allocated : ∀ i < blocks.length, ∀ b ∈ blockPath fs dir triple i, b ≠ 0
  tiled : ∀ (b : ℕ) (hb : b < blocks.length),
    Tiled (pathByte fs dir triple) (b * fs.blockSize) ((b + 1) * fs.blockSize) blocks[b]
  names : ((blocks.flatten.filter (·.inode ≠ 0)).map (·.name)).Nodup
  text : ∀ r ∈ blocks.flatten, r.inode ≠ 0 → (0 : Byte) ∉ r.name

end DepthOS
