import DepthOS.Spec.Ext2Dir
import DepthOS.Spec.Fd
import DepthOS.Spec.Heap

/-! `sys_readentry` of `fs/fdops.c`. The only `iter` is the one of `fs/ext2.c`. -/

namespace DepthOS

open Lib

abbrev ENOTDIR : ℤ := 11

/-- `sizeof(struct dentry_user)` and `sizeof(struct dentry)`, both packed. -/
abbrev DENTRY_USER_SIZE : ℕ := 9
abbrev DENTRY_SIZE : ℕ := 13

/-- `sizeof(struct ext2_dentry)` -/
abbrev EXT2_DENTRY_SIZE : ℕ := 8

/-- The slab that `kmalloc` takes a cell from, found or new. -/
def kmallocSlab (h : Kheap) (size : ℤ) : Option ℕ × Kheap :=
  let size := cellSizeInt size
  let found := kmallocSearchInt size h.cache 0 0 0
  if found.1 ≠ 0 then (some found.2, h)
  else kheapCacheGrow h (sizeT size) (decide (1024 ≤ size))

/-- The bytes of that cell, 0 when there is none. -/
def kmallocCell (h : Kheap) (size : ℤ) : ℕ :=
  if size = 0 ∨ size > (HEAP_LGSLAB_PAGES * PAGE_SIZE : ℕ) then 0
  else
    match kmallocSlab h size with
    | (none, _) => 0
    | (some k, h') => (h'.cache[k]?).elim 0 HeapSlab.objectSize

/-- A slab with cells of 0 bytes: `kheap_cache_grow` divides by their size. -/
def kmallocDivides (h : Kheap) (size : ℤ) : Prop :=
  (kmallocInt h size).1 ≠ 0 ∧ kmallocCell h size = 0

instance (h : Kheap) (size : ℤ) : Decidable (kmallocDivides h size) := by
  unfold kmallocDivides; infer_instance

/-- A node of the file table as `readentry` uses it. -/
structure IterFile where
  type : FileType
  /-- `ops->iter` is not NULL -/
  iter : Bool
  fs : Ext2Fs
  cached : Ext2Inode
  pos : ℕ

/-- What the blocks of the call hold when `kmalloc` returns them. -/
structure ReadentryBlocks where
  entry : Dentry
  name : Mem
  raw : Mem

structure Readentry where
  ret : ℤ
  /-- from `buf` on -/
  buf : Mem
  /-- from `tmp->name` on -/
  name : Mem
  table : ℤ → Option IterFile
  heap : Kheap

/-- `*buf = (struct dentry_user){ ... }` -/
def storeDentryUser (buf : Mem) (entry : Dentry) : Mem :=
  store32 (store32 (Function.update buf 0 (BitVec.ofNat 8 entry.type)) 1 entry.inode) 5 entry.offset

/-- `none` is a fault: a store into an entry, a record or a name that `kmalloc` had no block for,
its division by 0, or a read that does not come back. -/
def sysReadentry (table : ℤ → Option IterFile) (h : Kheap) (blocks : ReadentryBlocks) (fd : ℤ)
    (buf : Mem) (size : ℕ) : Option Readentry :=
  let fail (ret : ℤ) := some ⟨ret, buf, blocks.name, table, h⟩
  match if fd < 0 ∨ fd ≥ TASK_FILETABLE_MAX then none else table fd with
  | none => fail (-EBADF)
  | some file =>
    if file.type ≠ .FS_DIR then fail (-ENOTDIR)
    else if ¬ file.iter then fail (-ENOSYS)
    else if size < DENTRY_USER_SIZE then fail (-EINVAL)
    else
      let maxNameLen := sub32 size DENTRY_USER_SIZE
      let tmp := kmallocInt h DENTRY_SIZE
      let name := kmallocInt tmp.2 (s32 maxNameLen)
      let raw := kmallocInt name.2 EXT2_DENTRY_SIZE
      (ext2Read file.fs file.cached blocks.raw EXT2_DENTRY_SIZE file.pos).bind fun header =>
      if tmp.1 = 0 ∨ kmallocDivides tmp.2 (s32 maxNameLen) ∨ raw.1 = 0 ∧ header.r ≠ 0 ∨
          name.1 = 0 ∧ header.r = EXT2_DENTRY_SIZE then none
      else
        (ext2Iter file.fs file.cached blocks.raw blocks.name blocks.entry maxNameLen
          file.pos).bind fun r =>
        (ext2IterName file.fs file.cached blocks.raw blocks.name maxNameLen
          file.pos).map fun stored =>
        if r.1 = 0 then ⟨0, buf, stored, table, raw.2⟩
        else
          let nameLen := min (sub32 maxNameLen 1) (cstring r.2.1.name).length
          let buf := blit (storeDentryUser buf r.2.1) DENTRY_USER_SIZE stored nameLen
          { ret := u32 (DENTRY_USER_SIZE + nameLen + 1)
            buf := Function.update buf (DENTRY_USER_SIZE + nameLen) 0
            name := stored
            table := Function.update table fd (some { file with pos := r.2.2 })
            heap := kfree (kfree raw.2 name.1 maxNameLen) tmp.1 DENTRY_SIZE }

end DepthOS
