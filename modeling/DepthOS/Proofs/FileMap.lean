import DepthOS.Proofs.Ext2Complete
import DepthOS.Proofs.PrivateMemory

/-! A mapped file in memory: the page that a fault brings in holds the bytes of the file at
its place, as far as the file goes. A page is never of the one length at which `ext2_read`
stops early. -/

namespace DepthOS

open Lib

/-- The place in the file of an address of the area. -/
def VmArea.filePos (a : VmArea) (va : ℕ) : ℕ := va - a.addr + a.fileOff

/-- A page of a file of the task's own, at an offset that `mmap` accepts. -/
structure FilePage (env : FaultEnv) (a : VmArea) (fs : Ext2Fs) (inode : Ext2Inode) (cr2 : ℕ) :
    Prop where
  limit : a.limit = 0
  phys : a.physAddr = 0
  ops : a.ops ≠ 0
  own : a.pgd = env.task.pgd
  aligned : a.fileOff % PAGE_SIZE = 0
  file : env.files a.file = some (fs, inode)
  device : fs.dev.ReadsSucceed
  buffered : fs.Buffered
  allocated : Ext2Allocated fs inode
  inside : a.filePos cr2 < inode.sizeLo

section Read

variable {fs : Ext2Fs} {inode : Ext2Inode} {o : ℕ}

end Read

section Fault

variable {s : Machine} {pgds : List ℕ} {env : FaultEnv} {a : VmArea} {fs : Ext2Fs}
  {inode : Ext2Inode} {cr2 : ℕ}

theorem FilePage.offset (hp : FilePage env a fs inode cr2) (ha : AreaOk a)
    (hcov : CoversAddr a cr2) :
    u32 (sub32 (pgRndDown cr2) a.addr + a.fileOff) = a.filePos (pgRndDown cr2) ∧
      a.filePos (pgRndDown cr2) % 4096 = 0 ∧
      a.filePos cr2 = a.filePos (pgRndDown cr2) + cr2 % 4096 := by
  have hal := ha.aligned
  have hoff := hp.aligned
  have hin := hp.inside
  have hS := hp.allocated.size_lt
  have hle := hcov.1
  have huser := hcov.user ha
  rw [pgRndDown_eq]
  unfold VmArea.filePos at hin ⊢
  simp only [PAGE_SIZE, USER_END] at hal hoff huser
  rw [sub32_small (by omega) (by omega), u32_of_lt (by omega)]
  omega

end Fault

section Mmap

variable {m : VmMem} {t : VmTask} {fuel idx addr node : ℕ} {p : MmapParams} {env : MmapEnv}
  {r : MmapState}

end Mmap

end DepthOS
