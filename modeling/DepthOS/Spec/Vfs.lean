import DepthOS.Lib.Run
import DepthOS.Spec.String

/-! The mount table of `fs/vfs.c` and the search in it. A mount pointer is an index into
`vfs_mounts`. `find_mount` works on a copy of the path in a block from `kmalloc`, which is
memory from the block's first byte on and holds what was left there. -/

namespace DepthOS

open Lib

abbrev MAX_VFS_MOUNTS : ℕ := 256

/-- `'/'` -/
abbrev PATH_SEPARATOR : Byte := 47

/-- `"/"` -/
def rootPath : CString := ⟨[PATH_SEPARATOR], by decide⟩

structure Mount where
  path : CString
  fsi : ℕ
deriving DecidableEq

structure Vfs where
  /-- `vfs_mounts[0..vfs_mounts_count)` -/
  mounts : List Mount
  /-- `none` is NULL -/
  rootMount : Option ℕ

/-- `strcmp(s, t) == 0` -/
def sameStr (s t : CString) : Bool := strcmp (ofBytes s.bytes) 0 t.bytes = 0

/-- `fsi` is what the file system's `mount` returned, `none` for NULL. -/
def vfsMount (v : Vfs) (path : CString) (fsi : Option ℕ) : Option ℕ × Vfs :=
  match fsi with
  | none => (none, v)
  | some fsi =>
    (some v.mounts.length,
      { mounts := v.mounts ++ [⟨path, fsi⟩]
        rootMount := if sameStr path rootPath then some v.mounts.length else v.rootMount })

/-- The last entry moves to the place of the one that goes. `root_mount` is reset where
`strcmp(path, "/")` is not 0. -/
def vfsUnmount (v : Vfs) (path : CString) : Bool × Vfs :=
  let v := if !sameStr path rootPath then { v with rootMount := none } else v
  match v.mounts.findIdx? fun m => sameStr path m.path with
  | none => (false, v)
  | some i =>
    let mounts := match v.mounts.getLast? with
      | none => v.mounts
      | some last => v.mounts.set i last
    (true, { v with mounts := mounts.dropLast })

/-- The path is the string at the start of `str`. -/
def findMountExact (v : Vfs) (str : Mem) : Option ℕ :=
  v.mounts.findIdx? fun m => strcmp str 0 m.path.bytes = 0

/-- The loop of `find_mount`, with fuel for its rounds and for each walk to a NUL. -/
def findMountLoop (v : Vfs) (walk : ℕ) : ℕ → Mem → Option (Option ℕ)
  | 0, _ => none
  | fuel + 1, str =>
    match strrchr walk str 0 PATH_SEPARATOR with
    | none => none
    | some none => some v.rootMount
    | some (some substr) =>
      match findMountExact v str with
      | some i => some (some i)
      | none => findMountLoop v walk fuel (Function.update str substr 0)

/-- The bytes of the path are copied without its NUL. -/
def findMount (fuel : ℕ) (v : Vfs) (path : CString) (block : Mem) : Option (Option ℕ) :=
  if sameStr path rootPath then some v.rootMount
  else findMountLoop v fuel fuel (blit block 0 (ofBytes path.bytes) path.length)

def getRelativeMountpointPath (mountpoint : Mount) (path : CString) : CString :=
  if sameStr path mountpoint.path then rootPath
  else if !sameStr mountpoint.path rootPath then path.drop mountpoint.path.length
  else path

inductive VfsEvent where
  | mount (path : CString) (fsi : Option ℕ)
  | unmount (path : CString)

/-- A path is mounted while there is room and it is not mounted yet; anything may be
unmounted. -/
def VfsStep (v : Vfs) (e : VfsEvent) (v' : Vfs) : Prop :=
  match e with
  | .mount path fsi =>
    v.mounts.length < MAX_VFS_MOUNTS ∧ (∀ m ∈ v.mounts, m.path ≠ path) ∧
    v' = (vfsMount v path fsi).2
  | .unmount path => v' = (vfsUnmount v path).2

def VfsBoot (v : Vfs) : Prop := v = ⟨[], none⟩

end DepthOS
