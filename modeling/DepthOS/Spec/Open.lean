import DepthOS.Lib.Run
import DepthOS.Spec.Ext2Dir
import DepthOS.Spec.Fd
import DepthOS.Spec.Initrd

/-! Open files as nodes that file tables share: `vfs_open` over `devfs`, the initial
ramdisk and `ext2`, and `open`, `close` and `dup3` of `fs/fdops.c` on them, for any number
of tasks. The nodes of `devfs` stand in its own table, every other node comes from
`kmalloc` and is never freed. -/

namespace DepthOS

open Lib

/-! Nodes, pipes and file tables. -/

/-- A pointer to `devfs_files[i]` or to the node `kmalloc` returned `k`-th. -/
inductive NodeRef where
  | devfs (i : ℕ)
  | heap (k : ℕ)
deriving DecidableEq

/-- The file operations of a node, one table for each file system and pipe end. -/
inductive NodeOps where
  | devfs
  | initrd
  | ext2
  | pipeRead
  | pipeWrite
deriving DecidableEq

/-- `struct fs_node`, as far as opening and closing look at it. -/
structure FsNode where
  name : CString
  path : CString
  /-- `none` is any other value of the byte -/
  type : Option FileType
  pos : ℕ
  eof : Bool
  dev : ℕ
  inodeNum : ℕ
  rdonly : Bool
  ops : NodeOps
  /-- an entry of `open_pipes` -/
  pipe : Option ℕ

/-- `struct open_pipe` without its buffer. -/
structure OpenPipe where
  device : ℕ
  inode : ℕ
  nReaders : ℤ
  nWriters : ℤ

abbrev NodeTable : Type := ℕ → Option NodeRef

structure OpenState where
  /-- `devfs_files[0..devfs_file_count)` -/
  devfsFiles : List FsNode
  nodes : List FsNode
  openPipes : List OpenPipe
  /-- the file table of each task that has one -/
  tables : List NodeTable

def OpenState.node (s : OpenState) : NodeRef → Option FsNode
  | .devfs i => s.devfsFiles[i]?
  | .heap k => s.nodes[k]?

def OpenState.setNode (s : OpenState) (r : NodeRef) (n : FsNode) : OpenState :=
  match r with
  | .devfs i => { s with devfsFiles := s.devfsFiles.set i n }
  | .heap k => { s with nodes := s.nodes.set k n }

def OpenState.setSlot (s : OpenState) (task fd : ℕ) (r : Option NodeRef) : OpenState :=
  { s with tables := s.tables.modify task fun t => Function.update t fd r }

/-- Some slot of some table holds the node. -/
def Installed (s : OpenState) (r : NodeRef) : Prop :=
  ∃ t ∈ s.tables, ∃ i < TASK_FILETABLE_MAX, t i = some r

/-! Paths. -/

/-- What `vfs_resolve` returns, and the working directory it starts from. -/
structure AbsPath where
  str : CString
  abs : str.bytes.head? = some PATH_SEPARATOR

def AbsPath.root : AbsPath := ⟨rootPath, rfl⟩

def CString.append (s t : CString) : CString :=
  ⟨s.bytes ++ t.bytes, fun h => (List.mem_append.1 h).elim s.text t.text⟩

def vfsResolve (path : CString) (cwd : AbsPath) : AbsPath :=
  if h : path.bytes.head? = some PATH_SEPARATOR then ⟨path, h⟩
  else
    ⟨CString.append
      (if cwd.str.bytes.getLast? ≠ some PATH_SEPARATOR then CString.append cwd.str rootPath
        else cwd.str) path,
      by
        split
        all_goals
          cases hb : cwd.str.bytes with
          | nil => exact absurd cwd.abs (by simp [hb])
          | cons b bs => simpa [CString.append, hb] using cwd.abs⟩

/-- `node->path` -/
def nodePath (path : CString) : CString :=
  if path.length > 1 ∧ path.bytes.getLast? = some PATH_SEPARATOR then path.take (path.length - 1)
  else path

/-- What follows the last separator. -/
def nodeName (path : CString) : CString :=
  path.drop (path.length - (path.bytes.reverse.takeWhile (· ≠ PATH_SEPARATOR)).length)

/-- The rounds of `strsplt` from fragment `c` on, with the rest of the string at `p`; the
delimiter is not NUL. -/
def strspltLoop (bufStrSize n : ℕ) (delim : Byte) : ℕ → ℕ → List Byte → Mem → ℕ × Mem
  | 0, c, _, dest => (c, dest)
  | fuel + 1, c, p, dest =>
    match p.findIdx? (· = delim) with
    | none => (c + 1, blit dest (bufStrSize * c) (ofBytes p) (p.length + 1))
    | some k =>
      if n > 0 ∧ c = n then (c + 1, blit dest (bufStrSize * c) (ofBytes p) (p.length + 1))
      else
        strspltLoop bufStrSize n delim fuel (c + 1) (p.drop (k + 1))
          (blit dest (bufStrSize * c) (ofBytes (p.take k)) (k + 1))

/-- Each round takes a delimiter, so the length of the string bounds them. -/
def strsplt (src : CString) (dest : Mem) (bufStrSize n : ℕ) (delim : Byte) : ℕ × Mem :=
  strspltLoop bufStrSize n delim (src.length + 1) 0 src.bytes dest

/-! The file systems. -/

inductive FsImpl where
  | devfs
  | initrd (rd : Initrd)
  | ext2 (fs : Ext2Fs) (root : Ext2Inode)

/-- `struct filesystem`; `dev` is the id of its device, `none` without one. -/
structure Filesystem where
  impl : FsImpl
  dev : Option ℕ

/-- What opening a file reads and does not change. -/
structure OpenEnv where
  vfs : Vfs
  /-- behind `fsi` -/
  filesystems : ℕ → Filesystem
  /-- where the ramdisk stands -/
  mem : Mem
  /-- of the task's process, if it has one -/
  cwd : Option AbsPath
  fuel : ℕ
  /-- what the copies of the path made by `find_mount` lie over, call by call -/
  block : ℕ → Mem
  /-- what the block buffers of `ext2` hold, call by call -/
  fresh : ℕ → ℕ → Leftovers
  /-- what `pfrag`, the buffer for the entries and a node hold at first -/
  pfrag : Mem
  dentries : ℕ → Dentry
  junk : FsNode

/-- The loop of `devfs_open` from `i` on. -/
def devfsOpen (path : CString) : ℕ → List FsNode → Option (ℕ × FsNode)
  | _, [] => none
  | i, file :: files =>
    if sameStr file.name (path.drop 1) then some (i, file) else devfsOpen path (i + 1) files

/-- The components `ext2_open` walks over. -/
def ext2Fragments (pfrag : Mem) (path : CString) : List (List Byte) :=
  let (n, pfrag) := strsplt path pfrag 256 100 PATH_SEPARATOR
  let first := if path.bytes.head? = some PATH_SEPARATOR then 1 else 0
  ((List.range n).drop first).map fun i => cstring (bytesAt pfrag (256 * i) (256 * 101))

abbrev EXT2_INODE_T_FIFO : ℕ := 0x1000
abbrev EXT2_INODE_T_FILE : ℕ := 0x8000
abbrev EXT2_INODE_T_SOCKET : ℕ := 0xc000

/-- `DEFINE_NODE_TYPE` in its order, where a later match replaces an earlier one. -/
def ext2NodeType (typePermissions : ℕ) (type : Option FileType) : Option FileType :=
  let define (bits : ℕ) (t : FileType) (type : Option FileType) : Option FileType :=
    if typePermissions &&& bits ≠ 0 then some t else type
  define EXT2_INODE_T_FILE .FS_FILE <| define EXT2_INODE_T_DIR .FS_DIR <|
    define EXT2_INODE_T_SOCKET .FS_SOCKET <| define EXT2_INODE_T_FIFO .FS_PIPE type

/-- What a file system returns: its own node, or one that it has just allocated. -/
inductive Found where
  | shared (i : ℕ) (n : FsNode)
  | fresh (n : FsNode)

/-- `mountpoint->fsi->ops->open`, `some none` for NULL. `none` is a walk that does not come
back. -/
def fsOpen (env : OpenEnv) (files : List FsNode) (impl : FsImpl) (path : CString) (call : ℕ) :
    Option (Option Found) :=
  match impl with
  | .devfs => some ((devfsOpen path 0 files).map fun f => .shared f.1 f.2)
  | .initrd rd =>
    some ((initrdfsOpen env.mem rd path.bytes).map fun _ =>
      .fresh { env.junk with type := some .FS_FILE, ops := .initrd, pos := 0 })
  | .ext2 fs root =>
    (ext2Walk (fs.refresh (env.fresh call)) (ext2Fragments env.pfrag path) root 2
      env.dentries).map fun curr => curr.map fun f =>
        .fresh { env.junk with
          type := ext2NodeType f.1.typePermissions env.junk.type
          ops := .ext2
          inodeNum := f.2 }

/-- The mount a call of `find_mount` returns, `some none` for NULL. `none` is a walk that
does not end, or a mount that is gone. -/
def mountOf (env : OpenEnv) (path : AbsPath) (call : ℕ) : Option (Option Mount) :=
  match findMount env.fuel env.vfs path.str (env.block call) with
  | none => none
  | some none => some none
  | some (some m) => env.vfs.mounts[m]?.map some

/-- `vfs_open` up to the node, with the file system it is from. -/
def vfsLookup (env : OpenEnv) (files : List FsNode) (path : AbsPath) (call : ℕ) :
    Option (Option (Found × Filesystem)) :=
  (mountOf env path call).bind fun
    | none => some none
    | some mountpoint =>
      let fsi := env.filesystems mountpoint.fsi
      (fsOpen env files fsi.impl (getRelativeMountpointPath mountpoint path.str) call).map
        fun f => f.map (·, fsi)

/-- What `vfs_open` stores into the node it got. -/
def vfsNode (path : AbsPath) (fsi : Filesystem) (n : FsNode) : FsNode :=
  { n with
    path := nodePath path.str
    name := nodeName (nodePath path.str)
    eof := false
    pos := 0
    dev := fsi.dev.getD 0 }

/-- The node and what it holds, and the state. -/
def vfsOpen (env : OpenEnv) (s : OpenState) (path : AbsPath) (call : ℕ) :
    Option (Option (NodeRef × FsNode) × OpenState) :=
  (vfsLookup env s.devfsFiles path call).map fun
    | none => (none, s)
    | some (.shared i n, fsi) =>
      let n := vfsNode path fsi n
      (some (.devfs i, n), s.setNode (.devfs i) n)
    | some (.fresh n, fsi) =>
      let n := vfsNode path fsi n
      (some (.heap s.nodes.length, n), { s with nodes := s.nodes ++ [n] })

/-- No file system has a `create`, so NULL is what it always returns. -/
def vfsCreate (env : OpenEnv) (s : OpenState) (path : AbsPath) : Option OpenState :=
  match mountOf env path 1 with
  | none => none
  | some none => some s
  | some (some _) => (vfsOpen env s path 2).map (·.2)

/-! The system calls. -/

/-- The entry and the list; the device is not compared. -/
def pipeOpen (openPipes : List OpenPipe) (device inode : ℕ) : ℕ × List OpenPipe :=
  match openPipes.findIdx? fun op => inode = op.inode with
  | some k => (k, openPipes)
  | none => (openPipes.length, openPipes ++ [⟨device, inode, 0, 0⟩])

def OpenPipe.attach (op : OpenPipe) (flags : ℕ) : OpenPipe :=
  if flags &&& FD_RDONLY ≠ 0 then { op with nReaders := op.nReaders + 1 }
  else { op with nWriters := op.nWriters + 1 }

/-- A FIFO gets its pipe, and the pipe one more end. -/
def openPipeEnd (s : OpenState) (n : FsNode) (flags : ℕ) : FsNode × OpenState :=
  if n.type = some .FS_PIPE then
    let r := pipeOpen s.openPipes n.dev n.inodeNum
    ({ n with pipe := some r.1 }, { s with openPipes := r.2.modify r.1 (·.attach flags) })
  else (n, s)

def findAvailableSlot (t : NodeTable) : Option ℕ :=
  (List.range TASK_FILETABLE_MAX).find? fun i => t i = none

/-- `open` from the point where there is a node. -/
def openNodeAt (s : OpenState) (task : ℕ) (t : NodeTable) (file : NodeRef) (n : FsNode)
    (flags : ℕ) : ℤ × OpenState :=
  let r := openPipeEnd s n flags
  let s := r.2.setNode file { r.1 with rdonly := flags &&& FD_RDONLY ≠ 0 }
  match findAvailableSlot t with
  | none => (-EMFILE, s)
  | some fd => (fd, s.setSlot task fd (some file))

/-- The value is `none` for the fault on the NULL node of a failed `vfs_create`. -/
def taskOpen (env : OpenEnv) (s : OpenState) (task : ℕ) (path : CString) (flags : ℕ) :
    Option (Option ℤ × OpenState) :=
  match s.tables[task]? with
  | none => some (some (-ENIMPL), s)
  | some t =>
    let rpath := vfsResolve path (env.cwd.getD AbsPath.root)
    match vfsOpen env s rpath 0 with
    | none => none
    | some (some (file, n), s) => some ((openNodeAt s task t file n flags).map some id)
    | some (none, s) =>
      if flags &&& O_CREAT ≠ 0 then (vfsCreate env s rpath).map (none, ·)
      else some (some (-ENOENT), s)

/-- `lookup_file`, for a descriptor of type `int`. -/
def taskFile (t : NodeTable) (fd : ℤ) : Option (ℕ × NodeRef) :=
  if fd < 0 ∨ fd ≥ TASK_FILETABLE_MAX then none else (t fd.toNat).map (fd.toNat, ·)

/-- The operations of a pipe end are told by their `read`, else their `write`. -/
def OpenPipe.detach (op : OpenPipe) (ops : NodeOps) : OpenPipe :=
  match ops with
  | .pipeRead => { op with nReaders := op.nReaders - 1 }
  | .pipeWrite => { op with nWriters := op.nWriters - 1 }
  | _ => op

/-- `pipe_file_close` on the node at `file`. -/
def pipeFileClose (s : OpenState) (file : NodeRef) (n : FsNode) (k : ℕ) : OpenState :=
  let s := { s with openPipes := s.openPipes.modify k (·.detach n.ops) }
  if s.openPipes[k]?.any fun op => op.nWriters = 0 then s.setNode file { n with eof := true }
  else s

def closePipeEnd (s : OpenState) (file : NodeRef) (n : FsNode) : OpenState :=
  match n.pipe with
  | none => s
  | some k => if n.type = some .FS_PIPE then pipeFileClose s file n k else s

/-- `vfs_close` changes no field of the node. -/
def taskClose (s : OpenState) (task : ℕ) (fd : ℤ) : Option ℤ × OpenState :=
  match s.tables[task]? with
  | none => (none, s)
  | some t =>
    match taskFile t fd with
    | none => (some (-EBADF), s)
    | some (fd, file) =>
      match s.node file with
      | none => (none, s)
      | some n => (some 0, (closePipeEnd s file n).setSlot task fd none)

def taskDup3 (s : OpenState) (task : ℕ) (oldfd newfd : ℤ) : Option ℤ × OpenState :=
  match s.tables[task]? with
  | none => (none, s)
  | some t =>
    match taskFile t oldfd with
    | none => (some (-EBADF), s)
    | some (_, file) =>
      if newfd = -1 then
        match findAvailableSlot t with
        | none => (some (-EMFILE), s)
        | some i => (some i, s.setSlot task i (some file))
      else if newfd < 0 ∨ newfd ≥ TASK_FILETABLE_MAX then (some (-EBADF), s)
      else (some newfd, s.setSlot task newfd.toNat (some file))

/-! Any interleaving of the calls by the tasks, a call being one step. -/

inductive FileEvent where
  | openFile (env : OpenEnv) (task : ℕ) (path : CString) (flags : ℕ)
  | close (task : ℕ) (fd : ℤ)
  | dup3 (task : ℕ) (oldfd newfd : ℤ)

def FileStep (s : OpenState) (e : FileEvent) (s' : OpenState) : Prop :=
  match e with
  | .openFile env task path flags => ∃ v, taskOpen env s task path flags = some (v, s')
  | .close task fd => (taskClose s task fd).2 = s'
  | .dup3 task oldfd newfd => (taskDup3 s task oldfd newfd).2 = s'

end DepthOS
