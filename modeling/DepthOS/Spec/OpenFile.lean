import DepthOS.Lib.Cursor
import DepthOS.Spec.Open
import DepthOS.Spec.Seek

/-! What tasks do with open files: `read`, `write`, `seek` and `readentry` of `fs/fdops.c`, and
the file table of a `fork`, beside `open`, `close` and `dup3`. The nodes of ext2 are followed
through `ext2_read`, `ext2_write` and `ext2_seek`; of the other files only what a call can
change is known. -/

namespace DepthOS

open Lib

/-- A write stores nothing: the part of the block loop for it is commented out. -/
def ext2Write (fs : Ext2Fs) (cached : Ext2Inode) (buf : Mem) (n offset : ℕ) : Option (ℕ × ℕ) :=
  (ext2SyncInodeData fs cached offset buf n true).map fun (r, _) => (r, u32 (offset + r))

/-- What a node of ext2 holds in `fs` and `impl`, and whether `socket` came out of `kmalloc` as
something other than NULL. -/
structure Ext2File where
  fs : Ext2Fs
  cached : Ext2Inode
  socket : Bool

structure OpenFiles where
  state : OpenState
  /-- of the nodes from `kmalloc` -/
  files : ℕ → Option Ext2File

/-- What `vfs_open` puts into the node that it allocates. -/
def openedFile (env : OpenEnv) (s : OpenState) (path : AbsPath) (socket : Bool) :
    Option Ext2File :=
  match vfsLookup env s.devfsFiles path 0 with
  | some (some (.fresh n, fsi)) =>
    match fsi.impl with
    | .ext2 fs _ => some ⟨fs, ext2GetInode fs n.inodeNum, socket⟩
    | _ => none
  | _ => none

/-- The next node from `kmalloc` gets that file. -/
def OpenFiles.allot (s : OpenFiles) (file : Option Ext2File) : ℕ → Option Ext2File :=
  Function.update s.files s.state.nodes.length file

/-- `lookup_file`: the node behind a descriptor, or the `errno`. `none` is a task without a
table. -/
def OpenFiles.lookup (s : OpenFiles) (task : ℕ) (fd : ℤ) : Option (Except ℤ (NodeRef × FsNode)) :=
  (s.state.tables[task]?).bind fun t =>
    match taskFile t fd with
    | none => some (.error EBADF)
    | some (_, r) => (s.state.node r).map fun node => .ok (r, node)

/-- The file of a node whose operations are those of ext2. -/
def OpenFiles.ext2File (s : OpenFiles) (r : NodeRef) (node : FsNode) : Option Ext2File :=
  match r with
  | .devfs _ => none
  | .heap k => if node.ops = .ext2 then s.files k else none

/-- One that is no pipe and no socket, so that `read` and `write` get to its operations. -/
def OpenFiles.plainFile (s : OpenFiles) (r : NodeRef) (node : FsNode) : Option Ext2File :=
  (s.ext2File r node).filter fun f => node.pipe.isNone && !f.socket

def OpenFiles.setNode (s : OpenFiles) (r : NodeRef) (node : FsNode) : OpenFiles :=
  { s with state := s.state.setNode r node }

/-- The value, the memory at `buf` afterwards and the files. `none` where the call leads to
another kind of file, `some none` where it faults. `fresh` is what the block buffers hold. -/
def taskRead (s : OpenFiles) (task : ℕ) (fd : ℤ) (buf n : ℕ) (fresh : ℕ → Leftovers) (m : Mem) :
    Option (Option (ℤ × Mem × OpenFiles)) :=
  if checkBuf buf then some (some (-EFAULT, m, s))
  else
    match s.lookup task fd with
    | none => none
    | some (.error e) => some (some (-e, m, s))
    | some (.ok (r, node)) =>
      (s.plainFile r node).map fun f =>
        (ext2Read (f.fs.refresh fresh) f.cached m n node.pos).map fun x =>
          (x.r, x.buf, s.setNode r { node with pos := x.offset, eof := node.eof || x.eof })

def taskWrite (s : OpenFiles) (task : ℕ) (fd : ℤ) (buf n : ℕ) (fresh : ℕ → Leftovers) (m : Mem) :
    Option (Option (ℤ × OpenFiles)) :=
  if checkBuf buf then some (some (-EFAULT, s))
  else
    match s.lookup task fd with
    | none => none
    | some (.error e) => some (some (-e, s))
    | some (.ok (r, node)) =>
      (s.plainFile r node).map fun f =>
        (ext2Write (f.fs.refresh fresh) f.cached m n node.pos).map fun x =>
          (x.1, s.setNode r { node with pos := x.2 })

/-- `seek` does not ask for pipes and sockets. -/
def taskSeek (s : OpenFiles) (task : ℕ) (fd off whence : ℤ) : Option (ℤ × OpenFiles) :=
  match s.lookup task fd with
  | none => none
  | some (.error e) => some (-e, s)
  | some (.ok (r, node)) =>
    (s.ext2File r node).map fun f =>
      let x := ext2Seek f.cached node.pos off whence
      (x.ret, s.setNode r { node with pos := x.pos })

theorem tty0_text : (0 : Byte) ∉ [47, 100, 101, 118, 47, 116, 116, 121, 48] := by decide

/-- `/dev/tty0` -/
def tty0Path : AbsPath := ⟨⟨[47, 100, 101, 118, 47, 116, 116, 121, 48], tty0_text⟩, rfl⟩

/-- The table of a child. -/
def forkTable (tty : Option NodeRef) (parent : NodeTable) : NodeTable := fun i =>
  forkFiletable (fun _ => tty) (fun _ => none) (fun j : ℤ => parent j.toNat) i

def taskFork (env : OpenEnv) (s : OpenFiles) (task : ℕ) (socket : Bool) : Option OpenFiles :=
  (s.state.tables[task]?).bind fun parent =>
    (vfsOpen env s.state tty0Path 0).map fun r =>
      { state := { r.2 with tables := r.2.tables ++ [forkTable (r.1.map (·.1)) parent] }
        files := s.allot (openedFile env s.state tty0Path socket) }

/-- What a call can do to a file of another kind, and `readentry` to a directory: it moves the
position and sets the end-of-file mark. -/
def Elsewhere (p : FsNode → Prop) (s : OpenFiles) (task : ℕ) (fd : ℤ) (s' : OpenFiles) : Prop :=
  s' = s ∨ ∃ r node pos eof, s.lookup task fd = some (.ok (r, node)) ∧ p node ∧
    s' = s.setNode r { node with pos := pos, eof := eof }

/-- The calls, with the values that they return and the bytes that a read has stored. `socket`
is what the block of a new node holds. -/
inductive FileCall where
  | table (e : FileEvent) (socket : Bool)
  | fork (env : OpenEnv) (task : ℕ) (socket : Bool)
  | read (task : ℕ) (fd : ℤ) (buf n : ℕ) (ret : ℤ) (bytes : List Byte)
  | write (task : ℕ) (fd : ℤ) (buf n : ℕ) (ret : ℤ)
  | seek (task : ℕ) (fd off whence : ℤ) (ret : ℤ)
  | readentry (task : ℕ) (fd : ℤ)

/-- The file of the node that `open` allocates, if the call does. -/
def OpenFiles.after (s : OpenFiles) (e : FileEvent) (socket : Bool) : ℕ → Option Ext2File :=
  match e with
  | .openFile env _ path _ =>
    s.allot (openedFile env s.state (vfsResolve path (env.cwd.getD AbsPath.root)) socket)
  | _ => s.files

/-- Reads and writes are for less than 2 GiB, and come back. -/
def FileCallStep (s : OpenFiles) (c : FileCall) (s' : OpenFiles) : Prop :=
  match c with
  | .table e socket => FileStep s.state e s'.state ∧ s'.files = s.after e socket
  | .fork env task socket => taskFork env s task socket = some s'
  | .read task fd buf n ret bytes => n < 2147483648 ∧
      ((∃ fresh m m', taskRead s task fd buf n fresh m = some (some (ret, m', s')) ∧
          bytes = bytesAt m' 0 ret.toNat) ∨
        (∀ fresh m, taskRead s task fd buf n fresh m = none) ∧
          Elsewhere (fun _ => True) s task fd s')
  | .write task fd buf n ret => n < 2147483648 ∧
      ((∃ fresh m, taskWrite s task fd buf n fresh m = some (some (ret, s'))) ∨
        (∀ fresh m, taskWrite s task fd buf n fresh m = none) ∧
          Elsewhere (fun _ => True) s task fd s')
  | .seek task fd off whence ret =>
      taskSeek s task fd off whence = some (ret, s') ∨
        taskSeek s task fd off whence = none ∧ Elsewhere (fun _ => True) s task fd s'
  | .readentry task fd => Elsewhere (fun node => node.type = some .FS_DIR) s task fd s'

end DepthOS
