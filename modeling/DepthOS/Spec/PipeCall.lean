import DepthOS.Spec.Open

/-! `sys_pipe` of `fs/fdops.c` by the pointers it stores: a slot of the file table holds the
address of a node, 0 for NULL. The array `fds` is the caller's and lies apart from the table. -/

namespace DepthOS

/-- `struct pipe` -/
structure PipeStruct where
  buf : ℕ
  nWriters : ℤ
  nReaders : ℤ

/-- The fields of `struct fs_node` that `create_pipe_file` sets. -/
structure PipeNode where
  fs : ℕ
  ops : NodeOps
  pipe : ℕ
  size : ℕ

structure PipeCall where
  table : ℕ → ℕ
  fds : ℕ → ℕ
  pipes : ℕ → PipeStruct
  nodes : ℕ → PipeNode
  /-- blocks that the call has given back -/
  freed : List ℕ

/-- What `kmalloc` returns to the call, in order: the pipe, its ring buffer, the storage of that
and the two nodes. -/
structure PipeBlocks where
  p : ℕ
  buf : ℕ
  data : ℕ
  rf : ℕ
  wf : ℕ

def PipeBlocks.Null (b : PipeBlocks) : Prop :=
  b.p = 0 ∨ b.buf = 0 ∨ b.data = 0 ∨ b.rf = 0 ∨ b.wf = 0

instance (b : PipeBlocks) : Decidable b.Null := by unfold PipeBlocks.Null; infer_instance

/-- `create_pipe_file`, for the node that `kmalloc` returned; a ring buffer starts empty. -/
def createPipeNode (s : PipeCall) (file p : ℕ) (write : Bool) : PipeCall :=
  let pipe := s.pipes p
  { s with
    nodes := Function.update s.nodes file ⟨0, if write then .pipeWrite else .pipeRead, p, 0⟩
    pipes := Function.update s.pipes p
      (if write then { pipe with nWriters := pipe.nWriters + 1 }
        else { pipe with nReaders := pipe.nReaders + 1 }) }

/-- The loop that puts `node` into the first free slot, from slot `i` on with `n` to go, and
where it stops. -/
def storeLoop (node e : ℕ) : ℕ → ℕ → PipeCall → ℕ × PipeCall
  | 0, i, s => (i, s)
  | n + 1, i, s =>
    if s.table i = 0 then
      (i, { s with table := Function.update s.table i node, fds := Function.update s.fds e i })
    else storeLoop node e n (i + 1) s

/-- Up to the two loops. -/
def pipeCreated (s : PipeCall) (b : PipeBlocks) : PipeCall :=
  let s := { s with pipes := Function.update s.pipes b.p { s.pipes b.p with buf := b.buf } }
  createPipeNode (createPipeNode s b.rf b.p false) b.wf b.p true

/-- `none` is the fault on a block that `kmalloc` could not give. -/
def pipeCall (s : PipeCall) (b : PipeBlocks) : Option (ℤ × PipeCall) :=
  if b.Null then none
  else
    let (_, s) := storeLoop b.rf 0 TASK_FILETABLE_MAX 0 (pipeCreated s b)
    let (i, s) := storeLoop b.wf 1 TASK_FILETABLE_MAX 0 s
    if i = TASK_FILETABLE_MAX then some (-EMFILE, { s with freed := s.freed ++ [b.p, b.rf, b.wf] })
    else some (0, s)

end DepthOS
