import DepthOS.Lib.Ring
import DepthOS.Lib.Run
import DepthOS.Spec.Basic

/-! `lib/ringbuffer.c` and `fs/pipe.c`: the ring buffer under a pipe, the two
calls on it, and any interleaving of them. A call that spins in its
`sched_yield` loop has done nothing yet, so the loop's exit test is the step's
enabling condition and the rest of the body one step. -/

namespace DepthOS

open Lib

/-- `data` is the storage `kmalloc`ed for the elements, indexed from its start. -/
structure Ringbuffer where
  data : Mem
  elemSize : ℕ
  maxSize : ℕ
  readIdx : ℕ
  writeIdx : ℕ
  size : ℕ

def ringbufferAt (rb : Ringbuffer) (idx : ℕ) : ℕ := idx * rb.elemSize

def ringbufferInit (rb : Ringbuffer) (zero : Bool) : Ringbuffer :=
  let elemSize := if rb.elemSize = 0 then 1 else rb.elemSize
  { data := if zero then blit rb.data 0 (fun _ => 0) (elemSize * rb.maxSize) else rb.data
    elemSize := elemSize
    maxSize := rb.maxSize
    readIdx := 0
    writeIdx := 0
    size := 0 }

/-- `block` is what the storage held when `kmalloc` returned it. -/
def ringbufferCreate (block : Mem) (maxSize elemSize : ℕ) : Ringbuffer :=
  ringbufferInit ⟨block, elemSize, maxSize, 0, 0, 0⟩ true

/-- The slot's address in `data`, and the buffer after the push. -/
def ringbufferPush (rb : Ringbuffer) (v : ℕ → Byte) : ℕ × Ringbuffer :=
  let e := ringbufferAt rb rb.writeIdx
  (e, { rb with data := blit rb.data e v rb.elemSize
                writeIdx := u32 (rb.writeIdx + 1) % rb.maxSize
                size := u32 (rb.size + 1) % u32 (rb.maxSize + 1) })

/-- `none` is the NULL of an empty buffer. -/
def ringbufferPop (rb : Ringbuffer) : Option ℕ × Ringbuffer :=
  if rb.size = 0 then (none, rb)
  else (some (ringbufferAt rb rb.readIdx),
    { rb with readIdx := u32 (rb.readIdx + 1) % rb.maxSize
              size := rb.size - 1 })

/-- `n` pushes of consecutive elements at `v`, which lie below the end of the
address space. -/
def ringbufferPushn (rb : Ringbuffer) (v : ℕ → Byte) (n : ℕ) : Ringbuffer :=
  (List.range n).foldl
    (fun rb k => (ringbufferPush rb fun i => v (k * rb.elemSize + i)).2) rb

/-- The loop of `pipe_file_read` from index `i` with `n` rounds left. -/
def pipeReadLoop : ℕ → ℕ → Ringbuffer → Mem → ℕ × Ringbuffer × Mem
  | 0, i, rb, buffer => (i, rb, buffer)
  | n + 1, i, rb, buffer =>
    if rb.size = 0 then (i, rb, buffer)
    else
      let (e, rb) := ringbufferPop rb
      pipeReadLoop n (i + 1) rb (blit buffer i (fun k => rb.data (e.getD 0 + k)) rb.elemSize)

/-- What a call returns and leaves behind; `buffer` is the caller's, from its start. -/
structure PipeResult where
  ret : ℕ
  rb : Ringbuffer
  buffer : Mem
  offset : ℕ

/-- `pipe_file_read` once its blocking loop is left; `eof` is the file's flag. -/
def pipeFileRead (eof : Bool) (rb : Ringbuffer) (buffer : Mem) (count offset : ℕ) : PipeResult :=
  if eof then ⟨0, rb, buffer, offset⟩
  else
    let (i, rb, buffer) := pipeReadLoop count 0 rb buffer
    ⟨i, rb, buffer, u32 (offset + i)⟩

/-- `pipe_file_write` once its blocking loop is left. -/
def pipeFileWrite (rb : Ringbuffer) (buffer : Mem) (count offset : ℕ) : PipeResult :=
  ⟨count, ringbufferPushn rb buffer count, buffer, u32 (offset + count)⟩

/-- A completed call, with the caller's own file flag, buffer and offset. -/
inductive PipeEvent where
  | read (eof : Bool) (buffer : Mem) (count offset : ℕ)
  | write (buffer : Mem) (count offset : ℕ)

structure PipeState where
  rb : Ringbuffer
  /-- bytes returned by reads so far, in completion order -/
  returned : List Byte
  /-- bytes accepted by writes so far, in completion order -/
  accepted : List Byte

/-- The first `n` bytes of a caller's buffer. -/
def bufBytes (buffer : Mem) (n : ℕ) : List Byte := (List.range n).map buffer

def PipeStep (s : PipeState) (e : PipeEvent) (s' : PipeState) : Prop :=
  match e with
  | .read eof buffer count offset =>
    count < 2147483648 ∧ (eof = true ∨ s.rb.size ≠ 0) ∧
    let r := pipeFileRead eof s.rb buffer count offset
    s' = { s with rb := r.rb, returned := s.returned ++ bufBytes r.buffer r.ret }
  | .write buffer count offset =>
    count < 2147483648 ∧ ¬ u32 (s.rb.size + count) > s.rb.maxSize ∧
    let r := pipeFileWrite s.rb buffer count offset
    s' = { s with rb := r.rb, accepted := s.accepted ++ bufBytes buffer r.ret }

/-- An empty byte ring of capacity `cap`; its indices may have moved before.
`cap` is an argument of `kmalloc`, an `int`. -/
structure PipeBoot (cap : ℕ) (s : PipeState) : Prop where
  cap_pos : 1 ≤ cap
  cap_lt : cap < 2147483648
  elemSize : s.rb.elemSize = 1
  maxSize : s.rb.maxSize = cap
  size : s.rb.size = 0
  readIdx : s.rb.readIdx < cap
  writeIdx : s.rb.writeIdx = s.rb.readIdx
  returned : s.returned = []
  accepted : s.accepted = []

def PipeRun (cap : ℕ) : List PipeEvent → PipeState → Prop := Run (PipeBoot cap) PipeStep

end DepthOS
