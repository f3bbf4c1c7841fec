import DepthOS.Spec.Pipe

/-! Any sequence of the calls of `lib/ringbuffer.c` on one buffer, by the elements that its
callers hand over and get back. An element that is pushed lies apart from the storage. -/

namespace DepthOS

open Lib

/-- The rounds of `ringbuffer_pushn`, with `data` running up to `end`. -/
def pushnLoop (m : Mem) (stop : ℕ) : ℕ → ℕ → Ringbuffer → Ringbuffer
  | 0, _, rb => rb
  | fuel + 1, data, rb =>
    if data < stop then
      pushnLoop m stop fuel (u32 (data + rb.elemSize))
        (ringbufferPush rb fun i => m (u32 (data + i))).2
    else rb

/-- `ringbuffer_pushn` of the `n` elements at `data`. -/
def ringbufferPushnAt (rb : Ringbuffer) (m : Mem) (data n : ℕ) : Ringbuffer :=
  pushnLoop m (u32 (data + n * rb.elemSize)) n data rb

/-- `struct ringbuffer` stands at `addr` and its storage at `data`: two objects in one
address space. -/
structure RingPlaced (rb : Ringbuffer) (addr data : ℕ) : Prop where
  max_pos : 1 ≤ rb.maxSize
  elem_pos : 1 ≤ rb.elemSize
  addr_end : addr + 24 ≤ 4294967296
  data_end : data + rb.elemSize * rb.maxSize ≤ 4294967296
  apart : Apart addr 24 data (rb.elemSize * rb.maxSize)

inductive RingEvent where
  | push (v : ℕ → Byte)
  | pushn (m : Mem) (data n : ℕ)
  | pop

structure RingState where
  rb : Ringbuffer
  /-- elements pushed so far, in order -/
  pushed : List (List Byte)
  /-- what stood in the slots that pops have returned, in order -/
  popped : List (List Byte)

def ringStart (rb : Ringbuffer) (zero : Bool) : RingState := ⟨ringbufferInit rb zero, [], []⟩

/-- No push is made into a full buffer, and the elements of `ringbuffer_pushn` are an array
with an address past its end. -/
def RingStep (s : RingState) (e : RingEvent) (s' : RingState) : Prop :=
  match e with
  | .push v =>
    s.rb.size ≠ s.rb.maxSize ∧
    s' = { s with rb := (ringbufferPush s.rb v).2
                  pushed := s.pushed ++ [bufBytes v s.rb.elemSize] }
  | .pushn m data n =>
    data + n * s.rb.elemSize < 4294967296 ∧
    (∀ k < n, (ringbufferPushn s.rb (fun i => m (u32 (data + i))) k).size ≠ s.rb.maxSize) ∧
    s' = { s with
      rb := ringbufferPushnAt s.rb m data n
      pushed := s.pushed ++ (List.range n).map fun k =>
        bufBytes (fun i => m (u32 (data + k * s.rb.elemSize + i))) s.rb.elemSize }
  | .pop =>
    match ringbufferPop s.rb with
    | (none, rb) => s' = { s with rb := rb }
    | (some e, rb) => s' = { s with
        rb := rb, popped := s.popped ++ [bufBytes (fun i => rb.data (e + i)) rb.elemSize] }

/-- Runs from `ringbuffer_init`. -/
def RingRun (maxSize elemSize : ℕ) : List RingEvent → RingState → Prop :=
  Run (fun s => ∃ rb zero addr data, RingPlaced rb addr data ∧ rb.maxSize = maxSize ∧
    rb.elemSize = elemSize ∧ s = ringStart rb zero) RingStep

end DepthOS
