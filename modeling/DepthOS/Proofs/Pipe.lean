import DepthOS.Sanity.Ringbuffer

/-! Pipes are first-in first-out byte streams over any interleaving of reads and
writes: bytes returned, then bytes still queued, are the bytes accepted. -/

namespace DepthOS

open Lib

/-- The queued bytes, oldest first. -/
def ringBytes (rb : Ringbuffer) : List Byte := (ringContents rb).flatten

/-- A ring of single bytes: its capacity, and what every call keeps. -/
structure ByteRing (cap : ℕ) (rb : Ringbuffer) : Prop where
  inv : RingInv rb
  elem : rb.elemSize = 1
  cap_eq : rb.maxSize = cap

theorem slot_byte {rb : Ringbuffer} (h : rb.elemSize = 1) (k : ℕ) : slot rb k = [rb.data k] := by
  simp [slot, ringbufferAt, h]

theorem ringBytes_length {cap : ℕ} {rb : Ringbuffer} (h : ByteRing cap rb) :
    (ringBytes rb).length = rb.size := by
  have hlen : ∀ l ∈ ringContents rb, l.length = 1 := by
    intro l hl
    obtain ⟨j, -, rfl⟩ := List.mem_map.1 hl
    simp [slot, h.elem]
  rw [ringBytes, List.length_flatten, List.map_congr_left hlen]
  simp [ringContents]

theorem bufBytes_succ (buffer : Mem) (n : ℕ) :
    bufBytes buffer (n + 1) = bufBytes buffer n ++ [buffer n] := by
  simp [bufBytes, List.range_succ]

theorem bufBytes_blit (buffer : Mem) (i : ℕ) (src : ℕ → Byte) :
    bufBytes (blit buffer i src 1) (i + 1) = bufBytes buffer i ++ [src 0] := by
  rw [bufBytes_succ]
  congr 1
  · apply List.map_congr_left
    intro x hx
    exact blit_other (Or.inl (List.mem_range.1 hx))
  · have h : blit buffer i src 1 (i + 0) = src 0 := blit_inside Nat.zero_lt_one
    rw [Nat.add_zero] at h
    rw [h]

theorem pop_byte {cap : ℕ} {rb : Ringbuffer} (h : ByteRing cap rb) (hne : rb.size ≠ 0) :
    ByteRing cap (ringbufferPop rb).2 ∧ (ringbufferPop rb).2.size + 1 = rb.size ∧
    ringBytes rb = (ringbufferPop rb).2.data ((ringbufferPop rb).1.getD 0 + 0) ::
      ringBytes (ringbufferPop rb).2 := by
  obtain ⟨haddr, hinv, hdata, helem, hmax, hsize, hcont⟩ := pop_spec h.inv hne
  refine ⟨⟨hinv, by rw [helem, h.elem], by rw [hmax, h.cap_eq]⟩, hsize, ?_⟩
  rw [ringBytes, hcont, slot_byte h.elem, haddr, hdata]
  simp [ringBytes, ringbufferAt, h.elem]

/-- The loop stops at `count` or when the ring is empty, and no byte is lost or
doubled on the way. -/
theorem readLoop_spec {cap n i : ℕ} {rb : Ringbuffer} (h : ByteRing cap rb) (buffer : Mem) :
    ByteRing cap (pipeReadLoop n i rb buffer).2.1 ∧
    (pipeReadLoop n i rb buffer).1 = i + min n rb.size ∧
    bufBytes (pipeReadLoop n i rb buffer).2.2 (pipeReadLoop n i rb buffer).1 ++
      ringBytes (pipeReadLoop n i rb buffer).2.1 = bufBytes buffer i ++ ringBytes rb := by
  induction n generalizing i rb buffer with
  | zero => simp [pipeReadLoop, h]
  | succ n ih =>
    by_cases hz : rb.size = 0
    · simp [pipeReadLoop, hz, h]
    · obtain ⟨h', hsize, hbytes⟩ := pop_byte h hz
      simp only [pipeReadLoop, if_neg hz, h'.elem]
      obtain ⟨hr, hret, hcons⟩ := ih (i := i + 1) h' (blit buffer i
        (fun k => (ringbufferPop rb).2.data ((ringbufferPop rb).1.getD 0 + k)) 1)
      refine ⟨hr, by rw [hret]; omega, ?_⟩
      rw [hcons, bufBytes_blit, hbytes, List.append_assoc, List.singleton_append]

theorem pipeFileRead_spec {cap : ℕ} {rb : Ringbuffer} (h : ByteRing cap rb) (buffer : Mem)
    (count offset : ℕ) :
    let r := pipeFileRead false rb buffer count offset
    ByteRing cap r.rb ∧ r.ret = min count rb.size ∧ r.offset = u32 (offset + r.ret) ∧
    bufBytes r.buffer r.ret ++ ringBytes r.rb = ringBytes rb := by
  obtain ⟨hr, hret, hcons⟩ := readLoop_spec (n := count) (i := 0) h buffer
  rw [Nat.zero_add] at hret
  exact ⟨hr, hret, rfl, hcons⟩

theorem flatten_singletons (l : List ℕ) (f : ℕ → Byte) :
    (l.map fun k => [f k]).flatten = l.map f := by
  rw [← List.flatMap_def, List.map_eq_flatMap]

theorem pipeFileWrite_spec {cap : ℕ} {rb : Ringbuffer} (h : ByteRing cap rb) (buffer : Mem)
    {count : ℕ} (offset : ℕ) (hroom : rb.size + count ≤ rb.maxSize) :
    let r := pipeFileWrite rb buffer count offset
    ByteRing cap r.rb ∧ r.ret = count ∧
    ringBytes r.rb = ringBytes rb ++ bufBytes buffer count := by
  obtain ⟨hinv, helem, hmax, -, hcont⟩ := pushn_spec h.inv buffer hroom
  refine ⟨⟨hinv, helem.trans h.elem, hmax.trans h.cap_eq⟩, rfl, ?_⟩
  simp only [pipeFileWrite, ringBytes, hcont, List.flatten_append]
  congr 1
  simp only [h.elem, elemOf, List.range_one, List.map_singleton, Nat.mul_one, Nat.add_zero]
  exact flatten_singletons _ _

/-- What holds after every completed call. -/
structure PipeInv (cap : ℕ) (s : PipeState) : Prop where
  cap_lt : cap < 2147483648
  ring : ByteRing cap s.rb
  stream : s.returned ++ ringBytes s.rb = s.accepted

theorem pipeInv_boot {cap : ℕ} {s : PipeState} (h : PipeBoot cap s) : PipeInv cap s := by
  have hlt := h.cap_lt
  have hread := h.readIdx
  refine ⟨h.cap_lt, ⟨⟨?_, ?_, ?_, ?_, ?_⟩, h.elemSize, h.maxSize⟩, ?_⟩
  · rw [h.elemSize]
  · rw [h.maxSize]
    omega
  · rw [h.maxSize]
    exact hread
  · rw [h.size]
    exact Nat.zero_le _
  · rw [h.writeIdx, h.size, h.maxSize, Nat.add_zero, Nat.mod_eq_of_lt hread]
  · rw [h.returned, h.accepted, ringBytes, ringContents, h.size]
    rfl

theorem pipeInv_step {cap : ℕ} {s s' : PipeState} {e : PipeEvent} (h : PipeInv cap s)
    (hs : PipeStep s e s') : PipeInv cap s' := by
  cases e with
  | read eof buffer count offset =>
    obtain ⟨-, -, rfl⟩ := hs
    cases eof with
    | true => exact ⟨h.cap_lt, h.ring, by simpa [pipeFileRead, bufBytes] using h.stream⟩
    | false =>
      obtain ⟨hr, -, -, hcons⟩ := pipeFileRead_spec h.ring buffer count offset
      refine ⟨h.cap_lt, hr, ?_⟩
      rw [← h.stream, ← hcons, List.append_assoc]
  | write buffer count offset =>
    obtain ⟨hc, hen, rfl⟩ := hs
    have hsize := h.ring.inv.size_le
    have hcap := h.cap_lt
    have hmax := h.ring.cap_eq
    -- the enabling test is on 32 bits; neither operand reaches half of that
    rw [u32_of_lt (by omega)] at hen
    obtain ⟨hr, hret, happ⟩ := pipeFileWrite_spec h.ring buffer offset
      (Nat.le_of_not_lt hen)
    refine ⟨h.cap_lt, hr, ?_⟩
    dsimp only
    rw [happ, hret, ← h.stream, List.append_assoc]

/-- In every run, what readers got followed by what is queued is what writers
put in, and at most `cap` bytes are queued. -/
theorem pipe_fifo {cap : ℕ} {evs : List PipeEvent} {s : PipeState} (h : PipeRun cap evs s) :
    s.returned ++ ringBytes s.rb = s.accepted ∧ s.rb.maxSize = cap ∧
    (ringBytes s.rb).length = s.rb.size ∧ s.rb.size ≤ cap := by
  have hinv : PipeInv cap s := Run.invariant (PipeInv cap) (fun _ => pipeInv_boot)
    (fun _ _ _ => pipeInv_step) h
  have hle := hinv.ring.inv.size_le
  exact ⟨hinv.stream, hinv.ring.cap_eq, ringBytes_length hinv.ring, hinv.ring.cap_eq ▸ hle⟩

/-- A pipe of two bytes: a write fills it, a one-byte read makes room, and the
next write wraps around. -/
theorem pipe_fifo_wrap : ∃ s, PipeRun 2 [.write (BitVec.ofNat 8) 2 0, .read false (fun _ => 0) 1 0,
    .write (fun _ => 7) 1 2] s ∧ s.returned = [0] ∧ s.accepted = [0, 1, 7] ∧
    s.returned ++ ringBytes s.rb = s.accepted ∧ s.rb.maxSize = 2 ∧
    (ringBytes s.rb).length = s.rb.size ∧ s.rb.size ≤ 2 := by
  have h0 : PipeRun 2 [] ⟨ringbufferCreate (fun _ => 0) 2 1, [], []⟩ :=
    Run.nil ⟨by decide, by decide, rfl, rfl, rfl, by decide, rfl, rfl, rfl⟩
  have h1 := h0.snoc (show PipeStep _ (.write (BitVec.ofNat 8) 2 0) _ from
    ⟨by decide, by decide, rfl⟩)
  have h2 := h1.snoc (show PipeStep _ (.read false (fun _ => 0) 1 0) _ from
    ⟨by decide, by decide, rfl⟩)
  have h := h2.snoc (show PipeStep _ (.write (fun _ => 7) 1 2) _ from
    ⟨by decide, by decide, rfl⟩)
  exact ⟨_, h, by decide, by decide, pipe_fifo h⟩

end DepthOS
