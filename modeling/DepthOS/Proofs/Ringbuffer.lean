import DepthOS.Sanity.Ringbuffer
import DepthOS.Spec.Ringbuffer

/-! A ring buffer into which nobody pushes while it is full is a bounded queue: element `k`
stays in slot `k` modulo the capacity from its push to its pop. -/

namespace DepthOS

open Lib

/-! `ringbuffer_pushn` by pointers is `n` pushes of consecutive elements. -/

section Pushn

variable (m : Mem)

theorem pushn_elemSize (rb : Ringbuffer) (v : ℕ → Byte) (n : ℕ) :
    (ringbufferPushn rb v n).elemSize = rb.elemSize := by
  induction n with
  | zero => rfl
  | succ n ih =>
    simp only [ringbufferPushn, List.range_succ, List.foldl_append, List.foldl_cons, List.foldl_nil,
      push_elemSize] at ih ⊢
    exact ih

theorem pushn_succ (rb : Ringbuffer) (v : ℕ → Byte) (n : ℕ) :
    ringbufferPushn rb v (n + 1) =
      ringbufferPushn (ringbufferPush rb v).2 (fun i => v (rb.elemSize + i)) n := by
  induction n with
  | zero => simp [ringbufferPushn]
  | succ n ih =>
    have hlast : ∀ (rb : Ringbuffer) (v : ℕ → Byte) (n : ℕ), ringbufferPushn rb v (n + 1) =
        (ringbufferPush (ringbufferPushn rb v n)
          fun i => v (n * (ringbufferPushn rb v n).elemSize + i)).2 := by
      intro rb v n
      simp [ringbufferPushn, List.range_succ]
    rw [hlast, ih, hlast]
    congr 2
    funext i
    rw [pushn_elemSize, push_elemSize]
    congr 1
    ring

theorem pushnLoop_eq (stop n data : ℕ) (rb : Ringbuffer) (hpos : 1 ≤ rb.elemSize)
    (hstop : stop = data + n * rb.elemSize) (hlt : stop < 4294967296) :
    pushnLoop m stop n data rb = ringbufferPushn rb (fun i => m (u32 (data + i))) n := by
  induction n generalizing data rb with
  | zero => rfl
  | succ n ih =>
    rw [Nat.succ_mul] at hstop
    rw [pushnLoop, if_pos (by omega), u32_of_lt (by omega),
      ih _ _ (by simpa using hpos) (by simp only [push_elemSize]; omega), pushn_succ]
    simp only [Nat.add_assoc]

theorem ringbufferPushnAt_eq (rb : Ringbuffer) {data n : ℕ} (hpos : 1 ≤ rb.elemSize)
    (h : data + n * rb.elemSize < 4294967296) :
    ringbufferPushnAt rb m data n = ringbufferPushn rb (fun i => m (u32 (data + i))) n := by
  rw [ringbufferPushnAt, u32_of_lt h, pushnLoop_eq m _ n data rb hpos rfl h]

end Pushn

theorem pushn_room {rb : Ringbuffer} (hi : RingInv rb) (v : ℕ → Byte) {n : ℕ}
    (h : ∀ k < n, (ringbufferPushn rb v k).size ≠ rb.maxSize) : rb.size + n ≤ rb.maxSize := by
  induction n with
  | zero => exact hi.size_le
  | succ n ih =>
    have hroom := ih fun k hk => h k (by omega)
    have hsize := (pushn_spec hi v hroom).2.2.2.1
    have hlast := h n (Nat.lt_succ_self n)
    omega

/-! The queue. -/

/-- What holds between the calls. -/
structure RingQueue (maxSize elemSize : ℕ) (s : RingState) : Prop where
  inv : RingInv s.rb
  max_eq : s.rb.maxSize = maxSize
  elem_eq : s.rb.elemSize = elemSize
  read_eq : s.rb.readIdx = s.popped.length % maxSize
  queue : s.popped ++ ringContents s.rb = s.pushed

section Queue

variable {maxSize elemSize : ℕ} {s s' : RingState}

theorem ringContents_length (rb : Ringbuffer) : (ringContents rb).length = rb.size := by
  simp [ringContents]

theorem RingQueue.count (h : RingQueue maxSize elemSize s) :
    s.popped.length + s.rb.size = s.pushed.length := by
  rw [← h.queue, List.length_append, ringContents_length]

theorem ringPlaced_lt {rb : Ringbuffer} {addr data : ℕ} (h : RingPlaced rb addr data) :
    rb.maxSize < 4294967295 := by
  have haddr := h.addr_end
  have hdata := h.data_end
  have hapart := h.apart
  have hle : rb.maxSize ≤ rb.elemSize * rb.maxSize := Nat.le_mul_of_pos_left _ h.elem_pos
  unfold Apart at hapart
  omega

theorem ringQueue_start {rb : Ringbuffer} {addr data : ℕ} (h : RingPlaced rb addr data)
    (zero : Bool) : RingQueue rb.maxSize rb.elemSize (ringStart rb zero) := by
  have helem : rb.elemSize ≠ 0 := by have := h.elem_pos; omega
  have hmax := h.max_pos
  have hlt := ringPlaced_lt h
  refine ⟨⟨?_, ?_, ?_, ?_, ?_⟩, ?_, ?_, ?_, ?_⟩ <;>
    simp [ringStart, ringbufferInit, ringContents, helem] <;> omega

theorem RingQueue.push (h : RingQueue maxSize elemSize s) (v : ℕ → Byte)
    (hroom : s.rb.size ≠ s.rb.maxSize) :
    RingQueue maxSize elemSize { s with
      rb := (ringbufferPush s.rb v).2, pushed := s.pushed ++ [bufBytes v s.rb.elemSize] } := by
  have hle := h.inv.size_le
  obtain ⟨hinv, hcont⟩ := push_spec h.inv (by omega) v
  refine ⟨hinv, h.max_eq, h.elem_eq, h.read_eq, ?_⟩
  dsimp only
  rw [hcont, ← List.append_assoc, h.queue]
  rfl

theorem RingQueue.pushn (h : RingQueue maxSize elemSize s) (m : Mem) {data n : ℕ}
    (hend : data + n * s.rb.elemSize < 4294967296)
    (hroom : ∀ k < n, (ringbufferPushn s.rb (fun i => m (u32 (data + i))) k).size ≠ s.rb.maxSize) :
    RingQueue maxSize elemSize { s with
      rb := ringbufferPushnAt s.rb m data n
      pushed := s.pushed ++ (List.range n).map fun k =>
        bufBytes (fun i => m (u32 (data + k * s.rb.elemSize + i))) s.rb.elemSize } := by
  rw [ringbufferPushnAt_eq m s.rb h.inv.elem_pos hend]
  obtain ⟨hinv, helem, hmax, -, hcont⟩ := pushn_spec h.inv _ (pushn_room h.inv _ hroom)
  have hread : ∀ k, (ringbufferPushn s.rb (fun i => m (u32 (data + i))) k).readIdx =
      s.rb.readIdx := by
    intro k
    induction k with
    | zero => rfl
    | succ k ih =>
      simp only [ringbufferPushn, List.range_succ, List.foldl_append, List.foldl_cons,
        List.foldl_nil, push_readIdx] at ih ⊢
      exact ih
  refine ⟨hinv, hmax.trans h.max_eq, helem.trans h.elem_eq, (hread n).trans h.read_eq, ?_⟩
  dsimp only
  rw [hcont, ← List.append_assoc, h.queue]
  simp only [elemOf, bufBytes, Nat.add_assoc]

theorem RingQueue.pop (h : RingQueue maxSize elemSize s) (hstep : RingStep s .pop s') :
    RingQueue maxSize elemSize s' := by
  by_cases hempty : s.rb.size = 0
  · have hnone : ringbufferPop s.rb = (none, s.rb) := by simp [ringbufferPop, hempty]
    simp only [RingStep, hnone] at hstep
    rw [hstep]
    exact h
  · obtain ⟨hsome, hinv, hdata, helem, hmax, hsize, hcont⟩ := pop_spec h.inv hempty
    have hread : (ringbufferPop s.rb).2.readIdx = u32 (s.rb.readIdx + 1) % s.rb.maxSize := by
      simp [ringbufferPop, hempty]
    have hlt := h.inv.read_lt
    have hmaxlt := h.inv.max_lt
    have hpair : ringbufferPop s.rb =
        (some (ringbufferAt s.rb s.rb.readIdx), (ringbufferPop s.rb).2) := by rw [← hsome]
    generalize (ringbufferPop s.rb).2 = rb' at *
    simp only [RingStep, hpair] at hstep
    rw [hstep]
    refine ⟨hinv, hmax.trans h.max_eq, helem.trans h.elem_eq, ?_, ?_⟩
    · rw [hread, u32_of_lt (by omega), h.max_eq, h.read_eq]
      simp
    · rw [← h.queue, hcont, List.append_assoc, hdata, helem]
      rfl

theorem ringQueue_step {e : RingEvent} (h : RingQueue maxSize elemSize s)
    (hstep : RingStep s e s') : RingQueue maxSize elemSize s' := by
  cases e with
  | push v =>
    obtain ⟨hroom, rfl⟩ := hstep
    exact h.push v hroom
  | pushn m data n =>
    obtain ⟨hend, hroom, rfl⟩ := hstep
    exact h.pushn m hend hroom
  | pop => exact h.pop hstep

theorem ringQueue_run {evs : List RingEvent} (h : RingRun maxSize elemSize evs s) :
    RingQueue maxSize elemSize s := by
  refine Run.invariant (RingQueue maxSize elemSize) ?_ (fun s e s' => ringQueue_step) h
  rintro s ⟨rb, zero, addr, data, hplaced, rfl, rfl, rfl⟩
  exact ringQueue_start hplaced zero

theorem RingQueue.slot (h : RingQueue maxSize elemSize s) {k : ℕ} (hk : k < s.pushed.length)
    (hge : s.popped.length ≤ k) : slot s.rb (k % maxSize) = s.pushed[k] := by
  have hcount := h.count
  obtain ⟨j, rfl⟩ := Nat.exists_eq_add_of_le hge
  have hj : j < (ringContents s.rb).length := by rw [ringContents_length]; omega
  have hget : s.pushed[s.popped.length + j] = (ringContents s.rb)[j] := by
    simp [← h.queue]
  rw [hget]
  simp only [ringContents, window, List.getElem_map, List.getElem_range, h.read_eq, h.max_eq,
    Nat.mod_add_mod]

/-- For any run of pushes that each find room, of arrays of elements and of pops: what pops have
returned is the front of what has been pushed, the size is the difference, both indices stay
inside, every element still queued stands in its slot, and a pop returns the slot of the next one
or, when there is none, NULL. -/
theorem ringbuffer_fifo {evs : List RingEvent} (h : RingRun maxSize elemSize evs s) :
    s.popped <+: s.pushed ∧ s.popped.length + s.rb.size = s.pushed.length ∧
    s.rb.readIdx < maxSize ∧ s.rb.writeIdx < maxSize ∧
    (∀ (k : ℕ) (hk : k < s.pushed.length), s.popped.length ≤ k →
      DepthOS.slot s.rb (k % maxSize) = s.pushed[k]) ∧
    (ringbufferPop s.rb).1 =
      if s.popped.length = s.pushed.length then none
      else some (ringbufferAt s.rb (s.popped.length % maxSize)) := by
  have hq := ringQueue_run h
  have hcount := hq.count
  have hread := hq.inv.read_lt
  refine ⟨⟨_, hq.queue⟩, hcount, hq.max_eq ▸ hread, ?_, fun k hk hge => hq.slot hk hge, ?_⟩
  · rw [hq.inv.write_eq, hq.max_eq]
    exact Nat.mod_lt _ (by rw [← hq.max_eq]; omega)
  · by_cases hempty : s.rb.size = 0
    · rw [if_pos (by omega)]
      simp [ringbufferPop, hempty]
    · rw [if_neg (by omega), (pop_spec hq.inv hempty).1, hq.read_eq]

end Queue

/-- A buffer of one slot of two bytes, as `kmalloc` might place it. -/
def oneSlot : Ringbuffer := ⟨fun _ => 7, 2, 1, 5, 5, 5⟩

/-- An element goes through it, and a second one wraps around. -/
theorem ringbuffer_fifo_one : ∃ s : RingState, s.popped = [[1, 1]] ∧ s.pushed = [[1, 1], [2, 2]] ∧
    s.popped <+: s.pushed ∧ s.popped.length + s.rb.size = s.pushed.length ∧
    s.rb.readIdx < 1 ∧ s.rb.writeIdx < 1 ∧
    (∀ (k : ℕ) (hk : k < s.pushed.length), s.popped.length ≤ k →
      slot s.rb (k % 1) = s.pushed[k]) ∧
    (ringbufferPop s.rb).1 =
      if s.popped.length = s.pushed.length then none
      else some (ringbufferAt s.rb (s.popped.length % 1)) := by
  have hplaced : RingPlaced oneSlot 0 24 :=
    ⟨by decide, by decide, by decide, by decide, by unfold Apart; decide⟩
  have h0 : RingRun 1 2 [] (ringStart oneSlot true) :=
    Run.nil ⟨oneSlot, true, 0, 24, hplaced, rfl, rfl, rfl⟩
  have h1 := h0.snoc (show RingStep _ (.push fun _ => 1) _ from ⟨by decide, rfl⟩)
  have h2 := h1.snoc (show RingStep _ .pop _ from rfl)
  have h := h2.snoc (show RingStep _ (.pushn (fun _ => 2) 100 1) _ from
    ⟨by decide, by decide, rfl⟩)
  exact ⟨_, by decide, by decide, ringbuffer_fifo h⟩

end DepthOS
