import DepthOS.Sanity.Scan
import DepthOS.Spec.Pipe

/-! The ring buffer as a bounded queue of elements: its contents, and what a
push, a run of pushes and a pop do to them. -/

namespace DepthOS

open Lib

/-- The element in slot `k`. -/
def slot (rb : Ringbuffer) (k : ℕ) : List Byte :=
  (List.range rb.elemSize).map fun i => rb.data (ringbufferAt rb k + i)

/-- The queued elements, oldest first. -/
def ringContents (rb : Ringbuffer) : List (List Byte) :=
  window (slot rb) rb.maxSize rb.readIdx rb.size

/-- The write index is not free: it trails the read index by the size. -/
structure RingInv (rb : Ringbuffer) : Prop where
  elem_pos : 1 ≤ rb.elemSize
  max_lt : rb.maxSize < 4294967295
  read_lt : rb.readIdx < rb.maxSize
  size_le : rb.size ≤ rb.maxSize
  write_eq : rb.writeIdx = (rb.readIdx + rb.size) % rb.maxSize

/-- What the push of `v` stores. -/
def elemOf (elemSize : ℕ) (v : ℕ → Byte) : List Byte := (List.range elemSize).map v

theorem at_apart (rb : Ringbuffer) {j k : ℕ} (h : j ≠ k) :
    Apart (ringbufferAt rb j) rb.elemSize (ringbufferAt rb k) rb.elemSize := by
  unfold Apart ringbufferAt
  rcases Nat.lt_or_gt_of_ne h with h | h
  · left
    calc j * rb.elemSize + rb.elemSize = (j + 1) * rb.elemSize := by ring
      _ ≤ k * rb.elemSize := Nat.mul_le_mul_right _ h
  · right
    calc k * rb.elemSize + rb.elemSize = (k + 1) * rb.elemSize := by ring
      _ ≤ j * rb.elemSize := Nat.mul_le_mul_right _ h

section Push

variable (rb : Ringbuffer) (v : ℕ → Byte)

@[simp] theorem push_elemSize : (ringbufferPush rb v).2.elemSize = rb.elemSize := rfl

@[simp] theorem push_maxSize : (ringbufferPush rb v).2.maxSize = rb.maxSize := rfl

@[simp] theorem push_readIdx : (ringbufferPush rb v).2.readIdx = rb.readIdx := rfl

theorem slot_push_self : slot (ringbufferPush rb v).2 rb.writeIdx = elemOf rb.elemSize v := by
  apply List.map_congr_left
  intro i hi
  exact blit_inside (List.mem_range.1 hi)

theorem slot_push_other {k : ℕ} (h : k ≠ rb.writeIdx) :
    slot (ringbufferPush rb v).2 k = slot rb k := by
  apply List.map_congr_left
  intro i hi
  have hi' : i < rb.elemSize := List.mem_range.1 hi
  have hap := at_apart rb h
  apply blit_other
  unfold Apart at hap
  simp only [ringbufferAt, push_elemSize] at hap ⊢
  omega

end Push

theorem push_size {rb : Ringbuffer} (hi : RingInv rb) (hfull : rb.size < rb.maxSize)
    (v : ℕ → Byte) : (ringbufferPush rb v).2.size = rb.size + 1 := by
  have hmax := hi.max_lt
  simp only [ringbufferPush]
  rw [u32_of_lt (by omega), u32_of_lt (by omega), Nat.mod_eq_of_lt (by omega)]

theorem push_spec {rb : Ringbuffer} (hi : RingInv rb) (hfull : rb.size < rb.maxSize)
    (v : ℕ → Byte) :
    RingInv (ringbufferPush rb v).2 ∧
    ringContents (ringbufferPush rb v).2 = ringContents rb ++ [elemOf rb.elemSize v] := by
  have hsize := push_size hi hfull v
  have hread := hi.read_lt
  have hmax := hi.max_lt
  have hw : rb.writeIdx < rb.maxSize := by
    rw [hi.write_eq]
    exact Nat.mod_lt _ (by omega)
  refine ⟨⟨hi.elem_pos, hi.max_lt, hi.read_lt, by rw [hsize]; exact hfull, ?_⟩, ?_⟩
  · rw [hsize]
    simp only [ringbufferPush]
    rw [u32_of_lt (by omega), hi.write_eq, Nat.mod_add_mod, Nat.add_assoc]
  · unfold ringContents
    rw [hsize, push_maxSize, push_readIdx, window_push (f := slot rb) hfull, ← hi.write_eq,
      slot_push_self]
    intro k _ hk
    exact slot_push_other rb v (by rw [hi.write_eq]; exact hk)

theorem pushn_spec {rb : Ringbuffer} (hi : RingInv rb) (v : ℕ → Byte) {n : ℕ}
    (hroom : rb.size + n ≤ rb.maxSize) :
    RingInv (ringbufferPushn rb v n) ∧
    (ringbufferPushn rb v n).elemSize = rb.elemSize ∧
    (ringbufferPushn rb v n).maxSize = rb.maxSize ∧
    (ringbufferPushn rb v n).size = rb.size + n ∧
    ringContents (ringbufferPushn rb v n) = ringContents rb ++
      (List.range n).map fun k => elemOf rb.elemSize fun i => v (k * rb.elemSize + i) := by
  induction n with
  | zero => simp [ringbufferPushn, hi]
  | succ n ih =>
    obtain ⟨hi', helem, hmax, hsize, hcont⟩ := ih (by omega)
    have hfull : (ringbufferPushn rb v n).size < (ringbufferPushn rb v n).maxSize := by omega
    have hstep : ringbufferPushn rb v (n + 1) = (ringbufferPush (ringbufferPushn rb v n)
        fun i => v (n * (ringbufferPushn rb v n).elemSize + i)).2 := by
      simp [ringbufferPushn, List.range_succ]
    obtain ⟨hinv, hc⟩ := push_spec hi' hfull
      fun i => v (n * (ringbufferPushn rb v n).elemSize + i)
    rw [hstep]
    refine ⟨hinv, helem, hmax, ?_, ?_⟩
    · rw [push_size hi' hfull, hsize, Nat.add_assoc]
    · rw [hc, hcont, helem, List.range_succ, List.map_append, List.append_assoc,
        List.map_singleton]

theorem pop_spec {rb : Ringbuffer} (hi : RingInv rb) (hne : rb.size ≠ 0) :
    (ringbufferPop rb).1 = some (ringbufferAt rb rb.readIdx) ∧
    RingInv (ringbufferPop rb).2 ∧
    (ringbufferPop rb).2.data = rb.data ∧
    (ringbufferPop rb).2.elemSize = rb.elemSize ∧
    (ringbufferPop rb).2.maxSize = rb.maxSize ∧
    (ringbufferPop rb).2.size + 1 = rb.size ∧
    ringContents rb = slot rb rb.readIdx :: ringContents (ringbufferPop rb).2 := by
  have hread := hi.read_lt
  have hmax := hi.max_lt
  have hsize := hi.size_le
  obtain ⟨n, hn⟩ : ∃ n, rb.size = n + 1 := ⟨rb.size - 1, by omega⟩
  have hidx : u32 (rb.readIdx + 1) % rb.maxSize = (rb.readIdx + 1) % rb.maxSize := by
    rw [u32_of_lt (by omega)]
  simp only [ringbufferPop, if_neg hne]
  refine ⟨trivial, ⟨hi.elem_pos, hi.max_lt, Nat.mod_lt _ (by omega), ?_, ?_⟩, trivial, trivial,
    trivial, by omega, ?_⟩
  · dsimp only
    omega
  · dsimp only
    rw [hidx, Nat.mod_add_mod, hi.write_eq, hn]
    congr 1
    omega
  · unfold ringContents
    dsimp only
    rw [hidx, hn, window_pop hread]
    rfl

end DepthOS
