import DepthOS.Spec.Tty

/-! Typed characters that nobody has read yet. The size of the buffer is counted modulo one more
than its capacity, so the character typed into a full buffer takes it back to 0. -/

namespace DepthOS

open Lib

/-- `n` pops return an element, and the next one NULL. -/
inductive PopsOut : Ringbuffer → ℕ → Prop
  | empty {rb : Ringbuffer} (h : (ringbufferPop rb).1 = none) : PopsOut rb 0
  | more {rb : Ringbuffer} {e n : ℕ} (h : (ringbufferPop rb).1 = some e)
      (hn : PopsOut (ringbufferPop rb).2 n) : PopsOut rb (n + 1)

/-- A push leaves no fewer elements to pop than there were. -/
def KeepsUnread (rb : Ringbuffer) (c : Byte) : Prop :=
  ∀ n n', PopsOut rb n → PopsOut (ttyPush rb c) n' → n ≤ n'

section Pops

variable {rb : Ringbuffer}

theorem pop_none_iff : (ringbufferPop rb).1 = none ↔ rb.size = 0 := by
  unfold ringbufferPop
  split_ifs with h <;> simp [h]

theorem pop_size : (ringbufferPop rb).2.size = rb.size - 1 := by
  unfold ringbufferPop
  split_ifs with h <;> simp [h]

theorem popsOut_iff {n : ℕ} : PopsOut rb n ↔ n = rb.size := by
  constructor
  · intro h
    induction h with
    | empty h => exact (pop_none_iff.1 h).symm
    | @more rb e n h _ ih =>
      have hne : rb.size ≠ 0 := fun h0 => by simp [pop_none_iff.2 h0] at h
      rw [pop_size] at ih
      omega
  · intro h
    induction n generalizing rb with
    | zero => exact .empty (pop_none_iff.2 h.symm)
    | succ n ih =>
      obtain ⟨e, he⟩ := Option.ne_none_iff_exists'.1 fun h0 : (ringbufferPop rb).1 = none => by
        have := pop_none_iff.1 h0
        omega
      exact .more he (ih (by rw [pop_size]; omega))

theorem keepsUnread_iff {c : Byte} : KeepsUnread rb c ↔ rb.size ≤ (ttyPush rb c).size := by
  simp [KeepsUnread, popsOut_iff]

end Pops

/-! Runs. -/

/-- The buffer as `tty.c` has it, with a size that the modulus allows. -/
structure TtyInv (rb : Ringbuffer) : Prop where
  max_eq : rb.maxSize = TTY_BUFFER_SIZE
  size_le : rb.size ≤ 100

section Runs

variable {rb rb' : Ringbuffer} {evs : List TtyEvent}

theorem push_size_mod (h : TtyInv rb) (c : Byte) :
    (ttyPush rb c).size = (rb.size + 1) % 101 := by
  have hle := h.size_le
  simp only [ttyPush, ringbufferPush, h.max_eq]
  rw [u32_of_lt (by omega)]
  rfl

theorem ttyInv_step {e : TtyEvent} (h : TtyInv rb) (hstep : TtyStep rb e rb') : TtyInv rb' := by
  cases e with
  | push c =>
    rw [show rb' = ttyPush rb c from hstep]
    refine ⟨h.max_eq, ?_⟩
    rw [push_size_mod h]
    omega
  | pop =>
    have hmax : (ringbufferPop rb).2.maxSize = rb.maxSize := by
      unfold ringbufferPop
      split_ifs <;> rfl
    have hle := h.size_le
    rw [show rb' = (ringbufferPop rb).2 from hstep]
    exact ⟨hmax.trans h.max_eq, by rw [pop_size]; omega⟩

theorem ttyInv_run (h : TtyRun evs rb) : TtyInv rb := by
  refine Run.invariant TtyInv ?_ (fun rb e rb' => ttyInv_step) h
  rintro rb ⟨data, rfl⟩
  exact ⟨rfl, Nat.zero_le _⟩

theorem ttyRun_push (h : TtyRun evs rb) (c : Byte) : TtyRun (evs ++ [.push c]) (ttyPush rb c) :=
  Run.snoc h rfl

theorem ttyRun_pop (h : TtyRun evs rb) : TtyRun (evs ++ [.pop]) (ringbufferPop rb).2 :=
  Run.snoc h rfl

/-- A press of a key is a run of pushes. -/
theorem ttyKeyboardHandler_run (h : TtyRun evs rb) (event : KeyboardEvent) :
    ∃ more, TtyRun (evs ++ more) (ttyKeyboardHandler rb event) := by
  have hpushes : ∀ (str : List Byte) (evs : List TtyEvent) (rb : Ringbuffer), TtyRun evs rb →
      TtyRun (evs ++ str.map .push) (str.foldl ttyPush rb) := by
    intro str
    induction str with
    | nil => intro evs rb h; simpa using h
    | cons c str ih =>
      intro evs rb h
      have h1 := ih _ _ (ttyRun_push h c)
      simpa using h1
  unfold ttyKeyboardHandler
  split_ifs
  · exact ⟨[], by simpa using h⟩
  · exact ⟨_, hpushes _ _ _ h⟩

/-- A read is a run of pops. -/
theorem ttyRead_run (h : TtyRun evs rb) (buffer : Mem) (nbytes : ℕ) :
    ∃ more, TtyRun (evs ++ more) (ttyRead rb buffer nbytes).2.1 := by
  have hpops : ∀ (nbytes r : ℕ) (evs : List TtyEvent) (rb : Ringbuffer) (buffer : Mem),
      TtyRun evs rb → ∃ more, TtyRun (evs ++ more) (ttyReadLoop nbytes r rb buffer).2.1 := by
    intro nbytes
    induction nbytes with
    | zero => intro r evs rb buffer h; exact ⟨[], by simpa [ttyReadLoop] using h⟩
    | succ nbytes ih =>
      intro r evs rb buffer h
      have hpop := ttyRun_pop h
      unfold ttyReadLoop
      split
      · rename_i rb1 heq
        rw [heq] at hpop
        exact ⟨[.pop], hpop⟩
      · rename_i rbe rb1 heq
        rw [heq] at hpop
        obtain ⟨more, hmore⟩ := ih (r + 1) _ rb1 _ hpop
        exact ⟨.pop :: more, by simpa using hmore⟩
  exact hpops nbytes 0 evs rb buffer h

/-- In every state that typing and reading reach, a push keeps what is unread exactly when the
buffer is not full. -/
theorem typing_keeps_iff (h : TtyRun evs rb) (c : Byte) :
    KeepsUnread rb c ↔ rb.size ≠ TTY_BUFFER_SIZE := by
  have hinv := ttyInv_run h
  have hle := hinv.size_le
  rw [keepsUnread_iff, push_size_mod hinv, show TTY_BUFFER_SIZE = 100 from rfl]
  omega

end Runs

theorem typed_run {n : ℕ} (hn : n ≤ 100) :
    ∃ rb, TtyRun (List.replicate n (.push (ch 'a'))) rb ∧ rb.size = n := by
  induction n with
  | zero => exact ⟨ttyInit fun _ => 0, Run.nil ⟨_, rfl⟩, rfl⟩
  | succ n ih =>
    obtain ⟨rb, hrun, hsize⟩ := ih (by omega)
    refine ⟨ttyPush rb (ch 'a'), ?_, ?_⟩
    · rw [List.replicate_succ']
      exact ttyRun_push hrun _
    · rw [push_size_mod (ttyInv_run hrun), hsize]
      omega

/-- Two letters typed and one of them read: the other one is kept. -/
theorem typing_keeps_second : ∃ rb, TtyRun [.push (ch 'a'), .push (ch 'b'), .pop] rb ∧
    rb.size = 1 ∧ KeepsUnread rb (ch 'c') := by
  have hnil : TtyRun [] (ttyInit fun _ => 0) := Run.nil ⟨_, rfl⟩
  have hrun := ttyRun_pop (ttyRun_push (ttyRun_push hnil (ch 'a')) (ch 'b'))
  exact ⟨_, hrun, by decide, (typing_keeps_iff hrun (ch 'c')).2 (by decide)⟩

/-- The letter after a hundred makes all of them unreadable. -/
theorem typing_drops : ¬ ∀ evs rb, TtyRun evs rb → ∀ c, KeepsUnread rb c := by
  intro h
  obtain ⟨rb, hrun, hsize⟩ := typed_run le_rfl
  have hkeeps := keepsUnread_iff.1 (h _ _ hrun (ch 'a'))
  rw [push_size_mod (ttyInv_run hrun), hsize] at hkeeps
  exact absurd hkeeps (by decide)

end DepthOS
