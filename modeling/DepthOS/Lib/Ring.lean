import Mathlib.Tactic

/-! Windows of a circular buffer: `n` slots read from position `r` on, indices
reduced modulo the capacity `m`. Appending writes the slot just past the window,
dropping moves its start. -/

namespace Lib

variable {α : Type*} {f g : ℕ → α} {m r n : ℕ}

def window (f : ℕ → α) (m r n : ℕ) : List α := (List.range n).map fun j => f ((r + j) % m)

@[simp] theorem window_length : (window f m r n).length = n := by simp [window]

@[simp] theorem window_zero : window f m r 0 = [] := rfl

/-- Inside one window no slot is visited twice. -/
theorem window_index_ne {j : ℕ} (hj : j < n) (hn : n < m) : (r + j) % m ≠ (r + n) % m := by
  intro h
  have h' : j % m = n % m := Nat.ModEq.add_left_cancel' r h
  rw [Nat.mod_eq_of_lt (by omega), Nat.mod_eq_of_lt hn] at h'
  omega

theorem window_push (hn : n < m) (h : ∀ k < m, k ≠ (r + n) % m → g k = f k) :
    window g m r (n + 1) = window f m r n ++ [g ((r + n) % m)] := by
  unfold window
  rw [List.range_succ, List.map_append, List.map_singleton]
  congr 1
  apply List.map_congr_left
  intro j hj
  have hj' : j < n := List.mem_range.1 hj
  exact h _ (Nat.mod_lt _ (by omega)) (window_index_ne hj' hn)

theorem window_pop (hr : r < m) : window f m r (n + 1) = f r :: window f m ((r + 1) % m) n := by
  unfold window
  rw [List.range_succ_eq_map, List.map_cons, List.map_map, Nat.add_zero, Nat.mod_eq_of_lt hr]
  congr 1
  apply List.map_congr_left
  intro j _
  rw [Function.comp_apply, Nat.mod_add_mod]
  congr 2
  omega

end Lib
