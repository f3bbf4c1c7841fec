import Mathlib.Data.List.Nodup

/-! Null-terminated chains: the nodes reached from a pointer by following `next`
until 0. A chain is determined by its head, so it never repeats a node. -/

namespace Lib

def Chain (next : ℕ → ℕ) : ℕ → List ℕ → Prop
  | p, [] => p = 0
  | p, a :: l => p = a ∧ a ≠ 0 ∧ Chain next (next a) l

variable {next next' : ℕ → ℕ}

@[simp] theorem chain_nil {p : ℕ} : Chain next p [] ↔ p = 0 := Iff.rfl

@[simp] theorem chain_cons {p a : ℕ} {l : List ℕ} :
    Chain next p (a :: l) ↔ p = a ∧ a ≠ 0 ∧ Chain next (next a) l := Iff.rfl

theorem Chain.congr {l : List ℕ} {p : ℕ} (h : ∀ a ∈ l, next' a = next a) (hc : Chain next p l) :
    Chain next' p l := by
  induction l generalizing p with
  | nil => exact hc
  | cons a t ih =>
    obtain ⟨hp, ha, ht⟩ := hc
    refine ⟨hp, ha, ?_⟩
    rw [h a (by simp)]
    exact ih (fun b hb => h b (by simp [hb])) ht

theorem Chain.unique {l l' : List ℕ} {p : ℕ} (h : Chain next p l) (h' : Chain next p l') :
    l = l' := by
  induction l generalizing p l' with
  | nil =>
    cases l' with
    | nil => rfl
    | cons b t => exact absurd (h'.1.symm.trans h) h'.2.1
  | cons a t ih =>
    obtain ⟨rfl, ha, ht⟩ := h
    cases l' with
    | nil => exact absurd h' ha
    | cons b t' =>
      obtain ⟨rfl, -, ht'⟩ := h'
      rw [ih ht ht']

theorem Chain.ne_zero {l : List ℕ} {p a : ℕ} (h : Chain next p l) (ha : a ∈ l) : a ≠ 0 := by
  induction l generalizing p with
  | nil => simp at ha
  | cons b t ih =>
    rcases List.mem_cons.1 ha with rfl | ha
    · exact h.2.1
    · exact ih h.2.2 ha

/-- A non-null head is the first node of its chain. -/
theorem Chain.of_ne_zero {l : List ℕ} {p : ℕ} (h : Chain next p l) (hp : p ≠ 0) :
    ∃ t, l = p :: t ∧ Chain next (next p) t := by
  cases l with
  | nil => exact absurd h hp
  | cons a t =>
    obtain ⟨rfl, -, ht⟩ := h
    exact ⟨t, rfl, ht⟩

/-- A walk that ends at 0 or at some node, and else goes on to the next one, returns when it may
take a step more than the chain has nodes. -/
theorem Chain.walk_returns {α : Type} {f : ℕ → ℕ → Option α}
    (hnil : ∀ fuel, ∃ w, f (fuel + 1) 0 = some w)
    (hstep : ∀ fuel p, p ≠ 0 → (∃ w, f (fuel + 1) p = some w) ∨ f (fuel + 1) p = f fuel (next p))
    {fuel p : ℕ} {l : List ℕ} (h : Chain next p l) (hf : l.length < fuel) :
    ∃ w, f fuel p = some w := by
  induction fuel generalizing p l with
  | zero => simp at hf
  | succ fuel ih =>
    cases l with
    | nil =>
      rw [chain_nil.1 h]
      exact hnil fuel
    | cons a t =>
      obtain ⟨rfl, h0, ht⟩ := h
      rcases hstep fuel p h0 with hend | hnext
      · exact hend
      · rw [hnext]
        exact ih ht (by simpa using hf)

end Lib
