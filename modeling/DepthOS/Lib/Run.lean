import Mathlib.Data.List.Basic
import Mathlib.Data.List.Induction

/-! Runs of a labelled transition system, and the one induction every whole-run
result goes through: what holds initially and is kept by each step holds at
the end of every run, hence, runs being prefix closed, after every step. -/

namespace Lib

universe u v

/-- A finite run from an initial state, one event at a time. -/
inductive Run {S : Type u} {E : Type v} (Init : S → Prop) (Step : S → E → S → Prop) :
    List E → S → Prop
  | nil {s : S} (h : Init s) : Run Init Step [] s
  | snoc {evs : List E} {s s' : S} {e : E} (h : Run Init Step evs s) (hs : Step s e s') :
      Run Init Step (evs ++ [e]) s'

variable {S : Type u} {E : Type v} {Init : S → Prop} {Step : S → E → S → Prop}

theorem Run.invariant (Inv : S → Prop) (h0 : ∀ s, Init s → Inv s)
    (h1 : ∀ s e s', Inv s → Step s e s' → Inv s') {evs : List E} {s : S}
    (h : Run Init Step evs s) : Inv s := by
  induction h with
  | nil h => exact h0 _ h
  | snoc _ hs ih => exact h1 _ _ _ ih hs

theorem Run.mono {Step' : S → E → S → Prop} (hstep : ∀ s e s', Step s e s' → Step' s e s')
    {evs : List E} {s : S} (h : Run Init Step evs s) : Run Init Step' evs s := by
  induction h with
  | nil h => exact Run.nil h
  | snoc _ hs ih => exact ih.snoc (hstep _ _ _ hs)

/-- A relation that holds initially and that every step can keep carries runs of one system
over to the other. -/
theorem Run.simulation {T : Type u} {Init' : T → Prop} {Step' : T → E → T → Prop}
    (R : S → T → Prop) (h0 : ∀ s, Init s → ∃ t, Init' t ∧ R s t)
    (h1 : ∀ s e s' t, R s t → Step s e s' → ∃ t', Step' t e t' ∧ R s' t') {evs : List E} {s : S}
    (h : Run Init Step evs s) : ∃ t, Run Init' Step' evs t ∧ R s t := by
  induction h with
  | nil h =>
    obtain ⟨t, ht, hR⟩ := h0 _ h
    exact ⟨t, Run.nil ht, hR⟩
  | snoc _ hs ih =>
    obtain ⟨t, ht, hR⟩ := ih
    obtain ⟨t', hs', hR'⟩ := h1 _ _ _ t hR hs
    exact ⟨t', ht.snoc hs', hR'⟩

theorem Run.last {evs : List E} {e : E} {s' : S} (h : Run Init Step (evs ++ [e]) s') :
    ∃ s, Run Init Step evs s ∧ Step s e s' := by
  generalize hl : evs ++ [e] = l at h
  cases h with
  | nil => simp at hl
  | snoc h hs =>
    obtain ⟨rfl, he⟩ := List.append_inj' hl rfl
    rw [List.singleton_inj.1 he]
    exact ⟨_, h, hs⟩

/-- A run is one of its first part, gone on with from where that ends. -/
theorem Run.split {evs later : List E} {s : S} (h : Run Init Step (evs ++ later) s) :
    ∃ s₀, Run Init Step evs s₀ ∧ Run (· = s₀) Step later s := by
  induction later using List.reverseRecOn generalizing s with
  | nil => exact ⟨s, by rwa [List.append_nil] at h, Run.nil rfl⟩
  | append_singleton later e ih =>
    rw [← List.append_assoc] at h
    obtain ⟨s₁, h₁, hs⟩ := h.last
    obtain ⟨s₀, h₀, hl⟩ := ih h₁
    exact ⟨s₀, h₀, hl.snoc hs⟩

/-- A run goes on from where another has come. -/
theorem Run.append {evs later : List E} {s s' : S} (h : Run Init Step evs s)
    (hl : Run (· = s) Step later s') : Run Init Step (evs ++ later) s' := by
  induction hl with
  | nil heq =>
    rw [heq, List.append_nil]
    exact h
  | snoc _ hs ih =>
    rw [← List.append_assoc]
    exact ih.snoc hs

/-- What the events of one kind keep, a run of them keeps. -/
theorem Run.keeps {P : E → Prop} (Inv : S → Prop) (h0 : ∀ s, Init s → Inv s)
    (h1 : ∀ s e s', P e → Inv s → Step s e s' → Inv s') {evs : List E} {s : S}
    (hevs : ∀ e ∈ evs, P e) (h : Run Init Step evs s) : Inv s := by
  induction h with
  | nil h => exact h0 _ h
  | snoc _ hs ih =>
    exact h1 _ _ _ (hevs _ (by simp)) (ih fun e he => hevs e (List.mem_append_left _ he)) hs

end Lib
