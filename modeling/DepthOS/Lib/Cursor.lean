import Mathlib.Data.Int.Notation
import Mathlib.Tactic.TypeStar
import DepthOS.Lib.Run

/-! Sequences read through a cursor that several readers share: what reads have delivered
since some point is the stretch of the sequence that the cursor has moved over. -/

namespace Lib

variable {α : Type*}

/-- What a call through a cursor came back with: the items of a read for at most `n`, or the
result of a seek, negative if it failed. -/
inductive Access (α : Type*) where
  | read (n : ℕ) (items : List α)
  | seek (result : ℤ)

/-- What the call has delivered. -/
def Access.items : Access α → List α
  | .read _ items => items
  | .seek _ => []

/-- A read delivers what comes next, not more than was asked for, and nothing only if nothing
was asked for or is left. A seek fails and stays, or returns where it has gone. -/
def CursorStep (data : List α) (pos : ℕ) (a : Access α) (pos' : ℕ) : Prop :=
  match a with
  | .read n items =>
    items = (data.drop pos).take items.length ∧ items.length ≤ n ∧
      pos' = pos + items.length ∧ (items = [] → n = 0 ∨ data.length ≤ pos)
  | .seek result => (result < 0 ∧ pos' = pos) ∨ (result = pos' ∧ pos' ≤ data.length)

/-- The calls through a cursor since it was at `start`. -/
def CursorRun (data : List α) (start : ℕ) : List (Access α) → ℕ → Prop :=
  Run (· = start) (CursorStep data)

variable {data : List α} {start pos : ℕ} {as : List (Access α)}

theorem CursorStep.pos_le {pos' : ℕ} {a : Access α} (hs : CursorStep data pos a pos')
    (h : pos ≤ data.length) : pos' ≤ data.length := by
  cases a with
  | read n items =>
    obtain ⟨hitems, -, rfl, -⟩ := hs
    have hlen := congrArg List.length hitems
    rw [List.length_take, List.length_drop] at hlen
    omega
  | seek result =>
    rcases hs with ⟨-, rfl⟩ | ⟨-, hle⟩
    · exact h
    · exact hle

theorem CursorRun.pos_le (h : CursorRun data start as pos) (hstart : start ≤ data.length) :
    pos ≤ data.length :=
  Run.invariant (fun p => p ≤ data.length) (fun p hp => by rwa [hp])
    (fun _ _ _ h hs => CursorStep.pos_le hs h) h

end Lib
