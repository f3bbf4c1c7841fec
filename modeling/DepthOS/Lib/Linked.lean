import DepthOS.Lib.Chain
import Mathlib.Tactic

/-! Doubly linked segments. `Linked nx pv a l b` says that the nodes of `l`,
none of them null, follow each other under `nx` and precede each other under
`pv`, with `a` before the first and `b` after the last. Replacing the middle of
a segment needs only its two borders rewritten. -/

namespace Lib

/-- The first node of `l`, or what comes after it. -/
def headOr : List ℕ → ℕ → ℕ
  | [], b => b
  | x :: _, _ => x

/-- The last node of `l`, or what comes before it. -/
def lastOr : ℕ → List ℕ → ℕ
  | a, [] => a
  | _, x :: t => lastOr x t

def Linked (nx pv : ℕ → ℕ) : ℕ → List ℕ → ℕ → Prop
  | _, [], _ => True
  | a, x :: t, b => x ≠ 0 ∧ pv x = a ∧ nx x = headOr t b ∧ Linked nx pv x t b

@[simp] theorem headOr_nil (b : ℕ) : headOr [] b = b := rfl

@[simp] theorem headOr_cons (x : ℕ) (t : List ℕ) (b : ℕ) : headOr (x :: t) b = x := rfl

@[simp] theorem lastOr_nil (a : ℕ) : lastOr a [] = a := rfl

@[simp] theorem lastOr_cons (a x : ℕ) (t : List ℕ) : lastOr a (x :: t) = lastOr x t := rfl

@[simp] theorem headOr_append (l m : List ℕ) (b : ℕ) :
    headOr (l ++ m) b = headOr l (headOr m b) := by
  cases l <;> rfl

@[simp] theorem lastOr_append (a : ℕ) (l m : List ℕ) :
    lastOr a (l ++ m) = lastOr (lastOr a l) m := by
  induction l generalizing a with
  | nil => rfl
  | cons x t ih => exact ih x

theorem headOr_mem {l : List ℕ} (h : l ≠ []) (b : ℕ) : headOr l b ∈ l := by
  cases l with
  | nil => exact absurd rfl h
  | cons x t => exact List.mem_cons_self

theorem lastOr_mem {l : List ℕ} (h : l ≠ []) (a : ℕ) : lastOr a l ∈ l := by
  induction l generalizing a with
  | nil => exact absurd rfl h
  | cons x t ih =>
    by_cases ht : t = []
    · simp [ht]
    · exact List.mem_cons_of_mem _ (ih ht x)

variable {nx pv nx' pv' : ℕ → ℕ} {a b a' b' : ℕ} {l k k' m : List ℕ}

@[simp] theorem linked_nil : Linked nx pv a [] b := trivial

@[simp] theorem linked_cons {x : ℕ} : Linked nx pv a (x :: l) b ↔
    x ≠ 0 ∧ pv x = a ∧ nx x = headOr l b ∧ Linked nx pv x l b := Iff.rfl

theorem linked_append : Linked nx pv a (l ++ m) b ↔
    Linked nx pv a l (headOr m b) ∧ Linked nx pv (lastOr a l) m b := by
  induction l generalizing a with
  | nil => simp
  | cons x t ih =>
    simp only [List.cons_append, linked_cons, headOr_append, lastOr_cons, ih]
    tauto

theorem Linked.ne_zero (h : Linked nx pv a l b) {x : ℕ} (hx : x ∈ l) : x ≠ 0 := by
  induction l generalizing a with
  | nil => simp at hx
  | cons y t ih =>
    rcases List.mem_cons.1 hx with rfl | hx
    · exact h.1
    · exact ih h.2.2.2 hx

theorem Linked.congr (h : Linked nx pv a l b) (hnx : ∀ x ∈ l, nx' x = nx x)
    (hpv : ∀ x ∈ l, pv' x = pv x) : Linked nx' pv' a l b := by
  induction l generalizing a with
  | nil => trivial
  | cons y t ih =>
    obtain ⟨h0, hp, hn, ht⟩ := h
    exact ⟨h0, by rw [hpv y (by simp), hp], by rw [hnx y (by simp), hn],
      ih ht (fun x hx => hnx x (by simp [hx])) (fun x hx => hpv x (by simp [hx]))⟩

/-- Read by `nx` alone, a null-terminated segment is a chain. -/
theorem Linked.chain (h : Linked nx pv a l 0) : Chain nx (headOr l 0) l := by
  induction l generalizing a with
  | nil => rfl
  | cons y t ih =>
    obtain ⟨h0, -, hn, ht⟩ := h
    exact ⟨rfl, h0, by rw [hn]; exact ih ht⟩

/-- Read by `pv` from its last node, it is the reversed chain. -/
theorem Linked.chain_reverse (h : Linked nx pv 0 l b) : Chain pv (lastOr 0 l) l.reverse := by
  induction l using List.reverseRecOn generalizing b with
  | nil => rfl
  | append_singleton t y ih =>
    obtain ⟨ht, h0, hp, -, -⟩ := linked_append.1 h
    rw [lastOr_append, lastOr_cons, lastOr_nil, List.reverse_append]
    refine ⟨rfl, h0, ?_⟩
    rw [hp]
    exact ih ht

/-- Only the last `nx` of a segment knows what follows it. -/
theorem Linked.set_next (h : Linked nx pv a l b) (hnd : l.Nodup)
    (hnx : ∀ x ∈ l, nx' x = if x = lastOr a l then b' else nx x)
    (hpv : ∀ x ∈ l, pv' x = pv x) : Linked nx' pv' a l b' := by
  induction l generalizing a with
  | nil => trivial
  | cons y t ih =>
    obtain ⟨h0, hp, hn, ht⟩ := h
    obtain ⟨hy, hnd'⟩ := List.nodup_cons.1 hnd
    refine ⟨h0, by rw [hpv y (by simp), hp], ?_, ih ht hnd'
      (fun x hx => hnx x (by simp [hx])) (fun x hx => hpv x (by simp [hx]))⟩
    rw [hnx y (by simp), lastOr_cons]
    cases t with
    | nil => simp
    | cons z t' =>
      -- `y` is not the last node: that one lies in the duplicate-free tail
      have hlast : lastOr y (z :: t') ∈ z :: t' := lastOr_mem (by simp) y
      have hne : y ≠ lastOr y (z :: t') := fun he => hy (by rw [he]; exact hlast)
      rw [if_neg hne, hn]
      rfl

/-- Only the first `pv` of a segment knows what precedes it. -/
theorem Linked.set_prev (h : Linked nx pv a l b) (hnd : l.Nodup)
    (hnx : ∀ x ∈ l, nx' x = nx x)
    (hpv : ∀ x ∈ l, pv' x = if x = headOr l b then a' else pv x) : Linked nx' pv' a' l b := by
  cases l with
  | nil => trivial
  | cons y t =>
    obtain ⟨h0, hp, hn, ht⟩ := h
    obtain ⟨hy, -⟩ := List.nodup_cons.1 hnd
    refine ⟨h0, by simp [hpv y (by simp)], by rw [hnx y (by simp), hn], ?_⟩
    refine ht.congr (fun x hx => hnx x (by simp [hx])) (fun x hx => ?_)
    rw [hpv x (by simp [hx]), headOr_cons, if_neg]
    rintro rfl
    exact hy hx

/-- The middle `k` gives way to `k'`: the last node before it and the first node
after it are relinked, all others keep their pointers. -/
theorem Linked.splice (h : Linked nx pv a (l ++ (k ++ m)) b) (hnd : (l ++ (k ++ m)).Nodup)
    (hk : Linked nx' pv' (lastOr a l) k' (headOr m b))
    (hnl : ∀ x ∈ l, nx' x = if x = lastOr a l then headOr k' (headOr m b) else nx x)
    (hpl : ∀ x ∈ l, pv' x = pv x) (hnm : ∀ x ∈ m, nx' x = nx x)
    (hpm : ∀ x ∈ m, pv' x = if x = headOr m b then lastOr (lastOr a l) k' else pv x) :
    Linked nx' pv' a (l ++ (k' ++ m)) b := by
  obtain ⟨hl, hkm⟩ := linked_append.1 h
  obtain ⟨-, hm⟩ := linked_append.1 hkm
  obtain ⟨hndl, hndkm, -⟩ := List.nodup_append.1 hnd
  obtain ⟨-, hndm, -⟩ := List.nodup_append.1 hndkm
  rw [linked_append, linked_append, headOr_append]
  exact ⟨hl.set_next hndl hnl hpl, hk, hm.set_prev hndm hnm hpm⟩

end Lib
