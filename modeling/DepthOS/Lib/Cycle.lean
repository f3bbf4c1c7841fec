import DepthOS.Lib.Linked
import Mathlib.Data.List.Rotate

/-! A list read as a ring: the order in which its members come up after a given
one, and the walk along `nx` pointers that goes back to the front at the end. -/

namespace Lib

section Order

variable {α : Type*} [DecidableEq α]

/-- The members from after `a` on, around the end, with `a` itself last. -/
def cyclicAfter (l : List α) (a : α) : List α := l.rotate (l.idxOf a + 1)

theorem cyclicAfter_split {p q : List α} {a : α} (h : a ∉ p) :
    cyclicAfter (p ++ a :: q) a = q ++ p ++ [a] := by
  have hidx : (p ++ a :: q).idxOf a + 1 = (p ++ [a]).length := by
    rw [List.idxOf_append_of_notMem h, List.idxOf_cons_self, List.length_append,
      List.length_singleton, Nat.add_zero]
  rw [cyclicAfter, hidx, List.append_cons p a q, List.rotate_append_length_eq,
    ← List.append_assoc]

@[simp] theorem mem_cyclicAfter {l : List α} {a x : α} : x ∈ cyclicAfter l a ↔ x ∈ l :=
  List.mem_rotate

section Map

variable {β : Type*} [DecidableEq β] {f : α → β} {l : List α} {a : α}

omit [DecidableEq α] [DecidableEq β] in
/-- A list cut at `a`, where the map keeps `a` apart from the other members. -/
theorem split_map (ha : a ∈ l) (hf : ∀ x ∈ l, f x = f a → x = a) :
    ∃ p q, l = p ++ a :: q ∧ a ∉ p ∧ f a ∉ p.map f := by
  obtain ⟨p, q, rfl, hp⟩ := List.eq_append_cons_of_mem ha
  refine ⟨p, q, rfl, hp, fun h => ?_⟩
  obtain ⟨x, hx, hfx⟩ := List.mem_map.1 h
  exact hp (hf x (List.mem_append_left _ hx) hfx ▸ hx)

/-- The map keeps the order. -/
theorem cyclicAfter_map (ha : a ∈ l) (hf : ∀ x ∈ l, f x = f a → x = a) :
    cyclicAfter (l.map f) (f a) = (cyclicAfter l a).map f := by
  obtain ⟨p, q, rfl, hp, hfp⟩ := split_map ha hf
  rw [List.map_append, List.map_cons, cyclicAfter_split hfp, cyclicAfter_split hp]
  simp only [List.map_append, List.map_cons, List.map_nil]

theorem map_erase_of_mem (ha : a ∈ l) (hf : ∀ x ∈ l, f x = f a → x = a) :
    (l.erase a).map f = (l.map f).erase (f a) := by
  obtain ⟨p, q, rfl, hp, hfp⟩ := split_map ha hf
  rw [List.map_append, List.map_cons, List.erase_append_right _ hfp, List.erase_append_right _ hp,
    List.erase_cons_head, List.erase_cons_head, List.map_append]

end Map

/-- A member other than `a` that qualifies keeps the search from getting to `a`. -/
theorem find_cyclicAfter_ne {l : List α} {a b x : α} {P : α → Bool} (hnd : l.Nodup) (ha : a ∈ l)
    (hb : b ∈ l) (hne : b ≠ a) (hP : P b = true) (h : (cyclicAfter l a).find? P = some x) :
    x ≠ a := by
  obtain ⟨p, q, rfl⟩ := List.append_of_mem ha
  have hap : a ∉ p := fun hp => (List.nodup_append.1 hnd).2.2 a hp a List.mem_cons_self rfl
  have haq : a ∉ q := (List.nodup_cons.1 (List.nodup_append.1 hnd).2.1).1
  have hbpq : b ∈ q ++ p := by
    rcases List.mem_append.1 hb with hbp | hbq
    · exact List.mem_append_right _ hbp
    · exact List.mem_append_left _ ((List.mem_cons.1 hbq).resolve_left hne)
  rw [cyclicAfter_split hap, List.find?_append] at h
  cases hf : (q ++ p).find? P with
  | none => exact absurd hP (List.find?_eq_none.1 hf b hbpq)
  | some y =>
    rw [hf] at h
    obtain rfl : y = x := Option.some.inj h
    rintro rfl
    rcases List.mem_append.1 (List.mem_of_find?_eq_some hf) with hq | hp
    · exact haq hq
    · exact hap hp

/-- Where a ring is cut does not change the order after a member. -/
theorem cyclicAfter_rotate {l : List α} {x : α} (hnd : l.Nodup) (hx : x ∈ l) (n : ℕ) :
    cyclicAfter (l.rotate n) x = cyclicAfter l x := by
  induction n with
  | zero => rw [List.rotate_zero]
  | succ n ih =>
    have hnd' : (l.rotate n).Nodup := List.nodup_rotate.2 hnd
    have hx' : x ∈ l.rotate n := List.mem_rotate.2 hx
    rw [← ih, ← List.rotate_rotate]
    cases hr : l.rotate n with
    | nil =>
      rw [hr] at hx'
      cases hx'
    | cons y t =>
      rw [hr] at hnd' hx'
      rw [List.rotate_cons_succ, List.rotate_zero]
      by_cases hy : y = x
      · subst hy
        have hyt := (List.nodup_cons.1 hnd').1
        rw [cyclicAfter_split hyt, ← List.nil_append (y :: t),
          cyclicAfter_split List.not_mem_nil, List.nil_append, List.append_nil]
      · obtain ⟨p, q, rfl, hp⟩ :=
          List.eq_append_cons_of_mem ((List.mem_cons.1 hx').resolve_left (Ne.symm hy))
        have hyp : x ∉ y :: p := List.not_mem_cons_of_ne_of_not_mem (Ne.symm hy) hp
        rw [List.append_assoc, List.cons_append, cyclicAfter_split hp, ← List.cons_append,
          cyclicAfter_split hyp]
        simp

/-- The order after a member that comes up in the order after another. -/
theorem cyclicAfter_advance {l p q : List α} {a x : α} (hnd : l.Nodup)
    (h : cyclicAfter l a = p ++ x :: q) : cyclicAfter l x = q ++ p ++ [x] := by
  have hnd' : (p ++ x :: q).Nodup := h ▸ List.nodup_rotate.2 hnd
  have hx : x ∈ l := by
    rw [← mem_cyclicAfter (a := a), h]
    exact List.mem_append_right _ List.mem_cons_self
  have hp : x ∉ p := fun hp => (List.nodup_append.1 hnd').2.2 x hp x List.mem_cons_self rfl
  rw [← cyclicAfter_rotate hnd hx (l.idxOf a + 1)]
  change cyclicAfter (cyclicAfter l a) x = _
  rw [h, cyclicAfter_split hp]

/-- One more member at the end of the list. -/
theorem cyclicAfter_snoc {l : List α} {a : α} (ha : a ∈ l) (y : α) :
    ∃ p q, cyclicAfter l a = p ++ q ∧ cyclicAfter (l ++ [y]) a = p ++ y :: q := by
  obtain ⟨p, q, rfl, hp⟩ := List.eq_append_cons_of_mem ha
  refine ⟨q, p ++ [a], ?_, ?_⟩
  · rw [cyclicAfter_split hp, List.append_assoc]
  · rw [List.append_assoc, List.cons_append, cyclicAfter_split hp]
    simp

theorem cyclicAfter_erase {l : List α} {a y : α} (hnd : l.Nodup) (ha : a ∈ l) (hy : y ≠ a) :
    cyclicAfter (l.erase y) a = (cyclicAfter l a).erase y := by
  obtain ⟨p, q, rfl, hp⟩ := List.eq_append_cons_of_mem ha
  obtain ⟨-, hq, hpq⟩ := List.nodup_append.1 hnd
  rw [cyclicAfter_split hp, List.append_assoc]
  by_cases hyp : y ∈ p
  · have hyq : y ∉ q := fun hq => hpq y hyp y (List.mem_cons_of_mem _ hq) rfl
    rw [List.erase_append_left _ hyp, List.erase_append_right _ hyq, List.erase_append_left _ hyp,
      cyclicAfter_split fun h => hp (List.mem_of_mem_erase h), List.append_assoc]
  · rw [List.erase_append_right _ hyp, List.erase_cons_tail (by simpa using hy.symm),
      cyclicAfter_split hp, List.append_assoc]
    by_cases hyq : y ∈ q
    · rw [List.erase_append_left _ hyq]
    · have hya : y ∉ p ++ [a] := by
        rw [List.mem_append, List.mem_singleton]
        exact fun h => h.elim hyp hy
      rw [List.erase_append_right _ hyq, List.erase_of_not_mem hyq, List.erase_of_not_mem hya]

/-- How many members come up before `e`. -/
def ahead (l : List α) (a e : α) : ℕ := (cyclicAfter l a).idxOf e

theorem ahead_lt {l : List α} {a e : α} (he : e ∈ l) : ahead l a e < l.length := by
  have hlt := List.idxOf_lt_length_of_mem (mem_cyclicAfter (a := a) |>.2 he)
  rwa [cyclicAfter, List.length_rotate] at hlt

omit [DecidableEq α] in
/-- Nothing that qualifies stands before what is found. -/
theorem find_split {l : List α} {e x : α} {P : α → Bool} (hP : P e = true)
    (h : l.find? P = some x) : ∃ p q, l = p ++ x :: q ∧ e ∉ p := by
  obtain ⟨-, p, q, hpq, hp⟩ := List.find?_eq_some_iff_append.1 h
  refine ⟨p, q, hpq, fun hep => ?_⟩
  have hneg := hp e hep
  rw [hP] at hneg
  cases hneg

/-- The first member that qualifies leaves fewer before another that does. -/
theorem ahead_find_lt {l : List α} {a e x : α} {P : α → Bool} (hnd : l.Nodup) (he : e ∈ l)
    (hP : P e = true) (h : (cyclicAfter l a).find? P = some x) (hne : e ≠ x) :
    ahead l x e < ahead l a e := by
  obtain ⟨p, q, hpq, hep⟩ := find_split hP h
  have heq : e ∈ q := by
    have hmem : e ∈ cyclicAfter l a := mem_cyclicAfter.2 he
    rw [hpq] at hmem
    exact (List.mem_cons.1 ((List.mem_append.1 hmem).resolve_left hep)).resolve_left hne
  rw [ahead, ahead, hpq, cyclicAfter_advance hnd hpq, List.idxOf_append_of_notMem hep,
    List.append_assoc, List.idxOf_append_of_mem heq, List.idxOf_cons_ne _ (Ne.symm hne)]
  omega

theorem ahead_snoc_le {l : List α} {a : α} (ha : a ∈ l) (y e : α) :
    ahead (l ++ [y]) a e ≤ ahead l a e + 1 := by
  obtain ⟨p, q, hl, hly⟩ := cyclicAfter_snoc ha y
  rw [ahead, ahead, hl, hly]
  by_cases hp : e ∈ p
  · rw [List.idxOf_append_of_mem hp, List.idxOf_append_of_mem hp]
    exact Nat.le_succ _
  · rw [List.idxOf_append_of_notMem hp, List.idxOf_append_of_notMem hp]
    by_cases hy : y = e
    · subst hy
      rw [List.idxOf_cons_self]
      omega
    · rw [List.idxOf_cons_ne _ hy]
      omega

theorem idxOf_erase_le (l : List α) {y e : α} (he : y ≠ e) :
    (l.erase y).idxOf e ≤ l.idxOf e := by
  induction l with
  | nil => exact le_rfl
  | cons z t ih =>
    by_cases hz : z = y
    · subst hz
      rw [List.erase_cons_head, List.idxOf_cons_ne _ he]
      exact Nat.le_succ _
    · rw [List.erase_cons_tail (by simpa using hz)]
      by_cases hze : z = e
      · subst hze
        rw [List.idxOf_cons_self]
        exact Nat.zero_le _
      · rw [List.idxOf_cons_ne _ hze, List.idxOf_cons_ne _ hze]
        omega

/-- When the first member that qualifies goes, another that does moves up. -/
theorem idxOf_erase_lt {l : List α} {e x : α} {P : α → Bool} (he : e ∈ l) (hP : P e = true)
    (h : l.find? P = some x) (hne : e ≠ x) : (l.erase x).idxOf e < l.idxOf e := by
  obtain ⟨-, p, q, rfl, hneg⟩ := List.find?_eq_some_iff_append.1 h
  have hep : e ∉ p := fun hep => by simpa [hP] using hneg e hep
  have hxp : x ∉ p := fun hxp => by simpa [List.find?_some h] using hneg x hxp
  have heq : e ∈ q :=
    (List.mem_cons.1 ((List.mem_append.1 he).resolve_left hep)).resolve_left hne
  rw [List.erase_append_right _ hxp, List.erase_cons_head, List.idxOf_append_of_notMem hep,
    List.idxOf_append_of_notMem hep, List.idxOf_cons_ne _ (Ne.symm hne)]
  omega

theorem ahead_erase_le {l : List α} {a y e : α} (hnd : l.Nodup) (ha : a ∈ l) (hy : y ≠ a)
    (he : y ≠ e) : ahead (l.erase y) a e ≤ ahead l a e := by
  rw [ahead, ahead, cyclicAfter_erase hnd ha hy]
  exact idxOf_erase_le _ he

/-- `e` comes up before `u`. -/
def Before (l : List α) (a e u : α) : Prop := [e, u].Sublist (cyclicAfter l a)

omit [DecidableEq α] in
theorem sublist_of_append {p q l : List α} {e : α} (hp : e ∉ p) (h : (e :: l).Sublist (p ++ q)) :
    (e :: l).Sublist q := by
  induction p with
  | nil => exact h
  | cons z t ih =>
    rw [List.cons_append] at h
    cases h with
    | cons _ h => exact ih (List.not_mem_of_not_mem_cons hp) h
    | cons_cons _ h => exact absurd List.mem_cons_self hp

/-- While `e` qualifies and is not found, nothing that comes after it is. -/
theorem Before.find {l : List α} {a e u x : α} {P : α → Bool} (h : Before l a e u)
    (hnd : l.Nodup) (hP : P e = true) (hx : (cyclicAfter l a).find? P = some x) (hne : e ≠ x) :
    u ≠ x ∧ Before l x e u := by
  obtain ⟨p, q, hpq, hep⟩ := find_split hP hx
  have hnd' : (p ++ x :: q).Nodup := hpq ▸ List.nodup_rotate.2 hnd
  have hsub : [e, u].Sublist (p ++ x :: q) := hpq ▸ h
  have hq : [e, u].Sublist q :=
    sublist_of_append (fun hm => hne (List.mem_singleton.1 hm)) (sublist_of_append (p := p) hep hsub)
  have hxq : x ∉ q := (List.nodup_cons.1 (List.nodup_append.1 hnd').2.1).1
  refine ⟨?_, ?_⟩
  · rintro rfl
    exact hxq (hq.subset (List.mem_cons_of_mem _ List.mem_cons_self))
  · rw [Before, cyclicAfter_advance hnd hpq, List.append_assoc]
    exact hq.trans (List.sublist_append_left _ _)

theorem Before.snoc {l : List α} {a e u : α} (h : Before l a e u) (ha : a ∈ l) (y : α) :
    Before (l ++ [y]) a e u := by
  obtain ⟨p, q, hl, hly⟩ := cyclicAfter_snoc ha y
  rw [Before, hl] at h
  rw [Before, hly]
  exact h.trans (List.Sublist.append_left (List.sublist_cons_self _ _) p)

theorem Before.erase {l : List α} {a y e u : α} (h : Before l a e u) (hnd : l.Nodup) (ha : a ∈ l)
    (hy : y ≠ a) (he : y ≠ e) (hu : y ≠ u) : Before (l.erase y) a e u := by
  have herase : [e, u].erase y = [e, u] := by
    refine List.erase_of_not_mem fun hm => ?_
    rcases List.mem_cons.1 hm with h | h
    · exact he h
    · exact hu (List.mem_singleton.1 h)
  rw [Before, cyclicAfter_erase hnd ha hy, ← herase]
  exact List.Sublist.erase y h

/-- After `a` everything else comes up before `a` does again. -/
theorem before_self {l : List α} {a e : α} (ha : a ∈ l) (he : e ∈ l) (hne : e ≠ a) :
    Before l a e a := by
  obtain ⟨p, q, rfl, hp⟩ := List.eq_append_cons_of_mem ha
  rw [Before, cyclicAfter_split hp]
  have hmem : e ∈ q ++ p := by
    rcases List.mem_append.1 he with h | h
    · exact List.mem_append_right _ h
    · exact List.mem_append_left _ ((List.mem_cons.1 h).resolve_left hne)
  exact List.Sublist.append (List.singleton_sublist.2 hmem) (List.Sublist.refl [a])

end Order

/-- Following `v` from `x` gives the nodes of the list in order. -/
def Visits (v : ℕ → ℕ) : ℕ → List ℕ → Prop
  | _, [] => True
  | x, y :: t => v x = y ∧ Visits v y t

variable {v nx pv : ℕ → ℕ} {a b x first : ℕ} {l m p q : List ℕ}

theorem visits_append : Visits v x (l ++ m) ↔ Visits v x l ∧ Visits v (lastOr x l) m := by
  induction l generalizing x with
  | nil => simp [Visits]
  | cons y t ih =>
    simp only [List.cons_append, Visits, lastOr_cons, ih]
    tauto

/-- The next node, or the first one after the last. -/
def ringNext (nx : ℕ → ℕ) (first x : ℕ) : ℕ := if nx x = 0 then first else nx x

/-- Inside a segment the walk follows the segment. -/
theorem Linked.visits (h : Linked nx pv a (x :: l) b) : Visits (ringNext nx first) x l := by
  induction l generalizing a x with
  | nil => trivial
  | cons y t ih =>
    obtain ⟨-, -, hn, ht⟩ := h
    rw [headOr_cons] at hn
    refine ⟨?_, ih ht⟩
    rw [ringNext, hn, if_neg ht.1]

theorem Linked.last_next (h : Linked nx pv a (x :: l) b) : nx (lastOr x l) = b := by
  induction l generalizing a x with
  | nil => exact h.2.2.1
  | cons y t ih => exact ih h.2.2.2

/-- The walk from a member goes round the ring and back to it. -/
theorem Linked.visits_ring (h : Linked nx pv 0 (p ++ a :: q) 0) :
    Visits (ringNext nx (headOr (p ++ a :: q) 0)) a (q ++ p ++ [a]) := by
  obtain ⟨hp, hq⟩ := linked_append.1 h
  have hwrap : ringNext nx (headOr (p ++ a :: q) 0) (lastOr a q) = headOr (p ++ [a]) 0 := by
    rw [ringNext, if_pos hq.last_next, headOr_append, headOr_append, headOr_cons, headOr_cons]
  rw [List.append_assoc, visits_append]
  refine ⟨hq.visits, ?_⟩
  cases p with
  | nil => exact ⟨hwrap, trivial⟩
  | cons y t =>
    refine ⟨hwrap, visits_append.2 ⟨hp.visits, ?_, trivial⟩⟩
    rw [ringNext, hp.last_next, headOr_cons, if_neg hq.1]

end Lib
