import DepthOS.Sanity.List
import DepthOS.Spec.Vma

/-! What one call does to the sequence of areas: the walk of `vma_create` over an
ordered list, the place it inserts at, and the removal in `vma_dispose`. -/

namespace DepthOS

open Lib

/-- The area is not empty and its end does not wrap. -/
structure VmArea.Ok (a : VmArea) : Prop where
  size_pos : 0 < a.size
  no_wrap : a.addr + a.size < 4294967296

/-- `a` ends before `b` begins. -/
def AreaBelow (a b : VmArea) : Prop := a.addr + a.size ≤ b.addr

theorem VmArea.ok_of_user {a : VmArea} (h0 : 0 < a.size) (h : a.addr + a.size ≤ VIRT_BASE) :
    a.Ok := by
  refine ⟨h0, ?_⟩
  simp only [VIRT_BASE] at h
  omega

theorem VmArea.Ok.end_eq {a : VmArea} (h : a.Ok) : u32 (a.addr + a.size) = a.addr + a.size := by
  have := h.no_wrap
  simp only [u32]
  omega

theorem overlap_false {a b : VmArea} (ha : a.Ok) (hb : b.Ok) :
    vmaOverlap a b = false ↔ AreaBelow a b ∨ AreaBelow b a := by
  have h1 := ha.size_pos
  have h2 := hb.size_pos
  unfold vmaOverlap AreaBelow
  rw [ha.end_eq, hb.end_eq]
  split_ifs with h <;> rw [decide_eq_false_iff_not] <;> omega

theorem areaBelow_of_le {a b : VmArea} (hb : b.Ok) (hov : AreaBelow a b ∨ AreaBelow b a)
    (hle : a.addr ≤ b.addr) : AreaBelow a b := by
  rcases hov with h | h
  · exact h
  · have := hb.size_pos
    unfold AreaBelow at h
    omega

section Walk

variable {E : Entries} {areas : ℕ → VmArea} {vma : VmArea}

theorem vmaWalk_returns (areas : ℕ → VmArea) (vma : VmArea) {fuel item : ℕ} {r : List ℕ}
    (hc : Chain (fun x => (E x).next) item r) (hf : r.length < fuel) :
    ∃ w, vmaWalk E areas vma fuel item = some w := by
  apply hc.walk_returns _ _ hf
  · exact fun fuel => ⟨.push, by rw [vmaWalk, if_pos rfl]⟩
  · intro fuel p h0
    rw [vmaWalk, if_neg h0]
    split_ifs
    · exact Or.inl ⟨_, rfl⟩
    · exact Or.inl ⟨_, rfl⟩
    · exact Or.inr rfl

/-- On an ordered list the walk tells where the new area stands among all of
them, also those it never looks at. -/
theorem vmaWalk_spec (hv : vma.Ok) {fuel item : ℕ} {r : List ℕ} {w : WalkEnd}
    (hc : Chain (fun x => (E x).next) item r) (hok : ∀ x ∈ r, (areas (E x).value).Ok)
    (hs : r.Pairwise fun x y => AreaBelow (areas (E x).value) (areas (E y).value))
    (hw : vmaWalk E areas vma fuel item = some w) :
    match w with
    | .overlap => ∃ x ∈ r, vmaOverlap (areas (E x).value) vma = true
    | .before y => ∃ l m, r = l ++ y :: m ∧ (∀ x ∈ l, AreaBelow (areas (E x).value) vma) ∧
        ∀ x ∈ y :: m, AreaBelow vma (areas (E x).value)
    | .push => ∀ x ∈ r, AreaBelow (areas (E x).value) vma := by
  induction fuel generalizing item r with
  | zero => simp [vmaWalk] at hw
  | succ fuel ih =>
    unfold vmaWalk at hw
    cases r with
    | nil =>
      rw [if_pos (show item = 0 from hc)] at hw
      obtain rfl := Option.some.inj hw
      simp
    | cons x t =>
      obtain ⟨rfl, h0, ht⟩ := hc
      obtain ⟨hxt, hst⟩ := List.pairwise_cons.1 hs
      have hx := hok item (by simp)
      have hapart : ¬ vmaOverlap (areas (E item).value) vma = true →
          AreaBelow (areas (E item).value) vma ∨ AreaBelow vma (areas (E item).value) :=
        fun hov => (overlap_false hx hv).1 (by simpa using hov)
      rw [if_neg h0] at hw
      split_ifs at hw with hov habove
      · obtain rfl := Option.some.inj hw
        exact ⟨item, by simp, hov⟩
      · obtain rfl := Option.some.inj hw
        have hlt := areaBelow_of_le hx (hapart hov).symm (by omega)
        refine ⟨[], t, rfl, by simp, fun y hy => ?_⟩
        rcases List.mem_cons.1 hy with rfl | hy
        · exact hlt
        · -- the rest of the list lies above the area the walk stopped at
          have := hxt y hy
          unfold AreaBelow at hlt this ⊢
          omega
      · have hlt := areaBelow_of_le hv (hapart hov) (by omega)
        have hrec := ih ht (fun y hy => hok y (by simp [hy])) hst hw
        cases w with
        | overlap =>
          obtain ⟨y, hy, hov'⟩ := hrec
          exact ⟨y, by simp [hy], hov'⟩
        | before y =>
          obtain ⟨l, m, rfl, hl, hm⟩ := hrec
          refine ⟨item :: l, m, rfl, fun z hz => ?_, hm⟩
          rcases List.mem_cons.1 hz with rfl | hz
          · exact hlt
          · exact hl z hz
        | push =>
          intro z hz
          rcases List.mem_cons.1 hz with rfl | hz
          · exact hlt
          · exact hrec z hz

theorem vmaWalk_before {fuel item y : ℕ} {r : List ℕ} (hc : Chain (fun x => (E x).next) item r)
    (hw : vmaWalk E areas vma fuel item = some (.before y)) :
    ∃ l m, r = l ++ y :: m ∧ vma.addr < (areas (E y).value).addr ∧
      ∀ x ∈ l ++ [y], vmaOverlap (areas (E x).value) vma = false := by
  induction fuel generalizing item r with
  | zero => simp [vmaWalk] at hw
  | succ fuel ih =>
    unfold vmaWalk at hw
    cases r with
    | nil =>
      rw [if_pos (show item = 0 from hc)] at hw
      simp at hw
    | cons x t =>
      obtain ⟨rfl, h0, ht⟩ := hc
      rw [if_neg h0] at hw
      split_ifs at hw with hov habove
      · simp at hw
      · obtain rfl : item = y := by simpa using hw
        exact ⟨[], t, rfl, habove, by simpa using hov⟩
      · obtain ⟨l, m, rfl, hlt, hno⟩ := ih ht hw
        refine ⟨item :: l, m, rfl, hlt, fun z hz => ?_⟩
        rcases List.mem_cons.1 hz with rfl | hz
        · simpa using hov
        · exact hno z hz

theorem vmaWalk_push {fuel item : ℕ} {r : List ℕ} (hc : Chain (fun x => (E x).next) item r)
    (hw : vmaWalk E areas vma fuel item = some .push) :
    ∀ x ∈ r, vmaOverlap (areas (E x).value) vma = false := by
  induction fuel generalizing item r with
  | zero => simp [vmaWalk] at hw
  | succ fuel ih =>
    unfold vmaWalk at hw
    cases r with
    | nil => simp
    | cons x t =>
      obtain ⟨rfl, h0, ht⟩ := hc
      rw [if_neg h0] at hw
      split_ifs at hw with hov habove
      · simp at hw
      · simp at hw
      · intro z hz
        rcases List.mem_cons.1 hz with rfl | hz
        · simpa using hov
        · exact ih ht hw z hz

theorem vmaFind_returns (area : ℕ) {fuel item : ℕ} {r : List ℕ}
    (hc : Chain (fun x => (E x).next) item r) (hf : r.length < fuel) :
    ∃ p, vmaFind E area fuel item = some p := by
  apply hc.walk_returns _ _ hf
  · exact fun fuel => ⟨0, by rw [vmaFind, if_pos rfl]⟩
  · intro fuel p h0
    rw [vmaFind, if_neg h0]
    split_ifs
    · exact Or.inl ⟨_, rfl⟩
    · exact Or.inr rfl

theorem vmaFind_spec {area fuel item p : ℕ} {r : List ℕ}
    (hc : Chain (fun x => (E x).next) item r) (hw : vmaFind E area fuel item = some p) :
    (p = 0 ∧ ∀ x ∈ r, (E x).value ≠ area) ∨ (p ∈ r ∧ (E p).value = area) := by
  induction fuel generalizing item r with
  | zero => simp [vmaFind] at hw
  | succ fuel ih =>
    unfold vmaFind at hw
    cases r with
    | nil =>
      rw [if_pos (show item = 0 from hc)] at hw
      exact Or.inl ⟨(Option.some.inj hw).symm, by simp⟩
    | cons x t =>
      obtain ⟨rfl, h0, ht⟩ := hc
      rw [if_neg h0] at hw
      split_ifs at hw with hval
      · obtain rfl := Option.some.inj hw
        exact Or.inr ⟨by simp, hval⟩
      · rcases ih ht hw with ⟨hp, hall⟩ | ⟨hp, hv⟩
        · refine Or.inl ⟨hp, fun z hz => ?_⟩
          rcases List.mem_cons.1 hz with rfl | hz
          · exact hval
          · exact hall z hz
        · exact Or.inr ⟨List.mem_cons_of_mem _ hp, hv⟩

end Walk

end DepthOS
