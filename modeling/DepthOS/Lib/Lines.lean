import Mathlib.Data.List.DropRight
import Mathlib.Data.List.GetD
import Mathlib.Data.List.Induction
import Mathlib.Tactic

/-! A text as the lines that a screen of fixed width makes of it: it is broken where a
newline stands and where a line is full. There is always a last line, perhaps an empty
one, and what is written goes to its end. -/

namespace Lib

variable {α : Type*}

/-- A new line after every `w` elements. -/
def breakEvery (w : ℕ) (l : List α) : List (List α) :=
  (List.range (l.length / w + 1)).map fun k => (l.drop (w * k)).take w

/-- The text broken at `nl` and after every `w` elements. -/
def wrapLines [BEq α] (w : ℕ) (nl : α) (text : List α) : List (List α) :=
  (text.splitOn nl).flatMap (breakEvery w)

section Lines

variable {w : ℕ} {l : List α} {nl : α}

theorem breakEvery_short (hl : l.length < w) : breakEvery w l = [l] := by
  unfold breakEvery
  rw [Nat.div_eq_of_lt hl]
  simp [List.take_of_length_le hl.le]

theorem breakEvery_long (hw : 0 < w) (hl : w ≤ l.length) :
    breakEvery w l = l.take w :: breakEvery w (l.drop w) := by
  unfold breakEvery
  rw [List.length_drop, Nat.div_eq_sub_div hw hl, List.range_succ_eq_map, List.map_cons,
    List.map_map]
  congr 1
  apply List.map_congr_left
  intro k _
  simp only [Function.comp_apply, List.drop_drop, Nat.mul_succ]
  rw [Nat.add_comm]

theorem breakEvery_length_le {line : List α} (h : line ∈ breakEvery w l) : line.length ≤ w := by
  obtain ⟨k, -, rfl⟩ := List.mem_map.1 h
  exact List.length_take_le _ _

theorem wrapLines_length_le [BEq α] {text line : List α} (h : line ∈ wrapLines w nl text) :
    line.length ≤ w := by
  obtain ⟨part, -, hline⟩ := List.mem_flatMap.1 h
  exact breakEvery_length_le hline

/-- One more element goes to the end of the last line, and starts another when that is
full. -/
theorem breakEvery_snoc (hw : 0 < w) (l : List α) : ∃ front cur,
    breakEvery w l = front ++ [cur] ∧ cur.length < w ∧ ∀ c, breakEvery w (l ++ [c]) =
      if cur.length + 1 < w then front ++ [cur ++ [c]] else front ++ [cur ++ [c], []] := by
  induction hn : l.length using Nat.strongRecOn generalizing l with
  | ind n ih =>
    by_cases hl : l.length < w
    · refine ⟨[], l, breakEvery_short hl, hl, fun c => ?_⟩
      have hlength : (l ++ [c]).length = l.length + 1 := List.length_append
      split_ifs with hc
      · exact breakEvery_short (by omega)
      · have htake : (l ++ [c]).take w = l ++ [c] := List.take_of_length_le (by omega)
        have hdrop : (l ++ [c]).drop w = [] := List.drop_eq_nil_of_le (by omega)
        rw [breakEvery_long hw (by omega), htake, hdrop, breakEvery_short hw]
        rfl
    · obtain ⟨front, cur, heq, hcur, hsnoc⟩ :=
        ih (l.drop w).length (by rw [List.length_drop]; omega) (l.drop w) rfl
      refine ⟨l.take w :: front, cur, ?_, hcur, fun c => ?_⟩
      · rw [breakEvery_long hw (by omega), heq]
        rfl
      · rw [breakEvery_long hw (by rw [List.length_append]; omega),
          List.take_append_of_le_length (by omega), List.drop_append_of_le_length (by omega),
          hsnoc c]
        split_ifs <;> rfl

/-! One element behind a list. -/

theorem getD_snoc_self (l : List α) (a d : α) : (l ++ [a]).getD l.length d = a := by
  rw [List.getD_append_right _ _ _ _ le_rfl]
  simp

theorem getD_snoc_ne {k : ℕ} (hk : k ≠ l.length) (a d : α) : (l ++ [a]).getD k d = l.getD k d := by
  rcases lt_or_gt_of_ne hk with hlt | hgt
  · exact List.getD_append _ _ _ _ hlt
  · rw [List.getD_eq_default _ _ hgt.le, List.getD_eq_default]
    rw [List.length_append]
    exact hgt

/-- What stands behind the end is the default. -/
theorem getD_snoc_default (k : ℕ) (d : α) : (l ++ [d]).getD k d = l.getD k d := by
  by_cases hk : k = l.length
  · rw [hk, getD_snoc_self, List.getD_eq_default _ _ le_rfl]
  · exact getD_snoc_ne hk d d

/-! A window of fixed size over the end of a list. -/

theorem rightpad_eq_map {n : ℕ} (hl : l.length ≤ n) (d : α) :
    l.rightpad n d = (List.range n).map (l.getD · d) := by
  unfold List.rightpad
  apply List.ext_getElem
  · simp [hl]
  · intro k h1 h2
    rw [List.getElem_map, List.getElem_range, ← List.getD_eq_getElem _ d h1]
    by_cases hk : k < l.length
    · exact List.getD_append _ _ _ _ hk
    · have hkn : k < n := by simpa using h2
      rw [List.getD_eq_default l d (by omega), List.getD_append_right _ _ _ _ (by omega),
        List.getD_replicate _ (by omega)]

theorem rtake_length (n : ℕ) (l : List α) : (l.rtake n).length = min n l.length := by
  rw [List.rtake, List.length_drop]
  omega

theorem getD_rtake (n : ℕ) (l : List α) (k : ℕ) (d : α) :
    (l.rtake n).getD k d = l.getD (l.length - n + k) d := by
  simp [List.rtake, List.getD_eq_getElem?_getD]

/-! Lines. -/

variable [BEq α] [LawfulBEq α]

/-- Elements other than the delimiter go to the end of the last part. -/
theorem splitOn_append_last (nl : α) (text : List α) : ∃ front tail, ∀ l, nl ∉ l →
    (text ++ l).splitOn nl = front ++ [tail ++ l] := by
  induction text using List.reverseRecOn with
  | nil => exact ⟨[], [], fun l hl => List.splitOn_eq_singleton hl⟩
  | append_singleton text b ih =>
    obtain ⟨front, tail, hsplit⟩ := ih
    by_cases hb : b = nl
    · refine ⟨text.splitOn nl, [], fun l hl => ?_⟩
      rw [hb, List.append_assoc, List.singleton_append, List.splitOn_append_cons_self,
        List.splitOn_eq_singleton hl, List.nil_append]
    · refine ⟨front, tail ++ [b], fun l hl => ?_⟩
      have hbl : nl ∉ [b] ++ l := by
        simp only [List.singleton_append, List.mem_cons, not_or]
        exact ⟨fun h => hb h.symm, hl⟩
      rw [List.append_assoc, hsplit _ hbl, List.append_assoc]

theorem wrapLines_newline (w : ℕ) (nl : α) (text : List α) :
    wrapLines w nl (text ++ [nl]) = wrapLines w nl text ++ [[]] := by
  unfold wrapLines
  rw [List.splitOn_append_cons_self, List.flatMap_append]
  simp [breakEvery]

theorem wrapLines_snoc (hw : 0 < w) (nl : α) (text : List α) : ∃ front cur,
    wrapLines w nl text = front ++ [cur] ∧ cur.length < w ∧
      ∀ c ≠ nl, wrapLines w nl (text ++ [c]) =
        if cur.length + 1 < w then front ++ [cur ++ [c]] else front ++ [cur ++ [c], []] := by
  obtain ⟨parts, tail, hsplit⟩ := splitOn_append_last nl text
  obtain ⟨front, cur, heq, hcur, hsnoc⟩ := breakEvery_snoc hw tail
  have hend : ∀ l, nl ∉ l → wrapLines w nl (text ++ l) =
      parts.flatMap (breakEvery w) ++ breakEvery w (tail ++ l) := by
    intro l hl
    unfold wrapLines
    rw [hsplit l hl, List.flatMap_append, List.flatMap_singleton]
  refine ⟨parts.flatMap (breakEvery w) ++ front, cur, ?_, hcur, fun c hc => ?_⟩
  · have := hend [] List.not_mem_nil
    rw [List.append_nil, List.append_nil] at this
    rw [this, heq, List.append_assoc]
  · rw [hend [c] (by simpa using hc.symm), hsnoc c]
    split_ifs
    · rw [List.append_assoc]
    · rw [List.append_assoc]

end Lines

end Lib
