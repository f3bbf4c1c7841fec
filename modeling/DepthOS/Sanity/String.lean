import DepthOS.Spec.String

/-! What the string functions compute on a terminated string. -/

namespace DepthOS

open Lib

variable {m : Mem} {a : ℕ} {s : List Byte}

theorem toInt_sub_ne {b c : Byte} (h : b ≠ c) : b.toInt - c.toInt ≠ 0 := by
  intro h0
  exact h (BitVec.eq_of_toInt_eq (by omega))

theorem strEnd_eq (h : HoldsStr m a s) {fuel : ℕ} (hfuel : s.length < fuel) :
    strEnd m fuel a = some (a + s.length) := by
  induction s generalizing a fuel with
  | nil =>
    obtain ⟨fuel, rfl⟩ := Nat.exists_eq_add_of_lt hfuel
    unfold strEnd
    rw [if_neg (fun hne => hne h)]
    rfl
  | cons b bs ih =>
    obtain ⟨fuel, rfl⟩ := Nat.exists_eq_add_of_lt hfuel
    have hne : m a ≠ 0 := by rw [h.1]; exact h.2.1
    unfold strEnd
    rw [if_pos hne, ih h.2.2 (by rw [List.length_cons]; omega), List.length_cons]
    congr 1
    omega

theorem strlen_eq (h : HoldsStr m a s) {fuel : ℕ} (hfuel : s.length < fuel) :
    strlen fuel m a = some s.length := by
  rw [strlen, strEnd_eq h hfuel, Option.map_some, Nat.add_sub_cancel_left]

theorem strdup_eq (h : HoldsStr m a s) {fuel : ℕ} (hfuel : s.length < fuel) :
    strdup fuel m a = some s := by
  have hbytes := (holdsStr_iff.1 h).2.1
  rw [strdup, strlen_eq h hfuel, Option.map_some]
  congr 1
  apply List.ext_getElem
  · rw [List.length_map, List.length_range]
  · intro k hk hk'
    rw [List.getElem_map, List.getElem_range, hbytes k hk', List.getD_eq_getElem _ _ hk']

theorem strEnd_some {fuel e : ℕ} (h : strEnd m fuel a = some e) :
    ∃ s, HoldsStr m a s ∧ s.length < fuel := by
  induction fuel generalizing a with
  | zero => exact absurd h (by simp [strEnd])
  | succ fuel ih =>
    unfold strEnd at h
    by_cases h0 : m a = 0
    · exact ⟨[], h0, Nat.succ_pos fuel⟩
    · rw [if_pos h0] at h
      obtain ⟨s, hs, hlt⟩ := ih h
      exact ⟨m a :: s, ⟨rfl, h0, hs⟩, Nat.succ_lt_succ hlt⟩

theorem strlen_some {fuel n : ℕ} (h : strlen fuel m a = some n) :
    ∃ s, HoldsStr m a s ∧ s.length < fuel := by
  obtain ⟨e, he, -⟩ := Option.map_eq_some_iff.1 h
  exact strEnd_some he

theorem strcmp_eq_zero (h : HoldsStr m a s) {t : List Byte} (ht : (0 : Byte) ∉ t) :
    strcmp m a t = 0 ↔ s = t := by
  induction t generalizing a s with
  | nil =>
    unfold strcmp
    cases s with
    | nil => exact ⟨fun _ => rfl, fun _ => if_pos h⟩
    | cons b bs =>
      have hne : m a ≠ 0 := by rw [h.1]; exact h.2.1
      rw [if_neg hne]
      exact ⟨fun h0 => absurd h0 (toInt_sub_ne hne), fun h0 => absurd h0 (List.cons_ne_nil b bs)⟩
  | cons c t ih =>
    obtain ⟨hc, ht⟩ : c ≠ 0 ∧ (0 : Byte) ∉ t := by
      rw [List.mem_cons, not_or] at ht
      exact ⟨Ne.symm ht.1, ht.2⟩
    unfold strcmp
    cases s with
    | nil =>
      have h0 : m a = 0 := h
      rw [h0, if_neg (fun hh => hh.1 rfl), if_neg (Ne.symm hc)]
      exact ⟨fun h0 => absurd h0 (toInt_sub_ne (Ne.symm hc)), fun h0 => absurd h0 (by simp)⟩
    | cons b bs =>
      by_cases hbc : b = c
      · rw [if_pos ⟨by rw [h.1]; exact h.2.1, hc, h.1.trans hbc⟩, ih h.2.2 ht, hbc]
        exact ⟨fun he => by rw [he], fun he => List.tail_eq_of_cons_eq he⟩
      · have hne : m a ≠ c := by rw [h.1]; exact hbc
        rw [if_neg (fun hh => hne hh.2.2), if_neg hne]
        exact ⟨fun h0 => absurd h0 (toInt_sub_ne hne),
          fun he => absurd (List.head_eq_of_cons_eq he) hbc⟩

theorem strrchrLoop_eq (h : HoldsStr m a s) (c : Byte) {n : ℕ} (hn : n ≤ s.length) :
    (c ∉ s.take n ∧ strrchrLoop m a c n = none) ∨
    ∃ k, strrchrLoop m a c n = some (a + k) ∧
      ∃ rest, s.take n = s.take k ++ c :: rest ∧ c ∉ rest ∧ k < n := by
  obtain ⟨-, hbytes, -⟩ := holdsStr_iff.1 h
  induction n with
  | zero => exact Or.inl ⟨by simp, rfl⟩
  | succ n ih =>
    have hm : m (a + n) = s[n] := by
      rw [hbytes n (by omega), List.getD_eq_getElem?_getD, List.getElem?_eq_getElem (by omega)]
      rfl
    have htake : s.take (n + 1) = s.take n ++ [s[n]] := (List.take_concat_get' s n (by omega)).symm
    unfold strrchrLoop
    by_cases hc : s[n] = c
    · rw [if_neg (fun hne => hne (hm.trans hc))]
      exact Or.inr ⟨n, rfl, [], by rw [htake, hc], by simp, by omega⟩
    · rw [if_pos (by rw [hm]; exact hc)]
      rcases ih (by omega) with ⟨hno, hloop⟩ | ⟨k, hloop, rest, hsplit, hrest, hk⟩
      · refine Or.inl ⟨?_, hloop⟩
        rw [htake, List.mem_append, List.mem_singleton, not_or]
        exact ⟨hno, Ne.symm hc⟩
      · refine Or.inr ⟨k, hloop, rest ++ [s[n]], ?_, ?_, by omega⟩
        · rw [htake, hsplit]
          simp
        · rw [List.mem_append, List.mem_singleton, not_or]
          exact ⟨hrest, Ne.symm hc⟩

theorem strrchr_eq (h : HoldsStr m a s) (c : Byte) {fuel : ℕ} (hfuel : s.length < fuel) :
    (c ∉ s ∧ strrchr fuel m a c = some none) ∨
    ∃ k, strrchr fuel m a c = some (some (a + k)) ∧
      ∃ rest, s = s.take k ++ c :: rest ∧ c ∉ rest ∧ k < s.length := by
  rw [strrchr, strlen_eq h hfuel, Option.map_some]
  rcases strrchrLoop_eq h c le_rfl with ⟨hno, hloop⟩ | ⟨k, hloop, rest, hsplit, hrest, hk⟩
  · rw [List.take_length] at hno
    exact Or.inl ⟨hno, by rw [hloop]⟩
  · rw [List.take_length] at hsplit
    exact Or.inr ⟨k, by rw [hloop], rest, hsplit, hrest, hk⟩

end DepthOS
