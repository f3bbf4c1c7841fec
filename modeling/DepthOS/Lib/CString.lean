import Mathlib.Data.List.GetD
import DepthOS.Lib.Mem

/-! NUL-terminated strings: as values they carry that no byte of theirs is NUL, in
memory they are their bytes followed by one. Memory determines the string. -/

namespace Lib

structure CString where
  bytes : List Byte
  text : (0 : Byte) ∉ bytes
deriving DecidableEq

@[ext] theorem CString.ext {s t : CString} (h : s.bytes = t.bytes) : s = t := by
  cases s; cases t; cases h; rfl

def CString.length (s : CString) : ℕ := s.bytes.length

/-- The first `n` bytes. -/
def CString.take (s : CString) (n : ℕ) : CString :=
  ⟨s.bytes.take n, fun h => s.text (List.mem_of_mem_take h)⟩

def CString.drop (s : CString) (n : ℕ) : CString :=
  ⟨s.bytes.drop n, fun h => s.text (List.mem_of_mem_drop h)⟩

/-- A memory that holds the bytes and nothing else. -/
def ofBytes (s : List Byte) : Mem := fun k => s.getD k 0

/-- The bytes from `a` on are those of `s` and a NUL. -/
def HoldsStr (m : Mem) : ℕ → List Byte → Prop
  | a, [] => m a = 0
  | a, b :: bs => m a = b ∧ b ≠ 0 ∧ HoldsStr m (a + 1) bs

variable {m m' : Mem} {a : ℕ} {s t : List Byte}

theorem HoldsStr.text (h : HoldsStr m a s) : (0 : Byte) ∉ s := by
  induction s generalizing a with
  | nil => exact List.not_mem_nil
  | cons b bs ih =>
    rw [List.mem_cons, not_or]
    exact ⟨Ne.symm h.2.1, ih h.2.2⟩

theorem HoldsStr.unique (h : HoldsStr m a s) (h' : HoldsStr m a t) : s = t := by
  induction s generalizing a t with
  | nil =>
    cases t with
    | nil => rfl
    | cons c t => exact absurd (h'.1.symm.trans h) h'.2.1
  | cons b s ih =>
    cases t with
    | nil => exact absurd (h.1.symm.trans h') h.2.1
    | cons c t => rw [ih h.2.2 h'.2.2, ← h.1, ← h'.1]

theorem holdsStr_iff : HoldsStr m a s ↔
    (0 : Byte) ∉ s ∧ (∀ k < s.length, m (a + k) = s.getD k 0) ∧ m (a + s.length) = 0 := by
  induction s generalizing a with
  | nil => simp [HoldsStr]
  | cons b bs ih =>
    have hshift : ∀ k, a + 1 + k = a + (k + 1) := fun k => by omega
    simp only [HoldsStr, ih, List.mem_cons, not_or, List.length_cons, hshift]
    constructor
    · rintro ⟨h0, hb, hbs, hk, hend⟩
      refine ⟨⟨Ne.symm hb, hbs⟩, fun k hlt => ?_, hend⟩
      cases k with
      | zero => exact h0
      | succ k => exact hk k (by omega)
    · rintro ⟨⟨hb, hbs⟩, hk, hend⟩
      exact ⟨hk 0 (by omega), Ne.symm hb, hbs, fun k hlt => hk (k + 1) (by omega), hend⟩

/-- Bytes and a NUL behind them hold a string that ends at the first NUL. -/
theorem holdsStr_takeWhile (hk : ∀ k < s.length, m (a + k) = s.getD k 0)
    (hend : m (a + s.length) = 0) : HoldsStr m a (s.takeWhile (· ≠ 0)) := by
  induction s generalizing a with
  | nil => exact hend
  | cons b bs ih =>
    have hb : m a = b := hk 0 (Nat.zero_lt_succ _)
    by_cases h0 : b = 0
    · rw [List.takeWhile_cons_of_neg (by simpa using h0)]
      exact hb.trans h0
    · have hshift : ∀ k, a + 1 + k = a + (k + 1) := fun k => by omega
      rw [List.takeWhile_cons_of_pos (by simpa using h0)]
      refine ⟨hb, h0, ih (fun k hlt => ?_) ?_⟩
      · rw [hshift]
        exact hk (k + 1) (Nat.succ_lt_succ hlt)
      · rw [hshift]
        exact hend

theorem holdsStr_ofBytes (h : (0 : Byte) ∉ s) : HoldsStr (ofBytes s) 0 s := by
  refine holdsStr_iff.2 ⟨h, fun k _ => ?_, ?_⟩
  · rw [Nat.zero_add]
    rfl
  · simp [ofBytes]

/-- A NUL over one of its bytes ends the string there. -/
theorem HoldsStr.truncate (h : HoldsStr m a s) {n : ℕ} (hn : n ≤ s.length) :
    HoldsStr (Function.update m (a + n) 0) a (s.take n) := by
  obtain ⟨htext, hk, -⟩ := holdsStr_iff.1 h
  have hlen : (s.take n).length = n := by simp [hn]
  refine holdsStr_iff.2 ⟨fun h0 => htext (List.mem_of_mem_take h0), fun k hlt => ?_, ?_⟩
  · rw [hlen] at hlt
    rw [Function.update_of_ne (by omega), hk k (by omega), List.getD_eq_getElem?_getD,
      List.getD_eq_getElem?_getD, List.getElem?_take_of_lt hlt]
  · rw [hlen, Function.update_self]

/-- Where there is a NUL from `a` on, there is a string at `a`. -/
theorem exists_holdsStr {n : ℕ} (h : m (a + n) = 0) : ∃ s, HoldsStr m a s := by
  induction n generalizing a with
  | zero => exact ⟨[], h⟩
  | succ n ih =>
    by_cases h0 : m a = 0
    · exact ⟨[], h0⟩
    · obtain ⟨s, hs⟩ := ih (a := a + 1) (by rw [← h]; congr 1; omega)
      exact ⟨m a :: s, rfl, h0, hs⟩

/-! Memory that starts with given bytes. -/

def Shows (v : Mem) (l : List Byte) : Prop := ∀ k < l.length, v k = l.getD k 0

theorem shows_append {v : Mem} {l l' : List Byte} :
    Shows v (l ++ l') ↔ Shows v l ∧ Shows (fun k => v (l.length + k)) l' := by
  constructor
  · intro h
    constructor
    · intro k hk
      rw [h k (by rw [List.length_append]; omega), List.getD_append _ _ _ _ hk]
    · intro k hk
      change v (l.length + k) = _
      rw [h (l.length + k) (by rw [List.length_append]; omega),
        List.getD_append_right _ _ _ _ (Nat.le_add_right _ _), Nat.add_sub_cancel_left]
  · rintro ⟨h, h'⟩ k hk
    rw [List.length_append] at hk
    rcases Nat.lt_or_ge k l.length with hlt | hge
    · rw [h k hlt, List.getD_append _ _ _ _ hlt]
    · have hback := h' (k - l.length) (by omega)
      change v (l.length + (k - l.length)) = _ at hback
      rw [List.getD_append_right _ _ _ _ hge, ← hback, Nat.add_sub_cancel' hge]

/-- Entry `i` of a table of entries of one size. -/
theorem Shows.entry {α : Type} {v : Mem} {l : List α} {f : α → List Byte} {n : ℕ}
    (h : Shows v (l.flatMap f)) (hn : ∀ x ∈ l, (f x).length = n) {i : ℕ} {x : α}
    (hi : l[i]? = some x) : Shows (fun k => v (n * i + k)) (f x) := by
  induction l generalizing v i with
  | nil => exact absurd hi (by simp)
  | cons y l ih =>
    rw [List.flatMap_cons, shows_append, hn y (by simp)] at h
    cases i with
    | zero =>
      obtain rfl : y = x := Option.some.inj hi
      intro k hk
      change v (n * 0 + k) = _
      rw [Nat.mul_zero, Nat.zero_add]
      exact h.1 k hk
    | succ i =>
      intro k hk
      have hrest := ih h.2 (fun z hz => hn z (by simp [hz])) hi k hk
      change v (n + (n * i + k)) = _ at hrest
      change v (n * (i + 1) + k) = _
      rw [← hrest, Nat.mul_succ]
      congr 1
      omega

/-! Arrays of strings: pointers, closed by NULL. -/

theorem HoldsStr.congr {m m' : Mem} {a : ℕ} {s : List Byte} (h : HoldsStr m a s)
    (hm : ∀ k ≤ s.length, m' (a + k) = m (a + k)) : HoldsStr m' a s := by
  obtain ⟨htext, hk, hend⟩ := holdsStr_iff.1 h
  refine holdsStr_iff.2 ⟨htext, fun k hlt => ?_, ?_⟩
  · rw [hm k hlt.le, hk k hlt]
  · rw [hm _ le_rfl, hend]

/-- Pointers to the strings, all of whose bytes lie at addresses in `Q`. -/
def Pointees (Q : ℕ → Prop) (m : Mem) (ps : List ℕ) (l : List (List Byte)) : Prop :=
  List.Forall₂ (fun p s => p ≠ 0 ∧ HoldsStr m p s ∧ ∀ k ≤ s.length, Q (p + k)) ps l

def StrList (Q : ℕ → Prop) (m : Mem) (a : ℕ) (l : List (List Byte)) : Prop :=
  ∃ ps, Pointees Q m ps l ∧ WordsAt m a (ps ++ [0])

section StrList

variable {Q Q' : ℕ → Prop} {m m' : Mem} {ps : List ℕ} {l l' : List (List Byte)} {a : ℕ}

theorem Pointees.mono (h : Pointees Q m ps l) (hQ : ∀ x, Q x → Q' x) : Pointees Q' m ps l :=
  List.Forall₂.imp (fun _ _ hp => ⟨hp.1, hp.2.1, fun k hk => hQ _ (hp.2.2 k hk)⟩) h

theorem Pointees.congr (h : Pointees Q m ps l) (hm : ∀ x, Q x → m' x = m x) :
    Pointees Q m' ps l :=
  List.Forall₂.imp (fun _ _ hp => ⟨hp.1, hp.2.1.congr fun k hk => hm _ (hp.2.2 k hk), hp.2.2⟩) h

theorem Pointees.reverse (h : Pointees Q m ps l) : Pointees Q m ps.reverse l.reverse :=
  List.rel_reverse h

theorem Pointees.length (h : Pointees Q m ps l) : ps.length = l.length := List.Forall₂.length_eq h

theorem Pointees.ne_zero (h : Pointees Q m ps l) : ∀ p ∈ ps, p ≠ 0 := by
  induction h with
  | nil => simp
  | cons hp _ ih =>
    intro q hq
    rcases List.mem_cons.1 hq with rfl | hq
    · exact hp.1
    · exact ih q hq

theorem Pointees.lt {n : ℕ} (h : Pointees Q m ps l) (hQ : ∀ x, Q x → x < n) : ∀ p ∈ ps, p < n := by
  induction h with
  | nil => simp
  | cons hp _ ih =>
    intro q hq
    rcases List.mem_cons.1 hq with rfl | hq
    · exact hQ q (hp.2.2 0 (Nat.zero_le _))
    · exact ih q hq

/-- Memory determines the strings. -/
theorem StrList.unique (h : StrList Q m a l) (h' : StrList Q' m a l') : l = l' := by
  obtain ⟨ps, hp, hw⟩ := h
  obtain ⟨ps', hp', hw'⟩ := h'
  induction hp generalizing a ps' l' with
  | nil =>
    cases hp' with
    | nil => rfl
    | cons hq _ => exact absurd (hw'.1.symm.trans hw.1) hq.1
  | cons hp _ ih =>
    cases hp' with
    | nil => exact absurd (hw.1.symm.trans hw'.1) hp.1
    | cons hq hqs =>
      have hsame := hw.1.symm.trans hw'.1
      rw [ih hw.2 _ hqs hw'.2, hp.2.1.unique (hsame ▸ hq.2.1)]

end StrList

end Lib
