import Mathlib.Tactic

/-! Byte-addressed memory with little-endian 32-bit words: what a store changes
and what it leaves alone. Addresses are naturals; a caller reduces them to its
own address width before it dereferences. -/

namespace Lib

abbrev Byte := BitVec 8

abbrev Mem := ℕ → Byte

/-- The two address ranges share no byte. -/
def Apart (a n b m : ℕ) : Prop := a + n ≤ b ∨ b + m ≤ a

theorem Apart.symm {a n b m : ℕ} (h : Apart a n b m) : Apart b m a n := Or.symm h

def load32 (m : Mem) (a : ℕ) : ℕ :=
  (m a).toNat + 256 * (m (a + 1)).toNat + 65536 * (m (a + 2)).toNat + 16777216 * (m (a + 3)).toNat

def store32 (m : Mem) (a v : ℕ) : Mem := fun x =>
  if x = a then BitVec.ofNat 8 v
  else if x = a + 1 then BitVec.ofNat 8 (v / 256)
  else if x = a + 2 then BitVec.ofNat 8 (v / 65536)
  else if x = a + 3 then BitVec.ofNat 8 (v / 16777216)
  else m x

/-- `n` bytes from `dst` on take the values of `src`; all other bytes stay. -/
def blit (m : Mem) (dst : ℕ) (src : ℕ → Byte) (n : ℕ) : Mem := fun x =>
  if dst ≤ x ∧ x < dst + n then src (x - dst) else m x

theorem load32_lt (m : Mem) (a : ℕ) : load32 m a < 4294967296 := by
  have h0 := (m a).isLt
  have h1 := (m (a + 1)).isLt
  have h2 := (m (a + 2)).isLt
  have h3 := (m (a + 3)).isLt
  unfold load32
  omega

theorem load32_congr {m m' : Mem} {a : ℕ} (h : ∀ x, a ≤ x → x < a + 4 → m' x = m x) :
    load32 m' a = load32 m a := by
  unfold load32
  rw [h a (by omega) (by omega), h (a + 1) (by omega) (by omega),
    h (a + 2) (by omega) (by omega), h (a + 3) (by omega) (by omega)]

@[simp] theorem load32_store32 (m : Mem) (a v : ℕ) :
    load32 (store32 m a v) a = v % 4294967296 := by
  simp only [load32, store32, if_true, BitVec.toNat_ofNat, Nat.add_eq_left, OfNat.ofNat_ne_zero,
    if_false, Nat.add_left_cancel_iff, Nat.reduceEqDiff, one_ne_zero]
  omega

theorem store32_other {m : Mem} {a v x : ℕ} (h : x < a ∨ a + 4 ≤ x) : store32 m a v x = m x := by
  unfold store32
  rw [if_neg (by omega), if_neg (by omega), if_neg (by omega), if_neg (by omega)]

theorem load32_store32_of_apart {m : Mem} {a b v : ℕ} (h : Apart a 4 b 4) :
    load32 (store32 m a v) b = load32 m b := by
  apply load32_congr
  intro x h1 h2
  apply store32_other
  unfold Apart at h
  omega

theorem blit_other {m : Mem} {dst n x : ℕ} {src : ℕ → Byte} (h : x < dst ∨ dst + n ≤ x) :
    blit m dst src n x = m x := by
  unfold blit
  rw [if_neg (by omega)]

theorem blit_inside {m : Mem} {dst n k : ℕ} {src : ℕ → Byte} (h : k < n) :
    blit m dst src n (dst + k) = src k := by
  unfold blit
  rw [if_pos (by omega), Nat.add_sub_cancel_left]

theorem blit_front {m : Mem} {n k : ℕ} {src : ℕ → Byte} (h : k < n) :
    blit m 0 src n k = src k := by
  unfold blit
  rw [if_pos (by omega), Nat.sub_zero]

theorem blit_congr {m : Mem} {d n : ℕ} {f g : ℕ → Byte} (h : ∀ k < n, f k = g k) :
    blit m d f n = blit m d g n := by
  funext x
  unfold blit
  split_ifs with hx
  · exact h _ (by omega)
  · rfl

@[simp] theorem blit_zero (m : Mem) (dst : ℕ) (src : ℕ → Byte) : blit m dst src 0 = m := by
  funext x
  exact blit_other (by omega)

/-- Two copies of consecutive parts of one source are one copy. -/
theorem blit_append (m : Mem) (dst : ℕ) (src : ℕ → Byte) (n k : ℕ) :
    blit (blit m dst src n) (dst + n) (fun x => src (n + x)) k = blit m dst src (n + k) := by
  funext x
  unfold blit
  by_cases h1 : dst + n ≤ x ∧ x < dst + n + k
  · rw [if_pos h1, if_pos (by omega)]
    exact congrArg src (by omega)
  · rw [if_neg h1]
    by_cases h2 : dst ≤ x ∧ x < dst + n
    · rw [if_pos h2, if_pos (by omega)]
    · rw [if_neg h2, if_neg (by omega)]

/-- A copy of the values of `f` from `a` on, made in two stretches. -/
theorem blit_stretch (m : Mem) (dst : ℕ) (f : ℕ → Byte) {a b n : ℕ} (hb : a + n = b) (k : ℕ) :
    blit (blit m dst (fun x => f (a + x)) n) (dst + n) (fun x => f (b + x)) k =
      blit m dst (fun x => f (a + x)) (n + k) := by
  subst hb
  simp only [Nat.add_assoc a]
  exact blit_append m dst (fun x => f (a + x)) n k

theorem load32_blit_inside {m : Mem} {dst n k : ℕ} {src : ℕ → Byte} (h : k + 4 ≤ n) :
    load32 (blit m dst src n) (dst + k) = load32 src k := by
  simp only [load32, Nat.add_assoc]
  rw [blit_inside (by omega), blit_inside (by omega), blit_inside (by omega),
    blit_inside (by omega)]

theorem load32_blit_front {m : Mem} {n k : ℕ} {src : ℕ → Byte} (h : k + 4 ≤ n) :
    load32 (blit m 0 src n) k = load32 src k := by
  simp only [load32]
  rw [blit_front (by omega), blit_front (by omega), blit_front (by omega), blit_front (by omega)]

theorem load32_blit_of_apart {m : Mem} {dst n b : ℕ} {src : ℕ → Byte} (h : Apart dst n b 4) :
    load32 (blit m dst src n) b = load32 m b := by
  apply load32_congr
  intro x h1 h2
  apply blit_other
  unfold Apart at h
  omega

/-- The `n` bytes from `a` on are the same in both memories. -/
def SameOn (m m' : Mem) (a n : ℕ) : Prop := ∀ k < n, m' (a + k) = m (a + k)

section SameOn

variable {m m' m'' : Mem} {a n : ℕ}

theorem SameOn.refl (m : Mem) (a n : ℕ) : SameOn m m a n := fun _ _ => rfl

theorem SameOn.trans (h : SameOn m m' a n) (h' : SameOn m' m'' a n) : SameOn m m'' a n :=
  fun k hk => (h' k hk).trans (h k hk)

theorem SameOn.load32 (h : SameOn m m' a n) {k : ℕ} (hk : k + 4 ≤ n) :
    load32 m' (a + k) = load32 m (a + k) := by
  apply load32_congr
  intro x h1 h2
  have := h (x - a) (by omega)
  rwa [Nat.add_sub_cancel' (by omega)] at this

theorem sameOn_blit {b l : ℕ} {src : ℕ → Byte} (h : Apart b l a n) :
    SameOn m (blit m b src l) a n := by
  intro k hk
  apply blit_other
  unfold Apart at h
  omega

theorem sameOn_store32 {b v : ℕ} (h : Apart b 4 a n) : SameOn m (store32 m b v) a n := by
  intro k hk
  apply store32_other
  unfold Apart at h
  omega

end SameOn

/-! Structures of 32-bit words, laid out upwards from their address. -/

def storeWords (m : Mem) (a : ℕ) : List (BitVec 32) → Mem
  | [] => m
  | w :: ws => storeWords (store32 m a w.toNat) (a + 4) ws

def loadWord (m : Mem) (a i : ℕ) : BitVec 32 := BitVec.ofNat 32 (load32 m (a + 4 * i))

theorem storeWords_other {m : Mem} {a x : ℕ} {ws : List (BitVec 32)}
    (h : x < a ∨ a + 4 * ws.length ≤ x) : storeWords m a ws x = m x := by
  induction ws generalizing m a with
  | nil => rfl
  | cons w ws ih =>
    rw [List.length_cons] at h
    rw [storeWords, ih (by omega), store32_other (by omega)]

theorem sameOn_storeWords {m : Mem} {a b n : ℕ} {ws : List (BitVec 32)}
    (h : Apart b (4 * ws.length) a n) : SameOn m (storeWords m b ws) a n := by
  intro k hk
  apply storeWords_other
  unfold Apart at h
  omega

theorem SameOn.loadWord {m m' : Mem} {a n : ℕ} (h : SameOn m m' a n) {i : ℕ}
    (hi : 4 * i + 4 ≤ n) : Lib.loadWord m' a i = Lib.loadWord m a i :=
  congrArg _ (h.load32 hi)

/-- A word read back from a stored structure. -/
theorem loadWord_storeWords (m : Mem) (a : ℕ) (ws : List (BitVec 32)) (i : ℕ)
    (hi : i < ws.length) : loadWord (storeWords m a ws) a i = ws.get ⟨i, hi⟩ := by
  induction ws generalizing m a i with
  | nil => cases hi
  | cons w ws ih =>
    cases i with
    | zero =>
      have hkeep : load32 (storeWords (store32 m a w.toNat) (a + 4) ws) a =
          load32 (store32 m a w.toNat) a :=
        load32_congr fun x h1 h2 => storeWords_other (Or.inl (by omega))
      rw [loadWord, storeWords, Nat.mul_zero, Nat.add_zero a, hkeep, load32_store32]
      apply BitVec.eq_of_toNat_eq
      have := w.isLt
      rw [BitVec.toNat_ofNat]
      exact (Nat.mod_mod _ _).trans (Nat.mod_eq_of_lt this)
    | succ i =>
      have hshift : a + 4 * (i + 1) = a + 4 + 4 * i := by omega
      rw [loadWord, storeWords, hshift]
      exact ih _ _ i (Nat.lt_of_succ_lt_succ hi)

/-! A list of words in memory, as numbers. -/

def WordsAt (m : Mem) : ℕ → List ℕ → Prop
  | _, [] => True
  | a, w :: ws => load32 m a = w ∧ WordsAt m (a + 4) ws

theorem WordsAt.congr {m m' : Mem} {a : ℕ} {ws : List ℕ} (h : WordsAt m a ws)
    (hm : SameOn m m' a (4 * ws.length)) : WordsAt m' a ws := by
  induction ws generalizing a with
  | nil => trivial
  | cons w ws ih =>
    rw [List.length_cons] at hm
    refine ⟨?_, ih h.2 fun k hk => ?_⟩
    · rw [← h.1]
      have hw := hm.load32 (k := 0) (by omega)
      rwa [Nat.add_zero] at hw
    · rw [Nat.add_assoc]
      exact hm (4 + k) (by omega)

theorem wordsAt_append {m : Mem} {a : ℕ} {l l' : List ℕ} :
    WordsAt m a (l ++ l') ↔ WordsAt m a l ∧ WordsAt m (a + 4 * l.length) l' := by
  induction l generalizing a with
  | nil => simp [WordsAt]
  | cons w l ih =>
    have hshift : a + 4 + 4 * l.length = a + 4 * (w :: l).length := by
      rw [List.length_cons]
      omega
    simp only [List.cons_append, WordsAt, ih, hshift, and_assoc]

end Lib
