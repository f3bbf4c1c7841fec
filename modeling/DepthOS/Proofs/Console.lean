import Mathlib.Tactic
import DepthOS.Spec.Console

/-! The cursor of the console and the screen. Characters and clearing keep the cursor on
the screen, short of the last column, since what passes an edge wraps or scrolls. A cursor
move from user space is only checked on the left and at the top. -/

namespace DepthOS

open Lib

/-- The cursor is where the next character can be printed, and no cell outside the screen
has been written. -/
structure OnScreen (s : Console) : Prop where
  cols : 2 ≤ s.strsLen
  rows : 1 ≤ s.strsCount
  left : 0 ≤ s.cursorx
  right : s.cursorx ≤ s.strsLen - 2
  top : 0 ≤ s.cursory
  bottom : s.cursory < s.strsCount
  cells : ∀ i ∈ s.written, 0 ≤ i ∧ i < s.strsLen * s.strsCount

/-- A cursor move that is made stays on the screen. -/
def MovesOnScreen (s : Console) (e : ConsoleEvent) : Prop :=
  match e with
  | .ioctl request dx dy => request = CONSOLE_IOCTL_MOVECURSOR →
      int32 (s.cursorx + dx) ≤ s.strsLen - 2 ∧ int32 (s.cursory + dy) < s.strsCount
  | _ => True

variable {s s' : Console}

/-! Writing cells leaves the rest of the console alone. -/

/-- `s'` is `s` with more cells of the screen written. -/
structure Drawn (s s' : Console) : Prop where
  strsLen : s'.strsLen = s.strsLen
  strsCount : s'.strsCount = s.strsCount
  cursorx : s'.cursorx = s.cursorx
  cursory : s'.cursory = s.cursory
  written : ∀ i ∈ s'.written, i ∈ s.written ∨ 0 ≤ i ∧ i < s.strsLen * s.strsCount

theorem Drawn.refl (s : Console) : Drawn s s := ⟨rfl, rfl, rfl, rfl, fun _ h => Or.inl h⟩

theorem Drawn.trans {s'' : Console} (h : Drawn s s') (h' : Drawn s' s'') : Drawn s s'' := by
  refine ⟨h'.strsLen.trans h.strsLen, h'.strsCount.trans h.strsCount,
    h'.cursorx.trans h.cursorx, h'.cursory.trans h.cursory, fun i hi => ?_⟩
  rcases h'.written i hi with hi | hi
  · exact h.written i hi
  · rw [h.strsLen, h.strsCount] at hi
    exact Or.inr hi

theorem drawn_store {i : ℤ} (h0 : 0 ≤ i) (hi : i < s.strsLen * s.strsCount) (cell : ℕ) :
    Drawn s (s.store i cell) := by
  refine ⟨rfl, rfl, rfl, rfl, fun j hj => ?_⟩
  rcases List.mem_cons.1 hj with rfl | hj
  · exact Or.inr ⟨h0, hi⟩
  · exact Or.inl hj

theorem drawn_storeAll {i : ℤ} {n : ℕ} (h0 : 0 ≤ i) (hn : i + n ≤ s.strsLen * s.strsCount)
    (cell : Console → ℤ → ℕ) : Drawn s (s.storeAll i n cell) := by
  unfold Console.storeAll
  induction n with
  | zero => exact Drawn.refl s
  | succ n ih =>
    rw [List.range_succ, List.foldl_append]
    have hfirst := ih (by push_cast at hn; omega)
    refine hfirst.trans (drawn_store (by omega) ?_ _)
    rw [hfirst.strsLen, hfirst.strsCount]
    push_cast at hn
    omega

/-! The calls. -/

theorem OnScreen.clear (h : OnScreen s) : OnScreen (consoleClear s) := by
  have hlen : 0 ≤ s.strsLen * s.strsCount := mul_nonneg (by linarith [h.cols]) (by linarith [h.rows])
  unfold consoleClear
  dsimp only
  have hdrawn : Drawn s (s.storeAll 0 (s.strsLen * s.strsCount).toNat fun _ _ => s.blank) :=
    drawn_storeAll le_rfl (by rw [Int.toNat_of_nonneg hlen]; omega) _
  generalize (s.storeAll 0 (s.strsLen * s.strsCount).toNat fun _ _ => s.blank) = t at hdrawn ⊢
  have hcols := hdrawn.strsLen
  have hrows := hdrawn.strsCount
  refine ⟨?_, ?_, le_rfl, ?_, le_rfl, ?_, fun i hi => ?_⟩
  · exact hcols.symm ▸ h.cols
  · exact hrows.symm ▸ h.rows
  · change 0 ≤ t.strsLen - 2
    linarith [h.cols]
  · change 0 < t.strsCount
    linarith [h.rows]
  · change 0 ≤ i ∧ i < t.strsLen * t.strsCount
    rw [hcols, hrows]
    rcases hdrawn.written i hi with hi | hi
    · exact h.cells i hi
    · exact hi

theorem last_row_bounds (hcols : 0 ≤ s.strsLen) (hrows : 1 ≤ s.strsCount) :
    0 ≤ (s.strsCount - 1) * s.strsLen ∧
      (s.strsCount - 1) * s.strsLen ≤ s.strsLen * s.strsCount := by
  constructor
  · exact mul_nonneg (by linarith) hcols
  · nlinarith

theorem onScreen_flushs (hcols : 2 ≤ s.strsLen) (hrows : 1 ≤ s.strsCount) (hleft : 0 ≤ s.cursorx)
    (hright : s.cursorx ≤ s.strsLen - 2) (htop : 0 ≤ s.cursory)
    (hcells : ∀ i ∈ s.written, 0 ≤ i ∧ i < s.strsLen * s.strsCount) :
    OnScreen (consoleFlushs s) := by
  unfold consoleFlushs
  split
  · obtain ⟨h0, hlast⟩ := last_row_bounds (s := s) (by linarith) hrows
    set last := (s.strsCount - 1) * s.strsLen
    dsimp only
    set s₁ := s.storeAll 0 last.toNat fun s i => s.videoMemory (i + s.strsLen)
    have hup : Drawn s s₁ :=
      drawn_storeAll le_rfl (by rw [Int.toNat_of_nonneg h0]; omega) _
    have hfit : last + ((s₁.strsCount * s₁.strsLen - last).toNat : ℤ) ≤
        s₁.strsLen * s₁.strsCount := by
      rw [hup.strsLen, hup.strsCount, mul_comm s.strsCount s.strsLen,
        Int.toNat_of_nonneg (by linarith)]
      omega
    have hdrawn : Drawn s (s₁.storeAll last (s₁.strsCount * s₁.strsLen - last).toNat
        fun s _ => s.blank) := hup.trans (drawn_storeAll h0 hfit _)
    generalize (s₁.storeAll last (s₁.strsCount * s₁.strsLen - last).toNat fun s _ => s.blank) = t
      at hdrawn ⊢
    refine ⟨?_, ?_, ?_, ?_, ?_, ?_, fun i hi => ?_⟩
    · exact hdrawn.strsLen.symm ▸ hcols
    · exact hdrawn.strsCount.symm ▸ hrows
    · exact hdrawn.cursorx.symm ▸ hleft
    · change t.cursorx ≤ t.strsLen - 2
      rw [hdrawn.cursorx, hdrawn.strsLen]
      exact hright
    · change 0 ≤ t.strsCount - 1
      rw [hdrawn.strsCount]
      linarith
    · change t.strsCount - 1 < t.strsCount
      linarith
    · change 0 ≤ i ∧ i < t.strsLen * t.strsCount
      rw [hdrawn.strsLen, hdrawn.strsCount]
      rcases hdrawn.written i hi with hi | hi
      · exact hcells i hi
      · exact hi
  · rename_i hbottom
    exact ⟨hcols, hrows, hleft, hright, htop, lt_of_not_ge hbottom, hcells⟩

theorem OnScreen.flushs (h : OnScreen s) : OnScreen (consoleFlushs s) :=
  onScreen_flushs h.cols h.rows h.left h.right h.top h.cells

/-- After a character and before wrapping: the cursor may have passed an edge. -/
structure Fed (s : Console) : Prop where
  cols : 2 ≤ s.strsLen
  rows : 1 ≤ s.strsCount
  left : 0 ≤ s.cursorx
  top : 0 ≤ s.cursory
  cells : ∀ i ∈ s.written, 0 ≤ i ∧ i < s.strsLen * s.strsCount

theorem moveFor_printing {c : Byte} (hc : 32 ≤ c.toNat ∨ c = 0x1b) : moveFor s c = s := by
  have hne : ∀ d : Byte, d.toNat < 32 → d ≠ 0x1b → c ≠ d := by
    rintro d hd h1b rfl
    rcases hc with hc | hc
    · omega
    · exact h1b hc
  unfold moveFor
  rw [if_neg fun h => hne 0x08 (by decide) (by decide) h.1, if_neg (hne 0x09 (by decide) (by decide)),
    if_neg (hne 0x0d (by decide) (by decide)), if_neg (hne 0x0a (by decide) (by decide))]

theorem OnScreen.fed (h : OnScreen s) : Fed s := ⟨h.cols, h.rows, h.left, h.top, h.cells⟩

theorem moveFor_fed (h : OnScreen s) (c : Byte) : Fed (moveFor s c) := by
  have hleft := h.left
  have htop := h.top
  unfold moveFor
  split
  · exact ⟨h.cols, h.rows, by change 0 ≤ s.cursorx - 1; omega, h.top, h.cells⟩
  split
  · refine ⟨h.cols, h.rows, ?_, h.top, h.cells⟩
    change 0 ≤ s.cursorx + 8 - (s.cursorx + 8) % 8
    omega
  split
  · exact ⟨h.cols, h.rows, le_rfl, h.top, h.cells⟩
  split
  · exact ⟨h.cols, h.rows, le_rfl, by change 0 ≤ s.cursory + 1; omega, h.cells⟩
  · exact h.fed

theorem OnScreen.cell (h : OnScreen s) : 0 ≤ s.cursory * s.strsLen + s.cursorx ∧
    s.cursory * s.strsLen + s.cursorx < s.strsLen * s.strsCount := by
  have hcols := h.cols
  have hleft := h.left
  have hright := h.right
  have hrow : s.cursory * s.strsLen ≤ (s.strsCount - 1) * s.strsLen :=
    mul_le_mul_of_nonneg_right (by linarith [h.bottom]) (by linarith)
  constructor
  · exact add_nonneg (mul_nonneg h.top (by linarith)) hleft
  · nlinarith

theorem printAt_fed (h : OnScreen s) (c : Byte) (a : ℕ) : Fed (printAt (moveFor s c) c a) := by
  unfold printAt
  split
  · rename_i hc
    rw [moveFor_printing (Or.inl hc)]
    obtain ⟨h0, hlt⟩ := h.cell
    have hdrawn := drawn_store h0 hlt (c.toNat ||| a <<< 8)
    refine ⟨h.cols, h.rows, ?_, h.top, fun i hi => ?_⟩
    · change 0 ≤ s.cursorx + 1
      linarith [h.left]
    · rcases hdrawn.written i hi with hi | hi
      · exact h.cells i hi
      · exact hi
  · exact moveFor_fed h c

theorem putchara_newline (hcols : 2 ≤ s.strsLen) (fuel a : ℕ) :
    consolePutchara (fuel + 1) s 0x0a a =
      some (consoleFlushs { s with cursorx := 0, cursory := s.cursory + 1 }) := by
  have hmove : moveFor s 0x0a = { s with cursorx := 0, cursory := s.cursory + 1 } := by
    unfold moveFor
    rw [if_neg fun h => absurd h.1 (by decide), if_neg (by decide), if_neg (by decide), if_pos rfl]
  have hprint : ∀ s : Console, printAt s 0x0a a = s := fun s => if_neg (by decide)
  unfold consolePutchara
  dsimp only
  rw [if_neg (by decide), hmove, hprint, if_neg]
  dsimp only
  omega

theorem Fed.newline (h : Fed s) :
    OnScreen (consoleFlushs { s with cursorx := 0, cursory := s.cursory + 1 }) := by
  have hcols := h.cols
  have htop := h.top
  apply onScreen_flushs
  · exact h.cols
  · exact h.rows
  · exact le_rfl
  · change 0 ≤ s.strsLen - 2
    omega
  · change 0 ≤ s.cursory + 1
    omega
  · exact h.cells

theorem putchara_plain (h : OnScreen s) {c : Byte} (hc : c ≠ 0x1b) (fuel a : ℕ) :
    ∃ s', consolePutchara (fuel + 2) s c a = some s' ∧ OnScreen s' := by
  have hfed := printAt_fed h c a
  unfold consolePutchara
  dsimp only
  rw [if_neg hc]
  split
  · rw [putchara_newline hfed.cols]
    exact ⟨_, rfl, hfed.newline.flushs⟩
  · rename_i hin
    push Not at hin
    refine ⟨_, rfl, onScreen_flushs hfed.cols hfed.rows hfed.left ?_ hfed.top hfed.cells⟩
    have hlt := hin.1
    have hne := hin.2
    omega

theorem putchara_onScreen (h : OnScreen s) (c : Byte) (a : ℕ) :
    ∃ s', consolePutchara 3 s c a = some s' ∧ OnScreen s' := by
  by_cases hc : c = 0x1b
  · obtain ⟨s₁, hs₁, h₁⟩ := putchara_plain h (c := 0x5e) (by decide) 0 a
    obtain ⟨s₂, hs₂, h₂⟩ := putchara_plain h₁ (c := 0x5b) (by decide) 0 a
    refine ⟨s₂, ?_, h₂⟩
    rw [consolePutchara]
    dsimp only
    rw [if_pos hc, moveFor_printing (Or.inr hc), hs₁]
    exact hs₂
  · exact putchara_plain h hc 1 a

@[simp] theorem consoleMovec_strsLen (x y : ℤ) : (consoleMovec s x y).strsLen = s.strsLen := by
  unfold consoleMovec
  dsimp only
  split <;> split <;> rfl

@[simp] theorem consoleMovec_strsCount (x y : ℤ) :
    (consoleMovec s x y).strsCount = s.strsCount := by
  unfold consoleMovec
  dsimp only
  split <;> split <;> rfl

@[simp] theorem consoleMovec_written (x y : ℤ) : (consoleMovec s x y).written = s.written := by
  unfold consoleMovec
  dsimp only
  split <;> split <;> rfl

theorem consoleMovec_cursorx (x y : ℤ) : (consoleMovec s x y).cursorx =
    if int32 (s.cursorx + x) ≥ 0 then int32 (s.cursorx + x) else s.cursorx := by
  unfold consoleMovec
  dsimp only
  split <;> split <;> rfl

theorem consoleMovec_cursory (x y : ℤ) : (consoleMovec s x y).cursory =
    if int32 (s.cursory + y) ≥ 0 then int32 (s.cursory + y) else s.cursory := by
  unfold consoleMovec
  dsimp only
  split_ifs <;> rfl

theorem movec_onScreen_iff (h : OnScreen s) (x y : ℤ) : OnScreen (consoleMovec s x y) ↔
    int32 (s.cursorx + x) ≤ s.strsLen - 2 ∧ int32 (s.cursory + y) < s.strsCount := by
  have hleft := h.left
  have hright := h.right
  have htop := h.top
  have hbottom := h.bottom
  have hx := consoleMovec_cursorx (s := s) x y
  have hy := consoleMovec_cursory (s := s) x y
  constructor
  · intro h'
    have hright' := h'.right
    have hbottom' := h'.bottom
    rw [hx, consoleMovec_strsLen] at hright'
    rw [hy, consoleMovec_strsCount] at hbottom'
    constructor
    · split at hright' <;> omega
    · split at hbottom' <;> omega
  · rintro ⟨hxin, hyin⟩
    refine ⟨?_, ?_, ?_, ?_, ?_, ?_, ?_⟩
    · simpa using h.cols
    · simpa using h.rows
    · rw [hx]
      split <;> omega
    · rw [hx, consoleMovec_strsLen]
      split <;> omega
    · rw [hy]
      split <;> omega
    · rw [hy, consoleMovec_strsCount]
      split <;> omega
    · simpa using h.cells

theorem step_onScreen_iff {e : ConsoleEvent} (h : OnScreen s) (hstep : ConsoleStep s e s') :
    OnScreen s' ↔ MovesOnScreen s e := by
  cases e with
  | putchara c a =>
    obtain ⟨s₁, hs₁, h₁⟩ := putchara_onScreen h c a
    obtain rfl : s₁ = s' := Option.some.inj (hs₁.symm.trans hstep)
    exact iff_of_true h₁ trivial
  | clear =>
    obtain rfl := hstep
    exact iff_of_true h.clear trivial
  | ioctl request dx dy =>
    obtain rfl := hstep
    unfold consoledevIoctl
    by_cases hmove : request = CONSOLE_IOCTL_MOVECURSOR
    · rw [if_neg (by rw [hmove]; decide), if_pos hmove, movec_onScreen_iff h]
      exact ⟨fun hin _ => hin, fun hin => hin hmove⟩
    · rw [if_neg hmove]
      refine iff_of_true ?_ fun he => absurd he hmove
      split
      · exact h.clear
      · exact h

/-- As long as every cursor move stays on the screen, the cursor does and nothing is written
outside; a move that does not stay there takes it off. -/
theorem console_on_screen {evs : List ConsoleEvent}
    (h : Run (fun s => OnScreen s ∧ s.written = [])
      (fun s e s' => ConsoleStep s e s' ∧ MovesOnScreen s e) evs s) :
    OnScreen s ∧ (∀ c a, ∃ s', ConsoleStep s (.putchara c a) s') ∧
      ∀ e s', ConsoleStep s e s' → (OnScreen s' ↔ MovesOnScreen s e) := by
  have hinv : OnScreen s := by
    refine Run.invariant OnScreen (fun s hs => hs.1) (fun s e s' hs hstep => ?_) h
    exact (step_onScreen_iff hs hstep.1).2 hstep.2
  refine ⟨hinv, fun c a => ?_, fun e s' => step_onScreen_iff hinv⟩
  obtain ⟨s', hs', -⟩ := putchara_onScreen hinv c a
  exact ⟨s', hs'⟩

/-! The screen as the kernel starts with it. -/

def vgaConsole : Console where
  strsLen := 80
  strsCount := 25
  dbcolor := 0
  dfcolor := 15
  cursorx := 0
  cursory := 0
  videoMemory := fun _ => 0
  written := []

theorem vgaConsole_onScreen : OnScreen vgaConsole :=
  ⟨by decide, by decide, by decide, by decide, by decide, by decide,
    fun i hi => absurd hi List.not_mem_nil⟩

theorem console_on_screen_moved : OnScreen (consoleMovec vgaConsole 5 3) ∧
    (∀ c a, ∃ s', ConsoleStep (consoleMovec vgaConsole 5 3) (.putchara c a) s') ∧
      ∀ e s', ConsoleStep (consoleMovec vgaConsole 5 3) e s' →
        (OnScreen s' ↔ MovesOnScreen (consoleMovec vgaConsole 5 3) e) := by
  have hmove : ConsoleStep vgaConsole (.ioctl CONSOLE_IOCTL_MOVECURSOR 5 3)
      (consoleMovec vgaConsole 5 3) := rfl
  have hkeeps : MovesOnScreen vgaConsole (.ioctl CONSOLE_IOCTL_MOVECURSOR 5 3) :=
    fun _ => ⟨by decide, by decide⟩
  exact console_on_screen ((Run.nil ⟨vgaConsole_onScreen, rfl⟩).snoc ⟨hmove, hkeeps⟩)

/-- Two thousand rows down, and the next character goes far behind video memory. -/
theorem console_leaves_screen : ¬ ∀ evs s,
    Run (fun s => OnScreen s ∧ s.written = []) ConsoleStep evs s → OnScreen s := by
  intro h
  have hmove : ConsoleStep vgaConsole (.ioctl CONSOLE_IOCTL_MOVECURSOR 0 2000)
      (consoleMovec vgaConsole 0 2000) := rfl
  have hon := h _ _ ((Run.nil ⟨vgaConsole_onScreen, rfl⟩).snoc hmove)
  exact absurd hon.bottom (by decide)

end DepthOS
