import DepthOS.Lib.Lines
import DepthOS.Proofs.Console

/-! What the console shows of a text. Since it was cleared it has been written a text of
any length; on the screen stand the last lines of it, as many as there are rows. -/

namespace DepthOS

open Lib

/-- A character in the colours `attr`. -/
def textCell (attr : ℕ) (c : Byte) : ℕ := c.toNat ||| attr <<< 8

/-- A line at the beginning of a row of `w` columns, with blanks behind. -/
def lineCells (w attr : ℕ) (line : List Byte) : List ℕ :=
  (line.rightpad w 0x20).map (textCell attr)

/-- The cells of the screen, row by row. -/
def Console.screen (s : Console) : List (List ℕ) :=
  (List.range s.strsCount.toNat).map fun (r : ℕ) =>
    (List.range s.strsLen.toNat).map fun (x : ℕ) => s.videoMemory (r * s.strsLen + x)

/-- The lines of a text are `front` and `cur`, and the last of them are on a screen of `w`
columns and `h` rows. -/
structure ShowsText (w h attr : ℕ) (front : List (List Byte)) (cur : List Byte) (s : Console) :
    Prop where
  strsLen : s.strsLen = w
  strsCount : s.strsCount = h
  color : s.color = attr
  cursorx : s.cursorx = cur.length
  cursory : s.cursory = (min front.length (h - 1) : ℕ)
  cells : ∀ r < h, ∀ x < w, s.videoMemory (r * w + x) =
    textCell attr (((front ++ [cur]).getD (front.length + 1 - h + r) []).getD x 0x20)

variable {s s' : Console} {w h attr : ℕ} {front : List (List Byte)} {cur : List Byte}

/-! Cells. -/

/-- `s'` is `s` with the cells from `i` on painted. -/
structure Painted (s s' : Console) (i : ℤ) (n : ℕ) (f : ℤ → ℕ) : Prop where
  strsLen : s'.strsLen = s.strsLen
  strsCount : s'.strsCount = s.strsCount
  color : s'.color = s.color
  cursorx : s'.cursorx = s.cursorx
  cells : ∀ j, s'.videoMemory j = if i ≤ j ∧ j < i + n then f j else s.videoMemory j

theorem painted_storeAll {i : ℤ} {f : ℤ → ℕ} (cell : Console → ℤ → ℕ)
    (hcell : ∀ (k : ℕ) (t : Console), Painted s t i k f → cell t (i + k) = f (i + k)) (n : ℕ) :
    Painted s (s.storeAll i n cell) i n f := by
  unfold Console.storeAll
  induction n with
  | zero => exact ⟨rfl, rfl, rfl, rfl, fun j => (if_neg (by push_cast; omega)).symm⟩
  | succ n ih =>
    rw [List.range_succ, List.foldl_append]
    refine ⟨ih.strsLen, ih.strsCount, ih.color, ih.cursorx, fun j => ?_⟩
    change Function.update (Console.videoMemory _) (i + (n : ℤ)) (cell _ (i + (n : ℤ))) j = _
    rw [hcell n _ ih]
    by_cases hj : j = i + n
    · rw [hj, Function.update_self, if_pos (by push_cast; omega)]
    · rw [Function.update_of_ne hj, ih.cells]
      split_ifs <;> first | rfl | (exfalso; push_cast at *; omega)

theorem cell_inside {r x : ℕ} (hr : r < h) (hx : x < w) : r * w + x < h * w := by
  have hrow : (r + 1) * w ≤ h * w := Nat.mul_le_mul_right w hr
  rw [Nat.succ_mul] at hrow
  omega

theorem cell_eq_iff {r r' x x' : ℕ} (hx : x < w) (hx' : x' < w) :
    r * w + x = r' * w + x' ↔ r = r' ∧ x = x' := by
  constructor
  · intro heq
    have hrow := congrArg (· / w) heq
    have hcol := congrArg (· % w) heq
    simp only [Nat.mul_comm _ w] at hrow hcol
    rw [Nat.mul_add_div (by omega), Nat.mul_add_div (by omega), Nat.div_eq_of_lt hx,
      Nat.div_eq_of_lt hx'] at hrow
    rw [Nat.mul_add_mod, Nat.mul_add_mod, Nat.mod_eq_of_lt hx, Nat.mod_eq_of_lt hx'] at hcol
    exact ⟨hrow, hcol⟩
  · rintro ⟨rfl, rfl⟩
    rfl

/-! The calls. -/

theorem showsText_clear (hw : s.strsLen = w) (hh : s.strsCount = h) :
    ShowsText w h s.color [] [] (consoleClear s) := by
  have hcells : (s.strsLen * s.strsCount).toNat = h * w := by
    rw [hw, hh, ← Nat.cast_mul, Int.toNat_natCast, Nat.mul_comm]
  have hpainted := painted_storeAll (s := s) (i := 0) (f := fun _ => s.blank)
    (fun _ _ => s.blank) (fun _ _ _ => rfl) (s.strsLen * s.strsCount).toNat
  refine ⟨hpainted.strsLen.trans hw, hpainted.strsCount.trans hh, hpainted.color, rfl, ?_, ?_⟩
  · simp [consoleClear]
  · intro r hr x hx
    have hin := cell_inside hr hx
    refine (hpainted.cells _).trans ?_
    rw [if_pos (by rw [hcells]; push_cast at *; omega)]
    cases 0 + 1 - h + r <;> rfl

theorem flushs_scroll (hw : s.strsLen = w) (hh : s.strsCount = h) (h1 : 1 ≤ h)
    (hbelow : s.strsCount ≤ s.cursory) :
    (consoleFlushs s).strsLen = w ∧ (consoleFlushs s).strsCount = h ∧
    (consoleFlushs s).color = s.color ∧ (consoleFlushs s).cursorx = s.cursorx ∧
    (consoleFlushs s).cursory = (h - 1 : ℕ) ∧
    ∀ r < h, ∀ x < w, (consoleFlushs s).videoMemory (r * w + x) =
      if r + 1 < h then s.videoMemory ((r + 1 : ℕ) * w + x) else textCell s.color 0x20 := by
  have hlast : (s.strsCount - 1) * s.strsLen = ((h - 1) * w : ℕ) := by
    rw [hw, hh, Nat.cast_mul, Nat.cast_sub h1, Nat.cast_one]
  have hrow : (h - 1) * w + w = h * w := by
    rw [← Nat.succ_mul, Nat.succ_eq_add_one, Nat.sub_add_cancel h1]
  have hup := painted_storeAll (s := s) (i := 0) (f := fun j => s.videoMemory (j + s.strsLen))
    (fun t j => t.videoMemory (j + t.strsLen)) (fun k t ht => by
      rw [ht.strsLen, ht.cells, if_neg (by omega)]) ((h - 1) * w)
  set s₁ := s.storeAll 0 ((h - 1) * w) fun t j => t.videoMemory (j + t.strsLen) with hs₁
  have hblank := painted_storeAll (s := s₁) (i := ((h - 1) * w : ℕ)) (f := fun _ => s.blank)
    (fun t _ => t.blank) (fun k t ht => by
      rw [Console.blank, Console.blank, ht.color, hup.color]) w
  have hrest : (s₁.strsCount * s₁.strsLen - ((h - 1) * w : ℕ)).toNat = w := by
    rw [hup.strsCount, hup.strsLen, hw, hh, ← Nat.cast_mul, ← hrow]
    push_cast
    omega
  have heq : consoleFlushs s = { s₁.storeAll ((h - 1) * w : ℕ) w fun t _ => t.blank with
      cursory := (h - 1 : ℕ) } := by
    have hcount : s.strsCount - 1 = (h - 1 : ℕ) := by omega
    unfold consoleFlushs
    rw [if_pos hbelow]
    dsimp only
    rw [hlast, Int.toNat_natCast, ← hs₁, hrest, hblank.strsCount, hup.strsCount, hcount]
  rw [heq]
  refine ⟨hblank.strsLen.trans (hup.strsLen.trans hw),
    hblank.strsCount.trans (hup.strsCount.trans hh), hblank.color.trans hup.color,
    hblank.cursorx.trans hup.cursorx, rfl, fun r hr x hx => ?_⟩
  refine (hblank.cells _).trans ?_
  split_ifs with hin hnext hnext
  · exfalso
    have hout := cell_inside (Nat.lt_sub_of_add_lt hnext) hx
    omega
  · rfl
  · have hout := cell_inside (Nat.lt_sub_of_add_lt hnext) hx
    rw [hup.cells, if_pos (by omega), hw]
    congr 1
    push_cast
    ring
  · exfalso
    obtain rfl : r = h - 1 := by omega
    omega

theorem ShowsText.flushs (hs : ShowsText w h attr front cur s) (h1 : 1 ≤ h) :
    consoleFlushs s = s := by
  unfold consoleFlushs
  rw [if_neg]
  rw [hs.strsCount, hs.cursory]
  omega

theorem ShowsText.newline (hs : ShowsText w h attr front cur s) (h1 : 1 ≤ h) :
    ShowsText w h attr (front ++ [cur]) []
      (consoleFlushs { s with cursorx := 0, cursory := s.cursory + 1 }) := by
  have hy := hs.cursory
  have hlength : (front ++ [cur]).length = front.length + 1 := List.length_append
  set t : Console := { s with cursorx := 0, cursory := s.cursory + 1 } with ht
  have hty : t.cursory = s.cursory + 1 := rfl
  by_cases hbelow : t.strsCount ≤ t.cursory
  · obtain ⟨hlen, hcount, hcolor, hx, hy', hcells⟩ :=
      flushs_scroll (s := t) hs.strsLen hs.strsCount h1 hbelow
    rw [hty, show t.strsCount = h from hs.strsCount] at hbelow
    refine ⟨hlen, hcount, hcolor.trans hs.color, hx, ?_, fun r hr x hxw => ?_⟩
    · rw [hy', hlength]
      omega
    · rw [hcells r hr x hxw, getD_snoc_default]
      split_ifs with hnext
      · refine (hs.cells (r + 1) hnext x hxw).trans ?_
        congr 3
        omega
      · have hblank : (front ++ [cur]).getD ((front ++ [cur]).length + 1 - h + r) [] = [] :=
          List.getD_eq_default _ _ (by omega)
        rw [hblank]
        exact congrArg (textCell · 0x20) hs.color
  · have hflushs : consoleFlushs t = t := if_neg hbelow
    rw [hflushs]
    rw [hty, show t.strsCount = h from hs.strsCount] at hbelow
    refine ⟨hs.strsLen, hs.strsCount, hs.color, rfl, ?_, fun r hr x hxw => ?_⟩
    · rw [hty, hy, hlength]
      omega
    · rw [getD_snoc_default]
      refine (hs.cells r hr x hxw).trans ?_
      congr 3
      omega

theorem ShowsText.print (hs : ShowsText w h attr front cur s) (h1 : 1 ≤ h) {c : Byte}
    (hc : 32 ≤ c.toNat) (hcur : cur.length < w) :
    ShowsText w h attr front (cur ++ [c]) (printAt s c attr) := by
  unfold printAt
  rw [if_pos hc]
  refine ⟨hs.strsLen, hs.strsCount, hs.color, ?_, hs.cursory, fun r hr x hx => ?_⟩
  · change s.cursorx + 1 = _
    rw [hs.cursorx, List.length_append]
    rfl
  · have htop : front.length + 1 - h + min front.length (h - 1) = front.length := by omega
    change Function.update s.videoMemory (s.cursory * s.strsLen + s.cursorx) _ _ = _
    rw [hs.cursory, hs.strsLen, hs.cursorx]
    by_cases hat : r = min front.length (h - 1) ∧ x = cur.length
    · obtain ⟨rfl, rfl⟩ := hat
      rw [Function.update_self, htop, getD_snoc_self, getD_snoc_self]
      rfl
    · have hcell : (r * w + x : ℤ) ≠ (min front.length (h - 1) : ℕ) * w + cur.length :=
        fun heq => hat ((cell_eq_iff hx hcur).1 (by exact_mod_cast heq))
      rw [Function.update_of_ne hcell]
      refine (hs.cells r hr x hx).trans ?_
      by_cases hrow : r = min front.length (h - 1)
      · rw [hrow, htop, getD_snoc_self, getD_snoc_self, getD_snoc_ne fun hxc => hat ⟨hrow, hxc⟩]
      · rw [getD_snoc_ne (by omega), getD_snoc_ne (by omega)]

theorem ShowsText.putchar (hs : ShowsText w h attr front cur s) (h1 : 1 ≤ h) {c : Byte}
    (hc : 32 ≤ c.toNat) (hcur : cur.length < w - 1) : ∃ s', consolePutchar s c = some s' ∧
      if cur.length + 1 < w - 1 then ShowsText w h attr front (cur ++ [c]) s'
      else ShowsText w h attr (front ++ [cur ++ [c]]) [] s' := by
  have hprint := hs.print h1 hc (by omega)
  have hesc : c ≠ 0x1b := by
    rintro rfl
    exact absurd hc (by decide)
  have hx := hprint.cursorx
  have hlen := hprint.strsLen
  rw [List.length_append, List.length_singleton] at hx
  unfold consolePutchar consolePutchara
  dsimp only
  rw [if_neg hesc, moveFor_printing (Or.inl hc), hs.color]
  split_ifs with hwrap hroom hroom
  · omega
  · rw [putchara_newline (by omega)]
    refine ⟨_, rfl, ?_⟩
    rw [(hprint.newline h1).flushs h1]
    exact hprint.newline h1
  · refine ⟨_, rfl, ?_⟩
    rw [hprint.flushs h1]
    exact hprint
  · omega

theorem ShowsText.putchar_newline (hs : ShowsText w h attr front cur s) (h1 : 1 ≤ h) (hw : 2 ≤ w) :
    ∃ s', consolePutchar s 0x0a = some s' ∧ ShowsText w h attr (front ++ [cur]) [] s' := by
  refine ⟨_, putchara_newline ?_ 2 s.color, hs.newline h1⟩
  rw [hs.strsLen]
  omega

theorem showsText_run (hw : s.strsLen = w) (hh : s.strsCount = h) (h1 : 1 ≤ h) (h2 : 2 ≤ w)
    {text : List Byte} (htext : ∀ c ∈ text, c = 0x0a ∨ 32 ≤ c.toNat) :
    ∃ s' front cur, text.foldlM consolePutchar (consoleClear s) = some s' ∧
      wrapLines (w - 1) 0x0a text = front ++ [cur] ∧ ShowsText w h s.color front cur s' := by
  induction text using List.reverseRecOn with
  | nil => exact ⟨_, [], [], rfl, by simp [wrapLines, breakEvery], showsText_clear hw hh⟩
  | append_singleton text c ih =>
    obtain ⟨s', front, cur, hrun, hlines, hs⟩ :=
      ih fun c hc => htext c (List.mem_append_left _ hc)
    have hlast : (text ++ [c]).foldlM consolePutchar (consoleClear s) = consolePutchar s' c := by
      rw [List.foldlM_append, hrun]
      simp
    rw [hlast]
    by_cases hc : c = 0x0a
    · obtain ⟨t, ht, hshows⟩ := hs.putchar_newline h1 h2
      rw [hc, wrapLines_newline, hlines]
      exact ⟨t, _, _, ht, rfl, hshows⟩
    · obtain ⟨front', cur', hlines', hcur, hsnoc⟩ :=
        wrapLines_snoc (w := w - 1) (by omega) 0x0a text
      obtain ⟨rfl, hcurs⟩ := List.append_inj' (hlines.symm.trans hlines') rfl
      obtain rfl := List.singleton_inj.1 hcurs
      have hprinting := (htext c (by simp)).resolve_left hc
      obtain ⟨t, ht, hshows⟩ := hs.putchar h1 hprinting hcur
      rw [hsnoc c hc]
      split_ifs at hshows ⊢
      · exact ⟨t, _, _, ht, rfl, hshows⟩
      · exact ⟨t, _, _, ht, by simp, hshows⟩

theorem ShowsText.screen (hs : ShowsText w h attr front cur s)
    (hlines : ∀ line ∈ front ++ [cur], line.length ≤ w) :
    s.screen = (((front ++ [cur]).rtake h).rightpad h []).map (lineCells w attr) := by
  have hrows : ((front ++ [cur]).rtake h).length ≤ h := by
    rw [rtake_length]
    exact Nat.min_le_left _ _
  have hlength : (front ++ [cur]).length = front.length + 1 := List.length_append
  rw [rightpad_eq_map hrows, List.map_map]
  unfold Console.screen
  rw [hs.strsLen, hs.strsCount, Int.toNat_natCast, Int.toNat_natCast]
  apply List.map_congr_left
  intro r hr
  rw [Function.comp_apply, getD_rtake, hlength]
  have hline : ((front ++ [cur]).getD (front.length + 1 - h + r) []).length ≤ w := by
    rw [List.getD_eq_getElem?_getD]
    cases hk : (front ++ [cur])[front.length + 1 - h + r]? with
    | none => exact Nat.zero_le _
    | some line => exact hlines line (List.mem_of_getElem? hk)
  rw [lineCells, rightpad_eq_map hline, List.map_map]
  apply List.map_congr_left
  intro x hx
  exact hs.cells r (List.mem_range.1 hr) x (List.mem_range.1 hx)

/-- The last lines from the top, blank rows below them, and the cursor behind the last. -/
theorem console_shows_tail (hcols : 2 ≤ s.strsLen) (hrows : 1 ≤ s.strsCount) (text : List Byte)
    (htext : ∀ c ∈ text, c = 0x0a ∨ 32 ≤ c.toNat) :
    let lines := wrapLines (s.strsLen - 1).toNat 0x0a text
    ∃ s', text.foldlM consolePutchar (consoleClear s) = some s' ∧
      s'.screen = ((lines.rtake s.strsCount.toNat).rightpad s.strsCount.toNat []).map
        (lineCells s.strsLen.toNat s.color) ∧
      s'.cursory = min (lines.length : ℤ) s.strsCount - 1 ∧
      lines.getLast?.map (fun line => (line.length : ℤ)) = some s'.cursorx := by
  intro lines
  have hw : s.strsLen = (s.strsLen.toNat : ℤ) := by omega
  have hh : s.strsCount = (s.strsCount.toNat : ℤ) := by omega
  have hwrap : (s.strsLen - 1).toNat = s.strsLen.toNat - 1 := by omega
  obtain ⟨s', front, cur, hrun, hlines, hs⟩ :=
    showsText_run hw hh (by omega) (by omega) htext
  rw [← hwrap] at hlines
  change lines = _ at hlines
  have hlength : lines.length = front.length + 1 := by
    rw [hlines]
    exact List.length_append
  have hfits : ∀ line ∈ lines, line.length ≤ s.strsLen.toNat := by
    intro line hline
    have := wrapLines_length_le hline
    omega
  refine ⟨s', hrun, ?_, ?_, ?_⟩
  · rw [hlines] at hfits ⊢
    exact hs.screen hfits
  · rw [hs.cursory, hlength]
    omega
  · rw [hlines, List.getLast?_concat, hs.cursorx]
    rfl

/-- Three columns and two rows. -/
def smallConsole : Console := { vgaConsole with strsLen := 3, strsCount := 2 }

/-- `abc`, a newline and `d` -/
def scrolledText : List Byte := [0x61, 0x62, 0x63, 0x0a, 0x64]

/-- The first two characters have left the screen. -/
theorem console_shows_tail_scrolled :
    ∃ s', scrolledText.foldlM consolePutchar (consoleClear smallConsole) = some s' ∧
      s'.screen = [[0x63], [0x64]].map (lineCells 3 15) ∧ s'.cursory = 1 ∧ s'.cursorx = 1 := by
  have hlines : wrapLines (smallConsole.strsLen - 1).toNat 0x0a scrolledText =
      [[0x61, 0x62], [0x63], [0x64]] := by decide
  obtain ⟨s', hrun, hscreen, hy, hx⟩ := console_shows_tail (s := smallConsole) (by decide)
    (by decide) scrolledText (by decide)
  rw [hlines] at hscreen hy hx
  exact ⟨s', hrun, hscreen, hy, (Option.some.inj hx).symm⟩

end DepthOS
