import DepthOS.Spec.Multiboot

/-! The reservation of the framebuffer. The loop begins at its address and is over when the
address is its length: the base is missing from the end. So it ends only if the two agree in
their offset within a page, and then it takes the frames from the address up to the length,
around the end of the address space if the length is smaller. -/

namespace DepthOS

open Lib

/-- The frame holds a byte of the `len` bytes from `addr` on. -/
def Intersects (addr len f : ℕ) : Prop := ∃ x, addr ≤ x ∧ x < addr + len ∧ x / 4096 = f

/-- Whatever the bitmap, the loop ends, and exactly the frames of the framebuffer are used
in addition. -/
def ReservesExactly (addr pitch height : ℕ) : Prop :=
  ∀ bm : Bitmap, ∃ fuel bm', multibootReserveFb fuel bm addr pitch height = some bm' ∧
    bm'.size = bm.size ∧ bm'.bits.length = bm.bits.length ∧
    ∀ f, bm'.bit f = true ↔ bm.bit f = true ∨
      (f < bm.size ∧ Intersects addr (pitch * height) f)

/-- A framebuffer at address 0 of whole pages, or one of less than a page that ends just below
the end of the address space, so that its address and its length differ by the pages that
are left, one or two. -/
def EndsAtLength (addr len : ℕ) : Prop :=
  addr = 0 ∧ len % 4096 = 0 ∧ len < 4294967296 ∨ addr = 4294967296 ∧ len = 0 ∨
    0 < len ∧ len ≤ 2048 ∧ addr = 4294967296 - 4096 + len ∨
    2048 < len ∧ len < 4096 ∧ addr = 4294967296 - 8192 + len

variable {bm : Bitmap} {addr len pitch height : ℕ}

theorem intersects_iff {f : ℕ} (hlen : 0 < len) : Intersects addr len f ↔
    addr / 4096 ≤ f ∧ f ≤ (addr + len - 1) / 4096 := by
  constructor
  · rintro ⟨x, hlo, hhi, rfl⟩
    omega
  · rintro ⟨hlo, hhi⟩
    exact ⟨max addr (f * 4096), by omega, by omega, by omega⟩

theorem pmmSet_one (bm : Bitmap) {fa : ℕ} (hfa : fa < 4294967296) :
    (pmmSet bm fa 1 false).size = bm.size ∧
    (pmmSet bm fa 1 false).bits.length = bm.bits.length ∧
    ∀ f, (pmmSet bm fa 1 false).bit f =
      if f = fa / 4096 ∧ f < bm.size then true else bm.bit f := by
  obtain ⟨hsize, hbit⟩ := setmulti_spec bm true (fa / 4096) 1 (by omega) (Or.inr (by omega))
  refine ⟨hsize, setmulti_length _ _ _ _, fun f => ?_⟩
  exact (hbit f).trans (if_congr (by omega) rfl rfl)

theorem reserve_spec {last fa n : ℕ} (bm : Bitmap) (hfa : fa < 4294967296)
    (hn : (last + 4294967296 - fa) % 4294967296 = 4096 * n) (hlast : last < 4294967296) :
    ∃ bm', forLoop (fun fa => fa != last) (fun fa => u32 (fa + PAGE_SIZE))
      (fun bm fa => pmmSet bm fa 1 false) (n + 1) bm fa = some (bm', last) ∧
      bm'.size = bm.size ∧ bm'.bits.length = bm.bits.length ∧
      ∀ f, bm'.bit f = true ↔ bm.bit f = true ∨
        f < bm.size ∧ f < 1048576 ∧ (f + 1048576 - fa / 4096) % 1048576 < n := by
  induction n generalizing fa bm with
  | zero =>
    obtain rfl : fa = last := by omega
    refine ⟨bm, ?_, rfl, rfl, fun f => by simp⟩
    unfold forLoop
    rw [if_neg (by simp)]
  | succ n ih =>
    have hne : fa ≠ last := by omega
    obtain ⟨hsize, hlength, hbit⟩ := pmmSet_one bm hfa
    obtain ⟨bm', hloop, hsize', hlength', hbit'⟩ :=
      ih (pmmSet bm fa 1 false) (show u32 (fa + 4096) < 4294967296 by unfold u32; omega)
        (by unfold u32; omega)
    refine ⟨bm', ?_, hsize'.trans hsize, hlength'.trans hlength, fun f => ?_⟩
    · unfold forLoop
      rw [if_pos (by simpa using hne)]
      exact hloop
    · rw [hbit', hbit, hsize]
      have hpage : u32 (fa + 4096) / 4096 = (fa / 4096 + 1) % 1048576 := by
        unfold u32
        omega
      rw [hpage]
      by_cases hf : f = fa / 4096 ∧ f < bm.size
      · rw [if_pos hf]
        refine iff_of_true (Or.inl rfl) (Or.inr ⟨hf.2, by omega, ?_⟩)
        rw [← hf.1, Nat.add_sub_cancel_left]
        omega
      · rw [if_neg hf]
        refine or_congr_right ⟨?_, ?_⟩
        · rintro ⟨h1, h2, h3⟩
          refine ⟨h1, h2, ?_⟩
          omega
        · rintro ⟨h1, h2, h3⟩
          refine ⟨h1, h2, ?_⟩
          omega

/-- Address and length that differ within a page never meet. -/
theorem reserve_diverges (bm : Bitmap) (h : u32 addr % 4096 ≠ u32 (pitch * height) % 4096)
    (fuel : ℕ) : multibootReserveFb fuel bm addr pitch height = none := by
  unfold multibootReserveFb
  rw [forLoop_diverges (P := fun fa => fa % 4096 ≠ u32 (pitch * height) % 4096) ?_ ?_ fuel h]
  · rfl
  · intro fa hfa
    simp only [bne_iff_ne, ne_eq]
    rintro rfl
    exact hfa rfl
  · intro fa hfa
    unfold u32 at hfa ⊢
    change (fa + 4096) % 4294967296 % 4096 ≠ _
    omega

/-- The number of rounds. -/
def fbRounds (addr len : ℕ) : ℕ := (u32 len + 4294967296 - u32 addr) % 4294967296 / 4096

theorem reserve_ends (bm : Bitmap) (h : u32 addr % 4096 = u32 (pitch * height) % 4096) :
    ∃ bm', multibootReserveFb (fbRounds addr (pitch * height) + 1) bm addr pitch height = some bm' ∧
      bm'.size = bm.size ∧ bm'.bits.length = bm.bits.length ∧
      ∀ f, bm'.bit f = true ↔ bm.bit f = true ∨ f < bm.size ∧ f < 1048576 ∧
        (f + 1048576 - u32 addr / 4096) % 1048576 < fbRounds addr (pitch * height) := by
  have hlt : ∀ x, u32 x < 4294967296 := fun x => Nat.mod_lt _ (by decide)
  have ha := hlt addr
  have hl := hlt (pitch * height)
  obtain ⟨bm', hloop, hrest⟩ :=
    reserve_spec (n := fbRounds addr (pitch * height)) bm ha (by unfold fbRounds; omega) hl
  refine ⟨bm', ?_, hrest⟩
  unfold multibootReserveFb
  rw [hloop]
  rfl

theorem reserve_unique {fuel fuel' : ℕ} {bm₁ bm₂ : Bitmap}
    (h₁ : multibootReserveFb fuel bm addr pitch height = some bm₁)
    (h₂ : multibootReserveFb fuel' bm addr pitch height = some bm₂) : bm₁ = bm₂ := by
  obtain ⟨r₁, hr₁, rfl⟩ := Option.map_eq_some_iff.1 h₁
  obtain ⟨r₂, hr₂, rfl⟩ := Option.map_eq_some_iff.1 h₂
  rw [forLoop_unique hr₁ hr₂]

theorem reservesExactly_iff_frames (hfit : addr + pitch * height ≤ 4294967296) :
    ReservesExactly addr pitch height ↔ u32 addr % 4096 = u32 (pitch * height) % 4096 ∧
      ∀ f < 1048576,
        (f + 1048576 - u32 addr / 4096) % 1048576 < fbRounds addr (pitch * height) ↔
          Intersects addr (pitch * height) f := by
  constructor
  · intro h
    -- a bitmap of all frames with none in use
    obtain ⟨fuel, bm', hloop, hsize, -, hbit⟩ := h (bitmapInit 1048576 (by decide))
    have hends : u32 addr % 4096 = u32 (pitch * height) % 4096 := by
      by_contra hne
      rw [reserve_diverges _ hne] at hloop
      cases hloop
    obtain ⟨bm₁, hloop₁, -, -, hbit₁⟩ := reserve_ends (bitmapInit 1048576 (by decide)) hends
    obtain rfl := reserve_unique hloop₁ hloop
    refine ⟨hends, fun f hf => ?_⟩
    have hboth := (hbit₁ f).symm.trans (hbit f)
    rw [bit_init] at hboth
    have hlt : f < (bitmapInit 1048576 (by decide)).size := hf
    simpa [hlt, hf] using hboth
  · rintro ⟨hends, hframes⟩ bm
    obtain ⟨bm', hloop, hsize, hlength, hbit⟩ := reserve_ends bm hends
    refine ⟨_, bm', hloop, hsize, hlength, fun f => (hbit f).trans (or_congr_right ?_)⟩
    constructor
    · rintro ⟨hf, hf', hround⟩
      exact ⟨hf, (hframes f hf').1 hround⟩
    · rintro ⟨hf, hin⟩
      have hf' : f < 1048576 := by
        obtain ⟨x, hlo, hhi, rfl⟩ := hin
        omega
      exact ⟨hf, hf', (hframes f hf').2 hin⟩

/-- The loop's frames are those of the framebuffer only if it makes as many rounds as the
framebuffer has frames. -/
theorem frames_iff (hfit : addr + len ≤ 4294967296) (hlen : 0 < len) :
    (∀ f < 1048576, (f + 1048576 - addr / 4096) % 1048576 < fbRounds addr len ↔
      Intersects addr len f) ↔ fbRounds addr len = (addr + len - 1) / 4096 - addr / 4096 + 1 := by
  have hrounds : fbRounds addr len < 1048576 := by
    unfold fbRounds
    omega
  constructor
  · intro h
    have hlast := (h ((addr + len - 1) / 4096) (by omega)).2
      ((intersects_iff hlen).2 ⟨by omega, le_rfl⟩)
    have hnext := mt (h (((addr + len - 1) / 4096 + 1) % 1048576) (by omega)).1
    rw [intersects_iff hlen] at hnext
    omega
  · intro h f hf
    rw [intersects_iff hlen, h]
    omega

theorem fbRounds_pages {a p r : ℕ} (ha : a < 1048576) (hp : p < 1048576) (hr : r < 4096) :
    fbRounds (4096 * a + r) (4096 * p + r) = (p + 1048576 - a) % 1048576 := by
  have hlen : u32 (4096 * p + r) = 4096 * p + r := u32_of_lt (by omega)
  have haddr : u32 (4096 * a + r) = 4096 * a + r := u32_of_lt (by omega)
  unfold fbRounds
  rw [hlen, haddr]
  omega

theorem fb_frames {a p r : ℕ} (hr : r < 4096) (hlen : 0 < 4096 * p + r) :
    (4096 * a + r + (4096 * p + r) - 1) / 4096 - a + 1 =
      if r = 0 then p else if r ≤ 2048 then p + 1 else p + 2 := by
  split_ifs <;> omega

theorem rounds_iff (hfit : addr + len ≤ 4294967296) (hlen : 0 < len) (hlt : len < 4294967296) :
    (addr % 4096 = len % 4096 ∧
      fbRounds addr len = (addr + len - 1) / 4096 - addr / 4096 + 1) ↔ EndsAtLength addr len := by
  obtain ⟨a, r, hr, rfl⟩ : ∃ a r, r < 4096 ∧ addr = 4096 * a + r :=
    ⟨addr / 4096, addr % 4096, Nat.mod_lt _ (by decide), (Nat.div_add_mod _ _).symm⟩
  obtain ⟨p, q, hq, rfl⟩ : ∃ p q, q < 4096 ∧ len = 4096 * p + q :=
    ⟨len / 4096, len % 4096, Nat.mod_lt _ (by decide), (Nat.div_add_mod _ _).symm⟩
  have hpage : (4096 * a + r) / 4096 = a := by omega
  have hsame : (4096 * a + r) % 4096 = (4096 * p + q) % 4096 ↔ r = q := by omega
  rw [hpage, hsame]
  unfold EndsAtLength
  by_cases hrq : r = q
  · subst hrq
    rw [fbRounds_pages (by omega) (by omega) hr, fb_frames hr hlen]
    split_ifs <;> omega
  · exact iff_of_false (fun h => hrq h.1) (by omega)

/-- The loop reserves exactly the framebuffer only where its address and its length happen to
be that far apart. -/
theorem fb_reserved_iff (addr pitch height : ℕ) (hfit : addr + pitch * height ≤ 4294967296) :
    ReservesExactly addr pitch height ↔ EndsAtLength addr (pitch * height) := by
  rw [reservesExactly_iff_frames hfit]
  generalize pitch * height = len at *
  rcases Nat.eq_zero_or_pos len with rfl | hlen
  · -- an empty framebuffer, for which the loop must not begin
    have hnone : ∀ f, ¬ Intersects addr 0 f := by
      rintro f ⟨x, hlo, hhi, -⟩
      omega
    have hrounds : (∀ f < 1048576, (f + 1048576 - u32 addr / 4096) % 1048576 < fbRounds addr 0 ↔
        Intersects addr 0 f) ↔ fbRounds addr 0 = 0 := by
      constructor
      · intro h
        by_contra hne
        have ha : u32 addr / 4096 < 1048576 := by unfold u32; omega
        exact hnone _ ((h _ ha).1 (by omega))
      · intro h f _
        rw [h]
        exact iff_of_false (Nat.not_lt_zero _) (hnone f)
    have hends : EndsAtLength addr 0 ↔ addr = 0 ∨ addr = 4294967296 := by
      unfold EndsAtLength
      omega
    rw [hrounds, hends]
    unfold fbRounds u32
    omega
  · have haddr : u32 addr = addr := u32_of_lt (by omega)
    rw [haddr, frames_iff hfit hlen]
    rcases (by omega : len < 4294967296 ∨ len = 4294967296 ∧ addr = 0) with hlt | ⟨rfl, rfl⟩
    · rw [u32_of_lt hlt]
      exact rounds_iff hfit hlen hlt
    · refine iff_of_false (fun h => absurd h.2 (by decide)) ?_
      unfold EndsAtLength
      omega

/-- A framebuffer of whole pages at address 0. -/
theorem fb_reserved_at_zero : ReservesExactly 0 4096 768 :=
  (fb_reserved_iff 0 4096 768 (by decide)).2 (Or.inl ⟨rfl, by decide, by decide⟩)

/-- 800 by 600 pixels of four bytes at 0xFD000000: the length is not a multiple of a page, and
the loop does not end. -/
theorem fb_reserve_endless : ¬ ∀ addr pitch height : ℕ, addr + pitch * height ≤ 4294967296 →
    ReservesExactly addr pitch height := by
  intro h
  obtain ⟨fuel, bm', hloop, -⟩ := h 0xFD000000 3200 600 (by decide) (bitmapInit 0 (by decide))
  rw [reserve_diverges _ (by decide)] at hloop
  cases hloop

end DepthOS
