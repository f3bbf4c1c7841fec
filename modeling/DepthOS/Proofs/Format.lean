import DepthOS.Sanity.String
import DepthOS.Spec.Format

/-! What `vsnprintf` leaves in its buffer. The output comes in pieces, and the room that is
left is counted down with them; a piece that fills it exactly takes it to 0, where the
terminator falls behind the buffer. -/

namespace DepthOS

open Lib

/-! `vformat` comes to an end. -/

section Rounds

variable (env : FormatEnv) {f : List Byte}

theorem charAt_lt {i : ℕ} (h : charAt f i ≠ 0) : i < f.length := by
  by_contra hge
  exact h (List.getD_eq_default _ _ (by omega))

theorem fetchInt_le (i : ℕ) : i ≤ (fetchInt f i).1 := Nat.le_add_right _ _

variable (f)

/-- A part of a directive only reads on. -/
def Reads (v v' : Vformat) : Prop := v.fmt ≤ v'.fmt

theorem formatNumber_reads (v : Vformat) : Reads v (formatNumber env f v).2.2 := by
  unfold formatNumber Reads
  split_ifs
  · exact Nat.le_succ _
  · exact fetchInt_le v.fmt

theorem formatFlagsWidth_reads (v : Vformat) : Reads v (formatFlagsWidth env f v) :=
  formatNumber_reads env f v

theorem formatPrecision_reads (v : Vformat) : Reads v (formatPrecision env f v) := by
  unfold formatPrecision
  split_ifs
  · exact (Nat.le_succ v.fmt).trans (formatNumber_reads env f { v with fmt := v.fmt + 1 })
  · exact le_rfl

theorem formatLength_reads (v : Vformat) : Reads v (formatLength f v) := by
  unfold formatLength Reads
  dsimp only
  split_ifs <;> first | exact le_rfl | exact Nat.le_add_right _ _

theorem formatSi_fmt (v : Vformat) : (formatSi env v).fmt = v.fmt := by
  unfold formatSi
  split <;> rfl

theorem formatUi_fmt (v : Vformat) : (formatUi env v).fmt = v.fmt := by
  unfold formatUi
  split <;> rfl

/-- Every string ends, so its length is found. -/
theorem strlen_returns (a : ℕ) : ∃ n, strlen env.fuel env.mem a = some n := by
  obtain ⟨n, hn, h0⟩ := env.ends a
  have hend : ∀ (fuel k b : ℕ), k < fuel → env.mem (b + k) = 0 →
      ∃ e, strEnd env.mem fuel b = some e := by
    intro fuel
    induction fuel with
    | zero => exact fun k b hk => absurd hk (Nat.not_lt_zero k)
    | succ fuel ih =>
      intro k b hk hz
      unfold strEnd
      split_ifs with hb
      · obtain ⟨k, rfl⟩ : ∃ j, k = j + 1 := by
          cases k with
          | zero => exact absurd hz hb
          | succ j => exact ⟨j, rfl⟩
        exact ih k (b + 1) (by omega) (by rw [← hz]; congr 1; omega)
      · exact ⟨b, rfl⟩
  obtain ⟨e, he⟩ := hend env.fuel n a hn h0
  exact ⟨e - a, by rw [strlen, he, Option.map_some]⟩

theorem formatChars_returns (pchar : ℕ) (flags : VformatFlags) :
    ∃ out, formatChars env pchar flags = some out := by
  unfold formatChars
  split_ifs
  · exact ⟨_, rfl⟩
  · exact ⟨_, rfl⟩
  · exact ⟨_, rfl⟩
  · split <;> exact ⟨_, rfl⟩
  · obtain ⟨n, hn⟩ := strlen_returns env pchar
    exact ⟨_, by rw [hn, Option.map_some]⟩

/-- A round goes to index `j`, or not past the end of the format. -/
def RoundTo (f : List Byte) (i j : ℕ) : Prop := i ≤ j ∧ (charAt f i ≠ 0 → i < j)

theorem roundTo_succ (i : ℕ) : RoundTo f i (i + 1) := ⟨Nat.le_succ i, fun _ => Nat.lt_succ_self i⟩

/-- The conversion goes past its byte, unless that is the end of the format. -/
theorem formatConversion_returns (v : Vformat) : ∃ v' out,
    formatConversion env f v = some (v', out) ∧ RoundTo f v.fmt v'.fmt := by
  unfold formatConversion
  generalize paddingFlags v.flags = flags
  dsimp only
  by_cases hd : charAt f v.fmt = ch 'd' ∨ charAt f v.fmt = ch 'i'
  · rw [if_pos hd]
    refine ⟨_, _, rfl, ?_⟩
    dsimp only
    rw [formatSi_fmt]
    exact roundTo_succ f v.fmt
  rw [if_neg hd]
  by_cases hu : charAt f v.fmt = ch 'u' ∨ charAt f v.fmt = ch 'o' ∨ charAt f v.fmt = ch 'x'
  · rw [if_pos hu]
    refine ⟨_, _, rfl, ?_⟩
    dsimp only
    rw [formatUi_fmt]
    exact roundTo_succ f v.fmt
  rw [if_neg hu]
  by_cases hp : charAt f v.fmt = ch 'p'
  · rw [if_pos hp]
    exact ⟨_, _, rfl, roundTo_succ f v.fmt⟩
  rw [if_neg hp]
  by_cases hc : charAt f v.fmt = ch 'c'
  · rw [if_pos hc]
    exact ⟨_, _, rfl, roundTo_succ f v.fmt⟩
  rw [if_neg hc]
  by_cases hs : charAt f v.fmt = ch 's'
  · obtain ⟨chars, hchars⟩ := formatChars_returns env (env.args v.ap).toNat flags
    rw [if_pos hs, hchars, Option.map_some]
    exact ⟨_, _, rfl, roundTo_succ f v.fmt⟩
  rw [if_neg hs]
  by_cases h0 : charAt f v.fmt = 0
  · rw [if_pos h0]
    exact ⟨_, _, rfl, le_rfl, fun h => absurd h0 h⟩
  · rw [if_neg h0]
    exact ⟨_, _, rfl, roundTo_succ f v.fmt⟩

theorem formatDirective_reads (v : Vformat) :
    Reads v (formatLength f (formatPrecision env f (formatFlagsWidth env f v))) := by
  have h1 := formatFlagsWidth_reads env f v
  have h2 := formatPrecision_reads env f (formatFlagsWidth env f v)
  have h3 := formatLength_reads f (formatPrecision env f (formatFlagsWidth env f v))
  exact (h1.trans h2).trans h3

theorem formatPercent_returns (v : Vformat) : ∃ v' out,
    formatPercent env f v = some (v', out) ∧ RoundTo f v.fmt v'.fmt := by
  unfold formatPercent
  dsimp only
  by_cases h1 : charAt f v.fmt = ch '%'
  · rw [if_pos h1]
    exact ⟨_, _, rfl, roundTo_succ f v.fmt⟩
  rw [if_neg h1]
  by_cases h2 : charAt f v.fmt = ch '#'
  · rw [if_pos h2]
    exact ⟨_, _, rfl, roundTo_succ f v.fmt⟩
  rw [if_neg h2]
  by_cases h3 : charAt f v.fmt = ch '0'
  · rw [if_pos h3]
    exact ⟨_, _, rfl, roundTo_succ f v.fmt⟩
  rw [if_neg h3]
  by_cases h4 : charAt f v.fmt = ch ' '
  · rw [if_pos h4]
    exact ⟨_, _, rfl, roundTo_succ f v.fmt⟩
  rw [if_neg h4]
  by_cases h5 : charAt f v.fmt = ch '-'
  · rw [if_pos h5]
    exact ⟨_, _, rfl, roundTo_succ f v.fmt⟩
  rw [if_neg h5]
  by_cases h6 : charAt f v.fmt = ch '+'
  · rw [if_pos h6]
    exact ⟨_, _, rfl, roundTo_succ f v.fmt⟩
  rw [if_neg h6]
  have hread := formatDirective_reads env f v
  obtain ⟨v', out, hconv, hle, hlt⟩ := formatConversion_returns env f
    (formatLength f (formatPrecision env f (formatFlagsWidth env f v)))
  refine ⟨v', out, hconv, hread.trans hle, fun h0 => ?_⟩
  rcases Nat.lt_or_eq_of_le hread with h | h
  · exact h.trans_le hle
  · exact hread.trans_lt (hlt (h ▸ h0))

theorem vformatLoop_returns : ∀ (fuel : ℕ) (v : Vformat), f.length - v.fmt < fuel →
    ∃ pieces, vformatLoop env f fuel v = some pieces := by
  intro fuel
  induction fuel with
  | zero => exact fun v hv => absurd hv (Nat.not_lt_zero _)
  | succ fuel ih =>
    intro v hv
    unfold vformatLoop
    by_cases h0 : charAt f v.fmt = 0
    · rw [if_pos h0]
      exact ⟨_, rfl⟩
    rw [if_neg h0]
    have hlen := charAt_lt h0
    cases v.state with
    | LITERAL =>
      dsimp only
      split_ifs
      · obtain ⟨v', out, hround, hle, -⟩ := formatPercent_returns env f
          { v with state := .PERCENT, fmt := v.fmt + (literalAt f v.fmt).length + 1,
                   percentStart := v.fmt + (literalAt f v.fmt).length, flags := noFlags }
        dsimp only at hle
        obtain ⟨rest, hrest⟩ := ih v' (by omega)
        rw [hround]
        exact ⟨_, by rw [Option.bind_eq_bind, Option.bind_some, hrest]; rfl⟩
      · exact ⟨_, rfl⟩
    | PERCENT =>
      obtain ⟨v', out, hround, -, hlt⟩ := formatPercent_returns env f v
      have hnext := hlt h0
      obtain ⟨rest, hrest⟩ := ih v' (by omega)
      dsimp only
      rw [hround]
      exact ⟨_, by rw [Option.bind_eq_bind, Option.bind_some, hrest]; rfl⟩

theorem vformat_returns :
    ∃ pieces, vformat env f = some pieces :=
  vformatLoop_returns env f _ _ (Nat.lt_succ_self _)

end Rounds

/-! The buffer. -/

/-- A piece of two bytes or more ends where the buffer does. -/
def FillsExactly (size : ℕ) (pieces : List Piece) : Prop :=
  ∃ before piece after, pieces = before ++ piece :: after ∧ 2 ≤ piece.length ∧
    before.flatten.length + piece.length = size

/-- The buffer holds the output as far as it goes, its terminator and nothing else, and the
length of the output is returned. -/
def Formats (full : Piece) (size : ℕ) (str : Mem) (res : Option (Mem × ℤ)) : Prop :=
  ∃ buf ret, res = some (buf, ret) ∧ ret = full.length ∧ (∀ k, size ≤ k → buf k = str k) ∧
    (0 < size → buf (min full.length (size - 1)) = 0 ∧
      ∀ k < min full.length (size - 1), buf k = full.getD k 0)

section Buffer

variable {size : ℕ} {str : Mem} {pieces : List Piece}

/-- The context after the output `done`, as long as no piece has filled the buffer exactly. -/
def counted (size : ℕ) (str : Mem) (done : Piece) : StrOutputContext where
  str := done.length
  limit := max (min size 1) (size - done.length)
  buf := blit str 0 (done.getD · 0) (min done.length (size - 1))

theorem blit_getD_append (m : Mem) (done piece : Piece) (n : ℕ) :
    blit (blit m 0 (done.getD · 0) done.length) done.length (piece.getD · 0) n =
      blit m 0 ((done ++ piece).getD · 0) (done.length + n) := by
  have hleft : blit m 0 (done.getD · 0) done.length =
      blit m 0 ((done ++ piece).getD · 0) done.length :=
    blit_congr fun k hk => (List.getD_append _ _ _ _ hk).symm
  have hright : ∀ k < n, piece.getD k 0 = (done ++ piece).getD (done.length + k) 0 := by
    intro k _
    rw [List.getD_append_right _ _ _ _ (Nat.le_add_right _ _), Nat.add_sub_cancel_left]
  have h := blit_append m 0 ((done ++ piece).getD · 0) done.length n
  rw [Nat.zero_add] at h
  rw [hleft, ← h]
  exact blit_congr hright

theorem blit_getD_same (m : Mem) (done piece : Piece) {n : ℕ} (hn : n ≤ done.length) :
    blit m 0 (done.getD · 0) n = blit m 0 ((done ++ piece).getD · 0) n :=
  blit_congr fun k hk => (List.getD_append _ _ _ _ (by omega)).symm

theorem outputStr_counted (done piece : Piece)
    (hfit : 2 ≤ piece.length → done.length + piece.length ≠ size) :
    outputStr (counted size str done) piece = counted size str (done ++ piece) := by
  unfold outputStr counted
  dsimp only
  rw [List.length_append]
  by_cases hfull : max (min size 1) (size - done.length) ≤ 1
  · have hmin : min (done.length + piece.length) (size - 1) = min done.length (size - 1) := by omega
    have hlimit : max (min size 1) (size - (done.length + piece.length)) =
        max (min size 1) (size - done.length) := by omega
    rw [if_pos hfull, hmin, hlimit, blit_getD_same str done piece (Nat.min_le_left _ _)]
  rw [if_neg hfull]
  have hroom : max (min size 1) (size - done.length) = size - done.length := by omega
  have hdone : min done.length (size - 1) = done.length := by omega
  rw [hroom, hdone]
  by_cases hcut : size - done.length < piece.length
  · have hend : min (done.length + piece.length) (size - 1) =
        done.length + (size - done.length - 1) := by omega
    have hlimit : max (min size 1) (size - (done.length + piece.length)) = 1 := by omega
    rw [if_pos hcut, hend, hlimit, blit_getD_append]
  · have hend : min (done.length + piece.length) (size - 1) = done.length + piece.length := by
      omega
    have hlimit : max (min size 1) (size - (done.length + piece.length)) =
        size - done.length - piece.length := by omega
    rw [if_neg hcut, hend, hlimit, blit_getD_append]

variable (size str) in
theorem foldl_counted : ∀ (done : Piece) (pieces : List Piece),
    (∀ before piece after, pieces = before ++ piece :: after → 2 ≤ piece.length →
      done.length + before.flatten.length + piece.length ≠ size) →
    pieces.foldl outputStr (counted size str done) = counted size str (done ++ pieces.flatten) := by
  intro done pieces
  induction pieces generalizing done with
  | nil =>
    intro _
    rw [List.flatten_nil, List.append_nil]
    rfl
  | cons piece rest ih =>
    intro hfit
    have hfirst := hfit [] piece rest rfl
    rw [List.flatten_nil, List.length_nil, Nat.add_zero] at hfirst
    rw [List.foldl_cons, outputStr_counted done piece hfirst, ih, List.flatten_cons,
      List.append_assoc]
    intro before piece' after hrest hlen
    have h := hfit (piece :: before) piece' after (by rw [hrest, List.cons_append]) hlen
    rw [List.flatten_cons, List.length_append] at h
    rw [List.length_append]
    omega

theorem foldl_full {context : StrOutputContext} (h : context.limit = 0) (pieces : List Piece) :
    (pieces.foldl outputStr context).limit = 0 := by
  induction pieces generalizing context with
  | nil => exact h
  | cons piece rest ih =>
    rw [List.foldl_cons]
    apply ih
    unfold outputStr
    dsimp only
    rw [if_pos (by omega)]
    exact h

theorem counted_nil : counted size str [] = ⟨0, size, str⟩ := by
  unfold counted
  have hlimit : max (min size 1) (size - ([] : Piece).length) = size := by
    rw [List.length_nil]
    omega
  rw [hlimit, List.length_nil, Nat.zero_min, blit_zero]

theorem int32_natCast_iff (n : ℕ) : int32 n = n ↔ n < 2147483648 := by
  unfold int32
  rw [Int.bmod_def]
  split_ifs <;> omega

variable {env : FormatEnv} {f : List Byte}

theorem vsnprintf_eq (hp : vformat env f = some pieces) (size : ℕ) (str : Mem) :
    vsnprintf env str size f = some (
      if size ≠ 0 then Function.update (pieces.foldl outputStr ⟨0, size, str⟩).buf
        (size - (pieces.foldl outputStr ⟨0, size, str⟩).limit) 0
      else (pieces.foldl outputStr ⟨0, size, str⟩).buf,
      int32 (pieces.foldl outputStr ⟨0, size, str⟩).str) := by
  rw [vsnprintf, hp, Option.map_some]

theorem outputStr_str (context : StrOutputContext) (piece : Piece) :
    (outputStr context piece).str = context.str + piece.length := by
  unfold outputStr
  dsimp only
  split_ifs <;> rfl

theorem foldl_str (context : StrOutputContext) (pieces : List Piece) :
    (pieces.foldl outputStr context).str = context.str + pieces.flatten.length := by
  induction pieces generalizing context with
  | nil => rfl
  | cons piece rest ih =>
    rw [List.foldl_cons, ih, outputStr_str, List.flatten_cons, List.length_append, Nat.add_assoc]

theorem formats_counted (hp : vformat env f = some pieces) (hfit : ¬ FillsExactly size pieces)
    (hlen : pieces.flatten.length < 2147483648) (str : Mem) :
    Formats pieces.flatten size str (vsnprintf env str size f) := by
  have hcontext : pieces.foldl outputStr ⟨0, size, str⟩ = counted size str pieces.flatten := by
    have h := foldl_counted size str [] pieces
      fun before piece after he hlen hsum => hfit ⟨before, piece, after, he, hlen, by simpa using hsum⟩
    rwa [counted_nil, List.nil_append] at h
  rw [vsnprintf_eq hp, hcontext]
  generalize pieces.flatten = full at hlen ⊢
  refine ⟨_, _, rfl, (int32_natCast_iff _).2 hlen, ?_, ?_⟩
  · intro k hk
    unfold counted
    dsimp only
    split_ifs with h0
    · rw [Function.update_of_ne (by omega), blit_other (Or.inr (by omega))]
    · exact blit_other (Or.inr (by omega))
  · intro hpos
    have hend : size - max (min size 1) (size - full.length) = min full.length (size - 1) := by
      omega
    unfold counted
    dsimp only
    rw [if_pos (by omega), hend]
    refine ⟨Function.update_self _ _ _, fun k hk => ?_⟩
    rw [Function.update_of_ne (by omega), blit_front hk]

theorem fills_writes_behind (hp : vformat env f = some pieces) (h : FillsExactly size pieces) :
    ¬ ∀ str, Formats pieces.flatten size str (vsnprintf env str size f) := by
  intro hall
  obtain ⟨before, piece, after, hpieces, hlen, hsize⟩ := h
  obtain ⟨buf, ret, hres, -, hframe, -⟩ := hall fun _ => 1
  have hstart : before.foldl outputStr ⟨0, size, fun _ => 1⟩ =
      counted size (fun _ => 1) before.flatten := by
    have h := foldl_counted size (fun _ => 1) [] before
      fun b p a he _ hsum => by
        rw [he, List.flatten_append, List.flatten_cons] at hsize
        simp only [List.length_append, List.length_nil] at hsize hsum
        omega
    rwa [counted_nil, List.nil_append] at h
  have hempty : (outputStr (counted size (fun _ => 1) before.flatten) piece).limit = 0 := by
    unfold outputStr counted
    dsimp only
    rw [if_neg (by omega), if_neg (by omega)]
    dsimp only
    omega
  have hlimit : (pieces.foldl outputStr ⟨0, size, fun _ => 1⟩).limit = 0 := by
    rw [hpieces, List.foldl_append, List.foldl_cons, hstart]
    exact foldl_full hempty after
  rw [vsnprintf_eq hp, hlimit, Nat.sub_zero, if_pos (by omega)] at hres
  have hbyte := hframe size le_rfl
  rw [← (Prod.mk.inj (Option.some.inj hres)).1, Function.update_self] at hbyte
  exact absurd hbyte (show (0 : Byte) ≠ 1 by decide)

/-- `vsnprintf` keeps to its buffer, terminates it and returns the length exactly when no
piece of two bytes or more ends where the buffer does and the length is one of type `int`. -/
theorem vsnprintf_formats_iff (env : FormatEnv) (size : ℕ) (f : List Byte) :
    ∃ pieces, vformat env f = some pieces ∧
      ((∀ str, Formats pieces.flatten size str (vsnprintf env str size f)) ↔
        ¬ FillsExactly size pieces ∧ pieces.flatten.length < 2147483648) := by
  obtain ⟨pieces, hp⟩ := vformat_returns env f
  refine ⟨pieces, hp, fun h => ⟨fun hfill => fills_writes_behind hp hfill h, ?_⟩,
    fun h str => formats_counted hp h.1 h.2 str⟩
  obtain ⟨buf, ret, hres, hret, -⟩ := h fun _ => 0
  rw [vsnprintf_eq hp, foldl_str, Nat.zero_add] at hres
  rw [← (Prod.mk.inj (Option.some.inj hres)).2] at hret
  exact (int32_natCast_iff _).1 hret

end Buffer

/-- Memory with the literal and nothing else. -/
def plainEnv : FormatEnv where
  mem := ofBytes (0 :: "(null)".toList.map ch)
  args := fun _ => 0
  before := 0
  nullString := 1
  null_holds := holdsStr_iff.2 ⟨by decide, by decide, by decide⟩
  fuel := 8
  ends := by
    intro a
    rcases Nat.lt_or_ge a 7 with h | h
    · exact ⟨7 - a, by omega, by rw [Nat.add_sub_cancel' h.le]; rfl⟩
    · exact ⟨0, by omega, List.getD_eq_default _ _ h⟩
  ui := 0
  si := 0

/-- Five letters into a buffer of five bytes: the terminator is the sixth. -/
theorem vsnprintf_overruns : ¬ ∀ (env : FormatEnv) (size : ℕ) (f : List Byte),
    ∃ pieces, vformat env f = some pieces ∧
      ∀ str, Formats pieces.flatten size str (vsnprintf env str size f) := by
  intro h
  obtain ⟨pieces, hp, hall⟩ := h plainEnv 5 ("hello".toList.map ch)
  have hpieces : vformat plainEnv ("hello".toList.map ch) = some ["hello".toList.map ch] := by decide
  obtain rfl := Option.some.inj (hp.symm.trans hpieces)
  exact fills_writes_behind hp ⟨[], _, [], rfl, by decide, by decide⟩ hall

end DepthOS
