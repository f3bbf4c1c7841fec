import DepthOS.Proofs.Format
import DepthOS.Spec.FormatTrace

/-! The places of the output taken away, the trace is `vformat`. The parts of a directive are
read the way the scan of its text has them. -/

namespace DepthOS

open Lib

section Forget

variable (env : FormatEnv) (f : List Byte)

theorem isConversion_iff {c : Byte} : isConversion c = true ↔
    (c = ch 'd' ∨ c = ch 'i') ∨ (c = ch 'u' ∨ c = ch 'o' ∨ c = ch 'x') ∨ c = ch 'p' ∨ c = ch 'c' ∨
      c = ch 's' := by
  simp [isConversion]
  tauto

theorem isFlag_iff {c : Byte} : isFlag c = true ↔
    c = ch '#' ∨ c = ch '0' ∨ c = ch ' ' ∨ c = ch '-' ∨ c = ch '+' := by
  simp [isFlag]

theorem formatUnknown_piece (percentStart fmt : ℕ) : formatUnknown env f percentStart fmt =
    Chunk.piece env f (.format (percentStart - 1) (fmt + 2 - percentStart)) := by
  refine List.map_congr_left fun k _ => ?_
  unfold formatByte
  by_cases h0 : percentStart + k = 0
  · rw [if_pos h0, if_pos (by omega)]
  · rw [if_neg h0, if_neg (by omega)]
    congr 1
    omega

theorem formatConversion_unknown {v : Vformat} (h : isConversion (charAt f v.fmt) = false) :
    formatConversion env f v =
      if charAt f v.fmt = 0 then
        some ({ v with flags := paddingFlags v.flags, state := .LITERAL },
          [formatUnknown env f v.percentStart (v.fmt - 1)])
      else
        some ({ v with flags := paddingFlags v.flags, fmt := v.fmt + 1, state := .LITERAL },
          [formatUnknown env f v.percentStart v.fmt]) := by
  have hnot := mt (isConversion_iff (c := charAt f v.fmt)).2 (by rw [h]; exact Bool.false_ne_true)
  simp only [not_or] at hnot
  obtain ⟨⟨hd, hi⟩, ⟨hu, ho, hx⟩, hp, hc, hs⟩ := hnot
  unfold formatConversion
  simp only [hd, hi, hu, ho, hx, hp, hc, hs, or_self, if_false]

/-! What the known ones do. -/

theorem formatConversion_signed {v : Vformat}
    (h : charAt f v.fmt = ch 'd' ∨ charAt f v.fmt = ch 'i') : formatConversion env f v =
      let w := formatSi env { v with flags := paddingFlags v.flags }
      let flags := { paddingFlags v.flags with signedValue := true, radix := 10 }
      some ({ w with flags := flags, fmt := w.fmt + 1, state := .LITERAL },
        formatRichInt w.si flags) := by
  unfold formatConversion
  exact if_pos h

/-- The radix of an unsigned conversion. -/
def radixOf (conv : Byte) : ℕ := if conv = ch 'u' then 10 else if conv = ch 'o' then 8 else 16

theorem formatConversion_unsigned {v : Vformat}
    (h : charAt f v.fmt = ch 'u' ∨ charAt f v.fmt = ch 'o' ∨ charAt f v.fmt = ch 'x') :
    formatConversion env f v =
      let w := formatUi env { v with flags := paddingFlags v.flags }
      let flags := { paddingFlags v.flags with radix := radixOf (charAt f v.fmt) }
      some ({ w with flags := flags, fmt := w.fmt + 1, state := .LITERAL },
        formatRichInt w.ui flags) := by
  have hnot : ¬ (charAt f v.fmt = ch 'd' ∨ charAt f v.fmt = ch 'i') := by
    rcases h with h | h | h <;> rw [h] <;> decide
  unfold formatConversion
  exact (if_neg hnot).trans (if_pos h)

theorem formatConversion_pointer {v : Vformat} (h : charAt f v.fmt = ch 'p') :
    formatConversion env f v =
      let flags := { paddingFlags v.flags with alternate := true, radix := 16 }
      some ({ v with flags := flags, fmt := v.fmt + 1, state := .LITERAL, ap := v.ap + 1 },
        formatRichInt (env.args v.ap) flags) := by
  unfold formatConversion
  dsimp only
  rw [h]
  rfl

theorem formatConversion_char {v : Vformat} (h : charAt f v.fmt = ch 'c') :
    formatConversion env f v =
      let flags := { paddingFlags v.flags with precision := true, precisionValue := 1 }
      some ({ v with flags := flags, fmt := v.fmt + 1, state := .LITERAL, ap := v.ap + 1 },
        formatString (fun _ => (env.args v.ap).setWidth 8) flags) := by
  unfold formatConversion
  dsimp only
  rw [h]
  rfl

theorem formatConversion_string {v : Vformat} (h : charAt f v.fmt = ch 's') :
    formatConversion env f v =
      (formatChars env (env.args v.ap).toNat (paddingFlags v.flags)).map fun out =>
        ({ v with flags := paddingFlags v.flags, fmt := v.fmt + 1, state := .LITERAL,
                  ap := v.ap + 1 }, out) := by
  unfold formatConversion
  dsimp only
  rw [h]
  rfl

theorem traceConversion_piece (v : Vformat) :
    (traceConversion env f v).map (fun r => (r.1, r.2.map (Chunk.piece env f))) =
      formatConversion env f v := by
  unfold traceConversion
  rw [Option.map_map]
  cases hc : isConversion (charAt f v.fmt) with
  | true =>
    have hid : ∀ r : Vformat × List Piece,
        ((fun r : Vformat × List Chunk => (r.1, r.2.map (Chunk.piece env f))) ∘
          fun r => (r.1, r.2.map Chunk.data)) r = r := by
      intro r
      simp [Function.comp_def, Chunk.piece]
    simp only [if_true]
    rw [funext hid]
    exact Option.map_id'
  | false =>
    rw [formatConversion_unknown env f hc]
    by_cases h0 : charAt f v.fmt = 0
    · simp only [if_pos h0, Option.map_some, Function.comp_apply, Bool.false_eq_true, if_false,
        List.map_cons, List.map_nil, formatUnknown_piece]
    · simp only [if_neg h0, Option.map_some, Function.comp_apply, Bool.false_eq_true, if_false,
        List.map_cons, List.map_nil, formatUnknown_piece]

theorem formatPercent_percent {v : Vformat} (h : charAt f v.fmt = ch '%') :
    formatPercent env f v = some ({ v with fmt := v.fmt + 1, state := .LITERAL }, [[ch '%']]) := by
  unfold formatPercent
  exact if_pos h

/-- A flag character sets its flag. -/
def applyFlag (flags : VformatFlags) (c : Byte) : VformatFlags :=
  if c = ch '#' then { flags with alternate := true }
  else if c = ch '0' then { flags with paddingValue := ch '0', padding := true }
  else if c = ch ' ' then
    if flags.sign = .SIGN_DEFAULT then { flags with sign := .SIGN_SPACE } else flags
  else if c = ch '-' then { flags with left := true }
  else { flags with sign := .SIGN_PLUS }

theorem formatPercent_flag {v : Vformat} (h : isFlag (charAt f v.fmt) = true) :
    formatPercent env f v = some
      ({ v with fmt := v.fmt + 1, flags := applyFlag v.flags (charAt f v.fmt), state := .PERCENT },
        []) := by
  have hcases := isFlag_iff.1 h
  have hne : charAt f v.fmt ≠ ch '%' := by
    intro h'
    rw [h'] at h
    exact absurd h (by decide)
  unfold formatPercent applyFlag
  dsimp only
  rw [if_neg hne]
  generalize charAt f v.fmt = c at hcases
  rcases hcases with rfl | rfl | rfl | rfl | rfl <;> rfl

theorem formatPercent_directive {v : Vformat} (h : charAt f v.fmt ≠ ch '%')
    (h' : isFlag (charAt f v.fmt) = false) : formatPercent env f v =
      formatConversion env f (formatLength f (formatPrecision env f (formatFlagsWidth env f v))) := by
  have hnot := mt (isFlag_iff (c := charAt f v.fmt)).2 (by rw [h']; exact Bool.false_ne_true)
  simp only [not_or] at hnot
  obtain ⟨h1, h2, h3, h4, h5⟩ := hnot
  unfold formatPercent
  simp only [h, h1, h2, h3, h4, h5, if_false]

theorem tracePercent_piece (v : Vformat) :
    (tracePercent env f v).map (fun r => (r.1, r.2.map (Chunk.piece env f))) =
      formatPercent env f v := by
  unfold tracePercent
  by_cases hp : charAt f v.fmt = ch '%'
  · rw [if_pos hp, formatPercent_percent env f hp]
    have hchar : Chunk.piece env f (.format v.fmt 1) = [ch '%'] := by
      simp [Chunk.piece, formatByte, hp]
    simp [hchar]
  rw [if_neg hp]
  cases hflag : isFlag (charAt f v.fmt) with
  | true => simp [formatPercent_flag env f hflag]
  | false =>
    rw [formatPercent_directive env f hp hflag]
    exact traceConversion_piece env f _

theorem literalAt_piece (i : ℕ) :
    Chunk.piece env f (.format i (literalAt f i).length) = literalAt f i := by
  obtain ⟨rest, hrest⟩ := List.takeWhile_prefix (p := fun b => b ≠ 0 ∧ b ≠ ch '%') (l := f.drop i)
  change literalAt f i ++ rest = f.drop i at hrest
  refine List.ext_getElem (by simp [Chunk.piece]) fun k hk hk' => ?_
  have hget : f[i + k]? = some (literalAt f i)[k] := by
    rw [← List.getElem?_drop, ← hrest, List.getElem?_append_left hk', List.getElem?_eq_getElem hk']
  have hnat : ((i : ℤ) + (k : ℤ)).toNat = i + k := by omega
  simp only [Chunk.piece, List.getElem_map, List.getElem_range, formatByte, hnat, charAt,
    List.getD_eq_getElem?_getD, hget, Option.getD_some]
  exact if_neg (by omega)

theorem tracePercent_returns (v : Vformat) : ∃ v' chunks, tracePercent env f v = some (v', chunks) ∧
    formatPercent env f v = some (v', chunks.map (Chunk.piece env f)) := by
  obtain ⟨v', out, hround, -⟩ := formatPercent_returns env f v
  have hpiece := tracePercent_piece env f v
  rw [hround] at hpiece
  obtain ⟨r, hr, heq⟩ := Option.map_eq_some_iff.1 hpiece
  refine ⟨r.1, r.2, hr, ?_⟩
  rw [hround, ← heq]

/-- Without its places the trace is the output of `vformat`. -/
theorem traceLoop_piece (fuel : ℕ) (v : Vformat) :
    (traceLoop env f fuel v).map (fun r => r.2.map (Chunk.piece env f)) = vformatLoop env f fuel v := by
  induction fuel generalizing v with
  | zero => rfl
  | succ fuel ih =>
    unfold traceLoop vformatLoop
    by_cases h0 : charAt f v.fmt = 0
    · rw [if_pos h0, if_pos h0]
      rfl
    rw [if_neg h0, if_neg h0]
    cases v.state with
    | LITERAL =>
      dsimp only
      by_cases hp : charAt f (v.fmt + (literalAt f v.fmt).length) = ch '%'
      · obtain ⟨v', chunks, htrace, hround⟩ := tracePercent_returns env f
          { v with state := .PERCENT, fmt := v.fmt + (literalAt f v.fmt).length + 1,
                   percentStart := v.fmt + (literalAt f v.fmt).length, flags := noFlags }
        rw [if_pos hp, if_pos hp, htrace, hround]
        simp only [Option.bind_eq_bind, Option.bind_some, ← ih v']
        cases traceLoop env f fuel v' with
        | none => rfl
        | some r => simp [literalAt_piece]
      · rw [if_neg hp, if_neg hp]
        simp [literalAt_piece]
    | PERCENT =>
      dsimp only
      obtain ⟨v', chunks, htrace, hround⟩ := tracePercent_returns env f v
      rw [htrace, hround]
      simp only [Option.bind_eq_bind, Option.bind_some, ← ih v']
      cases traceLoop env f fuel v' with
      | none => rfl
      | some r => simp

theorem vformatTrace_piece : (vformatTrace env f).map (fun r => r.2.map (Chunk.piece env f)) =
    vformat env f :=
  traceLoop_piece env f _ _

end Forget

/-! Reading a directive. -/

def Count.present : Count → Bool
  | .star => true
  | .digits ds => ds ≠ []

/-- Its value, with the next argument at `ap`. -/
def Count.value (env : FormatEnv) (ap : ℕ) : Count → ℤ
  | .star => (env.args ap).toInt
  | .digits ds => ds.foldl (fun v b => int32 (v * 10 + (b.toNat - (ch '0').toNat))) 0

def applyPrecision (env : FormatEnv) (ap : ℕ) (precision : Option Count) (flags : VformatFlags) :
    VformatFlags :=
  match precision with
  | none => flags
  | some count => { flags with precision := count.present, precisionValue := count.value env ap }

def applyLength (length : FormatLength) (flags : VformatFlags) : VformatFlags :=
  if length = .LENGTH_DEFAULT then flags else { flags with length := length }

/-- The flags that the numbers and the length of a directive add. -/
def numberFlags (env : FormatEnv) (ap : ℕ) (head : DirectiveHead) (flags : VformatFlags) :
    VformatFlags :=
  applyLength head.length (applyPrecision env (ap + head.width.stars) head.precision
    { flags with width := head.width.present, widthValue := head.width.value env ap })

/-- The flags of a directive, with the next argument at `ap`. -/
def headFlags (env : FormatEnv) (ap : ℕ) (head : DirectiveHead) : VformatFlags :=
  numberFlags env ap head (head.flags.foldl applyFlag noFlags)

section Scan

variable (env : FormatEnv) {f : List Byte}

theorem charAt_head (i : ℕ) : charAt f i = (f.drop i).head?.getD 0 := by
  rw [charAt, List.getD_eq_getElem?_getD, List.head?_drop]

theorem head_iff {c : Byte} (hc : c ≠ 0) (i : ℕ) :
    (f.drop i).head? = some c ↔ charAt f i = c := by
  rw [charAt_head]
  cases (f.drop i).head? with
  | none => exact ⟨fun h => absurd h (by simp), fun h => absurd h.symm hc⟩
  | some b => simp

theorem next_head_iff {c : Byte} (hc : c ≠ 0) (i : ℕ) :
    (f.drop i).tail.head? = some c ↔ charAt f (i + 1) = c := by
  rw [List.tail_drop, head_iff hc]

theorem scanCount_text (s : List Byte) : (scanCount s).1.text ++ (scanCount s).2 = s := by
  unfold scanCount
  split_ifs with h
  · exact List.cons_head?_tail h
  · exact List.takeWhile_append_dropWhile

theorem scanPrecision_text (s : List Byte) :
    precisionText (scanPrecision s).1 ++ (scanPrecision s).2 = s := by
  unfold scanPrecision
  split_ifs with h
  · rw [precisionText, List.cons_append, scanCount_text]
    exact List.cons_head?_tail h
  · rfl

theorem scanLength_text (s : List Byte) :
    lengthText (scanLength s).1 ++ (scanLength s).2 = s := by
  have hone : ∀ {c : Byte}, s.head? = some c → [c] ++ s.drop 1 = s := fun h => by
    rw [List.drop_one]
    exact List.cons_head?_tail h
  have htwo : ∀ {c d : Byte}, s.head? = some c → s.tail.head? = some d → [c, d] ++ s.drop 2 = s := by
    intro c d h h'
    cases s with
    | nil => exact absurd h (by simp)
    | cons b s =>
      cases s with
      | nil => exact absurd h' (by simp)
      | cons b' s =>
        obtain rfl : b = c := by simpa using h
        obtain rfl : b' = d := by simpa using h'
        rfl
  unfold scanLength
  split_ifs <;> first | exact htwo ‹_› ‹_› | exact hone ‹_› | rfl

theorem scanHead_text (s : List Byte) : (scanHead s).1.text ++ (scanHead s).2 = s := by
  unfold scanHead DirectiveHead.text DirectiveHead.tail
  simp only [List.append_assoc, scanLength_text, scanPrecision_text, scanCount_text,
    List.takeWhile_append_dropWhile]

theorem formatNumber_scan (v : Vformat) : formatNumber env f v =
    ((scanCount (f.drop v.fmt)).1.present, (scanCount (f.drop v.fmt)).1.value env v.ap,
      { v with fmt := v.fmt + (scanCount (f.drop v.fmt)).1.text.length
               ap := v.ap + (scanCount (f.drop v.fmt)).1.stars }) := by
  unfold formatNumber scanCount
  by_cases h : charAt f v.fmt = ch '*'
  · rw [if_pos h, if_pos ((head_iff (by decide) _).2 h)]
    rfl
  · rw [if_neg h, if_neg (mt (head_iff (by decide) _).1 h)]
    simp [fetchInt, Count.present, Count.value, Count.text, Count.stars]

theorem formatFlagsWidth_scan (v : Vformat) : formatFlagsWidth env f v =
    { v with
      fmt := v.fmt + (scanCount (f.drop v.fmt)).1.text.length
      ap := v.ap + (scanCount (f.drop v.fmt)).1.stars
      flags := { v.flags with
        width := (scanCount (f.drop v.fmt)).1.present
        widthValue := (scanCount (f.drop v.fmt)).1.value env v.ap } } := by
  unfold formatFlagsWidth
  rw [formatNumber_scan]

theorem formatPrecision_scan (v : Vformat) : formatPrecision env f v =
    { v with
      fmt := v.fmt + (precisionText (scanPrecision (f.drop v.fmt)).1).length
      ap := v.ap + (scanPrecision (f.drop v.fmt)).1.elim 0 Count.stars
      flags := applyPrecision env v.ap (scanPrecision (f.drop v.fmt)).1 v.flags } := by
  unfold formatPrecision scanPrecision
  by_cases h : charAt f v.fmt = ch '.'
  · rw [if_pos h, if_pos ((head_iff (by decide) _).2 h), formatNumber_scan, List.tail_drop]
    simp [precisionText, applyPrecision, Nat.add_assoc, Nat.add_comm 1]
  · rw [if_neg h, if_neg (mt (head_iff (by decide) _).1 h)]
    rfl

theorem formatLength_scan (v : Vformat) : formatLength f v =
    { v with
      fmt := v.fmt + (lengthText (scanLength (f.drop v.fmt)).1).length
      flags := applyLength (scanLength (f.drop v.fmt)).1 v.flags } := by
  unfold formatLength scanLength
  simp only [head_iff (show ch 'h' ≠ 0 by decide), head_iff (show ch 'l' ≠ 0 by decide),
    head_iff (show ch 'j' ≠ 0 by decide), head_iff (show ch 'z' ≠ 0 by decide),
    head_iff (show ch 't' ≠ 0 by decide), next_head_iff (show ch 'h' ≠ 0 by decide),
    next_head_iff (show ch 'l' ≠ 0 by decide)]
  split_ifs <;> rfl

theorem drop_text {i : ℕ} {text rest : List Byte} (h : text ++ rest = f.drop i) :
    f.drop (i + text.length) = rest := by
  rw [← List.drop_drop, ← h, List.drop_left]

/-- Text that starts with no flag. -/
def NoFlag (s : List Byte) : Prop := s.takeWhile isFlag = []

theorem NoFlag.drop {s : List Byte} (h : NoFlag s) : s.dropWhile isFlag = s := by
  have hs := List.takeWhile_append_dropWhile (p := isFlag) (l := s)
  rwa [h, List.nil_append] at hs

theorem scan_flags {flags s : List Byte} (hflags : ∀ c ∈ flags, isFlag c = true) (h : NoFlag s) :
    (flags ++ s).takeWhile isFlag = flags ∧ (flags ++ s).dropWhile isFlag = s := by
  constructor
  · rw [List.takeWhile_append_of_pos hflags, h, List.append_nil]
  · rw [List.dropWhile_append_of_pos hflags, h.drop]

theorem scanHead_flags {flags s : List Byte} (hflags : ∀ c ∈ flags, isFlag c = true)
    (h : NoFlag s) :
    scanHead (flags ++ s) = ({ (scanHead s).1 with flags := flags }, (scanHead s).2) := by
  obtain ⟨htake, hdrop⟩ := scan_flags hflags h
  unfold scanHead
  rw [htake, hdrop, h.drop]

theorem directive_scan (v : Vformat) (h : NoFlag (f.drop v.fmt)) :
    formatLength f (formatPrecision env f (formatFlagsWidth env f v)) =
      { v with
        fmt := v.fmt + (scanHead (f.drop v.fmt)).1.tail.length
        ap := v.ap + (scanHead (f.drop v.fmt)).1.stars
        flags := numberFlags env v.ap (scanHead (f.drop v.fmt)).1 v.flags } := by
  have hwidth := drop_text (scanCount_text (f.drop v.fmt))
  rw [formatFlagsWidth_scan, formatPrecision_scan, formatLength_scan]
  dsimp only
  rw [hwidth]
  have hprecision := drop_text ((scanPrecision_text _).trans hwidth.symm)
  rw [hprecision]
  unfold scanHead DirectiveHead.tail DirectiveHead.stars numberFlags
  rw [h.drop]
  simp only [List.length_append, Nat.add_assoc]

end Scan

end DepthOS
