import DepthOS.Spec.String

/-! `vformat` of `lib/vformat.c` and `vsnprintf` of `lib/stdio.c` over it. `vformat` hands
its output on in pieces; here it returns them in order. The format is its bytes, addressed
by index, and the buffer a memory of its own, which nothing that is read lies in. -/

namespace DepthOS

open Lib

def ch (c : Char) : Byte := BitVec.ofNat 8 c.toNat

inductive FormatSign where
  | SIGN_DEFAULT
  | SIGN_SPACE
  | SIGN_PLUS
deriving DecidableEq

inductive FormatLength where
  | LENGTH_DEFAULT
  | LENGTH_CHAR
  | LENGTH_SHORT
  | LENGTH_LONG
  | LENGTH_LONG_LONG
  | LENGTH_INTMAX_T
  | LENGTH_SIZE_T
  | LENGTH_PTRDIFF_T
deriving DecidableEq

/-- `struct vformat_flags` -/
structure VformatFlags where
  alternate : Bool
  padding : Bool
  left : Bool
  width : Bool
  precision : Bool
  signedValue : Bool
  paddingValue : Byte
  widthValue : ℤ
  precisionValue : ℤ
  length : FormatLength
  sign : FormatSign
  radix : ℕ

def noFlags : VformatFlags :=
  ⟨false, false, false, false, false, false, 0, 0, 0, .LENGTH_DEFAULT, .SIGN_DEFAULT, 0⟩

/-- What is passed to the output function in one call. -/
abbrev Piece : Type := List Byte

/-- What a call finds in memory. -/
structure FormatEnv where
  mem : Mem
  /-- the words from the first argument on -/
  args : ℕ → BitVec 32
  /-- the byte in front of the format -/
  before : Byte
  /-- where the literal `"(null)"` stands -/
  nullString : ℕ
  null_holds : HoldsStr mem nullString ("(null)".toList.map ch)
  /-- every string in memory ends -/
  fuel : ℕ
  ends : ∀ a, ∃ n < fuel, mem (a + n) = 0
  /-- what `ui` and `si` hold before they are set -/
  ui : BitVec 32
  si : BitVec 32

/-- The loop of `output_copy`; `fuel` is at least `n`. -/
def outputCopyLoop (c : Byte) : (fuel n : ℕ) → List Piece
  | 0, _ => []
  | fuel + 1, n =>
    if n > 0 then
      let w := if n < 64 then n else 64
      List.replicate w c :: outputCopyLoop c fuel (n - w)
    else []

def outputCopy (c : Byte) (n : ℕ) : List Piece := outputCopyLoop c n n

/-- `"0123456789abcdef"[n]` -/
def hexDigit (n : ℕ) : Byte := ch ("0123456789abcdef".toList.getD n '0')

/-- The digits in front of `c`, filled from the end; the array has room for 32. -/
def formatIntLoop (base : ℕ) : (fuel v : ℕ) → (c : Piece) → Piece
  | 0, _, c => c
  | fuel + 1, v, c =>
    if v > 0 then formatIntLoop base fuel (v / base) (hexDigit (v % base) :: c) else c

/-- `format_int`; what it returns is the length. -/
def formatInt (v : BitVec 32) (base : ℕ) : Piece :=
  if v = 0 ∨ base < 2 ∨ base > 16 then [ch '0'] else formatIntLoop base 32 v.toNat []

/-- Blanks, zeros or nothing, as `if (w) output_copy(output, context, c, w)`. -/
def outputPad (c : Byte) (w : ℤ) : List Piece := if w ≠ 0 then outputCopy c (sizeT w) else []

def formatRichInt (v : BitVec 32) (flags : VformatFlags) : List Piece :=
  let neg := flags.signedValue ∧ v.toInt < 0
  let sw : ℤ := if flags.signedValue ∧ (flags.sign ≠ .SIGN_DEFAULT ∨ v.toInt < 0) then 1 else 0
  let aw : ℤ :=
    if flags.alternate then
      if flags.radix = 8 ∧ v ≠ 0 then 1 else if flags.radix = 16 then 2 else 0
    else 0
  let empty := flags.precision ∧ flags.precisionValue = 0 ∧ v = 0
  let vw : ℤ :=
    if empty then 0
    else if neg then (formatInt (-v) flags.radix).length
    else (formatInt v flags.radix).length
  let w1 : ℤ := if ¬ empty ∧ flags.precisionValue > vw then flags.precisionValue - vw else 0
  let sum := int32 (sw + aw + w1 + vw)
  let dw := int32 (flags.widthValue - sum)
  let (w0, w1, w2) : ℤ × ℤ × ℤ :=
    if flags.width ∧ sum < flags.widthValue then
      if flags.left then (0, w1, dw)
      else if flags.precision ∨ flags.paddingValue = ch ' ' then (dw, w1, 0)
      else (0, dw, 0)
    else (0, w1, 0)
  let signPiece : List Piece :=
    if flags.signedValue then
      if v.toInt < 0 then [[ch '-']]
      else if flags.sign ≠ .SIGN_DEFAULT then
        [[if flags.sign = .SIGN_PLUS then ch '+' else ch ' ']]
      else []
    else []
  let v := if neg then -v else v
  let radixPiece : List Piece :=
    if flags.alternate then
      if flags.radix = 8 ∧ v ≠ 0 then [[ch '0']]
      else if flags.radix = 16 then [[ch '0', ch 'x']] else []
    else []
  outputPad (ch ' ') w0 ++ signPiece ++ radixPiece ++ outputPad (ch '0') w1 ++
    [formatInt v flags.radix] ++ outputPad (ch ' ') w2

/-- `format_string` of the bytes `p`. -/
def formatString (p : ℕ → Byte) (flags : VformatFlags) : List Piece :=
  let (w0, w1) : ℤ × ℤ :=
    if flags.width ∧ flags.widthValue > flags.precisionValue then
      let dw := int32 (flags.widthValue - flags.precisionValue)
      if flags.left then (0, dw) else (dw, 0)
    else (0, 0)
  outputPad (ch ' ') w0 ++ [(List.range (sizeT flags.precisionValue)).map p] ++
    outputPad (ch ' ') w1

/-- Where `memchr` stops, counted from `s`; `none` is NULL. -/
def memchr (m : Mem) (c : Byte) : (n s : ℕ) → Option ℕ
  | 0, _ => none
  | n + 1, s => if m s = c then some 0 else (memchr m c n (s + 1)).map (· + 1)

/-! The state machine. Only `LITERAL` and `PERCENT` are left at the end of a round; the
states after them follow one another within a round. -/

inductive FormatState where
  | LITERAL
  | PERCENT
deriving DecidableEq

/-- The variables of `vformat`; `fmt` and `percentStart` are indices, `ap` counts arguments. -/
structure Vformat where
  state : FormatState
  fmt : ℕ
  percentStart : ℕ
  flags : VformatFlags
  ui : BitVec 32
  si : BitVec 32
  ap : ℕ

/-- `*fmt`, which is NUL at the end. -/
def charAt (f : List Byte) (i : ℕ) : Byte := f.getD i 0

def isDigit (b : Byte) : Bool := ch '0' ≤ b ∧ b ≤ ch '9'

/-- `fetch_int`: where the digits end, and their value. -/
def fetchInt (f : List Byte) (start : ℕ) : ℕ × ℤ :=
  let digits := (f.drop start).takeWhile isDigit
  (start + digits.length, digits.foldl (fun v b => int32 (v * 10 + (b.toNat - (ch '0').toNat))) 0)

/-- A width or a precision: whether it is there, its value, and what follows it. -/
def formatNumber (env : FormatEnv) (f : List Byte) (v : Vformat) : Bool × ℤ × Vformat :=
  if charAt f v.fmt = ch '*' then
    (true, (env.args v.ap).toInt, { v with fmt := v.fmt + 1, ap := v.ap + 1 })
  else
    let (p, n) := fetchInt f v.fmt
    (p ≠ v.fmt, n, { v with fmt := p })

def formatFlagsWidth (env : FormatEnv) (f : List Byte) (v : Vformat) : Vformat :=
  let (width, n, v) := formatNumber env f v
  { v with flags := { v.flags with width := width, widthValue := n } }

def formatPrecision (env : FormatEnv) (f : List Byte) (v : Vformat) : Vformat :=
  if charAt f v.fmt = ch '.' then
    let (precision, n, v) := formatNumber env f { v with fmt := v.fmt + 1 }
    { v with flags := { v.flags with precision := precision, precisionValue := n } }
  else v

def formatLength (f : List Byte) (v : Vformat) : Vformat :=
  let set (n : ℕ) (length : FormatLength) : Vformat :=
    { v with fmt := v.fmt + n, flags := { v.flags with length := length } }
  let c := charAt f v.fmt
  let next := charAt f (v.fmt + 1)
  if c = ch 'h' then if next = ch 'h' then set 2 .LENGTH_CHAR else set 1 .LENGTH_SHORT
  else if c = ch 'l' then if next = ch 'l' then set 2 .LENGTH_LONG_LONG else set 1 .LENGTH_LONG
  else if c = ch 'j' then set 1 .LENGTH_INTMAX_T
  else if c = ch 'z' then set 1 .LENGTH_SIZE_T
  else if c = ch 't' then set 1 .LENGTH_PTRDIFF_T
  else v

/-- `va_arg` of a signed integer; some lengths leave `si` as it is. -/
def formatSi (env : FormatEnv) (v : Vformat) : Vformat :=
  match v.flags.length with
  | .LENGTH_CHAR | .LENGTH_SHORT | .LENGTH_DEFAULT | .LENGTH_LONG | .LENGTH_SIZE_T =>
    { v with si := env.args v.ap, ap := v.ap + 1 }
  | .LENGTH_LONG_LONG => { v with si := env.args v.ap, ap := v.ap + 2 }
  | .LENGTH_INTMAX_T | .LENGTH_PTRDIFF_T => v

/-- The same for an unsigned one, where the short lengths do it too. -/
def formatUi (env : FormatEnv) (v : Vformat) : Vformat :=
  match v.flags.length with
  | .LENGTH_DEFAULT | .LENGTH_LONG | .LENGTH_SIZE_T =>
    { v with ui := env.args v.ap, ap := v.ap + 1 }
  | .LENGTH_LONG_LONG => { v with ui := env.args v.ap, ap := v.ap + 2 }
  | .LENGTH_CHAR | .LENGTH_SHORT | .LENGTH_INTMAX_T | .LENGTH_PTRDIFF_T => v

/-- `%s` of the string at `pchar`. -/
def formatChars (env : FormatEnv) (pchar : ℕ) (flags : VformatFlags) : Option (List Piece) :=
  if pchar = 0 then
    if flags.precision ∧ sizeT flags.precisionValue ≥ 7 then
      some (formatString (fun k => env.mem (env.nullString + k)) flags)
    else if ¬ flags.precision then
      some (formatString (fun k => env.mem (env.nullString + k)) { flags with precisionValue := 6 })
    else some (formatString env.mem flags)
  else if flags.precision then
    match memchr env.mem 0 (sizeT flags.precisionValue) pchar with
    | some n =>
      some (formatString (fun k => env.mem (pchar + k)) { flags with precisionValue := int32 n })
    | none => some (formatString (fun k => env.mem (pchar + k)) flags)
  else
    (strlen env.fuel env.mem pchar).map fun (n : ℕ) =>
      formatString (fun k => env.mem (pchar + k)) { flags with precisionValue := int32 n }

/-- The bytes from the one before the `%` up to `fmt`. -/
def formatUnknown (env : FormatEnv) (f : List Byte) (percentStart fmt : ℕ) : Piece :=
  (List.range (fmt + 2 - percentStart)).map fun k =>
    if percentStart + k = 0 then env.before else charAt f (percentStart + k - 1)

/-- Zeros do not pad on the right. -/
def paddingFlags (flags : VformatFlags) : VformatFlags :=
  let flags := if flags.left ∧ flags.padding then { flags with padding := false } else flags
  if ¬ flags.padding then { flags with paddingValue := ch ' ' } else flags

/-- The conversion at `fmt`. -/
def formatConversion (env : FormatEnv) (f : List Byte) (v : Vformat) :
    Option (Vformat × List Piece) :=
  let flags := paddingFlags v.flags
  let v := { v with flags := flags }
  let c := charAt f v.fmt
  let next (v : Vformat) : Vformat := { v with fmt := v.fmt + 1, state := .LITERAL }
  if c = ch 'd' ∨ c = ch 'i' then
    let v := formatSi env v
    let flags := { flags with signedValue := true, radix := 10 }
    some (next { v with flags := flags }, formatRichInt v.si flags)
  else if c = ch 'u' ∨ c = ch 'o' ∨ c = ch 'x' then
    let v := formatUi env v
    let flags :=
      { flags with radix := if c = ch 'u' then 10 else if c = ch 'o' then 8 else 16 }
    some (next { v with flags := flags }, formatRichInt v.ui flags)
  else if c = ch 'p' then
    let flags := { flags with alternate := true, radix := 16 }
    some (next { v with flags := flags, ap := v.ap + 1 }, formatRichInt (env.args v.ap) flags)
  else if c = ch 'c' then
    let flags := { flags with precision := true, precisionValue := 1 }
    some (next { v with flags := flags, ap := v.ap + 1 },
      formatString (fun _ => (env.args v.ap).setWidth 8) flags)
  else if c = ch 's' then
    (formatChars env (env.args v.ap).toNat flags).map fun out =>
      (next { v with ap := v.ap + 1 }, out)
  else if c = 0 then
    -- `fmt` goes back and forth, and the NUL ends the loop
    some ({ v with state := .LITERAL }, [formatUnknown env f v.percentStart (v.fmt - 1)])
  else some (next v, [formatUnknown env f v.percentStart v.fmt])

/-- The round from `PERCENT` on. -/
def formatPercent (env : FormatEnv) (f : List Byte) (v : Vformat) :
    Option (Vformat × List Piece) :=
  let c := charAt f v.fmt
  let flag (flags : VformatFlags) : Option (Vformat × List Piece) :=
    some ({ v with fmt := v.fmt + 1, flags := flags, state := .PERCENT }, [])
  if c = ch '%' then some ({ v with fmt := v.fmt + 1, state := .LITERAL }, [[ch '%']])
  else if c = ch '#' then flag { v.flags with alternate := true }
  else if c = ch '0' then flag { v.flags with paddingValue := ch '0', padding := true }
  else if c = ch ' ' then
    flag (if v.flags.sign = .SIGN_DEFAULT then { v.flags with sign := .SIGN_SPACE } else v.flags)
  else if c = ch '-' then flag { v.flags with left := true }
  else if c = ch '+' then flag { v.flags with sign := .SIGN_PLUS }
  else
    formatConversion env f (formatLength f (formatPrecision env f (formatFlagsWidth env f v)))

/-- The literal bytes up to the next `%`. -/
def literalAt (f : List Byte) (i : ℕ) : Piece :=
  (f.drop i).takeWhile fun b => b ≠ 0 ∧ b ≠ ch '%'

/-- The loop of `vformat`. -/
def vformatLoop (env : FormatEnv) (f : List Byte) : ℕ → Vformat → Option (List Piece)
  | 0, _ => none
  | fuel + 1, v =>
    if charAt f v.fmt = 0 then some []
    else
      match v.state with
      | .LITERAL =>
        let literal := literalAt f v.fmt
        let p := v.fmt + literal.length
        if charAt f p = ch '%' then do
          let (v, out) ← formatPercent env f
            { v with state := .PERCENT, fmt := p + 1, percentStart := p, flags := noFlags }
          let rest ← vformatLoop env f fuel v
          some (literal :: out ++ rest)
        else some [literal]
      | .PERCENT => do
        let (v, out) ← formatPercent env f v
        let rest ← vformatLoop env f fuel v
        some (out ++ rest)

/-- Every round reads a byte of the format. -/
def vformat (env : FormatEnv) (f : List Byte) : Option (List Piece) :=
  vformatLoop env f (f.length + 1) ⟨.LITERAL, 0, 0, noFlags, env.ui, env.si, 0⟩

/-! `lib/stdio.c` -/

/-- `struct str_output_context`, with `str` counted from the start of the buffer. -/
structure StrOutputContext where
  str : ℕ
  limit : ℕ
  buf : Mem

def outputStr (context : StrOutputContext) (data : Piece) : StrOutputContext :=
  let sz := data.length
  let context :=
    if context.limit ≤ 1 then context
    else if context.limit < sz then
      { context with
        buf := blit context.buf context.str (data.getD · 0) (context.limit - 1)
        limit := 1 }
    else
      { context with
        buf := blit context.buf context.str (data.getD · 0) sz
        limit := context.limit - sz }
  { context with str := context.str + sz }

/-- Returns the buffer and the value returned. -/
def vsnprintf (env : FormatEnv) (str : Mem) (size : ℕ) (f : List Byte) : Option (Mem × ℤ) :=
  (vformat env f).map fun pieces =>
    let context := pieces.foldl outputStr ⟨0, size, str⟩
    (if size ≠ 0 then Function.update context.buf (size - context.limit) 0 else context.buf,
      int32 context.str)

end DepthOS
