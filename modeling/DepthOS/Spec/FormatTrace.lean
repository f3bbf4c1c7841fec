import DepthOS.Spec.Format

/-! `vformat` with the place of what it puts out, and the directives of a format string. A chunk
is one call of the output function: bytes at an index of the format, which may be the one in
front of it, or bytes of something else. -/

namespace DepthOS

open Lib

inductive Chunk where
  | format (start : ℤ) (sz : ℕ)
  | data (piece : Piece)

/-- The byte at an index of the format. -/
def formatByte (env : FormatEnv) (f : List Byte) (i : ℤ) : Byte :=
  if i < 0 then env.before else charAt f i.toNat

def Chunk.piece (env : FormatEnv) (f : List Byte) : Chunk → Piece
  | .format start sz => (List.range sz).map fun k : ℕ => formatByte env f (start + k)
  | .data piece => piece

def isFlag (c : Byte) : Bool := ("#0 -+".toList.map ch).contains c

def isConversion (c : Byte) : Bool := ("diuoxpcs".toList.map ch).contains c

/-- The conversion at `fmt`; an unknown one is put out from `percent_start - 1` on. -/
def traceConversion (env : FormatEnv) (f : List Byte) (v : Vformat) :
    Option (Vformat × List Chunk) :=
  (formatConversion env f v).map fun r =>
    if isConversion (charAt f v.fmt) then (r.1, r.2.map .data)
    else
      let fmt := if charAt f v.fmt = 0 then v.fmt - 1 else v.fmt
      (r.1, [.format (v.percentStart - 1) (fmt + 2 - v.percentStart)])

def tracePercent (env : FormatEnv) (f : List Byte) (v : Vformat) :
    Option (Vformat × List Chunk) :=
  if charAt f v.fmt = ch '%' then
    (formatPercent env f v).map fun r => (r.1, [.format v.fmt 1])
  else if isFlag (charAt f v.fmt) then (formatPercent env f v).map fun r => (r.1, [])
  else
    traceConversion env f (formatLength f (formatPrecision env f (formatFlagsWidth env f v)))

/-- The loop, with the variables at its end. -/
def traceLoop (env : FormatEnv) (f : List Byte) : ℕ → Vformat → Option (Vformat × List Chunk)
  | 0, _ => none
  | fuel + 1, v =>
    if charAt f v.fmt = 0 then some (v, [])
    else
      match v.state with
      | .LITERAL =>
        let literal := literalAt f v.fmt
        let p := v.fmt + literal.length
        if charAt f p = ch '%' then do
          let (v', out) ← tracePercent env f
            { v with state := .PERCENT, fmt := p + 1, percentStart := p, flags := noFlags }
          let (last, rest) ← traceLoop env f fuel v'
          some (last, .format v.fmt literal.length :: out ++ rest)
        else
          some ({ v with state := .PERCENT, fmt := p, percentStart := p },
            [.format v.fmt literal.length])
      | .PERCENT => do
        let (v', out) ← tracePercent env f v
        let (last, rest) ← traceLoop env f fuel v'
        some (last, out ++ rest)

def vformatTrace (env : FormatEnv) (f : List Byte) : Option (Vformat × List Chunk) :=
  traceLoop env f (f.length + 1) ⟨.LITERAL, 0, 0, noFlags, env.ui, env.si, 0⟩

/-! Format strings by their grammar. -/

/-- A width or a precision; no digits is none. -/
inductive Count where
  | star
  | digits (ds : List Byte)

def Count.text : Count → List Byte
  | .star => [ch '*']
  | .digits ds => ds

/-- The arguments it takes. -/
def Count.stars : Count → ℕ
  | .star => 1
  | .digits _ => 0

def lengthText : FormatLength → List Byte
  | .LENGTH_DEFAULT => []
  | .LENGTH_CHAR => [ch 'h', ch 'h']
  | .LENGTH_SHORT => [ch 'h']
  | .LENGTH_LONG => [ch 'l']
  | .LENGTH_LONG_LONG => [ch 'l', ch 'l']
  | .LENGTH_INTMAX_T => [ch 'j']
  | .LENGTH_SIZE_T => [ch 'z']
  | .LENGTH_PTRDIFF_T => [ch 't']

/-- `[flags][width][.precision][length]` -/
structure DirectiveHead where
  flags : List Byte
  width : Count
  precision : Option Count
  length : FormatLength

def precisionText : Option Count → List Byte
  | none => []
  | some count => ch '.' :: count.text

/-- What follows the flags. -/
def DirectiveHead.tail (head : DirectiveHead) : List Byte :=
  head.width.text ++ precisionText head.precision ++ lengthText head.length

def DirectiveHead.text (head : DirectiveHead) : List Byte := head.flags ++ head.tail

def DirectiveHead.stars (head : DirectiveHead) : ℕ :=
  head.width.stars + head.precision.elim 0 Count.stars

inductive FormatItem where
  | literal (b : Byte)
  /-- `%%`, or with flags between -/
  | percent (flags : List Byte)
  | directive (head : DirectiveHead) (conv : Byte)
  /-- a directive that the string ends in -/
  | cut (head : DirectiveHead)

def FormatItem.text : FormatItem → List Byte
  | .literal b => [b]
  | .percent flags => ch '%' :: flags ++ [ch '%']
  | .directive head conv => ch '%' :: head.text ++ [conv]
  | .cut head => ch '%' :: head.text

def itemsText (items : List FormatItem) : List Byte := items.flatMap FormatItem.text

def scanCount (s : List Byte) : Count × List Byte :=
  if s.head? = some (ch '*') then (.star, s.tail)
  else (.digits (s.takeWhile isDigit), s.dropWhile isDigit)

def scanPrecision (s : List Byte) : Option Count × List Byte :=
  if s.head? = some (ch '.') then (some (scanCount s.tail).1, (scanCount s.tail).2) else (none, s)

def scanLength (s : List Byte) : FormatLength × List Byte :=
  if s.head? = some (ch 'h') then
    if s.tail.head? = some (ch 'h') then (.LENGTH_CHAR, s.drop 2) else (.LENGTH_SHORT, s.drop 1)
  else if s.head? = some (ch 'l') then
    if s.tail.head? = some (ch 'l') then (.LENGTH_LONG_LONG, s.drop 2) else (.LENGTH_LONG, s.drop 1)
  else if s.head? = some (ch 'j') then (.LENGTH_INTMAX_T, s.drop 1)
  else if s.head? = some (ch 'z') then (.LENGTH_SIZE_T, s.drop 1)
  else if s.head? = some (ch 't') then (.LENGTH_PTRDIFF_T, s.drop 1)
  else (.LENGTH_DEFAULT, s)

/-- The head of the directive behind a `%`, and what follows it. -/
def scanHead (s : List Byte) : DirectiveHead × List Byte :=
  let width := scanCount (s.dropWhile isFlag)
  let precision := scanPrecision width.2
  let length := scanLength precision.2
  (⟨s.takeWhile isFlag, width.1, precision.1, length.1⟩, length.2)

def formatItemsLoop : ℕ → List Byte → List FormatItem
  | 0, _ => []
  | _, [] => []
  | fuel + 1, b :: s =>
    if b ≠ ch '%' then .literal b :: formatItemsLoop fuel s
    else if (s.dropWhile isFlag).head? = some (ch '%') then
      .percent (s.takeWhile isFlag) :: formatItemsLoop fuel (s.dropWhile isFlag).tail
    else
      match (scanHead s).2 with
      | [] => [.cut (scanHead s).1]
      | conv :: rest => .directive (scanHead s).1 conv :: formatItemsLoop fuel rest

/-- The items of a format, each as long as can be. -/
def formatItems (f : List Byte) : List FormatItem := formatItemsLoop f.length f

end DepthOS
