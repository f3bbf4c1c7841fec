import DepthOS.Lib.Run
import DepthOS.Spec.Basic

/-! The text console of `io/console.c`: the cursor, the cells of video memory, and the
calls that move the one and write the other. The ports that the hardware cursor is set
through are left out. -/

namespace DepthOS

open Lib

abbrev CONSOLE_IOCTL_CLEAR : ℕ := 1
abbrev CONSOLE_IOCTL_MOVECURSOR : ℕ := 2

/-- `strs_len` and `strs_count` are those of real screens: their product, an `int` in the code, is
not wrapped. -/
structure Console where
  strsLen : ℤ
  strsCount : ℤ
  dbcolor : ℕ
  dfcolor : ℕ
  cursorx : ℤ
  cursory : ℤ
  videoMemory : ℤ → ℕ
  /-- indices of the cells written so far, last first -/
  written : List ℤ

def Console.store (s : Console) (i : ℤ) (cell : ℕ) : Console :=
  { s with videoMemory := Function.update s.videoMemory i cell, written := i :: s.written }

/-- `n` cells from `i` on, where `cell` may look at those before. -/
def Console.storeAll (s : Console) (i : ℤ) (n : ℕ) (cell : Console → ℤ → ℕ) : Console :=
  (List.range n).foldl (fun s (k : ℕ) => s.store (i + k) (cell s (i + k))) s

/-- `(dbcolor << 4) | (dfcolor & 0x0F)` -/
def Console.color (s : Console) : ℕ := (s.dbcolor <<< 4 ||| s.dfcolor &&& 15) % 256

/-- A blank in the console's colours. -/
def Console.blank (s : Console) : ℕ := 32 ||| s.color <<< 8

def consoleMovec (s : Console) (x y : ℤ) : Console :=
  let s := if int32 (s.cursorx + x) ≥ 0 then { s with cursorx := int32 (s.cursorx + x) } else s
  if int32 (s.cursory + y) ≥ 0 then { s with cursory := int32 (s.cursory + y) } else s

def consoleClear (s : Console) : Console :=
  let s := s.storeAll 0 (s.strsLen * s.strsCount).toNat fun _ _ => s.blank
  { s with cursorx := 0, cursory := 0 }

/-- Below the last row everything moves up by one. -/
def consoleFlushs (s : Console) : Console :=
  if s.cursory ≥ s.strsCount then
    let last := (s.strsCount - 1) * s.strsLen
    let s := s.storeAll 0 last.toNat fun s i => s.videoMemory (i + s.strsLen)
    let s := s.storeAll last (s.strsCount * s.strsLen - last).toNat fun s _ => s.blank
    { s with cursory := s.strsCount - 1 }
  else s

/-- The characters that only move the cursor; `x & ~7` takes off the remainder by 8. -/
def moveFor (s : Console) (c : Byte) : Console :=
  if c = 0x08 ∧ s.cursorx ≠ 0 then { s with cursorx := s.cursorx - 1 }
  else if c = 0x09 then { s with cursorx := s.cursorx + 8 - (s.cursorx + 8) % 8 }
  else if c = 0x0d then { s with cursorx := 0 }
  else if c = 0x0a then { s with cursorx := 0, cursory := s.cursory + 1 }
  else s

def printAt (s : Console) (c : Byte) (a : ℕ) : Console :=
  if c.toNat ≥ 32 then
    { s.store (s.cursory * s.strsLen + s.cursorx) (c.toNat ||| a <<< 8) with
      cursorx := s.cursorx + 1 }
  else s

/-- With fuel for the depth of the recursion, which a screen of one column has no end of. -/
def consolePutchara : ℕ → Console → Byte → ℕ → Option Console
  | 0, _, _, _ => none
  | fuel + 1, s, c, a =>
    let s := moveFor s c
    if c = 0x1b then do
      let s ← consolePutchara fuel s 0x5e a
      consolePutchara fuel s 0x5b a
    else
      let s := printAt s c a
      if s.cursorx ≥ s.strsLen ∨ s.cursorx = s.strsLen - 1 then
        (consolePutchara fuel s 0x0a s.color).map consoleFlushs
      else some (consoleFlushs s)

/-- Three calls are as deep as it goes on two columns or more. -/
def consolePutchar (s : Console) (c : Byte) : Option Console := consolePutchara 3 s c s.color

def consoledevIoctl (s : Console) (request : ℕ) (dx dy : ℤ) : Console :=
  if request = CONSOLE_IOCTL_CLEAR then consoleClear s
  else if request = CONSOLE_IOCTL_MOVECURSOR then consoleMovec s dx dy
  else s

inductive ConsoleEvent where
  | putchara (c : Byte) (a : ℕ)
  | clear
  | ioctl (request : ℕ) (dx dy : ℤ)

/-- Three calls are as deep as `console_putchara` goes on two columns or more. -/
def ConsoleStep (s : Console) (e : ConsoleEvent) (s' : Console) : Prop :=
  match e with
  | .putchara c a => consolePutchara 3 s c a = some s'
  | .clear => consoleClear s = s'
  | .ioctl request dx dy => consoledevIoctl s request dx dy = s'

end DepthOS
