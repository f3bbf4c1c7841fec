import DepthOS.Spec.Format
import DepthOS.Spec.Pipe

/-! The input side of `kernel/tty.c`: what the keyboard handler puts into `tty_buffer` and what
`tty_read` takes out of it. The echo on the console is left out. -/

namespace DepthOS

open Lib

abbrev TTY_BUFFER_SIZE : ℕ := 100

abbrev KEYBOARD_MODIFIER_SHIFT : ℕ := 0x4
abbrev KEYBOARD_MODIFIER_CAPSLOCK : ℕ := 0x8

/-- The strings of `KEYCODES` in their order; a key code is an index. -/
def keycodes : List String :=
  ["Unknown", " ", "0", "1", "2", "3", "4", "5", "6", "7", "8", "9", "a", "b", "c", "d", "e",
    "f", "g", "h", "i", "j", "k", "l", "m", "n", "o", "p", "q", "r", "s", "t", "u", "v", "w",
    "x", "y", "z", ".", ",", ":", ";", "/", "\\", "+", "-", "*", "!", "?", "\"", "\x27", "=",
    "#", "%", "&", "_", "(", ")", "[", "]", "\x7b", "\x7d", "$", "$", "$", "<", ">", "|", "\x60",
    "~", "@", "^", "\n", "\x1b", "\x08", "\r", "\x1b[1A", "\x1b[1B", "\x1b[1C", "\x1b[1D", "F1",
    "F2", "F3", "F4", "F5", "F6", "F7", "F8", "F9", "F10", "F11", "F12", "F13", "F14", "F15",
    "Numpad0", "Numpad1", "Numpad2", "Numpad3", "Numpad4", "Numpad5", "Numpad6", "Numpad7",
    "Numpad8", "Numpad9", "Numpad +", "Numpad -", "Numpad .", "Numpad /", "Numpad *", "NumLock",
    "Enter", "\t", "CapsLock", "Shift", "Ctrl", "Alt", "System", "RShift", "RCtrl", "RAlt",
    "RSystem", "Insert", "Delete", "Home", "End", "PageUp", "PageDown", "ScrollLock", "Pause"]

abbrev KEY_KP_8 : ℕ := 103

def keycodeToString (keycode : ℕ) : List Byte := (keycodes.getD keycode "").toList.map ch

structure KeyboardEvent where
  keycode : ℕ
  pressed : Bool
  modifiers : ℕ

def shiftKeycode (event : KeyboardEvent) : Bool :=
  if (event.modifiers &&& KEYBOARD_MODIFIER_SHIFT = 0) ≠
      (event.modifiers &&& KEYBOARD_MODIFIER_CAPSLOCK = 0) then
    match keycodeToString event.keycode with
    | [c] => ch 'a' ≤ c ∧ c ≤ ch 'z'
    | _ => false
  else false

/-- The string a key stands for, in capitals where it is shifted. -/
def keyString (event : KeyboardEvent) : List Byte :=
  if event.keycode = KEY_KP_8 then "[[^".toList.map ch
  else
    let str := keycodeToString event.keycode
    if shiftKeycode event then str.modifyHead (· - 32) else str

/-- `tty_init` -/
def ttyInit (data : Mem) : Ringbuffer := ringbufferInit ⟨data, 1, TTY_BUFFER_SIZE, 0, 0, 0⟩ true

/-- One character pushed. -/
def ttyPush (rb : Ringbuffer) (c : Byte) : Ringbuffer := (ringbufferPush rb fun _ => c).2

/-- What `tty_keyboard_handler` leaves in `tty_buffer`. -/
def ttyKeyboardHandler (rb : Ringbuffer) (event : KeyboardEvent) : Ringbuffer :=
  if !event.pressed then rb else (keyString event).foldl ttyPush rb

/-- The part of `tty_read` from `read_more` on, with `r` bytes read; its waiting is over. -/
def ttyReadLoop : (nbytes r : ℕ) → Ringbuffer → Mem → ℕ × Ringbuffer × Mem
  | 0, r, rb, buffer => (r, rb, buffer)
  | nbytes + 1, r, rb, buffer =>
    match ringbufferPop rb with
    | (none, rb) => (r, rb, buffer)
    | (some rbe, rb) => ttyReadLoop nbytes (r + 1) rb (Function.update buffer r (rb.data rbe))

def ttyRead (rb : Ringbuffer) (buffer : Mem) (nbytes : ℕ) : ℕ × Ringbuffer × Mem :=
  ttyReadLoop nbytes 0 rb buffer

/-! Any sequence of pushes and pops. -/

inductive TtyEvent where
  | push (c : Byte)
  | pop

def TtyStep (rb : Ringbuffer) (e : TtyEvent) (rb' : Ringbuffer) : Prop :=
  match e with
  | .push c => rb' = ttyPush rb c
  | .pop => rb' = (ringbufferPop rb).2

def TtyRun : List TtyEvent → Ringbuffer → Prop := Run (fun rb => ∃ data, rb = ttyInit data) TtyStep

end DepthOS
