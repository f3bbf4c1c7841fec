import DepthOS.Spec.Tty

/-! Where the terminal's input comes from: `drivers/keyboard.c`, with the scan codes of the
keyboard, and the receive interrupt of `drivers/serial.c`. Both end in `tty_keyboard_handler`. -/

namespace DepthOS

open Lib

abbrev KEYBOARD_MODIFIER_CTRL : ℕ := 0x1
abbrev KEYBOARD_MODIFIER_ALT : ℕ := 0x2

/-- `keycode_t` -/
inductive Keycode where
  | KEY_UNKNOWN | KEY_SPACE | KEY_0 | KEY_1 | KEY_2 | KEY_3 | KEY_4 | KEY_5 | KEY_6 | KEY_7 | KEY_8
  | KEY_9 | KEY_A | KEY_B | KEY_C | KEY_D | KEY_E | KEY_F | KEY_G | KEY_H | KEY_I | KEY_J | KEY_K
  | KEY_L | KEY_M | KEY_N | KEY_O | KEY_P | KEY_Q | KEY_R | KEY_S | KEY_T | KEY_U | KEY_V | KEY_W
  | KEY_X | KEY_Y | KEY_Z | KEY_DOT | KEY_COMMA | KEY_COLON | KEY_SEMICOLON | KEY_SLASH
  | KEY_BACKSLASH | KEY_PLUS | KEY_MINUS | KEY_ASTERISK | KEY_EXCLAMATION | KEY_QUESTION
  | KEY_QUOTEDOUBLE | KEY_QUOTE | KEY_EQUAL | KEY_HASH | KEY_PERCENT | KEY_AMPERSAND
  | KEY_UNDERSCORE | KEY_LEFTPARENTHESIS | KEY_RIGHTPARENTHESIS | KEY_LEFTBRACKET | KEY_RIGHTBRACKET
  | KEY_LEFTCURL | KEY_RIGHTCURL | KEY_DOLLAR | KEY_POUND | KEY_EURO | KEY_LESS | KEY_GREATER
  | KEY_BAR | KEY_GRAVE | KEY_TILDE | KEY_AT | KEY_CARRET | KEY_RETURN | KEY_ESCAPE | KEY_BACKSPACE
  | KEY_CARRIAGE_RETURN | KEY_UP | KEY_DOWN | KEY_LEFT | KEY_RIGHT | KEY_F1 | KEY_F2 | KEY_F3
  | KEY_F4 | KEY_F5 | KEY_F6 | KEY_F7 | KEY_F8 | KEY_F9 | KEY_F10 | KEY_F11 | KEY_F12 | KEY_F13
  | KEY_F14 | KEY_F15 | KEY_KP_0 | KEY_KP_1 | KEY_KP_2 | KEY_KP_3 | KEY_KP_4 | KEY_KP_5 | KEY_KP_6
  | KEY_KP_7 | KEY_KP_8 | KEY_KP_9 | KEY_KP_PLUS | KEY_KP_MINUS | KEY_KP_DECIMAL | KEY_KP_DIVIDE
  | KEY_KP_ASTERISK | KEY_KP_NUMLOCK | KEY_KP_ENTER | KEY_TAB | KEY_CAPSLOCK | KEY_LSHIFT
  | KEY_LCTRL | KEY_LALT | KEY_LSYS | KEY_RSHIFT | KEY_RCTRL | KEY_RALT | KEY_RSYS | KEY_INSERT
  | KEY_DELETE | KEY_HOME | KEY_END | KEY_PAGEUP | KEY_PAGEDOWN | KEY_SCROLLLOCK | KEY_PAUSE
deriving DecidableEq

open Keycode

def scancodeSet1 : List Keycode :=
  [KEY_UNKNOWN, KEY_ESCAPE, KEY_1, KEY_2, KEY_3, KEY_4, KEY_5, KEY_6, KEY_7, KEY_8, KEY_9, KEY_0,
    KEY_MINUS, KEY_EQUAL, KEY_BACKSPACE, KEY_TAB, KEY_Q, KEY_W, KEY_E, KEY_R, KEY_T, KEY_Y, KEY_U,
    KEY_I, KEY_O, KEY_P, KEY_LEFTBRACKET, KEY_RIGHTBRACKET, KEY_RETURN, KEY_LCTRL, KEY_A, KEY_S,
    KEY_D, KEY_F, KEY_G, KEY_H, KEY_J, KEY_K, KEY_L, KEY_SEMICOLON, KEY_QUOTE, KEY_GRAVE,
    KEY_LSHIFT, KEY_BACKSLASH, KEY_Z, KEY_X, KEY_C, KEY_V, KEY_B, KEY_N, KEY_M, KEY_COMMA, KEY_DOT,
    KEY_SLASH, KEY_RSHIFT, KEY_KP_ASTERISK, KEY_RALT, KEY_SPACE, KEY_CAPSLOCK, KEY_F1, KEY_F2,
    KEY_F3, KEY_F4, KEY_F5, KEY_F6, KEY_F7, KEY_F8, KEY_F9, KEY_F10, KEY_KP_NUMLOCK, KEY_SCROLLLOCK,
    KEY_KP_7, .KEY_KP_8, KEY_KP_9, KEY_KP_MINUS, KEY_KP_4, KEY_KP_5, KEY_KP_6, KEY_KP_PLUS,
    KEY_KP_1, KEY_KP_2, KEY_KP_3, KEY_KP_0, KEY_KP_DECIMAL]

def scancodeSet1Shift : List Keycode :=
  [KEY_UNKNOWN, KEY_ESCAPE, KEY_EXCLAMATION, KEY_AT, KEY_HASH, KEY_DOLLAR, KEY_PERCENT, KEY_CARRET,
    KEY_AMPERSAND, KEY_ASTERISK, KEY_LEFTPARENTHESIS, KEY_RIGHTPARENTHESIS, KEY_UNDERSCORE,
    KEY_PLUS, KEY_BACKSPACE, KEY_TAB, KEY_Q, KEY_W, KEY_E, KEY_R, KEY_T, KEY_Y, KEY_U, KEY_I, KEY_O,
    KEY_P, KEY_LEFTCURL, KEY_RIGHTCURL, KEY_RETURN, KEY_LCTRL, KEY_A, KEY_S, KEY_D, KEY_F, KEY_G,
    KEY_H, KEY_J, KEY_K, KEY_L, KEY_COLON, KEY_QUOTEDOUBLE, KEY_TILDE, KEY_LSHIFT, KEY_BAR, KEY_Z,
    KEY_X, KEY_C, KEY_V, KEY_B, KEY_N, KEY_M, KEY_LESS, KEY_GREATER, KEY_QUESTION, KEY_RSHIFT,
    KEY_KP_ASTERISK, KEY_RALT, KEY_SPACE, KEY_CAPSLOCK, KEY_F1, KEY_F2, KEY_F3, KEY_F4, KEY_F5,
    KEY_F6, KEY_F7, KEY_F8, KEY_F9, KEY_F10, KEY_KP_NUMLOCK, KEY_SCROLLLOCK, KEY_HOME, .KEY_KP_8,
    KEY_PAGEUP, KEY_KP_2, KEY_KP_3, KEY_KP_0, KEY_KP_DECIMAL, KEY_UNKNOWN, KEY_UNKNOWN, KEY_UNKNOWN,
    KEY_F11, KEY_F12]

/-- `UPD_MODIFIER` -/
def updModifier (modifiers name : ℕ) (pressed : Bool) : ℕ :=
  if pressed then modifiers ||| name else modifiers &&& (255 - name)

/-- The new modifiers, and the event that the handler gets; `none` is a read behind the end of
the table. -/
def ps2KeyboardHandleScancode (modifiers payload : ℕ) : Option (ℕ × Option KeyboardEvent) :=
  let scancode := payload &&& 0x7f
  let pressed : Bool := payload &&& 0x80 = 0
  let set := if modifiers &&& KEYBOARD_MODIFIER_SHIFT ≠ 0 then scancodeSet1Shift else scancodeSet1
  match set[scancode]? with
  | none => none
  | some keycode =>
    match keycode with
    | KEY_LALT | KEY_RALT => some (updModifier modifiers KEYBOARD_MODIFIER_ALT pressed, none)
    | KEY_LCTRL | KEY_RCTRL => some (updModifier modifiers KEYBOARD_MODIFIER_CTRL pressed, none)
    | KEY_LSHIFT | KEY_RSHIFT => some (updModifier modifiers KEYBOARD_MODIFIER_SHIFT pressed, none)
    | KEY_CAPSLOCK =>
      some (if pressed then modifiers ^^^ KEYBOARD_MODIFIER_CAPSLOCK else modifiers, none)
    | keycode => some (modifiers, some ⟨keycode.ctorIdx, pressed, modifiers⟩)

/-- `MATCH_CHAR` -/
def matchChar (k : Keycode) (c : Char) : List (ℕ × Keycode) := [(c.toNat, k)]

/-- `MATCH_LETTER` -/
def matchLetter (k : Keycode) (c : Char) : List (ℕ × Keycode) :=
  [(c.toNat, k), (c.toNat + 32, k)]

def codepointCases : List (ℕ × Keycode) :=
  ([matchLetter KEY_A 'A', matchLetter KEY_B 'B', matchLetter KEY_C 'C', matchLetter KEY_D 'D',
    matchLetter KEY_E 'E', matchLetter KEY_F 'F', matchLetter KEY_G 'G', matchLetter KEY_H 'H',
    matchLetter KEY_I 'I', matchLetter KEY_J 'J', matchLetter KEY_K 'K', matchLetter KEY_L 'L',
    matchLetter KEY_M 'M', matchLetter KEY_N 'N', matchLetter KEY_O 'O', matchLetter KEY_P 'P',
    matchLetter KEY_Q 'Q', matchLetter KEY_R 'R', matchLetter KEY_S 'S', matchLetter KEY_T 'T',
    matchLetter KEY_U 'U', matchLetter KEY_V 'V', matchLetter KEY_W 'W', matchLetter KEY_X 'X',
    matchLetter KEY_Y 'Y', matchLetter KEY_Z 'Z', matchChar KEY_0 '0', matchChar KEY_1 '1',
    matchChar KEY_2 '2', matchChar KEY_3 '3', matchChar KEY_4 '4', matchChar KEY_5 '5',
    matchChar KEY_6 '6', matchChar KEY_7 '7', matchChar KEY_8 '8', matchChar KEY_9 '9',
    matchChar KEY_SPACE ' ', matchChar KEY_DOT '.', matchChar KEY_COMMA ',',
    matchChar KEY_COLON ':', matchChar KEY_SEMICOLON ';', matchChar KEY_SLASH '/',
    matchChar KEY_BACKSLASH '\x5c', matchChar KEY_PLUS '+', matchChar KEY_MINUS '-',
    matchChar KEY_ASTERISK '*', matchChar KEY_EXCLAMATION '!', matchChar KEY_QUESTION '?',
    matchChar KEY_QUOTEDOUBLE '\x22', matchChar KEY_QUOTE '\x27', matchChar KEY_EQUAL '=',
    matchChar KEY_HASH '#', matchChar KEY_PERCENT '%', matchChar KEY_AMPERSAND '&',
    matchChar KEY_UNDERSCORE '_', matchChar KEY_LEFTPARENTHESIS '(',
    matchChar KEY_RIGHTPARENTHESIS ')', matchChar KEY_LEFTBRACKET '[',
    matchChar KEY_RIGHTBRACKET ']', matchChar KEY_LEFTCURL '\x7b', matchChar KEY_RIGHTCURL '\x7d',
    matchChar KEY_DOLLAR '$', matchChar KEY_LESS '<', matchChar KEY_GREATER '>',
    matchChar KEY_BAR '|', matchChar KEY_GRAVE '\x60', matchChar KEY_TILDE '~',
    matchChar KEY_AT '@', matchChar KEY_CARRET '^', matchChar KEY_RETURN '\x0a',
    matchChar KEY_BACKSPACE '\x08', matchChar KEY_CARRIAGE_RETURN '\x0d']).flatten

def keycodeFromCodepoint (codepoint : ℕ) : Keycode :=
  (codepointCases.lookup codepoint).getD KEY_UNKNOWN

/-- The event that `serial_console_irq_handler` makes of the byte received. -/
def serialConsoleEvent (c : ℕ) : KeyboardEvent :=
  let keycode :=
    if c = 0x0d then KEY_RETURN
    else if c = 0x7f then KEY_BACKSPACE
    else keycodeFromCodepoint c
  ⟨keycode.ctorIdx, true, if 0x41 ≤ c ∧ c ≤ 0x5a then KEYBOARD_MODIFIER_SHIFT else 0⟩

/-! The terminal: its interrupts and the reads of it, in any order. -/

structure Terminal where
  modifiers : ℕ
  rb : Ringbuffer
  /-- bytes that reads have returned so far -/
  returned : List Byte

inductive TerminalEvent where
  | keyboard (payload : ℕ)
  | serial (c : ℕ)
  | read (buffer : Mem) (nbytes : ℕ)

/-- `keyboard_current_event_handler`, which `tty_init` has set. -/
def terminalKey (s : Terminal) (event : KeyboardEvent) : Terminal :=
  { s with rb := ttyKeyboardHandler s.rb event }

def TerminalStep (s : Terminal) (e : TerminalEvent) (s' : Terminal) : Prop :=
  match e with
  | .keyboard payload => ∃ modifiers event,
      ps2KeyboardHandleScancode s.modifiers payload = some (modifiers, event) ∧
      s' = { event.elim s (terminalKey s) with modifiers := modifiers }
  | .serial c => s' = terminalKey s (serialConsoleEvent c)
  | .read buffer nbytes =>
    let r := ttyRead s.rb buffer nbytes
    s' = { s with rb := r.2.1, returned := s.returned ++ bufBytes r.2.2 r.1 }

def TerminalBoot (s : Terminal) : Prop := ∃ data, s = ⟨0, ttyInit data, []⟩

/-- What a key event puts into the buffer. -/
def eventText (event : KeyboardEvent) : List Byte := if event.pressed then keyString event else []

/-- The modifiers after an event, and what it puts into the buffer; `none` is a scan code
behind the end of its table. -/
def terminalInput (modifiers : ℕ) : TerminalEvent → Option (ℕ × List Byte)
  | .keyboard payload => (ps2KeyboardHandleScancode modifiers payload).map fun r =>
      (r.1, (r.2.map eventText).getD [])
  | .serial c => some (modifiers, eventText (serialConsoleEvent c))
  | .read _ _ => some (modifiers, [])

def terminalText (modifiers : ℕ) : List TerminalEvent → Option (ℕ × List Byte)
  | [] => some (modifiers, [])
  | e :: evs =>
    match terminalInput modifiers e with
    | none => none
    | some (modifiers, text) =>
      (terminalText modifiers evs).map fun rest => (rest.1, text ++ rest.2)

end DepthOS
