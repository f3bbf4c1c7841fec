import DepthOS.Proofs.Pipe
import DepthOS.Spec.Keyboard

/-! Terminal input from end to end: what is typed on the keyboard, or sent over the serial
line, comes back from reads in order, byte for byte, as long as nobody types into a full
buffer. -/

namespace DepthOS

open Lib

variable {rb : Ringbuffer}

/-! The buffer. -/

theorem ttyInit_ring (data : Mem) : ByteRing TTY_BUFFER_SIZE (ttyInit data) ∧
    ringBytes (ttyInit data) = [] := by
  have h : (ttyInit data).elemSize = 1 ∧ (ttyInit data).maxSize = 100 := ⟨rfl, rfl⟩
  refine ⟨⟨⟨?_, ?_, ?_, ?_, ?_⟩, h.1, h.2⟩, rfl⟩
  · rw [h.1]
  · rw [h.2]
    decide
  · rw [h.2]
    exact Nat.zero_lt_succ _
  · exact Nat.zero_le _
  · rfl

theorem ttyPush_bytes (h : ByteRing TTY_BUFFER_SIZE rb) (hroom : rb.size < TTY_BUFFER_SIZE)
    (c : Byte) : ByteRing TTY_BUFFER_SIZE (ttyPush rb c) ∧ (ttyPush rb c).size = rb.size + 1 ∧
    ringBytes (ttyPush rb c) = ringBytes rb ++ [c] := by
  rw [← h.cap_eq] at hroom
  obtain ⟨hinv, hcont⟩ := push_spec h.inv hroom fun _ => c
  refine ⟨⟨hinv, h.elem, h.cap_eq⟩, push_size h.inv hroom _, ?_⟩
  rw [ringBytes, ttyPush, hcont, List.flatten_append, h.elem]
  rfl

theorem ttyPush_text (h : ByteRing TTY_BUFFER_SIZE rb) (str : List Byte)
    (hroom : rb.size + str.length ≤ TTY_BUFFER_SIZE) :
    ByteRing TTY_BUFFER_SIZE (str.foldl ttyPush rb) ∧
      ringBytes (str.foldl ttyPush rb) = ringBytes rb ++ str := by
  induction str generalizing rb with
  | nil => exact ⟨h, (List.append_nil _).symm⟩
  | cons c str ih =>
    rw [List.length_cons] at hroom
    obtain ⟨h1, hsize, hbytes⟩ := ttyPush_bytes h (by omega) c
    obtain ⟨h2, hall⟩ := ih h1 (by omega)
    refine ⟨h2, ?_⟩
    rw [List.foldl_cons, hall, hbytes, List.append_assoc, List.singleton_append]

theorem ttyKeyboardHandler_bytes (h : ByteRing TTY_BUFFER_SIZE rb) (event : KeyboardEvent)
    (hroom : rb.size + (eventText event).length ≤ TTY_BUFFER_SIZE) :
    ByteRing TTY_BUFFER_SIZE (ttyKeyboardHandler rb event) ∧
      ringBytes (ttyKeyboardHandler rb event) = ringBytes rb ++ eventText event := by
  unfold ttyKeyboardHandler
  unfold eventText at hroom ⊢
  cases hp : event.pressed with
  | false => exact ⟨h, (List.append_nil _).symm⟩
  | true =>
    rw [hp] at hroom
    exact ttyPush_text h _ hroom

theorem bufBytes_update (buffer : Mem) (r : ℕ) (c : Byte) :
    bufBytes (Function.update buffer r c) (r + 1) = bufBytes buffer r ++ [c] := by
  rw [bufBytes_succ, Function.update_self]
  congr 1
  refine List.map_congr_left fun x hx => ?_
  rw [Function.update_of_ne (List.mem_range.1 hx).ne]

theorem ttyReadLoop_bytes (h : ByteRing TTY_BUFFER_SIZE rb) (nbytes r : ℕ) (buffer : Mem) :
    ByteRing TTY_BUFFER_SIZE (ttyReadLoop nbytes r rb buffer).2.1 ∧
    (ttyReadLoop nbytes r rb buffer).1 = r + min nbytes rb.size ∧
    bufBytes (ttyReadLoop nbytes r rb buffer).2.2 (ttyReadLoop nbytes r rb buffer).1 ++
      ringBytes (ttyReadLoop nbytes r rb buffer).2.1 = bufBytes buffer r ++ ringBytes rb := by
  induction nbytes generalizing r rb buffer with
  | zero => simp [ttyReadLoop, h]
  | succ nbytes ih =>
    by_cases h0 : rb.size = 0
    · have hpop : ringbufferPop rb = (none, rb) := by rw [ringbufferPop, if_pos h0]
      simp only [ttyReadLoop, hpop, h0]
      exact ⟨h, by omega, trivial⟩
    · obtain ⟨h1, hsize, hbytes⟩ := pop_byte h h0
      have hpop : (ringbufferPop rb).1 = some (ringbufferAt rb rb.readIdx) :=
        (pop_spec h.inv h0).1
      obtain ⟨h2, hret, hcons⟩ := ih h1 (r + 1) (Function.update buffer r
        ((ringbufferPop rb).2.data (ringbufferAt rb rb.readIdx)))
      rw [hpop, Option.getD_some, Nat.add_zero] at hbytes
      generalize hq : ringbufferPop rb = q at hpop h1 hsize hbytes h2 hret hcons
      obtain ⟨e, rb1⟩ := q
      obtain rfl : e = some _ := hpop
      simp only [ttyReadLoop, hq]
      refine ⟨h2, by rw [hret]; omega, ?_⟩
      rw [hcons, bufBytes_update, hbytes, List.append_assoc, List.singleton_append]

/-! Runs of the terminal. -/

/-- There is room in the buffer for what the event puts there. -/
def KeyFits (s : Terminal) (e : TerminalEvent) : Prop :=
  ∀ r, terminalInput s.modifiers e = some r → s.rb.size + r.2.length ≤ TTY_BUFFER_SIZE

/-- A step that types nothing into a full buffer. -/
def TypedStep (s : Terminal) (e : TerminalEvent) (s' : Terminal) : Prop :=
  TerminalStep s e s' ∧ KeyFits s e

theorem terminal_step {s s' : Terminal} {e : TerminalEvent} (h : ByteRing TTY_BUFFER_SIZE s.rb)
    (hstep : TypedStep s e s') : ByteRing TTY_BUFFER_SIZE s'.rb ∧
    ∃ text, terminalInput s.modifiers e = some (s'.modifiers, text) ∧
      s'.returned ++ ringBytes s'.rb = s.returned ++ ringBytes s.rb ++ text := by
  obtain ⟨hstep, hfits⟩ := hstep
  cases e with
  | keyboard payload =>
    obtain ⟨modifiers, event, hscan, rfl⟩ := hstep
    have hinput : terminalInput s.modifiers (.keyboard payload) =
        some (modifiers, (event.map eventText).getD []) := by
      simp only [terminalInput, hscan, Option.map_some]
    cases event with
    | none => exact ⟨h, [], hinput, (List.append_nil _).symm⟩
    | some event =>
      obtain ⟨h', hbytes⟩ := ttyKeyboardHandler_bytes h event (hfits _ hinput)
      refine ⟨h', _, hinput, ?_⟩
      change s.returned ++ ringBytes (ttyKeyboardHandler s.rb event) = _
      rw [hbytes, List.append_assoc]
      rfl
  | serial c =>
    obtain rfl := hstep
    obtain ⟨h', hbytes⟩ := ttyKeyboardHandler_bytes h (serialConsoleEvent c) (hfits _ rfl)
    refine ⟨h', _, rfl, ?_⟩
    change s.returned ++ ringBytes (ttyKeyboardHandler s.rb (serialConsoleEvent c)) = _
    rw [hbytes, List.append_assoc]
  | read buffer nbytes =>
    obtain rfl := hstep
    obtain ⟨h', -, hcons⟩ := ttyReadLoop_bytes h nbytes 0 buffer
    refine ⟨h', [], rfl, ?_⟩
    change (s.returned ++ bufBytes (ttyReadLoop nbytes 0 s.rb buffer).2.2
      (ttyReadLoop nbytes 0 s.rb buffer).1) ++ ringBytes (ttyReadLoop nbytes 0 s.rb buffer).2.1 = _
    rw [List.append_assoc, hcons, List.append_nil]
    rfl

theorem terminalText_append {m m' : ℕ} {evs : List TerminalEvent} {text : List Byte}
    (h : terminalText m evs = some (m', text)) (more : List TerminalEvent) :
    terminalText m (evs ++ more) = (terminalText m' more).map fun r => (r.1, text ++ r.2) := by
  induction evs generalizing m text with
  | nil =>
    obtain ⟨rfl, rfl⟩ := Prod.mk.inj (Option.some.inj h)
    rw [List.nil_append]
    cases terminalText m more with
    | none => rfl
    | some r => rfl
  | cons e evs ih =>
    simp only [List.cons_append, terminalText] at h ⊢
    cases hin : terminalInput m e with
    | none =>
      rw [hin] at h
      cases h
    | some r =>
      rw [hin] at h
      obtain ⟨q, hq, hr⟩ := Option.map_eq_some_iff.1 h
      obtain ⟨rfl, rfl⟩ := Prod.mk.inj hr
      dsimp only
      rw [ih hq, Option.map_map]
      cases terminalText q.1 more with
      | none => rfl
      | some w => simp

/-- In every run what reads have returned, and then what is unread, is what the interrupts
stood for. -/
theorem terminal_run {evs : List TerminalEvent} {s : Terminal}
    (hrun : Run TerminalBoot TypedStep evs s) : ByteRing TTY_BUFFER_SIZE s.rb ∧
    terminalText 0 evs = some (s.modifiers, s.returned ++ ringBytes s.rb) := by
  induction hrun with
  | nil h =>
    obtain ⟨data, rfl⟩ := h
    obtain ⟨hring, hempty⟩ := ttyInit_ring data
    exact ⟨hring, by rw [hempty]; rfl⟩
  | snoc _ hstep ih =>
    obtain ⟨hring, htext⟩ := ih
    obtain ⟨hring', text, hinput, hstream⟩ := terminal_step hring hstep
    refine ⟨hring', ?_⟩
    rw [terminalText_append htext, terminalText, hinput, hstream]
    simp [terminalText]

/-! The serial line. -/

/-- The text that a byte on the serial line stands for: carriage return is the end of a line,
delete a backspace, and what is no key of `keycode_from_codepoint` shows up by its name. -/
def serialText (c : ℕ) : List Byte :=
  if 0x20 ≤ c ∧ c < 0x7f then [BitVec.ofNat 8 c]
  else if c = 0x0a ∨ c = 0x0d then [ch '\n']
  else if c = 0x08 ∨ c = 0x7f then [ch '\x08']
  else "Unknown".toList.map ch

theorem eventText_serial (c : ℕ) : eventText (serialConsoleEvent c) = serialText c := by
  by_cases hc : c < 128
  · have hall : ∀ c < 128, eventText (serialConsoleEvent c) = serialText c := by decide +kernel
    exact hall c hc
  · have hcases : ∀ x ∈ codepointCases, x.1 < 128 := by decide
    have hnone : codepointCases.lookup c = none := by
      rw [List.lookup_eq_none_iff]
      intro x hx
      have := hcases x hx
      simp only [bne_iff_ne, ne_eq]
      omega
    have hevent : serialConsoleEvent c = ⟨Keycode.KEY_UNKNOWN.ctorIdx, true, 0⟩ := by
      unfold serialConsoleEvent keycodeFromCodepoint
      rw [hnone, if_neg (by omega), if_neg (by omega), if_neg (by omega)]
      rfl
    unfold serialText
    rw [hevent, if_neg (by omega), if_neg (by omega), if_neg (by omega)]
    decide

def serialBytes (evs : List TerminalEvent) : List ℕ :=
  evs.filterMap fun e => match e with
    | .serial c => some c
    | _ => none

theorem terminalText_serial (m : ℕ) {evs : List TerminalEvent}
    (h : ∀ payload, .keyboard payload ∉ evs) :
    terminalText m evs = some (m, ((serialBytes evs).map serialText).flatten) := by
  induction evs with
  | nil => rfl
  | cons e evs ih =>
    have ih := ih fun payload hp => h payload (List.mem_cons_of_mem _ hp)
    cases e with
    | keyboard payload => exact absurd List.mem_cons_self (h payload)
    | serial c =>
      simp only [terminalText, terminalInput, ih, Option.map_some, eventText_serial, serialBytes,
        List.filterMap_cons, List.map_cons, List.flatten_cons]
    | read buffer nbytes =>
      simp only [terminalText, terminalInput, ih, Option.map_some, serialBytes,
        List.filterMap_cons, List.nil_append]

/-- What comes in over the serial line is read back in order, whenever it is read. -/
theorem serial_text_read {evs : List TerminalEvent} {s : Terminal}
    (hrun : Run TerminalBoot TypedStep evs s) (h : ∀ payload, .keyboard payload ∉ evs) :
    s.returned ++ ringBytes s.rb = ((serialBytes evs).map serialText).flatten := by
  obtain ⟨-, htext⟩ := terminal_run hrun
  rw [terminalText_serial 0 h] at htext
  exact (Prod.mk.inj (Option.some.inj htext)).2.symm

def freshTerminal : Terminal := ⟨0, ttyInit fun _ => 0, []⟩

theorem keyFits_of {s : Terminal} {e : TerminalEvent} {r : ℕ × List Byte}
    (hr : terminalInput s.modifiers e = some r) (h : s.rb.size + r.2.length ≤ TTY_BUFFER_SIZE) :
    KeyFits s e := by
  rintro q hq
  obtain rfl := Option.some.inj (hr.symm.trans hq)
  exact h

theorem typedRun_read {evs : List TerminalEvent} {s : Terminal}
    (h : Run TerminalBoot TypedStep evs s) (buffer : Mem) (nbytes : ℕ)
    (hroom : s.rb.size ≤ TTY_BUFFER_SIZE) :
    Run TerminalBoot TypedStep (evs ++ [.read buffer nbytes])
      { s with rb := (ttyRead s.rb buffer nbytes).2.1
               returned := s.returned ++
                 bufBytes (ttyRead s.rb buffer nbytes).2.2 (ttyRead s.rb buffer nbytes).1 } :=
  h.snoc ⟨rfl, keyFits_of rfl hroom⟩

theorem typedRun_serial {evs : List TerminalEvent} {s : Terminal}
    (h : Run TerminalBoot TypedStep evs s) (c : ℕ)
    (hroom : s.rb.size + (eventText (serialConsoleEvent c)).length ≤ TTY_BUFFER_SIZE) :
    Run TerminalBoot TypedStep (evs ++ [.serial c]) (terminalKey s (serialConsoleEvent c)) :=
  h.snoc ⟨rfl, keyFits_of rfl hroom⟩

/-- A capital letter, a carriage return and a delete, with a read of one byte in between. -/
theorem serial_text_read_line : ∃ s : Terminal, Run TerminalBoot TypedStep
      [.serial 0x41, .serial 0x0d, .read (fun _ => 0) 1, .serial 0x7f] s ∧
    s.returned = [ch 'A'] ∧ s.returned ++ ringBytes s.rb = [ch 'A', ch '\n', ch '\x08'] := by
  have hnil : Run TerminalBoot TypedStep [] freshTerminal := Run.nil ⟨_, rfl⟩
  have hletter := typedRun_serial hnil 0x41 (by decide)
  have hreturn := typedRun_serial hletter 0x0d (by decide)
  have hread := typedRun_read hreturn (fun _ => 0) 1 (by decide)
  have hrun := typedRun_serial hread 0x7f (by decide)
  exact ⟨_, hrun, by decide, serial_text_read hrun (by simp)⟩

/-! The keyboard. -/

/-- The US layout: a scan code, and what the key types without and with shift. -/
def usLayout : List (ℕ × Char × Char) :=
  [(0x02, '1', '!'), (0x03, '2', '@'), (0x04, '3', '#'), (0x05, '4', '$'), (0x06, '5', '%'),
    (0x07, '6', '^'), (0x08, '7', '&'), (0x09, '8', '*'), (0x0a, '9', '('), (0x0b, '0', ')'),
    (0x0c, '-', '_'), (0x0d, '=', '+'), (0x0f, '\t', '\t'), (0x10, 'q', 'Q'), (0x11, 'w', 'W'),
    (0x12, 'e', 'E'), (0x13, 'r', 'R'), (0x14, 't', 'T'), (0x15, 'y', 'Y'), (0x16, 'u', 'U'),
    (0x17, 'i', 'I'), (0x18, 'o', 'O'), (0x19, 'p', 'P'), (0x1a, '[', '\x7b'), (0x1b, ']', '\x7d'),
    (0x1c, '\n', '\n'), (0x1e, 'a', 'A'), (0x1f, 's', 'S'), (0x20, 'd', 'D'), (0x21, 'f', 'F'),
    (0x22, 'g', 'G'), (0x23, 'h', 'H'), (0x24, 'j', 'J'), (0x25, 'k', 'K'), (0x26, 'l', 'L'),
    (0x27, ';', ':'), (0x28, '\x27', '\x22'), (0x29, '\x60', '~'), (0x2b, '\x5c', '|'),
    (0x2c, 'z', 'Z'), (0x2d, 'x', 'X'), (0x2e, 'c', 'C'), (0x2f, 'v', 'V'), (0x30, 'b', 'B'),
    (0x31, 'n', 'N'), (0x32, 'm', 'M'), (0x33, ',', '<'), (0x34, '.', '>'), (0x35, '/', '?'),
    (0x39, ' ', ' ')]

/-- The scan codes that a typist sends for a character. -/
inductive Stroke : Char → List ℕ → Prop
  | plain {code : ℕ} {c d : Char} (h : (code, c, d) ∈ usLayout) : Stroke c [code, code + 0x80]
  | shifted {shift code : ℕ} {c d : Char} (hs : shift = 0x2a ∨ shift = 0x36)
      (h : (code, c, d) ∈ usLayout) : Stroke d [shift, code, code + 0x80, shift + 0x80]

inductive Strokes : List Char → List ℕ → Prop
  | nil : Strokes [] []
  | cons {c : Char} {text : List Char} {codes more : List ℕ} (hc : Stroke c codes)
      (h : Strokes text more) : Strokes (c :: text) (codes ++ more)

/-- From modifiers without shift and caps lock a stroke is its character, and the modifiers
are back afterwards. -/
theorem stroke_text {m : ℕ} (hm : m < 4) {c : Char} {codes : List ℕ} (h : Stroke c codes) :
    terminalText m (codes.map .keyboard) = some (m, [ch c]) := by
  have hplain : ∀ m < 4, ∀ x ∈ usLayout,
      terminalText m ([x.1, x.1 + 0x80].map .keyboard) = some (m, [ch x.2.1]) := by
    decide +kernel
  have hshift : ∀ m < 4, ∀ x ∈ usLayout, ∀ shift ∈ [0x2a, 0x36],
      terminalText m ([shift, x.1, x.1 + 0x80, shift + 0x80].map .keyboard) =
        some (m, [ch x.2.2]) := by
    decide +kernel
  cases h with
  | plain h => exact hplain m hm _ h
  | shifted hs h => exact hshift m hm _ h _ (by simpa using hs)

theorem strokes_text {m : ℕ} (hm : m < 4) {text : List Char} {codes : List ℕ}
    (h : Strokes text codes) :
    terminalText m (codes.map .keyboard) = some (m, text.map ch) := by
  induction h with
  | nil => rfl
  | cons hc _ ih =>
    rw [List.map_append, terminalText_append (stroke_text hm hc), ih]
    rfl

def keyboardPayloads (evs : List TerminalEvent) : List ℕ :=
  evs.filterMap fun e => match e with
    | .keyboard payload => some payload
    | _ => none

theorem terminalText_keyboard (m : ℕ) {evs : List TerminalEvent} (h : ∀ c, .serial c ∉ evs) :
    terminalText m evs = terminalText m ((keyboardPayloads evs).map .keyboard) := by
  induction evs generalizing m with
  | nil => rfl
  | cons e evs ih =>
    have ih := fun m => ih m fun c hc => h c (List.mem_cons_of_mem _ hc)
    cases e with
    | keyboard payload =>
      have hcons : keyboardPayloads (.keyboard payload :: evs) = payload :: keyboardPayloads evs :=
        rfl
      rw [hcons, List.map_cons, terminalText, terminalText]
      cases terminalInput m (.keyboard payload) with
      | none => rfl
      | some r =>
        dsimp only
        rw [ih]
    | serial c => exact absurd List.mem_cons_self (h c)
    | read buffer nbytes =>
      have hsame : terminalText m (.read buffer nbytes :: evs) = terminalText m evs := by
        simp [terminalText, terminalInput]
      rw [hsame, ih]
      rfl

/-- A text typed on the keyboard, in the order of its strokes and with reads at any point
between the scan codes, is read back as it was typed. -/
theorem typed_text_read {evs : List TerminalEvent} {s : Terminal} {text : List Char}
    (hrun : Run TerminalBoot TypedStep evs s) (hserial : ∀ c, .serial c ∉ evs)
    (h : Strokes text (keyboardPayloads evs)) :
    s.returned ++ ringBytes s.rb = text.map ch ∧ s.modifiers = 0 := by
  obtain ⟨-, htext⟩ := terminal_run hrun
  rw [terminalText_keyboard 0 hserial, strokes_text (Nat.zero_lt_succ 3) h] at htext
  obtain ⟨hm, ht⟩ := Prod.mk.inj (Option.some.inj htext)
  exact ⟨ht.symm, hm.symm⟩

theorem typedRun_keyboard {evs : List TerminalEvent} {s : Terminal}
    {r : ℕ × Option KeyboardEvent} (h : Run TerminalBoot TypedStep evs s) (payload : ℕ)
    (hr : ps2KeyboardHandleScancode s.modifiers payload = some r)
    (hroom : s.rb.size + ((r.2.map eventText).getD []).length ≤ TTY_BUFFER_SIZE) :
    Run TerminalBoot TypedStep (evs ++ [.keyboard payload])
      { r.2.elim s (terminalKey s) with modifiers := r.1 } :=
  h.snoc ⟨⟨_, _, hr, rfl⟩, keyFits_of (r := (r.1, _)) (by rw [terminalInput, hr]; rfl) hroom⟩

/-- A capital letter and a small one, the first read before shift is up again. -/
theorem typed_text_read_hi : ∃ s : Terminal, Run TerminalBoot TypedStep
      [.keyboard 0x2a, .keyboard 0x23, .keyboard 0xa3, .read (fun _ => 0) 1, .keyboard 0xaa,
        .keyboard 0x17, .keyboard 0x97] s ∧
    s.returned = [ch 'H'] ∧ s.returned ++ ringBytes s.rb = [ch 'H', ch 'i'] ∧
    s.modifiers = 0 := by
  have hnil : Run TerminalBoot TypedStep [] freshTerminal := Run.nil ⟨_, rfl⟩
  have hshift := typedRun_keyboard hnil 0x2a rfl (by decide)
  have hpress := typedRun_keyboard hshift 0x23 rfl (by decide)
  have hrelease := typedRun_keyboard hpress 0xa3 rfl (by decide)
  have hread := typedRun_read hrelease (fun _ => 0) 1 (by decide)
  have hunshift := typedRun_keyboard hread 0xaa rfl (by decide)
  have hsecond := typedRun_keyboard hunshift 0x17 rfl (by decide)
  have hrun := typedRun_keyboard hsecond 0x97 rfl (by decide)
  have hstrokes : Strokes ['H', 'i'] [0x2a, 0x23, 0xa3, 0xaa, 0x17, 0x97] :=
    .cons (.shifted (c := 'h') (Or.inl rfl) (by decide)) (.cons (.plain (d := 'I') (by decide)) .nil)
  exact ⟨_, hrun, by decide, typed_text_read hrun (by simp) hstrokes⟩

/-! The modifiers. -/

def shiftStep (held : Bool) (p : ℕ) : Bool :=
  if p &&& 0x7f = 0x2a ∨ p &&& 0x7f = 0x36 then p &&& 0x80 = 0 else held

def capsStep (on : Bool) (p : ℕ) : Bool := if p = 0x3a then !on else on

/-- The last scan code of a shift key was that of a press. -/
def shiftHeld (payloads : List ℕ) : Bool := payloads.foldl shiftStep false

/-- Caps lock has been pressed an odd number of times. -/
def capsOn (payloads : List ℕ) : Bool := payloads.foldl capsStep false

def hasShift (m : ℕ) : Bool := m &&& KEYBOARD_MODIFIER_SHIFT ≠ 0

def hasCaps (m : ℕ) : Bool := m &&& KEYBOARD_MODIFIER_CAPSLOCK ≠ 0

theorem scancode_modifiers {m p : ℕ} (hm : m < 16) (hp : p < 256)
    {r : ℕ × Option KeyboardEvent} (hr : ps2KeyboardHandleScancode m p = some r) :
    r.1 < 16 ∧ hasShift r.1 = shiftStep (hasShift m) p ∧ hasCaps r.1 = capsStep (hasCaps m) p := by
  have hall : ∀ m < 16, ∀ p < 256, (ps2KeyboardHandleScancode m p).all (fun r =>
      r.1 < 16 ∧ hasShift r.1 = shiftStep (hasShift m) p ∧ hasCaps r.1 = capsStep (hasCaps m) p) =
        true := by
    decide +kernel
  have h := hall m hm p hp
  rw [hr] at h
  exact of_decide_eq_true h

theorem modifiers_run {payloads : List ℕ} (hbytes : ∀ p ∈ payloads, p < 256) {m m' : ℕ}
    (hm : m < 16) {text : List Byte}
    (h : terminalText m (payloads.map .keyboard) = some (m', text)) :
    m' < 16 ∧ hasShift m' = payloads.foldl shiftStep (hasShift m) ∧
      hasCaps m' = payloads.foldl capsStep (hasCaps m) := by
  induction payloads generalizing m text with
  | nil =>
    obtain ⟨rfl, -⟩ := Prod.mk.inj (Option.some.inj h)
    exact ⟨hm, rfl, rfl⟩
  | cons p payloads ih =>
    rw [List.map_cons, terminalText, terminalInput] at h
    cases hscan : ps2KeyboardHandleScancode m p with
    | none =>
      rw [hscan] at h
      cases h
    | some r =>
      rw [hscan] at h
      obtain ⟨q, hq, hr⟩ := Option.map_eq_some_iff.1 h
      obtain ⟨rfl, -⟩ := Prod.mk.inj hr
      obtain ⟨hlt, hshift, hcaps⟩ := scancode_modifiers hm (hbytes p List.mem_cons_self) hscan
      obtain ⟨hm', hs, hc⟩ := ih (fun p hp => hbytes p (List.mem_cons_of_mem _ hp)) hlt hq
      rw [List.foldl_cons, List.foldl_cons, ← hshift, ← hcaps]
      exact ⟨hm', hs, hc⟩

/-- A letter key after any scan codes types a capital exactly when one of shift and caps lock
is on, and any other key what the layout has for it with shift or without. -/
theorem layout_key_text {payloads : List ℕ} (hbytes : ∀ p ∈ payloads, p < 256) {m : ℕ}
    {text : List Byte} (h : terminalText 0 (payloads.map .keyboard) = some (m, text)) {code : ℕ}
    {c d : Char} (hkey : (code, c, d) ∈ usLayout) :
    terminalText 0 ((payloads ++ [code]).map .keyboard) = some (m, text ++
      [ch (if shiftHeld payloads != (capsOn payloads && c.isLower) then d else c)]) := by
  obtain ⟨hm, hshift, hcaps⟩ := modifiers_run hbytes (by decide) h
  have hall : ∀ m < 16, ∀ x ∈ usLayout, terminalText m [.keyboard x.1] =
      some (m, [ch (if hasShift m != (hasCaps m && x.2.1.isLower) then x.2.2 else x.2.1)]) := by
    decide +kernel
  rw [List.map_append, terminalText_append h, List.map_singleton, hall m hm _ hkey, hshift, hcaps]
  rfl

/-- `a` with caps lock on, and shift let go of. -/
theorem layout_key_text_caps :
    terminalText 0 (([0x3a, 0xba, 0x2a, 0xaa] ++ [0x1e]).map .keyboard) = some (8, [] ++
      [ch (if shiftHeld [0x3a, 0xba, 0x2a, 0xaa] !=
        (capsOn [0x3a, 0xba, 0x2a, 0xaa] && ('a' : Char).isLower) then 'A' else 'a')]) :=
  layout_key_text (by decide) rfl (by decide)

end DepthOS
