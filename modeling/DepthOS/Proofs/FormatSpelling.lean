import DepthOS.Proofs.FormatItems

/-! Formats spelled from literals, `%%` and conversions. What is spelled is what is read. -/

namespace DepthOS

open Lib

def Count.Spelled : Count → Prop
  | .star => True
  | .digits ds => ∀ d ∈ ds, isDigit d = true

/-- `[flags][width][.precision][length]`; zeros in front of the width are flags. -/
structure DirectiveHead.Spelled (head : DirectiveHead) : Prop where
  flags : ∀ c ∈ head.flags, isFlag c = true
  width : head.width.Spelled
  width_zero : head.width.text.head? ≠ some (ch '0')
  precision : ∀ count ∈ head.precision, count.Spelled

def FormatItem.Spelled : FormatItem → Prop
  | .literal b => b ≠ 0 ∧ b ≠ ch '%'
  | .percent flags => flags = []
  | .directive head conv => head.Spelled ∧ isConversion conv = true
  | .cut _ => False

/-- A format of literals, `%%` and conversions. -/
structure SpelledFormat where
  items : List FormatItem
  spelled : ∀ item ∈ items, item.Spelled

section Spelling

/-- What ends a number and the flags in front of it. -/
def endsNumber (c : Byte) : Bool := !isDigit c && !isFlag c && c ≠ ch '*' && c ≠ ch '%'

def EndsNumber (s : List Byte) : Prop := ∀ c ∈ s.head?, endsNumber c = true

theorem endsNumber_iff {c : Byte} : endsNumber c = true ↔
    isDigit c = false ∧ isFlag c = false ∧ c ≠ ch '*' ∧ c ≠ ch '%' := by
  simp [endsNumber, and_assoc]

theorem isConversion_ends {c : Byte} (h : isConversion c = true) :
    endsNumber c = true ∧ c ≠ 0 ∧ c ≠ ch '.' ∧ c ≠ ch 'h' ∧ c ≠ ch 'l' ∧ c ≠ ch 'j' ∧ c ≠ ch 'z' ∧
      c ≠ ch 't' := by
  have hall : ∀ c ∈ "diuoxpcs".toList.map ch,
      endsNumber c = true ∧ c ≠ 0 ∧ c ≠ ch '.' ∧ c ≠ ch 'h' ∧ c ≠ ch 'l' ∧ c ≠ ch 'j' ∧
        c ≠ ch 'z' ∧ c ≠ ch 't' := by
    decide
  exact hall c (List.contains_iff_mem.1 h)

variable {conv : Byte}

theorem lengthText_ends (length : FormatLength) (h : isConversion conv = true) (s : List Byte) :
    EndsNumber (lengthText length ++ conv :: s) ∧
      (lengthText length ++ conv :: s).head? ≠ some (ch '.') := by
  cases length with
  | LENGTH_DEFAULT =>
    obtain ⟨hends, -, hdot, -⟩ := isConversion_ends h
    exact ⟨fun c hc => Option.mem_some_iff.1 hc ▸ hends, fun hc => hdot (Option.some.inj hc)⟩
  | _ =>
    refine ⟨fun c hc => ?_, fun hc => absurd (Option.some.inj hc) (by decide)⟩
    obtain rfl := Option.mem_some_iff.1 hc
    decide

theorem precisionText_ends (precision : Option Count) {s : List Byte} (h : EndsNumber s) :
    EndsNumber (precisionText precision ++ s) := by
  cases precision with
  | none => exact h
  | some count =>
    intro c hc
    obtain rfl := Option.mem_some_iff.1 hc
    decide

theorem digits_take {ds s : List Byte} (hds : ∀ d ∈ ds, isDigit d = true) (h : EndsNumber s) :
    (ds ++ s).takeWhile isDigit = ds ∧ (ds ++ s).dropWhile isDigit = s := by
  have hs : s.takeWhile isDigit = [] ∧ s.dropWhile isDigit = s := by
    cases s with
    | nil => exact ⟨rfl, rfl⟩
    | cons c s =>
      have hc := (endsNumber_iff.1 (h c rfl)).1
      exact ⟨List.takeWhile_cons_of_neg (by simp [hc]), List.dropWhile_cons_of_neg (by simp [hc])⟩
  rw [List.takeWhile_append_of_pos hds, List.dropWhile_append_of_pos hds, hs.1, hs.2,
    List.append_nil]
  exact ⟨rfl, rfl⟩

theorem scanCount_append {count : Count} (hcount : count.Spelled) {s : List Byte}
    (h : EndsNumber s) : scanCount (count.text ++ s) = (count, s) := by
  cases count with
  | star => rfl
  | digits ds =>
    have hne : (ds ++ s).head? ≠ some (ch '*') := by
      cases ds with
      | nil => exact fun hc => (endsNumber_iff.1 (h _ hc)).2.2.1 rfl
      | cons d ds =>
        intro hc
        have hd := hcount d List.mem_cons_self
        rw [Option.some.inj hc] at hd
        exact absurd hd (by decide)
    obtain ⟨htake, hdrop⟩ := digits_take hcount h
    rw [Count.text, scanCount, if_neg hne, htake, hdrop]

theorem scanPrecision_append {precision : Option Count} (hp : ∀ count ∈ precision, count.Spelled)
    {s : List Byte} (h : EndsNumber s) (hdot : s.head? ≠ some (ch '.')) :
    scanPrecision (precisionText precision ++ s) = (precision, s) := by
  cases precision with
  | none => exact if_neg hdot
  | some count =>
    rw [precisionText, List.cons_append, scanPrecision, if_pos List.head?_cons, List.tail_cons,
      scanCount_append (hp count rfl) h]

theorem scanLength_append (length : FormatLength) (h : isConversion conv = true) (s : List Byte) :
    scanLength (lengthText length ++ conv :: s) = (length, conv :: s) := by
  obtain ⟨-, -, -, hh, hl, hj, hz, ht⟩ := isConversion_ends h
  cases length with
  | LENGTH_DEFAULT => simp [scanLength, lengthText, hh, hl, hj, hz, ht]
  | LENGTH_SHORT => simp [scanLength, lengthText, hh]
  | LENGTH_LONG =>
    have hne : ch 'l' ≠ ch 'h' := by decide
    simp [scanLength, lengthText, hl, hne]
  | _ => rfl

theorem isDigit_ends {d : Byte} (h : isDigit d = true) (h0 : d ≠ ch '0') :
    isFlag d = false ∧ d ≠ ch '%' := by
  constructor
  · rw [← Bool.not_eq_true, isFlag_iff]
    rintro (rfl | rfl | rfl | rfl | rfl)
    · exact absurd h (by decide)
    · exact h0 rfl
    · exact absurd h (by decide)
    · exact absurd h (by decide)
    · exact absurd h (by decide)
  · rintro rfl
    exact absurd h (by decide)

theorem tail_ends {head : DirectiveHead} (hs : head.Spelled) (h : isConversion conv = true)
    (s : List Byte) : NoFlag (head.tail ++ conv :: s) ∧
      (head.tail ++ conv :: s).head? ≠ some (ch '%') := by
  have hfirst : ∀ c ∈ (head.tail ++ conv :: s).head?, isFlag c = false ∧ c ≠ ch '%' := by
    have hrest := precisionText_ends head.precision (lengthText_ends head.length h s).1
    have hwidth := hs.width
    have hzero := hs.width_zero
    rw [DirectiveHead.tail, List.append_assoc, List.append_assoc]
    intro c hc
    cases hw : head.width with
    | star =>
      rw [hw] at hc
      obtain rfl := Option.mem_some_iff.1 hc
      decide
    | digits ds =>
      rw [hw] at hc hwidth hzero
      cases ds with
      | nil =>
        obtain ⟨-, hflag, -, hpercent⟩ := endsNumber_iff.1 (hrest c hc)
        exact ⟨hflag, hpercent⟩
      | cons d ds =>
        obtain rfl := Option.mem_some_iff.1 hc
        exact isDigit_ends (hwidth d List.mem_cons_self) fun h0 => hzero (congrArg some h0)
  constructor
  · rw [noFlag_iff]
    cases hc : (head.tail ++ conv :: s).head? with
    | none => decide
    | some c => exact (hfirst c hc).1
  · exact fun hc => (hfirst _ hc).2 rfl

theorem scanHead_append {head : DirectiveHead} (hs : head.Spelled) (h : isConversion conv = true)
    (s : List Byte) : scanHead (head.text ++ conv :: s) = (head, conv :: s) := by
  obtain ⟨hlength, hdot⟩ := lengthText_ends head.length h s
  have hprecision := precisionText_ends head.precision hlength
  have hno := (tail_ends hs h s).1
  rw [DirectiveHead.text, List.append_assoc, scanHead_flags hs.flags hno]
  unfold scanHead
  rw [hno.drop]
  unfold DirectiveHead.tail
  rw [List.append_assoc, List.append_assoc]
  simp only [scanCount_append hs.width hprecision, scanPrecision_append hs.precision hlength hdot,
    scanLength_append head.length h]

theorem formatItems_itemsText {items : List FormatItem} (hs : ∀ item ∈ items, item.Spelled) :
    formatItems (itemsText items) = items := by
  induction items with
  | nil => rfl
  | cons item items ih =>
    have hitem := hs item List.mem_cons_self
    have hrest := ih fun item' h => hs item' (List.mem_cons_of_mem _ h)
    rw [itemsText, List.flatMap_cons, ← itemsText]
    cases item with
    | literal b => rw [FormatItem.text, List.singleton_append, formatItems_literal hitem.2, hrest]
    | percent flags =>
      obtain rfl : flags = [] := hitem
      have hnone : ∀ c ∈ ([] : List Byte), isFlag c = true := by simp
      have h := formatItems_percent hnone (itemsText items)
      rw [List.nil_append, hrest] at h
      exact h
    | directive head conv =>
      have hscan := scanHead_append hitem.1 hitem.2 (itemsText items)
      obtain ⟨hno, hpercent⟩ := tail_ends hitem.1 hitem.2 (itemsText items)
      have hdrop : (head.text ++ conv :: itemsText items).dropWhile isFlag =
          head.tail ++ conv :: itemsText items := by
        rw [DirectiveHead.text, List.append_assoc]
        exact (scan_flags hitem.1.flags hno).2
      rw [FormatItem.text, List.append_assoc, List.cons_append, List.singleton_append,
        formatItems_directive (by rwa [hdrop]), hscan]
      dsimp only
      rw [hrest]
    | cut head => exact hitem.elim

theorem Count.Spelled.text {count : Count} (h : count.Spelled) : (0 : Byte) ∉ count.text := by
  cases count with
  | star => decide
  | digits ds => exact fun h0 => absurd (h 0 h0) (by decide)

theorem DirectiveHead.Spelled.text {head : DirectiveHead} (h : head.Spelled) :
    (0 : Byte) ∉ head.text := by
  have hflags : (0 : Byte) ∉ head.flags := fun h0 => absurd (h.flags 0 h0) (by decide)
  have hprecision : (0 : Byte) ∉ precisionText head.precision := by
    cases hp : head.precision with
    | none => exact List.not_mem_nil
    | some count =>
      have hcount := (h.precision count hp).text
      simp only [precisionText, List.mem_cons, not_or]
      exact ⟨by decide, hcount⟩
  have hlength : (0 : Byte) ∉ lengthText head.length := by
    cases head.length <;> decide
  simp only [DirectiveHead.text, DirectiveHead.tail, List.mem_append, not_or]
  exact ⟨hflags, ⟨h.width.text, hprecision⟩, hlength⟩

theorem FormatItem.Spelled.text {item : FormatItem} (h : item.Spelled) :
    (0 : Byte) ∉ item.text := by
  cases item with
  | literal b => simpa [FormatItem.text] using h.1.symm
  | percent flags =>
    obtain rfl : flags = [] := h
    decide
  | directive head conv =>
    simp only [FormatItem.text, List.mem_append, List.mem_cons, not_or]
    exact ⟨⟨by decide, h.1.text⟩, (isConversion_ends h.2).2.1.symm, List.not_mem_nil⟩
  | cut head => exact h.elim

def SpelledFormat.text (format : SpelledFormat) : CString where
  bytes := itemsText format.items
  text := fun h => by
    obtain ⟨item, hitem, h0⟩ := List.mem_flatMap.1 h
    exact (format.spelled item hitem).text h0

end Spelling

end DepthOS
