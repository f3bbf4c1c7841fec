import DepthOS.Proofs.FormatTrace
import Mathlib.Data.List.TakeWhile

/-! `vformat` goes through a format item by item. -/

namespace DepthOS

open Lib

/-- The byte that is put out, by its place. -/
inductive Emitted where
  | format (i : ℤ)
  | data (b : Byte)

/-- The places from `i` on. -/
def placesFrom (i : ℤ) (n : ℕ) : List ℤ := (List.range n).map fun k : ℕ => i + k

def Chunk.emitted : Chunk → List Emitted
  | .format start sz => (placesFrom start sz).map .format
  | .data piece => piece.map .data

/-- The variables at the conversion of a directive whose `%` is at `v.fmt`. -/
def atConversion (env : FormatEnv) (v : Vformat) (head : DirectiveHead) : Vformat :=
  { v with
    state := .PERCENT
    percentStart := v.fmt
    fmt := v.fmt + 1 + head.text.length
    flags := headFlags env v.ap head
    ap := v.ap + head.stars }

/-- Nothing but flags behind the `%`. -/
def DirectiveHead.OnlyFlags (head : DirectiveHead) : Prop := head.flags ≠ [] ∧ head.tail = []

/-- What becomes of the items from `v.fmt` on: where the arguments end, and what is put out. -/
inductive ItemRun (env : FormatEnv) (f : List Byte) :
    Vformat → List FormatItem → ℕ → List Emitted → Prop
  | done {v : Vformat} : charAt f v.fmt = 0 → ItemRun env f v [] v.ap []
  | literal {v : Vformat} {b : Byte} {items : List FormatItem} {ap : ℕ} {out : List Emitted} :
    ItemRun env f { v with fmt := v.fmt + 1 } items ap out →
    ItemRun env f v (.literal b :: items) ap (.format v.fmt :: out)
  | percent {v : Vformat} {flags : List Byte} {items : List FormatItem} {ap : ℕ}
    {out : List Emitted} {start : ℕ} {set : VformatFlags} :
    ItemRun env f { v with fmt := v.fmt + flags.length + 2, percentStart := start, flags := set }
      items ap out →
    ItemRun env f v (.percent flags :: items) ap (.format (v.fmt + flags.length + 1 : ℕ) :: out)
  | directive {v v' : Vformat} {head : DirectiveHead} {conv : Byte} {chunks : List Chunk}
    {items : List FormatItem} {ap : ℕ} {out : List Emitted} :
    charAt f (v.fmt + 1 + head.text.length) = conv → conv ≠ 0 →
    traceConversion env f (atConversion env v head) = some (v', chunks) →
    ItemRun env f v' items ap out →
    ItemRun env f v (.directive head conv :: items) ap (chunks.flatMap Chunk.emitted ++ out)
  /-- the loop is over before the conversion -/
  | flags {v : Vformat} {head : DirectiveHead} : head.OnlyFlags →
    ItemRun env f v [.cut head] v.ap []
  | cut {v v' : Vformat} {head : DirectiveHead} {chunks : List Chunk} : ¬ head.OnlyFlags →
    charAt f (v.fmt + 1 + head.text.length) = 0 →
    traceConversion env f (atConversion env v head) = some (v', chunks) →
    ItemRun env f v [.cut head] v'.ap (chunks.flatMap Chunk.emitted)

/-! The items of a format. -/

section Items

theorem scanHead_length (s : List Byte) : (scanHead s).2.length ≤ s.length := by
  have h := congrArg List.length (scanHead_text s)
  rw [List.length_append] at h
  omega

theorem tail_dropWhile_length (s : List Byte) :
    (s.dropWhile isFlag).tail.length ≤ s.length := by
  have h := (List.dropWhile_suffix isFlag (l := s)).length_le
  rw [List.length_tail]
  omega

theorem formatItemsLoop_fuel (n m : ℕ) (s : List Byte) (hn : s.length ≤ n) (hm : s.length ≤ m) :
    formatItemsLoop n s = formatItemsLoop m s := by
  induction n generalizing m s with
  | zero =>
    obtain rfl : s = [] := List.eq_nil_of_length_eq_zero (by omega)
    cases m <;> rfl
  | succ n ih =>
    cases s with
    | nil => cases m <;> rfl
    | cons b s =>
      rw [List.length_cons] at hn hm
      obtain ⟨m, rfl⟩ : ∃ k, m = k + 1 := ⟨m - 1, by omega⟩
      have htail := tail_dropWhile_length s
      have hscan := scanHead_length s
      unfold formatItemsLoop
      rw [ih m s (by omega) (by omega), ih m _ (by omega) (by omega)]
      split_ifs
      · rfl
      · rfl
      · cases hrest : (scanHead s).2 with
        | nil => rfl
        | cons conv rest =>
          rw [hrest, List.length_cons] at hscan
          dsimp only
          rw [ih m rest (by omega) (by omega)]

@[simp] theorem formatItems_nil : formatItems [] = [] := rfl

theorem formatItems_literal {b : Byte} (h : b ≠ ch '%') (s : List Byte) :
    formatItems (b :: s) = .literal b :: formatItems s := by
  rw [formatItems, List.length_cons, formatItemsLoop, if_pos h]
  rfl

theorem formatItems_literals (lit s : List Byte) (h : ∀ b ∈ lit, b ≠ ch '%') :
    formatItems (lit ++ s) = lit.map .literal ++ formatItems s := by
  induction lit with
  | nil => rfl
  | cons b lit ih =>
    rw [List.cons_append, formatItems_literal (h b List.mem_cons_self),
      ih fun b' hb' => h b' (List.mem_cons_of_mem _ hb')]
    rfl

theorem noFlag_percent (s : List Byte) : NoFlag (ch '%' :: s) :=
  List.takeWhile_cons_of_neg (by decide)

theorem formatItems_percent {flags : List Byte} (h : ∀ c ∈ flags, isFlag c = true)
    (s : List Byte) :
    formatItems (ch '%' :: (flags ++ ch '%' :: s)) = .percent flags :: formatItems s := by
  obtain ⟨htake, hdrop⟩ := scan_flags h (noFlag_percent s)
  rw [formatItems, List.length_cons, formatItemsLoop, if_neg (by simp), htake, hdrop,
    if_pos List.head?_cons, List.tail_cons, formatItemsLoop_fuel _ s.length s (by simp; omega) le_rfl]
  rfl

theorem formatItems_directive {s : List Byte}
    (h : (s.dropWhile isFlag).head? ≠ some (ch '%')) : formatItems (ch '%' :: s) =
      match (scanHead s).2 with
      | [] => [.cut (scanHead s).1]
      | conv :: rest => .directive (scanHead s).1 conv :: formatItems rest := by
  have hscan := scanHead_length s
  rw [formatItems, List.length_cons, formatItemsLoop, if_neg (by simp), if_neg h]
  cases hrest : (scanHead s).2 with
  | nil => rfl
  | cons conv rest =>
    rw [hrest, List.length_cons] at hscan
    dsimp only
    rw [formatItemsLoop_fuel _ rest.length rest (by omega) le_rfl]
    rfl

theorem formatItemsLoop_text (n : ℕ) (s : List Byte) (hn : s.length ≤ n) :
    itemsText (formatItemsLoop n s) = s := by
  induction n generalizing s with
  | zero =>
    obtain rfl : s = [] := List.eq_nil_of_length_eq_zero (by omega)
    rfl
  | succ n ih =>
    cases s with
    | nil => rfl
    | cons b s =>
      rw [List.length_cons] at hn
      have htail := tail_dropWhile_length s
      have hscan := scanHead_length s
      have htext := scanHead_text s
      unfold formatItemsLoop
      split_ifs with hb hpercent
      · rw [itemsText, List.flatMap_cons, ← itemsText, ih s (by omega)]
        rfl
      · obtain rfl : b = ch '%' := not_not.1 hb
        rw [itemsText, List.flatMap_cons, ← itemsText, ih _ (by omega), FormatItem.text,
          List.append_assoc, List.singleton_append, List.cons_head?_tail hpercent, List.cons_append,
          List.takeWhile_append_dropWhile]
      · obtain rfl : b = ch '%' := not_not.1 hb
        cases hrest : (scanHead s).2 with
        | nil =>
          rw [hrest, List.append_nil] at htext
          simp [itemsText, FormatItem.text, htext]
        | cons conv rest =>
          rw [hrest, List.length_cons] at hscan
          rw [hrest] at htext
          dsimp only
          rw [itemsText, List.flatMap_cons, ← itemsText, ih rest (by omega), FormatItem.text,
            List.append_assoc, List.singleton_append, List.cons_append, htext]

theorem formatItems_text (f : List Byte) : itemsText (formatItems f) = f :=
  formatItemsLoop_text f.length f le_rfl

end Items

/-! The simulation. -/

section Simulation

variable {env : FormatEnv} {f : List Byte}

/-- A conversion ends the directive and goes past its byte, unless the format ends there. -/
theorem formatConversion_next {v v' : Vformat} {out : List Piece}
    (h : formatConversion env f v = some (v', out)) : v'.state = .LITERAL ∧
      v'.fmt = if charAt f v.fmt = 0 then v.fmt else v.fmt + 1 := by
  cases hc : isConversion (charAt f v.fmt) with
  | false =>
    rw [formatConversion_unknown env f hc] at h
    split_ifs at h ⊢
    · obtain ⟨rfl, -⟩ := Prod.mk.inj (Option.some.inj h)
      exact ⟨rfl, rfl⟩
    · obtain ⟨rfl, -⟩ := Prod.mk.inj (Option.some.inj h)
      exact ⟨rfl, rfl⟩
  | true =>
    have hne : charAt f v.fmt ≠ 0 := by
      intro h0
      rw [h0] at hc
      exact absurd hc (by decide)
    rw [if_neg hne]
    rcases isConversion_iff.1 hc with hd | hu | hp | hchar | hs
    · rw [formatConversion_signed env f hd] at h
      obtain ⟨rfl, -⟩ := Prod.mk.inj (Option.some.inj h)
      exact ⟨rfl, congrArg (· + 1) (formatSi_fmt env _)⟩
    · rw [formatConversion_unsigned env f hu] at h
      obtain ⟨rfl, -⟩ := Prod.mk.inj (Option.some.inj h)
      exact ⟨rfl, congrArg (· + 1) (formatUi_fmt env _)⟩
    · rw [formatConversion_pointer env f hp] at h
      obtain ⟨rfl, -⟩ := Prod.mk.inj (Option.some.inj h)
      exact ⟨rfl, rfl⟩
    · rw [formatConversion_char env f hchar] at h
      obtain ⟨rfl, -⟩ := Prod.mk.inj (Option.some.inj h)
      exact ⟨rfl, rfl⟩
    · rw [formatConversion_string env f hs] at h
      obtain ⟨chars, -, hchars⟩ := Option.map_eq_some_iff.1 h
      obtain ⟨rfl, -⟩ := Prod.mk.inj hchars
      exact ⟨rfl, rfl⟩

theorem traceConversion_next (env : FormatEnv) (f : List Byte) (v : Vformat) :
    ∃ v' chunks, traceConversion env f v = some (v', chunks) ∧ v'.state = .LITERAL ∧
      v'.fmt = if charAt f v.fmt = 0 then v.fmt else v.fmt + 1 := by
  obtain ⟨v', out, hconv, -⟩ := formatConversion_returns env f v
  have hpiece := traceConversion_piece env f v
  rw [hconv] at hpiece
  obtain ⟨r, hr, heq⟩ := Option.map_eq_some_iff.1 hpiece
  obtain rfl : r.1 = v' := congrArg Prod.fst heq
  exact ⟨r.1, r.2, hr, formatConversion_next hconv⟩

theorem traceConversion_known {v v' : Vformat} {chunks : List Chunk}
    (h : traceConversion env f v = some (v', chunks)) (hc : isConversion (charAt f v.fmt) = true) :
    ∃ out, formatConversion env f v = some (v', out) ∧ chunks = out.map .data := by
  obtain ⟨r, hr, heq⟩ := Option.map_eq_some_iff.1 h
  rw [if_pos hc] at heq
  obtain ⟨rfl, rfl⟩ := Prod.mk.inj heq
  exact ⟨r.2, hr, rfl⟩

theorem traceConversion_unknown {v v' : Vformat} {chunks : List Chunk}
    (h : traceConversion env f v = some (v', chunks)) (hc : isConversion (charAt f v.fmt) = false)
    (hp : v.percentStart < v.fmt) : ∃ n, chunks = [.format (v.percentStart - 1) (n + 1)] := by
  obtain ⟨r, -, heq⟩ := Option.map_eq_some_iff.1 h
  rw [if_neg (by rw [hc]; exact Bool.false_ne_true)] at heq
  refine ⟨(if charAt f v.fmt = 0 then v.fmt - 1 else v.fmt) + 1 - v.percentStart, ?_⟩
  rw [← (Prod.mk.inj heq).2]
  congr 2
  split_ifs <;> omega

theorem directive_length (head : DirectiveHead) (conv : Byte) :
    (FormatItem.directive head conv).text.length = head.text.length + 2 := by
  simp [FormatItem.text]

theorem directive_next {v v' : Vformat} {head : DirectiveHead} {conv : Byte} {chunks : List Chunk}
    (hchar : charAt f (v.fmt + 1 + head.text.length) = conv) (hne : conv ≠ 0)
    (h : traceConversion env f (atConversion env v head) = some (v', chunks)) :
    v'.fmt = v.fmt + (FormatItem.directive head conv).text.length := by
  obtain ⟨w, chunks', h', -, hfmt⟩ := traceConversion_next env f (atConversion env v head)
  obtain ⟨rfl, -⟩ := Prod.mk.inj (Option.some.inj (h'.symm.trans h))
  rw [hfmt, atConversion, hchar, if_neg hne, directive_length]
  dsimp only
  omega

theorem drop_charAt {i : ℕ} {c : Byte} (h : charAt f i = c) (hc : c ≠ 0) :
    f.drop i = c :: f.drop (i + 1) := by
  rw [← List.tail_drop]
  exact (List.cons_head?_tail ((head_iff hc i).2 h)).symm

theorem charAt_drop {i : ℕ} {t : List Byte} (h : f.drop i = t) : charAt f i = t.head?.getD 0 := by
  rw [charAt_head, h]

theorem drop_ne_zero (hf : (0 : Byte) ∉ f) {i : ℕ} {c : Byte} {t : List Byte}
    (h : f.drop i = c :: t) : c ≠ 0 := by
  rintro rfl
  exact hf (List.mem_of_mem_drop (h ▸ List.mem_cons_self))

theorem placesFrom_succ (i : ℤ) (n : ℕ) : placesFrom i (n + 1) = i :: placesFrom (i + 1) n := by
  simp only [placesFrom, List.range_succ_eq_map, List.map_cons, List.map_map, Nat.cast_zero,
    add_zero, Function.comp_def, Nat.cast_succ, add_assoc, add_comm (1 : ℤ)]

theorem emitted_succ (start : ℤ) (n : ℕ) : Chunk.emitted (.format start (n + 1)) =
    .format start :: Chunk.emitted (.format (start + 1) n) := by
  rw [Chunk.emitted, placesFrom_succ]
  rfl

theorem emitted_one (i : ℤ) : Chunk.emitted (.format i 1) = [.format i] :=
  emitted_succ i 0

theorem ItemRun.literals {v : Vformat} {items : List FormatItem} {ap : ℕ} {out : List Emitted}
    (lit : List Byte) (h : ItemRun env f { v with fmt := v.fmt + lit.length } items ap out) :
    ItemRun env f v (lit.map .literal ++ items) ap
      (Chunk.emitted (.format v.fmt lit.length) ++ out) := by
  induction lit generalizing v with
  | nil => exact h
  | cons b lit ih =>
    rw [List.length_cons, emitted_succ]
    refine ItemRun.literal (ih (v := { v with fmt := v.fmt + 1 }) ?_)
    rw [List.length_cons] at h
    rwa [Nat.add_assoc, Nat.add_comm 1]

variable (env f) in
/-- A result for the items from `v.fmt` on. -/
def Runs (v : Vformat) (res : Option (Vformat × List Chunk)) : Prop :=
  ∃ last chunks, res = some (last, chunks) ∧
    ItemRun env f v (formatItems (f.drop v.fmt)) last.ap (chunks.flatMap Chunk.emitted)

variable (env f) in
/-- A round from `PERCENT` on, and those behind it. -/
def traceRound (fuel : ℕ) (v : Vformat) : Option (Vformat × List Chunk) := do
  let (v', out) ← tracePercent env f v
  let (last, rest) ← traceLoop env f fuel v'
  some (last, out ++ rest)

/-- The variables behind the flags of a directive whose `%` is at `v.fmt`. -/
def behindFlags (v : Vformat) (flags : List Byte) : Vformat :=
  { v with
    state := .PERCENT
    percentStart := v.fmt
    fmt := v.fmt + 1 + flags.length
    flags := flags.foldl applyFlag noFlags }

theorem traceRound_some {fuel : ℕ} {v v' last : Vformat} {out rest : List Chunk}
    (h : tracePercent env f v = some (v', out)) (h' : traceLoop env f fuel v' = some (last, rest)) :
    traceRound env f fuel v = some (last, out ++ rest) := by
  simp only [traceRound, h, h', Option.bind_eq_bind, Option.bind_some]

theorem traceLoop_end {fuel : ℕ} {v : Vformat} (hfuel : 0 < fuel) (h : charAt f v.fmt = 0) :
    traceLoop env f fuel v = some (v, []) := by
  obtain ⟨fuel, rfl⟩ : ∃ k, fuel = k + 1 := ⟨fuel - 1, by omega⟩
  unfold traceLoop
  exact if_pos h

theorem traceLoop_percent {fuel : ℕ} {v : Vformat} (hv : v.state = .PERCENT)
    (h : charAt f v.fmt ≠ 0) : traceLoop env f (fuel + 1) v = traceRound env f fuel v := by
  rw [traceLoop, if_neg h, hv]
  rfl

theorem noFlag_nil : NoFlag [] := rfl

theorem noFlag_iff {t : List Byte} : NoFlag t ↔ isFlag (t.head?.getD 0) = false := by
  cases t with
  | nil => exact ⟨fun _ => by decide, fun _ => rfl⟩
  | cons c t =>
    rw [NoFlag, List.takeWhile_cons]
    cases h : isFlag c <;> simp [h]

theorem tracePercent_directive {v : Vformat} {flags t : List Byte}
    (hflags : ∀ c ∈ flags, isFlag c = true) (ht : f.drop (v.fmt + 1) = flags ++ t)
    (hno : NoFlag t) (hpercent : t.head? ≠ some (ch '%')) :
    tracePercent env f (behindFlags v flags) =
      traceConversion env f (atConversion env v (scanHead (flags ++ t)).1) := by
  have hdrop : f.drop (v.fmt + 1 + flags.length) = t := drop_text ht.symm
  have hno' : NoFlag (f.drop (behindFlags v flags).fmt) := by rwa [behindFlags, hdrop]
  unfold tracePercent
  rw [if_neg (mt (head_iff (by decide) _).2 (by rwa [behindFlags, hdrop])), directive_scan env _ hno']
  have hflag := noFlag_iff.1 hno'
  rw [← charAt_head] at hflag
  rw [if_neg (by rw [hflag]; exact Bool.false_ne_true)]
  have hscan := scanHead_flags hflags hno
  unfold behindFlags
  dsimp only
  rw [hdrop, hscan]
  unfold atConversion DirectiveHead.text
  rw [List.length_append, ← Nat.add_assoc]
  rfl

theorem traceLoop_literal {fuel : ℕ} {v : Vformat} (hv : v.state = .LITERAL)
    (h : charAt f v.fmt ≠ 0) (hp : charAt f (v.fmt + (literalAt f v.fmt).length) = ch '%') :
    traceLoop env f (fuel + 1) v =
      (traceRound env f fuel
        (behindFlags { v with fmt := v.fmt + (literalAt f v.fmt).length } [])).map
          fun r => (r.1, .format v.fmt (literalAt f v.fmt).length :: r.2) := by
  obtain ⟨v', out, hround, -⟩ := tracePercent_returns env f
    (behindFlags { v with fmt := v.fmt + (literalAt f v.fmt).length } [])
  have hround' : tracePercent env f
      { v with state := .PERCENT, fmt := v.fmt + (literalAt f v.fmt).length + 1,
               percentStart := v.fmt + (literalAt f v.fmt).length, flags := noFlags } =
      some (v', out) := hround
  rw [traceRound, hround, traceLoop, if_neg h, hv]
  dsimp only
  rw [if_pos hp, hround']
  simp only [Option.bind_eq_bind, Option.bind_some]
  cases traceLoop env f fuel v' with
  | none => rfl
  | some r => rfl

theorem tail_of_percent {v : Vformat} {t : List Byte} (ht : f.drop v.fmt = ch '%' :: t) :
    f.drop (v.fmt + 1) = t := by
  rw [← List.tail_drop, ht, List.tail_cons]

theorem traceRound_directive (hf : (0 : Byte) ∉ f) {v : Vformat} {flags t : List Byte} {fuel : ℕ}
    (hflags : ∀ c ∈ flags, isFlag c = true) (ht : f.drop v.fmt = ch '%' :: (flags ++ t))
    (hno : NoFlag t) (hpercent : t.head? ≠ some (ch '%')) (hempty : t ≠ [] ∨ flags = [])
    (hfuel : 0 < fuel)
    (hnext : ∀ v' : Vformat, v'.state = .LITERAL → v.fmt + 1 + flags.length < v'.fmt →
      Runs env f v' (traceLoop env f fuel v')) :
    Runs env f v (traceRound env f fuel (behindFlags v flags)) := by
  have ht' := tail_of_percent ht
  have hitems := formatItems_directive (s := flags ++ t) (by rwa [(scan_flags hflags hno).2])
  have htext := scanHead_text (flags ++ t)
  have hrest := drop_text (htext.trans ht'.symm)
  obtain ⟨v', out, hconv, hstate, hfmt⟩ :=
    traceConversion_next env f (atConversion env v (scanHead (flags ++ t)).1)
  have hround := (tracePercent_directive hflags ht' hno hpercent).trans hconv
  rw [← ht] at hitems
  generalize hhead : (scanHead (flags ++ t)).1 = head at hitems htext hrest hconv hfmt hround
  have hchar := charAt_drop hrest
  change v'.fmt = if charAt f (v.fmt + 1 + head.text.length) = 0 then _ else _ at hfmt
  cases hscan : (scanHead (flags ++ t)).2 with
  | nil =>
    rw [hscan] at hitems htext hchar
    rw [hchar, List.head?_nil, Option.getD_none, if_pos rfl] at hfmt
    have hend : charAt f v'.fmt = 0 := by
      rw [hfmt]
      exact hchar
    have hnot : ¬ head.OnlyFlags := by
      rintro ⟨hne, htail⟩
      have hflagsHead : head.flags = flags := by rw [← hhead, scanHead_flags hflags hno]
      rw [DirectiveHead.text, htail, hflagsHead, List.append_nil, List.append_nil] at htext
      have ht0 : t = [] := by simpa using htext
      exact hempty.elim (absurd ht0) (hflagsHead ▸ hne)
    refine ⟨v', out ++ [], traceRound_some hround (traceLoop_end hfuel hend), ?_⟩
    rw [hitems, List.append_nil]
    exact ItemRun.cut hnot hchar hconv
  | cons conv rest =>
    rw [hscan] at hitems hrest hchar
    rw [List.head?_cons, Option.getD_some] at hchar
    have hne := drop_ne_zero hf hrest
    rw [hchar, if_neg hne] at hfmt
    have hlen : flags.length ≤ head.text.length := by
      rw [← hhead, scanHead_flags hflags hno, DirectiveHead.text, List.length_append]
      exact Nat.le_add_right _ _
    change v'.fmt = v.fmt + 1 + head.text.length + 1 at hfmt
    obtain ⟨last, chunks, hloop, hrun⟩ := hnext v' hstate (by omega)
    refine ⟨last, out ++ chunks, traceRound_some hround hloop, ?_⟩
    rw [hfmt, ← List.tail_drop, hrest, List.tail_cons] at hrun
    rw [hitems, List.flatMap_append]
    exact ItemRun.directive hchar hne hconv hrun

variable (env) in
theorem tracePercent_flag {v : Vformat} {flags : List Byte} {c : Byte} {t : List Byte}
    (ht : f.drop (v.fmt + 1) = flags ++ c :: t) (hc : isFlag c = true) :
    tracePercent env f (behindFlags v flags) = some (behindFlags v (flags ++ [c]), []) := by
  have hchar : charAt f (behindFlags v flags).fmt = c := charAt_drop (drop_text ht.symm)
  have hne : c ≠ ch '%' := by
    rintro rfl
    exact absurd hc (by decide)
  unfold tracePercent
  rw [hchar, if_neg hne, if_pos hc, formatPercent_flag env f (by rwa [hchar]), hchar]
  simp only [behindFlags, Option.map_some, List.foldl_append, List.foldl_cons, List.foldl_nil,
    List.length_append, List.length_singleton, Nat.add_assoc]

variable (env) in
theorem tracePercent_percent {v : Vformat} {flags t : List Byte}
    (ht : f.drop (v.fmt + 1) = flags ++ ch '%' :: t) :
    tracePercent env f (behindFlags v flags) = some
      ({ behindFlags v flags with fmt := (behindFlags v flags).fmt + 1, state := .LITERAL },
        [.format (behindFlags v flags).fmt 1]) := by
  have hchar : charAt f (behindFlags v flags).fmt = ch '%' := charAt_drop (drop_text ht.symm)
  rw [tracePercent, if_pos hchar, formatPercent_percent env f hchar, Option.map_some]

/-- The round that comes to the second `%`. -/
theorem traceRound_percent {v : Vformat} (hv : v.state = .LITERAL) {flags t : List Byte} {fuel : ℕ}
    (hflags : ∀ c ∈ flags, isFlag c = true) (ht : f.drop v.fmt = ch '%' :: (flags ++ ch '%' :: t))
    (hnext : ∀ v' : Vformat, v'.state = .LITERAL → v.fmt + 1 + flags.length < v'.fmt →
      Runs env f v' (traceLoop env f fuel v')) :
    Runs env f v (traceRound env f fuel (behindFlags v flags)) := by
  have ht' := tail_of_percent ht
  obtain ⟨last, chunks, hloop, hrun⟩ := hnext
    { behindFlags v flags with fmt := (behindFlags v flags).fmt + 1, state := .LITERAL } rfl
    (Nat.lt_succ_self _)
  have hdrop : f.drop (v.fmt + 1 + flags.length + 1) = t := by
    rw [← List.tail_drop, drop_text ht'.symm, List.tail_cons]
  have hplace : (behindFlags v flags).fmt = v.fmt + flags.length + 1 := Nat.add_right_comm _ _ _
  refine ⟨last, _, traceRound_some (tracePercent_percent env ht') hloop, ?_⟩
  rw [ht, formatItems_percent hflags, List.flatMap_append, List.flatMap_singleton, emitted_one,
    hplace]
  dsimp only [behindFlags] at hrun
  rw [hdrop, Nat.add_right_comm v.fmt 1, ← hv] at hrun
  exact ItemRun.percent hrun

theorem traceRound_flags {v : Vformat} {flags : List Byte} {c : Byte} {fuel : ℕ}
    (hflags : ∀ b ∈ flags ++ [c], isFlag b = true)
    (ht : f.drop v.fmt = ch '%' :: (flags ++ [c])) (hfuel : 0 < fuel) :
    Runs env f v (traceRound env f fuel (behindFlags v flags)) := by
  have ht' := tail_of_percent ht
  have hround := tracePercent_flag env ht' (hflags c (by simp))
  rw [← List.append_nil (flags ++ [c])] at ht ht'
  have hchar := charAt_drop (drop_text ht'.symm)
  refine ⟨_, _, traceRound_some hround (traceLoop_end hfuel hchar), ?_⟩
  rw [ht, formatItems_directive (by rw [(scan_flags hflags noFlag_nil).2]; simp),
    scanHead_flags hflags noFlag_nil]
  exact ItemRun.flags ⟨by simp, rfl⟩

variable (env) in
theorem traceRound_items (hf : (0 : Byte) ∉ f) {v : Vformat} (hv : v.state = .LITERAL) :
    ∀ (fuel : ℕ) (flags t : List Byte),
      (∀ n ≤ fuel, ∀ v' : Vformat, v'.state = .LITERAL → v.fmt < v'.fmt → f.length - v'.fmt < n →
        Runs env f v' (traceLoop env f n v')) →
      (∀ c ∈ flags, isFlag c = true) → f.drop v.fmt = ch '%' :: (flags ++ t) →
      0 < fuel → t.length ≤ fuel → t ≠ [] ∨ flags = [] →
      Runs env f v (traceRound env f fuel (behindFlags v flags)) := by
  intro fuel
  induction fuel with
  | zero => exact fun _ _ _ _ _ h => absurd h (Nat.lt_irrefl 0)
  | succ fuel ih =>
    intro flags t hloop hflags ht hfuel hlen hempty
    have hlength := congrArg List.length ht
    rw [List.length_drop, List.length_cons, List.length_append] at hlength
    have hnext : ∀ v' : Vformat, v'.state = .LITERAL → v.fmt + 1 + flags.length < v'.fmt →
        Runs env f v' (traceLoop env f (fuel + 1) v') :=
      fun v' hstate hlt => hloop _ le_rfl v' hstate (by omega) (by omega)
    by_cases hpercent : t.head? = some (ch '%')
    · obtain ⟨t, rfl⟩ : ∃ t', t = ch '%' :: t' := ⟨t.tail, (List.cons_head?_tail hpercent).symm⟩
      exact traceRound_percent hv hflags ht hnext
    by_cases hno : NoFlag t
    · exact traceRound_directive hf hflags ht hno hpercent hempty hfuel hnext
    -- one more flag
    obtain ⟨c, t, rfl⟩ : ∃ c t', t = c :: t' := by
      cases t with
      | nil => exact absurd rfl hno
      | cons c t => exact ⟨c, t, rfl⟩
    have hc : isFlag c = true := by simpa [noFlag_iff] using hno
    have hmore : ∀ b ∈ flags ++ [c], isFlag b = true := by
      intro b hb
      rcases List.mem_append.1 hb with hb | hb
      · exact hflags b hb
      · rwa [List.mem_singleton.1 hb]
    cases t with
    | nil => exact traceRound_flags hmore ht hfuel
    | cons c' t =>
      have hround := tracePercent_flag env (tail_of_percent ht) hc
      rw [List.append_cons] at ht
      have hdrop := drop_text (tail_of_percent ht).symm
      rw [List.length_cons, List.length_cons] at hlength hlen
      have hne : charAt f (behindFlags v (flags ++ [c])).fmt ≠ 0 :=
        ne_of_eq_of_ne (charAt_drop hdrop) (drop_ne_zero hf hdrop)
      obtain ⟨last, chunks, hrest, hrun⟩ := ih (flags ++ [c]) (c' :: t)
        (fun n hn => hloop n (by omega)) hmore ht (by omega) (by rw [List.length_cons]; omega)
        (Or.inl (List.cons_ne_nil _ _))
      exact ⟨last, chunks, traceRound_some hround ((traceLoop_percent rfl hne).trans hrest), hrun⟩

theorem literalAt_rest (i : ℕ) : f.drop (i + (literalAt f i).length) =
    (f.drop i).dropWhile fun b => b ≠ 0 ∧ b ≠ ch '%' :=
  drop_text List.takeWhile_append_dropWhile

theorem literalAt_split (i : ℕ) :
    literalAt f i ++ f.drop (i + (literalAt f i).length) = f.drop i := by
  rw [literalAt_rest]
  exact List.takeWhile_append_dropWhile

theorem literalAt_mem {i : ℕ} {b : Byte} (h : b ∈ literalAt f i) : b ≠ ch '%' := by
  unfold literalAt at h
  have hb := List.mem_takeWhile_imp h
  exact (of_decide_eq_true hb).2

theorem literalAt_end (hf : (0 : Byte) ∉ f) (i : ℕ)
    (h : charAt f (i + (literalAt f i).length) ≠ ch '%') :
    f.drop (i + (literalAt f i).length) = [] := by
  cases hrest : f.drop (i + (literalAt f i).length) with
  | nil => rfl
  | cons c rest =>
    have hstop := List.head?_dropWhile_not (fun b => b ≠ 0 ∧ b ≠ ch '%') (f.drop i)
    rw [← literalAt_rest, hrest] at hstop
    have hne : c ≠ ch '%' := ne_of_eq_of_ne (charAt_drop hrest).symm h
    exact absurd ⟨drop_ne_zero hf hrest, hne⟩ (of_decide_eq_false hstop)

theorem traceLoop_items (hf : (0 : Byte) ∉ f) : ∀ (fuel : ℕ) (v : Vformat), v.state = .LITERAL →
    f.length - v.fmt < fuel → Runs env f v (traceLoop env f fuel v) := by
  intro fuel
  induction fuel using Nat.strong_induction_on with
  | _ fuel ih =>
    intro v hv hfuel
    by_cases h0 : charAt f v.fmt = 0
    · refine ⟨v, [], traceLoop_end (by omega) h0, ?_⟩
      have hdrop : f.drop v.fmt = [] := by
        cases hrest : f.drop v.fmt with
        | nil => rfl
        | cons c rest => exact absurd ((charAt_drop hrest).symm.trans h0) (drop_ne_zero hf hrest)
      rw [hdrop]
      exact ItemRun.done h0
    obtain ⟨fuel, rfl⟩ : ∃ k, fuel = k + 1 := ⟨fuel - 1, by omega⟩
    have hlt := charAt_lt h0
    have hsplit := literalAt_split (f := f) v.fmt
    have hitems := formatItems_literals _ (f.drop (v.fmt + (literalAt f v.fmt).length))
      fun b hb => literalAt_mem (f := f) (i := v.fmt) hb
    rw [hsplit] at hitems
    unfold Runs
    rw [hitems]
    by_cases hp : charAt f (v.fmt + (literalAt f v.fmt).length) = ch '%'
    · have hdrop := drop_charAt hp (by decide)
      have hlt' := charAt_lt (f := f) (i := v.fmt + (literalAt f v.fmt).length) (by rw [hp]; decide)
      obtain ⟨last, chunks, hround, hrun⟩ := traceRound_items env hf
        (v := { v with fmt := v.fmt + (literalAt f v.fmt).length }) hv fuel [] _
        (fun n hn v' hstate _ hlen => ih n (by omega) v' hstate hlen) (by simp) hdrop (by omega)
        (by rw [List.length_drop]; omega) (Or.inr rfl)
      refine ⟨last, .format v.fmt (literalAt f v.fmt).length :: chunks, ?_, ItemRun.literals _ hrun⟩
      rw [traceLoop_literal hv h0 hp, hround, Option.map_some]
    · have hdrop := literalAt_end hf v.fmt hp
      rw [hdrop, formatItems_nil, traceLoop, if_neg h0, hv]
      dsimp only
      rw [if_neg hp]
      refine ⟨_, _, rfl, ?_⟩
      rw [List.flatMap_singleton, ← List.append_nil (Chunk.emitted _)]
      exact ItemRun.literals _ (ItemRun.done (charAt_drop hdrop))

/-- The variables at the start of `vformat`. -/
def vformatStart (env : FormatEnv) : Vformat := ⟨.LITERAL, 0, 0, noFlags, env.ui, env.si, 0⟩

variable (env) in
theorem vformatTrace_items (f : CString) : ∃ last chunks,
    vformatTrace env f.bytes = some (last, chunks) ∧
      ItemRun env f.bytes (vformatStart env) (formatItems f.bytes) last.ap
        (chunks.flatMap Chunk.emitted) :=
  traceLoop_items f.text (f.bytes.length + 1) (vformatStart env) rfl (Nat.lt_succ_self _)

end Simulation

end DepthOS
