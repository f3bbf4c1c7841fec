import DepthOS.Proofs.FormatSpelling

/-! Which argument a conversion prints. With some lengths the integer conversions take none, and
those behind them print the argument of another. -/

namespace DepthOS

open Lib

/-- The words of the argument: `long long` and `intmax_t` take two. -/
def conversionWords (length : FormatLength) (conv : Byte) : ℕ :=
  if ("diuox".toList.map ch).contains conv ∧
      (length = .LENGTH_LONG_LONG ∨ length = .LENGTH_INTMAX_T) then 2
  else 1

/-- The words an item is to take: those of its stars and those of its own argument. -/
def FormatItem.words : FormatItem → ℕ
  | .directive head conv => head.stars + conversionWords head.length conv
  | _ => 0

/-- A conversion of the argument at `ap`. -/
def printArgument (env : FormatEnv) (ap : ℕ) (flags : VformatFlags) (conv : Byte) :
    Option (List Piece) :=
  let arg := env.args ap
  let flags := paddingFlags flags
  if conv = ch 'd' ∨ conv = ch 'i' then
    some (formatRichInt arg { flags with signedValue := true, radix := 10 })
  else if conv = ch 'u' ∨ conv = ch 'o' ∨ conv = ch 'x' then
    some (formatRichInt arg { flags with radix := radixOf conv })
  else if conv = ch 'p' then some (formatRichInt arg { flags with alternate := true, radix := 16 })
  else if conv = ch 'c' then
    some (formatString (fun _ => arg.setWidth 8) { flags with precision := true, precisionValue := 1 })
  else formatChars env arg.toNat flags

/-- An item whose arguments begin at `ap`. -/
def printItem (env : FormatEnv) (ap : ℕ) : FormatItem → Option (List Byte)
  | .literal b => some [b]
  | .percent _ => some [ch '%']
  | .directive head conv =>
    (printArgument env (ap + head.stars) (headFlags env ap head) conv).map List.flatten
  | .cut _ => some []

/-- The items, each with its own arguments. -/
def printItems (env : FormatEnv) : ℕ → List FormatItem → Option (List Byte)
  | _, [] => some []
  | ap, item :: items => do
    let text ← printItem env ap item
    let rest ← printItems env (ap + item.words) items
    some (text ++ rest)

/-- `vformat` takes the words of all its conversions, and each prints its own argument. -/
def TakesArguments (env : FormatEnv) (format : SpelledFormat) : Prop :=
  ∃ last chunks, vformatTrace env format.text.bytes = some (last, chunks) ∧
    last.ap = (format.items.map FormatItem.words).sum ∧
    printItems env 0 format.items =
      some (chunks.map (Chunk.piece env format.text.bytes)).flatten

/-- The lengths with which a conversion fetches its argument. -/
def LengthFetched (length : FormatLength) (conv : Byte) : Prop :=
  (conv ∈ "di".toList.map ch → length ≠ .LENGTH_INTMAX_T ∧ length ≠ .LENGTH_PTRDIFF_T) ∧
  (conv ∈ "uox".toList.map ch → length ≠ .LENGTH_CHAR ∧ length ≠ .LENGTH_SHORT ∧
    length ≠ .LENGTH_INTMAX_T ∧ length ≠ .LENGTH_PTRDIFF_T)

def FormatItem.Fetched : FormatItem → Prop
  | .directive head conv => LengthFetched head.length conv
  | _ => True

section Fetch

variable {env : FormatEnv} {f : List Byte} {v v' : Vformat} {out : List Piece}

theorem paddingFlags_length (flags : VformatFlags) : (paddingFlags flags).length = flags.length := by
  unfold paddingFlags
  dsimp only
  split_ifs <;> rfl

variable (env v) in
theorem formatSi_fetch (h : v.flags.length ≠ .LENGTH_INTMAX_T ∧ v.flags.length ≠ .LENGTH_PTRDIFF_T) :
    (formatSi env v).si = env.args v.ap ∧
      (formatSi env v).ap = v.ap + if v.flags.length = .LENGTH_LONG_LONG then 2 else 1 := by
  unfold formatSi
  cases hl : v.flags.length <;> simp_all

variable (env v) in
theorem formatSi_skip (h : ¬ (v.flags.length ≠ .LENGTH_INTMAX_T ∧ v.flags.length ≠ .LENGTH_PTRDIFF_T)) :
    formatSi env v = v := by
  unfold formatSi
  cases hl : v.flags.length <;> simp_all

variable (env v) in
theorem formatUi_fetch (h : v.flags.length ≠ .LENGTH_CHAR ∧ v.flags.length ≠ .LENGTH_SHORT ∧
      v.flags.length ≠ .LENGTH_INTMAX_T ∧ v.flags.length ≠ .LENGTH_PTRDIFF_T) :
    (formatUi env v).ui = env.args v.ap ∧
      (formatUi env v).ap = v.ap + if v.flags.length = .LENGTH_LONG_LONG then 2 else 1 := by
  unfold formatUi
  cases hl : v.flags.length <;> simp_all

variable (env v) in
theorem formatUi_skip (h : ¬ (v.flags.length ≠ .LENGTH_CHAR ∧ v.flags.length ≠ .LENGTH_SHORT ∧
      v.flags.length ≠ .LENGTH_INTMAX_T ∧ v.flags.length ≠ .LENGTH_PTRDIFF_T)) :
    formatUi env v = v := by
  unfold formatUi
  cases hl : v.flags.length <;> simp_all

theorem mem_di {c : Byte} : c ∈ "di".toList.map ch ↔ c = ch 'd' ∨ c = ch 'i' := by simp

theorem mem_uox {c : Byte} : c ∈ "uox".toList.map ch ↔ c = ch 'u' ∨ c = ch 'o' ∨ c = ch 'x' := by
  simp

theorem contains_diuox {c : Byte} : ("diuox".toList.map ch).contains c = true ↔
    (c = ch 'd' ∨ c = ch 'i') ∨ (c = ch 'u' ∨ c = ch 'o' ∨ c = ch 'x') := by
  simp [or_assoc]

theorem conversionWords_int {length : FormatLength} {c : Byte}
    (hc : ("diuox".toList.map ch).contains c = true) (h : length ≠ .LENGTH_INTMAX_T) :
    conversionWords length c = if length = .LENGTH_LONG_LONG then 2 else 1 := by
  simp only [conversionWords, hc, h, or_false, true_and]

theorem formatConversion_fetch (h : formatConversion env f v = some (v', out))
    (hc : isConversion (charAt f v.fmt) = true)
    (hf : LengthFetched v.flags.length (charAt f v.fmt)) :
    v'.ap = v.ap + conversionWords v.flags.length (charAt f v.fmt) ∧
      printArgument env v.ap v.flags (charAt f v.fmt) = some out := by
  have hlen := paddingFlags_length v.flags
  rcases isConversion_iff.1 hc with hd | hu | hp | hchar | hs
  · have hl := hf.1 (mem_di.2 hd)
    obtain ⟨hsi, hap⟩ := formatSi_fetch env { v with flags := paddingFlags v.flags } (by rwa [hlen])
    rw [formatConversion_signed env f hd] at h
    obtain ⟨rfl, rfl⟩ := Prod.mk.inj (Option.some.inj h)
    rw [conversionWords_int (contains_diuox.2 (Or.inl hd)) hl.1, hsi, ← hlen]
    exact ⟨hap, if_pos hd⟩
  · have hl := hf.2 (mem_uox.2 hu)
    have hd : ¬ (charAt f v.fmt = ch 'd' ∨ charAt f v.fmt = ch 'i') := by
      rcases hu with hu | hu | hu <;> rw [hu] <;> decide
    obtain ⟨hui, hap⟩ := formatUi_fetch env { v with flags := paddingFlags v.flags } (by rwa [hlen])
    rw [formatConversion_unsigned env f hu] at h
    obtain ⟨rfl, rfl⟩ := Prod.mk.inj (Option.some.inj h)
    rw [conversionWords_int (contains_diuox.2 (Or.inr hu)) hl.2.2.1, hui, ← hlen]
    exact ⟨hap, (if_neg hd).trans (if_pos hu)⟩
  · rw [formatConversion_pointer env f hp] at h
    obtain ⟨rfl, rfl⟩ := Prod.mk.inj (Option.some.inj h)
    rw [hp]
    exact ⟨rfl, rfl⟩
  · rw [formatConversion_char env f hchar] at h
    obtain ⟨rfl, rfl⟩ := Prod.mk.inj (Option.some.inj h)
    rw [hchar]
    exact ⟨rfl, rfl⟩
  · rw [formatConversion_string env f hs] at h
    obtain ⟨chars, hchars, hout⟩ := Option.map_eq_some_iff.1 h
    obtain ⟨rfl, rfl⟩ := Prod.mk.inj hout
    rw [hs]
    exact ⟨rfl, hchars⟩

theorem formatConversion_skip (h : formatConversion env f v = some (v', out))
    (hf : ¬ LengthFetched v.flags.length (charAt f v.fmt)) : v'.ap = v.ap := by
  have hlen := paddingFlags_length v.flags
  by_cases hd : charAt f v.fmt = ch 'd' ∨ charAt f v.fmt = ch 'i'
  · have hu : charAt f v.fmt ∉ "uox".toList.map ch := by
      rcases hd with hd | hd <;> rw [hd] <;> decide
    have hskip := formatSi_skip env { v with flags := paddingFlags v.flags }
      fun hl => hf ⟨fun _ => by rwa [hlen] at hl, fun h => absurd h hu⟩
    rw [formatConversion_signed env f hd, hskip] at h
    rw [← (Prod.mk.inj (Option.some.inj h)).1]
  by_cases hu : charAt f v.fmt = ch 'u' ∨ charAt f v.fmt = ch 'o' ∨ charAt f v.fmt = ch 'x'
  · have hskip := formatUi_skip env { v with flags := paddingFlags v.flags }
      fun hl => hf ⟨fun h => absurd (mem_di.1 h) hd, fun _ => by rwa [hlen] at hl⟩
    rw [formatConversion_unsigned env f hu, hskip] at h
    rw [← (Prod.mk.inj (Option.some.inj h)).1]
  · exact absurd ⟨fun h => absurd (mem_di.1 h) hd, fun h => absurd (mem_uox.1 h) hu⟩ hf

theorem applyFlag_length (flags : VformatFlags) (c : Byte) :
    (applyFlag flags c).length = flags.length := by
  unfold applyFlag
  split_ifs <;> rfl

theorem foldl_applyFlag_length (cs : List Byte) (flags : VformatFlags) :
    (cs.foldl applyFlag flags).length = flags.length := by
  induction cs generalizing flags with
  | nil => rfl
  | cons c cs ih => rw [List.foldl_cons, ih, applyFlag_length]

theorem headFlags_length (ap : ℕ) (head : DirectiveHead) :
    (headFlags env ap head).length = head.length := by
  have hflags := foldl_applyFlag_length head.flags noFlags
  unfold headFlags numberFlags applyLength
  split_ifs with h
  · rw [h]
    cases head.precision <;> exact hflags
  · rfl

variable (env f) in
def Emitted.byte : Emitted → Byte
  | .format i => formatByte env f i
  | .data b => b

theorem piece_bytes (chunk : Chunk) :
    Chunk.piece env f chunk = chunk.emitted.map (Emitted.byte env f) := by
  cases chunk with
  | format start sz =>
    simp only [Chunk.piece, Chunk.emitted, placesFrom, List.map_map, Function.comp_def, Emitted.byte]
  | data piece => simp [Chunk.piece, Chunk.emitted, Function.comp_def, Emitted.byte]

theorem pieces_bytes (chunks : List Chunk) : (chunks.map (Chunk.piece env f)).flatten =
    (chunks.flatMap Chunk.emitted).map (Emitted.byte env f) := by
  rw [List.map_flatMap, ← List.flatMap_def]
  exact List.flatMap_congr fun chunk _ => piece_bytes chunk

end Fetch

section Run

variable {env : FormatEnv} {f : List Byte}

variable (env f) in
/-- The items take no more words than they are to, and all of them only when each fetches its
argument, which it prints then. -/
def Argued (start : ℕ) (items : List FormatItem) (ap : ℕ) (out : List Emitted) : Prop :=
  ap ≤ start + (items.map FormatItem.words).sum ∧
    (ap = start + (items.map FormatItem.words).sum → ∀ item ∈ items, item.Fetched) ∧
    ((∀ item ∈ items, item.Fetched) → ap = start + (items.map FormatItem.words).sum ∧
      printItems env start items = some (out.map (Emitted.byte env f)))

variable {start mid ap : ℕ} {item : FormatItem} {items : List FormatItem} {before out : List Emitted}

theorem Argued.cons (h : Argued env f (start + item.words) items ap out) (hf : item.Fetched)
    (hprint : printItem env start item = some (before.map (Emitted.byte env f))) :
    Argued env f start (item :: items) ap (before ++ out) := by
  obtain ⟨hle, hall, hprints⟩ := h
  unfold Argued
  rw [List.map_cons, List.sum_cons, ← Nat.add_assoc, List.forall_mem_cons, List.map_append]
  refine ⟨hle, fun heq => ⟨hf, hall heq⟩, fun h => ?_⟩
  obtain ⟨heq, hrest⟩ := hprints h.2
  refine ⟨heq, ?_⟩
  rw [printItems, hprint, Option.bind_eq_bind, Option.bind_some, hrest]
  rfl

theorem Argued.skip (h : Argued env f mid items ap out) (hf : ¬ item.Fetched)
    (hmid : mid < start + item.words) : Argued env f start (item :: items) ap (before ++ out) := by
  have hle := h.1
  unfold Argued
  rw [List.map_cons, List.sum_cons, List.forall_mem_cons]
  exact ⟨by omega, fun heq => by omega, fun h => absurd h.1 hf⟩

theorem conversionWords_pos (length : FormatLength) (conv : Byte) :
    0 < conversionWords length conv := by
  unfold conversionWords
  split_ifs <;> omega

theorem argued_directive {v v' : Vformat} {head : DirectiveHead} {conv : Byte}
    {chunks : List Chunk} (hc : isConversion conv = true)
    (hchar : charAt f (v.fmt + 1 + head.text.length) = conv)
    (h : traceConversion env f (atConversion env v head) = some (v', chunks))
    (hargued : Argued env f v'.ap items ap out) :
    Argued env f v.ap (.directive head conv :: items) ap
      (chunks.flatMap Chunk.emitted ++ out) := by
  change charAt f (atConversion env v head).fmt = conv at hchar
  obtain ⟨pieces, hpieces, rfl⟩ := traceConversion_known h (hchar ▸ hc)
  have hlength : (atConversion env v head).flags.length = head.length := headFlags_length v.ap head
  by_cases hfetch : LengthFetched head.length conv
  · obtain ⟨hap, hprint⟩ := formatConversion_fetch hpieces (hchar ▸ hc)
      (by rw [hlength, hchar]; exact hfetch)
    rw [hlength, hchar] at hap
    have hwords : v'.ap = v.ap + (FormatItem.directive head conv).words := by
      rw [hap, FormatItem.words, ← Nat.add_assoc]
      rfl
    rw [hwords] at hargued
    rw [hchar] at hprint
    refine hargued.cons hfetch ?_
    have hsame : Chunk.piece env f ∘ Chunk.data = id := rfl
    rw [← pieces_bytes, List.map_map, hsame, List.map_id]
    exact congrArg (Option.map List.flatten) hprint
  · have hap := formatConversion_skip hpieces (by rw [hlength, hchar]; exact hfetch)
    have hpos := conversionWords_pos head.length conv
    refine hargued.skip hfetch ?_
    rw [hap, FormatItem.words, atConversion]
    dsimp only
    omega

theorem run_argued {v : Vformat} (h : ItemRun env f v items ap out)
    (hs : ∀ item ∈ items, item.Spelled) (ht : f.drop v.fmt = itemsText items) :
    Argued env f v.ap items ap out := by
  induction h with
  | done => exact ⟨le_rfl, fun _ => by simp, fun _ => ⟨rfl, rfl⟩⟩
  | @literal v b items ap out hrun ih =>
    rw [List.forall_mem_cons] at hs
    rw [itemsText, List.flatMap_cons, ← itemsText] at ht
    have hbyte : formatByte env f v.fmt = b := charAt_drop ht
    have hargued := ih hs.2 (drop_text ht.symm)
    change Argued env f v.ap (.literal b :: items) ap ([.format v.fmt] ++ out)
    refine hargued.cons trivial ?_
    rw [printItem, List.map_singleton, Emitted.byte, hbyte]
  | @percent v flags items ap out start set hrun ih =>
    rw [List.forall_mem_cons] at hs
    obtain rfl : flags = [] := hs.1
    rw [itemsText, List.flatMap_cons, ← itemsText] at ht
    have hargued := ih hs.2 (drop_text ht.symm)
    have hbyte : formatByte env f (v.fmt + 1 : ℕ) = ch '%' := charAt_drop (tail_of_percent ht)
    change Argued env f v.ap (.percent [] :: items) ap ([.format (v.fmt + 1 : ℕ)] ++ out)
    refine hargued.cons trivial ?_
    rw [printItem, List.map_singleton, Emitted.byte, hbyte]
  | @directive v v' head conv chunks items ap out hchar hne hconv hrun ih =>
    rw [List.forall_mem_cons] at hs
    rw [itemsText, List.flatMap_cons, ← itemsText] at ht
    have hargued := ih hs.2 (by rw [directive_next hchar hne hconv]; exact drop_text ht.symm)
    exact argued_directive hs.1.2 hchar hconv hargued
  | @flags v head honly => exact (hs _ List.mem_cons_self).elim
  | @cut v v' head chunks hnot hchar hconv => exact (hs _ List.mem_cons_self).elim

end Run

/-- Every conversion takes and prints its own argument exactly when the length of each is one
it is fetched with. -/
theorem takes_arguments_iff (env : FormatEnv) (format : SpelledFormat) :
    TakesArguments env format ↔ ∀ item ∈ format.items, item.Fetched := by
  obtain ⟨last, chunks, htrace, hrun⟩ := vformatTrace_items env format.text
  have hitems : formatItems format.text.bytes = format.items := formatItems_itemsText format.spelled
  rw [hitems] at hrun
  obtain ⟨-, hall, hprints⟩ := run_argued hrun format.spelled rfl
  rw [← pieces_bytes] at hprints
  change last.ap = 0 + _ → _ at hall
  rw [Nat.zero_add] at hall
  constructor
  · rintro ⟨last', chunks', htrace', hap, -⟩
    obtain ⟨rfl, rfl⟩ := Prod.mk.inj (Option.some.inj (htrace.symm.trans htrace'))
    exact hall hap
  · intro h
    obtain ⟨hap, hprint⟩ := hprints h
    exact ⟨last, chunks, htrace, hap.trans (Nat.zero_add _), hprint⟩

/-- `%hu` -/
def shortUnsigned : SpelledFormat where
  items := [.directive ⟨[], .digits [], none, .LENGTH_SHORT⟩ (ch 'u')]
  spelled := by
    intro item hitem
    obtain rfl := List.mem_singleton.1 hitem
    exact ⟨⟨by simp, by simp [Count.Spelled], by simp [Count.text], by simp⟩, by decide⟩

/-- The argument of `%hu` is left where it is. -/
theorem arguments_shift : ¬ ∀ (env : FormatEnv) (format : SpelledFormat),
    TakesArguments env format := by
  intro h
  obtain ⟨last, chunks, htrace, hap, -⟩ := h plainEnv shortUnsigned
  have hlast : (vformatTrace plainEnv shortUnsigned.text.bytes).map (fun r => r.1.ap) = some 0 := rfl
  rw [htrace] at hlast
  have hzero : last.ap = 0 := Option.some.inj hlast
  rw [hzero] at hap
  exact absurd hap (by decide)

end DepthOS
