import DepthOS.Proofs.FormatItems

/-! What `vformat` puts out of its format. An unknown conversion is put out from the byte in
front of its `%` on, and a directive that ends with its flags not at all. -/

namespace DepthOS

open Lib

/-- A directive that `vformat` knows, or a literal. -/
def FormatItem.Recognised : FormatItem → Prop
  | .literal _ => True
  | .percent _ => True
  | .directive _ conv => isConversion conv = true
  | .cut _ => False

instance : DecidablePred FormatItem.Recognised := fun item =>
  match item with
  | .literal _ => isTrue trivial
  | .percent _ => isTrue trivial
  | .directive _ conv => inferInstanceAs (Decidable (isConversion conv = true))
  | .cut _ => isFalse id

/-- The places an item at `i` is to be put out from: a literal's own, the second `%` of a `%%`,
none of a conversion, and all of a directive that is not one. -/
def FormatItem.echo (i : ℤ) (item : FormatItem) : List ℤ :=
  match item with
  | .literal _ => [i]
  | .percent flags => [i + flags.length + 1]
  | .directive _ conv => if isConversion conv then [] else placesFrom i item.text.length
  | .cut _ => placesFrom i item.text.length

def echoes : ℤ → List FormatItem → List ℤ
  | _, [] => []
  | i, item :: items => item.echo i ++ echoes (i + item.text.length) items

/-- Where a byte that is put out stands in the format. -/
def Emitted.place : Emitted → Option ℤ
  | .format i => some i
  | .data _ => none

def formatPlaces (chunks : List Chunk) : List ℤ :=
  (chunks.flatMap Chunk.emitted).filterMap Emitted.place

/-- All that is put out of the format lies in it, and it is the literals and the directives
that are not known. -/
def EchoesSafely (env : FormatEnv) (f : CString) : Prop :=
  ∃ last chunks, vformatTrace env f.bytes = some (last, chunks) ∧
    (∀ i ∈ formatPlaces chunks, 0 ≤ i ∧ i < f.length) ∧
    formatPlaces chunks = echoes 0 (formatItems f.bytes)

section Places

theorem percent_length (flags : List Byte) :
    (FormatItem.percent flags).text.length = flags.length + 2 := by
  simp [FormatItem.text]

theorem cut_length (head : DirectiveHead) :
    (FormatItem.cut head).text.length = head.text.length + 1 := by
  simp [FormatItem.text]

theorem mem_placesFrom {i j : ℤ} {n : ℕ} (h : j ∈ placesFrom i n) : i ≤ j ∧ j < i + n := by
  obtain ⟨k, hk, rfl⟩ := List.mem_map.1 h
  have hlt := List.mem_range.1 hk
  omega

theorem echo_within {i j : ℤ} {item : FormatItem} (h : j ∈ item.echo i) :
    i ≤ j ∧ j < i + item.text.length := by
  cases item with
  | literal b =>
    obtain rfl := List.mem_singleton.1 h
    simp [FormatItem.text]
  | percent flags =>
    obtain rfl := List.mem_singleton.1 h
    rw [percent_length]
    omega
  | directive head conv =>
    unfold FormatItem.echo at h
    dsimp only at h
    split_ifs at h
    · exact absurd h List.not_mem_nil
    · exact mem_placesFrom h
  | cut head => exact mem_placesFrom h

theorem echoes_within {i j : ℤ} {items : List FormatItem} (h : j ∈ echoes i items) :
    i ≤ j ∧ j < i + (itemsText items).length := by
  induction items generalizing i with
  | nil => exact absurd h List.not_mem_nil
  | cons item items ih =>
    rw [itemsText, List.flatMap_cons, List.length_append, ← itemsText]
    rcases List.mem_append.1 h with h | h
    · have hj := echo_within h
      omega
    · have hj := ih h
      omega

theorem places_format (i : ℤ) (n : ℕ) :
    (Chunk.emitted (.format i n)).filterMap Emitted.place = placesFrom i n := by
  rw [Chunk.emitted, List.filterMap_map]
  exact List.filterMap_some

theorem places_data (out : List Piece) :
    ((out.map Chunk.data).flatMap Chunk.emitted).filterMap Emitted.place = [] := by
  rw [List.filterMap_eq_nil_iff]
  intro e he
  obtain ⟨chunk, hchunk, he⟩ := List.mem_flatMap.1 he
  obtain ⟨piece, -, rfl⟩ := List.mem_map.1 hchunk
  obtain ⟨b, -, rfl⟩ := List.mem_map.1 he
  rfl

theorem places_unknown (i : ℤ) (n : ℕ) :
    ([Chunk.format i n].flatMap Chunk.emitted).filterMap Emitted.place = placesFrom i n := by
  rw [List.flatMap_singleton, places_format]

theorem placesFrom_ne (i : ℤ) (n m : ℕ) (before after : List ℤ) :
    placesFrom (i - 1) (n + 1) ++ before ≠ placesFrom i (m + 1) ++ after := by
  rw [placesFrom_succ, placesFrom_succ]
  intro h
  have hhead : i - 1 = i := (List.cons.inj h).1
  omega

end Places

section Echo

variable {env : FormatEnv} {f : List Byte}

theorem echoes_iff {v : Vformat} {items : List FormatItem} {ap : ℕ} {out : List Emitted}
    (h : ItemRun env f v items ap out) :
    out.filterMap Emitted.place = echoes v.fmt items ↔ ∀ item ∈ items, item.Recognised := by
  induction h with
  | done => simp [echoes]
  | @literal v b items ap out hrun ih =>
    have hknown : (FormatItem.literal b).Recognised := trivial
    rw [List.forall_mem_cons, and_iff_right hknown, ← ih]
    exact List.cons_inj_right _
  | @percent v flags items ap out start set hrun ih =>
    have hknown : (FormatItem.percent flags).Recognised := trivial
    have htext : ((v.fmt : ℤ) + (FormatItem.percent flags).text.length) =
        ((v.fmt + flags.length + 2 : ℕ) : ℤ) := by
      rw [percent_length]
      omega
    rw [List.forall_mem_cons, and_iff_right hknown, ← ih, echoes, htext]
    exact List.cons_inj_right _
  | @directive v v' head conv chunks items ap out hchar hne hconv hrun ih =>
    rw [List.forall_mem_cons, List.filterMap_append, ← ih, echoes]
    cases hknown : isConversion conv with
    | true =>
      obtain ⟨out', -, rfl⟩ := traceConversion_known hconv (hchar ▸ hknown)
      have hplace : (v.fmt : ℤ) + (FormatItem.directive head conv).text.length = v'.fmt := by
        rw [directive_next hchar hne hconv, Nat.cast_add]
      have hrec : (FormatItem.directive head conv).Recognised := hknown
      rw [and_iff_right hrec, hplace, places_data, FormatItem.echo, hknown, if_pos rfl]
      rfl
    | false =>
      obtain ⟨n, rfl⟩ := traceConversion_unknown hconv (hchar ▸ hknown)
        (by dsimp only [atConversion]; omega)
      rw [places_unknown, FormatItem.echo, hknown, if_neg Bool.false_ne_true, directive_length]
      refine iff_of_false (placesFrom_ne _ _ _ _ _) fun h => ?_
      exact absurd (hknown.symm.trans h.1) Bool.false_ne_true
  | @flags v head honly =>
    rw [echoes, FormatItem.echo, cut_length, placesFrom_succ]
    exact iff_of_false (List.cons_ne_nil _ _).symm fun h => h _ List.mem_cons_self
  | @cut v v' head chunks hnot hchar hconv =>
    obtain ⟨n, rfl⟩ := traceConversion_unknown hconv (by rw [atConversion, hchar]; decide)
      (by dsimp only [atConversion]; omega)
    rw [places_unknown, echoes, FormatItem.echo, cut_length, ← List.append_nil (placesFrom (_ - _) _)]
    exact iff_of_false (placesFrom_ne _ _ _ _ _) fun h => h _ List.mem_cons_self

end Echo

/-- `vformat` echoes safely exactly the formats whose directives are all known and whole. -/
theorem echoes_safely_iff (env : FormatEnv) (f : CString) :
    EchoesSafely env f ↔ ∀ item ∈ formatItems f.bytes, item.Recognised := by
  obtain ⟨last, chunks, htrace, hrun⟩ := vformatTrace_items env f
  have hplaces : formatPlaces chunks = echoes 0 (formatItems f.bytes) ↔ _ := echoes_iff hrun
  constructor
  · rintro ⟨last', chunks', htrace', -, h⟩
    obtain ⟨-, rfl⟩ := Prod.mk.inj (Option.some.inj (htrace.symm.trans htrace'))
    exact hplaces.1 h
  · intro h
    refine ⟨last, chunks, htrace, fun i hi => ?_, hplaces.2 h⟩
    rw [hplaces.2 h] at hi
    have hi' := echoes_within hi
    rw [formatItems_text] at hi'
    rw [Int.zero_add] at hi'
    exact hi'

/-- `%k` is put out with the byte in front of it. -/
theorem echo_runs_before : ¬ ∀ (env : FormatEnv) (f : CString), EchoesSafely env f := by
  intro h
  obtain ⟨last, chunks, htrace, hwithin, -⟩ := h plainEnv ⟨"%k".toList.map ch, by decide⟩
  have hchunks : (vformatTrace plainEnv ("%k".toList.map ch)).map Prod.snd =
      some [.format 0 0, .format (-1) 3] := rfl
  rw [htrace] at hchunks
  obtain rfl := Option.some.inj hchunks
  exact absurd (hwithin (-1) (by decide)).1 (by decide)

end DepthOS
