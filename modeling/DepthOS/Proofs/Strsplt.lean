import DepthOS.Spec.Open

/-! What `strsplt` leaves in its slots. The strings it writes are the parts of the source,
one to a slot, except that slot `n` takes all that is left: so a limit of `n` is `n + 1`
slots. Nothing limits a part to its slot. -/

namespace DepthOS

open Lib

/-- The strings that the loop writes, slot after slot. -/
def strspltPieces (n : ℕ) (delim : Byte) : ℕ → ℕ → List Byte → List (List Byte)
  | 0, _, _ => []
  | fuel + 1, c, p =>
    match p.findIdx? (· = delim) with
    | none => [p]
    | some k =>
      if n > 0 ∧ c = n then [p] else p.take k :: strspltPieces n delim fuel (c + 1) (p.drop (k + 1))

/-- Strings with their NULs, from slot `c` on. -/
def writeSlots (bufStrSize : ℕ) : ℕ → List (List Byte) → Mem → Mem
  | _, [], dest => dest
  | c, s :: rest, dest =>
    writeSlots bufStrSize (c + 1) rest (blit dest (bufStrSize * c) (ofBytes s) (s.length + 1))

variable {n c fuel bufStrSize : ℕ} {delim : Byte} {p s : List Byte} {dest : Mem}
  {parts : List (List Byte)}

/-! The loop. -/

theorem strspltLoop_eq (hfuel : p.length < fuel) :
    strspltLoop bufStrSize n delim fuel c p dest =
      (c + (strspltPieces n delim fuel c p).length,
        writeSlots bufStrSize c (strspltPieces n delim fuel c p) dest) := by
  induction fuel generalizing c p dest with
  | zero => omega
  | succ fuel ih =>
    unfold strspltLoop strspltPieces
    cases hp : p.findIdx? (· = delim) with
    | none => rfl
    | some k =>
      dsimp only
      split_ifs
      · rfl
      · have hk := (List.findIdx?_eq_some_iff_getElem.1 hp).1
        rw [ih (by rw [List.length_drop]; omega), List.length_cons, writeSlots, List.length_take,
          Nat.min_eq_left hk.le]
        congr 1
        omega

theorem findIdx?_split {k : ℕ} (h : p.findIdx? (· = delim) = some k) :
    p = p.take k ++ delim :: p.drop (k + 1) ∧ delim ∉ p.take k := by
  obtain ⟨hk, hat, hbefore⟩ := List.findIdx?_eq_some_iff_getElem.1 h
  constructor
  · have hget : p[k] = delim := by simpa using hat
    rw [← hget, List.getElem_cons_drop, List.take_append_drop]
  · intro hmem
    obtain ⟨i, hi, hget⟩ := List.mem_take_iff_getElem.1 hmem
    have := hbefore i (by omega)
    simp [hget] at this

theorem findIdx?_count {k : ℕ} (h : p.findIdx? (· = delim) = some k) :
    p.count delim = (p.drop (k + 1)).count delim + 1 := by
  obtain ⟨hsplit, hbefore⟩ := findIdx?_split h
  conv_lhs => rw [hsplit]
  rw [List.count_append, List.count_eq_zero_of_not_mem hbefore, List.count_cons_self, Nat.zero_add]

theorem findIdx?_none (h : p.findIdx? (· = delim) = none) : delim ∉ p := by
  rw [List.findIdx?_eq_none_iff] at h
  intro hmem
  have := h delim hmem
  simp at this

theorem strspltPieces_length (hfuel : p.length < fuel) (hc : c ≤ n) (hn : 0 < n) :
    (strspltPieces n delim fuel c p).length = min (p.count delim) (n - c) + 1 := by
  induction fuel generalizing c p with
  | zero => omega
  | succ fuel ih =>
    unfold strspltPieces
    cases hp : p.findIdx? (· = delim) with
    | none =>
      rw [List.count_eq_zero_of_not_mem (findIdx?_none hp)]
      simp
    | some k =>
      have hk := (List.findIdx?_eq_some_iff_getElem.1 hp).1
      have hcount := findIdx?_count hp
      dsimp only
      split_ifs with hlast
      · rw [hcount, hlast.2]
        simp
      · rw [List.length_cons, ih (by rw [List.length_drop]; omega) (by omega), hcount]
        omega

theorem strspltPieces_eq (hfuel : p.length < fuel) (hn : n = 0 ∨ c + p.count delim < n) :
    strspltPieces n delim fuel c p = p.splitOn delim := by
  induction fuel generalizing c p with
  | zero => omega
  | succ fuel ih =>
    unfold strspltPieces
    cases hp : p.findIdx? (· = delim) with
    | none => rw [List.splitOn_eq_singleton (findIdx?_none hp)]
    | some k =>
      obtain ⟨hsplit, hbefore⟩ := findIdx?_split hp
      have hk := (List.findIdx?_eq_some_iff_getElem.1 hp).1
      have hcount := findIdx?_count hp
      dsimp only
      rw [if_neg (by omega), ih (by rw [List.length_drop]; omega) (by omega)]
      conv_rhs => rw [hsplit]
      rw [List.splitOn_append_cons_self_of_not_mem hbefore]

theorem splitOn_length (p : List Byte) (delim : Byte) :
    (p.splitOn delim).length = p.count delim + 1 := by
  rw [← strspltPieces_eq (c := 0) (n := p.count delim + 1) (Nat.lt_succ_self _) (Or.inr (by omega)),
    strspltPieces_length (Nat.lt_succ_self _) (Nat.zero_le _) (Nat.succ_pos _)]
  omega

/-! The slots. -/

theorem writeSlots_other {x : ℕ} (h : ∀ k s, parts[k]? = some s →
    x < bufStrSize * (c + k) ∨ bufStrSize * (c + k) + s.length < x) :
    writeSlots bufStrSize c parts dest x = dest x := by
  induction parts generalizing c dest with
  | nil => rfl
  | cons t rest ih =>
    have ht := h 0 t rfl
    rw [Nat.add_zero c] at ht
    unfold writeSlots
    rw [ih ?_, blit_other (by omega)]
    intro k s hs
    have := h (k + 1) s hs
    rwa [show c + (k + 1) = c + 1 + k by omega] at this

theorem writeSlots_before {x : ℕ} (hx : x < bufStrSize * c) :
    writeSlots bufStrSize c parts dest x = dest x := by
  apply writeSlots_other
  intro k s _
  exact Or.inl (hx.trans_le (Nat.mul_le_mul_left _ (Nat.le_add_right c k)))

theorem writeSlots_holds (hshort : ∀ s ∈ parts, s.length < bufStrSize)
    (htext : ∀ s ∈ parts, (0 : Byte) ∉ s) {k : ℕ} (hs : parts[k]? = some s) :
    HoldsStr (writeSlots bufStrSize c parts dest) (bufStrSize * (c + k)) s := by
  induction parts generalizing c k dest with
  | nil => cases hs
  | cons t rest ih =>
    unfold writeSlots
    cases k with
    | zero =>
      obtain rfl : t = s := Option.some.inj hs
      have hlen := hshort t List.mem_cons_self
      have hnext : bufStrSize * (c + 1) = bufStrSize * c + bufStrSize := Nat.mul_succ _ _
      have hbyte : ∀ i ≤ t.length, writeSlots bufStrSize (c + 1) rest
          (blit dest (bufStrSize * c) (ofBytes t) (t.length + 1)) (bufStrSize * c + i) =
          ofBytes t i := by
        intro i hi
        rw [writeSlots_before (by omega), blit_inside (by omega)]
      rw [Nat.add_zero c]
      refine holdsStr_iff.2 ⟨htext t List.mem_cons_self, fun i hi => hbyte i hi.le, ?_⟩
      rw [hbyte t.length le_rfl]
      simp [ofBytes]
    | succ k =>
      rw [show c + (k + 1) = c + 1 + k by omega]
      exact ih (fun s hs => hshort s (List.mem_cons_of_mem _ hs))
        (fun s hs => htext s (List.mem_cons_of_mem _ hs)) hs

theorem strsplt_eq (src : CString) (dest : Mem) (bufStrSize n : ℕ) (delim : Byte) :
    strsplt src dest bufStrSize n delim =
      ((strspltPieces n delim (src.length + 1) 0 src.bytes).length,
        writeSlots bufStrSize 0 (strspltPieces n delim (src.length + 1) 0 src.bytes) dest) := by
  unfold strsplt CString.length
  rw [strspltLoop_eq (Nat.lt_succ_self _), Nat.zero_add]

theorem mem_strspltPieces {b : Byte} (hs : s ∈ strspltPieces n delim fuel c p) (hb : b ∈ s) :
    b ∈ p := by
  induction fuel generalizing c p with
  | zero => exact absurd hs List.not_mem_nil
  | succ fuel ih =>
    unfold strspltPieces at hs
    cases hp : p.findIdx? (· = delim) with
    | none =>
      rw [hp] at hs
      rwa [← List.mem_singleton.1 hs]
    | some k =>
      rw [hp] at hs
      dsimp only at hs
      split_ifs at hs
      · rwa [← List.mem_singleton.1 hs]
      · rcases List.mem_cons.1 hs with rfl | hs
        · exact List.mem_of_mem_take hb
        · exact List.mem_of_mem_drop (ih hs)

/-- A slot as a string. -/
def slotStr (bufStrSize : ℕ) (dest : Mem) (k : ℕ) : List Byte :=
  cstring (bytesAt dest (bufStrSize * k) bufStrSize)

theorem slotStr_of_holds {k : ℕ} (h : HoldsStr dest (bufStrSize * k) s)
    (hs : s.length < bufStrSize) :
    slotStr bufStrSize dest k = s := by
  obtain ⟨htext, hbytes, hend⟩ := holdsStr_iff.1 h
  have hfirst : bytesAt dest (bufStrSize * k) s.length = s := by
    apply List.ext_getElem (bytesAt_length _ _ _)
    intro i h1 h2
    rw [← List.getD_eq_getElem s 0 h2, ← hbytes i h2]
    simp [bytesAt]
  have hnul : bytesAt dest (bufStrSize * k + s.length) 1 = [0] := by
    rw [← hend]
    rfl
  have hbuf : bytesAt dest (bufStrSize * k) (s.length + (1 + (bufStrSize - s.length - 1))) =
      s ++ 0 :: bytesAt dest (bufStrSize * k + s.length + 1) (bufStrSize - s.length - 1) := by
    rw [bytesAt_add, bytesAt_add, hfirst, hnul, List.singleton_append]
  rw [show s.length + (1 + (bufStrSize - s.length - 1)) = bufStrSize by omega] at hbuf
  unfold slotStr
  rw [hbuf, cstring_append htext]

/-- Splitting inverts joining: the number of parts is returned, each part stands in its slot,
and the slots joined by the delimiter are the source. -/
theorem strsplt_splits (src : CString) (dest : Mem) (bufStrSize n : ℕ) (delim : Byte)
    (hparts : ∀ s ∈ src.bytes.splitOn delim, s.length < bufStrSize)
    (hn : n = 0 ∨ src.bytes.count delim < n) :
    (strsplt src dest bufStrSize n delim).1 = src.bytes.count delim + 1 ∧
    (∀ (k : ℕ) (s : List Byte), (src.bytes.splitOn delim)[k]? = some s →
      HoldsStr (strsplt src dest bufStrSize n delim).2 (bufStrSize * k) s) ∧
    [delim].intercalate ((List.range (strsplt src dest bufStrSize n delim).1).map
      (slotStr bufStrSize (strsplt src dest bufStrSize n delim).2)) = src.bytes := by
  have hpieces : strspltPieces n delim (src.length + 1) 0 src.bytes = src.bytes.splitOn delim :=
    strspltPieces_eq (Nat.lt_succ_self _) (by omega)
  have htext : ∀ s ∈ src.bytes.splitOn delim, (0 : Byte) ∉ s := by
    rw [← hpieces]
    exact fun s hs h0 => src.text (mem_strspltPieces hs h0)
  rw [strsplt_eq, hpieces]
  have hholds : ∀ (k : ℕ) (s : List Byte), (src.bytes.splitOn delim)[k]? = some s →
      HoldsStr (writeSlots bufStrSize 0 (src.bytes.splitOn delim) dest) (bufStrSize * k) s := by
    intro k s hs
    rw [← Nat.zero_add k]
    exact writeSlots_holds hparts htext hs
  refine ⟨splitOn_length src.bytes delim, hholds, ?_⟩
  have hslots : (List.range (src.bytes.splitOn delim).length).map
      (slotStr bufStrSize (writeSlots bufStrSize 0 (src.bytes.splitOn delim) dest)) =
      src.bytes.splitOn delim := by
    apply List.ext_getElem?
    intro k
    rw [List.getElem?_map]
    by_cases hk : k < (src.bytes.splitOn delim).length
    · have hs := List.getElem?_eq_getElem hk
      rw [List.getElem?_range hk, hs, Option.map_some,
        slotStr_of_holds (hholds k _ hs) (hparts _ (List.getElem_mem hk))]
    · rw [List.getElem?_eq_none (by simpa using hk), List.getElem?_eq_none (by simpa using hk)]
      rfl
  dsimp only
  rw [hslots, List.intercalate_splitOn]

/-- `a//b` -/
def doubledSlash : CString := ⟨[0x61, 0x2f, 0x2f, 0x62], by decide⟩

theorem strsplt_splits_doubled :
    (∀ s ∈ doubledSlash.bytes.splitOn PATH_SEPARATOR, s.length < 256) ∧
    doubledSlash.bytes.count PATH_SEPARATOR < 100 ∧
    (strsplt doubledSlash (fun _ => 0) 256 100 PATH_SEPARATOR).1 = 3 ∧
    (∀ (k : ℕ) (s : List Byte), [[0x61], [], [0x62]][k]? = some s →
      HoldsStr (strsplt doubledSlash (fun _ => 0) 256 100 PATH_SEPARATOR).2 (256 * k) s) ∧
    [PATH_SEPARATOR].intercalate
      ((List.range (strsplt doubledSlash (fun _ => 0) 256 100 PATH_SEPARATOR).1).map
        (slotStr 256 (strsplt doubledSlash (fun _ => 0) 256 100 PATH_SEPARATOR).2)) =
      doubledSlash.bytes := by
  have hshort : ∀ s ∈ doubledSlash.bytes.splitOn PATH_SEPARATOR, s.length < 256 := by decide
  have hcount : doubledSlash.bytes.count PATH_SEPARATOR < 100 := by decide
  exact ⟨hshort, hcount,
    strsplt_splits doubledSlash (fun _ => 0) 256 100 PATH_SEPARATOR hshort (Or.inr hcount)⟩

/-! The array. -/

theorem writeSlots_same {dest' : Mem} {x : ℕ} (h : dest x = dest' x) :
    writeSlots bufStrSize c parts dest x = writeSlots bufStrSize c parts dest' x := by
  induction parts generalizing c dest dest' with
  | nil => exact h
  | cons t rest ih =>
    unfold writeSlots
    apply ih
    unfold blit
    rw [h]

theorem writeSlots_written {dest' : Mem} {k i : ℕ} (hs : parts[k]? = some s) (hi : i ≤ s.length) :
    writeSlots bufStrSize c parts dest (bufStrSize * (c + k) + i) =
      writeSlots bufStrSize c parts dest' (bufStrSize * (c + k) + i) := by
  induction parts generalizing c k dest dest' with
  | nil => cases hs
  | cons t rest ih =>
    unfold writeSlots
    cases k with
    | zero =>
      obtain rfl : t = s := Option.some.inj hs
      apply writeSlots_same
      rw [Nat.add_zero c, blit_inside (by omega), blit_inside (by omega)]
    | succ k =>
      rw [show c + (k + 1) = c + 1 + k by omega]
      exact ih hs

theorem writeSlots_inside_iff {size : ℕ} :
    (∀ dest x, size ≤ x → writeSlots bufStrSize c parts dest x = dest x) ↔
      ∀ k s, parts[k]? = some s → bufStrSize * (c + k) + s.length < size := by
  constructor
  · intro h k s hs
    by_contra hout
    let dest : Mem := fun _ => 0
    let dest' : Mem := fun _ => 1
    have heq : writeSlots bufStrSize c parts dest (bufStrSize * (c + k) + s.length) =
        writeSlots bufStrSize c parts dest' (bufStrSize * (c + k) + s.length) :=
      writeSlots_written hs le_rfl
    rw [h dest _ (Nat.le_of_not_lt hout), h dest' _ (Nat.le_of_not_lt hout)] at heq
    exact absurd heq (by decide)
  · intro h dest x hx
    apply writeSlots_other
    intro k s hs
    exact Or.inr ((h k s hs).trans_le hx)

/-- `ext2_open` has 100 slots of 256 bytes. -/
theorem ext2_fragments_inside_iff (path : CString) :
    (∀ pfrag x, 100 * 256 ≤ x → (strsplt path pfrag 256 100 PATH_SEPARATOR).2 x = pfrag x) ↔
      path.bytes.count PATH_SEPARATOR < 100 ∧
      ∀ k s, (path.bytes.splitOn PATH_SEPARATOR)[k]? = some s → 256 * k + s.length < 100 * 256 := by
  simp only [strsplt_eq]
  rw [writeSlots_inside_iff]
  simp only [Nat.zero_add]
  have hlength : (strspltPieces 100 PATH_SEPARATOR (path.length + 1) 0 path.bytes).length =
      min (path.bytes.count PATH_SEPARATOR) 100 + 1 :=
    strspltPieces_length (Nat.lt_succ_self _) (Nat.zero_le _) (by omega)
  constructor
  · intro h
    have hcount : path.bytes.count PATH_SEPARATOR < 100 := by
      by_contra hmany
      have hlast :
          100 < (strspltPieces 100 PATH_SEPARATOR (path.length + 1) 0 path.bytes).length := by
        rw [hlength]
        omega
      have := h 100 _ (List.getElem?_eq_getElem hlast)
      omega
    rw [CString.length, strspltPieces_eq (Nat.lt_succ_self _) (by omega)] at h
    exact ⟨hcount, h⟩
  · rintro ⟨hcount, h⟩
    rw [CString.length, strspltPieces_eq (Nat.lt_succ_self _) (by omega)]
    exact h

/-- A hundred separators. -/
def manySlashes : CString :=
  ⟨List.replicate 100 PATH_SEPARATOR, fun h => absurd (List.eq_of_mem_replicate h) (by decide)⟩

/-- Slot 100 gets the terminator of the part after the last separator. -/
theorem many_slashes_leave :
    ¬∀ pfrag x, 100 * 256 ≤ x →
      (strsplt manySlashes pfrag 256 100 PATH_SEPARATOR).2 x = pfrag x := by
  intro h
  have hlast := h (fun _ => 1) (100 * 256) le_rfl
  exact absurd hlast (by decide +kernel)

end DepthOS
