import DepthOS.Spec.Gdt

/-! What a change of base does to a descriptor. The lower half comes out right, so a
descriptor's history is only its present base; for the upper half the code takes the old
bits from the lower half. -/

namespace DepthOS

/-- The bits of the lower half that a change of base moves into the upper one, bits 8 to 23,
are those that stood there. -/
def BaseSpares (base limit flags access : BitVec 32) : Prop :=
  limit.extractLsb' 8 8 = access.extractLsb' 0 8 ∧
    base.extractLsb' 0 8 = flags.extractLsb' 0 4 ++ limit.extractLsb' 16 4

instance (base limit flags access : BitVec 32) : Decidable (BaseSpares base limit flags access) := by
  unfold BaseSpares
  infer_instance

/-- The base that descriptor `i` has after the changes. -/
def currentBase (base : BitVec 32) (i : ℕ) (cs : List (ℕ × BitVec 32)) : BitVec 32 :=
  cs.foldl (fun base c => if c.1 = i then c.2 else base) base

variable {base limit flags access b b1 b2 : BitVec 32} {entry : GdtDesc} {i : ℕ}

/-! The two halves, bit by bit. -/

theorem gdtDescOf_low (hi : i < 32) : (gdtDescOf b2 b1).getLsbD i = b1.getLsbD i := by
  unfold gdtDescOf
  rw [BitVec.getLsbD_or, BitVec.getLsbD_shiftLeft, BitVec.getLsbD_setWidth]
  simp [hi, show i < 64 by omega]

theorem gdtDescOf_high (hi : i < 32) : (gdtDescOf b2 b1).getLsbD (i + 32) = b2.getLsbD i := by
  unfold gdtDescOf
  rw [BitVec.getLsbD_or, BitVec.getLsbD_shiftLeft, BitVec.getLsbD_setWidth, BitVec.getLsbD_setWidth,
    Nat.add_sub_cancel, BitVec.getLsbD_of_ge b1 (i + 32) (by omega)]
  simp [show i + 32 < 64 by omega, show i < 64 by omega]

theorem desc_eq_iff {e e' : GdtDesc} : e = e' ↔
    (∀ i < 32, e.getLsbD i = e'.getLsbD i) ∧ ∀ i < 32, e.getLsbD (i + 32) = e'.getLsbD (i + 32) := by
  constructor
  · rintro rfl
    exact ⟨fun _ _ => rfl, fun _ _ => rfl⟩
  · rintro ⟨hlow, hhigh⟩
    apply BitVec.eq_of_getLsbD_eq
    intro i hi
    by_cases h : i < 32
    · exact hlow i h
    · have hbit := hhigh (i - 32) (by omega)
      rwa [Nat.sub_add_cancel (by omega)] at hbit

theorem baseLow_bit (hi : i < 32) :
    (gdtDescBaseLow base).getLsbD i = (decide (16 ≤ i) && base.getLsbD (i - 16)) := by
  have hmask : ∀ i < 32, (0x0000ffff#32).getLsbD i = decide (i < 16) := by decide
  unfold gdtDescBaseLow
  rw [BitVec.getLsbD_shiftLeft, BitVec.getLsbD_and, hmask (i - 16) (by omega)]
  by_cases h16 : 16 ≤ i
  · simp [h16, hi, show i - 16 < 16 by omega, show ¬ i < 16 by omega]
  · simp [h16, show i < 16 by omega]

theorem limitLow_bit (hi : i < 32) :
    (gdtDescLimitLow limit).getLsbD i = (decide (i < 16) && limit.getLsbD i) := by
  have hmask : ∀ i < 32, (0x0000ffff#32).getLsbD i = decide (i < 16) := by decide
  unfold gdtDescLimitLow
  rw [BitVec.getLsbD_and, hmask i hi, Bool.and_comm]

theorem midhigh_bit (hi : 8 ≤ i ∧ i < 24) : (gdtDescBaseMidhigh base).getLsbD i = false := by
  have hhigh : ∀ i < 24, (0xff000000#32).getLsbD i = false := by decide
  have hmid : ∀ i < 24, 8 ≤ i → (0x00ff0000#32).getLsbD (16 + i) = false := by decide
  unfold gdtDescBaseMidhigh
  rw [BitVec.getLsbD_or, BitVec.getLsbD_and, BitVec.getLsbD_ushiftRight, BitVec.getLsbD_and,
    hhigh i hi.2, hmid i hi.2 hi.1, Bool.and_false, Bool.and_false, Bool.or_false]

/-- Bits 8 to 23 of the upper half: the access byte, the high bits of the limit, the flags. -/
def fieldBit (limit flags access : BitVec 32) (i : ℕ) : Bool :=
  if i < 16 then access.getLsbD (i - 8)
  else if i < 20 then limit.getLsbD i else flags.getLsbD (i - 20)

theorem fields_bit (hi : i < 32) :
    (gdtDescLimitHigh limit ||| gdtDescAccess access ||| gdtDescFlags flags).getLsbD i =
      (decide (8 ≤ i ∧ i < 24) && fieldBit limit flags access i) := by
  have hlimit : ∀ i < 32, GDT_DESC_LIMIT_HIGH_MASK.getLsbD i = decide (16 ≤ i ∧ i < 20) := by decide
  have haccess : ∀ i < 32, (0xff#32).getLsbD i = decide (i < 8) := by decide
  have hflags : ∀ i < 32, (0xf#32).getLsbD i = decide (i < 4) := by decide
  unfold gdtDescLimitHigh gdtDescAccess gdtDescFlags fieldBit
  rw [BitVec.getLsbD_or, BitVec.getLsbD_or, BitVec.getLsbD_shiftLeft, BitVec.getLsbD_shiftLeft,
    BitVec.getLsbD_and, BitVec.getLsbD_and, BitVec.getLsbD_and, hlimit i hi,
    haccess (i - 8) (by omega), hflags (i - 20) (by omega)]
  by_cases h8 : i < 8
  · simp [h8, show ¬ 8 ≤ i by omega, show ¬ 16 ≤ i by omega, show i < 20 by omega]
  by_cases h16 : i < 16
  · simp [h8, h16, hi, show ¬ 16 ≤ i by omega, show i < 20 by omega, show i - 8 < 8 by omega,
      show 8 ≤ i by omega, show i < 24 by omega]
  by_cases h20 : i < 20
  · simp [h16, h20, hi, show 16 ≤ i by omega, show ¬ i - 8 < 8 by omega, show 8 ≤ i by omega,
      show i < 24 by omega]
  by_cases h24 : i < 24
  · simp [h16, h20, h24, hi, show ¬ i - 8 < 8 by omega, show i - 20 < 4 by omega,
      show 8 ≤ i by omega]
  · simp [h20, h24, show ¬ i - 8 < 8 by omega, show ¬ i - 20 < 4 by omega]

theorem make_low (hi : i < 32) : (makeGdtDesc base limit flags access).getLsbD i =
    if i < 16 then limit.getLsbD i else base.getLsbD (i - 16) := by
  unfold makeGdtDesc
  dsimp only
  rw [gdtDescOf_low hi, BitVec.getLsbD_or, baseLow_bit hi, limitLow_bit hi]
  by_cases h16 : i < 16
  · simp [h16, show ¬ 16 ≤ i by omega]
  · simp [h16, show 16 ≤ i by omega]

theorem make_high (hi : i < 32) : (makeGdtDesc base limit flags access).getLsbD (i + 32) =
    ((gdtDescBaseMidhigh base).getLsbD i ||
      (decide (8 ≤ i ∧ i < 24) && fieldBit limit flags access i)) := by
  unfold makeGdtDesc
  dsimp only
  rw [gdtDescOf_high hi, BitVec.or_assoc, BitVec.or_assoc, BitVec.getLsbD_or,
    ← BitVec.or_assoc (gdtDescLimitHigh limit), fields_bit hi]

/-! One change. -/

theorem set_low (hi : i < 32) : (descSetBase entry b).getLsbD i =
    if i < 16 then entry.getLsbD i else b.getLsbD (i - 16) := by
  have hmask : ∀ i < 32, ((~~~GDT_DESC_BASE_LOW_MASK).setWidth 64).getLsbD i = decide (i < 16) := by
    decide
  unfold descSetBase
  dsimp only
  rw [gdtDescOf_low hi, BitVec.getLsbD_or, BitVec.getLsbD_setWidth, BitVec.getLsbD_and, hmask i hi,
    baseLow_bit hi]
  by_cases h16 : i < 16
  · simp [h16, hi, show ¬ 16 ≤ i by omega]
  · simp [h16, show 16 ≤ i by omega]

theorem set_high (hi : i < 32) : (descSetBase entry b).getLsbD (i + 32) =
    ((gdtDescBaseMidhigh b).getLsbD i || (decide (8 ≤ i ∧ i < 24) && entry.getLsbD i)) := by
  have hmask : ∀ i < 32, ((~~~GDT_DESC_BASE_MIDHIGH_MASK).setWidth 64).getLsbD i =
      decide (8 ≤ i ∧ i < 24) := by decide
  unfold descSetBase
  dsimp only
  rw [gdtDescOf_high hi, BitVec.getLsbD_or, BitVec.getLsbD_setWidth, BitVec.getLsbD_and, hmask i hi,
    decide_eq_true hi, Bool.true_and, Bool.or_comm, Bool.and_comm]

theorem descSetBase_congr {e e' : GdtDesc} (h : ∀ i < 32, e.getLsbD i = e'.getLsbD i) :
    descSetBase e b = descSetBase e' b := by
  refine desc_eq_iff.2 ⟨fun i hi => ?_, fun i hi => ?_⟩
  · rw [set_low hi, set_low hi, h i hi]
  · rw [set_high hi, set_high hi, h i hi]

theorem baseSpares_iff : BaseSpares base limit flags access ↔ ∀ i, 8 ≤ i → i < 24 →
    (if i < 16 then limit.getLsbD i else base.getLsbD (i - 16)) = fieldBit limit flags access i := by
  unfold BaseSpares fieldBit
  constructor
  · rintro ⟨haccess, hbase⟩ i hlo hhi
    by_cases h16 : i < 16
    · have hbit := congrArg (fun v : BitVec 8 => v.getLsbD (i - 8)) haccess
      simp only [BitVec.getLsbD_extractLsb', show i - 8 < 8 by omega, decide_true, Bool.true_and,
        Nat.add_sub_cancel' hlo, Nat.zero_add] at hbit
      rw [if_pos h16, if_pos h16, hbit]
    · have hbit := congrArg (fun v : BitVec 8 => v.getLsbD (i - 16)) hbase
      rw [BitVec.getLsbD_extractLsb', BitVec.getLsbD_append, BitVec.getLsbD_extractLsb',
        BitVec.getLsbD_extractLsb', Nat.zero_add, Nat.zero_add, Nat.add_sub_cancel' (by omega)] at hbit
      rw [if_neg h16, if_neg h16]
      by_cases h20 : i < 20
      · simpa [h20, show i - 16 < 8 by omega, show i - 16 < 4 by omega] using hbit
      · simpa [h20, show i - 16 < 8 by omega, show ¬ i - 16 < 4 by omega,
          show i - 16 - 4 = i - 20 by omega, show i - 20 < 4 by omega] using hbit
  · intro h
    constructor
    · apply BitVec.eq_of_getLsbD_eq
      intro i hi
      have hbit := h (i + 8) (by omega) (by omega)
      rw [if_pos (by omega), if_pos (by omega), Nat.add_sub_cancel] at hbit
      rw [BitVec.getLsbD_extractLsb', BitVec.getLsbD_extractLsb', Nat.zero_add, Nat.add_comm 8, hbit]
    · apply BitVec.eq_of_getLsbD_eq
      intro i hi
      have hbit := h (i + 16) (by omega) (by omega)
      rw [if_neg (by omega), if_neg (by omega), Nat.add_sub_cancel] at hbit
      rw [BitVec.getLsbD_extractLsb', BitVec.getLsbD_append, BitVec.getLsbD_extractLsb',
        BitVec.getLsbD_extractLsb', Nat.zero_add, Nat.zero_add, Nat.add_comm 16, hbit,
        decide_eq_true hi, Bool.true_and]
      by_cases h4 : i < 4
      · simp [h4, show i + 16 < 20 by omega]
      · simp [h4, show ¬ i + 16 < 20 by omega, show i - 4 < 4 by omega,
          show i + 16 - 20 = i - 4 by omega]

theorem descSetBase_iff : descSetBase (makeGdtDesc base limit flags access) b =
    makeGdtDesc b limit flags access ↔ BaseSpares base limit flags access := by
  rw [baseSpares_iff, desc_eq_iff]
  constructor
  · rintro ⟨-, hhigh⟩ i hlo hhi
    have hbit := hhigh i (by omega)
    rw [set_high (by omega), make_high (by omega), make_low (by omega), midhigh_bit ⟨hlo, hhi⟩] at hbit
    simpa [hlo, hhi] using hbit
  · refine fun h => ⟨fun i hi => ?_, fun i hi => ?_⟩
    · rw [set_low hi, make_low hi, make_low hi]
      split_ifs <;> rfl
    · rw [set_high hi, make_high hi, make_low hi]
      by_cases hin : 8 ≤ i ∧ i < 24
      · rw [h i hin.1 hin.2]
      · rw [decide_eq_false hin, Bool.false_and, Bool.false_and]

/-! Any number of changes, in the table. -/

section Table

variable {gdt : Gdt} {e : GdtEntry} {cs : List (ℕ × BitVec 32)} {j : Fin GDT_SIZE}

theorem setBase_get (gdt : Gdt) (i : ℕ) (b : BitVec 32) (j : Fin GDT_SIZE) :
    (x86GdtSetBase gdt i b)[j] = if i = j then descSetBase gdt[j] b else gdt[j] := by
  unfold x86GdtSetBase
  by_cases hi : i < GDT_SIZE
  · rw [dif_pos hi]
    by_cases hij : i = j
    · subst hij
      simp
    · simp [hij]
  · rw [dif_neg hi, if_neg (by have := j.isLt; omega)]

theorem setEntry_get (gdt : Gdt) (j : Fin GDT_SIZE) (e : GdtEntry) :
    (x86GdtSetEntry gdt j e)[j] = makeGdtDesc e.base e.limit e.flags e.access := by
  simp [x86GdtSetEntry]

theorem changeBases_snoc (gdt : Gdt) (cs : List (ℕ × BitVec 32)) (i : ℕ) (b : BitVec 32) :
    changeBases gdt (cs ++ [(i, b)]) = x86GdtSetBase (changeBases gdt cs) i b := by
  simp [changeBases]

theorem currentBase_snoc (base : BitVec 32) (i k : ℕ) (b : BitVec 32) :
    currentBase base i (cs ++ [(k, b)]) = if k = i then b else currentBase base i cs := by
  simp [currentBase]

theorem history_low (hi : i < 32) :
    (changeBases (x86GdtSetEntry gdt j e) cs)[j].getLsbD i =
      (makeGdtDesc (currentBase e.base j cs) e.limit e.flags e.access).getLsbD i := by
  induction cs using List.reverseRecOn with
  | nil => exact congrArg (·.getLsbD i) (setEntry_get gdt j e)
  | append_singleton cs c ih =>
    obtain ⟨k, b⟩ := c
    rw [changeBases_snoc, currentBase_snoc, setBase_get]
    by_cases hk : k = j
    · rw [if_pos hk, if_pos hk, set_low hi, make_low hi, ih, make_low hi]
      split_ifs <;> rfl
    · rw [if_neg hk, if_neg hk, ih]

/-- After any changes of bases one more gives the descriptor with the new base exactly when
the base before it happens to hold the other fields; the other descriptors stay. -/
theorem gdt_base_change_iff (gdt : Gdt) (j : Fin GDT_SIZE) (e : GdtEntry)
    (cs : List (ℕ × BitVec 32)) (b : BitVec 32) :
    ((changeBases (x86GdtSetEntry gdt j e) (cs ++ [(j.val, b)]))[j] =
        makeGdtDesc b e.limit e.flags e.access ↔
      BaseSpares (currentBase e.base j cs) e.limit e.flags e.access) ∧
    ∀ k : Fin GDT_SIZE, k ≠ j → (changeBases (x86GdtSetEntry gdt j e) (cs ++ [(j.val, b)]))[k] =
      (changeBases (x86GdtSetEntry gdt j e) cs)[k] := by
  have hlow : descSetBase (changeBases (x86GdtSetEntry gdt j e) cs)[j] b =
      descSetBase (makeGdtDesc (currentBase e.base j cs) e.limit e.flags e.access) b :=
    descSetBase_congr fun i hi => history_low hi
  rw [changeBases_snoc]
  constructor
  · rw [setBase_get, if_pos rfl, hlow]
    exact descSetBase_iff
  · intro k hk
    rw [setBase_get, if_neg fun h => hk (Fin.ext h.symm)]

/-- The descriptor of the thread-local data, as the kernel makes it: its first change of
base, to the base it has, loses access byte, flags and high limit. -/
theorem gdt_base_change_loses : ¬ ∀ (gdt : Gdt) (j : Fin GDT_SIZE) (e : GdtEntry)
    (cs : List (ℕ × BitVec 32)) (b : BitVec 32), e.limit < 0x100000#32 → e.flags < 16#32 →
    e.access < 0x100#32 → (changeBases (x86GdtSetEntry gdt j e) (cs ++ [(j.val, b)]))[j] =
      makeGdtDesc b e.limit e.flags e.access := by
  intro h
  have hgs := h (Vector.replicate GDT_SIZE 0) 6 (makeGdtEntryData 0 0xfffff 3 false true) [] 0
    (by decide) (by decide) (by decide)
  rw [changeBases_snoc, setBase_get, if_pos rfl] at hgs
  have hfirst : (changeBases (x86GdtSetEntry (Vector.replicate GDT_SIZE 0) (6 : Fin GDT_SIZE)
      (makeGdtEntryData 0 0xfffff 3 false true)) [])[(6 : Fin GDT_SIZE)] =
      makeGdtDesc 0 0xfffff 0xc 0xf2 := setEntry_get _ _ _
  rw [hfirst] at hgs
  exact absurd hgs (by decide)

end Table

end DepthOS
