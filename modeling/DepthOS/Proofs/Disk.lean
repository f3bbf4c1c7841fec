import DepthOS.Spec.Disk

/-! Where transfers end. A partition and an ATA drive both cut a transfer at their end, by
an unsigned sum and an unsigned difference: right where the sum does not wrap and the
offset is not behind the end. The ATA routines then take a count of eight bits. -/

namespace DepthOS

/-- A transfer that begins within `size` sectors, and whose end is not taken for a small
number after the sum has wrapped. -/
def CutRight (size count offset : ℕ) : Prop :=
  offset ≤ size ∧ (offset + count < 4294967296 ∨ size ≤ offset + count - 4294967296)

instance (size count offset : ℕ) : Decidable (CutRight size count offset) := by
  unfold CutRight
  infer_instance

/-! Partitions. -/

/-- Every sector that the device is asked for is one of the partition. -/
def Isolated (p : GenericPartition) (r : Option PartTransfer) : Prop :=
  ∀ t, r = some t → ∀ x, t.Asks x → p.lba ≤ x ∧ x < p.lba + p.sectorCount

variable {p : GenericPartition} {op : DevTransfer} {count offset : ℕ}

theorem sub32_eq {a b : ℕ} (ha : a < 4294967296) (hb : b < 4294967296) :
    sub32 a b = if b ≤ a then a - b else 4294967296 + a - b := by
  unfold sub32 u32
  split_ifs <;> omega

theorem isolated_no_op (count offset : ℕ) : Isolated p (partdevTransfer p none count offset) := by
  have hcall : ∀ n, partdevCall p none n offset = none := fun n => rfl
  rintro t ht x ⟨first, n, hasked, -⟩
  unfold partdevTransfer at ht
  rw [hcall, hcall] at ht
  split_ifs at ht
  · obtain rfl := Option.some.inj ht
    cases hasked
  · obtain rfl := Option.some.inj ht
    cases hasked

theorem isolated_call_iff {transfer : ℕ → ℕ → ℤ × ℕ} (n : ℕ) :
    Isolated p (partdevCall p (some transfer) n offset) ↔
      ∀ x, u32 (offset + p.lba) ≤ x → x < u32 (offset + p.lba) + n →
        p.lba ≤ x ∧ x < p.lba + p.sectorCount := by
  constructor
  · intro h x hlo hhi
    exact h _ rfl x ⟨_, _, rfl, hlo, hhi⟩
  · rintro h t ht x ⟨first, k, hasked, hlo, hhi⟩
    obtain rfl := Option.some.inj ht
    obtain ⟨rfl, rfl⟩ := Prod.mk.inj (Option.some.inj hasked)
    exact h x hlo hhi

theorem isolated_iff (hfit : p.lba + p.sectorCount ≤ 4294967296)
    (hsize : p.sectorCount < 4294967296) (hcount : count < 4294967296)
    (hoffset : offset < 4294967296) :
    Isolated p (partdevTransfer p op count offset) ↔
      op = none ∨ p.sectorCount = 0 ∨ CutRight p.sectorCount count offset := by
  cases op with
  | none => exact iff_of_true (isolated_no_op count offset) (Or.inl rfl)
  | some transfer =>
    unfold partdevTransfer
    by_cases h0 : p.sectorCount = 0
    · rw [if_pos h0]
      refine iff_of_true ?_ (Or.inr (Or.inl h0))
      rintro t ht x ⟨first, n, hasked, -⟩
      obtain rfl := Option.some.inj ht
      cases hasked
    · rw [if_neg h0]
      have hcond : (some transfer = none ∨ p.sectorCount = 0 ∨ CutRight p.sectorCount count offset) ↔
          CutRight p.sectorCount count offset := by simp [h0]
      rw [hcond]
      unfold CutRight
      by_cases hcut : u32 (offset + count) ≥ p.sectorCount
      · rw [if_pos hcut, isolated_call_iff, sub32_eq hsize hoffset]
        unfold u32 at hcut ⊢
        constructor
        · intro h
          -- behind the end the first sector asked for is already outside
          by_contra hne
          have hfirst := h ((offset + p.lba) % 4294967296) le_rfl
          rw [if_neg (by omega)] at hfirst
          omega
        · rintro ⟨hin, -⟩ x hlo hhi
          rw [if_pos hin] at hhi
          omega
      · rw [if_neg hcut, if_neg (by simp), isolated_call_iff]
        unfold u32 at hcut ⊢
        constructor
        · intro h
          by_contra hne
          -- the sum has wrapped, so the transfer passes the end of the partition
          have hfirst := h ((offset + p.lba) % 4294967296) le_rfl
          have hend := h (p.lba + p.sectorCount)
          omega
        · rintro ⟨hin, hsum⟩ x hlo hhi
          omega

/-- A partition's transfers stay inside it exactly when they begin inside it and their end
does not wrap. -/
theorem partitions_isolated_iff (p : GenericPartition) (count offset : ℕ)
    (hfit : p.lba + p.sectorCount ≤ 4294967296) (hsize : p.sectorCount < 4294967296)
    (hcount : count < 4294967296) (hoffset : offset < 4294967296) :
    (Isolated p (partdevRead p count offset) ↔
      p.dev.read = none ∨ p.sectorCount = 0 ∨ CutRight p.sectorCount count offset) ∧
    (Isolated p (partdevWrite p count offset) ↔
      p.dev.write = none ∨ p.sectorCount = 0 ∨ CutRight p.sectorCount count offset) :=
  ⟨isolated_iff hfit hsize hcount hoffset, isolated_iff hfit hsize hcount hoffset⟩

/-- A device that transfers all it is asked for. -/
def wholeDevice : BlockDevice :=
  let transfer : ℕ → ℕ → ℤ × ℕ := fun count offset => (s32 count, u32 (offset + count))
  ⟨some transfer, some transfer⟩

/-- A hundred sectors from 2048 on. -/
def hundredSectors : GenericPartition := ⟨wholeDevice, 2048, 100⟩

/-- Eight sectors at 96 are cut to four. -/
theorem partitions_isolated_cut : Isolated hundredSectors (partdevRead hundredSectors 8 96) ∧
    (partdevRead hundredSectors 8 96).map (·.ret) = some 4 :=
  ⟨(partitions_isolated_iff hundredSectors 8 96 (by decide) (by decide) (by decide)
    (by decide)).1.2 (Or.inr (Or.inr (by decide))), by decide⟩

/-- A transfer from sector 150 on goes to what lies behind the partition. -/
theorem partition_left : ¬ ∀ (p : GenericPartition) (count offset : ℕ),
    p.lba + p.sectorCount ≤ 4294967296 → p.sectorCount < 4294967296 → count < 4294967296 →
    offset < 4294967296 →
    Isolated p (partdevRead p count offset) ∧ Isolated p (partdevWrite p count offset) := by
  intro h
  have hwrite := (h hundredSectors 8 150 (by decide) (by decide) (by decide) (by decide)).2
  have hasked : (partdevWrite hundredSectors 8 150).map (·.asked) =
      some (some (2198, 4294967246)) := by decide
  obtain ⟨t, ht, ha⟩ := Option.map_eq_some_iff.1 hasked
  have hfirst := (hwrite t ht 2198 ⟨_, _, ha, by decide, by decide⟩).2
  exact absurd hfirst (by decide)

/-! ATA. -/

/-- The call returns the number of sectors that its routine is asked for and moves the offset
on by as many, all of them within the drive. -/
def AtaReports (capacity offset : ℕ) (r : Option AtaTransfer) : Prop :=
  ∃ t, r = some t ∧ t.ret = t.asked.length ∧ t.offset = offset + t.asked.length ∧
    ∀ x ∈ t.asked, x < capacity

/-- The most sectors that a routine moves. -/
abbrev PIO_LIMIT : ℕ := 255
abbrev DMA_LIMIT : ℕ := 128

/-- What is left of the transfer at the end of the drive is no more than `limit`. -/
def AtaFits (limit capacity count offset : ℕ) : Prop :=
  capacity ≤ offset ∨ min count (capacity - offset) ≤ limit ∧ CutRight capacity count offset

instance (limit capacity count offset : ℕ) : Decidable (AtaFits limit capacity count offset) := by
  unfold AtaFits
  infer_instance

variable {dev : AtaDevImpl} {routine : ℕ → ℕ → Option (List ℕ)} {limit lba n : ℕ}

/-- A routine that moves up to `limit` sectors, and fails from there on. -/
def RoutineOf (limit : ℕ) (routine : ℕ → ℕ → Option (List ℕ)) : Prop :=
  ∀ lba n, n < 256 → routine lba n = if n ≤ limit then some (ataSectors lba n) else none

theorem ataPio_routine : RoutineOf PIO_LIMIT ataPioRead ∧ RoutineOf PIO_LIMIT ataPioWrite := by
  have hle : ∀ n < 256, n ≤ PIO_LIMIT := fun n hn => Nat.le_of_lt_succ hn
  exact ⟨fun _ n hn => (if_pos (hle n hn)).symm, fun _ n hn => (if_pos (hle n hn)).symm⟩

theorem ataDma_routine : RoutineOf DMA_LIMIT ataDmaRead := fun _ _ _ => rfl

@[simp] theorem ataSectors_length : (ataSectors lba n).length = n := by simp [ataSectors]

theorem mem_ataSectors {x : ℕ} : x ∈ ataSectors lba n ↔ lba ≤ x ∧ x < lba + n := by
  unfold ataSectors
  simp only [List.mem_map, List.mem_range]
  constructor
  · rintro ⟨k, hk, rfl⟩
    omega
  · rintro ⟨hlo, hhi⟩
    exact ⟨x - lba, by omega, by omega⟩

theorem ataReports_nothing (capacity offset : ℕ) : AtaReports capacity offset (some ⟨0, offset, []⟩) :=
  ⟨_, rfl, rfl, rfl, fun _ hx => absurd hx List.not_mem_nil⟩

/-- A transfer of `n` sectors is reported right if its routine takes that many and they are
within the drive. -/
theorem ataReports_routine_iff (hr : RoutineOf limit routine) (hlimit : limit ≤ 255)
    (hn0 : 0 < n) (hn : n < 4294967296) {capacity offset : ℕ} (hcap : capacity < 4294967296) :
    AtaReports capacity offset
      ((routine offset (n % 256)).map fun asked => ⟨s32 n, u32 (offset + n), asked⟩) ↔
      n ≤ limit ∧ offset + n ≤ capacity := by
  rw [hr offset (n % 256) (Nat.mod_lt _ (by decide))]
  constructor
  · rintro ⟨t, ht, hret, hoff, hin⟩
    split_ifs at ht with hle
    · obtain rfl := Option.some.inj ht
      dsimp only at hret hoff hin
      rw [ataSectors_length] at hret hoff
      -- a count that its eight bits do not hold is returned as another number
      have hsmall : n < 256 := by
        by_contra hbig
        unfold s32 u32 at hret
        split_ifs at hret <;> omega
      have hlast := hin (offset + (n - 1)) (mem_ataSectors.2 (by omega))
      omega
    · cases ht
  · rintro ⟨hle, hend⟩
    have hmod : n % 256 = n := Nat.mod_eq_of_lt (by omega)
    rw [hmod, if_pos hle]
    refine ⟨_, rfl, ?_, ?_, fun x hx => ?_⟩
    · rw [ataSectors_length, s32_of_lt (by omega)]
    · rw [ataSectors_length, u32_of_lt (by omega)]
    · have := (mem_ataSectors.1 hx).2
      omega

theorem ataTransfer_reports_iff (hr : RoutineOf limit routine) (hlimit : limit ≤ 255)
    (hcap : dev.currentSectorCapacity < 4294967296) (hcount : count < 4294967296)
    (hoffset : offset < 4294967296) :
    AtaReports dev.currentSectorCapacity offset (ataTransfer dev routine count offset) ↔
      AtaFits limit dev.currentSectorCapacity count offset := by
  set capacity := dev.currentSectorCapacity with hc
  unfold ataTransfer boundsCheck AtaFits CutRight
  rw [← hc]
  by_cases hout : offset ≥ capacity
  · rw [if_pos hout]
    exact iff_of_true (ataReports_nothing _ _) (Or.inl hout)
  · rw [if_neg hout]
    have hcut : ∀ n, AtaReports capacity offset
        (if n = 0 then some ⟨0, offset, []⟩ else (routine offset (n % 256)).map fun asked =>
          ⟨s32 n, u32 (offset + n), asked⟩) ↔
        n = 0 ∨ AtaReports capacity offset ((routine offset (n % 256)).map fun asked =>
          ⟨s32 n, u32 (offset + n), asked⟩) := by
      intro n
      by_cases hn : n = 0
      · rw [if_pos hn]
        exact iff_of_true (ataReports_nothing _ _) (Or.inl hn)
      · rw [if_neg hn]
        simp [hn]
    by_cases hend : u32 (offset + count) ≥ capacity
    · rw [if_pos hend]
      dsimp only
      rw [hcut, sub32_eq hcap hoffset, if_pos (by omega)]
      unfold u32 at hend
      rw [ataReports_routine_iff hr hlimit (by omega) (by omega) hcap]
      omega
    · rw [if_neg hend]
      dsimp only
      rw [hcut]
      unfold u32 at hend
      by_cases h0 : count = 0
      · subst h0
        exact iff_of_true (Or.inl rfl) (Or.inr (by omega))
      · rw [ataReports_routine_iff hr hlimit (by omega) hcount hcap]
        omega

/-- ATA transfers report what they did exactly when the routine takes the count and the end
does not wrap. -/
theorem ata_reports_iff (dev : AtaDevImpl) (count offset : ℕ)
    (hcap : dev.currentSectorCapacity < 4294967296) (hcount : count < 4294967296)
    (hoffset : offset < 4294967296) :
    (AtaReports dev.currentSectorCapacity offset (ataRead dev count offset) ↔
      AtaFits (if dev.dma then DMA_LIMIT else PIO_LIMIT) dev.currentSectorCapacity count offset) ∧
    (AtaReports dev.currentSectorCapacity offset (ataWrite dev count offset) ↔
      AtaFits PIO_LIMIT dev.currentSectorCapacity count offset) := by
  constructor
  · unfold ataRead
    cases dev.dma with
    | true => exact ataTransfer_reports_iff ataDma_routine (by decide) hcap hcount hoffset
    | false => exact ataTransfer_reports_iff ataPio_routine.1 (by decide) hcap hcount hoffset
  · exact ataTransfer_reports_iff ataPio_routine.2 (by decide) hcap hcount hoffset

/-- Eight sectors, as the file system asks for, near the end of a drive of a thousand. -/
theorem ata_reports_near_end : AtaReports 1000 995 (ataRead ⟨true, 1000⟩ 8 995) ∧
    (ataRead ⟨true, 1000⟩ 8 995).map (·.ret) = some 5 :=
  ⟨(ata_reports_iff ⟨true, 1000⟩ 8 995 (by decide) (by decide) (by decide)).1.2 (by decide), by decide⟩

/-- Of 256 sectors the routine is asked for none, and the call returns 256. -/
theorem ata_count_cut : ¬ ∀ (dev : AtaDevImpl) (count offset : ℕ),
    dev.currentSectorCapacity < 4294967296 → count < 4294967296 → offset < 4294967296 →
    AtaReports dev.currentSectorCapacity offset (ataRead dev count offset) ∧
    AtaReports dev.currentSectorCapacity offset (ataWrite dev count offset) := by
  intro h
  obtain ⟨t, ht, hret, -⟩ := (h ⟨false, 1000⟩ 256 0 (by decide) (by decide) (by decide)).2
  obtain rfl := Option.some.inj ht
  exact absurd hret (by decide)

end DepthOS
