import DepthOS.Proofs.Disk
import DepthOS.Spec.Storage

/-! Partitions of a drive against disks of their own. A transfer that both ends of the
chain take moves the same sectors a disk of the partition's size would move, and
leaves every sector outside the partition alone; so calls on several partitions, in any
order, cannot be told from calls on separate disks. -/

namespace DepthOS

variable {α β : Type} {dev : AtaDrive} {port : AtaPort α} {lba n : ℕ}

/-- The transfer begins inside the disk, its end does not wrap, and the routine takes what
the disk has room for. -/
structure MoveFits (limit size count offset : ℕ) : Prop where
  count_lt : count < 4294967296
  cut : CutRight size count offset
  room : roomFor size count offset ≤ limit

/-! The drive. -/

theorem ataTransfer_inside {dev : AtaDevImpl} {routine : ℕ → ℕ → Option (List ℕ)} {limit : ℕ}
    (hr : RoutineOf limit routine) (hlimit : limit ≤ 255)
    (hcap : dev.currentSectorCapacity < 4294967296) (hn : n ≤ limit)
    (hend : lba + n ≤ dev.currentSectorCapacity) :
    ataTransfer dev routine n lba = some ⟨n, lba + n, ataSectors lba n⟩ := by
  unfold ataTransfer boundsCheck
  rw [u32_of_lt (show lba + n < 4294967296 by omega)]
  by_cases h0 : n = 0
  · subst h0
    -- at the very end of the drive `BOUNDS_CHECK` is what returns
    by_cases hout : lba ≥ dev.currentSectorCapacity
    · rw [if_pos hout]
      rfl
    · rw [if_neg hout, if_neg (by omega)]
      rfl
  · have hcut : ∀ m, m = n → (if m = 0 then some (⟨0, lba, []⟩ : AtaTransfer) else
        (routine lba (m % 256)).map fun asked => ⟨s32 m, u32 (lba + m), asked⟩) =
        some ⟨n, lba + n, ataSectors lba n⟩ := by
      rintro m rfl
      rw [if_neg h0, Nat.mod_eq_of_lt (by omega), hr lba m (by omega), if_pos hn, Option.map_some,
        s32_of_lt (by omega), u32_of_lt (by omega)]
    rw [if_neg (by omega)]
    by_cases hlast : lba + n ≥ dev.currentSectorCapacity
    · rw [if_pos hlast]
      refine hcut _ ?_
      rw [sub32_eq hcap (by omega), if_pos (by omega)]
      omega
    · rw [if_neg hlast]
      exact hcut n rfl

theorem storeSectors_apply (drive : ℕ → α) (lba n : ℕ) (buf : ℕ → α) (x : ℕ)
    (hlba : lba < 268435456) : storeSectors drive lba n buf x =
      if lba ≤ x ∧ x < lba + n then buf (x - lba) else drive x := by
  induction n with
  | zero =>
    rw [if_neg (by omega)]
    rfl
  | succ n ih =>
    have hlast : storeSectors drive lba (n + 1) buf =
        Function.update (storeSectors drive lba n buf) (lba + n) (buf n) := by
      simp [storeSectors, List.range_succ, ataSector, Nat.mod_eq_of_lt hlba]
    rw [hlast]
    by_cases hx : x = lba + n
    · subst hx
      rw [Function.update_self, if_pos (by omega), Nat.add_sub_cancel_left]
    · rw [Function.update_of_ne hx, ih]
      by_cases hin : lba ≤ x ∧ x < lba + n
      · rw [if_pos hin, if_pos (by omega)]
      · rw [if_neg hin, if_neg (by omega)]

/-- The most sectors a read moves. -/
def readLimit (dev : AtaDevImpl) : ℕ := if dev.dma then DMA_LIMIT else PIO_LIMIT

theorem ataReadMove_inside (hsel : port.selected = dev.drive)
    (hcap : dev.currentSectorCapacity ≤ 268435456)
    (hn : n ≤ readLimit dev.toAtaDevImpl) (hend : lba + n ≤ dev.currentSectorCapacity) :
    ataReadMove dev port n lba =
      some ⟨n, lba + n, (List.range n).map fun k => port.drives dev.drive (lba + k)⟩ := by
  have hread : ataRead dev.toAtaDevImpl n lba = some ⟨n, lba + n, ataSectors lba n⟩ := by
    unfold readLimit at hn
    unfold ataRead
    cases hd : dev.dma with
    | true =>
      rw [hd] at hn
      exact ataTransfer_inside ataDma_routine (by decide) (by omega) hn hend
    | false =>
      rw [hd] at hn
      exact ataTransfer_inside ataPio_routine.1 (by decide) (by omega) hn hend
  have hsector : ∀ k ∈ List.range n, ataSector lba k = lba + k := by
    intro k hk
    rw [List.mem_range] at hk
    rw [ataSector, Nat.mod_eq_of_lt (by omega)]
  rw [ataReadMove, hread, Option.map_some, ataSectors_length, hsel]
  congr 2
  exact List.map_congr_left fun k hk => by rw [hsector k hk]

/-- A write of `n` sectors, after which the drive is selected unless there are none. -/
theorem ataWriteMove_inside (hsel : port.selected = dev.drive)
    (hcap : dev.currentSectorCapacity ≤ 268435456)
    (hn : n ≤ PIO_LIMIT) (hend : lba + n ≤ dev.currentSectorCapacity) (buf : ℕ → α) :
    ataWriteMove dev port buf n lba =
      some ⟨n, lba + n, port.write dev.drive lba n buf⟩ := by
  rw [ataWriteMove, ataWrite,
    ataTransfer_inside ataPio_routine.2 (by decide) (by omega) hn hend, Option.map_some,
    ataSectors_length]
  dsimp only
  by_cases h0 : n = 0
  · subst h0
    obtain ⟨drives, selected⟩ := port
    obtain rfl : selected = dev.drive := hsel
    simp [AtaPort.write, storeSectors]
  · rw [if_neg (by omega)]

/-! A partition of it. -/

/-- A partition calls the device once, for what there is room for, and moves the offset
back by its start. -/
theorem partdevMove_inside {p : PartRange} {op : DevMove β} (still : β) {limit count offset : ℕ}
    (hsize : p.lba + p.sectorCount < 4294967296)
    (hfit : MoveFits limit p.sectorCount count offset)
    {m : β} (hop : op (roomFor p.sectorCount count offset) (p.lba + offset) =
      some ⟨roomFor p.sectorCount count offset,
        p.lba + offset + roomFor p.sectorCount count offset, m⟩)
    (hstill : roomFor p.sectorCount count offset = 0 → m = still) :
    partdevMove p op still count offset = some ⟨roomFor p.sectorCount count offset,
      offset + roomFor p.sectorCount count offset, m⟩ := by
  obtain ⟨hcount, ⟨hoff, hsum⟩, -⟩ := hfit
  have hroom : roomFor p.sectorCount count offset ≤ p.sectorCount - offset := min_le_right _ _
  have hcall : ∀ k, k = roomFor p.sectorCount count offset → partdevMoveCall p op k offset =
      some ⟨roomFor p.sectorCount count offset,
        offset + roomFor p.sectorCount count offset, m⟩ := by
    rintro k rfl
    unfold partdevMoveCall
    rw [u32_of_lt (by omega), Nat.add_comm offset, hop, Option.map_some]
    dsimp only
    rw [sub32_eq (by omega) (by omega), if_pos (by omega)]
    congr 2
    omega
  unfold partdevMove
  by_cases h0 : p.sectorCount = 0
  · have hnone : roomFor p.sectorCount count offset = 0 := by omega
    rw [if_pos h0, hnone, hstill hnone]
    rfl
  · rw [if_neg h0]
    unfold u32
    split_ifs with hcut
    · refine hcall _ ?_
      rw [sub32_eq (by omega) (by omega), if_pos (by omega), roomFor]
      omega
    · refine hcall _ ?_
      rw [roomFor]
      omega

/-! Several partitions. -/

def PartRange.Holds (p : PartRange) (x : ℕ) : Prop := p.lba ≤ x ∧ x < p.lba + p.sectorCount

/-- A partition table of the drive: within it, and without overlaps. -/
structure Partitioned (dev : AtaDevImpl) (parts : List PartRange) : Prop where
  /-- every sector has a number of 28 bits -/
  capacity_le : dev.currentSectorCapacity ≤ 268435456
  within : ∀ (i : ℕ) (p : PartRange), parts[i]? = some p →
    p.lba + p.sectorCount ≤ dev.currentSectorCapacity
  apart : ∀ (i j : ℕ) (p q : PartRange), i ≠ j → parts[i]? = some p → parts[j]? = some q →
    ∀ x, p.Holds x → ¬ q.Holds x

/-- Each partition holds what the disk it stands for holds. -/
def StandsFor (parts : List PartRange) (drive : ℕ → α) (disks : ℕ → ℕ → α) : Prop :=
  ∀ (i : ℕ) (p : PartRange), parts[i]? = some p → ∀ x < p.sectorCount, drive (p.lba + x) = disks i x

/-- The call is of a partition, and of no more than it and the drive's routines take. -/
def CallFits (dev : AtaDevImpl) (parts : List PartRange) : DiskCall α → Prop
  | .read part count offset =>
    ∃ p, parts[part]? = some p ∧ MoveFits (readLimit dev) p.sectorCount count offset
  | .write part count offset _ =>
    ∃ p, parts[part]? = some p ∧ MoveFits PIO_LIMIT p.sectorCount count offset

variable {parts : List PartRange} {disks : ℕ → ℕ → α} {part count offset : ℕ} {p : PartRange}

theorem roomFor_le {limit size : ℕ} (h : MoveFits limit size count offset) :
    offset + roomFor size count offset ≤ size := by
  have hroom : roomFor size count offset ≤ size - offset := min_le_right _ _
  have := h.cut.1
  omega

theorem diskCall_read (ht : Partitioned dev.toAtaDevImpl parts) (hp : parts[part]? = some p)
    (hsel : port.selected = dev.drive) (hs : StandsFor parts (port.drives dev.drive) disks)
    (hfit : MoveFits (readLimit dev.toAtaDevImpl) p.sectorCount count offset) :
    diskCall dev parts port (.read part count offset) =
      some ((ownCall parts disks (.read part count offset)).1, port) := by
  have hend := ht.within part p hp
  have hroom := roomFor_le hfit
  have hcap := ht.capacity_le
  have hin : p.lba + offset + roomFor p.sectorCount count offset ≤ dev.currentSectorCapacity := by
    omega
  have hread := partdevMove_inside [] (by omega) hfit
    (ataReadMove_inside hsel hcap hfit.room hin)
    fun h0 => by rw [h0, List.range_zero, List.map_nil]
  -- the sectors read are those of the disk that the partition stands for
  have hsame : ((List.range (roomFor p.sectorCount count offset)).map
      fun k => port.drives dev.drive (p.lba + offset + k)) =
      (List.range (roomFor p.sectorCount count offset)).map fun k => disks part (offset + k) := by
    refine List.map_congr_left fun k hk => ?_
    rw [List.mem_range] at hk
    rw [Nat.add_assoc]
    exact hs part p hp _ (by omega)
  simp only [diskCall, ownCall, hp, hread, hsame, Option.map_some, Option.getD_some]

theorem diskCall_write (ht : Partitioned dev.toAtaDevImpl parts) (hp : parts[part]? = some p)
    (hsel : port.selected = dev.drive) (hfit : MoveFits PIO_LIMIT p.sectorCount count offset)
    (buf : ℕ → α) :
    diskCall dev parts port (.write part count offset buf) =
      some ((ownCall parts disks (.write part count offset buf)).1,
        port.write dev.drive (p.lba + offset) (roomFor p.sectorCount count offset) buf) := by
  have hend := ht.within part p hp
  have hroom := roomFor_le hfit
  have hcap := ht.capacity_le
  have hin : p.lba + offset + roomFor p.sectorCount count offset ≤ dev.currentSectorCapacity := by
    omega
  have hnone : roomFor p.sectorCount count offset = 0 →
      port.write dev.drive (p.lba + offset) (roomFor p.sectorCount count offset) buf = port := by
    intro h0
    obtain ⟨drives, selected⟩ := port
    obtain rfl : selected = dev.drive := hsel
    simp [h0, AtaPort.write, storeSectors]
  have hwrite := partdevMove_inside port (by omega) hfit
    (ataWriteMove_inside hsel hcap hfit.room hin buf) hnone
  simp only [diskCall, ownCall, hp, hwrite, Option.map_some, Option.getD_some]

/-- A write keeps the partitions and the disks in step: what it stores is in its partition
at the same places, and no other partition has sectors there. -/
theorem standsFor_write {drive : ℕ → α} (ht : Partitioned dev.toAtaDevImpl parts)
    (hp : parts[part]? = some p) (hs : StandsFor parts drive disks)
    (hfit : MoveFits PIO_LIMIT p.sectorCount count offset)
    (hlba : p.lba + offset < 268435456) (buf : ℕ → α) :
    StandsFor parts
      (storeSectors drive (p.lba + offset) (roomFor p.sectorCount count offset) buf)
      (ownCall parts disks (.write part count offset buf)).2 := by
  have hroom := roomFor_le hfit
  intro i q hq x hx
  rw [storeSectors_apply _ _ _ _ _ hlba]
  simp only [ownCall, hp, Option.map_some, Option.getD_some]
  by_cases hi : i = part
  · subst hi
    obtain rfl : q = p := Option.some.inj (hq.symm.trans hp)
    rw [Function.update_self]
    by_cases hin : offset ≤ x ∧ x < offset + roomFor q.sectorCount count offset
    · rw [if_pos hin, if_pos (by omega)]
      congr 1
      omega
    · rw [if_neg hin, if_neg (by omega)]
      exact hs i q hp x hx
  · rw [Function.update_of_ne hi, if_neg]
    · exact hs i q hq x hx
    · intro hin
      exact ht.apart i part q p hi hq hp (q.lba + x) ⟨by omega, by omega⟩ ⟨by omega, by omega⟩

/-- From one port to the other nothing has changed but sectors of the partitions. -/
structure PortKeeps (dev : AtaDrive) (parts : List PartRange) (port port' : AtaPort α) : Prop where
  selected : port'.selected = dev.drive
  other : ∀ d, d ≠ dev.drive → port'.drives d = port.drives d
  outside : ∀ x, (∀ (i : ℕ) (p : PartRange), parts[i]? = some p → ¬ p.Holds x) →
    port'.drives dev.drive x = port.drives dev.drive x

theorem PortKeeps.trans {port' port'' : AtaPort α} (h : PortKeeps dev parts port port')
    (h' : PortKeeps dev parts port' port'') : PortKeeps dev parts port port'' :=
  ⟨h'.selected, fun d hd => (h'.other d hd).trans (h.other d hd),
    fun x hx => (h'.outside x hx).trans (h.outside x hx)⟩

theorem diskCall_refines (ht : Partitioned dev.toAtaDevImpl parts)
    (hsel : port.selected = dev.drive) (hs : StandsFor parts (port.drives dev.drive) disks)
    {c : DiskCall α} (hfit : CallFits dev.toAtaDevImpl parts c) :
    ∃ port', diskCall dev parts port c = some ((ownCall parts disks c).1, port') ∧
      StandsFor parts (port'.drives dev.drive) (ownCall parts disks c).2 ∧
      PortKeeps dev parts port port' := by
  cases c with
  | read part count offset =>
    obtain ⟨p, hp, hfit⟩ := hfit
    exact ⟨port, diskCall_read ht hp hsel hs hfit, hs, hsel, fun _ _ => rfl, fun _ _ => rfl⟩
  | write part count offset buf =>
    obtain ⟨p, hp, hfit⟩ := hfit
    have hroom := roomFor_le hfit
    have hwithin := ht.within part p hp
    have hcap := ht.capacity_le
    have hself : (port.write dev.drive (p.lba + offset)
        (roomFor p.sectorCount count offset) buf).drives dev.drive =
        storeSectors (port.drives dev.drive) (p.lba + offset)
          (roomFor p.sectorCount count offset) buf := Function.update_self _ _ _
    rcases Nat.lt_or_ge (p.lba + offset) 268435456 with hlba | hlba
    · refine ⟨_, diskCall_write ht hp hsel hfit buf, ?_, rfl, fun d hd => ?_, fun x hx => ?_⟩
      · rw [hself]
        exact standsFor_write ht hp hs hfit hlba buf
      · exact Function.update_of_ne hd _ _
      · rw [hself, storeSectors_apply _ _ _ _ _ hlba, if_neg]
        intro hin
        exact hx part p hp ⟨by omega, by omega⟩
    · -- at the very end of a drive of `2 ^ 28` sectors there is no room
      have hnone : roomFor p.sectorCount count offset = 0 := by omega
      have hstore : storeSectors (port.drives dev.drive) (p.lba + offset)
          (roomFor p.sectorCount count offset) buf = port.drives dev.drive := by
        rw [hnone]
        rfl
      refine ⟨_, diskCall_write ht hp hsel hfit buf, ?_, rfl, fun d hd => ?_, fun x _ => ?_⟩
      · rw [hself, hstore]
        intro i q hq x hx
        simp only [ownCall, hp, Option.map_some, Option.getD_some, hnone]
        by_cases hi : i = part
        · subst hi
          rw [Function.update_self, if_neg (by omega)]
          exact hs i q hq x hx
        · rw [Function.update_of_ne hi]
          exact hs i q hq x hx
      · exact Function.update_of_ne hd _ _
      · rw [hself, hstore]

/-- Any run of calls on the partitions of the drive that is selected on its port, one of at most
`2 ^ 28` sectors, is answered as separate disks would answer it; it leaves the sectors outside
all partitions and the other drive as they were. -/
theorem partitions_refine_disks (ht : Partitioned dev.toAtaDevImpl parts)
    (hsel : port.selected = dev.drive) (hs : StandsFor parts (port.drives dev.drive) disks)
    {calls : List (DiskCall α)} (hfit : ∀ c ∈ calls, CallFits dev.toAtaDevImpl parts c) :
    ∃ port', diskRun dev parts port calls = some ((ownRun parts disks calls).1, port') ∧
      StandsFor parts (port'.drives dev.drive) (ownRun parts disks calls).2 ∧
      PortKeeps dev parts port port' := by
  induction calls generalizing port disks with
  | nil => exact ⟨port, rfl, hs, hsel, fun _ _ => rfl, fun _ _ => rfl⟩
  | cons c calls ih =>
    obtain ⟨next, hcall, hnext, hkeeps⟩ := diskCall_refines ht hsel hs (hfit c List.mem_cons_self)
    obtain ⟨port', hrun, hs', hkeeps'⟩ :=
      ih hkeeps.selected hnext fun c hc => hfit c (List.mem_cons_of_mem _ hc)
    refine ⟨port', ?_, hs', hkeeps.trans hkeeps'⟩
    simp only [diskRun, ownRun, hcall, hrun, Option.map_some]

/-! Witnesses: two partitions of a drive of a hundred sectors. -/

def twoParts : List PartRange := [⟨1, 40⟩, ⟨41, 59⟩]

/-- A write that is cut at the end of the first partition, and reads of both. -/
def twoPartsCalls : List (DiskCall ℕ) := [.write 0 8 36 (· + 500), .read 1 2 0, .read 0 2 38]

/-- The second drive of its port, which is selected. -/
def twoPort : AtaPort ℕ := ⟨fun _ => id, true⟩

def twoDrive : AtaDrive := ⟨⟨true, 100⟩, true⟩

theorem twoParts_fit : Partitioned ⟨true, 100⟩ twoParts ∧
    ∀ c ∈ twoPartsCalls, CallFits ⟨true, 100⟩ twoParts c := by
  have hcases : ∀ (i : ℕ) (p : PartRange), twoParts[i]? = some p →
      i = 0 ∧ p = ⟨1, 40⟩ ∨ i = 1 ∧ p = ⟨41, 59⟩ := by
    intro i p hp
    match i with
    | 0 => exact Or.inl ⟨rfl, (Option.some.inj hp).symm⟩
    | 1 => exact Or.inr ⟨rfl, (Option.some.inj hp).symm⟩
    | i + 2 => cases hp
  refine ⟨⟨by decide, fun i p hp => ?_, fun i j p q hne hp hq x hx hx' => ?_⟩, ?_⟩
  · rcases hcases i p hp with ⟨-, rfl⟩ | ⟨-, rfl⟩ <;> decide
  · unfold PartRange.Holds at hx hx'
    rcases hcases i p hp with ⟨rfl, rfl⟩ | ⟨rfl, rfl⟩ <;>
      rcases hcases j q hq with ⟨rfl, rfl⟩ | ⟨rfl, rfl⟩ <;> dsimp only at hx hx' <;> omega
  · intro c hc
    simp only [twoPartsCalls, List.mem_cons, List.not_mem_nil, or_false] at hc
    rcases hc with rfl | rfl | rfl
    · exact ⟨⟨1, 40⟩, rfl, by decide, by decide, by decide⟩
    · exact ⟨⟨41, 59⟩, rfl, by decide, by decide, by decide⟩
    · exact ⟨⟨1, 40⟩, rfl, by decide, by decide, by decide⟩

theorem partitions_refine_disks_two : ∃ port',
    diskRun twoDrive twoParts twoPort twoPartsCalls =
      some ((ownRun twoParts (fun i x => [1, 41].getD i 0 + x) twoPartsCalls).1, port') ∧
    ∀ x, port'.drives false x = x := by
  obtain ⟨ht, hfit⟩ := twoParts_fit
  have hs : StandsFor twoParts id fun i x => [1, 41].getD i 0 + x := by
    intro i p hp x _
    match i with
    | 0 => exact congrArg (fun p : PartRange => p.lba + x) (Option.some.inj hp).symm
    | 1 => exact congrArg (fun p : PartRange => p.lba + x) (Option.some.inj hp).symm
    | i + 2 => cases hp
  obtain ⟨port', hrun, -, hkeeps⟩ :=
    partitions_refine_disks ht (show twoPort.selected = twoDrive.drive from rfl) hs hfit
  exact ⟨port', hrun, fun x => congrFun (hkeeps.other false Bool.false_ne_true) x⟩

theorem ownRun_alone (parts : List PartRange) (i : ℕ) (calls : List (DiskCall α))
    {disks disks' : ℕ → ℕ → α} (hsame : disks i = disks' i) :
    ((calls.zip (ownRun parts disks calls).1).filter fun x => x.1.part = i).map (·.2) =
      (ownRun parts disks' (calls.filter fun c => c.part = i)).1 ∧
    (ownRun parts disks calls).2 i =
      (ownRun parts disks' (calls.filter fun c => c.part = i)).2 i := by
  induction calls generalizing disks disks' with
  | nil => exact ⟨rfl, hsame⟩
  | cons c calls ih =>
    by_cases hc : c.part = i
    · have hreply : (ownCall parts disks c).1 = (ownCall parts disks' c).1 ∧
          (ownCall parts disks c).2 i = (ownCall parts disks' c).2 i := by
        subst hc
        cases c with
        | read part count offset =>
          simp only [DiskCall.part] at hsame
          simp only [ownCall, DiskCall.part, hsame, and_self]
        | write part count offset buf =>
          simp only [DiskCall.part] at hsame
          simp only [ownCall, DiskCall.part, hsame, Function.update_self, and_self]
      obtain ⟨hout, hdisk⟩ := ih hreply.2
      simp only [ownRun, List.zip_cons_cons, List.filter_cons, hc, decide_true, if_true,
        List.map_cons, hout, hreply.1, hdisk, and_self]
    · have hother : (ownCall parts disks c).2 i = disks' i := by
        rw [← hsame]
        cases c with
        | read part count offset => rfl
        | write part count offset buf => exact Function.update_of_ne (Ne.symm hc) _ _
      obtain ⟨hout, hdisk⟩ := ih hother
      simp only [ownRun, List.zip_cons_cons, List.filter_cons, hc, decide_false, Bool.false_eq_true,
        if_false, hout, hdisk, and_self]

/-- The contents of the partitions, as disks. -/
def disksOf (parts : List PartRange) (drive : ℕ → α) : ℕ → ℕ → α :=
  fun i x => drive (((parts[i]?).map (·.lba)).getD 0 + x)

theorem standsFor_disksOf (parts : List PartRange) (drive : ℕ → α) :
    StandsFor parts drive (disksOf parts drive) := by
  intro i p hp x _
  simp only [disksOf, hp, Option.map_some, Option.getD_some]

/-- What the calls on one partition return, and what it holds in the end, does not depend on
the calls on the other partitions. -/
theorem partition_calls_alone (ht : Partitioned dev.toAtaDevImpl parts)
    (hsel : port.selected = dev.drive) {calls : List (DiskCall α)}
    (hfit : ∀ c ∈ calls, CallFits dev.toAtaDevImpl parts c) (i : ℕ) :
    ∃ replies port' alone, diskRun dev parts port calls = some (replies, port') ∧
      diskRun dev parts port (calls.filter fun c => c.part = i) =
        some (((calls.zip replies).filter fun x => x.1.part = i).map (·.2), alone) ∧
      ∀ p, parts[i]? = some p → ∀ x, p.Holds x →
        port'.drives dev.drive x = alone.drives dev.drive x := by
  have hs := standsFor_disksOf parts (port.drives dev.drive)
  obtain ⟨port', hrun, hs', -⟩ := partitions_refine_disks ht hsel hs hfit
  have hfit' : ∀ c ∈ calls.filter (fun c => c.part = i), CallFits dev.toAtaDevImpl parts c :=
    fun c hc => hfit c (List.mem_of_mem_filter hc)
  obtain ⟨alone, hrun', hs'', -⟩ := partitions_refine_disks ht hsel hs hfit'
  obtain ⟨hout, hdisk⟩ :=
    ownRun_alone parts i calls (rfl : disksOf parts (port.drives dev.drive) i = _)
  rw [← hout] at hrun'
  refine ⟨_, port', alone, hrun, hrun', fun p hp x hx => ?_⟩
  obtain ⟨k, rfl⟩ := Nat.exists_eq_add_of_le hx.1
  have hk : k < p.sectorCount := by
    have := hx.2
    omega
  rw [hs' i p hp k hk, hs'' i p hp k hk, hdisk]

theorem partition_calls_alone_two : ∃ replies port' alone,
    diskRun twoDrive twoParts twoPort twoPartsCalls = some (replies, port') ∧
    diskRun twoDrive twoParts twoPort [.write 0 8 36 (· + 500), .read 0 2 38] =
      some (((twoPartsCalls.zip replies).filter fun x => x.1.part = 0).map (·.2), alone) := by
  obtain ⟨ht, hfit⟩ := twoParts_fit
  obtain ⟨replies, port', alone, hrun, hrun', -⟩ :=
    partition_calls_alone ht (show twoPort.selected = twoDrive.drive from rfl) hfit 0
  exact ⟨replies, port', alone, hrun, hrun'⟩

end DepthOS
