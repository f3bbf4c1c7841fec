import DepthOS.Spec.Basic

/-! The block devices: partitions (`kernel/partition.c`) pass a transfer on to the device
they are on, and `drivers/ata.c` hands it to a routine for the port. Sectors are numbered
from the start of the device; the buffers are passed on and left out. -/

namespace DepthOS

/-! Partitions. -/

/-- A device's `read` or `write`: from `count` and `*offset` to what it returns and the new
`*offset`; `none` is NULL. -/
abbrev DevTransfer : Type := Option (ℕ → ℕ → ℤ × ℕ)

structure BlockDevice where
  read : DevTransfer
  write : DevTransfer

/-- `struct generic_partition`, with its device. -/
structure GenericPartition where
  dev : BlockDevice
  lba : ℕ
  sectorCount : ℕ

structure PartTransfer where
  ret : ℤ
  /-- `*offset` -/
  offset : ℕ
  /-- the offset and the count that the device was called with -/
  asked : Option (ℕ × ℕ)

/-- The call of the device; `none` is a call through NULL. -/
def partdevCall (p : GenericPartition) (op : DevTransfer) (count offset : ℕ) : Option PartTransfer :=
  match op with
  | none => none
  | some transfer =>
    let tmpoff := u32 (offset + p.lba)
    let r := transfer count tmpoff
    some ⟨r.1, sub32 r.2 p.lba, some (tmpoff, count)⟩

/-- Whether the device has the operation is only asked when nothing was cut off. -/
def partdevTransfer (p : GenericPartition) (op : DevTransfer) (count offset : ℕ) :
    Option PartTransfer :=
  if p.sectorCount = 0 then some ⟨0, offset, none⟩
  else if u32 (offset + count) ≥ p.sectorCount then
    partdevCall p op (sub32 p.sectorCount offset) offset
  else if op.isNone then some ⟨ENIMPL, offset, none⟩
  else partdevCall p op count offset

def partdevRead (p : GenericPartition) (count offset : ℕ) : Option PartTransfer :=
  partdevTransfer p p.dev.read count offset

def partdevWrite (p : GenericPartition) (count offset : ℕ) : Option PartTransfer :=
  partdevTransfer p p.dev.write count offset

/-- The device is asked for sector `x`. -/
def PartTransfer.Asks (r : PartTransfer) (x : ℕ) : Prop :=
  ∃ first n, r.asked = some (first, n) ∧ first ≤ x ∧ x < first + n

/-! ATA. -/

/-- `struct ata_dev_impl` -/
structure AtaDevImpl where
  /-- `port->dma` -/
  dma : Bool
  /-- `info->current_sector_capacity` -/
  currentSectorCapacity : ℕ

/-- `BOUNDS_CHECK`, with `n` after it; `none` is its `return 0`. -/
def boundsCheck (dev : AtaDevImpl) (sector n : ℕ) : Option ℕ :=
  if sector ≥ dev.currentSectorCapacity then none
  else if u32 (sector + n) ≥ dev.currentSectorCapacity then
    some (sub32 dev.currentSectorCapacity sector)
  else some n

/-- The sectors from `lba` on, in the order of the buffer. -/
def ataSectors (lba sectorCount : ℕ) : List ℕ := (List.range sectorCount).map (lba + ·)

def ataPioRead (lba sectorCount : ℕ) : Option (List ℕ) := some (ataSectors lba sectorCount)

/-- `none` is the failed assertion. -/
def ataDmaRead (lba sectorCount : ℕ) : Option (List ℕ) :=
  if sectorCount ≤ 128 then some (ataSectors lba sectorCount) else none

def ataPioWrite (lba sectorCount : ℕ) : Option (List ℕ) := some (ataSectors lba sectorCount)

structure AtaTransfer where
  ret : ℤ
  /-- `*offset` -/
  offset : ℕ
  /-- the sectors that the routine was asked for -/
  asked : List ℕ

/-- The routine takes its count as a `uint8_t`. -/
def ataTransfer (dev : AtaDevImpl) (routine : ℕ → ℕ → Option (List ℕ)) (count offset : ℕ) :
    Option AtaTransfer :=
  match boundsCheck dev offset count with
  | none => some ⟨0, offset, []⟩
  | some n =>
    if n = 0 then some ⟨0, offset, []⟩
    else (routine offset (n % 256)).map fun asked => ⟨s32 n, u32 (offset + n), asked⟩

def ataWrite (dev : AtaDevImpl) (count offset : ℕ) : Option AtaTransfer :=
  ataTransfer dev ataPioWrite count offset

def ataRead (dev : AtaDevImpl) (count offset : ℕ) : Option AtaTransfer :=
  ataTransfer dev (if dev.dma then ataDmaRead else ataPioRead) count offset

end DepthOS
