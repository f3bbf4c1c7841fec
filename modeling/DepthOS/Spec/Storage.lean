import DepthOS.Spec.Disk

/-! What the transfers move. A drive holds a value for each sector: the routines of
`drivers/ata.c` copy whole sectors between the drive that is selected on its port and the
buffer, and a partition (`kernel/partition.c`) hands the buffer on. Beside it the disks
that the partitions stand for, each with sectors of its own. -/

namespace DepthOS

variable {α β : Type}

/-- What a call returns, the new `*offset`, and what was carried: the sectors read, or
the sectors of the drive after a write. -/
structure Moved (β : Type) where
  ret : ℤ
  offset : ℕ
  carried : β

/-- A device's `read` or `write`, given its buffer; `none` is a failed assertion. -/
abbrev DevMove (β : Type) : Type := ℕ → ℕ → Option (Moved β)

/-- `struct ata_dev_impl` with its `drive` -/
structure AtaDrive extends AtaDevImpl where
  drive : Bool

/-- The two drives of a port, and the one that `ata_drive_select` chose last. -/
structure AtaPort (α : Type) where
  drives : Bool → ℕ → α
  selected : Bool

/-- The sector of the drive at place `k` of a transfer: `ata_prepare_transfer` sends the low 28
bits of `lba`. -/
def ataSector (lba k : ℕ) : ℕ := lba % 268435456 + k

/-- `ata_read` leaves the selection as it finds it. -/
def ataReadMove (dev : AtaDrive) (port : AtaPort α) : DevMove (List α) := fun count offset =>
  (ataRead dev.toAtaDevImpl count offset).map fun t => ⟨t.ret, t.offset,
    (List.range t.asked.length).map fun k => port.drives port.selected (ataSector offset k)⟩

/-- `n` sectors filled from the buffer. -/
def storeSectors (drive : ℕ → α) (lba n : ℕ) (buf : ℕ → α) : ℕ → α :=
  (List.range n).foldl (fun d k => Function.update d (ataSector lba k) (buf k)) drive

/-- `ata_drive_select` and `ata_pio_write` -/
def AtaPort.write (port : AtaPort α) (drive : Bool) (lba n : ℕ) (buf : ℕ → α) : AtaPort α where
  drives := Function.update port.drives drive (storeSectors (port.drives drive) lba n buf)
  selected := drive

/-- A call that returns 0 has returned before the selection. -/
def ataWriteMove (dev : AtaDrive) (port : AtaPort α) (buf : ℕ → α) : DevMove (AtaPort α) :=
  fun count offset => (ataWrite dev.toAtaDevImpl count offset).map fun t => ⟨t.ret, t.offset,
    if t.ret = 0 then port else port.write dev.drive offset t.asked.length buf⟩

/-- The `lba` and `sector_count` of a `struct generic_partition`. -/
structure PartRange where
  lba : ℕ
  sectorCount : ℕ

def partdevMoveCall (p : PartRange) (op : DevMove β) (count offset : ℕ) : Option (Moved β) :=
  (op count (u32 (offset + p.lba))).map fun m => { m with offset := sub32 m.offset p.lba }

/-- `partdev_read` and `partdev_write` on a device that has the operation; `still` is what
a call that moves nothing leaves. -/
def partdevMove (p : PartRange) (op : DevMove β) (still : β) (count offset : ℕ) :
    Option (Moved β) :=
  if p.sectorCount = 0 then some ⟨0, offset, still⟩
  else if u32 (offset + count) ≥ p.sectorCount then
    partdevMoveCall p op (sub32 p.sectorCount offset) offset
  else partdevMoveCall p op count offset

inductive DiskCall (α : Type) where
  | read (part count offset : ℕ)
  | write (part count offset : ℕ) (buf : ℕ → α)

def DiskCall.part : DiskCall α → ℕ
  | .read part _ _ => part
  | .write part _ _ _ => part

structure DiskReply (α : Type) where
  ret : ℤ
  offset : ℕ
  data : List α

/-- `none`: a failed assertion, or no such partition. -/
def diskCall (dev : AtaDrive) (parts : List PartRange) (port : AtaPort α) :
    DiskCall α → Option (DiskReply α × AtaPort α)
  | .read part count offset =>
    match parts[part]? with
    | none => none
    | some p => (partdevMove p (ataReadMove dev port) [] count offset).map fun m =>
        (⟨m.ret, m.offset, m.carried⟩, port)
  | .write part count offset buf =>
    match parts[part]? with
    | none => none
    | some p => (partdevMove p (ataWriteMove dev port buf) port count offset).map fun m =>
        (⟨m.ret, m.offset, []⟩, m.carried)

def diskRun (dev : AtaDrive) (parts : List PartRange) (port : AtaPort α) :
    List (DiskCall α) → Option (List (DiskReply α) × AtaPort α)
  | [] => some ([], port)
  | c :: calls =>
    match diskCall dev parts port c with
    | none => none
    | some (reply, next) => (diskRun dev parts next calls).map fun r => (reply :: r.1, r.2)

/-! The disks of their own. -/

/-- How much of a transfer a disk of `size` sectors has room for. -/
def roomFor (size count offset : ℕ) : ℕ := min count (size - offset)

def ownCall (parts : List PartRange) (disks : ℕ → ℕ → α) :
    DiskCall α → DiskReply α × (ℕ → ℕ → α)
  | .read part count offset =>
    let n := roomFor ((parts[part]?.map (·.sectorCount)).getD 0) count offset
    (⟨n, offset + n, (List.range n).map fun k => disks part (offset + k)⟩, disks)
  | .write part count offset buf =>
    let n := roomFor ((parts[part]?.map (·.sectorCount)).getD 0) count offset
    (⟨n, offset + n, []⟩, Function.update disks part fun x =>
      if offset ≤ x ∧ x < offset + n then buf (x - offset) else disks part x)

def ownRun (parts : List PartRange) (disks : ℕ → ℕ → α) :
    List (DiskCall α) → List (DiskReply α) × (ℕ → ℕ → α)
  | [] => ([], disks)
  | c :: calls =>
    let r := ownCall parts disks c
    let rest := ownRun parts r.2 calls
    (r.1 :: rest.1, rest.2)

end DepthOS
