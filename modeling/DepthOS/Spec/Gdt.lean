import Mathlib.Tactic

/-! Segment descriptors, `arch/x86/gdt.c`: a base of 32 bits, a limit of 20, an access byte
and four flags, scattered over the two halves of a 64-bit word. The `lgdt` and the reload of
the segment registers are left out. -/

namespace DepthOS

abbrev GDT_SIZE : ℕ := 10

abbrev GDT_DESC_BASE_LOW_MASK : BitVec 32 := 0xffff0000#32
abbrev GDT_DESC_BASE_MIDHIGH_MASK : BitVec 32 := 0xff0000ff#32
abbrev GDT_DESC_LIMIT_HIGH_MASK : BitVec 32 := 0x000f0000#32

def gdtDescBaseLow (v : BitVec 32) : BitVec 32 := (v &&& 0x0000ffff#32) <<< 16

def gdtDescLimitLow (v : BitVec 32) : BitVec 32 := v &&& 0x0000ffff#32

def gdtDescLimitHigh (v : BitVec 32) : BitVec 32 := v &&& GDT_DESC_LIMIT_HIGH_MASK

def gdtDescBaseMidhigh (v : BitVec 32) : BitVec 32 :=
  (v &&& 0xff000000#32) ||| ((v &&& 0x00ff0000#32) >>> 16)

def gdtDescAccess (v : BitVec 32) : BitVec 32 := (v &&& 0xff#32) <<< 8

def gdtDescFlags (v : BitVec 32) : BitVec 32 := (v &&& 0xf#32) <<< 20

/-- `gdt_desc_t` -/
abbrev GdtDesc : Type := BitVec 64

/-- `((gdt_desc_t)b2 << 32) | b1` -/
def gdtDescOf (b2 b1 : BitVec 32) : GdtDesc := b2.setWidth 64 <<< 32 ||| b1.setWidth 64

def makeGdtDesc (base limit flags access : BitVec 32) : GdtDesc :=
  let b1 := gdtDescBaseLow base ||| gdtDescLimitLow limit
  let b2 := gdtDescBaseMidhigh base ||| gdtDescLimitHigh limit ||| gdtDescAccess access |||
    gdtDescFlags flags
  gdtDescOf b2 b1

structure GdtEntry where
  base : BitVec 32
  limit : BitVec 32
  flags : BitVec 32
  access : BitVec 32

/-- The masks are 32-bit: complemented, then widened, they are zero in the upper half. -/
def descSetBase (entry : GdtDesc) (base : BitVec 32) : GdtDesc :=
  let b1 := (entry &&& (~~~GDT_DESC_BASE_LOW_MASK).setWidth 64).setWidth 32 ||| gdtDescBaseLow base
  let b2 := (entry &&& (~~~GDT_DESC_BASE_MIDHIGH_MASK).setWidth 64).setWidth 32 |||
    gdtDescBaseMidhigh base
  gdtDescOf b2 b1

/-- `gdt_entries` -/
abbrev Gdt : Type := Vector GdtDesc GDT_SIZE

def x86GdtSetEntry (gdt : Gdt) (idx : ℕ) (entry : GdtEntry) : Gdt :=
  gdt.setIfInBounds idx (makeGdtDesc entry.base entry.limit entry.flags entry.access)

def x86GdtSetBase (gdt : Gdt) (idx : ℕ) (base : BitVec 32) : Gdt :=
  if h : idx < GDT_SIZE then gdt.set idx (descSetBase gdt[idx] base) else gdt

/-- Changes of bases, each with its index, one after the other. -/
def changeBases (gdt : Gdt) (cs : List (ℕ × BitVec 32)) : Gdt :=
  cs.foldl (fun gdt c => x86GdtSetBase gdt c.1 c.2) gdt

/-- `make_gdt_entry_data` -/
def makeGdtEntryData (base limit dpl : BitVec 32) (down g : Bool) : GdtEntry where
  base := base
  limit := limit
  access := 0x080#32 ||| ((dpl &&& 3#32) <<< 5) ||| 0x010#32 ||| (if down then 0x004#32 else 0#32) |||
    0x002#32
  flags := 0x04#32 ||| if g then 0x08#32 else 0#32

end DepthOS
