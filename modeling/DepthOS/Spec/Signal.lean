import DepthOS.Spec.Basic

/-! `kernel/signal.c`, the part that works on one task's registers and user stack:
the frame `signal_exec` builds for a handler and the way back through
`sigrestore`. Registers are 32-bit words, a `struct` in user memory is the list of
its words. -/

namespace DepthOS

open Lib

abbrev Word : Type := BitVec 32

/-- `signal_mask_t` -/
abbrev SigMask : Type := BitVec 64

abbrev SIGKILL : ℕ := 9
abbrev SIGCHLD : ℕ := 17
abbrev SIGSTOP : ℕ := 19
abbrev SIGURG : ℕ := 23
abbrev SIGWINCH : ℕ := 28
abbrev NSIG : ℕ := 34

abbrev SIGNAL_DEFAULT_ACTION : Word := 0
abbrev SIGNAL_IGNORE_ACTION : Word := 0xFFFFFFFF

/-- `1 << n` as it meets a mask: an `int` shifted by the low five bits of the count,
then sign-extended. -/
def sigBit (n : ℕ) : SigMask := ((1 : Word) <<< (n % 32)).signExtend 64

/-- `struct registers`, without what the interrupt entry adds to it. -/
structure Regs where
  eax : Word
  ecx : Word
  edx : Word
  ebx : Word
  ebp : Word
  esi : Word
  edi : Word
  eip : Word
  useresp : Word
  eflags : Word
  cs : Word
  ds : Word
  ss : Word
  es : Word
  fs : Word
  gs : Word
deriving DecidableEq

/-- `struct signal`; `number` is an `int`. -/
structure Sig where
  number : ℤ
  code : Word
  errno : Word
  pid : Word
  uid : Word
  faultAddr : Word
  status : Word
  band : Word
  queueVal : Word
deriving DecidableEq

def Sig.words (s : Sig) : List Word :=
  [BitVec.ofInt 32 s.number, s.code, s.errno, s.pid, s.uid, s.faultAddr, s.status, s.band,
    s.queueVal]

structure SigHandler where
  entry : Word
  restorer : Word
  flags : Word
  mask : SigMask
deriving DecidableEq

/-- `struct signal_context`, with the registers of its `tcontext`; `regs.useresp` is
the member called `esp` there. -/
structure SigContext where
  mask : SigMask
  oldMask : SigMask
  regs : Regs

def maskWords (m : SigMask) : List Word := [m.extractLsb' 0 32, m.extractLsb' 32 32]

/-- In the order of `SIGNAL_TASK_CONTEXT_REGS`. -/
def Regs.words (r : Regs) : List Word :=
  [r.eax, r.ecx, r.ebx, r.edx, r.ebp, r.esi, r.edi, r.eip, r.useresp, r.eflags, r.cs, r.ds, r.ss,
    r.es, r.fs, r.gs]

def SigContext.words (c : SigContext) : List Word :=
  maskWords c.mask ++ maskWords c.oldMask ++ c.regs.words

/-- `sizeof(struct signal_context)` -/
abbrev SIGNAL_CONTEXT_SIZE : ℕ := 80

def readMask (m : Mem) (a i : ℕ) : SigMask := loadWord m a (i + 1) ++ loadWord m a i

def readContext (m : Mem) (a : ℕ) : SigContext where
  mask := readMask m a 0
  oldMask := readMask m a 2
  regs :=
    { eax := loadWord m a 4, ecx := loadWord m a 5, ebx := loadWord m a 6, edx := loadWord m a 7
      ebp := loadWord m a 8, esi := loadWord m a 9, edi := loadWord m a 10
      eip := loadWord m a 11, useresp := loadWord m a 12, eflags := loadWord m a 13
      cs := loadWord m a 14, ds := loadWord m a 15, ss := loadWord m a 16
      es := loadWord m a 17, fs := loadWord m a 18, gs := loadWord m a 19 }

/-- The `PUSH` of `signal_exec`: the stack pointer after it, and the memory. -/
def sigPush (esp : Word) (m : Mem) (ws : List Word) : Word × Mem :=
  let esp := esp - BitVec.ofNat 32 (4 * ws.length)
  (esp, storeWords m esp.toNat ws)

/-- What a delivery leaves: the registers the handler starts with, the stack it finds,
and where its context is. -/
structure Delivery where
  regs : Regs
  mem : Mem
  info : Word
  ctx : Word

/-- The context of a delivery. `old_mask` is a member the initializer does not name. -/
def sigContext (regs : Regs) (h : SigHandler) (number : ℤ) (signalMask : SigMask) : SigContext :=
  ⟨h.mask ||| sigBit number.toNat ||| signalMask, 0, regs⟩

/-- `signal_exec` from the context on. -/
def sigDeliver (regs : Regs) (m : Mem) (signalMask : SigMask) (h : SigHandler) (s : Sig) :
    Delivery :=
  let info := sigPush regs.useresp m s.words
  let ctx := sigPush info.1 info.2 (sigContext regs h s.number signalMask).words
  let frame := sigPush ctx.1 ctx.2 [BitVec.ofInt 32 s.number, info.1, ctx.1]
  let esp := sigPush frame.1 frame.2 [h.restorer]
  ⟨{ regs with useresp := esp.1, eip := h.entry }, esp.2, info.1, ctx.1⟩

abbrev EFLAGS_RESTORABLE : Word := 0x218DFF

/-- `sys_sigrestore`: the context is completed in place, then copied into the
registers. -/
def sysSigrestore (regs : Regs) (m : Mem) (ctx : ℕ) : Regs × Mem × SigMask :=
  let c := readContext m ctx
  let tcontext := { c.regs with
    eflags := c.regs.eflags &&& EFLAGS_RESTORABLE
    cs := regs.cs, ds := regs.ds, ss := regs.ss, es := regs.es, fs := regs.fs, gs := regs.gs }
  (tcontext, storeWords m ctx ({ c with regs := tcontext }).words, c.oldMask)

end DepthOS
