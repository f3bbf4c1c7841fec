import DepthOS.Sanity.Kernel

/-! The way into a signal handler and back. The context on the user stack holds the
registers, and `sigrestore` copies them back whole; but the context's `old_mask` is
never filled in, and the return value that `sys_sigrestore` does not set is written
over the `eax` it has just restored. -/

namespace DepthOS

open Lib

/-! The context in memory. -/

theorem append_maskWords (m : SigMask) : m.extractLsb' 32 32 ++ m.extractLsb' 0 32 = m :=
  BitVec.extractLsb'_append_extractLsb'

theorem readContext_storeWords (m : Mem) (a : ℕ) (c : SigContext) :
    readContext (storeWords m a c.words) a = c := by
  have hlen : c.words.length = 20 := rfl
  unfold readContext readMask
  simp (disch := omega) only [loadWord_storeWords]
  obtain ⟨mask, oldMask, regs⟩ := c
  change (⟨mask.extractLsb' 32 32 ++ mask.extractLsb' 0 32,
    oldMask.extractLsb' 32 32 ++ oldMask.extractLsb' 0 32, regs⟩ : SigContext) = _
  rw [append_maskWords, append_maskWords]

theorem readContext_same {m m' : Mem} {a : ℕ} (h : SameOn m m' a SIGNAL_CONTEXT_SIZE) :
    readContext m' a = readContext m a := by
  unfold readContext readMask
  simp (disch := decide) only [h.loadWord]

theorem sigPush_esp (esp : Word) (m : Mem) (ws : List Word) :
    (sigPush esp m ws).1.toNat = (2 ^ 32 - 4 * ws.length % 2 ^ 32 + esp.toNat) % 2 ^ 32 := by
  change (esp - BitVec.ofNat 32 (4 * ws.length)).toNat = _
  rw [BitVec.toNat_sub, BitVec.toNat_ofNat]

/-- A push from `d` bytes below `base`, around the end of the address space if need be, leaves
what is above `base`. -/
theorem sigPush_below {base esp : Word} {d n l : ℕ} {ws : List Word} (hlen : ws.length = l)
    (hesp : esp.toNat = (base.toNat + (2 ^ 32 - d)) % 2 ^ 32) (hn : n + d + 4 * l ≤ 2 ^ 32)
    (m : Mem) : SameOn m (sigPush esp m ws).2 base.toNat n := by
  apply sameOn_storeWords
  have hbase := base.isLt
  have hto := sigPush_esp esp m ws
  change Apart (sigPush esp m ws).1.toNat _ _ _
  unfold Apart
  rw [hto, hesp]
  omega

theorem sigDeliver_context (regs : Regs) (m : Mem) (mask : SigMask) (h : SigHandler) (s : Sig) :
    readContext (sigDeliver regs m mask h s).mem (sigDeliver regs m mask h s).ctx.toNat =
      sigContext regs h s.number mask := by
  let info := sigPush regs.useresp m s.words
  let ctx := sigPush info.1 info.2 (sigContext regs h s.number mask).words
  let frame := sigPush ctx.1 ctx.2 [BitVec.ofInt 32 s.number, info.1, ctx.1]
  -- the frame and the restorer are pushed below the context
  have hctx := ctx.1.isLt
  have hesp : frame.1.toNat = (ctx.1.toNat + (2 ^ 32 - 12)) % 2 ^ 32 := by
    have := sigPush_esp ctx.1 ctx.2 [BitVec.ofInt 32 s.number, info.1, ctx.1]
    rw [show frame.1.toNat = _ from this, List.length_cons, List.length_cons, List.length_singleton]
    omega
  have hframe : SameOn ctx.2 frame.2 ctx.1.toNat SIGNAL_CONTEXT_SIZE :=
    sigPush_below (d := 0) (l := 3) rfl (by omega) (by decide) ctx.2
  have hrest : SameOn frame.2 (sigPush frame.1 frame.2 [h.restorer]).2 ctx.1.toNat
      SIGNAL_CONTEXT_SIZE := sigPush_below (l := 1) rfl hesp (by decide) frame.2
  calc readContext (sigDeliver regs m mask h s).mem ctx.1.toNat
      = readContext ctx.2 ctx.1.toNat := readContext_same (hframe.trans hrest)
    _ = _ := readContext_storeWords _ _ _

/-! The kernel's part. -/

/-- The signal goes to a handler of the task's own. -/
def HasHandler (k : Kernel) (t : ℕ) (s : Sig) : Prop :=
  (k.tasks t).pgd ≠ KERNEL_PGD ∧ s.number ≠ SIGKILL ∧ s.number ≠ SIGSTOP ∧
  ((k.tasks t).signalHandlers s.number.toNat).entry ≠ SIGNAL_DEFAULT_ACTION ∧
  ((k.tasks t).signalHandlers s.number.toNat).entry ≠ SIGNAL_IGNORE_ACTION

/-- The delivery of `s` to `t`. -/
def Kernel.delivery (k : Kernel) (t : ℕ) (s : Sig) : Delivery :=
  sigDeliver (k.tasks t).regs (k.mem (k.tasks t).pgd) (k.tasks t).signalMask
    ((k.tasks t).signalHandlers s.number.toNat) s

/-- What the program finds again after a handler. -/
structure Restored (old new : KTask) : Prop where
  eax : new.regs.eax = old.regs.eax
  ecx : new.regs.ecx = old.regs.ecx
  edx : new.regs.edx = old.regs.edx
  ebx : new.regs.ebx = old.regs.ebx
  ebp : new.regs.ebp = old.regs.ebp
  esi : new.regs.esi = old.regs.esi
  edi : new.regs.edi = old.regs.edi
  eip : new.regs.eip = old.regs.eip
  useresp : new.regs.useresp = old.regs.useresp
  eflags : new.regs.eflags &&& EFLAGS_RESTORABLE = old.regs.eflags &&& EFLAGS_RESTORABLE
  mask : new.signalMaskCurrent = old.signalMaskCurrent

theorem signalExec_handler {k : Kernel} {t : ℕ} {s : Sig} (h : HasHandler k t s) :
    k.signalExec t s = (k.deliver t s ((k.tasks t).signalHandlers s.number.toNat), .ret ()) := by
  obtain ⟨hu, hkill, hstop, hdef, hign⟩ := h
  unfold Kernel.signalExec
  rw [if_neg hu, if_neg hkill, if_neg hstop]
  dsimp only
  rw [if_neg hdef, if_neg hign]

theorem signalExec_mem {k : Kernel} {t : ℕ} {s : Sig} (h : HasHandler k t s) :
    (k.signalExec t s).1.mem (k.tasks t).pgd = (k.delivery t s).mem := by
  rw [signalExec_handler h]
  exact Function.update_self _ _ _

theorem sigrestore_task {k2 k3 : Kernel} {c : SigContext} {ctx : ℕ} {ret : ℤ}
    (hc : readContext (k2.mem k2.currentTask.pgd) ctx = c)
    (hstep : KStep k2 (.sigrestore ctx ret) k3) :
    (k3.tasks k2.current).signalMaskCurrent = c.oldMask ∧
    (k3.tasks k2.current).regs = { c.regs with
      eax := BitVec.ofInt 32 ret
      eflags := c.regs.eflags &&& EFLAGS_RESTORABLE
      cs := k2.currentTask.regs.cs, ds := k2.currentTask.regs.ds, ss := k2.currentTask.regs.ss
      es := k2.currentTask.regs.es, fs := k2.currentTask.regs.fs
      gs := k2.currentTask.regs.gs } := by
  have hk3 : k3 = (k2.sigrestore ctx ret).1.sysRet ret := hstep.2
  have htask : k3.tasks k2.current = { (k2.sigrestore ctx ret).1.tasks k2.current with
      regs := { ((k2.sigrestore ctx ret).1.tasks k2.current).regs with
        eax := BitVec.ofInt 32 ret } } := by
    rw [hk3]
    exact Function.update_self _ _ _
  have hrest : (k2.sigrestore ctx ret).1.tasks k2.current = { k2.currentTask with
      regs := (sysSigrestore k2.currentTask.regs (k2.mem k2.currentTask.pgd) ctx).1
      signalMaskCurrent :=
        (sysSigrestore k2.currentTask.regs (k2.mem k2.currentTask.pgd) ctx).2.2 } :=
    Function.update_self _ _ _
  rw [htask, hrest]
  unfold sysSigrestore
  rw [hc]
  exact ⟨rfl, rfl⟩

section Return

variable {k k2 k3 : Kernel} {t : ℕ} {s : Sig} {ret : ℤ}

/-- The handler of a signal delivered to `t` in `k` returns in `k2`, with the context as it was
left, and `k3` is the state after the system call. -/
structure Returns (k k2 k3 : Kernel) (t : ℕ) (s : Sig) (ret : ℤ) : Prop where
  handler : HasHandler k t s
  current : k2.current = t
  pgd : (k2.tasks t).pgd = (k.tasks t).pgd
  untouched : SameOn ((k.signalExec t s).1.mem (k.tasks t).pgd) (k2.mem (k.tasks t).pgd)
    (k.delivery t s).ctx.toNat SIGNAL_CONTEXT_SIZE
  step : KStep k2 (.sigrestore (k.delivery t s).ctx.toNat ret) k3

/-- The registers come back but for `eax`, the mask is gone. -/
theorem Returns.task (h : Returns k k2 k3 t s ret) :
    (k3.tasks t).signalMaskCurrent = 0 ∧
    (k3.tasks t).regs = { (k.tasks t).regs with
      eax := BitVec.ofInt 32 ret
      eflags := (k.tasks t).regs.eflags &&& EFLAGS_RESTORABLE
      cs := k2.currentTask.regs.cs, ds := k2.currentTask.regs.ds, ss := k2.currentTask.regs.ss
      es := k2.currentTask.regs.es, fs := k2.currentTask.regs.fs
      gs := k2.currentTask.regs.gs } := by
  obtain ⟨hh, rfl, hpgd, hctx, hstep⟩ := h
  have hc : readContext (k2.mem k2.currentTask.pgd) (k.delivery k2.current s).ctx.toNat =
      sigContext (k.tasks k2.current).regs
        ((k.tasks k2.current).signalHandlers s.number.toNat) s.number
        (k.tasks k2.current).signalMask := by
    rw [Kernel.currentTask, hpgd, readContext_same hctx, signalExec_mem hh]
    exact sigDeliver_context _ _ _ _ _
  exact sigrestore_task hc hstep

/-- The task is back where it was exactly if no signal was masked at the delivery and the
value `sys_sigrestore` leaves in the register is the `eax` of then. -/
theorem signal_return_iff (h : Returns k k2 k3 t s ret) :
    Restored (k.tasks t) (k3.tasks t) ↔
      (k.tasks t).signalMaskCurrent = 0 ∧ BitVec.ofInt 32 ret = (k.tasks t).regs.eax := by
  obtain ⟨hmask, hregs⟩ := h.task
  constructor
  · intro hres
    have hm := hres.mask
    have he := hres.eax
    rw [hmask] at hm
    rw [hregs] at he
    exact ⟨hm.symm, he⟩
  · rintro ⟨hm, he⟩
    refine ⟨?_, by rw [hregs], by rw [hregs], by rw [hregs], by rw [hregs], by rw [hregs],
      by rw [hregs], by rw [hregs], by rw [hregs], ?_, ?_⟩
    · rw [hregs]
      exact he
    · rw [hregs]
      exact (BitVec.and_assoc _ _ _).trans (congrArg _ BitVec.and_self)
    · rw [hmask, hm]

end Return

theorem returns_at_once {k : Kernel} {t : ℕ} {s : Sig} (ret : ℤ) (h : HasHandler k t s)
    (hcur : k.current = t) (hne : t ≠ IDLE_TASK) :
    ∃ k3, Returns k (k.signalExec t s).1 k3 t s ret := by
  have hcur2 : (k.signalExec t s).1.current = t := by
    rw [signalExec_handler h]
    exact hcur
  have hpgd : ((k.signalExec t s).1.tasks t).pgd = (k.tasks t).pgd := by
    obtain ⟨r, m, hd⟩ := k.deliver_user t s ((k.tasks t).signalHandlers s.number.toNat)
    rw [signalExec_handler h, hd]
    change ((k.setMaskCurrent t _).tasks t).pgd = (k.tasks t).pgd
    rw [Kernel.setMaskCurrent, Kernel.setTask_tasks, if_pos rfl]
  exact ⟨_, h, hcur2, hpgd, SameOn.refl _ _ _, by
    change (k.signalExec t s).1.current ≠ IDLE_TASK
    rw [hcur2]
    exact hne, rfl⟩

/-- A program with a handler for the signals 10 and 12 that masks nothing more. -/
def handlerEvents : List KEvent :=
  [.spawn none zeroTask zeroRegs (handlerImage 0), .tick, .sigaction 10 64 0, .sigaction 12 64 0]

/-- What a delivery of signal 12 to the program depends on. -/
def handlerView (k : Kernel) : ((ℕ × ℕ) × Word) × SigMask × Word :=
  (((k.current, (k.tasks 4).pgd), ((k.tasks 4).signalHandlers 12).entry),
    (k.tasks 4).signalMaskCurrent, (k.tasks 4).regs.eax)

theorem handlerView_handler {k : Kernel} {v : SigMask × Word}
    (h : handlerView k = (((4, 6), 100), v)) : k.current = 4 ∧ HasHandler k 4 (zeroSig 12) := by
  obtain ⟨⟨⟨hcur, hpgd⟩, hentry⟩, -⟩ := by simpa only [handlerView, Prod.mk.injEq] using h
  refine ⟨hcur, by rw [hpgd]; decide, by decide, by decide, ?_, ?_⟩
  · change ((k.tasks 4).signalHandlers 12).entry ≠ _
    rw [hentry]
    decide
  · change ((k.tasks 4).signalHandlers 12).entry ≠ _
    rw [hentry]
    decide

/-- Signal 12 alone, with a zero left in the register. -/
theorem signal_return_single : ∃ k k2 k3, KRun handlerEvents k ∧
    Returns k k2 k3 4 (zeroSig 12) 0 ∧ Restored (k.tasks 4) (k3.tasks 4) := by
  obtain ⟨k, hrun, hview⟩ := zero_run 1 handlerEvents handlerView (v := (((4, 6), 100), 0, 0))
    (by decide +kernel)
  obtain ⟨hcur, hh⟩ := handlerView_handler hview
  obtain ⟨-, hmask, heax⟩ := by simpa only [handlerView, Prod.mk.injEq] using hview
  obtain ⟨k3, hret⟩ := returns_at_once 0 hh hcur (by decide)
  exact ⟨k, _, k3, hrun, hret, (signal_return_iff hret).2 ⟨hmask, heax.symm⟩⟩

/-- Signal 12 inside the handler of signal 10: when it returns, 10 is no longer masked. -/
theorem nested_return_unmasks : ¬ ∀ evs k k2 k3 t s ret, KRun evs k → Returns k k2 k3 t s ret →
    Restored (k.tasks t) (k3.tasks t) := by
  intro h
  obtain ⟨k, hrun, hview⟩ := zero_run 1 (handlerEvents ++ [.send 4 (zeroSig 10)]) handlerView
    (v := (((4, 6), 100), sigBit 10, 0)) (by decide +kernel)
  obtain ⟨hcur, hh⟩ := handlerView_handler hview
  obtain ⟨-, hmask, -⟩ := by simpa only [handlerView, Prod.mk.injEq] using hview
  obtain ⟨k3, hret⟩ := returns_at_once 0 hh hcur (by decide)
  have hres := (h _ k _ k3 4 (zeroSig 12) 0 hrun hret).mask
  rw [hret.task.1, hmask] at hres
  exact absurd hres (by decide)

end DepthOS
