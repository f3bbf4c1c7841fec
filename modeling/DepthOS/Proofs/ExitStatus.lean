import DepthOS.Proofs.Endings

/-! What a process leaves to its parent. The parent's `waitpid` calls take its finished
children in the order of the list, so each is reported once, as it ended, and none has to
wait for more than those in front of it. -/

namespace DepthOS

open Lib

/-! The place of a child in the list of its parent. -/

/-- What can become of the tree at once. -/
def TreeMove (k k' : Kernel) : Prop := SameFamily k k' ∨ Shrinks k k' ∨ Grows k k'

theorem kstep_tree {X : Kernel → Prop}
    (hX : ∀ a b, TaskRing a → Family a → X a → TreeMove a b → X b) {k k' : Kernel} {e : KEvent}
    (hr : RingOk k ∧ Family k) (h : X k) (hs : KStep k e k') : X k' := by
  have hsame : ∀ {a b : Kernel}, TaskRing a → Family a → X a → SameFamily a b → X b :=
    fun hr hfam ha hab => hX _ _ hr hfam ha (Or.inl hab)
  refine (kstep_rule (J := fun s => (RingOk s ∧ Family s) ∧ X s)
    (I := fun s => (TaskRing s ∧ Family s) ∧ X s) ?_ ?_ ?_ ?_ ?_ hs).2
  · intro s r m hJ
    exact ⟨family_rule.user s r m trivial hJ.1, hsame hJ.1.1.toTaskRing hJ.1.2 hJ.2
      (sameFamily_of_procs rfl rfl rfl rfl le_rfl)⟩
  · intro s n hI hp
    exact ⟨family_rule.switch s n trivial hI.1 hp,
      hsame hI.1.1 hI.1.2 hI.2 (sameFamily_switchTo s n)⟩
  · intro s x s' hJ hfetch
    refine (family_rule.pending s x s' trivial hJ.1 hfetch).and ?_
    obtain ⟨-, rfl⟩ := signalFetch_current hfetch
    have hring : RingOk ((s.dequeue s.current).hand x.id s.current) :=
      (hJ.1.1.withQueues _).hand x.id s.current
    have hends := execEffect_ends hring hJ.1.1.current x.sig
    have hafter : ∀ b, ExecEffect ((s.dequeue s.current).hand x.id s.current) s.current x.sig b →
        X b := fun b he => hsame hJ.1.1.toTaskRing hJ.1.2 hJ.2 (sameFamily_pending hfetch he)
    exact hends.mono hafter hafter
  · intro s prev hJ
    exact ⟨family_rule.jump s prev trivial hJ.1, hsame hJ.1.1.toTaskRing hJ.1.2 hJ.2
      (sameFamily_of_procs rfl rfl rfl rfl le_rfl)⟩
  · intro hf
    have hafter : ∀ b, Effect k e b → X b := by
      intro b he
      apply hX k b hr.1.toTaskRing hr.2 h
      rcases effect_family hf he with ⟨-, hb | hb⟩ | ⟨-, hb⟩
      · exact Or.inl hb
      · exact Or.inr (Or.inl hb)
      · exact Or.inr (Or.inr hb)
    exact (family_rule.call k e trivial hr hf trivial).and
      ((effect_ends hr.1 hf).mono hafter hafter)

section Place

variable {k k' : Kernel} {q c : ℕ}

theorem gone_move (hfam : Family k) (hc : c < k.next ∧ c ∉ k.live) (h : TreeMove k k') :
    c < k'.next ∧ c ∉ k'.live := by
  obtain ⟨hlt, hnot⟩ := hc
  rcases h with h | h | ⟨task, parent, m, freed, rfl, -⟩
  · rw [h.live]
    exact ⟨hlt.trans_le h.next, hnot⟩
  · obtain ⟨m, q, child, -, rfl⟩ := h.parent_eq hfam
    exact ⟨hlt, fun hin => hnot (List.mem_of_mem_erase hin)⟩
  · refine ⟨hlt.trans (Nat.lt_add_of_pos_right (by decide)), fun hin => ?_⟩
    rcases List.mem_cons.1 hin with rfl | hin
    · omega
    · exact hnot hin

theorem place_move (hfam : Family k) (hc : c ∈ (k.procs q).children) (h : TreeMove k k') :
    (c < k'.next ∧ c ∉ k'.live) ∨ (c ∈ (k'.procs q).children ∧
      (k'.procs q).children.idxOf c ≤ (k.procs q).children.idxOf c) := by
  obtain ⟨hlive, hpar⟩ := hfam.children q c hc
  have hlt := hfam.below c hlive
  have hq := (hfam.parent c hlive q hpar).2
  rcases h with h | h | ⟨task, parent, m, freed, rfl, -⟩
  · rw [h.children]
    exact Or.inr ⟨hc, le_rfl⟩
  · obtain ⟨m, r, child, hchild, rfl⟩ := h.parent_eq hfam
    by_cases hcc : c = child
    · rw [hcc]
      exact Or.inl ⟨hcc ▸ hlt, hfam.nodup.not_mem_erase⟩
    · right
      rw [Kernel.processDelete_procs]
      dsimp only
      split_ifs
      · exact ⟨(List.mem_erase_of_ne hcc).2 hc, idxOf_erase_le _ (Ne.symm hcc)⟩
      · exact ⟨hc, le_rfl⟩
  · right
    rw [born_children _ _ _ _ _ (by omega)]
    split_ifs
    · exact ⟨List.mem_append_left _ hc, (List.idxOf_append_of_mem hc).le⟩
    · exact ⟨hc, le_rfl⟩

end Place

/-! `waitpid`. -/

theorem word_lt (x : Ending) : x.word < 4294967296 := by
  cases x with
  | exited status =>
    change status.toNat % 256 * 256 < 4294967296
    omega
  | killed signal =>
    change (signal % 128).toNat < 4294967296
    omega

/-- The status of `c` written to `*wstatus`. -/
def Kernel.reported (k : Kernel) (w c : ℕ) : Kernel :=
  { k with mem := Function.update k.mem k.currentTask.pgd <|
      store32 (k.mem k.currentTask.pgd) w (k.waitStatus c) }

theorem waitpid_call {k : Kernel} {w q c : ℕ} (hw : w ≠ 0) (hq : k.currentTask.process = some q)
    (hfirst : (k.procs q).children.find? k.finished = some c)
    (hpar : (k.procs c).parent = some q) : kernelCall k (.waitpid (-1) w) =
      ((k.reported w c).processDelete c q, .ret (some (k.procs c).pid)) := by
  simp only [kernelCall, Kernel.sysWaitpid, hw, hq, hfirst, hpar]
  rfl

/-- A `waitpid` that finds `c` reports it and deletes it. -/
theorem waitpid_reports {k k' : Kernel} (hfam : Family k) {w q c : ℕ} {x : Ending} (hw : w ≠ 0)
    (hq : k.currentTask.process = some q)
    (hfirst : (k.procs q).children.find? k.finished = some c)
    (hx : (k.procs c).ending = some x) (hs : KStep k (.waitpid (-1) w) k') :
    load32 (k'.mem k.currentTask.pgd) w = x.word ∧
      k'.currentTask.regs.eax = BitVec.ofInt 32 (k.procs c).pid ∧ k'.current = k.current ∧
      (k'.procs q).children = (k.procs q).children.erase c ∧ c ∉ k'.live := by
  obtain ⟨-, hpar⟩ := hfam.children q c (List.mem_of_find?_eq_some hfirst)
  obtain ⟨-, hends⟩ := hs
  rw [waitpid_call hw hq hfirst hpar] at hends
  obtain rfl := hends
  refine ⟨?_, ?_, rfl, ?_, hfam.nodup.not_mem_erase⟩
  · have hmem : (k.reported w c).mem k.currentTask.pgd =
        store32 (k.mem k.currentTask.pgd) w (k.waitStatus c) := Function.update_self _ _ _
    change load32 ((k.reported w c).mem k.currentTask.pgd) w = x.word
    rw [hmem, load32_store32, waitStatus_ending hx, Nat.mod_eq_of_lt (word_lt x)]
  · simp only [Kernel.sysRet, Kernel.currentTask, Kernel.setTask, Function.update_self]
  · change (((k.reported w c).processDelete c q).procs q).children = _
    rw [Kernel.processDelete_procs]
    exact if_pos rfl

/-- The parent learns how the child ended, by the `exit` or the signal of the step in which it
did, whatever happens in between, and learns it once. -/
theorem exit_status_delivered {evs later rest : List KEvent} {k k₁ k₂ k₃ k₄ : Kernel} {e : KEvent}
    {c q w : ℕ} (hrun : KRun evs k) (hc : k.finished c = false) (hs : KStep k e k₁)
    (hend : k₁.finished c) (hlater : Run (· = k₁) KStep later k₂) (hw : w ≠ 0)
    (hq : k₂.currentTask.process = some q)
    (hfirst : (k₂.procs q).children.find? k₂.finished = some c)
    (hask : KStep k₂ (.waitpid (-1) w) k₃) (hrest : Run (· = k₃) KStep rest k₄) :
    (∃ x, (∀ y, EndsAs c k e y ↔ y = x) ∧ load32 (k₃.mem k₂.currentTask.pgd) w = x.word) ∧
    (k₃.currentTask.regs.eax = BitVec.ofInt 32 (k₂.procs c).pid ∧ k₃.current = k₂.current) ∧
    ∀ p, c ∉ (k₄.procs p).children := by
  obtain ⟨hr, hended⟩ := ended_run hrun
  obtain ⟨hlt, x, hx, hreason⟩ := step_ending hr hended hc hs hend
  have hr₁ := family_rule.step hr trivial hs
  obtain ⟨⟨hr₂, hended₂⟩, hset⟩ := settled_run hr₁ (settled_step hr hended hs).1 hlater
  obtain ⟨hword, heax, hcur, -, hgone⟩ :=
    waitpid_reports hr₂.2 hw hq hfirst (hset.ending c hlt x hx) hask
  refine ⟨⟨x, hreason, hword⟩, ⟨heax, hcur⟩, fun p hc => ?_⟩
  have hr₃ := family_rule.step hr₂ trivial hask
  have hlt₃ : c < k₃.next :=
    (hlt.trans_le hset.next).trans_le (settled_step hr₂ hended₂ hask).2.next
  have hout : (RingOk k₄ ∧ Family k₄) ∧ c < k₄.next ∧ c ∉ k₄.live := by
    refine Run.invariant (fun s => (RingOk s ∧ Family s) ∧ c < s.next ∧ c ∉ s.live) ?_ ?_ hrest
    · rintro s rfl
      exact ⟨hr₃, hlt₃, hgone⟩
    · intro s e' s' hinv hstep
      exact ⟨family_rule.step hinv.1 trivial hstep,
        kstep_tree (fun a b _ hfam => gone_move hfam) hinv.1 hinv.2 hstep⟩
  exact hout.2.2 (hout.1.2.children p c hc).1

/-- Process 7 sends 15 to the thread of its child, which has no handler for it, and finds 15 in
the word at 64. -/
theorem exit_status_delivered_killed : ∃ k k₁ k₂, KStep k (.send 8 (zeroSig 15)) k₁ ∧
    EndsAs 11 k (.send 8 (zeroSig 15)) (.killed 15) ∧ KStep k₁ (.waitpid (-1) 64) k₂ ∧
    load32 (k₂.mem k₁.currentTask.pgd) 64 = 15 ∧ ∀ p, 11 ∉ (k₂.procs p).children := by
  have hexec : ((execRun 1 (fun _ _ => true) zeroBoot
        [zeroSpawn none, .tick, .fork zeroTask]).bind fun k =>
      (execStep 1 k (.send 8 (zeroSig 15))).bind fun k₁ =>
      (execStep 1 k₁ (.waitpid (-1) 64)).map fun _ =>
        (decide (k.finished 11 = false ∧ k.blocked 8 15 = false ∧
          (k.tasks 8).process = some 11 ∧ (k.tasks 8).pgd = 10 ∧
          ((k.tasks 8).signalHandlers 15).entry = SIGNAL_DEFAULT_ACTION),
        decide (k₁.finished 11 = true ∧ k₁.currentTask.process = some 7 ∧
          (k₁.procs 7).children.find? k₁.finished = some 11))) = some (true, true) := by
    decide +kernel
  obtain ⟨k, hk, hexec⟩ := Option.bind_eq_some_iff.1 hexec
  obtain ⟨k₁, h₁, hexec⟩ := Option.bind_eq_some_iff.1 hexec
  obtain ⟨k₂, h₂, hexec⟩ := Option.map_eq_some_iff.1 hexec
  obtain ⟨hbefore, hafter⟩ := Prod.mk.inj hexec
  obtain ⟨hc, hfree, hproc, hpgd, hentry⟩ := of_decide_eq_true hbefore
  obtain ⟨hend, hq, hfirst⟩ := of_decide_eq_true hafter
  have hrun : KRun [zeroSpawn none, .tick, .fork zeroTask] k :=
    Run.mono (fun _ _ _ hs => hs.2) (execRun_sound (C := fun _ _ => True)
      (fun _ _ _ => trivial) (Run.nil zeroBoot_boot) hk)
  have hfatal : ((k.accept 8).hand k.sent.length 8).Fatal 8 (zeroSig 15) := by
    refine ⟨?_, Or.inr ⟨by decide, hentry, by decide⟩⟩
    change (k.tasks 8).pgd ≠ KERNEL_PGD
    rw [hpgd]
    decide
  have hx : Execs k (.send 8 (zeroSig 15)) ((k.accept 8).hand k.sent.length 8) 8 (zeroSig 15) :=
    .sent rfl ⟨by decide, by decide⟩ hfree
  have hkilled : EndsAs 11 k (.send 8 (zeroSig 15)) (.killed 15) :=
    EndsAs.killed hx hproc hfatal
  obtain ⟨⟨x, hx, hword⟩, -, hgone⟩ := exit_status_delivered hrun hc (execStep_sound h₁) hend
    (Run.nil rfl) (by decide) hq hfirst (execStep_sound h₂) (Run.nil rfl)
  rw [← (hx _).1 hkilled] at hword
  exact ⟨k, k₁, k₂, execStep_sound h₁, hkilled, execStep_sound h₂, hword, hgone⟩

/-- Whether the event is a `waitpid` of process `q` for any child. -/
def asks (k : Kernel) (q : ℕ) : KEvent → Bool
  | .waitpid pid wstatus => pid = -1 ∧ wstatus ≠ 0 ∧ k.currentTask.process = some q
  | _ => false

/-- A step after which child `c` of `q` has not been reaped; the number counts the calls of `q`
for a child. -/
def AskStep (q c : ℕ) (s : Kernel × ℕ) (e : KEvent) (s' : Kernel × ℕ) : Prop :=
  KStep s.1 e s'.1 ∧ c ∈ s'.1.live ∧ s'.2 = if asks s.1 q e then s.2 + 1 else s.2

theorem ask_step {k k' : Kernel} {e : KEvent} {q c n n' : ℕ} (hr : RingOk k ∧ Family k)
    (hf : k.finished c) (hc : c ∈ (k.procs q).children) (hs : AskStep q c (k, n) e (k', n')) :
    c ∈ (k'.procs q).children ∧
      n' + (k'.procs q).children.idxOf c ≤ n + (k.procs q).children.idxOf c := by
  obtain ⟨hstep, hlive, hn⟩ := hs
  dsimp only at hstep hlive hn
  have hmove : (c < k'.next ∧ c ∉ k'.live) ∨ (c ∈ (k'.procs q).children ∧
      (k'.procs q).children.idxOf c ≤ (k.procs q).children.idxOf c) := by
    refine kstep_tree (X := fun s => (c < s.next ∧ c ∉ s.live) ∨ (c ∈ (s.procs q).children ∧
      (s.procs q).children.idxOf c ≤ (k.procs q).children.idxOf c)) ?_ hr
      (Or.inr ⟨hc, le_rfl⟩) hstep
    intro a b _ hfam ha hab
    rcases ha with ha | ⟨hca, hle⟩
    · exact Or.inl (gone_move hfam ha hab)
    · rcases place_move hfam hca hab with hb | ⟨hcb, hle'⟩
      · exact Or.inl hb
      · exact Or.inr ⟨hcb, hle'.trans hle⟩
  obtain ⟨hc', hle⟩ := hmove.resolve_left fun h => h.2 hlive
  refine ⟨hc', ?_⟩
  rcases hasks : asks k q e with _ | _ <;> rw [hasks] at hn
  · rw [hn]
    exact Nat.add_le_add_left hle n
  · -- the call reaps a child, and it is one in front of `c`
    cases e with
    | waitpid pid wstatus =>
      obtain ⟨rfl, hw, hq⟩ := of_decide_eq_true hasks
      obtain ⟨child, hfirst⟩ := Option.isSome_iff_exists.1
        (List.find?_isSome.2 ⟨c, hc, hf⟩)
      have hfin := List.find?_some hfirst
      rw [finished_ending] at hfin
      obtain ⟨x, hx⟩ := Option.isSome_iff_exists.1 hfin
      obtain ⟨-, -, -, hchildren, hgone⟩ := waitpid_reports hr.2 hw hq hfirst hx hstep
      have hne : c ≠ child := fun h => hgone (h ▸ hlive)
      have hlt := idxOf_erase_lt hc hf hfirst hne
      rw [hn, hchildren]
      simp only [if_true]
      omega
    | _ => cases hasks

/-- A finished child is reaped by one of its parent's next calls for a child, before there have
been more of them than children stand in front of it now. -/
theorem finished_child_reaped {evs later : List KEvent} {k : Kernel} {q c : ℕ}
    {s : Kernel × ℕ} (hrun : KRun evs k) (hc : c ∈ (k.procs q).children) (hf : k.finished c)
    (hlater : Run (· = (k, 0)) (AskStep q c) later s) :
    s.2 ≤ (k.procs q).children.idxOf c := by
  obtain ⟨hr, hended⟩ := ended_run hrun
  have hinv : ((RingOk s.1 ∧ Family s.1) ∧ NoneLeft s.1) ∧ s.1.finished c ∧
      c ∈ (s.1.procs q).children ∧
      s.2 + (s.1.procs q).children.idxOf c ≤ (k.procs q).children.idxOf c := by
    induction hlater with
    | nil hk =>
      subst hk
      exact ⟨⟨hr, hended⟩, hf, hc, (Nat.zero_add _).le⟩
    | snoc _ hstep ih =>
      obtain ⟨⟨hr', hended'⟩, hf', hc', hle⟩ := ih
      obtain ⟨hnext, hset⟩ := settled_step hr' hended' hstep.1
      obtain ⟨hmem, hless⟩ := ask_step hr' hf' hc' hstep
      refine ⟨⟨family_rule.step hr' trivial hstep.1, hnext⟩, ?_, hmem, hless.trans hle⟩
      rw [finished_ending] at hf' ⊢
      obtain ⟨x, hx⟩ := Option.isSome_iff_exists.1 hf'
      rw [hset.ending c (hr'.2.below c (hr'.2.children q c hc').1) x hx]
      rfl
  exact (Nat.le_add_right _ _).trans hinv.2.2.2

/-- Both children of process 7 have finished; its first call reaps the other one. -/
theorem finished_child_reaped_second : ∃ k : Kernel, (k.procs 7).children = [11, 15] ∧
    1 ≤ (k.procs 7).children.idxOf 15 := by
  have hexec : ((execRun 1 (fun _ _ => true) zeroBoot [zeroSpawn none, .tick, .fork zeroTask,
        .fork zeroTask, .yield, .exit 3, .exit 5, .tick]).bind fun k =>
      (execStep 1 k (.waitpid (-1) 64)).map fun k' => ((k.procs 7).children, k.finished 15,
        asks k 7 (.waitpid (-1) 64), decide (15 ∈ k'.live))) =
      some ([11, 15], true, true, true) := by
    decide +kernel
  obtain ⟨k, hk, hexec⟩ := Option.bind_eq_some_iff.1 hexec
  obtain ⟨k', hk', hexec⟩ := Option.map_eq_some_iff.1 hexec
  obtain ⟨hc, hf, hasks, hlive⟩ := by simpa only [Prod.mk.injEq] using hexec
  have hrun : KRun [zeroSpawn none, .tick, .fork zeroTask, .fork zeroTask, .yield, .exit 3,
      .exit 5, .tick] k :=
    Run.mono (fun _ _ _ hs => hs.2) (execRun_sound (C := fun _ _ => True)
      (fun _ _ _ => trivial) (Run.nil zeroBoot_boot) hk)
  have hstep : AskStep 7 15 (k, 0) (.waitpid (-1) 64) (k', 1) :=
    ⟨execStep_sound hk', of_decide_eq_true hlive, (if_pos hasks).symm⟩
  have hlater : Run (· = (k, 0)) (AskStep 7 15) [.waitpid (-1) 64] (k', 1) :=
    (Run.nil rfl : Run (· = (k, 0)) (AskStep 7 15) [] (k, 0)).snoc hstep
  exact ⟨k, hc, finished_child_reaped hrun (hc ▸ by decide) hf hlater⟩

end DepthOS
