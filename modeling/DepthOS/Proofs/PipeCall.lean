import DepthOS.Proofs.Fd
import DepthOS.Spec.PipeCall

/-! What a failed `pipe` leaves in the file table. It stores the read end before it looks for a
slot for the write end, and does not take it out again. -/

namespace DepthOS

/-- When the call returns `EMFILE`, every slot is as it was, and no slot refers to a block that
the call has given back. -/
def PipeFailsClean (s : PipeCall) (b : PipeBlocks) : Prop :=
  ∀ s', pipeCall s b = some (-EMFILE, s') → ∀ i < TASK_FILETABLE_MAX,
    s'.table i = s.table i ∧ s'.table i ∉ s'.freed.drop s.freed.length

/-- Slot `i` is free and no other. -/
def OnlyFree (t : ℕ → ℕ) (i : ℕ) : Prop :=
  i < TASK_FILETABLE_MAX ∧ t i = 0 ∧ ∀ j < TASK_FILETABLE_MAX, t j = 0 → j = i

section Loops

variable {node e : ℕ} {s : PipeCall}

theorem storeLoop_spec (n i : ℕ) (s : PipeCall) :
    (storeLoop node e n i s = (i + n, s) ∧ ∀ j, i ≤ j → j < i + n → s.table j ≠ 0) ∨
    (i ≤ (storeLoop node e n i s).1 ∧ (storeLoop node e n i s).1 < i + n ∧
      s.table (storeLoop node e n i s).1 = 0 ∧
      (storeLoop node e n i s).2.table =
        Function.update s.table (storeLoop node e n i s).1 node ∧
      (storeLoop node e n i s).2.freed = s.freed) := by
  induction n generalizing i with
  | zero => exact Or.inl ⟨rfl, fun j h1 h2 => by omega⟩
  | succ n ih =>
    by_cases hi : s.table i = 0
    · simp only [storeLoop, if_pos hi]
      exact Or.inr ⟨le_rfl, by omega, hi, trivial, trivial⟩
    · simp only [storeLoop, if_neg hi]
      rcases ih (i + 1) with ⟨heq, hall⟩ | ⟨h1, h2, h3⟩
      · refine Or.inl ⟨by rw [heq, Nat.add_right_comm, Nat.add_assoc], fun j h1 h2 => ?_⟩
        rcases Nat.eq_or_lt_of_le h1 with rfl | hlt
        · exact hi
        · exact hall j hlt (by omega)
      · exact Or.inr ⟨by omega, by omega, h3⟩

theorem storeLoop_cases (node e n : ℕ) (s : PipeCall) :
    (storeLoop node e n 0 s = (n, s) ∧ ∀ j < n, s.table j ≠ 0) ∨
    ∃ i s', storeLoop node e n 0 s = (i, s') ∧ i < n ∧ s.table i = 0 ∧
      s'.table = Function.update s.table i node ∧ s'.freed = s.freed := by
  rcases storeLoop_spec n 0 s with ⟨heq, hall⟩ | ⟨-, h2, h3, h4, h5⟩
  · rw [Nat.zero_add] at heq
    exact Or.inl ⟨heq, fun j hj => hall j (Nat.zero_le j) (by omega)⟩
  · exact Or.inr ⟨_, _, rfl, by omega, h3, h4, h5⟩

end Loops

section Call

variable {s : PipeCall} {b : PipeBlocks}

theorem pipeCall_cases (hb : ¬ b.Null) :
    ((∀ j < TASK_FILETABLE_MAX, s.table j ≠ 0) ∧ ∃ s', pipeCall s b = some (-EMFILE, s') ∧
      s'.table = s.table ∧ s'.freed = s.freed ++ [b.p, b.rf, b.wf]) ∨
    (∃ i s', OnlyFree s.table i ∧ pipeCall s b = some (-EMFILE, s') ∧
      s'.table = Function.update s.table i b.rf ∧ s'.freed = s.freed ++ [b.p, b.rf, b.wf]) ∨
    (∃ i j s', i < TASK_FILETABLE_MAX ∧ j < TASK_FILETABLE_MAX ∧ i ≠ j ∧ s.table i = 0 ∧
      s.table j = 0 ∧ pipeCall s b = some (0, s')) := by
  have hrf : b.rf ≠ 0 := fun h => hb (Or.inr (Or.inr (Or.inr (Or.inl h))))
  have htable : (pipeCreated s b).table = s.table := rfl
  have hfreed : (pipeCreated s b).freed = s.freed := rfl
  unfold pipeCall
  rw [if_neg hb]
  rcases storeLoop_cases b.rf 0 TASK_FILETABLE_MAX (pipeCreated s b) with
    ⟨heq, hfull⟩ | ⟨i, s1, heq, hi, hnull, ht, hf⟩
  · rcases storeLoop_cases b.wf 1 TASK_FILETABLE_MAX (pipeCreated s b) with
      ⟨heq', -⟩ | ⟨j, -, -, hj, hnull, -⟩
    · refine Or.inl ⟨htable ▸ hfull,
        { pipeCreated s b with freed := (pipeCreated s b).freed ++ [b.p, b.rf, b.wf] }, ?_, rfl, rfl⟩
      simp only [heq, heq', if_true]
    · exact absurd hnull (hfull j hj)
  · rcases storeLoop_cases b.wf 1 TASK_FILETABLE_MAX s1 with
      ⟨heq', hfull⟩ | ⟨j, s2, heq', hj, hnull', -⟩
    · refine Or.inr (Or.inl ⟨i, { s1 with freed := s1.freed ++ [b.p, b.rf, b.wf] },
        ⟨hi, htable ▸ hnull, fun j hj h0 => ?_⟩, by simp only [heq, heq', if_true],
        by rw [ht, htable], by rw [hf, hfreed]⟩)
      -- another free slot would still be free for the write end
      by_contra hne
      apply hfull j hj
      rw [ht, Function.update_of_ne hne, htable]
      exact h0
    · have hij : i ≠ j := by
        rintro rfl
        rw [ht, Function.update_self] at hnull'
        exact hrf hnull'
      rw [ht, Function.update_of_ne (Ne.symm hij)] at hnull'
      have hne : j ≠ TASK_FILETABLE_MAX := Nat.ne_of_lt hj
      refine Or.inr (Or.inr ⟨i, j, s2, hi, hj, hij, htable ▸ hnull, htable ▸ hnull', ?_⟩)
      simp only [heq, heq', if_neg hne]

/-- A failed call is clean exactly when not one slot alone is free and, if none is, no slot
already refers to one of the blocks that the call is given. -/
theorem pipe_fails_clean_iff (s : PipeCall) (b : PipeBlocks) : PipeFailsClean s b ↔
    b.Null ∨ (¬ ∃ i, OnlyFree s.table i) ∧ ((∀ j < TASK_FILETABLE_MAX, s.table j ≠ 0) →
      ∀ j < TASK_FILETABLE_MAX, s.table j ∉ [b.p, b.rf, b.wf]) := by
  by_cases hb : b.Null
  · simp [PipeFailsClean, pipeCall, hb]
  rcases pipeCall_cases (s := s) hb with ⟨hfull, s', hcall, ht, hf⟩ | ⟨i, s', honly, hcall, ht, -⟩ |
    ⟨i, j, s', hi, hj, hij, h0, h0', hcall⟩
  · have hnone : ¬ ∃ i, OnlyFree s.table i := by
      rintro ⟨i, hi, h0, -⟩
      exact hfull i hi h0
    simp only [PipeFailsClean, hcall, Option.some.injEq, Prod.mk.injEq, true_and, hb, hnone,
      false_or, not_false_eq_true, forall_eq', ht, hf, List.drop_left]
    exact ⟨fun h _ => h, fun h => h hfull⟩
  · refine ⟨fun h => ?_, ?_⟩
    · have hslot := (h s' hcall i honly.1).1
      rw [ht, Function.update_self, honly.2.1] at hslot
      exact Or.inl (Or.inr (Or.inr (Or.inr (Or.inl hslot))))
    · rintro (h | ⟨h, -⟩)
      · exact absurd h hb
      · exact absurd ⟨i, honly⟩ h
  · have hnot : ¬ ∃ i, OnlyFree s.table i := by
      rintro ⟨k, -, -, huniq⟩
      exact hij ((huniq i hi h0).trans (huniq j hj h0').symm)
    refine ⟨fun _ => Or.inr ⟨hnot, fun hfull => absurd h0 (hfull i hi)⟩, fun _ s'' hcall' => ?_⟩
    rw [hcall] at hcall'
    exact absurd (Prod.mk.inj (Option.some.inj hcall')).1 (by norm_num)

end Call

/-! The call on pointers and the one on the nodes themselves. -/

section Seen

variable (files : ℕ → File) {s s' : PipeCall} {b : PipeBlocks} {node e : ℕ}

/-- The table of nodes behind a table of pointers. -/
def seenTable (t : ℕ → ℕ) : Filetable := fun i =>
  if 0 ≤ i ∧ t i.toNat ≠ 0 then some (files (t i.toNat)) else none

theorem seenTable_none {t : ℕ → ℕ} {i : ℕ} : seenTable files t i = none ↔ t i = 0 := by
  simp [seenTable]

theorem seenTable_update (t : ℕ → ℕ) (i : ℕ) (h : node ≠ 0) :
    seenTable files (Function.update t i node) =
      Function.update (seenTable files t) i (some (files node)) := by
  funext k
  by_cases hk : k = i
  · subst hk
    simp [seenTable, h]
  · rw [Function.update_of_ne hk]
    unfold seenTable
    by_cases hneg : 0 ≤ k
    · rw [Function.update_of_ne (show k.toNat ≠ i by omega)]
    · rw [if_neg fun h => hneg h.1, if_neg fun h => hneg h.1]

variable (node e) in
theorem findFrom_seen (n i : ℕ) (s : PipeCall) (log : List ℤ) :
    (findFrom n i ⟨seenTable files s.table, log⟩).1 =
      if (storeLoop node e n i s).1 = i + n then -1 else ((storeLoop node e n i s).1 : ℤ) := by
  induction n generalizing i log with
  | zero => simp [findFrom, storeLoop]
  | succ n ih =>
    by_cases hi : s.table i = 0
    · have hnone := (seenTable_none files).2 hi
      simp [findFrom, storeLoop, readSlot, hi, hnone]
    · have hsome : ¬ seenTable files s.table i = none := (not_congr (seenTable_none files)).2 hi
      have hnext := ih (i + 1) ((i : ℤ) :: log)
      rw [Nat.add_assoc, Nat.add_comm 1 n, Nat.cast_add, Nat.cast_one] at hnext
      simpa [findFrom, storeLoop, readSlot, hi, hsome] using hnext

theorem storeFirst_seen (hnode : node ≠ 0) {i : ℕ}
    (h : storeLoop node e TASK_FILETABLE_MAX 0 s = (i, s')) (fd : FdState)
    (hfd : fd.table = seenTable files s.table) :
    (storeFirst fd (files node)).1 = (if i = TASK_FILETABLE_MAX then none else some (i : ℤ)) ∧
      (storeFirst fd (files node)).2.table = seenTable files s'.table := by
  obtain ⟨table, log⟩ := fd
  obtain rfl : table = seenTable files s.table := hfd
  have hfind : (findAvailableFd ⟨seenTable files s.table, log⟩).1 = _ :=
    findFrom_seen files node e TASK_FILETABLE_MAX 0 s log
  have htable : (findAvailableFd ⟨seenTable files s.table, log⟩).2.table = _ :=
    findFrom_table TASK_FILETABLE_MAX 0 ⟨seenTable files s.table, log⟩
  rw [Nat.zero_add, h] at hfind
  rcases storeLoop_cases node e TASK_FILETABLE_MAX s with ⟨heq, -⟩ | ⟨j, s1, heq, hj, -, ht, -⟩
  · obtain ⟨rfl, rfl⟩ := Prod.mk.inj (h.symm.trans heq)
    rw [if_pos rfl] at hfind
    simp only [storeFirst, hfind, if_true]
    exact ⟨trivial, htable⟩
  · obtain ⟨rfl, rfl⟩ := Prod.mk.inj (h.symm.trans heq)
    have hne : i ≠ TASK_FILETABLE_MAX := Nat.ne_of_lt hj
    rw [if_neg hne] at hfind
    have hfree : (i : ℤ) ≠ -1 := by omega
    simp only [storeFirst, hfind, if_neg hne, if_neg hfree, writeSlot, htable]
    rw [ht, seenTable_update files s.table i hnode]
    exact ⟨trivial, rfl⟩

/-- The call returns the same value on either table, and leaves the same nodes in it. -/
theorem pipeCall_agrees {ret : ℤ} {rf wf : File} (log : List ℤ)
    (hrf : files b.rf = createPipeFile rf) (hwf : files b.wf = createPipeFile wf)
    (h : pipeCall s b = some (ret, s')) :
    (sysPipe ⟨seenTable files s.table, log⟩ rf wf).1 = ret ∧
      (sysPipe ⟨seenTable files s.table, log⟩ rf wf).2.table = seenTable files s'.table := by
  by_cases hb : b.Null
  · simp [pipeCall, hb] at h
  have hnull : b.rf ≠ 0 ∧ b.wf ≠ 0 := by
    simp only [PipeBlocks.Null, not_or] at hb
    exact ⟨hb.2.2.2.1, hb.2.2.2.2⟩
  rw [pipeCall, if_neg hb] at h
  obtain ⟨-, h1⟩ := storeFirst_seen files (e := 0) hnull.1 (s := pipeCreated s b)
    (Prod.mk.eta).symm ⟨seenTable files s.table, log⟩ rfl
  obtain ⟨h2, h3⟩ := storeFirst_seen files (e := 1) hnull.2 (Prod.mk.eta).symm _ h1
  rw [hrf] at h1 h2 h3
  rw [hwf] at h2 h3
  dsimp only at h
  unfold sysPipe
  dsimp only
  generalize storeFirst (storeFirst _ _).2 _ = r at h2 h3 ⊢
  obtain ⟨slot, fd⟩ := r
  split_ifs at h h2 <;> obtain ⟨rfl, rfl⟩ := Prod.mk.inj (Option.some.inj h) <;>
    simp only at h2 h3 <;> subst h2 <;> exact ⟨rfl, h3⟩

end Seen

/-- A table whose last slot is free, and a call with five blocks. -/
def lastFree : PipeCall where
  table := fun i => if i = 255 then 0 else 1000
  fds := fun _ => 0
  pipes := fun _ => ⟨0, 0, 0⟩
  nodes := fun _ => ⟨0, .ext2, 0, 0⟩
  freed := []

def fiveBlocks : PipeBlocks := ⟨2000, 2032, 4096, 2064, 2128⟩

/-- The read end stays in the last slot, freed. -/
theorem pipe_leaves_read_end : ¬ ∀ (s : PipeCall) (b : PipeBlocks), PipeFailsClean s b := by
  intro h
  have honly : OnlyFree lastFree.table 255 := by
    refine ⟨by decide, rfl, fun j _ h0 => ?_⟩
    by_contra hne
    simp [lastFree, hne] at h0
  rcases pipeCall_cases (s := lastFree) (b := fiveBlocks) (by decide) with ⟨hfull, -⟩ |
    ⟨i, s', hi, hcall, ht, -⟩ | ⟨i, j, -, hi, hj, hij, h0, h0', -⟩
  · exact hfull 255 (by decide) rfl
  · have hslot := (h _ _ s' hcall i hi.1).1
    rw [ht, Function.update_self, hi.2.1] at hslot
    exact absurd hslot (by decide)
  · exact hij ((honly.2.2 i hi h0).trans (honly.2.2 j hj h0').symm)

end DepthOS
