import Mathlib.Algebra.BigOperators.Group.Finset.Basic
import Mathlib.Algebra.Order.BigOperators.Group.Finset
import Mathlib.Data.Finset.Prod
import DepthOS.Proofs.Ext2Read
import DepthOS.Proofs.Open

/-! The end counts of a named pipe against the descriptors that refer to it. `open` counts
an end before it looks for a slot, `dup3` counts nothing, and `close` finds the operations
of the file system in the node, not those of a pipe end, and so takes nothing off: the
counts are right as long as slots come from successful opens and stay. -/

namespace DepthOS

open Lib

/-- The slot holds an open of pipe `k`. -/
def OpenState.refers (s : OpenState) (k : ℕ) (r : Option NodeRef) : Bool :=
  (r.bind s.node).any fun n => n.type = some .FS_PIPE ∧ n.pipe = some k

def OpenState.slot (s : OpenState) (task fd : ℕ) : Option NodeRef := s.tables[task]?.bind (· fd)

/-- The slots, by task and descriptor, that refer to an open of pipe `k`. -/
def pipeSlots (s : OpenState) (k : ℕ) : Finset (ℕ × ℕ) :=
  (Finset.range s.tables.length ×ˢ Finset.range TASK_FILETABLE_MAX).filter
    fun x => s.refers k (s.slot x.1 x.2)

/-- The two counts together are the slots, and both are 0 when there is none. -/
def EndsCounted (s : OpenState) (k : ℕ) : Prop :=
  ∃ op, s.openPipes[k]? = some op ∧ op.nReaders + op.nWriters = (pipeSlots s k).card ∧
    ((pipeSlots s k).card = 0 → op.nReaders = 0 ∧ op.nWriters = 0)

/-- Pointers in file tables are good and the nodes of `devfs` are devices, as
`devfs_register` made them; `pipe_open` has made pipe `k` and nobody has it open. -/
structure PipeOpened (k : ℕ) (s : OpenState) : Prop where
  valid : ∀ r, Installed s r → (s.node r).isSome
  devices : ∀ n ∈ s.devfsFiles, n.type = some .FS_DEV
  counts : s.openPipes[k]?.any fun op => op.nReaders = 0 ∧ op.nWriters = 0
  unused : ∀ r, Installed s r → s.refers k (some r) = false

/-- The lookup of `open` ends at a FIFO whose pipe is `k`. -/
def OpensPipe (env : OpenEnv) (s : OpenState) (path : CString) (k : ℕ) : Prop :=
  ∃ n fsi, vfsLookup env s.devfsFiles (env.resolved path) 0 = some (some (.fresh n, fsi)) ∧
    n.type = some .FS_PIPE ∧ (pipeOpen s.openPipes (fsi.dev.getD 0) n.inodeNum).1 = k

/-- An open of the pipe has a slot to go to, no slot of it is closed, and `dup3` neither
adds one nor overwrites one, except with one by another. -/
def KeepsEnds (k : ℕ) (s : OpenState) (e : FileEvent) : Prop :=
  match e with
  | .openFile env task path _ => OpensPipe env s path k →
      ∀ t, s.tables[task]? = some t → (findAvailableSlot t).isSome
  | .close task fd => ∀ t r, s.tables[task]? = some t → taskFile t fd = some r →
      s.refers k (some r.2) = false
  | .dup3 task oldfd newfd => ∀ t r, s.tables[task]? = some t → taskFile t oldfd = some r →
      if newfd = -1 then s.refers k (some r.2) = false ∨ findAvailableSlot t = none
      else 0 ≤ newfd → newfd < TASK_FILETABLE_MAX →
        s.refers k (some r.2) = s.refers k (t newfd.toNat)

/-! One slot changes. -/

theorem card_filter_update {α : Type} [DecidableEq α] {S : Finset α} (P P' : α → Bool) {x : α}
    (hx : x ∈ S) (h : ∀ y ∈ S, y ≠ x → P' y = P y) :
    (S.filter fun y => P' y).card + (P x).toNat = (S.filter fun y => P y).card + (P' x).toNat := by
  have hrest : ∑ y ∈ S.erase x, (if P' y = true then 1 else 0) =
      ∑ y ∈ S.erase x, (if P y = true then 1 else 0) :=
    Finset.sum_congr rfl fun y hy => by
      rw [h y (Finset.mem_of_mem_erase hy) (Finset.ne_of_mem_erase hy)]
  rw [Finset.card_filter, Finset.card_filter, ← Finset.add_sum_erase S _ hx,
    ← Finset.add_sum_erase S (fun y => if P y = true then 1 else 0) hx, hrest]
  cases P x <;> cases P' x <;> simp <;> omega

variable {env : OpenEnv} {s s' : OpenState} {task fd k flags : ℕ} {t : NodeTable} {n : FsNode}
  {r : NodeRef} {v : Option NodeRef}

theorem slot_of_table (ht : s.tables[task]? = some t) (fd : ℕ) : s.slot task fd = t fd := by
  simp [OpenState.slot, ht]

theorem slot_setSlot_self (ht : s.tables[task]? = some t) :
    (s.setSlot task fd v).slot task fd = v := by
  simp [OpenState.slot, OpenState.setSlot, List.getElem?_modify_eq, ht]

theorem slot_setSlot_of_ne {i j : ℕ} (h : (i, j) ≠ (task, fd)) :
    (s.setSlot task fd v).slot i j = s.slot i j := by
  by_cases hi : i = task
  · subst hi
    have hj : j ≠ fd := fun hj => h (by rw [hj])
    simp only [OpenState.slot, OpenState.setSlot, List.getElem?_modify_eq]
    cases s.tables[i]? with
    | none => rfl
    | some t => simp [Function.update_of_ne hj]
  · simp only [OpenState.slot, OpenState.setSlot]
    rw [List.getElem?_modify_ne _ _ (Ne.symm hi)]

@[simp] theorem refers_setSlot : (s.setSlot task fd v).refers k = s.refers k := by
  funext o
  cases o with
  | none => rfl
  | some r => simp [OpenState.refers]

@[simp] theorem refers_none : s.refers k none = false := rfl

theorem refers_of_node (h : s.node r = some n) :
    s.refers k (some r) = decide (n.type = some .FS_PIPE ∧ n.pipe = some k) := by
  simp [OpenState.refers, h]

theorem card_pipeSlots_setSlot (ht : s.tables[task]? = some t) (hfd : fd < TASK_FILETABLE_MAX) :
    (pipeSlots (s.setSlot task fd v) k).card + (s.refers k (t fd)).toNat =
      (pipeSlots s k).card + (s.refers k v).toNat := by
  have hlen : (s.setSlot task fd v).tables.length = s.tables.length := by
    simp [OpenState.setSlot]
  have hmem : (task, fd) ∈ Finset.range s.tables.length ×ˢ Finset.range TASK_FILETABLE_MAX := by
    simp only [Finset.mem_product, Finset.mem_range]
    exact ⟨(List.getElem?_eq_some_iff.1 ht).1, hfd⟩
  have hcount := card_filter_update (fun x : ℕ × ℕ => s.refers k (s.slot x.1 x.2))
    (fun x : ℕ × ℕ => s.refers k ((s.setSlot task fd v).slot x.1 x.2)) hmem
    fun y _ hy => by rw [slot_setSlot_of_ne hy]
  rw [slot_setSlot_self ht, slot_of_table ht] at hcount
  unfold pipeSlots
  rw [hlen, refers_setSlot]
  exact hcount

theorem mem_tables_setSlot {t' : NodeTable} (h : t' ∈ (s.setSlot task fd v).tables) :
    ∃ t ∈ s.tables, ∀ i, t' i = t i ∨ t' i = v := by
  obtain ⟨j, hj⟩ := List.mem_iff_getElem?.1 h
  simp only [OpenState.setSlot, List.getElem?_modify, Option.map_eq_map,
    Option.map_eq_some_iff] at hj
  obtain ⟨t, ht, rfl⟩ := hj
  refine ⟨t, List.mem_of_getElem? ht, fun i => ?_⟩
  by_cases htask : task = j
  · rw [if_pos htask]
    by_cases hi : i = fd
    · exact Or.inr (by rw [hi, Function.update_self])
    · exact Or.inl (Function.update_of_ne hi _ _)
  · exact Or.inl (by rw [if_neg htask])

theorem installed_setSlot (h : Installed (s.setSlot task fd v) r) : Installed s r ∨ v = some r := by
  obtain ⟨t', ht', i, hi, hr⟩ := h
  obtain ⟨t, ht, hslot⟩ := mem_tables_setSlot ht'
  rcases hslot i with heq | heq
  · exact Or.inl ⟨t, ht, i, hi, heq.symm.trans hr⟩
  · exact Or.inr (heq.symm.trans hr)

theorem installed_of_slot (ht : s.tables[task]? = some t) (hfd : fd < TASK_FILETABLE_MAX)
    (hr : t fd = some r) : Installed s r :=
  ⟨t, List.mem_of_getElem? ht, fd, hfd, hr⟩

/-! What the counts depend on. -/

/-- The pointers and nodes are well formed, and the counts of pipe `k` are right. -/
structure EndsInv (k : ℕ) (s : OpenState) : Prop where
  valid : ∀ r, Installed s r → (s.node r).isSome
  devices : ∀ n ∈ s.devfsFiles, n.type = some .FS_DEV
  ends : ∃ op, s.openPipes[k]? = some op ∧ 0 ≤ op.nReaders ∧ 0 ≤ op.nWriters ∧
    op.nReaders + op.nWriters = (pipeSlots s k).card

theorem EndsInv.counted (h : EndsInv k s) : EndsCounted s k := by
  obtain ⟨op, hop, hr, hw, hsum⟩ := h.ends
  exact ⟨op, hop, hsum, fun h0 => by omega⟩

/-- No slot changes and the pipe keeps its counts, nodes keep their type and pipe. -/
structure SameEnds (k : ℕ) (s s' : OpenState) : Prop where
  tables : s'.tables = s.tables
  pipe : s'.openPipes[k]? = s.openPipes[k]?
  nodes : ∀ r n, s.node r = some n → ∃ n', s'.node r = some n' ∧ n'.type = n.type ∧ n'.pipe = n.pipe
  devices : (∀ n ∈ s.devfsFiles, n.type = some .FS_DEV) → ∀ n ∈ s'.devfsFiles, n.type = some .FS_DEV

theorem SameEnds.refers (h : SameEnds k s s') (hr : (s.node r).isSome) :
    s'.refers k (some r) = s.refers k (some r) := by
  obtain ⟨n, hn⟩ := Option.isSome_iff_exists.1 hr
  obtain ⟨n', hn', htype, hpipe⟩ := h.nodes r n hn
  simp [OpenState.refers, hn, hn', htype, hpipe]

theorem SameEnds.installed (h : SameEnds k s s') : Installed s' r ↔ Installed s r := by
  unfold Installed
  rw [h.tables]

theorem pipeSlots_congr (htables : s'.tables = s.tables)
    (h : ∀ r, Installed s r → s'.refers k (some r) = s.refers k (some r)) :
    pipeSlots s' k = pipeSlots s k := by
  unfold pipeSlots
  rw [htables]
  refine Finset.filter_congr fun x hx => ?_
  obtain ⟨-, hfd⟩ := Finset.mem_product.1 hx
  have hslot : s'.slot x.1 x.2 = s.slot x.1 x.2 := by
    unfold OpenState.slot
    rw [htables]
  rw [hslot]
  cases hr : s.slot x.1 x.2 with
  | none => rfl
  | some r =>
    obtain ⟨t, ht, hr⟩ := Option.bind_eq_some_iff.1 hr
    rw [h r (installed_of_slot ht (Finset.mem_range.1 hfd) hr)]

theorem SameEnds.slots (h : SameEnds k s s') (hinv : EndsInv k s) : pipeSlots s' k = pipeSlots s k :=
  pipeSlots_congr h.tables fun r hr => h.refers (hinv.valid r hr)

theorem SameEnds.inv (h : SameEnds k s s') (hinv : EndsInv k s) : EndsInv k s' := by
  refine ⟨fun r hr => ?_, h.devices hinv.devices, ?_⟩
  · obtain ⟨n, hn⟩ := Option.isSome_iff_exists.1 (hinv.valid r (h.installed.1 hr))
    obtain ⟨n', hn', -⟩ := h.nodes r n hn
    rw [hn']
    rfl
  · rw [h.slots hinv, h.pipe]
    exact hinv.ends

theorem SameEnds.refl (k : ℕ) (s : OpenState) : SameEnds k s s :=
  ⟨rfl, rfl, fun _ n h => ⟨n, h, rfl, rfl⟩, fun h => h⟩

theorem SameEnds.trans {s'' : OpenState} (h : SameEnds k s s') (h' : SameEnds k s' s'') :
    SameEnds k s s'' := by
  refine ⟨h'.tables.trans h.tables, h'.pipe.trans h.pipe, fun r n hn => ?_,
    fun hd => h'.devices (h.devices hd)⟩
  obtain ⟨n', hn', htype, hpipe⟩ := h.nodes r n hn
  obtain ⟨n'', hn'', htype', hpipe'⟩ := h'.nodes r n' hn'
  exact ⟨n'', hn'', htype'.trans htype, hpipe'.trans hpipe⟩

theorem sameEnds_setNode (h : s.node r = some n) {n' : FsNode} (htype : n'.type = n.type)
    (hpipe : n'.pipe = n.pipe) : SameEnds k s (s.setNode r n') := by
  refine ⟨by cases r <;> rfl, by cases r <;> rfl, fun r₁ n₁ h₁ => ?_, fun hd m hm => ?_⟩
  · by_cases hr : r₁ = r
    · subst hr
      obtain rfl : n = n₁ := Option.some.inj (h.symm.trans h₁)
      exact ⟨n', setNode_node_self h n', htype, hpipe⟩
    · exact ⟨n₁, (setNode_node_of_ne hr n').trans h₁, rfl, rfl⟩
  · cases r with
    | devfs i =>
      rcases List.mem_or_eq_of_mem_set hm with hm | rfl
      · exact hd m hm
      · exact htype.trans (hd n (List.mem_of_getElem? h))
    | heap j => exact hd m hm

theorem sameEnds_append (m : FsNode) :
    SameEnds k s { s with nodes := s.nodes ++ [m] } :=
  ⟨rfl, rfl, fun _ n h => ⟨n, node_append h m, rfl, rfl⟩, fun h => h⟩

/-! A slot is written. -/

theorem EndsInv.setSlot (h : EndsInv k s) (ht : s.tables[task]? = some t)
    (hfd : fd < TASK_FILETABLE_MAX) (hv : ∀ r, v = some r → (s.node r).isSome)
    (hsame : s.refers k v = s.refers k (t fd)) : EndsInv k (s.setSlot task fd v) := by
  refine ⟨fun r hr => ?_, h.devices, ?_⟩
  · rw [setSlot_node]
    rcases installed_setSlot hr with hr | hr
    · exact h.valid r hr
    · exact hv r hr
  · obtain ⟨op, hop, hr, hw, hsum⟩ := h.ends
    have hcard := card_pipeSlots_setSlot (k := k) (v := v) ht hfd
    rw [hsame] at hcard
    refine ⟨op, hop, hr, hw, ?_⟩
    omega

theorem findAvailableSlot_some (h : findAvailableSlot t = some fd) :
    fd < TASK_FILETABLE_MAX ∧ t fd = none := by
  have hfree := List.find?_some h
  exact ⟨List.mem_range.1 (List.mem_of_find?_eq_some h), of_decide_eq_true hfree⟩

/-! Opening. -/

theorem vfsOpen_sameEnds {path : AbsPath} {call : ℕ} {o : Option (NodeRef × FsNode)}
    (h : vfsOpen env s path call = some (o, s')) : SameEnds k s s' := by
  rcases vfsOpen_cases h with ⟨-, -, rfl⟩ | ⟨i, n, fsi, hl, -, rfl⟩ | ⟨n, fsi, -, -, rfl⟩
  · exact SameEnds.refl k _
  · exact sameEnds_setNode (vfsLookup_shared hl) rfl rfl
  · exact sameEnds_append _

theorem vfsCreate_sameEnds {path : AbsPath} (h : vfsCreate env s path = some s') :
    SameEnds k s s' := by
  unfold vfsCreate at h
  split at h
  · cases h
  · cases h
    exact SameEnds.refl k _
  · obtain ⟨⟨o, s₁⟩, hopen, rfl⟩ := Option.map_eq_some_iff.1 h
    exact vfsOpen_sameEnds hopen

/-- The last step of `open`: a slot for the node, or `EMFILE`. -/
def placed (s : OpenState) (task : ℕ) (t : NodeTable) (file : NodeRef) : OpenState :=
  match findAvailableSlot t with
  | none => s
  | some fd => s.setSlot task fd (some file)

theorem openNodeAt_eq (file : NodeRef) :
    (openNodeAt s task t file n flags).2 =
      placed ((openPipeEnd s n flags).2.setNode file
        { (openPipeEnd s n flags).1 with rdonly := flags &&& FD_RDONLY ≠ 0 }) task t file := by
  unfold openNodeAt placed
  dsimp only
  cases findAvailableSlot t <;> rfl

theorem EndsInv.placed (h : EndsInv k s) (ht : s.tables[task]? = some t)
    (hn : s.node r = some n) (hrefers : s.refers k (some r) = false) :
    EndsInv k (placed s task t r) := by
  unfold DepthOS.placed
  split
  · exact h
  · rename_i fd hfd
    obtain ⟨hlt, hfree⟩ := findAvailableSlot_some hfd
    refine h.setSlot ht hlt (fun r' hr' => ?_) ?_
    · cases hr'
      rw [hn]
      rfl
    · rw [hfree, hrefers]
      rfl

theorem setNode_tables (r : NodeRef) (n : FsNode) : (s.setNode r n).tables = s.tables := by
  cases r <;> rfl

theorem openNodeAt_inv_other (h : EndsInv k s) (ht : s.tables[task]? = some t)
    (hn : s.node r = some n) (htype : n.type ≠ some .FS_PIPE) :
    EndsInv k (openNodeAt s task t r n flags).2 := by
  have hend : openPipeEnd s n flags = (n, s) := by
    unfold openPipeEnd
    rw [if_neg htype]
  rw [openNodeAt_eq, hend]
  have hnode := setNode_node_self hn { n with rdonly := flags &&& FD_RDONLY ≠ 0 }
  have hsame : SameEnds k s (s.setNode r { n with rdonly := flags &&& FD_RDONLY ≠ 0 }) :=
    sameEnds_setNode hn rfl rfl
  apply (hsame.inv h).placed (by rw [setNode_tables]; exact ht) hnode
  rw [refers_of_node hnode]
  simp [htype]

/-- The state of `open` after the pipe has been found, before the slot. -/
theorem openPipeEnd_fifo (htype : n.type = some .FS_PIPE) :
    openPipeEnd s n flags =
      let r := pipeOpen s.openPipes n.dev n.inodeNum
      ({ n with pipe := some r.1 },
        { s with openPipes := r.2.modify r.1 (·.attach flags) }) := by
  unfold openPipeEnd
  rw [if_pos htype]

/-- `pipe_open` keeps the entries that are there. -/
theorem pipeOpen_getElem? {pipes : List OpenPipe} {op : OpenPipe} (h : pipes[k]? = some op)
    (device inode : ℕ) : (pipeOpen pipes device inode).2[k]? = some op := by
  unfold pipeOpen
  split
  · exact h
  · change (pipes ++ _)[k]? = some op
    rw [List.getElem?_append_left (List.getElem?_eq_some_iff.1 h).1]
    exact h

theorem attach_sum (op : OpenPipe) (flags : ℕ) :
    (op.attach flags).nReaders + (op.attach flags).nWriters = op.nReaders + op.nWriters + 1 ∧
      op.nReaders ≤ (op.attach flags).nReaders ∧ op.nWriters ≤ (op.attach flags).nWriters := by
  unfold OpenPipe.attach
  split
  · simp only
    omega
  · simp only
    omega

/-- The FIFO's node is new, so nothing that is installed sees the pipe go into it. -/
theorem fifo_slots {pipes : List OpenPipe} (hfree : ¬ Installed s r) (n' : FsNode) :
    pipeSlots (({ s with openPipes := pipes } : OpenState).setNode r n') k = pipeSlots s k := by
  apply pipeSlots_congr
  · rw [setNode_tables]
  · intro r' hr'
    have hne : r' ≠ r := fun he => hfree (he ▸ hr')
    have hnode : (({ s with openPipes := pipes } : OpenState).setNode r n').node r' = s.node r' := by
      rw [setNode_node_of_ne hne]
      cases r' <;> rfl
    simp [OpenState.refers, hnode]

theorem openNodeAt_inv_fifo {j : ℕ} (h : EndsInv k s) (ht : s.tables[task]? = some t)
    (hn : s.node (.heap j) = some n) (hfree : ¬ Installed s (.heap j))
    (htype : n.type = some .FS_PIPE)
    (hslot : (pipeOpen s.openPipes n.dev n.inodeNum).1 = k → (findAvailableSlot t).isSome) :
    EndsInv k (openNodeAt s task t (.heap j) n flags).2 := by
  rw [openNodeAt_eq, openPipeEnd_fifo htype]
  dsimp only
  set i := (pipeOpen s.openPipes n.dev n.inodeNum).1 with hi
  set pipes := (pipeOpen s.openPipes n.dev n.inodeNum).2.modify i (·.attach flags) with hpipes
  set n' : FsNode := { n with pipe := some i, rdonly := flags &&& FD_RDONLY ≠ 0 } with hn'
  set s' := ({ s with openPipes := pipes } : OpenState).setNode (.heap j) n' with hs'
  have hnode : s'.node (.heap j) = some n' := setNode_node_self hn n'
  have ht' : s'.tables[task]? = some t := ht
  have hcard : pipeSlots s' k = pipeSlots s k := fifo_slots hfree n'
  have hvalid : ∀ r, Installed s' r → (s'.node r).isSome := by
    intro r hr
    have hne : r ≠ .heap j := fun he => hfree (he ▸ hr)
    have hkept : s'.node r = s.node r := by
      rw [hs', setNode_node_of_ne hne]
      cases r <;> rfl
    rw [hkept]
    exact h.valid r hr
  obtain ⟨op, hop, hr, hw, hsum⟩ := h.ends
  have hentry := pipeOpen_getElem? hop n.dev n.inodeNum
  have hrefers : s'.refers k (some (.heap j)) = decide (i = k) := by
    rw [refers_of_node hnode]
    simp [hn', htype]
  by_cases hik : i = k
  · -- the count goes up with the slot that the node gets
    obtain ⟨fd, hfd⟩ := Option.isSome_iff_exists.1 (hslot hik)
    obtain ⟨hlt, hempty⟩ := findAvailableSlot_some hfd
    obtain ⟨hsum', hr', hw'⟩ := attach_sum op flags
    have hone := card_pipeSlots_setSlot (k := k) (v := some (.heap j)) ht' hlt
    rw [hempty, refers_none, hrefers, hcard] at hone
    simp only [hik, decide_true, Bool.toNat_true, Bool.toNat_false, Nat.add_zero] at hone
    have hplaced : placed s' task t (.heap j) = s'.setSlot task fd (some (.heap j)) := by
      unfold DepthOS.placed
      rw [hfd]
    rw [hplaced]
    refine ⟨fun r hr => ?_, h.devices, op.attach flags, ?_, by omega, by omega, ?_⟩
    · rw [setSlot_node]
      rcases installed_setSlot hr with hr | hr
      · exact hvalid r hr
      · cases hr
        rw [hnode]
        rfl
    · change pipes[k]? = _
      rw [hpipes, hik, List.getElem?_modify_eq, hentry]
      rfl
    · rw [hone]
      omega
  · have hinv : EndsInv k s' := by
      refine ⟨hvalid, h.devices, op, ?_, hr, hw, by rw [hcard]; exact hsum⟩
      change pipes[k]? = _
      rw [hpipes, List.getElem?_modify_ne _ _ hik]
      exact hentry
    apply hinv.placed ht' hnode
    rw [hrefers]
    exact decide_eq_false hik

theorem open_inv {path : CString} {v : Option ℤ} (h : EndsInv k s)
    (hstep : taskOpen env s task path flags = some (v, s'))
    (hkeeps : KeepsEnds k s (.openFile env task path flags)) : EndsInv k s' := by
  cases ht : s.tables[task]? with
  | none =>
    simp only [taskOpen, ht] at hstep
    cases hstep
    exact h
  | some t =>
    rw [taskOpen_eq ht] at hstep
    cases hopen : vfsOpen env s (env.resolved path) 0 with
    | none => simp [hopen] at hstep
    | some r =>
      obtain ⟨o, s₁⟩ := r
      rw [hopen] at hstep
      have hinv : EndsInv k s₁ := (vfsOpen_sameEnds hopen).inv h
      have ht₁ : s₁.tables[task]? = some t := by rw [(vfsOpen_sameEnds (k := k) hopen).tables]; exact ht
      rcases vfsOpen_cases hopen with ⟨-, rfl, rfl⟩ | ⟨i, n, fsi, hl, rfl, rfl⟩ |
        ⟨n, fsi, hl, rfl, rfl⟩
      · dsimp only at hstep
        split at hstep
        · obtain ⟨s₂, hs₂, hpair⟩ := Option.map_eq_some_iff.1 hstep
          cases hpair
          exact (vfsCreate_sameEnds hs₂).inv h
        · cases hstep
          exact h
      · cases hstep
        have hdev : n.type = some .FS_DEV :=
          h.devices n (List.mem_of_getElem? (vfsLookup_shared hl))
        refine openNodeAt_inv_other hinv ht₁ (setNode_node_self (vfsLookup_shared hl) _) ?_
        change n.type ≠ _
        rw [hdev]
        decide
      · cases hstep
        by_cases htype : n.type = some .FS_PIPE
        · refine openNodeAt_inv_fifo hinv ht₁ (node_fresh _) ?_ htype fun hpipe => ?_
          · intro hin
            have hsome := h.valid _ ((vfsOpen_sameEnds (k := k) hopen).installed.1 hin)
            simp [OpenState.node] at hsome
          · exact hkeeps ⟨n, fsi, hl, htype, hpipe⟩ t ht
        · exact openNodeAt_inv_other hinv ht₁ (node_fresh _) htype

/-! Closing and duplicating. -/

theorem taskFile_some {f : ℤ} {x : ℕ × NodeRef} (h : taskFile t f = some x) :
    x.1 < TASK_FILETABLE_MAX ∧ t x.1 = some x.2 := by
  unfold taskFile at h
  split at h
  · cases h
  · rename_i hbound
    obtain ⟨r, hr, rfl⟩ := Option.map_eq_some_iff.1 h
    exact ⟨by omega, hr⟩

theorem closePipeEnd_sameEnds (hn : s.node r = some n) (hrefers : s.refers k (some r) = false) :
    SameEnds k s (closePipeEnd s r n) := by
  rw [refers_of_node hn] at hrefers
  have hnot := of_decide_eq_false hrefers
  unfold closePipeEnd
  cases hp : n.pipe with
  | none => exact SameEnds.refl k s
  | some j =>
    by_cases htype : n.type = some .FS_PIPE
    · have hjk : j ≠ k := fun he => hnot ⟨htype, by rw [hp, he]⟩
      have hdetach : SameEnds k s { s with openPipes := s.openPipes.modify j (·.detach n.ops) } := by
        refine ⟨rfl, List.getElem?_modify_ne _ _ hjk, fun r m hm => ⟨m, ?_, rfl, rfl⟩, fun hd => hd⟩
        cases r <;> exact hm
      have hn' : ({ s with openPipes := s.openPipes.modify j (·.detach n.ops) } : OpenState).node r =
          some n := by
        cases r <;> exact hn
      dsimp only
      rw [if_pos htype]
      unfold pipeFileClose
      dsimp only
      split
      · exact hdetach.trans (sameEnds_setNode hn' rfl rfl)
      · exact hdetach
    · dsimp only
      rw [if_neg htype]
      exact SameEnds.refl k s

theorem close_inv {f : ℤ} (h : EndsInv k s) (hkeeps : KeepsEnds k s (.close task f)) :
    EndsInv k (taskClose s task f).2 := by
  unfold taskClose
  cases ht : s.tables[task]? with
  | none => exact h
  | some t =>
    cases hf : taskFile t f with
    | none => simpa [hf] using h
    | some x =>
      obtain ⟨fd, r⟩ := x
      obtain ⟨hlt, hslot⟩ := taskFile_some hf
      have hrefers : s.refers k (some r) = false := hkeeps t _ ht hf
      dsimp only
      rw [hf]
      dsimp only
      cases hn : s.node r with
      | none => exact h
      | some n =>
        have hsame := closePipeEnd_sameEnds hn hrefers
        have hvalid : (s.node r).isSome := by rw [hn]; rfl
        refine (hsame.inv h).setSlot (by rw [hsame.tables]; exact ht) hlt (fun _ hv => nomatch hv) ?_
        rw [refers_none, hslot, hsame.refers hvalid, hrefers]

theorem dup3_inv {oldfd newfd : ℤ} (h : EndsInv k s)
    (hkeeps : KeepsEnds k s (.dup3 task oldfd newfd)) : EndsInv k (taskDup3 s task oldfd newfd).2 := by
  unfold taskDup3
  cases ht : s.tables[task]? with
  | none => exact h
  | some t =>
    cases hf : taskFile t oldfd with
    | none => simpa [hf] using h
    | some x =>
      obtain ⟨fd, r⟩ := x
      obtain ⟨hlt, hslot⟩ := taskFile_some hf
      have hvalid : ∀ r', some r = some r' → (s.node r').isSome := by
        intro r' hr'
        cases hr'
        exact h.valid r (installed_of_slot ht hlt hslot)
      have hkept := hkeeps t _ ht hf
      dsimp only
      rw [hf]
      dsimp only
      by_cases hnew : newfd = -1
      · rw [if_pos hnew] at hkept ⊢
        cases hfree : findAvailableSlot t with
        | none => exact h
        | some i =>
          obtain ⟨hi, hempty⟩ := findAvailableSlot_some hfree
          have hrefers : s.refers k (some r) = false := hkept.resolve_right (by rw [hfree]; simp)
          refine h.setSlot ht hi hvalid ?_
          rw [hempty, hrefers]
          rfl
      · rw [if_neg hnew] at hkept ⊢
        split
        · exact h
        · rename_i hbound
          push Not at hbound
          exact h.setSlot ht (by omega) hvalid (hkept hbound.1 hbound.2)

/-! Runs. -/

theorem endsInv_opened (h : PipeOpened k s) : EndsInv k s := by
  refine ⟨h.valid, h.devices, ?_⟩
  have hcounts := h.counts
  rw [Option.any_eq_true] at hcounts
  obtain ⟨op, hop, hzero⟩ := hcounts
  obtain ⟨hr, hw⟩ := of_decide_eq_true hzero
  have hempty : pipeSlots s k = ∅ := by
    refine Finset.filter_eq_empty_iff.2 fun x hx => ?_
    obtain ⟨-, hfd⟩ := Finset.mem_product.1 hx
    cases hslot : s.slot x.1 x.2 with
    | none => simp
    | some r =>
      obtain ⟨t, ht, hr⟩ := Option.bind_eq_some_iff.1 hslot
      rw [h.unused r (installed_of_slot ht (Finset.mem_range.1 hfd) hr)]
      exact Bool.false_ne_true
  exact ⟨op, hop, by omega, by omega, by rw [hempty, Finset.card_empty]; omega⟩

theorem step_endsInv {e : FileEvent} (h : EndsInv k s) (hstep : FileStep s e s')
    (hkeeps : KeepsEnds k s e) : EndsInv k s' := by
  cases e with
  | openFile env task path flags =>
    obtain ⟨v, hopen⟩ := hstep
    exact open_inv h hopen hkeeps
  | close task fd =>
    obtain rfl := hstep
    exact close_inv h hkeeps
  | dup3 task oldfd newfd =>
    obtain rfl := hstep
    exact dup3_inv h hkeeps

/-- As long as each open of the pipe gets a slot and none of its slots is closed, added by
`dup3` or overwritten, the counts are right. -/
theorem pipe_ends_counted {evs : List FileEvent}
    (h : Run (PipeOpened k) (fun s e s' => FileStep s e s' ∧ KeepsEnds k s e) evs s) :
    EndsCounted s k := by
  have hinv : EndsInv k s := by
    refine Run.invariant (EndsInv k) (fun s => endsInv_opened) (fun s e s' hs hstep => ?_) h
    exact step_endsInv hs hstep.1 hstep.2
  exact hinv.counted

/-! A volume whose root directory names a FIFO "p", inode 3, and one task that opens it. -/

def fifoDisk : Mem
  | 1024 => 3
  | 1029 => 4
  | 1030 => 1
  | 1031 => 5
  | 1032 => 112
  | 5121 => 16
  | _ => 0

def fifoFs : Ext2Fs :=
  { sampleFs with dev := ⟨512, fifoDisk, fun _ count => count⟩, sector_eq := rfl }

def fifoRoot : Ext2Inode := ⟨0x4000, 1024, fun i => i + 1, 0, 0⟩

def fifoPath : CString := ⟨[47, 112], by decide⟩

def fifoEnv : OpenEnv where
  vfs := ⟨[⟨rootPath, 0⟩], some 0⟩
  filesystems := fun _ => ⟨.ext2 fifoFs fifoRoot, none⟩
  mem := fun _ => 0
  cwd := none
  fuel := 16
  block := fun _ _ => 0
  fresh := fun _ _ => Leftovers.all fun _ => 0
  pfrag := fun _ => 0
  dentries := fun _ => ⟨0, 0, [], 0⟩
  junk := ttyNode 0

/-- `pipe_open` has just made the pipe, and no descriptor is in use. -/
def fifoState : OpenState where
  devfsFiles := []
  nodes := []
  openPipes := [⟨0, 3, 0, 0⟩]
  tables := [fun _ => none]

def fifoOpened : OpenState :=
  ((taskOpen fifoEnv fifoState 0 fifoPath FD_RDONLY).map (·.2)).getD fifoState

theorem fifoState_opened : PipeOpened 0 fifoState := by
  have hnone : ∀ r, ¬ Installed fifoState r := by
    rintro r ⟨t, ht, i, -, hr⟩
    obtain rfl := List.mem_singleton.1 ht
    cases hr
  exact ⟨fun r hr => absurd hr (hnone r), fun n hn => absurd hn List.not_mem_nil, by decide,
    fun r hr => absurd hr (hnone r)⟩

theorem fifo_open_step :
    FileStep fifoState (.openFile fifoEnv 0 fifoPath FD_RDONLY) fifoOpened := by
  have hsome : (taskOpen fifoEnv fifoState 0 fifoPath FD_RDONLY).isSome = true := by
    decide +kernel
  obtain ⟨⟨v, s⟩, hopen⟩ := Option.isSome_iff_exists.1 hsome
  refine ⟨v, ?_⟩
  unfold fifoOpened
  rw [hopen]
  rfl

theorem pipe_ends_counted_open : EndsCounted fifoOpened 0 := by
  refine pipe_ends_counted ((Run.nil fifoState_opened).snoc ⟨fifo_open_step, ?_⟩)
  intro _ t ht
  cases ht
  rfl

/-- Closed again, the pipe still counts its reader. -/
theorem pipe_ends_leak : ¬ ∀ k evs s, Run (PipeOpened k) FileStep evs s → EndsCounted s k := by
  intro h
  have hrun := ((Run.nil fifoState_opened).snoc fifo_open_step).snoc
    (show FileStep fifoOpened (.close 0 0) (taskClose fifoOpened 0 0).2 from rfl)
  obtain ⟨op, hop, -, hzero⟩ := h 0 _ _ hrun
  have hcounts : ((taskClose fifoOpened 0 0).2.openPipes[0]?.map OpenPipe.nReaders) = some 1 := by
    decide +kernel
  have hreaders := (hzero (by decide +kernel)).1
  rw [hop, Option.map_some, hreaders] at hcounts
  exact absurd hcounts (by decide)

end DepthOS
