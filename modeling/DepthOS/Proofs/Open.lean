import DepthOS.Proofs.FindMount
import DepthOS.Spec.Open

/-! What `open` does to the nodes that are open already. A fresh node is no installed one,
so only a node that a file system shares can be disturbed, and `vfs_open` sets it back to
the start whoever else has it open. -/

namespace DepthOS

open Lib

/-- The fields that reading, seeking and writing depend on. -/
def FsNode.cursor (n : FsNode) : ℕ × Bool × Bool := (n.pos, n.eof, n.rdonly)

/-- Every node in some file table keeps its position, end-of-file mark and mode. -/
def Undisturbed (s s' : OpenState) : Prop :=
  ∀ r n, Installed s r → s.node r = some n → (s'.node r).map FsNode.cursor = some n.cursor

/-- The path `open` looks up. -/
def OpenEnv.resolved (env : OpenEnv) (path : CString) : AbsPath :=
  vfsResolve path (env.cwd.getD AbsPath.root)

/-- A shared node that the call comes upon is in no table, or it stands where an open puts
it. The second lookup is that of `vfs_create`, after the first one has failed. -/
structure OpensApart (env : OpenEnv) (s : OpenState) (path : CString) (flags : ℕ) : Prop where
  found : ∀ i n fsi,
    vfsLookup env s.devfsFiles (env.resolved path) 0 = some (some (.shared i n, fsi)) →
    Installed s (.devfs i) → n.cursor = (0, false, decide (flags &&& FD_RDONLY ≠ 0))
  created : ∀ i n fsi m, vfsLookup env s.devfsFiles (env.resolved path) 0 = some none →
    flags &&& O_CREAT ≠ 0 → mountOf env (env.resolved path) 1 = some (some m) →
    vfsLookup env s.devfsFiles (env.resolved path) 2 = some (some (.shared i n, fsi)) →
    Installed s (.devfs i) → n.pos = 0 ∧ n.eof = false

variable {env : OpenEnv} {s s' : OpenState} {task : ℕ} {t : NodeTable} {r : NodeRef} {n : FsNode}
  {path : AbsPath} {fsi : Filesystem} {flags : ℕ}

/-! Nodes under the updates. -/

@[simp] theorem setSlot_node (fd : ℕ) (v : Option NodeRef) :
    (s.setSlot task fd v).node r = s.node r := by
  cases r <;> rfl

theorem setNode_node_self (h : s.node r = some n) (n' : FsNode) :
    (s.setNode r n').node r = some n' := by
  cases r with
  | devfs i =>
    have hi : i < s.devfsFiles.length := (List.getElem?_eq_some_iff.1 h).1
    simp [OpenState.setNode, OpenState.node, hi]
  | heap k =>
    have hk : k < s.nodes.length := (List.getElem?_eq_some_iff.1 h).1
    simp [OpenState.setNode, OpenState.node, hk]

theorem setNode_node_of_ne {file : NodeRef} (h : r ≠ file) (n' : FsNode) :
    (s.setNode file n').node r = s.node r := by
  cases file <;> cases r <;>
    simp only [OpenState.setNode, OpenState.node, ne_eq, NodeRef.devfs.injEq,
      NodeRef.heap.injEq, reduceCtorEq, not_false_eq_true] at h ⊢
  · rw [List.getElem?_set_ne (Ne.symm h)]
  · rw [List.getElem?_set_ne (Ne.symm h)]

theorem node_append (h : s.node r = some n) (m : FsNode) :
    ({ s with nodes := s.nodes ++ [m] } : OpenState).node r = some n := by
  cases r with
  | devfs i => exact h
  | heap k =>
    have hk : k < s.nodes.length := (List.getElem?_eq_some_iff.1 h).1
    change (s.nodes ++ [m])[k]? = some n
    rw [List.getElem?_append_left hk]
    exact h

theorem node_fresh (m : FsNode) :
    ({ s with nodes := s.nodes ++ [m] } : OpenState).node (.heap s.nodes.length) = some m := by
  simp [OpenState.node]

theorem ne_fresh (h : s.node r = some n) : r ≠ .heap s.nodes.length := by
  rintro rfl
  simp [OpenState.node] at h

/-! The lookup. -/

theorem devfsOpen_some {path : CString} {files : List FsNode} {i j : ℕ}
    (h : devfsOpen path i files = some (j, n)) : i ≤ j ∧ files[j - i]? = some n := by
  induction files generalizing i with
  | nil => cases h
  | cons file files ih =>
    unfold devfsOpen at h
    split at h
    · cases h
      exact ⟨le_rfl, by simp⟩
    · obtain ⟨hle, hget⟩ := ih h
      refine ⟨by omega, ?_⟩
      rw [show j - i = j - (i + 1) + 1 by omega, List.getElem?_cons_succ]
      exact hget

theorem vfsLookup_shared {i call : ℕ}
    (h : vfsLookup env s.devfsFiles path call = some (some (.shared i n, fsi))) :
    s.node (.devfs i) = some n := by
  unfold vfsLookup at h
  obtain ⟨m, -, hm⟩ := Option.bind_eq_some_iff.1 h
  cases m with
  | none => cases hm
  | some mountpoint =>
    obtain ⟨f, hf, hpair⟩ := Option.map_eq_some_iff.1 hm
    obtain ⟨f, rfl, hfound⟩ := Option.map_eq_some_iff.1 hpair
    obtain ⟨rfl, -⟩ := Prod.mk.inj hfound
    unfold fsOpen at hf
    split at hf
    · obtain ⟨⟨j, n'⟩, hopen, hfound⟩ := Option.map_eq_some_iff.1 (Option.some.inj hf)
      cases hfound
      exact (devfsOpen_some hopen).2
    all_goals simp at hf

/-! The part of `open` after the lookup works on the node it is given. -/

theorem openPipeEnd_node : (openPipeEnd s n flags).2.node r = s.node r := by
  unfold openPipeEnd
  split <;> cases r <;> rfl

theorem openPipeEnd_cursor : (openPipeEnd s n flags).1.cursor = n.cursor := by
  unfold openPipeEnd
  split <;> rfl

theorem openNodeAt_node {file : NodeRef} :
    (openNodeAt s task t file n flags).2.node r =
      ((openPipeEnd s n flags).2.setNode file
        { (openPipeEnd s n flags).1 with rdonly := flags &&& FD_RDONLY ≠ 0 }).node r := by
  unfold openNodeAt
  dsimp only
  split
  · rfl
  · rw [setSlot_node]

theorem openNodeAt_other {file : NodeRef} (h : r ≠ file) :
    (openNodeAt s task t file n flags).2.node r = s.node r := by
  rw [openNodeAt_node, setNode_node_of_ne h, openPipeEnd_node]

theorem openNodeAt_self {file : NodeRef} {m : FsNode} (h : s.node file = some m) :
    ((openNodeAt s task t file n flags).2.node file).map FsNode.cursor =
      some (n.pos, n.eof, decide (flags &&& FD_RDONLY ≠ 0)) := by
  have hcur : (openPipeEnd s n flags).1.cursor = n.cursor := openPipeEnd_cursor
  rw [openNodeAt_node, setNode_node_self (openPipeEnd_node.trans h), Option.map_some]
  simp only [FsNode.cursor, Prod.mk.injEq] at hcur ⊢
  rw [hcur.1, hcur.2.1]

/-! What is left undisturbed. -/

theorem undisturbed_of_kept (h : ∀ r n, s.node r = some n → s'.node r = some n) :
    Undisturbed s s' := by
  intro r n _ hr
  rw [h r n hr]
  rfl

theorem Undisturbed.refl (s : OpenState) : Undisturbed s s :=
  undisturbed_of_kept fun _ _ h => h

theorem undisturbed_iff {file : NodeRef} {c : ℕ × Bool × Bool} (hn : s.node file = some n)
    (hself : (s'.node file).map FsNode.cursor = some c)
    (hother : ∀ r, r ≠ file → s'.node r = s.node r) :
    Undisturbed s s' ↔ (Installed s file → n.cursor = c) := by
  constructor
  · intro h hin
    have hkept := h file n hin hn
    rw [hself] at hkept
    exact (Option.some.inj hkept).symm
  · intro h r m hin hr
    by_cases hrf : r = file
    · subst hrf
      obtain rfl : n = m := Option.some.inj (hn.symm.trans hr)
      rw [hself, h hin]
    · rw [hother r hrf, hr]
      rfl

theorem vfsOpen_eq (call : ℕ) : vfsOpen env s path call =
    (vfsLookup env s.devfsFiles path call).map fun
      | none => (none, s)
      | some (.shared i n, fsi) =>
        (some (.devfs i, vfsNode path fsi n), s.setNode (.devfs i) (vfsNode path fsi n))
      | some (.fresh n, fsi) =>
        (some (.heap s.nodes.length, vfsNode path fsi n),
          { s with nodes := s.nodes ++ [vfsNode path fsi n] }) := rfl

/-- What `vfs_open` comes back with: nothing, a shared node or a fresh one, which it has
initialised in either case. -/
theorem vfsOpen_cases {call : ℕ} {o : Option (NodeRef × FsNode)}
    (h : vfsOpen env s path call = some (o, s')) :
    (vfsLookup env s.devfsFiles path call = some none ∧ o = none ∧ s' = s) ∨
    (∃ i n fsi, vfsLookup env s.devfsFiles path call = some (some (.shared i n, fsi)) ∧
      o = some (.devfs i, vfsNode path fsi n) ∧
      s' = s.setNode (.devfs i) (vfsNode path fsi n)) ∨
    (∃ n fsi, vfsLookup env s.devfsFiles path call = some (some (.fresh n, fsi)) ∧
      o = some (.heap s.nodes.length, vfsNode path fsi n) ∧
      s' = { s with nodes := s.nodes ++ [vfsNode path fsi n] }) := by
  rw [vfsOpen_eq] at h
  obtain ⟨found, hl, hres⟩ := Option.map_eq_some_iff.1 h
  rw [hl]
  cases found with
  | none =>
    cases hres
    exact Or.inl ⟨rfl, rfl, rfl⟩
  | some f =>
    obtain ⟨f, fsi⟩ := f
    cases f with
    | shared i n =>
      cases hres
      exact Or.inr (Or.inl ⟨i, n, fsi, rfl, rfl, rfl⟩)
    | fresh n =>
      cases hres
      exact Or.inr (Or.inr ⟨n, fsi, rfl, rfl, rfl⟩)

theorem open_fresh_undisturbed (m : FsNode) :
    Undisturbed s (openNodeAt { s with nodes := s.nodes ++ [m] } task t
      (.heap s.nodes.length) m flags).2 := by
  apply undisturbed_of_kept
  intro r n hr
  rw [openNodeAt_other (ne_fresh hr)]
  exact node_append hr m

theorem open_shared_undisturbed_iff {i : ℕ} (hn : s.node (.devfs i) = some n) :
    Undisturbed s (openNodeAt (s.setNode (.devfs i) (vfsNode path fsi n)) task t (.devfs i)
        (vfsNode path fsi n) flags).2 ↔
      (Installed s (.devfs i) → n.cursor = (0, false, decide (flags &&& FD_RDONLY ≠ 0))) := by
  apply undisturbed_iff hn
  · rw [openNodeAt_self (setNode_node_self hn _)]
    rfl
  · intro r hr
    rw [openNodeAt_other hr, setNode_node_of_ne hr]

theorem vfsOpen_shared_undisturbed_iff {i : ℕ} (hn : s.node (.devfs i) = some n) :
    Undisturbed s (s.setNode (.devfs i) (vfsNode path fsi n)) ↔
      (Installed s (.devfs i) → n.pos = 0 ∧ n.eof = false) := by
  have hself : ((s.setNode (.devfs i) (vfsNode path fsi n)).node (.devfs i)).map FsNode.cursor =
      some (0, false, n.rdonly) := by
    rw [setNode_node_self hn]
    rfl
  rw [undisturbed_iff hn hself fun r hr => setNode_node_of_ne hr _]
  simp [FsNode.cursor]

theorem vfsCreate_undisturbed_iff (h : vfsCreate env s path = some s') :
    Undisturbed s s' ↔ ∀ i n fsi m, mountOf env path 1 = some (some m) →
      vfsLookup env s.devfsFiles path 2 = some (some (.shared i n, fsi)) →
      Installed s (.devfs i) → n.pos = 0 ∧ n.eof = false := by
  unfold vfsCreate at h
  cases hm : mountOf env path 1 with
  | none => simp [hm] at h
  | some mountpoint =>
    cases mountpoint with
    | none =>
      obtain rfl : s = s' := by simpa [hm] using h
      exact iff_of_true (Undisturbed.refl s) (fun _ _ _ _ hmount => nomatch hmount)
    | some m =>
      rw [hm] at h
      obtain ⟨⟨o, s₁⟩, hopen, rfl⟩ := Option.map_eq_some_iff.1 h
      rcases vfsOpen_cases hopen with ⟨hl, -, rfl⟩ | ⟨i, n, fsi, hl, -, rfl⟩ | ⟨n, fsi, hl, -, rfl⟩
      · exact iff_of_true (Undisturbed.refl _)
          (fun _ _ _ _ _ hlook => nomatch hl.symm.trans hlook)
      · refine (vfsOpen_shared_undisturbed_iff (vfsLookup_shared hl)).trans ?_
        constructor
        · intro hkept i' n' fsi' m' _ hlook
          cases hl.symm.trans hlook
          exact hkept
        · intro hkept
          exact hkept i n fsi m rfl hl
      · refine iff_of_true ?_ (fun _ _ _ _ _ hlook => nomatch hl.symm.trans hlook)
        exact undisturbed_of_kept fun r m hr => node_append hr _

theorem taskOpen_eq {path : CString} (ht : s.tables[task]? = some t) :
    taskOpen env s task path flags =
      match vfsOpen env s (env.resolved path) 0 with
      | none => none
      | some (some (file, n), s) => some ((openNodeAt s task t file n flags).map some id)
      | some (none, s) =>
        if flags &&& O_CREAT ≠ 0 then (vfsCreate env s (env.resolved path)).map (none, ·)
        else some (some (-ENOENT), s) := by
  unfold taskOpen
  rw [ht]
  rfl

theorem taskOpen_undisturbed_iff {path : CString} {v : Option ℤ} (ht : s.tables[task]? = some t)
    (h : taskOpen env s task path flags = some (v, s')) :
    Undisturbed s s' ↔ OpensApart env s path flags := by
  rw [taskOpen_eq ht] at h
  cases hopen : vfsOpen env s (env.resolved path) 0 with
  | none => simp [hopen] at h
  | some r =>
    obtain ⟨o, s₁⟩ := r
    rw [hopen] at h
    rcases vfsOpen_cases hopen with ⟨hl, rfl, rfl⟩ | ⟨i, n, fsi, hl, rfl, rfl⟩ |
      ⟨n, fsi, hl, rfl, rfl⟩
    · dsimp only at h
      split at h
      · rename_i hcreat
        obtain ⟨s₁, hs₁, hpair⟩ := Option.map_eq_some_iff.1 h
        cases hpair
        rw [vfsCreate_undisturbed_iff hs₁]
        constructor
        · intro hkept
          exact ⟨fun i n fsi hlook => (nomatch hl.symm.trans hlook),
            fun i n fsi m _ _ => hkept i n fsi m⟩
        · intro hapart i n fsi m
          exact hapart.created i n fsi m hl hcreat
      · rename_i hcreat
        cases h
        exact iff_of_true (Undisturbed.refl _)
          ⟨fun i n fsi hlook => (nomatch hl.symm.trans hlook),
            fun _ _ _ _ _ hc => absurd hc hcreat⟩
    · cases h
      refine (open_shared_undisturbed_iff (vfsLookup_shared hl)).trans ?_
      constructor
      · intro hkept
        refine ⟨fun i' n' fsi' hlook => ?_, fun _ _ _ _ hnone => (nomatch hl.symm.trans hnone)⟩
        cases hl.symm.trans hlook
        exact hkept
      · intro hapart
        exact hapart.found i n fsi hl
    · cases h
      exact iff_of_true (open_fresh_undisturbed _)
        ⟨fun i n fsi hlook => (nomatch hl.symm.trans hlook),
          fun _ _ _ _ hnone => (nomatch hl.symm.trans hnone)⟩

/-- `open` leaves the open files alone exactly when its task has no file table, or it does
not come upon a shared node that is in use and has been used. -/
theorem open_undisturbed {path : CString} {v : Option ℤ}
    (h : taskOpen env s task path flags = some (v, s')) :
    Undisturbed s s' ↔ (task < s.tables.length → OpensApart env s path flags) := by
  by_cases htask : task < s.tables.length
  · rw [taskOpen_undisturbed_iff (List.getElem?_eq_getElem htask) h]
    exact ⟨fun hapart _ => hapart, fun hapart => hapart htask⟩
  · have hnone : s.tables[task]? = none := List.getElem?_eq_none (Nat.le_of_not_lt htask)
    unfold taskOpen at h
    rw [hnone] at h
    cases h
    exact iff_of_true (Undisturbed.refl s) fun hlt => absurd hlt htask

/-! A terminal that is open at position `pos`, and a task that opens it once more. -/

def ttyNode (pos : ℕ) : FsNode where
  name := ⟨[116, 116, 121, 48], by decide⟩
  path := ttyPath
  type := some .FS_DEV
  pos := pos
  eof := false
  dev := 0
  inodeNum := 0
  rdonly := true
  ops := .devfs
  pipe := none

def ttyState (pos : ℕ) : OpenState where
  devfsFiles := [ttyNode pos]
  nodes := []
  openPipes := []
  tables := [fun fd => if fd = 0 then some (.devfs 0) else none]

def devEnv : OpenEnv where
  vfs := devTable
  filesystems := fun _ => ⟨.devfs, none⟩
  mem := fun _ => 0
  cwd := none
  fuel := 16
  block := fun _ _ => 0
  fresh := fun _ _ => Leftovers.all fun _ => 0
  pfrag := fun _ => 0
  dentries := fun _ => ⟨0, 0, [], 0⟩
  junk := ttyNode 0

theorem ttyState_installed (pos : ℕ) : Installed (ttyState pos) (.devfs 0) :=
  ⟨_, List.mem_singleton.2 rfl, 0, by decide, rfl⟩

theorem open_undisturbed_tty : ∃ v s',
    taskOpen devEnv (ttyState 0) 0 ttyPath FD_RDONLY = some (v, s') ∧
    (Undisturbed (ttyState 0) s' ↔
      (0 < (ttyState 0).tables.length → OpensApart devEnv (ttyState 0) ttyPath FD_RDONLY)) :=
  ⟨_, _, rfl, open_undisturbed rfl⟩

theorem open_disturbs_tty : ¬ ∀ env s task path flags v s',
    taskOpen env s task path flags = some (v, s') → Undisturbed s s' := by
  intro h
  have hkept := h devEnv (ttyState 4) 0 ttyPath FD_RDONLY _ _ rfl (.devfs 0) (ttyNode 4)
    (ttyState_installed 4) rfl
  exact absurd hkept (by decide)

end DepthOS
