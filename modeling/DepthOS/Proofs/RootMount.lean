import DepthOS.Proofs.FindMount

/-! `root_mount` over the life of the mount table. `vfs_unmount` compares with `"/"` the
wrong way round, so the pointer is only kept right as long as nothing is unmounted while a
file system is mounted at the root. -/

namespace DepthOS

open Lib

/-- Something is mounted at `"/"`. -/
def HasRoot (v : Vfs) : Prop := ∃ m ∈ v.mounts, m.path = rootPath

/-- `root_mount` is set exactly when something is mounted at `"/"`, and then points there. -/
structure RootInv (v : Vfs) : Prop where
  isSome : v.rootMount.isSome ↔ HasRoot v
  points : ∀ i, v.rootMount = some i → ∃ m, v.mounts[i]? = some m ∧ m.path = rootPath

theorem RootInv.none {v : Vfs} (h : RootInv v) (hr : ¬ HasRoot v) : v.rootMount = none := by
  rw [← Option.not_isSome_iff_eq_none, h.isSome]
  exact hr

theorem rootInv_of_none {v : Vfs} (hnone : v.rootMount = none) (hr : ¬ HasRoot v) : RootInv v := by
  refine ⟨?_, fun i hi => ?_⟩
  · rw [hnone]
    exact ⟨fun h => absurd h (by decide), fun h => absurd h hr⟩
  · rw [hnone] at hi
    exact absurd hi (by simp)

theorem rootInv_mount {v : Vfs} (h : RootInv v) (path : CString) (fsi : Option ℕ) :
    RootInv (vfsMount v path fsi).2 := by
  unfold vfsMount
  cases fsi with
  | none => exact h
  | some fsi =>
    dsimp only
    by_cases hp : path = rootPath
    · rw [if_pos (sameStr_iff.2 hp)]
      refine ⟨⟨fun _ => ⟨⟨path, fsi⟩, by simp, hp⟩, fun _ => rfl⟩, fun i hi => ?_⟩
      obtain rfl : v.mounts.length = i := Option.some.inj hi
      exact ⟨⟨path, fsi⟩, by simp, hp⟩
    · rw [if_neg (fun he => hp (sameStr_iff.1 he))]
      constructor
      · rw [h.isSome]
        constructor
        · rintro ⟨m, hm, hr⟩
          exact ⟨m, List.mem_append_left _ hm, hr⟩
        · rintro ⟨m, hm, hr⟩
          rcases List.mem_append.1 hm with hm | hm
          · exact ⟨m, hm, hr⟩
          · obtain rfl := List.mem_singleton.1 hm
            exact absurd hr hp
      · intro i hi
        obtain ⟨m, hm, hr⟩ := h.points i hi
        refine ⟨m, ?_, hr⟩
        rw [List.getElem?_append_left (List.getElem?_eq_some_iff.1 hm).1]
        exact hm

/-! Unmounting. -/

/-- The entries that stay when the entry at `i` goes. -/
def compacted (mounts : List Mount) (i : ℕ) : List Mount :=
  (match mounts.getLast? with
    | none => mounts
    | some last => mounts.set i last).dropLast

theorem compacted_perm {mounts : List Mount} {i : ℕ} (hi : i < mounts.length) :
    (compacted mounts i).Perm (mounts.eraseIdx i) := by
  induction mounts using List.reverseRecOn with
  | nil => exact absurd hi (Nat.not_lt_zero i)
  | append_singleton a last _ =>
    unfold compacted
    rw [List.getLast?_append_of_ne_nil _ (by simp)]
    dsimp only [List.getLast?_singleton]
    rw [List.length_append, List.length_singleton] at hi
    rcases Nat.lt_or_ge i a.length with hlt | hge
    · rw [List.set_append_left _ _ hlt, List.dropLast_concat, List.eraseIdx_append_of_lt_length hlt]
      exact (List.set_perm_cons_eraseIdx hlt last).trans (List.perm_append_singleton last _).symm
    · obtain rfl : i = a.length := by omega
      rw [List.set_append_right _ _ le_rfl, Nat.sub_self, List.set_cons_zero, List.dropLast_concat,
        List.eraseIdx_append_of_length_le le_rfl]
      simp

theorem vfsUnmount_cases (v : Vfs) (path : CString) :
    (∃ i, FirstAt v i path ∧ vfsUnmount v path =
      (true, ⟨compacted v.mounts i, if path = rootPath then v.rootMount else none⟩)) ∨
    ((∀ m ∈ v.mounts, m.path ≠ path) ∧ vfsUnmount v path =
      (false, ⟨v.mounts, if path = rootPath then v.rootMount else none⟩)) := by
  have hP : ∀ m ∈ v.mounts, sameStr path m.path = true ↔ m.path = path :=
    fun m _ => sameStr_iff.trans eq_comm
  have hv : (if !sameStr path rootPath then { v with rootMount := none } else v) =
      ⟨v.mounts, if path = rootPath then v.rootMount else none⟩ := by
    by_cases hp : path = rootPath
    · rw [sameStr_iff.2 hp, if_pos hp]
      rfl
    · have hf : sameStr path rootPath = false := by
        rw [← Bool.not_eq_true, sameStr_iff]
        exact hp
      rw [hf, if_neg hp]
      rfl
  unfold vfsUnmount
  rw [hv]
  dsimp only
  rcases findIdx?_path hP with ⟨i, hi, hfirst⟩ | ⟨hnone, hno⟩
  · rw [hi]
    exact Or.inl ⟨i, hfirst, rfl⟩
  · rw [hnone]
    exact Or.inr ⟨hno, rfl⟩

theorem FirstAt.lt {v : Vfs} {i : ℕ} {s : CString} (h : FirstAt v i s) : i < v.mounts.length := by
  obtain ⟨m, hm, -⟩ := h.entry
  exact (List.getElem?_eq_some_iff.1 hm).1

theorem unmount_subset {v : Vfs} {path : CString} {m : Mount}
    (hm : m ∈ (vfsUnmount v path).2.mounts) : m ∈ v.mounts := by
  rcases vfsUnmount_cases v path with ⟨i, hfirst, hr⟩ | ⟨-, hr⟩
  · rw [hr] at hm
    exact List.mem_of_mem_eraseIdx ((compacted_perm hfirst.lt).subset hm)
  · rw [hr] at hm
    exact hm

theorem unmount_others {v : Vfs} (hnd : (v.mounts.map Mount.path).Nodup) {path : CString}
    (h : (vfsUnmount v path).1 = true) :
    (vfsUnmount v path).2.mounts.Perm (v.mounts.filter fun m => m.path ≠ path) := by
  rcases vfsUnmount_cases v path with ⟨i, hfirst, hr⟩ | ⟨-, hr⟩
  · rw [hr]
    refine (compacted_perm hfirst.lt).trans (List.Perm.of_eq ?_)
    obtain ⟨m, hm, rfl⟩ := hfirst.entry
    obtain ⟨hlt, hget⟩ := List.getElem?_eq_some_iff.1 hm
    have hsplit : v.mounts = v.mounts.take i ++ m :: v.mounts.drop (i + 1) := by
      rw [← hget, ← List.drop_eq_getElem_cons hlt, List.take_append_drop]
    rw [hsplit, List.map_append, List.map_cons, List.nodup_middle, List.nodup_cons,
      ← List.map_append] at hnd
    have hother : ∀ x ∈ v.mounts.take i ++ v.mounts.drop (i + 1), x.path ≠ m.path :=
      fun x hx he => hnd.1 (he ▸ List.mem_map_of_mem hx)
    rw [List.eraseIdx_eq_take_drop_succ]
    conv_rhs => rw [hsplit]
    rw [List.filter_append, List.filter_cons_of_neg (by simp), ← List.filter_append]
    exact (List.filter_eq_self.2 fun x hx => decide_eq_true (hother x hx)).symm
  · rw [hr] at h
    exact absurd h Bool.false_ne_true

theorem nodup_step (v : Vfs) (e : VfsEvent) (v' : Vfs) (h : (v.mounts.map Mount.path).Nodup)
    (hstep : VfsStep v e v') : (v'.mounts.map Mount.path).Nodup := by
  cases e with
  | mount path fsi =>
    obtain ⟨-, hnew, rfl⟩ := hstep
    cases fsi with
    | none => exact h
    | some fsi =>
      change ((v.mounts ++ [Mount.mk path fsi]).map Mount.path).Nodup
      rw [List.map_append, List.map_singleton, ← List.concat_eq_append, List.nodup_concat]
      refine ⟨fun hmem => ?_, h⟩
      obtain ⟨m, hm, he⟩ := List.mem_map.1 hmem
      exact hnew m hm he
  | unmount path =>
    subst hstep
    rcases vfsUnmount_cases v path with ⟨i, hfirst, hr⟩ | ⟨-, hr⟩
    · rw [hr]
      refine (((compacted_perm hfirst.lt).map Mount.path).nodup_iff).2 ?_
      exact h.sublist ((List.eraseIdx_sublist v.mounts i).map _)
    · rw [hr]
      exact h

theorem nodup_run {evs : List VfsEvent} {v : Vfs} (hrun : Run VfsBoot VfsStep evs v) :
    (v.mounts.map Mount.path).Nodup := by
  refine Run.invariant (fun v => (v.mounts.map Mount.path).Nodup) ?_ nodup_step hrun
  rintro v rfl
  exact List.nodup_nil

/-- From a right `root_mount`, an unmount keeps it right exactly when nothing is mounted at
the root. -/
theorem rootInv_unmount_iff {v : Vfs} (hnd : (v.mounts.map Mount.path).Nodup) (h : RootInv v)
    (path : CString) : RootInv (vfsUnmount v path).2 ↔ ¬ HasRoot v := by
  constructor
  · rintro h' ⟨m, hm, hr⟩
    by_cases hp : path = rootPath
    · -- the root is unmounted and `root_mount` still set
      have hsome : v.rootMount.isSome := h.isSome.2 ⟨m, hm, hr⟩
      rcases vfsUnmount_cases v path with ⟨i, -, heq⟩ | ⟨hno, -⟩
      · have hperm := unmount_others hnd (show (vfsUnmount v path).1 = true by rw [heq])
        obtain ⟨n, hn, hnr⟩ := h'.isSome.1 (by rw [heq, if_pos hp]; exact hsome)
        have := (List.mem_filter.1 (hperm.subset hn)).2
        exact absurd (hnr.trans hp.symm) (by simpa using this)
      · exact hno m hm (hr.trans hp.symm)
    · -- another path is unmounted and `root_mount` reset
      have hroot : (vfsUnmount v path).2.rootMount = none := by
        rcases vfsUnmount_cases v path with ⟨i, -, heq⟩ | ⟨-, heq⟩ <;> rw [heq, if_neg hp]
      have hin : m ∈ (vfsUnmount v path).2.mounts := by
        rcases vfsUnmount_cases v path with ⟨i, -, heq⟩ | ⟨-, heq⟩
        · have hperm := unmount_others hnd (show (vfsUnmount v path).1 = true by rw [heq])
          refine hperm.symm.subset (List.mem_filter.2 ⟨hm, ?_⟩)
          rw [hr]
          exact decide_eq_true (Ne.symm hp)
        · rw [heq]
          exact hm
      have := h'.isSome.2 ⟨m, hin, hr⟩
      rw [hroot] at this
      exact absurd this (by decide)
  · intro hno
    refine rootInv_of_none ?_ fun ⟨m, hm, hr⟩ => hno ⟨m, unmount_subset hm, hr⟩
    rcases vfsUnmount_cases v path with ⟨i, -, heq⟩ | ⟨-, heq⟩ <;>
    · rw [heq, h.none hno]
      exact ite_self none

/-- A step that unmounts nothing while a file system is mounted at the root. -/
def QuietStep (v : Vfs) (e : VfsEvent) (v' : Vfs) : Prop :=
  VfsStep v e v' ∧ ∀ path, e = .unmount path → ¬ HasRoot v

theorem rootInv_run {evs : List VfsEvent} {v : Vfs} (hrun : Run VfsBoot QuietStep evs v) :
    RootInv v := by
  have hboth : RootInv v ∧ (v.mounts.map Mount.path).Nodup := by
    refine Run.invariant (fun v => RootInv v ∧ (v.mounts.map Mount.path).Nodup) ?_ ?_ hrun
    · rintro v rfl
      exact ⟨rootInv_of_none rfl fun ⟨m, hm, _⟩ => absurd hm List.not_mem_nil, List.nodup_nil⟩
    · rintro v e v' ⟨h, hnd⟩ ⟨hstep, hquiet⟩
      refine ⟨?_, nodup_step v e v' hnd hstep⟩
      cases e with
      | mount path fsi =>
        obtain ⟨-, -, rfl⟩ := hstep
        exact rootInv_mount h path fsi
      | unmount path =>
        subst hstep
        exact (rootInv_unmount_iff hnd h path).2 (hquiet path rfl)
  exact hboth.1

/-- In every run in which nothing is unmounted while a file system is mounted at the root,
`root_mount` is right in every state, and where it is right any other unmount leaves it
wrong; in every run at all, a successful unmount leaves exactly the other mounts. -/
theorem root_mount_runs (evs : List VfsEvent) (v : Vfs) :
    (Run VfsBoot QuietStep evs v → RootInv v) ∧
    (Run VfsBoot VfsStep evs v → ∀ path, (vfsUnmount v path).1 = true →
      (vfsUnmount v path).2.mounts.Perm (v.mounts.filter fun m => m.path ≠ path)) ∧
    (Run VfsBoot VfsStep evs v → RootInv v → ∀ path,
      (RootInv (vfsUnmount v path).2 ↔ ¬ HasRoot v)) :=
  ⟨fun hrun => rootInv_run hrun, fun hrun _ h => unmount_others (nodup_run hrun) h,
    fun hrun h path => rootInv_unmount_iff (nodup_run hrun) h path⟩

theorem quietRun_mount {evs : List VfsEvent} {v : Vfs} (h : Run VfsBoot QuietStep evs v)
    (path : CString) (fsi : Option ℕ) (hroom : v.mounts.length < MAX_VFS_MOUNTS)
    (hnew : ∀ m ∈ v.mounts, m.path ≠ path) :
    Run VfsBoot QuietStep (evs ++ [.mount path fsi]) (vfsMount v path fsi).2 :=
  h.snoc ⟨⟨hroom, hnew, rfl⟩, fun _ he => absurd he (by simp)⟩

theorem quietRun_unmount {evs : List VfsEvent} {v : Vfs} (h : Run VfsBoot QuietStep evs v)
    (path : CString) (hr : ¬ HasRoot v) :
    Run VfsBoot QuietStep (evs ++ [.unmount path]) (vfsUnmount v path).2 :=
  h.snoc ⟨rfl, fun _ _ => hr⟩

/-- `/dev` mounted and unmounted before `/` is there, and mounted again behind it; unmounting
it once more leaves `/`. -/
theorem root_mount_runs_dev : ∃ v, Run VfsBoot QuietStep [.mount devPath (some 2),
      .unmount devPath, .mount rootPath (some 1), .mount devPath (some 2)] v ∧
    v.mounts = [⟨rootPath, 1⟩, ⟨devPath, 2⟩] ∧ RootInv v ∧
    (vfsUnmount v devPath).2.mounts.Perm [⟨rootPath, 1⟩] := by
  have hnil : Run VfsBoot QuietStep [] ⟨[], none⟩ := Run.nil rfl
  have hdev := quietRun_mount hnil devPath (some 2) (by decide) (by decide)
  have hgone := quietRun_unmount hdev devPath (by unfold HasRoot; decide)
  have hroot := quietRun_mount hgone rootPath (some 1) (by decide) (by decide)
  have hrun := quietRun_mount hroot devPath (some 2) (by decide) (by decide)
  obtain ⟨hinv, hothers, -⟩ := root_mount_runs _ _
  exact ⟨_, hrun, rfl, hinv hrun, hothers (hrun.mono fun _ _ _ h => h.1) devPath (by decide)⟩

/-- `/` and `/dev` mounted, `/dev` unmounted: the root is still there, `root_mount` is NULL. -/
theorem unmount_dev_resets_root : ¬ ∀ evs v, Run VfsBoot VfsStep evs v → RootInv v := by
  intro h
  set v1 := (vfsMount ⟨[], none⟩ rootPath (some 1)).2
  set v2 := (vfsMount v1 devPath (some 2)).2
  have h0 : Run VfsBoot VfsStep [] ⟨[], none⟩ := Run.nil rfl
  have h1 : VfsStep ⟨[], none⟩ (.mount rootPath (some 1)) v1 := ⟨by decide, by simp, rfl⟩
  have h2 : VfsStep v1 (.mount devPath (some 2)) v2 := ⟨by decide, by decide, rfl⟩
  have h3 : VfsStep v2 (.unmount devPath) (vfsUnmount v2 devPath).2 := rfl
  have hinv := (h _ _ (((h0.snoc h1).snoc h2).snoc h3)).isSome.2 ⟨⟨rootPath, 1⟩, by decide, rfl⟩
  exact absurd hinv (by decide)

end DepthOS
