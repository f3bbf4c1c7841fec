import DepthOS.Proofs.UserPages

/-! The kernel keeps the memories of the processes apart: whatever new address spaces, forks,
mappings, faults, switches, stores and loads happen, what the programs see is what they would
see with a memory of their own. -/

namespace DepthOS

open Lib

/-- The tasks with their areas, the machine, and the directories in use. -/
structure ProcState where
  maps : MapSystem
  machine : Machine
  pgds : List ℕ

/-- The tasks of a state, with one more. -/
def MapSystem.spawn (s : MapSystem) (self pgd : ℕ) : MapSystem :=
  { s with tasks := s.tasks ++ [⟨self, pgd, some listInit⟩]
           bump := Function.update s.bump s.tasks.length 0 }

/-- A fork, a `map_addr` and a fault are ones that find the memory they need. `map_addr` works
below the kernel, and a fault is one in an anonymous mapping of a task, in its own directory. -/
def ProcStep (s : ProcState) (e : ProcEvent) (s' : ProcState) : Prop :=
  match e with
  | .spawn self pgd => ∃ m, createPgd s.machine = some (pgd, m) ∧
      s' = ⟨s.maps.spawn self pgd, m, pgd :: s.pgds⟩
  | .stack i vma entry => MapStep s.maps (.stack i vma entry) s'.maps ∧
      s'.machine = s.machine ∧ s'.pgds = s.pgds
  | .mmap i p env => MapStep s.maps (.mmap i p env) s'.maps ∧
      s'.machine = s.machine ∧ s'.pgds = s.pgds
  | .fork i original self pgd blks => (∃ t, s.maps.tasks[i]? = some t ∧ t.pgd = original) ∧
      ForkFits s.machine original ∧ clonePgd s.machine original = some (pgd, s'.machine) ∧
      MapStep s.maps (.fork i self pgd blks) s'.maps ∧ s'.pgds = pgd :: s.pgds
  | .alloc pgd vaddr npages user overwrite => pgd ∈ s.pgds ∧ 1 ≤ npages ∧
      vaddr / 4096 + npages ≤ USER_END ∧ HasRun s.machine.pmmBitmap npages false ∧
      ∃ ret m, mapAddr s.machine pgd vaddr npages user overwrite = some (ret, m) ∧
        s' = { s with machine := m }
  | .fault i pgd cr2 area => s.machine.cr3 = addrToPhys pgd ∧ area.flags &&& MAP_ANON ≠ 0 ∧
      HasRun s.machine.pmmBitmap area.nPages false ∧ ∃ t files stack fuel write st,
        s.maps.tasks[i]? = some t ∧ t.pgd = pgd ∧ FirstArea s.maps.mem t cr2 area ∧
        vmaPagefaultHandler (s.maps.faultEnv t files stack) fuel false write ⟨s.machine, []⟩ cr2 =
          ⟨st, some .ignore⟩ ∧ s' = { s with machine := st.machine }
  | .switch pgd => pgd ∈ s.pgds ∧ s' = { s with machine := activatePgd s.machine pgd }
  | .store pgd va b => pgd ∈ s.pgds ∧ s.machine.cr3 = addrToPhys pgd ∧ va < VIRT_BASE ∧
      ∃ x, translate s.machine.mem s.machine.cr3 va = some x ∧
        s' = { s with machine := { s.machine with mem := Function.update s.machine.mem x b } }
  | .load pgd va b => pgd ∈ s.pgds ∧ s.machine.cr3 = addrToPhys pgd ∧ va < VIRT_BASE ∧
      ∃ x, translate s.machine.mem s.machine.cr3 va = some x ∧ s.machine.mem x = b ∧ s' = s

/-- The kernel's directory alone, empty below the kernel and active, and no task yet. -/
def ProcBoot (s : ProcState) : Prop :=
  s.maps.tasks = [] ∧ s.pgds = [s.machine.kernelPgd] ∧ PgdInv s.machine s.machine.kernelPgd ∧
  (∀ i < 768, pdeAt s.machine.mem (addrToPhys s.machine.kernelPgd) i = 0) ∧
  FramesClear s.machine s.pgds ∧ s.machine.cr3 = addrToPhys s.machine.kernelPgd

def ProcRun : List ProcEvent → ProcState → Prop := Run ProcBoot ProcStep

/-- What holds of every state of a run. -/
structure ProcOk (s : ProcState) : Prop where
  own : OwnFrames s.machine s.pgds
  frames : FramesClear s.machine s.pgds
  kernel : s.machine.kernelPgd ∈ s.pgds
  tasks : ∀ t ∈ s.maps.tasks, t.pgd ∈ s.pgds
  areas : ∃ es, AreasInv s.maps.mem s.maps.tasks es

/-- The memories are the bytes behind the tables. -/
structure SameBytes (s : ProcState) (t : UserSpaces) : Prop where
  ok : ProcOk s
  dirs : t.dirs = s.pgds
  current : t.current ∈ s.pgds
  cr3 : s.machine.cr3 = addrToPhys t.current
  bytes : ∀ d ∈ s.pgds, ∀ va < VIRT_BASE, t.mem d va = userByte s.machine.mem d va

section Areas

variable {s s' : ProcState} {es : ℕ → List ℕ}

theorem AreasInv.spawn {m : MapSystem} (h : AreasInv m.mem m.tasks es) (self pgd : ℕ) :
    AreasInv (m.spawn self pgd).mem (m.spawn self pgd).tasks es := by
  have hlen : m.tasks[m.tasks.length]? = none := List.getElem?_eq_none (Nat.le_refl _)
  refine ⟨⟨fun i t ht => ?_, fun i hi => ?_, h.lists.disjoint, h.lists.apart, h.lists.owned⟩, h.ok,
    fun i x hx => ?_⟩
  · change (m.tasks ++ [_])[i]? = some t at ht
    rcases Nat.lt_trichotomy i m.tasks.length with hi | rfl | hi
    · rw [List.getElem?_append_left hi] at ht
      exact h.lists.rep i t ht
    · rw [List.getElem?_append_right (Nat.le_refl _), Nat.sub_self] at ht
      obtain rfl := Option.some.inj ht
      rw [h.lists.absent _ hlen]
      exact listRep_init _
    · rw [List.getElem?_eq_none (by rw [List.length_append, List.length_singleton]; omega)] at ht
      simp at ht
  · change (m.tasks ++ [_])[i]? = none at hi
    rw [List.getElem?_eq_none_iff, List.length_append] at hi
    exact h.lists.absent i (List.getElem?_eq_none (by omega))
  · change _ ∈ (m.tasks ++ [_]).map VmTask.pgd
    rw [List.map_append]
    exact List.mem_append_left _ (h.pgd i x hx)

theorem AreasInv.first_ok {m : VmMem} {tasks : List VmTask} {i cr2 : ℕ} {task : VmTask}
    {a : VmArea} (h : AreasInv m tasks es) (ht : tasks[i]? = some task)
    (hfirst : FirstArea m task cr2 a) : AreaOk a := by
  obtain ⟨l, x, r, hc, rfl, -, -⟩ := hfirst
  have hmem : x ∈ es i := by
    rw [← hc.unique (h.lists.chain ht)]
    simp
  exact h.ok i x hmem

end Areas

section Tasks

variable {m m' : VmMem} {t t' : VmTask} {fuel addr size flags vma entry : ℕ}

theorem vmaCreate_pgd {ret : Except Errno ℕ}
    (hc : vmaCreate fuel m t addr size flags vma entry = some (ret, m', t')) : t'.pgd = t.pgd := by
  unfold vmaCreate at hc
  split_ifs at hc with hal
  · rw [(Prod.mk.inj (Prod.mk.inj (Option.some.inj hc)).2).2]
  · cases hL : t.vmAreas with
    | none =>
      simp only [hL, Option.some.injEq, Prod.mk.injEq] at hc
      rw [← (Prod.mk.inj hc.2).2]
    | some L =>
      simp only [hL] at hc
      split at hc
      · cases hc
      · rw [← (Prod.mk.inj (Prod.mk.inj (Option.some.inj hc)).2).2]
      · rw [← (Prod.mk.inj (Prod.mk.inj (Option.some.inj hc)).2).2]
      · rw [← (Prod.mk.inj (Prod.mk.inj (Option.some.inj hc)).2).2]

theorem mmapFile_pgd {ret : Except ℤ Unit} {fd offset : ℤ} {env : MmapEnv}
    (hc : mmapFile fuel m t vma flags fd offset env = some (ret, m', t')) : t'.pgd = t.pgd := by
  unfold mmapFile at hc
  split_ifs at hc with hfile
  · dsimp only at hc
    split at hc
    · rw [(Prod.mk.inj (Prod.mk.inj (Option.some.inj hc)).2).2]
    · split at hc
      · cases hc
      · rename_i hd
        rw [← (Prod.mk.inj (Prod.mk.inj (Option.some.inj hc)).2).2]
        exact dispose_pgd hd
  · rw [(Prod.mk.inj (Prod.mk.inj (Option.some.inj hc)).2).2]

theorem doMmap_pgd {ret : Except ℤ Unit} {length : ℕ} {fd offset : ℤ} {env : MmapEnv}
    (hc : doMmap fuel m t addr length flags fd offset env = some (ret, m', t')) :
    t'.pgd = t.pgd := by
  unfold doMmap at hc
  split_ifs at hc
  · rw [(Prod.mk.inj (Prod.mk.inj (Option.some.inj hc)).2).2]
  · rw [(Prod.mk.inj (Prod.mk.inj (Option.some.inj hc)).2).2]
  · rw [(Prod.mk.inj (Prod.mk.inj (Option.some.inj hc)).2).2]
  · split at hc
    · cases hc
    · rename_i hv
      rw [← (Prod.mk.inj (Prod.mk.inj (Option.some.inj hc)).2).2]
      exact vmaCreate_pgd hv
    · rename_i hv
      exact (mmapFile_pgd hc).trans (vmaCreate_pgd hv)

theorem mmapCall_pgd {s : MmapState} {p : MmapParams} {env : MmapEnv} {r : Except ℤ ℕ × MmapState}
    (hc : mmapCall fuel s p env = some r) : r.2.task.pgd = s.task.pgd := by
  unfold mmapCall at hc
  split_ifs at hc
  · rw [← Option.some.inj hc]
  · split at hc
    · cases hc
    · rename_i hd
      rw [← Option.some.inj hc]
      exact doMmap_pgd hd
    · rename_i hd
      rw [← Option.some.inj hc]
      exact doMmap_pgd hd

/-- `alloc_stack` and `mmap` change no directory of a task. -/
theorem stack_pgds {s s' : MapSystem} {i : ℕ} (hs : MapStep s (.stack i vma entry) s') :
    s'.tasks.map VmTask.pgd = s.tasks.map VmTask.pgd := by
  obtain ⟨-, t, fuel, r, ht, hc, rfl⟩ := hs
  unfold allocStack at hc
  split at hc
  · cases hc
  · rename_i hv
    obtain rfl := Option.some.inj hc
    exact map_pgd_set ht (vmaCreate_pgd hv)

theorem mmap_pgds {s s' : MapSystem} {i : ℕ} {p : MmapParams} {env : MmapEnv}
    (hs : MapStep s (.mmap i p env) s') : s'.tasks.map VmTask.pgd = s.tasks.map VmTask.pgd := by
  obtain ⟨-, t, fuel, r, ht, hc, rfl⟩ := hs
  exact map_pgd_set ht (mmapCall_pgd hc)

theorem fork_pgds {s s' : MapSystem} {i self pgd : ℕ} {blks : List ℕ}
    (hs : MapStep s (.fork i self pgd blks) s') :
    s'.tasks.map VmTask.pgd = s.tasks.map VmTask.pgd ++ [pgd] := by
  obtain ⟨-, -, -, t, r, ht, hc, rfl⟩ := hs
  unfold forkVmAreas at hc
  split at hc
  · cases hc
  · split at hc
    · cases hc
    · rw [← Option.some.inj hc, List.map_append]
      rfl

end Tasks

section Step

variable {s s' : ProcState} {t : UserSpaces}

theorem SameBytes.byte (h : SameBytes s t) {d va : ℕ} (hd : d ∈ s.pgds) (hva : va < VIRT_BASE) :
    t.mem d va = byteAt s.machine.mem (addrToPhys d) va := by
  rw [h.bytes d hd va hva, h.ok.own.userByte hd hva]

theorem SameBytes.of (hok : ProcOk s) (hdirs : t.dirs = s.pgds) (hcur : t.current ∈ s.pgds)
    (hcr3 : s.machine.cr3 = addrToPhys t.current)
    (hb : ∀ d ∈ s.pgds, ∀ va < VIRT_BASE,
      t.mem d va = byteAt s.machine.mem (addrToPhys d) va) : SameBytes s t :=
  ⟨hok, hdirs, hcur, hcr3, fun d hd va hva => by rw [hb d hd va hva, hok.own.userByte hd hva]⟩

/-- The active directory is the one whose address `cr3` has. -/
theorem SameBytes.active (h : SameBytes s t) {d : ℕ} (hd : d ∈ s.pgds)
    (hcr3 : s.machine.cr3 = addrToPhys d) : d = t.current :=
  (h.ok.own.spaces.dir d hd).block.phys_inj (h.ok.own.spaces.dir _ h.current).block
    (hcr3.symm.trans h.cr3)

theorem createPgd_cr3 {m m' : Machine} {pgd : ℕ} (hc : createPgd m = some (pgd, m')) :
    m'.cr3 = m.cr3 := by
  have hk : (kmallocPage m).2.cr3 = m.cr3 := by
    unfold kmallocPage
    split <;> rfl
  unfold createPgd at hc
  dsimp only at hc
  split_ifs at hc
  rw [← (Prod.mk.inj (Option.some.inj hc)).2, kmemcpy, kmemset0]
  exact hk

theorem SameBytes.add (h : SameBytes s t) {pgd : ℕ} {f : ℕ → Option Byte} (hok : ProcOk s')
    (hpgds : s'.pgds = pgd :: s.pgds) (hnew : pgd ∉ s.pgds)
    (hcr3 : s'.machine.cr3 = s.machine.cr3)
    (hf : ∀ va < VIRT_BASE, f va = byteAt s'.machine.mem (addrToPhys pgd) va)
    (hold : ∀ d ∈ s.pgds, ∀ va < VIRT_BASE, byteAt s'.machine.mem (addrToPhys d) va =
      byteAt s.machine.mem (addrToPhys d) va) : SameBytes s' (t.add pgd f) := by
  refine SameBytes.of hok ?_ ?_ (hcr3.trans h.cr3) fun d hd va hva => ?_
  · rw [hpgds, ← h.dirs]
    rfl
  · rw [hpgds]
    exact List.mem_cons_of_mem _ h.current
  · change Function.update t.mem pgd f d va = _
    rw [hpgds] at hd
    rcases List.mem_cons.1 hd with rfl | hd
    · rw [Function.update_self]
      exact hf va hva
    · rw [Function.update_of_ne fun hc => hnew (by rw [← hc]; exact hd), hold d hd va hva]
      exact h.byte hd hva

theorem SameBytes.set (h : SameBytes s t) {pgd : ℕ} {f : ℕ → Option Byte} (hok : ProcOk s')
    (hpgds : s'.pgds = s.pgds) (hcr3 : s'.machine.cr3 = s.machine.cr3)
    (hb : ∀ d ∈ s.pgds, ∀ va < VIRT_BASE, byteAt s'.machine.mem (addrToPhys d) va =
      if d = pgd then f va else byteAt s.machine.mem (addrToPhys d) va) :
    SameBytes s' (t.set pgd f) := by
  refine SameBytes.of hok (h.dirs.trans hpgds.symm) (by rw [hpgds]; exact h.current)
    (hcr3.trans h.cr3) fun d hd va hva => ?_
  rw [hpgds] at hd
  change Function.update t.mem pgd f d va = _
  rw [hb d hd va hva]
  by_cases hdp : d = pgd
  · rw [if_pos hdp, hdp, Function.update_self]
  · rw [if_neg hdp, Function.update_of_ne hdp]
    exact h.byte hd hva

theorem ProcOk.mem_pgds (h : ProcOk s) {i : ℕ} {task : VmTask} (ht : s.maps.tasks[i]? = some task) :
    task.pgd ∈ s.pgds :=
  h.tasks task (List.mem_of_getElem? ht)

theorem tasks_of_pgds {ts : List VmTask} {l pgds : List ℕ} (hl : ts.map VmTask.pgd = l)
    (h : ∀ d ∈ l, d ∈ pgds) : ∀ t ∈ ts, t.pgd ∈ pgds :=
  fun _ ht => h _ (hl ▸ List.mem_map_of_mem ht)

theorem ProcOk.pgds (h : ProcOk s) : ∀ d ∈ s.maps.tasks.map VmTask.pgd, d ∈ s.pgds := by
  intro d hd
  obtain ⟨task, ht, rfl⟩ := List.mem_map.1 hd
  exact h.tasks task ht

theorem same_spawn {self pgd : ℕ} (h : SameBytes s t) (hs : ProcStep s (.spawn self pgd) s') :
    ∃ t', UserStep t (.spawn self pgd) t' ∧ SameBytes s' t' := by
  obtain ⟨m, hc, rfl⟩ := hs
  have hcreated := createPgd_created (h.ok.own.spaces.freshHeap h.ok.kernel) hc
  obtain ⟨hown, hclear, hnew, hempty, hold⟩ := hcreated.own h.ok.own h.ok.frames h.ok.kernel
  obtain ⟨es, hareas⟩ := h.ok.areas
  have hok : ProcOk ⟨s.maps.spawn self pgd, m, pgd :: s.pgds⟩ := by
    refine ⟨hown, hclear, ?_, ?_, es, hareas.spawn self pgd⟩
    · change m.kernelPgd ∈ _
      rw [hcreated.kernelPgd]
      exact List.mem_cons_of_mem _ h.ok.kernel
    · intro u hu
      rcases List.mem_append.1 hu with hu | hu
      · exact List.mem_cons_of_mem _ (h.ok.tasks u hu)
      · rw [List.mem_singleton.1 hu]
        exact List.mem_cons_self
  refine ⟨_, ⟨by rw [h.dirs]; exact hnew, rfl⟩, h.add hok rfl hnew (createPgd_cr3 hc) ?_ hold⟩
  exact fun va hva => (hempty va hva).symm

theorem same_maps (h : SameBytes s t) (hm : s'.machine = s.machine) (hp : s'.pgds = s.pgds)
    (hareas : ∃ es, AreasInv s'.maps.mem s'.maps.tasks es)
    (htasks : s'.maps.tasks.map VmTask.pgd = s.maps.tasks.map VmTask.pgd) : SameBytes s' t := by
  obtain ⟨maps, machine, pgds⟩ := s'
  obtain rfl := hm
  obtain rfl := hp
  exact ⟨⟨h.ok.own, h.ok.frames, h.ok.kernel, tasks_of_pgds htasks h.ok.pgds, hareas⟩, h.dirs,
    h.current, h.cr3, h.bytes⟩

theorem same_fork {i original self pgd : ℕ} {blks : List ℕ} (h : SameBytes s t)
    (hs : ProcStep s (.fork i original self pgd blks) s') :
    ∃ t', UserStep t (.fork i original self pgd blks) t' ∧ SameBytes s' t' := by
  obtain ⟨⟨task, ht, rfl⟩, hfit, hc, hmaps, hp⟩ := hs
  have ho := h.ok.mem_pgds ht
  have hcr3 : s.machine.cr3 < 4294967296 := by
    have := (h.ok.own.spaces.dir _ h.current).block.phys.2.2.2
    rw [h.cr3]
    omega
  have hcok := h.ok.own.cloneOk h.ok.frames ho hcr3 hfit
  obtain ⟨pgd', buffer, T, F, s1, hinv, hc'⟩ := clonePgd_spec hcok
  obtain ⟨rfl, hm⟩ := Prod.mk.inj (Option.some.inj (hc.symm.trans hc'))
  obtain ⟨hown, hclear, hnew, hsame, hold⟩ := hinv.own h.ok.own h.ok.frames ho hcok hm
  obtain ⟨es, hareas⟩ := h.ok.areas
  obtain ⟨es', hareas', -⟩ := fork_areas hareas hmaps
  have hok : ProcOk s' := by
    refine ⟨by rw [hp]; exact hown, by rw [hp]; exact hclear, ?_,
      tasks_of_pgds (fork_pgds hmaps) fun d hd => ?_, es', hareas'⟩
    · rw [hp, clonePgd_kernelPgd hc]
      exact List.mem_cons_of_mem _ h.ok.kernel
    · rw [hp]
      rcases List.mem_append.1 hd with hd | hd
      · exact List.mem_cons_of_mem _ (h.ok.pgds d hd)
      · rw [List.mem_singleton.1 hd]
        exact List.mem_cons_self
  have hcr3' : s'.machine.cr3 = s.machine.cr3 := by
    rw [hm]
    exact hinv.cr3
  refine ⟨_, ⟨by rw [h.dirs]; exact ho, by rw [h.dirs]; exact hnew, rfl⟩,
    h.add hok hp hnew hcr3' (fun va hva => ?_) hold⟩
  rw [hsame va hva]
  exact h.byte ho hva

theorem same_alloc {pgd vaddr npages : ℕ} {user overwrite : Bool} (h : SameBytes s t)
    (hs : ProcStep s (.alloc pgd vaddr npages user overwrite) s') :
    ∃ t', UserStep t (.alloc pgd vaddr npages user overwrite) t' ∧ SameBytes s' t' := by
  obtain ⟨hd, hn, hp, hrun, ret, m, hm, rfl⟩ := hs
  obtain ⟨a, hclear, hmap⟩ := mapAddr_pages h.ok.own h.ok.frames hd hn hp hrun hm
  have hok : ProcOk { s with machine := m } := by
    refine ⟨hmap.own, hclear, ?_, h.ok.tasks, h.ok.areas⟩
    change m.kernelPgd ∈ _
    rw [hmap.kernelPgd]
    exact h.ok.kernel
  refine ⟨_, ⟨by rw [h.dirs]; exact hd, fun va =>
    s.machine.mem ((a + (va / 4096 - vaddr / 4096)) * 4096 + va % 4096), rfl⟩,
    h.set hok rfl hmap.cr3 fun d hd' va hva => ?_⟩
  refine (hmap.bytes d hd' va hva).trans ?_
  by_cases hdp : d = pgd
  · subst hdp
    rw [if_pos rfl, h.byte hd' hva]
    exact if_congr (and_iff_right rfl) rfl rfl
  · rw [if_neg hdp, if_neg fun hc => hdp hc.1]

theorem same_fault {i pgd cr2 : ℕ} {area : VmArea} (h : SameBytes s t)
    (hs : ProcStep s (.fault i pgd cr2 area) s') :
    ∃ t', UserStep t (.fault i pgd cr2 area) t' ∧ SameBytes s' t' := by
  obtain ⟨hcr3, hanon, hrun, task, files, stack, fuel, write, st, ht, rfl, hfirst, hr, rfl⟩ := hs
  have hd := h.ok.mem_pgds ht
  obtain ⟨es, hareas⟩ := h.ok.areas
  have ha := hareas.first_ok ht hfirst
  have hdone := anonFault_pages (s.maps.faultEnv task files stack) h.ok.own h.ok.frames hd hcr3
    hfirst ha hanon hrun hr
  have hok : ProcOk { s with machine := st.machine } := by
    refine ⟨hdone.own, hdone.frames, ?_, h.ok.tasks, h.ok.areas⟩
    change st.machine.kernelPgd ∈ _
    rw [hdone.kernelPgd]
    exact h.ok.kernel
  refine ⟨_, ⟨h.active hd hcr3, rfl⟩, h.set hok rfl hdone.cr3 fun d hd' va hva => ?_⟩
  refine (hdone.bytes d hd' va hva).trans ?_
  by_cases hdp : d = task.pgd
  · subst hdp
    rw [if_pos rfl, h.byte hd' hva]
    exact if_congr (and_iff_right rfl) rfl rfl
  · rw [if_neg hdp]
    exact if_neg fun hc => hdp hc.1

theorem same_switch {pgd : ℕ} (h : SameBytes s t) (hs : ProcStep s (.switch pgd) s') :
    ∃ t', UserStep t (.switch pgd) t' ∧ SameBytes s' t' := by
  obtain ⟨hd, rfl⟩ := hs
  have hmem : (activatePgd s.machine pgd).mem = s.machine.mem := by rw [activatePgd]
  have hsame : ∀ d ∈ s.pgds, DirSame s.machine (activatePgd s.machine pgd) d :=
    fun d _ => ⟨fun _ _ => by rw [hmem], fun _ _ => by rw [hmem]⟩
  have hpool : (activatePgd s.machine pgd).pool = s.machine.pool := by rw [activatePgd]
  have hbm : (activatePgd s.machine pgd).pmmBitmap = s.machine.pmmBitmap := by rw [activatePgd]
  have hk : (activatePgd s.machine pgd).kernelPgd = s.machine.kernelPgd := by rw [activatePgd]
  refine ⟨_, ⟨by rw [h.dirs]; exact hd, rfl⟩, ⟨h.ok.own.congr hsame hpool fun f hf => ?_,
    h.ok.frames.of_clear hbm fun x hx => hx.congr hsame hpool, ?_, h.ok.tasks, h.ok.areas⟩, h.dirs,
    hd, by rw [activatePgd], fun d hd' va hva => ?_⟩
  · rw [hbm]
    exact hf
  · change (activatePgd s.machine pgd).kernelPgd ∈ s.pgds
    rw [hk]
    exact h.ok.kernel
  · change t.mem d va = userByte (activatePgd s.machine pgd).mem d va
    rw [hmem]
    exact h.bytes d hd' va hva

theorem blit_one (m : Mem) (x : ℕ) (b : Byte) :
    blit m x (fun _ => b) 1 = Function.update m x b := by
  funext y
  unfold blit
  by_cases hy : y = x
  · rw [if_pos (by omega), hy, Function.update_self]
  · rw [if_neg (by omega), Function.update_of_ne hy]

theorem same_store {pgd va : ℕ} {b : Byte} (h : SameBytes s t)
    (hs : ProcStep s (.store pgd va b) s') :
    ∃ t', UserStep t (.store pgd va b) t' ∧ SameBytes s' t' := by
  obtain ⟨hd, hcr3, hva, x, hx, rfl⟩ := hs
  obtain ⟨hp, -, -⟩ := user_page_lt hva
  rw [hcr3, h.ok.own.translate hd hva] at hx
  split_ifs at hx with h0
  obtain rfl := Option.some.inj hx
  obtain ⟨hsame, hown, hbytes⟩ := h.ok.own.write (va % 4096) 1 (fun _ => b) hd hp h0
    (Nat.mod_lt _ (by norm_num)) rfl
  rw [blit_one] at hsame hown hbytes
  have hok : ProcOk ⟨s.maps, _, s.pgds⟩ := ⟨hown, h.ok.frames.of_clear rfl fun x hx =>
    hx.congr hsame rfl, h.ok.kernel, h.ok.tasks, h.ok.areas⟩
  refine ⟨_, ⟨h.active hd hcr3, ?_, rfl⟩, h.set hok rfl rfl fun d hd' va' hva' => ?_⟩
  · rw [h.byte hd hva, Ne, byteAt_none]
    exact h0
  · refine (hbytes d hd' va' hva').trans ?_
    by_cases hdp : d = pgd
    · subst hdp
      rw [if_pos rfl]
      by_cases hv : va' = va
      · rw [hv, Function.update_self, if_pos ⟨rfl, rfl, Nat.le_refl _, Nat.lt_succ_self _⟩]
      · rw [Function.update_of_ne hv, if_neg, h.byte hd' hva']
        rintro ⟨-, h1, h2, h3⟩
        omega
    · rw [if_neg hdp, if_neg fun hc => hdp hc.1]

theorem same_load {pgd va : ℕ} {b : Byte} (h : SameBytes s t)
    (hs : ProcStep s (.load pgd va b) s') :
    ∃ t', UserStep t (.load pgd va b) t' ∧ SameBytes s' t' := by
  obtain ⟨hd, hcr3, hva, x, hx, rfl, rfl⟩ := hs
  refine ⟨t, ⟨h.active hd hcr3, ?_, rfl⟩, h⟩
  rw [h.bytes pgd hd va hva, userByte, ← hcr3, hx]
  rfl

theorem same_step {e : ProcEvent} (h : SameBytes s t) (hs : ProcStep s e s') :
    ∃ t', UserStep t e t' ∧ SameBytes s' t' := by
  obtain ⟨es, hareas⟩ := h.ok.areas
  cases e with
  | spawn self pgd => exact same_spawn h hs
  | stack i vma entry =>
    obtain ⟨hmaps, hm, hp⟩ := hs
    obtain ⟨es', hareas', -⟩ := stack_areas hareas hmaps
    exact ⟨t, rfl, same_maps h hm hp ⟨es', hareas'⟩ (stack_pgds hmaps)⟩
  | mmap i p env =>
    obtain ⟨hmaps, hm, hp⟩ := hs
    obtain ⟨es', hareas', -⟩ := mmap_areas hareas hmaps
    exact ⟨t, rfl, same_maps h hm hp ⟨es', hareas'⟩ (mmap_pgds hmaps)⟩
  | fork i original self pgd blks => exact same_fork h hs
  | alloc pgd vaddr npages user overwrite => exact same_alloc h hs
  | fault i pgd cr2 area => exact same_fault h hs
  | switch pgd => exact same_switch h hs
  | store pgd va b => exact same_store h hs
  | load pgd va b => exact same_load h hs

theorem same_boot (h : ProcBoot s) : ∃ t, UserBoot t ∧ SameBytes s t := by
  obtain ⟨htasks, hpgds, hinv, hlow, hframes, hcr3⟩ := h
  have hmem : s.machine.kernelPgd ∈ s.pgds := by simp [hpgds]
  have htab : ∀ i < 768, tableAt s.machine.mem (addrToPhys s.machine.kernelPgd) i = 0 := by
    intro i hi
    rw [tableAt, hlow i hi]
    rfl
  have hempty : ∀ p < USER_END, entryAt s.machine.mem (addrToPhys s.machine.kernelPgd) p = 0 :=
    fun p hp => if_pos (htab _ (by simp only [USER_END] at hp; omega))
  have honly : ∀ d ∈ s.pgds, d = s.machine.kernelPgd := by simp [hpgds]
  have hspaces : SpacesOk ⟨s.machine, s.pgds⟩ := spacesOk_boot ⟨hpgds, hinv, htab, hframes⟩
  have hown : OwnFrames s.machine s.pgds := by
    refine ⟨hspaces.spaces, fun d hd i hi _ => ?_, fun d hd p hp h0 => ?_,
      fun d hd e _ p hp q _ h0 => ?_⟩
    · rw [honly d hd]
      exact hlow i hi
    · rw [honly d hd] at h0
      exact absurd (hempty p hp) h0
    · rw [honly d hd] at h0
      exact absurd (hempty p hp) h0
  have hareas : AreasInv s.maps.mem s.maps.tasks fun _ => [] :=
    ⟨listsInv_empty (by simp [htasks]), by simp, by simp⟩
  refine ⟨⟨[s.machine.kernelPgd], s.machine.kernelPgd, fun _ _ => none⟩, ⟨rfl, rfl⟩,
    SameBytes.of ⟨hown, hframes, hmem, by simp [htasks], _, hareas⟩ hpgds.symm hmem hcr3
      fun d hd va hva => ?_⟩
  rw [honly d hd, byteAt_none.2 (hempty _ (user_page_lt hva).1)]

theorem procRun_same {evs : List ProcEvent} (h : ProcRun evs s) :
    ∃ t, UserRun evs t ∧ SameBytes s t :=
  Run.simulation SameBytes (fun _ => same_boot)
    (fun s e s' t (hR : SameBytes s t) (hs : ProcStep s e s') => same_step hR hs) h

end Step

end DepthOS
