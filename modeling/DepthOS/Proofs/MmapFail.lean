import DepthOS.Proofs.MapAreas

/-! What a failed `mmap` leaves behind. The bump index has moved on before anything is
checked, and an area that was put in the place of another does not bring it back when it is
disposed of. -/

namespace DepthOS

open Lib

/-- The list holds the area. -/
def InAreas (m : VmMem) (t : VmTask) (a : ℕ) : Prop :=
  ∃ es x, Chain (fun x => (m.entries x).next) t.first es ∧ x ∈ es ∧ (m.entries x).value = a

/-- The same areas with the same fields, and the same index. -/
structure Unchanged (s s' : MmapState) : Prop where
  areas : ∀ a, InAreas s'.mem s'.task a ↔ InAreas s.mem s.task a
  fields : ∀ a, InAreas s.mem s.task a → s'.mem.areas a = s.mem.areas a
  bump : s'.mmapBumpIdx = s.mmapBumpIdx

/-- The list of a task: a linked list of entries in use that hold areas in use, none twice. -/
structure AreaList (m : VmMem) (t : VmTask) (es : List ℕ) : Prop where
  rep : ListRep m.entries t.list es
  owned : ∀ x ∈ es, x ∈ m.blocks ∧ (m.entries x).value ∈ m.blocks
  distinct : ∀ x ∈ es, ∀ y ∈ es, (m.entries x).value = (m.entries y).value → x = y

/-- An area of the list lies above the new one, which overlaps neither it nor one before it. -/
def Above (m : VmMem) (t : VmTask) (new : VmArea) : Prop :=
  ∃ l y r, Chain (fun x => (m.entries x).next) t.first (l ++ y :: r) ∧
    new.addr < (areaAt m y).addr ∧ ∀ x ∈ l ++ [y], vmaOverlap (areaAt m x) new = false

/-- The region passes the checks before the file's, and there is an area above it. -/
structure Displaces (s : MmapState) (p : MmapParams) : Prop where
  fixed : ¬(p.addr = 0 ∧ p.flags &&& MAP_FIXED ≠ 0)
  length : p.length ≠ 0
  user : s.target p + p.length ≤ VIRT_BASE
  aligned : s.target p % PAGE_SIZE = 0
  above : Above s.mem s.task (vmaNew s.task (s.target p) (pgRndUp p.length) p.flags)

section Lists

variable {m m' : VmMem} {t t' : VmTask} {es : List ℕ}

theorem inAreas_iff (h : ListRep m.entries t.list es) (a : ℕ) :
    InAreas m t a ↔ ∃ x ∈ es, (m.entries x).value = a := by
  have hc : Chain (fun x => (m.entries x).next) t.first es := by
    rw [← t.list_first]
    exact h.chain
  constructor
  · rintro ⟨es', x, hc', hx, hv⟩
    rw [hc'.unique hc] at hx
    exact ⟨x, hx, hv⟩
  · rintro ⟨x, hx, hv⟩
    exact ⟨es, x, hc, hx, hv⟩

theorem vmaWalk_above {E : Entries} {areas : ℕ → VmArea} {new : VmArea} {fuel item y : ℕ}
    {l r : List ℕ} (hc : Chain (fun x => (E x).next) item (l ++ y :: r))
    (hlt : new.addr < (areas (E y).value).addr)
    (hno : ∀ x ∈ l ++ [y], vmaOverlap (areas (E x).value) new = false) {w : WalkEnd}
    (hw : vmaWalk E areas new fuel item = some w) : ∃ z, w = .before z := by
  induction l generalizing fuel item with
  | nil =>
    obtain ⟨rfl, h0, -⟩ := hc
    cases fuel with
    | zero => simp [vmaWalk] at hw
    | succ fuel =>
      unfold vmaWalk at hw
      rw [if_neg h0, hno item (by simp), if_neg Bool.false_ne_true, if_pos hlt] at hw
      exact ⟨item, (Option.some.inj hw).symm⟩
  | cons x l ih =>
    obtain ⟨rfl, h0, hrest⟩ := hc
    cases fuel with
    | zero => simp [vmaWalk] at hw
    | succ fuel =>
      unfold vmaWalk at hw
      rw [if_neg h0, hno item (by simp), if_neg Bool.false_ne_true] at hw
      split_ifs at hw
      · exact ⟨item, (Option.some.inj hw).symm⟩
      · exact ih hrest (fun z hz => hno z (List.mem_cons_of_mem _ hz)) hw

variable {vma entry fuel addr size flags : ℕ}

theorem create_above {ret : Except Errno ℕ} (h : AreaList m t es) (hv : vma ∉ m.blocks)
    (hal : addr % PAGE_SIZE = 0) (habove : Above m t (vmaNew t addr size flags))
    (hc : vmaCreate fuel m t addr size flags vma entry = some (ret, m', t')) :
    ret = .ok vma ∧ ∃ l y r, es = l ++ ([y] ++ r) ∧
      (m', t') = vmaInsert (allocated m vma (vmaNew t addr size flags)) t t.list (lastOr 0 l)
        (headOr r 0) vma entry := by
  obtain ⟨l, y, r, hchain, hlt, hno⟩ := habove
  have hes := hchain.unique (show Chain _ t.first es by rw [← t.list_first]; exact h.rep.chain)
  have harea : ∀ x ∈ l ++ [y], Function.update m.areas vma (vmaNew t addr size flags)
      (m.entries x).value = areaAt m x := by
    intro x hx
    have hmem : x ∈ es := by
      rw [← hes]
      simp only [List.mem_append, List.mem_cons, List.not_mem_nil, or_false] at hx ⊢
      tauto
    exact area_allocated hv (h.owned x hmem).2 _
  unfold vmaCreate at hc
  rw [if_neg (not_not.2 hal)] at hc
  cases hL : t.vmAreas with
  | none =>
    -- without a list there is nothing above
    have hfirst : t.first = 0 := by simp [VmTask.first, hL]
    rw [hfirst] at hchain
    have hnil := hchain.unique (show Chain _ 0 [] from rfl)
    simp at hnil
  | some L =>
    rw [hL] at hc
    cases hw : vmaWalk m.entries (Function.update m.areas vma (vmaNew t addr size flags))
        (vmaNew t addr size flags) fuel L.first with
    | none => simp [hw] at hc
    | some w =>
      have hfirst : t.first = L.first := by simp [VmTask.first, hL]
      have hrep := h.rep
      rw [VmTask.list_some hL] at hrep ⊢
      rw [hfirst] at hchain
      obtain ⟨z, rfl⟩ := vmaWalk_above hchain (by rw [harea y (by simp)]; exact hlt)
        (fun x hx => by rw [harea x hx]; exact hno x hx) hw
      obtain ⟨l', r', rfl, -, -⟩ := vmaWalk_before hrep.chain hw
      obtain ⟨-, hp, hn⟩ := hrep.neighbours
      simp only [hw, Option.some.injEq, Prod.mk.injEq] at hc
      rw [hp, hn] at hc
      exact ⟨hc.1.symm, l', z, r', rfl, hc.2.symm⟩

/-- Disposing of the area that was just created: what stood around it is left, and what stood
in its place is not. -/
theorem dispose_created {l k r : List ℕ} {new a : VmArea} {stale : ℤ} {m₁ : VmMem}
    {t₁ : VmTask} {call : Option UnmapCall} (h : AreaList m t es) (hes : es = l ++ (k ++ r))
    (hfr : FreshBlocks m vma entry)
    (heq : (m₁, t₁) = vmaInsert (allocated m vma new) t t.list (lastOr 0 l) (headOr r 0) vma entry)
    (hd : vmaDispose fuel (m₁.setArea vma a) t₁ vma stale = some (m', t', call)) :
    ListRep m'.entries t'.list (l ++ r) ∧
      (∀ x ∈ es, (m'.entries x).value = (m.entries x).value) ∧
      ∀ p ∈ m.blocks, m'.areas p = m.areas p := by
  have hrep := h.rep
  rw [hes] at hrep
  have hsub : ∀ x ∈ l ++ r, x ∈ es := by
    intro x hx
    rw [hes]
    simp only [List.mem_append] at hx ⊢
    tauto
  have hent : entry ∉ es := fun hx => hfr.entry_new (h.owned _ hx).1
  obtain ⟨hval, hareas, -, L', hL', hrep', -⟩ :=
    vmaInsert_spec (m := allocated m vma new) t vma hrep hfr.entry_ne fun hx => hent (hsub _ hx)
  rw [← heq] at hval hareas hL' hrep'
  change ∀ x, (m₁.entries x).value = if x = entry then vma else (m.entries x).value at hval
  change m₁.areas = Function.update m.areas vma new at hareas
  have hold : ∀ x ∈ es, (m₁.entries x).value = (m.entries x).value := by
    intro x hx
    have hxe : x ≠ entry := fun he => hent (he ▸ hx)
    exact (hval x).trans (if_neg hxe)
  have hne : ∀ p ∈ m.blocks, p ≠ vma := fun p hp he => hfr.vma_new (he ▸ hp)
  have hrep₁ : ListRep (m₁.setArea vma a).entries t₁.list (l ++ ([entry] ++ r)) := by
    rw [VmTask.list_some hL']
    exact hrep'
  rcases dispose_removes hrep₁ hd with ⟨hno, -, -⟩ | ⟨l', item, r', hsplit, hitem, hE, ht', hA, -⟩
  · exact absurd ((hval entry).trans (if_pos rfl)) (hno entry (by simp))
  · -- no other entry holds the new area
    have hitem' : item = entry := by
      by_contra hcon
      have hmem : item ∈ l ++ ([entry] ++ r) := by rw [hsplit]; simp
      have hin : item ∈ es := by
        apply hsub
        simp only [List.mem_append, List.mem_singleton] at hmem ⊢
        tauto
      exact hne _ (h.owned item hin).2 ((hold item hin).symm.trans hitem)
    subst hitem'
    have hl : item ∉ l := fun hx => hent (hsub item (List.mem_append_left _ hx))
    have hr : item ∉ r := fun hx => hent (hsub item (List.mem_append_right _ hx))
    obtain ⟨rfl, -, rfl⟩ := (List.append_cons_inj_of_notMem hl hr).1 hsplit
    obtain ⟨h0, hp, -⟩ := hrep₁.neighbours
    have hself : ((m₁.setArea vma a).entries item).prev ≠ item := by
      rw [hp]
      exact ((border_ne (m := r) h0).1 hl).symm
    refine ⟨?_, fun x hx => ?_, fun p hp => ?_⟩
    · rw [hE, ht']
      exact listRemove_rep hrep₁
    · rw [hE]
      exact ((listRemove_fields _ _ h0 hself).1 x).trans (hold x hx)
    · rw [hA p (hne p hp)]
      change Function.update m₁.areas vma a p = _
      rw [Function.update_of_ne (hne p hp), hareas, Function.update_of_ne (hne p hp)]

end Lists

section Call

variable {m m' m₁ : VmMem} {t t' t₁ : VmTask} {es l k r : List ℕ} {fuel addr length flags : ℕ}
  {fd offset e : ℤ} {env : MmapEnv} {new : VmArea}

theorem same_areas (hE : m'.entries = m.entries) (a : ℕ) : InAreas m' t a ↔ InAreas m t a := by
  unfold InAreas
  rw [hE]

theorem AreaList.fields (h : AreaList m t es) (hA : ∀ p ∈ m.blocks, m'.areas p = m.areas p)
    {a : ℕ} (ha : InAreas m t a) : m'.areas a = m.areas a := by
  obtain ⟨x, hx, rfl⟩ := (inAreas_iff h.rep a).1 ha
  exact hA _ (h.owned x hx).2

theorem left_areas (h : AreaList m t es) (hes : es = l ++ (k ++ r))
    (hrep : ListRep m'.entries t'.list (l ++ r))
    (hvalue : ∀ x ∈ es, (m'.entries x).value = (m.entries x).value) :
    (∀ a, InAreas m' t' a ↔ InAreas m t a) ↔ k = [] := by
  have hsub : ∀ x ∈ l ++ r, x ∈ es := by
    intro x hx
    rw [hes]
    simp only [List.mem_append] at hx ⊢
    tauto
  simp only [inAreas_iff hrep, inAreas_iff h.rep]
  constructor
  · intro hsame
    cases k with
    | nil => rfl
    | cons y k =>
      have hy : y ∈ es := by rw [hes]; simp
      obtain ⟨x, hx, hv⟩ := (hsame (m.entries y).value).2 ⟨y, hy, rfl⟩
      rw [hvalue x (hsub x hx)] at hv
      obtain rfl := h.distinct x (hsub x hx) y hy hv
      have hnd := h.rep.nodup
      rw [hes, List.cons_append, List.nodup_middle, List.nodup_cons] at hnd
      refine absurd ?_ hnd.1
      simp only [List.mem_append] at hx ⊢
      tauto
  · rintro rfl a
    rw [hes, List.nil_append]
    constructor
    · rintro ⟨x, hx, rfl⟩
      exact ⟨x, hx, (hvalue x (hsub x hx)).symm⟩
    · rintro ⟨x, hx, rfl⟩
      exact ⟨x, hx, hvalue x (hsub x hx)⟩

theorem mmapFile_failed (h : AreaList m t es) (hes : es = l ++ (k ++ r))
    (hfr : FreshBlocks m env.vma env.entry)
    (heq : (m₁, t₁) =
      vmaInsert (allocated m env.vma new) t t.list (lastOr 0 l) (headOr r 0) env.vma env.entry)
    (hc : mmapFile fuel m₁ t₁ env.vma flags fd offset env = some (.error e, m', t')) :
    (∀ a, InAreas m t a → m'.areas a = m.areas a) ∧
      ((∀ a, InAreas m' t' a ↔ InAreas m t a) ↔ k = []) := by
  unfold mmapFile at hc
  by_cases hfile : flags &&& MAP_ANON = 0 ∧ fd ≠ 0
  · rw [if_pos hfile] at hc
    cases hret : (mapFileArea env.table (m₁.areas env.vma) fd offset).1 with
    | ok u => simp [hret] at hc
    | error e' =>
      cases hd : vmaDispose fuel
          (m₁.setArea env.vma (mapFileArea env.table (m₁.areas env.vma) fd offset).2) t₁
          env.vma env.stale with
      | none => simp [hret, hd] at hc
      | some d =>
        simp only [hret, hd, Option.some.injEq, Prod.mk.injEq] at hc
        obtain ⟨-, rfl, rfl⟩ := hc
        obtain ⟨hrep, hvalue, hareas⟩ := dispose_created h hes hfr heq hd
        exact ⟨fun a ha => h.fields hareas ha, left_areas h hes hrep hvalue⟩
  · rw [if_neg hfile] at hc
    simp at hc

/-- A failed `do_mmap` takes an area out of the list if it got as far as the file and the new
area had displaced one; otherwise it leaves the areas. -/
theorem doMmap_failed (h : AreaList m t es) (hfr : FreshBlocks m env.vma env.entry)
    (hc : doMmap fuel m t addr length flags fd offset env = some (.error e, m', t')) :
    (∀ a, InAreas m t a → m'.areas a = m.areas a) ∧
    ((∀ a, InAreas m' t' a ↔ InAreas m t a) ↔
      ¬ (length ≠ 0 ∧ addr + length ≤ VIRT_BASE ∧ addr % PAGE_SIZE = 0 ∧
        Above m t (vmaNew t addr (pgRndUp length) flags))) := by
  unfold doMmap at hc
  split_ifs at hc with h1 h2 h3
  · obtain ⟨-, rfl, rfl⟩ : _ ∧ m = m' ∧ t = t' := by simpa using hc
    exact ⟨fun _ _ => rfl, iff_of_true (fun _ => Iff.rfl) fun hd => hd.1 h1⟩
  · obtain ⟨-, rfl, rfl⟩ : _ ∧ m = m' ∧ t = t' := by simpa using hc
    refine ⟨fun _ _ => rfl, iff_of_true (fun _ => Iff.rfl) fun hd => ?_⟩
    have huser := hd.2.1
    simp only [VIRT_BASE] at huser
    omega
  · obtain ⟨-, rfl, rfl⟩ : _ ∧ m = m' ∧ t = t' := by simpa using hc
    refine ⟨fun _ _ => rfl, iff_of_true (fun _ => Iff.rfl) fun hd => ?_⟩
    have huser := hd.2.1
    omega
  · cases hv : vmaCreate fuel m t addr (pgRndUp length) flags env.vma env.entry with
    | none => simp [hv] at hc
    | some q =>
      obtain ⟨ret, m₁, t₁⟩ := q
      by_cases habove : addr % PAGE_SIZE = 0 ∧ Above m t (vmaNew t addr (pgRndUp length) flags)
      · obtain ⟨rfl, l, y, r, hes, heq⟩ := create_above h hfr.vma_new habove.1 habove.2 hv
        simp only [hv] at hc
        obtain ⟨hfields, hsame⟩ := mmapFile_failed h hes hfr heq hc
        refine ⟨hfields, iff_of_false (fun hs => ?_) (not_not.2 ⟨h1, not_lt.1 h3, habove⟩)⟩
        have hnil := hsame.1 hs
        simp at hnil
      · have hno : ¬ (length ≠ 0 ∧ addr + length ≤ VIRT_BASE ∧ addr % PAGE_SIZE = 0 ∧
            Above m t (vmaNew t addr (pgRndUp length) flags)) := fun hd => habove hd.2.2
        rcases create_inserts h.rep (fun x hx => (h.owned x hx).2) hfr.vma_new hv with
          ⟨e', rfl, hE, hA, hB, rfl⟩ | ⟨rfl, hal, l, k, r, hes, heq, -, hk⟩
        · simp only [hv, Option.some.injEq, Prod.mk.injEq] at hc
          obtain ⟨-, rfl, rfl⟩ := hc
          have hblocks : ∀ p ∈ m.blocks, m₁.areas p = m.areas p := by
            intro p hp
            have hne : p ≠ env.vma := fun he => hfr.vma_new (he ▸ hp)
            exact hA p hne
          exact ⟨fun a ha => h.fields hblocks ha, iff_of_true (same_areas hE) hno⟩
        · simp only [hv] at hc
          obtain ⟨hfields, hsame⟩ := mmapFile_failed h hes hfr heq hc
          refine ⟨hfields, iff_of_true (hsame.2 ?_) hno⟩
          rcases hk with ⟨hk, -⟩ | ⟨y, rfl, hlt, hfree⟩
          · exact hk
          · -- it stands below an area of the list
            have hchain : Chain (fun x => (m.entries x).next) t.first (l ++ y :: r) := by
              rw [← t.list_first]
              exact hes ▸ h.rep.chain
            exact absurd ⟨hal, l, y, r, hchain, hlt, hfree⟩ habove

end Call

section Mmap

variable {s s' : MmapState} {es : List ℕ} {p : MmapParams} {env : MmapEnv} {fuel : ℕ} {e : ℤ}

theorem bump_eq_iff (hb : s.mmapBumpIdx < 4294967296) (p : MmapParams) :
    s.bump p = s.mmapBumpIdx ↔ (p.addr = 0 → pgRndUp p.length = 0) := by
  have hpages : pgRndUp p.length % 4096 = 0 ∧ pgRndUp p.length < 4294967296 := by
    simp only [pgRndUp, roundUp, u32, PAGE_SIZE]
    omega
  unfold MmapState.bump
  by_cases h0 : p.addr = 0
  · rw [if_pos h0]
    simp only [u32, PAGE_SIZE, h0, true_implies]
    omega
  · rw [if_neg h0]
    exact iff_of_true rfl fun h => absurd h h0

theorem mmapCall_error {m' : VmMem} {t' : VmTask} (hfix : ¬(p.addr = 0 ∧ p.flags &&& MAP_FIXED ≠ 0))
    (hd : doMmap fuel s.mem s.task (s.target p) p.length p.flags p.fd p.offset env =
      some (.error e, m', t')) :
    mmapCall fuel s p env = some (.error (-e), ⟨m', t', s.bump p⟩) := by
  unfold mmapCall
  rw [if_neg hfix, hd]

/-- A failed `mmap` leaves the task unchanged if and only if it chose no address for a length
that counts pages, and did not displace an area. -/
theorem mmap_failed_iff (h : AreaList s.mem s.task es) (hb : s.mmapBumpIdx < 4294967296)
    (hfr : FreshBlocks s.mem env.vma env.entry)
    (hc : mmapCall fuel s p env = some (.error e, s')) :
    Unchanged s s' ↔
      (p.addr = 0 → p.flags &&& MAP_FIXED ≠ 0 ∨ pgRndUp p.length = 0) ∧ ¬ Displaces s p := by
  unfold mmapCall at hc
  by_cases hfix : p.addr = 0 ∧ p.flags &&& MAP_FIXED ≠ 0
  · rw [if_pos hfix] at hc
    obtain ⟨-, rfl⟩ : _ ∧ s = s' := by simpa using hc
    exact iff_of_true ⟨fun _ => Iff.rfl, fun _ _ => rfl, rfl⟩
      ⟨fun _ => Or.inl hfix.2, fun hd => hd.fixed hfix⟩
  · rw [if_neg hfix] at hc
    cases hd : doMmap fuel s.mem s.task (s.target p) p.length p.flags p.fd p.offset env with
    | none => simp [hd] at hc
    | some q =>
      obtain ⟨ret, m', t'⟩ := q
      cases ret with
      | ok u => simp [hd] at hc
      | error e' =>
        obtain ⟨-, rfl⟩ : _ ∧ _ = s' := by simpa [hd] using hc
        obtain ⟨hfields, hsame⟩ := doMmap_failed h hfr hd
        have hbump := bump_eq_iff hb p
        constructor
        · intro hu
          refine ⟨fun h0 => Or.inr (hbump.1 hu.bump h0), fun hdis => ?_⟩
          exact hsame.1 hu.areas ⟨hdis.length, hdis.user, hdis.aligned, hdis.above⟩
        · rintro ⟨hzero, hno⟩
          refine ⟨hsame.2 fun hall => ?_, hfields, hbump.2 fun h0 => ?_⟩
          · exact hno ⟨hfix, hall.1, hall.2.1, hall.2.2.1, hall.2.2.2⟩
          · exact (hzero h0).resolve_left fun hf => hfix ⟨h0, hf⟩

end Mmap

/-- In every state that stacks, `mmap` and `fork` lead to, the list of each task is in order. -/
theorem areaList_run {evs : List MapEvent} {s : MapSystem} (h : MapRun evs s) {i : ℕ} {t : VmTask}
    (ht : s.tasks[i]? = some t) : ∃ es, AreaList s.mem t es := by
  obtain ⟨es, hi, hd⟩ := lists_run h
  exact ⟨es i, hi.lists.rep i t ht, hi.lists.owned i, fun x hx y hy => hd i x y hx hy⟩

/-- A task with nothing mapped and no file open. -/
def idleTask : MmapState :=
  ⟨⟨fun _ => ⟨0, 0, 0⟩, fun _ => ⟨0, 0, 0, 0, 0, 0, 0, 0, 0, 0, 0, 0⟩, []⟩, ⟨1, 1, some listInit⟩, 0⟩

theorem idleTask_list : AreaList idleTask.mem idleTask.task [] :=
  ⟨listRep_init _, by simp, by simp⟩

/-- A page of a file that is not open, at an address of the caller's. -/
theorem mmap_failed_given : ∃ s', mmapCall 1 idleTask ⟨0x20000000, 4096, 0, 3, 0⟩
    (noOpenFiles 100 101) = some (.error (-EBADF), s') ∧ Unchanged idleTask s' := by
  have hc : mmapCall 1 idleTask ⟨0x20000000, 4096, 0, 3, 0⟩ (noOpenFiles 100 101) =
      some (.error (-EBADF), _) := rfl
  refine ⟨_, hc, (mmap_failed_iff idleTask_list (by decide)
    ⟨by decide, by decide, by decide, by decide, by decide⟩ hc).2 ⟨by decide, fun hd => ?_⟩⟩
  obtain ⟨l, y, r, hchain, -⟩ := hd.above
  have hnil := hchain.unique (show Chain _ idleTask.task.first [] from rfl)
  simp at hnil

/-- A length that does not fit below the kernel, at an address the kernel chooses: the index
has moved on. -/
theorem mmap_failed_bump : ¬ ∀ fuel s es p env e s', AreaList s.mem s.task es →
    s.mmapBumpIdx < 4294967296 → FreshBlocks s.mem env.vma env.entry →
    mmapCall fuel s p env = some (.error e, s') → Unchanged s s' := by
  intro h
  have hd : doMmap 1 idleTask.mem idleTask.task (idleTask.target (anonParams 0 0x90000000))
      0x90000000 MAP_ANON 0 0 (noOpenFiles 100 101) =
      some (.error EEXIST, idleTask.mem, idleTask.task) := by
    unfold doMmap
    rw [if_neg (by decide), if_neg (by decide), if_pos (by decide)]
  have hc := mmapCall_error (p := anonParams 0 0x90000000) (by decide) hd
  have hu := h _ _ _ _ _ _ _ idleTask_list (by decide)
    ⟨by decide, by decide, by decide, by decide, by decide⟩ hc
  have hpages : idleTask.bump (anonParams 0 0x90000000) = 0 := hu.bump
  exact absurd ((bump_eq_iff (by decide) _).1 hpages rfl) (by decide)

end DepthOS
