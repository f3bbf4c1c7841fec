import DepthOS.Proofs.VmaCalls
import DepthOS.Spec.VmSystem

/-! The area lists of several tasks side by side. No two lists share an entry, so
that what one call does to the list of its task leaves the others alone. Areas
may well be shared. -/

namespace DepthOS

open Lib

/-- A task without a list is as good as one with an empty list. -/
def VmTask.list (t : VmTask) : DList := t.vmAreas.getD listInit

theorem VmTask.list_first (t : VmTask) : t.list.first = t.first := by
  unfold VmTask.list VmTask.first
  cases t.vmAreas <;> rfl

theorem VmTask.list_some {t : VmTask} {L : DList} (h : t.vmAreas = some L) : t.list = L := by
  simp [VmTask.list, h]

/-- What holds of the entries `es i` in the list of each task `i`: entries and areas
are different blocks, all of them in use. -/
structure ListsInv (m : VmMem) (tasks : List VmTask) (es : ℕ → List ℕ) : Prop where
  rep : ∀ (i : ℕ) (t : VmTask), tasks[i]? = some t → ListRep m.entries t.list (es i)
  absent : ∀ i : ℕ, tasks[i]? = none → es i = []
  disjoint : ∀ i j x, x ∈ es i → x ∈ es j → i = j
  apart : ∀ i j x y, x ∈ es i → y ∈ es j → (m.entries y).value ≠ x
  owned : ∀ i x, x ∈ es i → x ∈ m.blocks ∧ (m.entries x).value ∈ m.blocks

theorem listsInv_empty {m : VmMem} {tasks : List VmTask}
    (h : ∀ t ∈ tasks, t.vmAreas = none ∨ t.vmAreas = some listInit) :
    ListsInv m tasks fun _ => [] := by
  refine ⟨fun i t ht => ?_, fun _ _ => rfl, by simp, by simp, by simp⟩
  have hlist : t.list = listInit := by
    rcases h t (List.mem_of_getElem? ht) with h | h <;> simp [VmTask.list, h]
  rw [hlist]
  exact listRep_init _

section Inv

variable {m m' : VmMem} {tasks tasks' : List VmTask} {es : ℕ → List ℕ} {i : ℕ} {t t' : VmTask}

theorem ListsInv.chain (h : ListsInv m tasks es) (ht : tasks[i]? = some t) :
    Chain (fun x => (m.entries x).next) t.first (es i) := by
  rw [← t.list_first]
  exact (h.rep i t ht).chain

theorem ListsInv.ne_zero (h : ListsInv m tasks es) {j x : ℕ} (hx : x ∈ es j) : x ≠ 0 := by
  cases hu : tasks[j]? with
  | none => simp [h.absent j hu] at hx
  | some u => exact (h.rep j u hu).linked.ne_zero hx

theorem ListsInv.congr (h : ListsInv m tasks es) (hE : m'.entries = m.entries)
    (hB : ∀ p ∈ m.blocks, p ∈ m'.blocks)
    (hT : ∀ (i : ℕ) (t : VmTask), tasks'[i]? = some t →
      tasks[i]? = some t ∨ (tasks[i]? = none ∧ t.list = listInit))
    (hT' : ∀ i : ℕ, tasks'[i]? = none → tasks[i]? = none) : ListsInv m' tasks' es := by
  constructor
  · intro i t ht
    rw [hE]
    rcases hT i t ht with ht | ⟨hnone, hinit⟩
    · exact h.rep i t ht
    · rw [hinit, h.absent i hnone]
      exact listRep_init _
  · exact fun i hi => h.absent i (hT' i hi)
  · exact h.disjoint
  · rw [hE]
    exact h.apart
  · intro i x hx
    rw [hE]
    exact ⟨hB _ (h.owned i x hx).1, hB _ (h.owned i x hx).2⟩

theorem ListsInv.congr_mem (h : ListsInv m tasks es) (hE : m'.entries = m.entries)
    (hB : ∀ p ∈ m.blocks, p ∈ m'.blocks) : ListsInv m' tasks es :=
  h.congr hE hB (fun _ _ ht => Or.inl ht) fun _ hi => hi

/-- The lists of the other tasks are not touched by a change of task `i` that
leaves their entries alone. -/
theorem ListsInv.rep_set (h : ListsInv m tasks es) {l : List ℕ} (ht : tasks[i]? = some t)
    (hi : ListRep m'.entries t'.list l)
    (hother : ∀ j x, j ≠ i → x ∈ es j → (m'.entries x).next = (m.entries x).next ∧
      (m'.entries x).prev = (m.entries x).prev) (j : ℕ) (u : VmTask)
    (hu : (tasks.set i t')[j]? = some u) :
    ListRep m'.entries u.list (Function.update es i l j) := by
  by_cases hj : j = i
  · subst hj
    rw [List.getElem?_set_self (List.getElem?_eq_some_iff.1 ht).1] at hu
    obtain rfl := Option.some.inj hu
    rw [Function.update_self]
    exact hi
  · rw [List.getElem?_set_ne (Ne.symm hj)] at hu
    rw [Function.update_of_ne hj]
    exact (h.rep j u hu).frame fun x hx => hother j x hj hx

theorem ListsInv.absent_set (h : ListsInv m tasks es) {l : List ℕ} (ht : tasks[i]? = some t)
    (j : ℕ) (hj : (tasks.set i t')[j]? = none) : Function.update es i l j = [] := by
  have hlt : i < tasks.length := (List.getElem?_eq_some_iff.1 ht).1
  have hle : tasks.length ≤ j := by
    have := List.getElem?_eq_none_iff.1 hj
    rwa [List.length_set] at this
  rw [Function.update_of_ne (by omega)]
  exact h.absent j (List.getElem?_eq_none_iff.2 hle)

end Inv

theorem set_same {α : Type*} {l : List α} {i : ℕ} {a : α} (h : l[i]? = some a) : l.set i a = l := by
  obtain ⟨hlt, rfl⟩ := List.getElem?_eq_some_iff.1 h
  exact List.set_getElem_self hlt

section Insert

variable {m m' : VmMem} {tasks : List VmTask} {es : ℕ → List ℕ} {i : ℕ} {t t' : VmTask}
  {l k r : List ℕ} {vma entry : ℕ} {new : VmArea}

/-- What an insertion into the list of one task does to the entries of all. -/
structure InsertedEntry (m m' : VmMem) (es : ℕ → List ℕ) (vma entry : ℕ) (new : VmArea) : Prop where
  value : (m'.entries entry).value = vma
  old : ∀ j x, x ∈ es j → (m'.entries x).value = (m.entries x).value ∧
    (m.entries x).value ≠ vma ∧ x ≠ entry
  areas : m'.areas = Function.update m.areas vma new
  blocks : m'.blocks = entry :: vma :: m.blocks

theorem mem_inserted (hes : es i = l ++ (k ++ r)) {x j : ℕ}
    (hx : x ∈ Function.update es i (l ++ ([entry] ++ r)) j) : (j = i ∧ x = entry) ∨ x ∈ es j := by
  by_cases hj : j = i
  · subst hj
    rw [Function.update_self] at hx
    rw [hes]
    simp only [List.mem_append, List.mem_singleton] at hx ⊢
    tauto
  · rw [Function.update_of_ne hj] at hx
    exact Or.inr hx

theorem ListsInv.insert (h : ListsInv m tasks es) (ht : tasks[i]? = some t)
    (hes : es i = l ++ (k ++ r)) (hfr : FreshBlocks m vma entry)
    (heq : (m', t') = vmaInsert (allocated m vma new) t t.list (lastOr 0 l) (headOr r 0) vma entry) :
    ListsInv m' (tasks.set i t') (Function.update es i (l ++ ([entry] ++ r))) ∧
      InsertedEntry m m' es vma entry new := by
  have hrep := h.rep i t ht
  rw [hes] at hrep
  have hent : ∀ j, entry ∉ es j := fun j hx => hfr.entry_new (h.owned j _ hx).1
  have hsub : ∀ x ∈ l ++ r, x ∈ es i := by
    intro x hx
    rw [hes]
    simp only [List.mem_append] at hx ⊢
    tauto
  obtain ⟨hval, hareas, hblocks, L', hL', hrep', -⟩ :=
    vmaInsert_spec (m := allocated m vma new) t vma hrep hfr.entry_ne
      fun hx => hent i (hsub _ hx)
  rw [← heq] at hval hareas hblocks hL' hrep'
  change ∀ x, (m'.entries x).value = _ at hval
  change m'.blocks = entry :: vma :: m.blocks at hblocks
  have hins : InsertedEntry m m' es vma entry new := by
    refine ⟨by rw [hval, if_pos rfl], fun j x hx => ?_, hareas, hblocks⟩
    have hxe : x ≠ entry := fun hxe => hent j (hxe ▸ hx)
    refine ⟨by rw [hval x, if_neg hxe]; rfl, fun hxv => ?_, hxe⟩
    exact hfr.vma_new (hxv ▸ (h.owned j x hx).2)
  have hother : ∀ j x, j ≠ i → x ∈ es j → (m'.entries x).next = (m.entries x).next ∧
      (m'.entries x).prev = (m.entries x).prev := by
    intro j x hj hx
    have hmem : m'.entries =
        (listInsertValue m.entries t.list (lastOr 0 l) (headOr r 0) vma entry).1 :=
      congrArg (fun q => q.1.entries) heq
    rw [hmem]
    exact listInsertValue_other m.entries t.list l r vma hfr.entry_ne (h.ne_zero hx)
      (fun hxi => hj (h.disjoint j i x hx (hsub x hxi))) (hins.old j x hx).2.2
  refine ⟨⟨h.rep_set ht (by rw [VmTask.list_some hL']; exact hrep') hother, h.absent_set ht,
    ?_, ?_, ?_⟩, hins⟩
  · intro a b x hx hy
    rcases mem_inserted hes hx with ⟨rfl, rfl⟩ | hx'
    · rcases mem_inserted hes hy with ⟨rfl, -⟩ | hy'
      · rfl
      · exact absurd hy' (hent b)
    · rcases mem_inserted hes hy with ⟨rfl, rfl⟩ | hy'
      · exact absurd hx' (hent a)
      · exact h.disjoint a b x hx' hy'
  · intro a b x y hx hy hyx
    rcases mem_inserted hes hx with ⟨rfl, rfl⟩ | hx'
    · rcases mem_inserted hes hy with ⟨rfl, rfl⟩ | hy'
      · exact hfr.distinct (hyx.symm.trans hins.value)
      · rw [(hins.old b y hy').1] at hyx
        exact hfr.entry_new (hyx ▸ (h.owned b y hy').2)
    · rcases mem_inserted hes hy with ⟨rfl, rfl⟩ | hy'
      · rw [hins.value] at hyx
        exact hfr.vma_new (hyx ▸ (h.owned a x hx').1)
      · rw [(hins.old b y hy').1] at hyx
        exact h.apart a b x y hx' hy' hyx
  · intro j x hx
    rw [hblocks]
    rcases mem_inserted hes hx with ⟨rfl, rfl⟩ | hx'
    · rw [hins.value]
      simp
    · obtain ⟨h1, h2⟩ := h.owned j x hx'
      rw [(hins.old j x hx').1]
      simp [h1, h2]

theorem area_allocated {x : ℕ} (hv : vma ∉ m.blocks) (hx : (m.entries x).value ∈ m.blocks)
    (new : VmArea) : Function.update m.areas vma new (m.entries x).value = areaAt m x := by
  have hne : (m.entries x).value ≠ vma := fun he => hv (he ▸ hx)
  exact Function.update_of_ne hne _ _

theorem vmaWalk_before_areas {es : List ℕ} {first fuel y : ℕ}
    (hes : Chain (fun x => (m.entries x).next) first es)
    (hown : ∀ x ∈ es, (m.entries x).value ∈ m.blocks) (hv : vma ∉ m.blocks)
    (hw : vmaWalk m.entries (Function.update m.areas vma new) new fuel first = some (.before y)) :
    ∃ l r, es = l ++ y :: r ∧ new.addr < (areaAt m y).addr ∧
      ∀ x ∈ l ++ [y], vmaOverlap (areaAt m x) new = false := by
  obtain ⟨l, r, rfl, hlt, hno⟩ := vmaWalk_before hes hw
  have harea : ∀ x ∈ l ++ [y],
      Function.update m.areas vma new (m.entries x).value = areaAt m x := by
    intro x hx
    have hx' : x ∈ l ++ y :: r := by
      simp only [List.mem_append, List.mem_cons, List.not_mem_nil, or_false] at hx ⊢
      tauto
    exact area_allocated hv (hown x hx') _
  refine ⟨l, r, rfl, ?_, fun x hx => ?_⟩
  · rw [harea y (by simp)] at hlt
    exact hlt
  · rw [← harea x hx]
    exact hno x hx

/-- The ways `vma_create` ends on any list: it fails, writing at most the block it
was given, it pushes its entry, or it puts it in the place of the first area
above. -/
theorem create_inserts {es : List ℕ} {addr size flags fuel : ℕ} {ret : Except Errno ℕ}
    (hrep : ListRep m.entries t.list es) (hown : ∀ x ∈ es, (m.entries x).value ∈ m.blocks)
    (hv : vma ∉ m.blocks)
    (hc : vmaCreate fuel m t addr size flags vma entry = some (ret, m', t')) :
    (∃ e, ret = .error e ∧ m'.entries = m.entries ∧ (∀ p, p ≠ vma → m'.areas p = m.areas p) ∧
      (∀ p ∈ m.blocks, p ∈ m'.blocks) ∧ t' = t) ∨
    (ret = .ok vma ∧ addr % PAGE_SIZE = 0 ∧ ∃ l k r, es = l ++ (k ++ r) ∧
      (m', t') = vmaInsert (allocated m vma (vmaNew t addr size flags)) t t.list (lastOr 0 l)
        (headOr r 0) vma entry ∧
      (∀ x ∈ l, vmaOverlap (areaAt m x) (vmaNew t addr size flags) = false) ∧
      (k = [] ∧ r = [] ∨ ∃ y, k = [y] ∧ addr < (areaAt m y).addr ∧
        ∀ x ∈ l ++ [y], vmaOverlap (areaAt m x) (vmaNew t addr size flags) = false)) := by
  unfold vmaCreate at hc
  split_ifs at hc with hal
  · simp only [Option.some.injEq, Prod.mk.injEq] at hc
    obtain ⟨rfl, rfl, rfl⟩ := hc
    exact Or.inl ⟨_, rfl, rfl, fun _ _ => rfl, fun _ h => h, rfl⟩
  · cases hL : t.vmAreas with
    | none =>
      rw [hL] at hc
      obtain ⟨rfl, heq⟩ := Prod.mk.inj (Option.some.inj hc)
      have hlist : t.list = listInit := by simp [VmTask.list, hL]
      have hnil : es = [] := hrep.chain.unique (show Chain _ _ [] by rw [hlist]; rfl)
      refine Or.inr ⟨rfl, not_not.1 hal, [], [], [], by simpa using hnil, ?_, by simp,
        Or.inl ⟨rfl, rfl⟩⟩
      rw [hlist]
      exact heq.symm
    | some L =>
      rw [VmTask.list_some hL] at hrep ⊢
      rw [hL] at hc
      cases hw : vmaWalk m.entries (Function.update m.areas vma (vmaNew t addr size flags))
          (vmaNew t addr size flags) fuel L.first with
      | none => simp [hw] at hc
      | some w =>
        cases w with
        | overlap =>
          simp only [hw, Option.some.injEq, Prod.mk.injEq] at hc
          obtain ⟨rfl, rfl, rfl⟩ := hc
          refine Or.inl ⟨_, rfl, rfl, fun p hp => Function.update_of_ne hp _ _, fun p hp => ?_, rfl⟩
          have hne : p ≠ vma := fun h => hv (h ▸ hp)
          simp [hp, hne]
        | before y =>
          obtain ⟨l, r, rfl, hlt, hfree⟩ := vmaWalk_before_areas hrep.chain hown hv hw
          obtain ⟨-, hp, hn⟩ := hrep.neighbours
          simp only [hw, Option.some.injEq, Prod.mk.injEq] at hc
          obtain ⟨rfl, heq⟩ := hc
          rw [hp, hn] at heq
          exact Or.inr ⟨rfl, not_not.1 hal, l, [y], r, rfl, heq.symm,
            fun x hx => hfree x (List.mem_append_left _ hx), Or.inr ⟨y, rfl, hlt, hfree⟩⟩
        | push =>
          simp only [hw, Option.some.injEq, Prod.mk.injEq] at hc
          obtain ⟨rfl, heq⟩ := hc
          rw [hrep.last] at heq
          refine Or.inr ⟨rfl, not_not.1 hal, es, [], [], by simp, heq.symm, fun x hx => ?_,
            Or.inl ⟨rfl, rfl⟩⟩
          rw [← vmaWalk_push hrep.chain hw x hx, area_allocated hv (hown x hx)]

end Insert

section Remove

variable {m m' : VmMem} {tasks : List VmTask} {es : ℕ → List ℕ} {i : ℕ} {t t' : VmTask}
  {l r : List ℕ} {item : ℕ}

/-- Membership after `item` has left the list of task `i`. -/
theorem mem_removed (h : ListsInv m tasks es) (ht : tasks[i]? = some t)
    (hes : es i = l ++ ([item] ++ r)) {x j : ℕ} :
    x ∈ Function.update es i (l ++ r) j ↔ x ∈ es j ∧ x ≠ item := by
  have hitem : item ∈ es i := by simp [hes]
  by_cases hj : j = i
  · subst hj
    have hnd := (h.rep j t ht).nodup
    rw [hes, List.singleton_append, List.nodup_middle, List.nodup_cons] at hnd
    rw [Function.update_self, hes]
    constructor
    · intro hx
      refine ⟨?_, fun hxe => hnd.1 (hxe ▸ hx)⟩
      simp only [List.mem_append, List.mem_singleton] at hx ⊢
      tauto
    · rintro ⟨hx, hne⟩
      simp only [List.mem_append, List.mem_singleton] at hx ⊢
      tauto
  · rw [Function.update_of_ne hj]
    refine ⟨fun hx => ⟨hx, fun hxe => ?_⟩, fun hx => hx.1⟩
    exact hj (h.disjoint j i x hx (hxe ▸ hitem))

/-- `list_remove` of an entry, after which only blocks that no list needs may be
gone. -/
theorem ListsInv.remove (h : ListsInv m tasks es) (ht : tasks[i]? = some t)
    (hes : es i = l ++ ([item] ++ r))
    (hE : m'.entries = (listRemove m.entries t.list item).1)
    (ht' : t'.list = (listRemove m.entries t.list item).2)
    (hB : ∀ j x, x ∈ es j → x ≠ item → x ∈ m'.blocks ∧ (m.entries x).value ∈ m'.blocks) :
    ListsInv m' (tasks.set i t') (Function.update es i (l ++ r)) ∧
      ∀ x, (m'.entries x).value = (m.entries x).value := by
  have hmem := fun {x j} => mem_removed h ht hes (x := x) (j := j)
  have hrep := h.rep i t ht
  rw [hes] at hrep
  obtain ⟨h0, hp, -⟩ := hrep.neighbours
  have hself : (m.entries item).prev ≠ item := by
    rw [hp]
    refine ((border_ne (m := r) h0).1 fun hx => ?_).symm
    exact (List.nodup_append.1 hrep.nodup).2.2 item hx item (by simp) rfl
  have hvalue : ∀ x, (m'.entries x).value = (m.entries x).value := by
    rw [hE]
    exact (listRemove_fields m.entries t.list h0 hself).1
  have hother : ∀ j x, j ≠ i → x ∈ es j → (m'.entries x).next = (m.entries x).next ∧
      (m'.entries x).prev = (m.entries x).prev := by
    intro j x hj hx
    have hxi : x ∉ es i := fun hxi => hj (h.disjoint j i x hx hxi)
    rw [hE]
    exact listRemove_other hrep (h.ne_zero hx) (by rwa [hes] at hxi)
  refine ⟨⟨h.rep_set ht ?_ hother, h.absent_set ht, ?_, ?_, ?_⟩, hvalue⟩
  · rw [ht', hE]
    exact listRemove_rep hrep
  · exact fun a b x hx hy => h.disjoint a b x (hmem.1 hx).1 (hmem.1 hy).1
  · intro a b x y hx hy
    rw [hvalue]
    exact h.apart a b x y (hmem.1 hx).1 (hmem.1 hy).1
  · intro j x hx
    rw [hvalue]
    exact hB j x (hmem.1 hx).1 (hmem.1 hx).2

/-- `vma_dispose` does nothing for an area the list does not hold, and takes out an
entry of one it does. -/
theorem dispose_removes {es : List ℕ} {area fuel : ℕ} {stale : ℤ} {call : Option UnmapCall}
    (hrep : ListRep m.entries t.list es)
    (hc : vmaDispose fuel m t area stale = some (m', t', call)) :
    ((∀ x ∈ es, (m.entries x).value ≠ area) ∧ m' = m ∧ t' = t) ∨
    ∃ l item r, es = l ++ ([item] ++ r) ∧ (m.entries item).value = area ∧
      m'.entries = (listRemove m.entries t.list item).1 ∧
      t'.list = (listRemove m.entries t.list item).2 ∧
      (∀ p, p ≠ area → m'.areas p = m.areas p) ∧
      m'.blocks = if (m.areas area).nProc - 1 = 0 then m.blocks.filter (· ≠ area)
        else m.blocks := by
  unfold vmaDispose at hc
  cases hL : t.vmAreas with
  | none => simp [hL] at hc
  | some L =>
    rw [VmTask.list_some hL] at hrep ⊢
    rw [hL] at hc
    cases hw : vmaFind m.entries area fuel L.first with
    | none => simp [hw] at hc
    | some item =>
      rcases vmaFind_spec hrep.chain hw with ⟨rfl, hall⟩ | ⟨hmem, hval⟩
      · simp only [hw, if_true, Option.some.injEq, Prod.mk.injEq] at hc
        exact Or.inl ⟨hall, hc.1.symm, hc.2.1.symm⟩
      · obtain ⟨l, r, rfl⟩ := List.append_of_mem hmem
        have h0 : item ≠ 0 := hrep.linked.ne_zero hmem
        simp only [hw, if_neg h0, Option.some.injEq, Prod.mk.injEq] at hc
        obtain ⟨rfl, rfl, -⟩ := hc
        exact Or.inr ⟨l, item, r, rfl, hval, rfl, rfl, fun p hp => Function.update_of_ne hp _ _, rfl⟩

end Remove

section Fork

/-- Entries `new` have been added to the list of `cs` for the areas that the entries `ps`
hold. Of what was in use nothing but the list is written. -/
structure Copied (m m' : VmMem) (L' : DList) (ps cs new : List ℕ) : Prop where
  rep : ListRep m'.entries L' (cs ++ new)
  copies : new.map (fun x => (m'.entries x).value) = ps.map (fun x => (m.entries x).value)
  value : ∀ x ∈ m.blocks, (m'.entries x).value = (m.entries x).value
  links : ∀ x ∈ m.blocks, x ≠ 0 → x ∉ cs → (m'.entries x).next = (m.entries x).next ∧
    (m'.entries x).prev = (m.entries x).prev
  areas : m'.areas = m.areas
  blocks : ∀ x ∈ m.blocks, x ∈ m'.blocks
  used : ∀ x ∈ new, x ∈ m'.blocks

variable {m m' : VmMem} {L L' : DList} {ps cs new : List ℕ} {item b : ℕ}

theorem Copied.nil (h : ListRep m.entries L cs) : Copied m m L [] cs [] :=
  ⟨by simpa using h, rfl, fun _ _ => rfl, fun _ _ _ _ => ⟨rfl, rfl⟩, rfl, fun _ hx => hx, by simp⟩

theorem Copied.cons (hcs : ListRep m.entries L cs) (hown : ∀ x ∈ item :: ps, x ∈ m.blocks)
    (hb0 : b ≠ 0) (hb : b ∉ m.blocks) (hbcs : b ∉ cs)
    (h : Copied { m with entries := (listPush m.entries L (m.entries item).value b).1
                         blocks := b :: m.blocks } m' L' ps (cs ++ [b]) new) :
    Copied m m' L' (item :: ps) cs (b :: new) := by
  obtain ⟨-, hval, hother⟩ := listPush_spec hcs (m.entries item).value hb0 hbcs
  have hne : ∀ x ∈ m.blocks, x ≠ b := fun x hx hxb => hb (hxb ▸ hx)
  refine ⟨by simpa using h.rep, ?_, fun x hx => ?_, fun x hx hx0 hxcs => ?_, h.areas,
    fun x hx => h.blocks x (List.mem_cons_of_mem _ hx), fun x hx => ?_⟩
  · rw [List.map_cons, List.map_cons, h.copies, h.value b (by simp)]
    congr 1
    · exact (hval b).trans (if_pos rfl)
    · refine List.map_congr_left fun x hx => ?_
      exact (hval x).trans (if_neg (hne x (hown x (by simp [hx]))))
  · rw [h.value x (List.mem_cons_of_mem _ hx)]
    exact (hval x).trans (if_neg (hne x hx))
  · obtain ⟨h1, h2⟩ := h.links x (List.mem_cons_of_mem _ hx) hx0 (by simp [hxcs, hne x hx])
    obtain ⟨h3, h4⟩ := hother x hx0 hxcs (hne x hx)
    exact ⟨h1.trans h3, h2.trans h4⟩
  · rcases List.mem_cons.1 hx with rfl | hx
    · exact h.blocks x (by simp)
    · exact h.used x hx

/-- The loop of `fork_task`, over the parent's entries `ps` still to copy. -/
theorem forkAreas_spec {blks : List ℕ}
    (hps : Chain (fun x => (m.entries x).next) item ps) (hcs : ListRep m.entries L cs)
    (hfresh : ∀ b ∈ blks, b ≠ 0 ∧ b ∉ m.blocks) (hnd : blks.Nodup)
    (hown : ∀ x ∈ ps ++ cs, x ∈ m.blocks) (hdisj : ∀ x ∈ ps, x ∉ cs)
    (hc : forkAreas blks m L item = some (m', L')) :
    ∃ new, Copied m m' L' ps cs new ∧ ∀ b ∈ new, b ∈ blks := by
  induction blks generalizing m L item ps cs with
  | nil =>
    unfold forkAreas at hc
    split_ifs at hc with h0
    obtain ⟨rfl, rfl⟩ := Prod.mk.inj (Option.some.inj hc)
    obtain rfl : ps = [] := hps.unique h0
    exact ⟨[], Copied.nil hcs, by simp⟩
  | cons b blks ih =>
    unfold forkAreas at hc
    split_ifs at hc with h0
    · obtain ⟨rfl, rfl⟩ := Prod.mk.inj (Option.some.inj hc)
      obtain rfl : ps = [] := hps.unique h0
      exact ⟨[], Copied.nil hcs, by simp⟩
    · obtain ⟨ps, rfl, hps'⟩ := hps.of_ne_zero h0
      obtain ⟨hb0, hbm⟩ := hfresh b (by simp)
      obtain ⟨hbn, hnd'⟩ := List.nodup_cons.1 hnd
      have hne : ∀ x ∈ m.blocks, x ≠ b := fun x hx hxb => hbm (hxb ▸ hx)
      have hbcs : b ∉ cs := fun hx => hbm (hown b (by simp [hx]))
      obtain ⟨hrep, -, hother⟩ := listPush_spec hcs (m.entries item).value hb0 hbcs
      -- the parent's entries are not in the child's list, so the push passes them by
      have hstay : ∀ x ∈ item :: ps,
          ((listPush m.entries L (m.entries item).value b).1 x).next = (m.entries x).next := by
        intro x hx
        exact (hother x (hps.ne_zero hx) (hdisj x hx) (hne x (hown x (List.mem_append_left _ hx)))).1
      have hchain : Chain (fun x => ((listPush m.entries L (m.entries item).value b).1 x).next)
          ((listPush m.entries L (m.entries item).value b).1 item).next ps := by
        rw [hstay item (by simp)]
        exact hps'.congr fun x hx => hstay x (by simp [hx])
      have hfresh' : ∀ c ∈ blks, c ≠ 0 ∧ c ∉ b :: m.blocks := by
        intro c hc
        obtain ⟨hc0, hcm⟩ := hfresh c (by simp [hc])
        refine ⟨hc0, ?_⟩
        rw [List.mem_cons, not_or]
        exact ⟨fun hcb => hbn (hcb ▸ hc), hcm⟩
      have hown' : ∀ x ∈ ps ++ (cs ++ [b]), x ∈ b :: m.blocks := by
        intro x hx
        rw [List.mem_cons]
        simp only [List.mem_append, List.mem_singleton] at hx
        rcases hx with hx | hx | hx
        · exact Or.inr (hown x (by simp [hx]))
        · exact Or.inr (hown x (by simp [hx]))
        · exact Or.inl hx
      have hdisj' : ∀ x ∈ ps, x ∉ cs ++ [b] := by
        intro x hx
        have hxb := hne x (hown x (by simp [hx]))
        simp [hdisj x (by simp [hx]), hxb]
      obtain ⟨new, hcopied, hsub⟩ := ih hchain hrep hfresh' hnd' hown' hdisj' hc
      refine ⟨b :: new, Copied.cons hcs (fun x hx => hown x (List.mem_append_left _ hx)) hb0 hbm hbcs
        hcopied, fun c hc => ?_⟩
      rcases List.mem_cons.1 hc with rfl | hc
      · simp
      · exact List.mem_cons_of_mem _ (hsub c hc)

theorem mem_forked {es : ℕ → List ℕ} {k j x : ℕ} (hx : x ∈ Function.update es k new j) :
    (j = k ∧ x ∈ new) ∨ (j ≠ k ∧ x ∈ es j) := by
  by_cases hj : j = k
  · subst hj
    exact Or.inl ⟨rfl, by simpa using hx⟩
  · exact Or.inr ⟨hj, by simpa [hj] using hx⟩

theorem ListsInv.rep_append {tasks : List VmTask} {es : ℕ → List ℕ} {t' : VmTask} {new : List ℕ}
    (h : ListsInv m tasks es) (hnew : ListRep m'.entries t'.list new)
    (hold : ∀ j x, x ∈ es j → (m'.entries x).next = (m.entries x).next ∧
      (m'.entries x).prev = (m.entries x).prev) (j : ℕ) (u : VmTask)
    (hu : (tasks ++ [t'])[j]? = some u) :
    ListRep m'.entries u.list (Function.update es tasks.length new j) := by
  by_cases hj : j < tasks.length
  · rw [List.getElem?_append_left hj] at hu
    rw [Function.update_of_ne (by omega)]
    exact (h.rep j u hu).frame (hold j)
  · rw [List.getElem?_append_right (by omega)] at hu
    obtain rfl := List.mem_singleton.1 (List.mem_of_getElem? hu)
    have hj' : j = tasks.length := by
      have hlen := (List.getElem?_eq_some_iff.1 hu).1
      simp only [List.length_singleton] at hlen
      omega
    rw [hj', Function.update_self]
    exact hnew

/-- Entries of a new list: blocks that were free, each with the area of an entry of task `i`. -/
structure ForkedEntries (m m' : VmMem) (es : ℕ → List ℕ) (i : ℕ) (new : List ℕ) : Prop where
  fresh : ∀ x ∈ new, x ∉ m.blocks
  used : ∀ x ∈ new, x ∈ m'.blocks
  value : ∀ x ∈ new, ∃ y ∈ es i, (m'.entries x).value = (m.entries y).value
  old : ∀ j x, x ∈ es j → (m'.entries x).value = (m.entries x).value
  blocks : ∀ p ∈ m.blocks, p ∈ m'.blocks

section Forked

variable {tasks : List VmTask} {es : ℕ → List ℕ} {i k : ℕ}

theorem ForkedEntries.disjoint (hf : ForkedEntries m m' es i new) (h : ListsInv m tasks es)
    {a b x : ℕ} (hx : x ∈ Function.update es k new a) (hy : x ∈ Function.update es k new b) :
    a = b := by
  rcases mem_forked hx with ⟨ha, hx'⟩ | ⟨-, hx'⟩ <;>
    rcases mem_forked hy with ⟨hb, hy'⟩ | ⟨-, hy'⟩
  · rw [ha, hb]
  · exact absurd (h.owned b x hy').1 (hf.fresh x hx')
  · exact absurd (h.owned a x hx').1 (hf.fresh x hy')
  · exact h.disjoint a b x hx' hy'

theorem ForkedEntries.apart (hf : ForkedEntries m m' es i new) (h : ListsInv m tasks es)
    {a b x y : ℕ} (hx : x ∈ Function.update es k new a) (hy : y ∈ Function.update es k new b) :
    (m'.entries y).value ≠ x := by
  intro hyx
  -- the area of `y` is that of an entry there was before
  obtain ⟨c, z, hz, hzy⟩ : ∃ c z, z ∈ es c ∧ (m'.entries y).value = (m.entries z).value := by
    rcases mem_forked hy with ⟨-, hy'⟩ | ⟨-, hy'⟩
    · obtain ⟨z, hz, hzy⟩ := hf.value y hy'
      exact ⟨i, z, hz, hzy⟩
    · exact ⟨b, y, hy', hf.old b y hy'⟩
  rw [hzy] at hyx
  rcases mem_forked hx with ⟨-, hx'⟩ | ⟨-, hx'⟩
  · exact hf.fresh x hx' (hyx ▸ (h.owned c z hz).2)
  · exact h.apart a c x z hx' hz hyx

theorem ForkedEntries.owned (hf : ForkedEntries m m' es i new) (h : ListsInv m tasks es)
    {j x : ℕ} (hx : x ∈ Function.update es k new j) :
    x ∈ m'.blocks ∧ (m'.entries x).value ∈ m'.blocks := by
  rcases mem_forked hx with ⟨-, hx'⟩ | ⟨-, hx'⟩
  · obtain ⟨z, hz, hzx⟩ := hf.value x hx'
    rw [hzx]
    exact ⟨hf.used x hx', hf.blocks _ (h.owned i z hz).2⟩
  · rw [hf.old j x hx']
    exact ⟨hf.blocks _ (h.owned j x hx').1, hf.blocks _ (h.owned j x hx').2⟩

end Forked

/-- The child's list has entries of its own, with the areas of the parent's. -/
theorem ListsInv.fork {tasks : List VmTask} {es : ℕ → List ℕ} {i self pgd : ℕ} {t t' : VmTask}
    {blks : List ℕ} (h : ListsInv m tasks es) (ht : tasks[i]? = some t)
    (hfresh : ∀ b ∈ blks, b ≠ 0 ∧ b ∉ m.blocks) (hnd : blks.Nodup)
    (hc : forkVmAreas blks m t self pgd = some (m', t')) :
    ∃ new, ListsInv m' (tasks ++ [t']) (Function.update es tasks.length new) ∧
      (∀ x ∈ new, ∃ y ∈ es i, (m'.entries x).value = (m.entries y).value) ∧
      (∀ j x, x ∈ es j → (m'.entries x).value = (m.entries x).value) ∧
      m'.areas = m.areas ∧ t'.pgd = pgd ∧
      new.map (fun x => (m'.entries x).value) = (es i).map fun x => (m.entries x).value := by
  unfold forkVmAreas at hc
  cases hL : t.vmAreas with
  | none => simp [hL] at hc
  | some L =>
    rw [hL] at hc
    cases hf : forkAreas blks m listInit L.first with
    | none => simp [hf] at hc
    | some q =>
      simp only [hf, Option.some.injEq, Prod.mk.injEq] at hc
      obtain ⟨rfl, rfl⟩ := hc
      have hps : Chain (fun x => (m.entries x).next) L.first (es i) := by
        rw [← VmTask.list_some hL]
        exact (h.rep i t ht).chain
      obtain ⟨new, hcop, hsub⟩ := forkAreas_spec hps (listRep_init _) hfresh hnd
        (fun x hx => (h.owned i x (by simpa using hx)).1) (by simp) hf
      have hentries : ForkedEntries m q.1 es i new := by
        refine ⟨fun x hx => (hfresh x (hsub x hx)).2, hcop.used, fun x hx => ?_,
          fun j x hx => hcop.value x (h.owned j x hx).1, hcop.blocks⟩
        obtain ⟨y, hy, hyx⟩ := List.mem_map.1 (hcop.copies ▸ List.mem_map_of_mem hx)
        exact ⟨y, hy, hyx.symm⟩
      have hlinks : ∀ j x, x ∈ es j → (q.1.entries x).next = (m.entries x).next ∧
          (q.1.entries x).prev = (m.entries x).prev := fun j x hx =>
        hcop.links x (h.owned j x hx).1 (h.ne_zero hx) (by simp)
      refine ⟨new, ⟨h.rep_append (by simpa [VmTask.list] using hcop.rep) hlinks, fun j hj => ?_,
        fun _ _ _ hx hy => hentries.disjoint h hx hy,
        fun _ _ _ _ hx hy => hentries.apart h hx hy,
        fun _ _ hx => hentries.owned h hx⟩, hentries.value, hentries.old, hcop.areas, rfl,
        hcop.copies⟩
      rw [List.getElem?_eq_none_iff, List.length_append, List.length_singleton] at hj
      rw [Function.update_of_ne (by omega)]
      exact h.absent j (List.getElem?_eq_none_iff.2 (by omega))

end Fork

end DepthOS
