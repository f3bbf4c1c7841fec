import Mathlib.Data.Set.Card
import DepthOS.Proofs.VmLists

/-! `n_proc` against the lists that hold an area. `vma_create` sets it to 1 and
`vma_dispose` counts down, but `fork_task` copies the pointers and counts
nothing, and a `vma_create` below a listed area puts its entry in that area's
place. As long as no step does either, every allocated area is in exactly one
list, once. -/

namespace DepthOS

open Lib

/-- `n_proc` of every allocated area is the number of tasks whose list contains
it, and no list contains an area that has been deallocated. -/
structure CountsExact (s : VmSystem) : Prop where
  count : ∀ a ∈ s.live, (s.mem.areas a).nProc = ({i | Listed s i a}.ncard : ℤ)
  held : ∀ i a, Listed s i a → a ∈ s.live

/-- Every listed area that starts above the new one overlaps it or comes after one
that does. -/
def NoneDisplaced (m : VmMem) (es : List ℕ) (new : VmArea) : Prop :=
  ∀ l x r, es = l ++ x :: r → new.addr < (areaAt m x).addr →
    ∃ y ∈ l ++ [x], vmaOverlap (areaAt m y) new = true

/-- The steps that keep the counts: a create that fails or finds nothing above it,
a fork of a task without areas, any dispose. -/
def Counted (s : VmSystem) (e : VmEvent) : Prop :=
  match e with
  | .create i addr size flags _ _ => addr % PAGE_SIZE = 0 → ∀ t es, s.tasks[i]? = some t →
    Chain (fun x => (s.mem.entries x).next) t.first es →
    NoneDisplaced s.mem es (vmaNew t addr size flags)
  | .fork i _ _ _ => ∀ t, s.tasks[i]? = some t → t.first = 0
  | .dispose _ _ _ => True

/-- The runs in which every step keeps the counts. -/
def CountedRun : List VmEvent → VmSystem → Prop :=
  Run VmSystemBoot fun s e s' => VmStep s e s' ∧ Counted s e

/-- Every allocated area is in one list, once, with a count of 1. -/
structure SystemInv (s : VmSystem) (es : ℕ → List ℕ) : Prop where
  lists : ListsInv s.mem s.tasks es
  distinct : ∀ i j x y, x ∈ es i → y ∈ es j →
    (s.mem.entries x).value = (s.mem.entries y).value → i = j ∧ x = y
  live : ∀ a, a ∈ s.live ↔ ∃ i, ∃ x ∈ es i, (s.mem.entries x).value = a
  count : ∀ i x, x ∈ es i → (areaAt s.mem x).nProc = 1

theorem systemInv_boot {s : VmSystem} (h : VmSystemBoot s) : SystemInv s fun _ => [] :=
  ⟨listsInv_empty h.1, by simp, by simp [h.2], by simp⟩

section Inv

variable {s s' : VmSystem} {es : ℕ → List ℕ} {i : ℕ} {t t' : VmTask}

theorem SystemInv.listed (h : SystemInv s es) {a : ℕ} :
    Listed s i a ↔ ∃ x ∈ es i, (s.mem.entries x).value = a := by
  constructor
  · rintro ⟨t, es', ht, hc, x, hx, hxa⟩
    rw [hc.unique (h.lists.chain ht)] at hx
    exact ⟨x, hx, hxa⟩
  · rintro ⟨x, hx, hxa⟩
    cases ht : s.tasks[i]? with
    | none => simp [h.lists.absent i ht] at hx
    | some t => exact ⟨t, es i, ht, h.lists.chain ht, x, hx, hxa⟩

theorem SystemInv.countsExact (h : SystemInv s es) : CountsExact s := by
  constructor
  · intro a ha
    obtain ⟨i, x, hx, rfl⟩ := (h.live a).1 ha
    have hone : {j | Listed s j (s.mem.entries x).value} = {i} := by
      ext j
      change Listed s j _ ↔ j = i
      rw [h.listed]
      constructor
      · rintro ⟨y, hy, hyx⟩
        exact (h.distinct j i y x hy hx hyx).1
      · rintro rfl
        exact ⟨x, hx, rfl⟩
    rw [hone, Set.ncard_singleton]
    exact h.count i x hx
  · intro i a hl
    rw [h.live]
    exact ⟨i, h.listed.1 hl⟩

/-- A `vma_create` that displaces nothing fails or pushes its entry. -/
theorem create_pushes {m m' : VmMem} {l : List ℕ} {addr size flags vma entry fuel : ℕ}
    {ret : Except Errno ℕ} (hrep : ListRep m.entries t.list l)
    (hown : ∀ x ∈ l, (m.entries x).value ∈ m.blocks) (hv : vma ∉ m.blocks)
    (hord : addr % PAGE_SIZE = 0 → NoneDisplaced m l (vmaNew t addr size flags))
    (hc : vmaCreate fuel m t addr size flags vma entry = some (ret, m', t')) :
    (∃ e, ret = .error e ∧ m'.entries = m.entries ∧ (∀ p, p ≠ vma → m'.areas p = m.areas p) ∧
      (∀ p ∈ m.blocks, p ∈ m'.blocks) ∧ t' = t) ∨
    (ret = .ok vma ∧ (m', t') = vmaInsert (allocated m vma (vmaNew t addr size flags)) t t.list
      (lastOr 0 l) (headOr [] 0) vma entry) := by
  rcases create_inserts hrep hown hv hc with hfail | ⟨hret, hal, l₁, k, r, rfl, heq, -, hk⟩
  · exact Or.inl hfail
  · rcases hk with ⟨rfl, rfl⟩ | ⟨y, rfl, hlt, hno⟩
    · exact Or.inr ⟨hret, by simpa using heq⟩
    · -- the area the walk stopped at is one the condition rules out
      obtain ⟨x, hx, hov⟩ := hord hal l₁ y r rfl hlt
      rw [hno x hx] at hov
      simp at hov

theorem pushed_inv (h : SystemInv s es) (ht : s.tasks[i]? = some t)
    {addr size flags vma entry : ℕ} (hfr : FreshBlocks s.mem vma entry)
    (heq : (s'.mem, t') = vmaInsert (allocated s.mem vma (vmaNew t addr size flags)) t t.list
      (lastOr 0 (es i)) (headOr [] 0) vma entry)
    (htasks : s'.tasks = s.tasks.set i t') (hlive : s'.live = vma :: s.live) :
    SystemInv s' (Function.update es i (es i ++ ([entry] ++ []))) := by
  have hes : es i = es i ++ ([] ++ []) := by simp
  obtain ⟨hlists, hins⟩ := h.lists.insert ht hes hfr heq
  have hmem : ∀ j x, x ∈ es j → x ∈ Function.update es i (es i ++ ([entry] ++ [])) j := by
    intro j x hx
    by_cases hj : j = i
    · subst hj
      simp [hx]
    · simpa [hj] using hx
  have hnew : entry ∈ Function.update es i (es i ++ ([entry] ++ [])) i := by simp
  refine ⟨by rw [htasks]; exact hlists, ?_, ?_, ?_⟩
  · intro a b x y hx hy hxy
    rcases mem_inserted hes hx with ⟨rfl, rfl⟩ | hx'
    · rcases mem_inserted hes hy with ⟨rfl, rfl⟩ | hy'
      · exact ⟨rfl, rfl⟩
      · rw [(hins.old b y hy').1, hins.value] at hxy
        exact absurd hxy.symm (hins.old b y hy').2.1
    · rcases mem_inserted hes hy with ⟨rfl, rfl⟩ | hy'
      · rw [(hins.old a x hx').1, hins.value] at hxy
        exact absurd hxy (hins.old a x hx').2.1
      · rw [(hins.old a x hx').1, (hins.old b y hy').1] at hxy
        exact h.distinct a b x y hx' hy' hxy
  · intro a
    rw [hlive, List.mem_cons, h.live]
    constructor
    · rintro (rfl | ⟨j, x, hx, rfl⟩)
      · exact ⟨i, entry, hnew, hins.value⟩
      · exact ⟨j, x, hmem j x hx, (hins.old j x hx).1⟩
    · rintro ⟨j, x, hx, rfl⟩
      rcases mem_inserted hes hx with ⟨rfl, rfl⟩ | hx'
      · exact Or.inl hins.value
      · exact Or.inr ⟨j, x, hx', (hins.old j x hx').1.symm⟩
  · intro j x hx
    unfold areaAt
    rcases mem_inserted hes hx with ⟨rfl, rfl⟩ | hx'
    · rw [hins.value, hins.areas, Function.update_self]
      rfl
    · obtain ⟨h1, h2, -⟩ := hins.old j x hx'
      rw [h1, hins.areas, Function.update_of_ne h2]
      exact h.count j x hx'

theorem SystemInv.congr (h : SystemInv s es) (hlists : ListsInv s'.mem s'.tasks es)
    (hE : s'.mem.entries = s.mem.entries)
    (hA : ∀ p ∈ s.mem.blocks, s'.mem.areas p = s.mem.areas p)
    (hlive : ∀ a, a ∈ s'.live ↔ a ∈ s.live) : SystemInv s' es := by
  refine ⟨hlists, by rw [hE]; exact h.distinct, fun a => ?_, fun i x hx => ?_⟩
  · rw [hlive, hE]
    exact h.live a
  · unfold areaAt
    rw [hE, hA _ (h.lists.owned i x hx).2]
    exact h.count i x hx

theorem create_system (h : SystemInv s es) {addr size flags vma entry : ℕ}
    (hs : VmStep s (.create i addr size flags vma entry) s')
    (hok : Counted s (.create i addr size flags vma entry)) : ∃ es, SystemInv s' es := by
  obtain ⟨hfr, t, t', fuel, ret, ht, hc, htasks, hlive⟩ := hs
  have hord := fun hal => hok hal t (es i) ht (h.lists.chain ht)
  rcases create_pushes (h.lists.rep i t ht) (fun x hx => (h.lists.owned i x hx).2) hfr.vma_new hord
    hc with ⟨e, rfl, hE, hA, hB, rfl⟩ | ⟨rfl, heq⟩
  · rw [set_same ht] at htasks
    refine ⟨es, h.congr ?_ hE (fun p hp => hA p fun hpv => hfr.vma_new (hpv ▸ hp)) fun a => ?_⟩
    · rw [htasks]
      exact h.lists.congr_mem hE hB
    · rw [hlive]
  · exact ⟨_, pushed_inv h ht hfr heq htasks hlive⟩

theorem fork_system (h : SystemInv s es) {self pgd : ℕ} {blks : List ℕ}
    (hs : VmStep s (.fork i self pgd blks) s') (hok : Counted s (.fork i self pgd blks)) :
    ∃ es, SystemInv s' es := by
  obtain ⟨hfresh, hnd, t, t', ht, hc, htasks, hlive⟩ := hs
  have hnil : es i = [] := (h.lists.chain ht).unique (show Chain _ t.first [] from hok t ht)
  obtain ⟨new, hlists, hvalue, hold, hareas, -⟩ := h.lists.fork ht hfresh hnd hc
  -- there was nothing to copy
  obtain rfl : new = [] := by
    rw [List.eq_nil_iff_forall_not_mem]
    intro x hx
    obtain ⟨y, hy, -⟩ := hvalue x hx
    simp [hnil] at hy
  have habs : es s.tasks.length = [] := h.lists.absent _ (by simp)
  rw [← habs, Function.update_eq_self, ← htasks] at hlists
  refine ⟨es, hlists, fun a b x y hx hy hxy => ?_, fun a => ?_, fun j x hx => ?_⟩
  · rw [hold a x hx, hold b y hy] at hxy
    exact h.distinct a b x y hx hy hxy
  · rw [hlive, h.live]
    constructor
    · rintro ⟨j, x, hx, rfl⟩
      exact ⟨j, x, hx, hold j x hx⟩
    · rintro ⟨j, x, hx, rfl⟩
      exact ⟨j, x, hx, (hold j x hx).symm⟩
  · unfold areaAt
    rw [hold j x hx, hareas]
    exact h.count j x hx

/-- The last reference goes with its area: the block is freed as the only list
that held it lets go of it. -/
theorem dispose_system (h : SystemInv s es) {area : ℕ} {stale : ℤ}
    (hs : VmStep s (.dispose i area stale) s') : ∃ es, SystemInv s' es := by
  obtain ⟨t, t', fuel, call, ht, hc, htasks, hlive⟩ := hs
  rcases dispose_removes (h.lists.rep i t ht) hc with
    ⟨-, hm, rfl⟩ | ⟨l, item, r, hes, rfl, hE, ht', hA, hB⟩
  · rw [set_same ht] at htasks
    refine ⟨es, h.congr ?_ (by rw [hm]) (fun p _ => by rw [hm]) fun a => ?_⟩
    · rw [htasks, hm]
      exact h.lists
    · rw [hlive, List.mem_filter, hm, and_iff_left_iff_imp, decide_eq_true_eq, h.live]
      rintro ⟨j, x, hx, rfl⟩
      exact (h.lists.owned j x hx).2
  · have hitem : item ∈ es i := by simp [hes]
    have hone : (s.mem.areas (s.mem.entries item).value).nProc = 1 := h.count i item hitem
    rw [hone, if_pos (by norm_num)] at hB
    have hleft : ∀ j x, x ∈ es j → x ≠ item →
        (s.mem.entries x).value ≠ (s.mem.entries item).value := by
      intro j x hx hne hv
      exact hne (h.distinct j i x item hx hitem hv).2
    have hmem := fun {x j} => mem_removed h.lists ht hes (x := x) (j := j)
    obtain ⟨hlists, hvalue⟩ := h.lists.remove ht hes hE ht' (fun j x hx hne => by
      obtain ⟨h1, h2⟩ := h.lists.owned j x hx
      have h3 := (h.lists.apart j i x item hx hitem).symm
      have h4 := hleft j x hx hne
      rw [hB]
      simp [h1, h2, h3, h4])
    rw [← htasks] at hlists
    refine ⟨_, hlists, fun a b x y hx hy hxy => ?_, fun a => ?_, fun j x hx => ?_⟩
    · rw [hvalue, hvalue] at hxy
      exact h.distinct a b x y (hmem.1 hx).1 (hmem.1 hy).1 hxy
    · simp only [hvalue, hlive, hB, List.mem_filter, decide_eq_true_eq, h.live]
      constructor
      · rintro ⟨⟨j, x, hx, rfl⟩, -, hne⟩
        exact ⟨j, x, hmem.2 ⟨hx, fun hxi => hne (by rw [hxi])⟩, rfl⟩
      · rintro ⟨j, x, hx, rfl⟩
        obtain ⟨hx, hne⟩ := hmem.1 hx
        exact ⟨⟨j, x, hx, rfl⟩, (h.lists.owned j x hx).2, hleft j x hx hne⟩
    · obtain ⟨hx, hne⟩ := hmem.1 hx
      unfold areaAt
      rw [hvalue, hA _ (hleft j x hx hne)]
      exact h.count j x hx

end Inv

theorem systemInv_run {evs : List VmEvent} {s : VmSystem} (h : CountedRun evs s) :
    ∃ es, SystemInv s es := by
  refine Run.invariant (fun s => ∃ es, SystemInv s es) (fun _ hb => ⟨_, systemInv_boot hb⟩) ?_ h
  rintro s e s' ⟨es, hi⟩ ⟨hs, hok⟩
  cases e with
  | create i addr size flags vma entry => exact create_system hi hs hok
  | fork i self pgd blks => exact fork_system hi hs hok
  | dispose i area stale => exact dispose_system hi hs

/-- In every run whose steps keep the counts, the counts are exact. -/
theorem nProc_exact {evs : List VmEvent} {s : VmSystem} (h : CountedRun evs s) : CountsExact s := by
  obtain ⟨es, hi⟩ := systemInv_run h
  exact hi.countsExact

/-- One task, nothing mapped. -/
def vmSystem0 : VmSystem :=
  ⟨⟨fun _ => ⟨0, 0, 0⟩, fun _ => ⟨0, 0, 0, 0, 0, 0, 0, 0, 0, 0, 0, 0⟩, []⟩, [⟨1, 1, some listInit⟩], []⟩

theorem counted_of_empty {s : VmSystem} {i : ℕ} (addr size flags vma entry : ℕ)
    (h : ∀ t, s.tasks[i]? = some t → t.first = 0) :
    Counted s (.create i addr size flags vma entry) := by
  rintro - t es ht hc l x r rfl
  have hnil := hc.unique (show Chain _ t.first [] from h t ht)
  simp at hnil

/-- A fork before anything is mapped, an area in each task, and one disposed again. -/
theorem nProc_exact_forked : ∃ s, CountedRun [.fork 0 2 2 [], .create 0 0x2000 0x1000 0 100 101,
    .create 1 0x2000 0x1000 0 102 103, .dispose 0 100 7] s ∧ s.live = [102] ∧ CountsExact s := by
  have h0 : CountedRun [] vmSystem0 := Run.nil ⟨by simp [vmSystem0], rfl⟩
  have h1 := h0.snoc (show VmStep _ (.fork 0 2 2 []) ⟨_, _, _⟩ ∧ Counted _ (.fork 0 2 2 []) from
    ⟨⟨by simp, by simp, _, _, rfl, rfl, rfl, rfl⟩, by rintro t ⟨⟩; rfl⟩)
  have h2 := h1.snoc (show VmStep _ (.create 0 0x2000 0x1000 0 100 101) ⟨_, _, _⟩ ∧
      Counted _ (.create 0 0x2000 0x1000 0 100 101) from
    ⟨⟨⟨by decide, by decide, by decide, by decide, by decide⟩, _, _, 3, .ok 100, rfl, rfl, rfl, rfl⟩,
      counted_of_empty _ _ _ _ _ (by rintro t ⟨⟩; rfl)⟩)
  have h3 := h2.snoc (show VmStep _ (.create 1 0x2000 0x1000 0 102 103) ⟨_, _, _⟩ ∧
      Counted _ (.create 1 0x2000 0x1000 0 102 103) from
    ⟨⟨⟨by decide, by decide, by decide, by decide, by decide⟩, _, _, 3, .ok 102, rfl, rfl, rfl, rfl⟩,
      counted_of_empty _ _ _ _ _ (by rintro t ⟨⟩; rfl)⟩)
  have h4 := h3.snoc (show VmStep _ (.dispose 0 100 7) ⟨_, _, [102]⟩ ∧
      Counted _ (.dispose 0 100 7) from ⟨⟨_, _, 3, _, rfl, rfl, rfl, by decide⟩, trivial⟩)
  exact ⟨_, h4, rfl, nProc_exact h4⟩

/-- A mapped area and a fork: `n_proc` is 1 in two lists, and when the child
disposes of the area it is freed under the parent. -/
theorem fork_uncounted : ∃ s s',
    VmSystemRun [.create 0 0x2000 0x1000 0 100 101, .fork 0 2 2 [102]] s ∧ ¬ CountsExact s ∧
    VmSystemRun [.create 0 0x2000 0x1000 0 100 101, .fork 0 2 2 [102], .dispose 1 100 7] s' ∧
    Listed s' 0 100 ∧ 100 ∉ s'.live := by
  have h0 : VmSystemRun [] vmSystem0 := Run.nil ⟨by simp [vmSystem0], rfl⟩
  have h1 := h0.snoc (show VmStep _ (.create 0 0x2000 0x1000 0 100 101) ⟨_, _, _⟩ from
    ⟨⟨by decide, by decide, by decide, by decide, by decide⟩, _, _, 3, .ok 100, rfl, rfl, rfl, rfl⟩)
  have h2 := h1.snoc (show VmStep _ (.fork 0 2 2 [102]) ⟨_, _, _⟩ from
    ⟨by decide, by simp, _, _, rfl, rfl, rfl, rfl⟩)
  have h3 := h2.snoc (show VmStep _ (.dispose 1 100 7) ⟨_, _, []⟩ from
    ⟨_, _, 3, _, rfl, rfl, rfl, by decide⟩)
  refine ⟨_, _, h2, ?_, h3, ?_, by simp⟩
  · rintro ⟨hcount, -⟩
    have hone : ({i | Listed _ i 100}.ncard : ℤ) = 1 := (hcount 100 (by decide)).symm
    obtain ⟨k, hk⟩ := Set.ncard_eq_one.1 (by exact_mod_cast hone)
    have hmem0 : 0 ∈ ({k} : Set ℕ) := by
      rw [← hk]
      exact ⟨_, [101], rfl, ⟨rfl, by decide, rfl⟩, 101, by simp, rfl⟩
    have hmem1 : 1 ∈ ({k} : Set ℕ) := by
      rw [← hk]
      exact ⟨_, [102], rfl, ⟨rfl, by decide, rfl⟩, 102, by simp, rfl⟩
    simp only [Set.mem_singleton_iff] at hmem0 hmem1
    omega
  · exact ⟨_, [101], rfl, ⟨rfl, by decide, rfl⟩, 101, by simp, rfl⟩

end DepthOS
