import DepthOS.Proofs.Stack
import DepthOS.Proofs.VmLists
import DepthOS.Spec.Fault

/-! The areas that `mmap` and `fork` can put into the lists of the tasks: where
they lie, how many pages they count, and whose directory they name. -/

namespace DepthOS

open Lib

/-- The pages `ceil_div` finds: from 2 GiB on its argument is negative, and the result
is read as a very large number. -/
theorem ceilDivInt_pages {n : ℕ} (hn : n ≤ 0xFFFE0001) :
    (n < 2147483648 → sizeT (ceilDivInt (s32 n) PAGE_SIZE) = (n + 4095) / 4096) ∧
    (2147483648 ≤ n → 1048576 ≤ sizeT (ceilDivInt (s32 n) PAGE_SIZE)) := by
  have hu : u32 n = n := u32_of_lt (by omega)
  constructor
  · intro hlt
    have hs : s32 n = (n : ℤ) := by rw [s32, hu, if_pos hlt]
    have hd : Int.tdiv (n : ℤ) 4096 = (n : ℤ) / 4096 := Int.tdiv_eq_ediv_of_nonneg (by omega)
    have hm : Int.tmod (n : ℤ) 4096 = (n : ℤ) % 4096 := Int.tmod_eq_emod_of_nonneg (by omega)
    rw [hs, ceilDivInt, Nat.cast_ofNat, hd, hm, sizeT]
    split_ifs <;> omega
  · intro hge
    obtain ⟨k, hk⟩ : ∃ k : ℕ, 4294967296 - n = k := ⟨_, rfl⟩
    have hs : s32 n = -(k : ℤ) := by
      rw [s32, hu, if_neg (by omega)]
      omega
    have hd : Int.tdiv (-(k : ℤ)) 4096 = -((k : ℤ) / 4096) := by
      rw [Int.neg_tdiv, Int.tdiv_eq_ediv_of_nonneg (by omega)]
    rw [hs, ceilDivInt, Nat.cast_ofNat, hd, sizeT]
    split_ifs <;> omega

/-- The page of any byte below `n` is counted. -/
theorem lt_ceilDivInt {n x : ℕ} (hn : n ≤ 0xFFFE0001) (hx : x < n) :
    x / PAGE_SIZE < sizeT (ceilDivInt (s32 n) PAGE_SIZE) := by
  obtain ⟨hsmall, hlarge⟩ := ceilDivInt_pages hn
  simp only [PAGE_SIZE] at *
  rcases Nat.lt_or_ge n 2147483648 with h | h
  · rw [hsmall h]
    omega
  · have := hlarge h
    omega

/-- What holds of every listed area, however it was created. -/
structure AreaOk (a : VmArea) : Prop where
  aligned : a.addr % PAGE_SIZE = 0
  size_le : a.size ≤ VIRT_BASE
  user : a.addr + pgRndUp a.size ≤ VIRT_BASE
  cover : a.nPages ≠ 0 → ∀ x < a.size, a.limit = 0 ∨ x < a.limit → x / PAGE_SIZE < a.nPages
  clamped : a.physAddr ≠ 0 → a.nPages * PAGE_SIZE ≤ pgRndUp a.size
  anon : a.flags &&& MAP_ANON ≠ 0 → a.physAddr = 0 ∧ a.ops = 0 ∧ a.limit = 0 ∧
    a.nPages = sizeT (ceilDivInt (s32 a.size) PAGE_SIZE)
  limit_lt : a.limit < 4294967296

/-- Rounding up to pages, where nothing wraps. -/
theorem pgRndUp_bounds {n : ℕ} (h : n ≤ VIRT_BASE) :
    n ≤ pgRndUp n ∧ pgRndUp n % 4096 = 0 ∧ pgRndUp n < n + 4096 := by
  simp only [pgRndUp, roundUp, u32, PAGE_SIZE, VIRT_BASE] at *
  omega

theorem areaOk_new {addr size flags : ℕ} (t : VmTask) (hal : addr % PAGE_SIZE = 0)
    (hsize : size ≤ VIRT_BASE) (hu : addr + pgRndUp size ≤ VIRT_BASE) :
    AreaOk (vmaNew t addr size flags) := by
  refine ⟨hal, hsize, hu, fun _ x hx _ => lt_ceilDivInt ?_ hx, fun h => absurd rfl h,
    fun _ => ⟨rfl, rfl, rfl, rfl⟩, by norm_num [vmaNew]⟩
  simp only [VIRT_BASE] at hsize
  omega

/-- The last step of `vma_map_file`: no more pages than the area has. -/
theorem areaOk_clamp {a : VmArea} (hal : a.addr % PAGE_SIZE = 0) (hsize : a.size ≤ VIRT_BASE)
    (hu : a.addr + pgRndUp a.size ≤ VIRT_BASE) (hflag : a.flags &&& MAP_ANON = 0)
    (hlim : a.limit < 4294967296)
    (hcover : a.nPages ≠ 0 → ∀ x < a.size, a.limit = 0 ∨ x < a.limit → x / PAGE_SIZE < a.nPages) :
    AreaOk { a with nPages := if a.nPages > pgRndUp a.size / PAGE_SIZE
                              then pgRndUp a.size / PAGE_SIZE else a.nPages } := by
  obtain ⟨h1, h2, -⟩ := pgRndUp_bounds hsize
  refine ⟨hal, hsize, hu, fun hn x hx hl => ?_, fun _ => ?_, fun hf => absurd hflag hf, hlim⟩
  · change x < a.size at hx
    change (if a.nPages > pgRndUp a.size / PAGE_SIZE then _ else a.nPages) ≠ 0 at hn
    change x / PAGE_SIZE < if a.nPages > pgRndUp a.size / PAGE_SIZE then _ else a.nPages
    split_ifs at hn ⊢
    · simp only [PAGE_SIZE]
      omega
    · exact hcover hn x hx hl
  · change (if a.nPages > pgRndUp a.size / PAGE_SIZE then _ else a.nPages) * PAGE_SIZE ≤ _
    simp only [PAGE_SIZE]
    split_ifs <;> omega

theorem fbLimit_le (pitch height : ℕ) : u32 (u16 pitch * u16 height) ≤ 0xFFFE0001 := by
  have h1 : u16 pitch ≤ 65535 := Nat.le_of_lt_succ (Nat.mod_lt _ (by norm_num))
  have h2 : u16 height ≤ 65535 := Nat.le_of_lt_succ (Nat.mod_lt _ (by norm_num))
  exact (Nat.mod_le _ _).trans (Nat.mul_le_mul h1 h2)

theorem mapNode_ok {node : ℕ} {op : MmapOp} {a : VmArea} {offset : ℤ} (h : AreaOk a)
    (hflag : a.flags &&& MAP_ANON = 0) (hret : (mapNode node op a offset).1 = .ok ()) :
    AreaOk (mapNode node op a offset).2 ∧ (mapNode node op a offset).2.pgd = a.pgd := by
  by_cases hoff : offset % PAGE_SIZE ≠ 0
  · simp only [mapNode, if_pos hoff, reduceCtorEq] at hret
  · cases op with
    | ext2 =>
      simp only [mapNode, if_neg hoff, MmapOp.run, ne_eq, not_true_eq_false, if_false]
      exact ⟨areaOk_clamp (a := { a with file := node, fileOff := sizeT offset, ops := EXT2_MMAP_OPS })
        h.aligned h.size_le h.user hflag h.limit_lt h.cover, trivial⟩
    | devfs =>
      simp only [mapNode, if_neg hoff, MmapOp.run] at hret
      simp at hret
    | framebuffer physAddr pitch height =>
      have hlim := fbLimit_le pitch height
      simp only [mapNode, if_neg hoff, MmapOp.run, ne_eq, not_true_eq_false, if_false]
      refine ⟨areaOk_clamp h.aligned h.size_le h.user hflag ?_ fun hn x _ hl => ?_, rfl⟩
      · change u32 (u16 pitch * u16 height) < _
        omega
      · change u32 (u16 pitch * u16 height) = 0 ∨ x < u32 (u16 pitch * u16 height) at hl
        rcases hl with hl | hl
        · -- a framebuffer of length zero has no pages
          refine absurd ?_ hn
          simp only [multibootFbMmap, hl]
          decide
        · exact lt_ceilDivInt hlim hl

theorem mapFileArea_ok {table : ℤ → Option MmapFile} {a : VmArea} {fd offset : ℤ} (h : AreaOk a)
    (hflag : a.flags &&& MAP_ANON = 0) (hret : (mapFileArea table a fd offset).1 = .ok ()) :
    AreaOk (mapFileArea table a fd offset).2 ∧ (mapFileArea table a fd offset).2.pgd = a.pgd := by
  unfold mapFileArea at hret ⊢
  split_ifs at hret ⊢
  match hf : table fd with
  | none => simp [hf] at hret
  | some ⟨_, none⟩ => simp [hf] at hret
  | some ⟨node, some op⟩ =>
    simp only [hf] at hret ⊢
    exact mapNode_ok h hflag hret

/-- The lists are apart, and every area in them is in order and names the directory of
one of the tasks. -/
structure AreasInv (m : VmMem) (tasks : List VmTask) (es : ℕ → List ℕ) : Prop where
  lists : ListsInv m tasks es
  ok : ∀ i x, x ∈ es i → AreaOk (areaAt m x)
  pgd : ∀ i x, x ∈ es i → (areaAt m x).pgd ∈ tasks.map VmTask.pgd

/-- No list holds an area twice. -/
def NoneTwice (m : VmMem) (es : ℕ → List ℕ) : Prop :=
  ∀ i x y, x ∈ es i → y ∈ es i → (m.entries x).value = (m.entries y).value → x = y

section Create

variable {m m' : VmMem} {tasks : List VmTask} {es : ℕ → List ℕ} {i : ℕ} {t t' : VmTask}
  {addr size flags vma entry fuel : ℕ} {ret : Except Errno ℕ}

theorem map_pgd_set (ht : tasks[i]? = some t) (hp : t'.pgd = t.pgd) :
    (tasks.set i t').map VmTask.pgd = tasks.map VmTask.pgd := by
  rw [List.map_set, hp]
  apply set_same
  rw [List.getElem?_map, ht]
  rfl

/-- The new area of a successful `vma_create`: one entry holds it, and no other does. -/
structure NewArea (m' : VmMem) (es' : ℕ → List ℕ) (i vma entry : ℕ) (new : VmArea) : Prop where
  mem : entry ∈ es' i
  value : (m'.entries entry).value = vma
  only : ∀ j x, x ∈ es' j → x ≠ entry → (m'.entries x).value ≠ vma
  area : m'.areas vma = new

theorem create_areas (h : AreasInv m tasks es) (ht : tasks[i]? = some t)
    (hfr : FreshBlocks m vma entry)
    (hok : addr % PAGE_SIZE = 0 → AreaOk (vmaNew t addr size flags))
    (hc : vmaCreate fuel m t addr size flags vma entry = some (ret, m', t')) :
    t'.pgd = t.pgd ∧ ∃ es', AreasInv m' (tasks.set i t') es' ∧
      (NoneTwice m es → NoneTwice m' es') ∧
      ((∃ e, ret = .error e) ∨
        (ret = .ok vma ∧ NewArea m' es' i vma entry (vmaNew t addr size flags))) := by
  rcases create_inserts (h.lists.rep i t ht) (fun x hx => (h.lists.owned i x hx).2) hfr.vma_new hc with
    ⟨e, rfl, hE, hA, hB, rfl⟩ | ⟨rfl, hal, l, k, r, hes, heq, -⟩
  · refine ⟨rfl, es, ?_, fun hd => by unfold NoneTwice; rwa [hE], Or.inl ⟨e, rfl⟩⟩
    have harea : ∀ j x, x ∈ es j → areaAt m' x = areaAt m x := by
      intro j x hx
      unfold areaAt
      rw [hE]
      exact hA _ fun hv => hfr.vma_new (hv ▸ (h.lists.owned j x hx).2)
    rw [set_same ht]
    refine ⟨h.lists.congr_mem hE hB, fun j x hx => ?_, fun j x hx => ?_⟩
    · rw [harea j x hx]
      exact h.ok j x hx
    · rw [harea j x hx]
      exact h.pgd j x hx
  · have hp : t'.pgd = t.pgd := congrArg (fun q => q.2.pgd) heq
    obtain ⟨hlists, hins⟩ := h.lists.insert ht hes hfr heq
    have harea : ∀ j x, x ∈ es j → areaAt m' x = areaAt m x := by
      intro j x hx
      obtain ⟨h1, h2, -⟩ := hins.old j x hx
      unfold areaAt
      rw [h1, hins.areas, Function.update_of_ne h2]
    have hnew : areaAt m' entry = vmaNew t addr size flags := by
      unfold areaAt
      rw [hins.value, hins.areas, Function.update_self]
    refine ⟨hp, _, ⟨hlists, fun j x hx => ?_, fun j x hx => ?_⟩, fun hd j x y hx hy hxy => ?_,
      Or.inr ⟨rfl, ?_⟩⟩
    · rcases mem_inserted hes hx with ⟨-, rfl⟩ | hx'
      · rw [hnew]
        exact hok hal
      · rw [harea j x hx']
        exact h.ok j x hx'
    · rw [map_pgd_set ht hp]
      rcases mem_inserted hes hx with ⟨-, rfl⟩ | hx'
      · rw [hnew]
        exact List.mem_map_of_mem (List.mem_of_getElem? ht)
      · rw [harea j x hx']
        exact h.pgd j x hx'
    · rcases mem_inserted hes hx with ⟨-, rfl⟩ | hx' <;>
        rcases mem_inserted hes hy with ⟨-, rfl⟩ | hy'
      · rfl
      · rw [hins.value, (hins.old j y hy').1] at hxy
        exact absurd hxy.symm (hins.old j y hy').2.1
      · rw [hins.value, (hins.old j x hx').1] at hxy
        exact absurd hxy (hins.old j x hx').2.1
      · rw [(hins.old j x hx').1, (hins.old j y hy').1] at hxy
        exact hd j x y hx' hy' hxy
    · refine ⟨by simp, hins.value, fun j x hx hne => ?_, by rw [hins.areas, Function.update_self]⟩
      rcases mem_inserted hes hx with ⟨-, hxe⟩ | hx'
      · exact absurd hxe hne
      · rw [(hins.old j x hx').1]
        exact (hins.old j x hx').2.1

end Create

section Mmap

variable {m m' : VmMem} {tasks : List VmTask} {es : ℕ → List ℕ} {i : ℕ} {t t' : VmTask}
  {fuel vma entry : ℕ} {new : VmArea}

theorem setArea_other (hn : NewArea m es i vma entry new) {j x : ℕ} (a : VmArea) (hx : x ∈ es j)
    (hne : x ≠ entry) : areaAt (m.setArea vma a) x = areaAt m x :=
  Function.update_of_ne (hn.only j x hx hne) _ _

theorem setArea_new (hn : NewArea m es i vma entry new) (a : VmArea) :
    areaAt (m.setArea vma a) entry = a := by
  change Function.update m.areas vma a (m.entries entry).value = a
  rw [hn.value, Function.update_self]

theorem AreasInv.setArea (h : AreasInv m tasks es) (hn : NewArea m es i vma entry new) {a : VmArea}
    (ha : AreaOk a) (hp : a.pgd ∈ tasks.map VmTask.pgd) : AreasInv (m.setArea vma a) tasks es := by
  refine ⟨h.lists.congr_mem rfl fun _ hb => hb, fun j x hx => ?_, fun j x hx => ?_⟩
  · by_cases hxe : x = entry
    · rw [hxe, setArea_new hn]
      exact ha
    · rw [setArea_other hn a hx hxe]
      exact h.ok j x hx
  · by_cases hxe : x = entry
    · rw [hxe, setArea_new hn]
      exact hp
    · rw [setArea_other hn a hx hxe]
      exact h.pgd j x hx

theorem dispose_pgd {area : ℕ} {stale : ℤ} {call : Option UnmapCall}
    (hc : vmaDispose fuel m t area stale = some (m', t', call)) : t'.pgd = t.pgd := by
  unfold vmaDispose at hc
  cases hL : t.vmAreas with
  | none => simp [hL] at hc
  | some L =>
    cases hw : vmaFind m.entries area fuel L.first with
    | none => simp [hL, hw] at hc
    | some item =>
      simp only [hL, hw] at hc
      by_cases h0 : item = 0
      · simp only [h0, if_true, Option.some.injEq, Prod.mk.injEq] at hc
        rw [← hc.2.1]
      · simp only [h0, if_false, Option.some.injEq, Prod.mk.injEq] at hc
        rw [← hc.2.1]

theorem dispose_areas {a : VmArea} {stale : ℤ} {call : Option UnmapCall} (h : AreasInv m tasks es)
    (ht : tasks[i]? = some t) (hn : NewArea m es i vma entry new)
    (hc : vmaDispose fuel (m.setArea vma a) t vma stale = some (m', t', call)) :
    t'.pgd = t.pgd ∧ ∃ es', AreasInv m' (tasks.set i t') es' ∧
      (NoneTwice m es → NoneTwice m' es') := by
  have hlists : ListsInv (m.setArea vma a) tasks es := h.lists.congr_mem rfl fun _ hb => hb
  have hp : t'.pgd = t.pgd := dispose_pgd hc
  rcases dispose_removes (hlists.rep i t ht) hc with
    ⟨hno, -, -⟩ | ⟨l, item, r, hes, hval, hE, ht', hA, hB⟩
  · exact absurd hn.value (hno entry hn.mem)
  · have hitem : item ∈ es i := by simp [hes]
    have hne : ∀ j x, x ∈ es j → x ≠ item → (m.entries x).value ≠ vma := by
      intro j x hx hxi
      refine hn.only j x hx fun hxe => hxi ?_
      by_contra hcon
      exact hn.only i item hitem (fun hie => hcon (hxe.trans hie.symm)) hval
    have hmem := fun {x j} => mem_removed hlists ht hes (x := x) (j := j)
    obtain ⟨hlists', hvalue⟩ := hlists.remove ht hes hE ht' (fun j x hx hxi => by
      obtain ⟨h1, h2⟩ := hlists.owned j x hx
      have h3 : x ≠ vma := fun hxv => hlists.apart j i x item hx hitem (hval.trans hxv.symm)
      have h4 := hne j x hx hxi
      rw [hB]
      split_ifs
      · simp only [List.mem_filter, decide_eq_true_eq]
        exact ⟨⟨h1, h3⟩, h2, h4⟩
      · exact ⟨h1, h2⟩)
    have harea : ∀ j x, x ∈ es j → x ≠ item → areaAt m' x = areaAt m x := by
      intro j x hx hxi
      have hv : (m'.entries x).value = (m.entries x).value := hvalue x
      unfold areaAt
      rw [hv, hA _ (hne j x hx hxi)]
      exact Function.update_of_ne (hne j x hx hxi) _ _
    refine ⟨hp, _, ⟨hlists', fun j x hx => ?_, fun j x hx => ?_⟩, fun hd j x y hx hy hxy => ?_⟩
    · rw [harea j x (hmem.1 hx).1 (hmem.1 hx).2]
      exact h.ok j x (hmem.1 hx).1
    · rw [harea j x (hmem.1 hx).1 (hmem.1 hx).2, map_pgd_set ht hp]
      exact h.pgd j x (hmem.1 hx).1
    · rw [hvalue, hvalue] at hxy
      exact hd j x y (hmem.1 hx).1 (hmem.1 hy).1 hxy

theorem mmapFile_areas {fd offset : ℤ} {env : MmapEnv} {ret : Except ℤ Unit} (h : AreasInv m tasks es)
    (ht : tasks[i]? = some t) (hn : NewArea m es i vma entry new)
    (hc : mmapFile fuel m t vma new.flags fd offset env = some (ret, m', t')) :
    t'.pgd = t.pgd ∧ ∃ es', AreasInv m' (tasks.set i t') es' ∧
      (NoneTwice m es → NoneTwice m' es') := by
  have hnew : areaAt m entry = new := by
    unfold areaAt
    rw [hn.value, hn.area]
  have hok : AreaOk new := hnew ▸ h.ok i entry hn.mem
  have hpgd : new.pgd ∈ tasks.map VmTask.pgd := hnew ▸ h.pgd i entry hn.mem
  unfold mmapFile at hc
  by_cases hfile : new.flags &&& MAP_ANON = 0 ∧ fd ≠ 0
  · rw [if_pos hfile, hn.area] at hc
    cases hret : (mapFileArea env.table new fd offset).1 with
    | ok u =>
      obtain ⟨hok', hp⟩ := mapFileArea_ok hok hfile.1 hret
      simp only [hret, Option.some.injEq, Prod.mk.injEq] at hc
      obtain ⟨-, rfl, rfl⟩ := hc
      rw [set_same ht]
      exact ⟨rfl, es, h.setArea hn hok' (by rw [hp]; exact hpgd), fun hd => hd⟩
    | error e =>
      cases hd : vmaDispose fuel (m.setArea vma (mapFileArea env.table new fd offset).2) t vma
          env.stale with
      | none => simp [hret, hd] at hc
      | some d =>
        simp only [hret, hd, Option.some.injEq, Prod.mk.injEq] at hc
        obtain ⟨-, rfl, rfl⟩ := hc
        exact dispose_areas h ht hn hd
  · rw [if_neg hfile] at hc
    simp only [Option.some.injEq, Prod.mk.injEq] at hc
    obtain ⟨-, rfl, rfl⟩ := hc
    rw [set_same ht]
    exact ⟨rfl, es, h, fun hd => hd⟩

theorem doMmap_areas {addr length flags : ℕ} {fd offset : ℤ} {env : MmapEnv}
    {ret : Except ℤ Unit} (h : AreasInv m tasks es) (ht : tasks[i]? = some t)
    (hfr : FreshBlocks m env.vma env.entry)
    (hc : doMmap fuel m t addr length flags fd offset env = some (ret, m', t')) :
    ∃ es', AreasInv m' (tasks.set i t') es' ∧ (NoneTwice m es → NoneTwice m' es') := by
  have hsame : ∀ {ret' : Except ℤ Unit}, some (ret', m, t) = some (ret, m', t') →
      ∃ es', AreasInv m' (tasks.set i t') es' ∧ (NoneTwice m es → NoneTwice m' es') := by
    intro ret' heq
    simp only [Option.some.injEq, Prod.mk.injEq] at heq
    obtain ⟨-, rfl, rfl⟩ := heq
    rw [set_same ht]
    exact ⟨es, h, fun hd => hd⟩
  unfold doMmap at hc
  split_ifs at hc with h1 h2 h3
  · exact hsame hc
  · exact hsame hc
  · exact hsame hc
  · have hok : addr % PAGE_SIZE = 0 → AreaOk (vmaNew t addr (pgRndUp length) flags) := by
      intro hal
      have hle : length ≤ VIRT_BASE := (Nat.le_add_left _ _).trans (not_lt.1 h3)
      have hend := (pgRndUp_user h1 hal (not_lt.1 h3)).2
      have hup : pgRndUp length ≤ VIRT_BASE := (Nat.le_add_left _ _).trans hend
      refine areaOk_new t hal hup ?_
      obtain ⟨-, hr, -⟩ := pgRndUp_bounds hle
      obtain ⟨h4, h5, h6⟩ := pgRndUp_bounds hup
      omega
    cases hv : vmaCreate fuel m t addr (pgRndUp length) flags env.vma env.entry with
    | none => simp [hv] at hc
    | some r =>
      obtain ⟨ret₁, m₁, t₁⟩ := r
      obtain ⟨-, es₁, h₁, hd₁, ⟨e, rfl⟩ | ⟨rfl, hn⟩⟩ := create_areas h ht hfr hok hv
      · simp only [hv, Option.some.injEq, Prod.mk.injEq] at hc
        obtain ⟨-, rfl, rfl⟩ := hc
        exact ⟨es₁, h₁, hd₁⟩
      · simp only [hv] at hc
        have ht₁ : (tasks.set i t₁)[i]? = some t₁ :=
          List.getElem?_set_self (List.getElem?_eq_some_iff.1 ht).1
        obtain ⟨-, es₂, h₂, hd₂⟩ := mmapFile_areas h₁ ht₁ hn hc
        rw [List.set_set] at h₂
        exact ⟨es₂, h₂, fun hd => hd₂ (hd₁ hd)⟩

end Mmap

section Run

variable {s s' : MapSystem} {es : ℕ → List ℕ}

theorem stack_areas {i vma entry : ℕ} (h : AreasInv s.mem s.tasks es)
    (hs : MapStep s (.stack i vma entry) s') :
    ∃ es', AreasInv s'.mem s'.tasks es' ∧ (NoneTwice s.mem es → NoneTwice s'.mem es') := by
  obtain ⟨hfr, t, fuel, r, ht, hc, rfl⟩ := hs
  unfold allocStack at hc
  cases hv : vmaCreate fuel s.mem t (VIRT_BASE - STACK_SIZE) (pgRndUp STACK_SIZE / PAGE_SIZE) 0 vma
      entry with
  | none => simp [hv] at hc
  | some q =>
    simp only [hv, Option.some.injEq] at hc
    obtain ⟨-, es', h', hd, -⟩ := create_areas h ht hfr
      (fun hal => areaOk_new t hal (by decide) (by decide)) hv
    rw [← hc]
    exact ⟨es', h', hd⟩

theorem mmap_areas {i : ℕ} {p : MmapParams} {env : MmapEnv} (h : AreasInv s.mem s.tasks es)
    (hs : MapStep s (.mmap i p env) s') :
    ∃ es', AreasInv s'.mem s'.tasks es' ∧ (NoneTwice s.mem es → NoneTwice s'.mem es') := by
  obtain ⟨hfr, t, fuel, r, ht, hc, rfl⟩ := hs
  unfold mmapCall at hc
  split_ifs at hc with hfix
  · obtain rfl := Option.some.inj hc
    refine ⟨es, ?_, fun hd => hd⟩
    change AreasInv s.mem (s.tasks.set i t) es
    rwa [set_same ht]
  · cases hd : doMmap fuel s.mem t (MmapState.target ⟨s.mem, t, s.bump i⟩ p) p.length p.flags p.fd
        p.offset env with
    | none => simp [hd] at hc
    | some d =>
      obtain ⟨ret, m', t'⟩ := d
      have hinv := doMmap_areas h ht hfr hd
      cases ret with
      | ok u =>
        simp only [hd, Option.some.injEq] at hc
        rw [← hc]
        exact hinv
      | error err =>
        simp only [hd, Option.some.injEq] at hc
        rw [← hc]
        exact hinv

theorem fork_areas {i self pgd : ℕ} {blks : List ℕ} (h : AreasInv s.mem s.tasks es)
    (hs : MapStep s (.fork i self pgd blks) s') :
    ∃ es', AreasInv s'.mem s'.tasks es' ∧ (NoneTwice s.mem es → NoneTwice s'.mem es') := by
  obtain ⟨hfresh, hnd, -, t, r, ht, hc, rfl⟩ := hs
  obtain ⟨new, hlists, hvalue, hold, hareas, -, hcopies⟩ := h.lists.fork ht hfresh hnd hc
  have harea : ∀ j x, x ∈ Function.update es s.tasks.length new j →
      ∃ k y, y ∈ es k ∧ areaAt r.1 x = areaAt s.mem y := by
    intro j x hx
    unfold areaAt
    rcases mem_forked hx with ⟨-, hx⟩ | ⟨-, hx⟩
    · obtain ⟨y, hy, hxy⟩ := hvalue x hx
      exact ⟨i, y, hy, by rw [hxy, hareas]⟩
    · exact ⟨j, x, hx, by rw [hold j x hx, hareas]⟩
  refine ⟨_, ⟨hlists, fun j x hx => ?_, fun j x hx => ?_⟩, fun hd j x y hx hy hxy => ?_⟩
  · obtain ⟨k, y, hy, hxy⟩ := harea j x hx
    rw [hxy]
    exact h.ok k y hy
  · obtain ⟨k, y, hy, hxy⟩ := harea j x hx
    rw [hxy, List.map_append]
    exact List.mem_append_left _ (h.pgd k y hy)
  · rcases mem_forked hx with ⟨rfl, hx'⟩ | ⟨hj, hx'⟩
    · -- the copies are as many, and hold the same areas in the same order
      rw [Function.update_self] at hy
      have hdist : ((es i).map fun x => (s.mem.entries x).value).Nodup :=
        (h.lists.rep i t ht).nodup.map_on fun a ha b hb hab => hd i a b ha hb hab
      rw [← hcopies] at hdist
      exact List.inj_on_of_nodup_map hdist hx' hy hxy
    · rw [Function.update_of_ne hj] at hy
      rw [hold j x hx', hold j y hy] at hxy
      exact hd j x y hx' hy hxy

/-- In every state that stacks, `mmap` and `fork` lead to, the areas are in order and no list
holds one twice. -/
theorem lists_run {evs : List MapEvent} (h : MapRun evs s) :
    ∃ es, AreasInv s.mem s.tasks es ∧ NoneTwice s.mem es := by
  have hstep : ∀ {s s' : MapSystem} {e : MapEvent} {es : ℕ → List ℕ}, AreasInv s.mem s.tasks es →
      MapStep s e s' →
      ∃ es', AreasInv s'.mem s'.tasks es' ∧ (NoneTwice s.mem es → NoneTwice s'.mem es') := by
    intro s s' e es hi hs
    cases e with
    | stack i vma entry => exact stack_areas hi hs
    | mmap i p env => exact mmap_areas hi hs
    | fork i self pgd blks => exact fork_areas hi hs
  induction h with
  | nil hb => exact ⟨_, ⟨listsInv_empty hb, by simp, by simp⟩, by simp [NoneTwice]⟩
  | snoc _ hs ih =>
    obtain ⟨es, hi, hd⟩ := ih
    obtain ⟨es', hi', hd'⟩ := hstep hi hs
    exact ⟨es', hi', hd' hd⟩

theorem areas_run {evs : List MapEvent} (h : MapRun evs s) : ∃ es, AreasInv s.mem s.tasks es := by
  obtain ⟨es, hi, -⟩ := lists_run h
  exact ⟨es, hi⟩

theorem firstArea_ok {evs : List MapEvent} (h : MapRun evs s) {i cr2 : ℕ} {t : VmTask}
    (ht : s.tasks[i]? = some t) (hin : InsideArea s.mem t cr2) :
    ∃ a, FirstArea s.mem t cr2 a ∧ AreaOk a ∧ a.pgd ∈ s.tasks.map VmTask.pgd := by
  obtain ⟨es, hi⟩ := areas_run h
  obtain ⟨es', hc, x, hx, hcov⟩ := hin
  obtain rfl := hc.unique (hi.lists.chain ht)
  obtain ⟨y, hy⟩ := Option.isSome_iff_exists.1 (List.find?_isSome.2
    ⟨x, hx, decide_eq_true hcov⟩ : ((es i).find? fun x => CoversAddr (areaAt s.mem x) cr2).isSome)
  obtain ⟨hy, l, r, hes, hl⟩ := List.find?_eq_some_iff_append.1 hy
  have hmem : y ∈ es i := by simp [hes]
  refine ⟨areaAt s.mem y, ⟨l, y, r, ?_, rfl, of_decide_eq_true hy, fun z hz => ?_⟩, hi.ok i y hmem,
    hi.pgd i y hmem⟩
  · rw [← hes]
    exact hc
  · simpa using hl z hz

end Run

end DepthOS
