import DepthOS.Proofs.VmaCalls

/-! The list of memory areas over whole runs. Order and disjointness survive
every call. Membership does not: `vma_create` hands the neighbours of the area
it stopped at to `list_insert_value`, so that area leaves the list; nothing is
lost as long as no area is created below a live one. -/

namespace DepthOS

open Lib

section Create

variable {s s' : VmaState} {es l k m : List ℕ} {new : VmArea} {vma entry : ℕ}

theorem Inserted.frame (h : Inserted s s' l m new vma entry) (hi : VmaInv s es)
    (hfr : FreshBlocks s.mem vma entry) {x : ℕ} (hx : x ∈ es) :
    x ≠ entry ∧ (s'.mem.entries x).value = (s.mem.entries x).value ∧
    areaAt s'.mem x = areaAt s.mem x := by
  have hne : x ≠ entry := fun he => hfr.entry_new (he ▸ (hi.owned x hx).1)
  have hval : (s'.mem.entries x).value = (s.mem.entries x).value := by
    rw [h.value x, if_neg hne]
  have hv : (s.mem.entries x).value ≠ vma := fun he => hfr.vma_new (he ▸ (hi.owned x hx).2)
  refine ⟨hne, hval, ?_⟩
  rw [areaAt, hval, h.areas, Function.update_of_ne hv, areaAt]

theorem Inserted.areaAt_entry (h : Inserted s s' l m new vma entry) :
    (s'.mem.entries entry).value = vma ∧ areaAt s'.mem entry = new := by
  have hval : (s'.mem.entries entry).value = vma := by rw [h.value, if_pos rfl]
  exact ⟨hval, by rw [areaAt, hval, h.areas, Function.update_self]⟩

theorem inserted_inv (hi : VmaInv s (l ++ (k ++ m))) (h : Inserted s s' l m new vma entry)
    (hfr : FreshBlocks s.mem vma entry) (hnew : new.Ok)
    (hl : ∀ x ∈ l, AreaBelow (areaAt s.mem x) new) (hm : ∀ x ∈ k ++ m, AreaBelow new (areaAt s.mem x)) :
    VmaInv s' (l ++ ([entry] ++ m)) := by
  obtain ⟨L, hL, hrep, -⟩ := h.rep
  obtain ⟨hval, harea⟩ := h.areaAt_entry
  have hsub : ∀ x ∈ l ++ m, x ∈ l ++ (k ++ m) := by
    simp only [List.mem_append]
    tauto
  have hframe := fun x hx => h.frame hi hfr (hsub x hx)
  have hcases : ∀ x ∈ l ++ ([entry] ++ m), x = entry ∨ x ∈ l ++ m := by
    simp only [List.mem_append, List.mem_singleton]
    tauto
  refine ⟨fun L' hL' => ?_, fun hn => by simp [hL] at hn, fun x hx => ?_, ?_, ?_,
    fun x hx y hy => ?_, fun x hx => ?_⟩
  · rw [hL] at hL'
    obtain rfl := Option.some.inj hL'
    exact hrep
  · rcases hcases x hx with rfl | hx
    · rw [harea]
      exact hnew
    · rw [(hframe x hx).2.2]
      exact hi.ok x (hsub x hx)
  · obtain ⟨hsl, hskm, hcross⟩ := List.pairwise_append.1 hi.sorted
    have hsm := (List.pairwise_append.1 hskm).2.1
    rw [List.singleton_append]
    refine List.pairwise_append.2 ⟨?_, List.pairwise_cons.2 ⟨fun y hy => ?_, ?_⟩,
      fun x hx y hy => ?_⟩
    · refine hsl.imp_of_mem fun {x y} hx hy hb => ?_
      rwa [(hframe x (by simp [hx])).2.2, (hframe y (by simp [hy])).2.2]
    · rw [harea, (hframe y (by simp [hy])).2.2]
      exact hm y (by simp [hy])
    · refine hsm.imp_of_mem fun {x y} hx hy hb => ?_
      rwa [(hframe x (by simp [hx])).2.2, (hframe y (by simp [hy])).2.2]
    · rw [(hframe x (by simp [hx])).2.2]
      rcases List.mem_cons.1 hy with rfl | hy
      · rw [harea]
        exact hl x hx
      · rw [(hframe y (by simp [hy])).2.2]
        exact hcross x hx y (by simp [hy])
  · have hmap : (l ++ m).map (fun x => (s'.mem.entries x).value) =
        (l ++ m).map fun x => (s.mem.entries x).value :=
      List.map_congr_left fun x hx => (hframe x hx).2.1
    have hold : ((l ++ m).map fun x => (s.mem.entries x).value).Nodup :=
      hi.values.sublist (List.Sublist.map _
        (List.Sublist.append_left (List.sublist_append_right k m) l))
    rw [List.singleton_append, List.map_append, List.map_cons, List.nodup_middle,
      ← List.map_append, List.nodup_cons, hval, hmap]
    refine ⟨fun hmem => ?_, hold⟩
    obtain ⟨x, hx, hxv⟩ := List.mem_map.1 hmem
    exact hfr.vma_new (hxv ▸ (hi.owned x (hsub x hx)).2)
  · rcases hcases x hx with hx' | hx' <;> rcases hcases y hy with rfl | hy'
    · rw [hval, hx']
      exact hfr.distinct.symm
    · rw [(hframe y hy').2.1, hx']
      exact fun he => hfr.entry_new (he ▸ (hi.owned y (hsub y hy')).2)
    · rw [hval]
      exact fun he => hfr.vma_new (he ▸ (hi.owned x (hsub x hx')).1)
    · rw [(hframe y hy').2.1]
      exact hi.apart x (hsub x hx') y (hsub y hy')
  · rw [h.blocks]
    rcases hcases x hx with rfl | hx
    · rw [hval]
      simp
    · rw [(hframe x hx).2.1]
      obtain ⟨hb, hv⟩ := hi.owned x (hsub x hx)
      simp [hb, hv]

theorem refused_inv (hi : VmaInv s es) (h : Refused s s' new vma) (hv : vma ∉ s.mem.blocks) :
    VmaInv s' es := by
  have hne : ∀ x ∈ es, (s.mem.entries x).value ≠ vma := fun x hx he =>
    hv (he ▸ (hi.owned x hx).2)
  have harea : ∀ x ∈ es, areaAt s'.mem x = areaAt s.mem x := by
    intro x hx
    rw [areaAt, h.entries, h.areas, Function.update_of_ne (hne x hx), areaAt]
  refine ⟨?_, ?_, fun x hx => ?_, ?_, ?_, ?_, fun x hx => ?_⟩
  · rw [h.task, h.entries]
    exact hi.rep
  · rw [h.task]
    exact hi.null
  · rw [harea x hx]
    exact hi.ok x hx
  · refine hi.sorted.imp_of_mem fun {x y} hx hy hb => ?_
    rwa [harea x hx, harea y hy]
  · rw [h.entries]
    exact hi.values
  · rw [h.entries]
    exact hi.apart
  · rw [h.entries]
    obtain ⟨hb, hb'⟩ := hi.owned x hx
    exact ⟨h.blocks x hb fun he => hv (he ▸ hb), h.blocks _ hb' (hne x hx)⟩

end Create

theorem removed_inv {s s' : VmaState} {l m : List ℕ} {item area : ℕ}
    (hi : VmaInv s (l ++ ([item] ++ m))) (hval : (s.mem.entries item).value = area)
    (h : Removed s s' l m area) : VmaInv s' (l ++ m) := by
  obtain ⟨L, hL, hrep, -⟩ := h.rep
  have hsublist : (l ++ m).Sublist (l ++ ([item] ++ m)) :=
    List.Sublist.append_left (List.sublist_append_right [item] m) l
  have hsub : ∀ x ∈ l ++ m, x ∈ l ++ ([item] ++ m) := hsublist.subset
  have hmid : ∀ x ∈ l ++ m, (s.mem.entries x).value ≠ area := by
    have hnd := hi.values
    rw [List.singleton_append, List.map_append, List.map_cons, List.nodup_middle,
      ← List.map_append, List.nodup_cons, hval] at hnd
    exact fun x hx he => hnd.1 (he ▸ List.mem_map_of_mem hx)
  have harea : ∀ x ∈ l ++ m, areaAt s'.mem x = areaAt s.mem x := by
    intro x hx
    rw [areaAt, h.value, h.areas _ (hmid x hx), areaAt]
  refine ⟨fun L' hL' => ?_, fun hn => by simp [hL] at hn, fun x hx => ?_, ?_, ?_,
    fun x hx y hy => ?_, fun x hx => ?_⟩
  · rw [hL] at hL'
    obtain rfl := Option.some.inj hL'
    exact hrep
  · rw [harea x hx]
    exact hi.ok x (hsub x hx)
  · refine (hi.sorted.sublist hsublist).imp_of_mem fun {x y} hx hy hb => ?_
    rwa [harea x hx, harea y hy]
  · simp only [h.value]
    exact hi.values.sublist (hsublist.map _)
  · rw [h.value]
    exact hi.apart x (hsub x hx) y (hsub y hy)
  · rw [h.value]
    obtain ⟨hb, hb'⟩ := hi.owned x (hsub x hx)
    refine ⟨h.blocks x ?_ hb, h.blocks _ (hmid x hx) hb'⟩
    rw [← hval]
    exact (hi.apart x (hsub x hx) item (by simp)).symm

theorem VmaInv.congr {s s' : VmaState} {es : List ℕ} (hi : VmaInv s es) (hm : s'.mem = s.mem)
    (ht : s'.task = s.task) : VmaInv s' es := by
  obtain ⟨mem, task, live⟩ := s'
  obtain rfl : mem = s.mem := hm
  obtain rfl : task = s.task := ht
  exact ⟨hi.rep, hi.null, hi.ok, hi.sorted, hi.values, hi.apart, hi.owned⟩

theorem vmaInv_step {s s' : VmaState} {e : VmaEvent} (h : ∃ es, VmaInv s es)
    (hs : VmaStep s e s') : ∃ es, VmaInv s' es := by
  obtain ⟨es, hi⟩ := h
  cases e with
  | create addr size flags vma entry =>
    have hfr : FreshBlocks s.mem vma entry := hs.2.2.2.1
    have hnew : (vmaNew s.task addr size flags).Ok := VmArea.ok_of_user hs.2.1 hs.2.2.1
    rcases create_cases hi hs with ⟨-, href⟩ | ⟨l, k, m, rfl, hl, hm, -, hins⟩
    · exact ⟨es, refused_inv hi href hfr.vma_new⟩
    · exact ⟨_, inserted_inv hi hins hfr hnew hl hm⟩
  | dispose area stale =>
    rcases (dispose_cases hi hs).2 with ⟨-, hm, ht⟩ | ⟨l, item, m, rfl, hval, hrem⟩
    · exact ⟨es, hi.congr hm ht⟩
    · exact ⟨_, removed_inv hi hval hrem⟩

theorem vmaInv_run {evs : List VmaEvent} {s : VmaState} (h : VmaRun evs s) :
    ∃ es, VmaInv s es :=
  Run.invariant (fun s => ∃ es, VmaInv s es) (fun _ hb => ⟨[], vmaInv_boot hb⟩)
    (fun _ _ _ => vmaInv_step) h

/-- `addr` falls into the area, as `vma_pagefault_handler` tests it. -/
def VmArea.covers (a : VmArea) (addr : ℕ) : Prop := a.addr ≤ addr ∧ addr < u32 (a.addr + a.size)

/-- In every reachable state the listed areas have strictly increasing addresses
and do not overlap, so an address falls into at most one of them. -/
theorem vma_ordered {evs : List VmaEvent} {s : VmaState} (h : VmaRun evs s) :
    ∃ es, Reached s es ∧
      (es.Pairwise fun x y => (areaAt s.mem x).addr < (areaAt s.mem y).addr ∧
        vmaOverlap (areaAt s.mem x) (areaAt s.mem y) = false) ∧
      ∀ cr2, ∀ x ∈ es, ∀ y ∈ es, (areaAt s.mem x).covers cr2 → (areaAt s.mem y).covers cr2 →
        x = y := by
  obtain ⟨es, hi⟩ := vmaInv_run h
  refine ⟨es, hi.reached, ?_, fun cr2 x hx y hy hcx hcy => ?_⟩
  · refine hi.sorted.imp_of_mem fun {x y} hx hy hb => ?_
    have hpos := (hi.ok x hx).size_pos
    refine ⟨?_, (overlap_false (hi.ok x hx) (hi.ok y hy)).2 (Or.inl hb)⟩
    unfold AreaBelow at hb
    omega
  · by_contra hne
    have hsep : ∀ u v, u ∈ es → v ∈ es → (areaAt s.mem u).covers cr2 →
        (areaAt s.mem v).covers cr2 → ¬ AreaBelow (areaAt s.mem u) (areaAt s.mem v) := by
      intro u v hu hv hcu hcv hb
      have h1 := hcu.2
      rw [(hi.ok u hu).end_eq] at h1
      have h2 := hcv.1
      unfold AreaBelow at hb
      omega
    let R : ℕ → ℕ → Prop := fun u v => AreaBelow (areaAt s.mem u) (areaAt s.mem v) ∨
      AreaBelow (areaAt s.mem v) (areaAt s.mem u)
    have hsym : Std.Symm R := ⟨fun _ _ h => Or.symm h⟩
    have hR : es.Pairwise R := hi.sorted.imp Or.inl
    rcases hR.forall hx hy hne with hb | hb
    · exact hsep x y hx hy hcx hcy hb
    · exact hsep y x hy hx hcy hcx hb

/-- No areas, no blocks in use. -/
def vmaBoot0 : VmaState :=
  ⟨⟨fun _ => ⟨0, 0, 0⟩, fun _ => ⟨0, 0, 0, 0, 0, 0, 0, 0, 0, 0, 0, 0⟩, []⟩, ⟨8, 16, some listInit⟩, []⟩

theorem vmaRun_two : ∃ s, VmaRun [.create 0x5000 0x1000 0 100 101, .create 0x2000 0x1000 0 102 103] s ∧
    s.live = [102, 100] ∧ s.task.first = 103 ∧ (s.mem.entries 103).next = 0 ∧
    (s.mem.entries 103).value = 102 ∧ s.task.length = 2 := by
  have h0 : VmaRun [] vmaBoot0 := Run.nil ⟨Or.inr rfl, rfl⟩
  have h1 := h0.snoc (show VmaStep _ (.create 0x5000 0x1000 0 100 101) ⟨_, _, _⟩ from
    ⟨by decide, by decide, by decide, ⟨by decide, by decide, by decide, by decide, by decide⟩,
      3, .ok 100, rfl, rfl⟩)
  have h2 := h1.snoc (show VmaStep _ (.create 0x2000 0x1000 0 102 103) ⟨_, _, _⟩ from
    ⟨by decide, by decide, by decide, ⟨by decide, by decide, by decide, by decide, by decide⟩,
      3, .ok 102, rfl, rfl⟩)
  exact ⟨_, h2, rfl, rfl, rfl, rfl, rfl⟩

theorem vma_ordered_two : ∃ evs s es, VmaRun evs s ∧ s.live = [102, 100] ∧ Reached s es ∧
    es.Pairwise fun x y => (areaAt s.mem x).addr < (areaAt s.mem y).addr ∧
      vmaOverlap (areaAt s.mem x) (areaAt s.mem y) = false := by
  obtain ⟨s, hrun, hlive, -⟩ := vmaRun_two
  obtain ⟨es, hr, hp, -⟩ := vma_ordered hrun
  exact ⟨_, s, es, hrun, hlive, hr, hp⟩

/-- From every reachable state the walks end: a call comes back. -/
theorem vma_calls_return {evs : List VmaEvent} {s : VmaState} (h : VmaRun evs s) {L : DList}
    (hL : s.task.vmAreas = some L) :
    ∃ fuel, (∀ addr size flags vma entry,
        ∃ r, vmaCreate fuel s.mem s.task addr size flags vma entry = some r) ∧
      ∀ area stale, ∃ r, vmaDispose fuel s.mem s.task area stale = some r := by
  obtain ⟨es, hi⟩ := vmaInv_run h
  have hc := (hi.rep L hL).chain
  refine ⟨es.length + 1, fun addr size flags vma entry => ?_, fun area stale => ?_⟩
  · unfold vmaCreate
    split_ifs
    · exact ⟨_, rfl⟩
    · obtain ⟨w, hw⟩ := vmaWalk_returns (Function.update s.mem.areas vma
        (vmaNew s.task addr size flags)) (vmaNew s.task addr size flags) hc (Nat.lt_succ_self _)
      simp only [hL, hw]
      cases w <;> exact ⟨_, rfl⟩
  · obtain ⟨p, hp⟩ := vmaFind_returns area hc (Nat.lt_succ_self _)
    simp only [vmaDispose, hL, hp]
    split_ifs <;> exact ⟨_, rfl⟩

end DepthOS
