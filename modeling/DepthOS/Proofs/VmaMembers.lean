import DepthOS.Proofs.Vma

/-! Which areas the list holds. An area that `vma_create` inserts below a live one
takes that one's place: the list then misses an area and its length counts one
too many, for the rest of the run. So nothing is lost in a run if and only if
no step of it creates below a live area. -/

namespace DepthOS

open Lib

/-- The listed areas are the live ones, and `length` is their number. -/
def NoneLost (s : VmaState) : Prop :=
  ∃ es, Reached s es ∧ (es.map fun x => (s.mem.entries x).value).Perm s.live ∧
    s.task.length = s.live.length

/-- A new area overlaps a live one, so that the call fails, or no live area lies
above its address. -/
def InOrder (s : VmaState) (e : VmaEvent) : Prop :=
  match e with
  | .create addr size flags _ _ =>
    (∃ p ∈ s.live, vmaOverlap (s.mem.areas p) (vmaNew s.task addr size flags) = true) ∨
    ∀ p ∈ s.live, (s.mem.areas p).addr ≤ addr
  | .dispose _ _ => True

/-- The runs in which every step is in order. -/
def InOrderRun : List VmaEvent → VmaState → Prop :=
  Run VmaBoot fun s e s' => VmaStep s e s' ∧ InOrder s e

/-- The list is exact. -/
structure VmaExact (s : VmaState) (es : List ℕ) : Prop where
  inv : VmaInv s es
  members : (es.map fun x => (s.mem.entries x).value).Perm s.live
  length : s.task.length = es.length

/-- The length is ahead of the list. -/
structure VmaAhead (s : VmaState) (es : List ℕ) : Prop where
  inv : VmaInv s es
  length : es.length < s.task.length

theorem vmaExact_boot {s : VmaState} (h : VmaBoot s) : VmaExact s [] := by
  refine ⟨vmaInv_boot h, by simp [h.2], ?_⟩
  rcases h.1 with ht | ht <;> simp [VmTask.length, ht, listInit]

theorem VmaExact.noneLost {s : VmaState} {es : List ℕ} (h : VmaExact s es) : NoneLost s :=
  ⟨es, h.inv.reached, h.members, by rw [h.length, ← h.members.length_eq, List.length_map]⟩

theorem VmaAhead.not_noneLost {s : VmaState} {es : List ℕ} (h : VmaAhead s es) : ¬ NoneLost s := by
  rintro ⟨es', hr, hp, hl⟩
  obtain rfl := hr.unique h.inv.reached
  have hlt := h.length
  rw [hl, ← hp.length_eq, List.length_map] at hlt
  omega

theorem VmaExact.live_area {s : VmaState} {es : List ℕ} (h : VmaExact s es) {p : ℕ} :
    p ∈ s.live ↔ ∃ x ∈ es, (s.mem.entries x).value = p := by
  rw [← h.members.mem_iff, List.mem_map]

section Create

variable {s s' : VmaState} {es l k m : List ℕ} {addr size flags vma entry : ℕ}

theorem inOrder_iff (vma entry : ℕ) (h : VmaExact s (l ++ (k ++ m)))
    (hnew : (vmaNew s.task addr size flags).Ok)
    (hl : ∀ x ∈ l, AreaBelow (areaAt s.mem x) (vmaNew s.task addr size flags))
    (hm : ∀ x ∈ k ++ m, AreaBelow (vmaNew s.task addr size flags) (areaAt s.mem x)) :
    InOrder s (.create addr size flags vma entry) ↔ k ++ m = [] := by
  have hno : ∀ p ∈ s.live,
      vmaOverlap (s.mem.areas p) (vmaNew s.task addr size flags) = false := by
    intro p hp
    obtain ⟨x, hx, rfl⟩ := h.live_area.1 hp
    refine (overlap_false (h.inv.ok x hx) hnew).2 ?_
    rcases List.mem_append.1 hx with hx | hx
    · exact Or.inl (hl x hx)
    · exact Or.inr (hm x hx)
  constructor
  · rintro (⟨p, hp, hov⟩ | hle)
    · rw [hno p hp] at hov
      simp at hov
    · by_contra hne
      obtain ⟨x, hx⟩ := List.exists_mem_of_ne_nil _ hne
      have h1 := hle _ (h.live_area.2 ⟨x, List.mem_append_right _ hx, rfl⟩)
      have h2 : addr + size ≤ (s.mem.areas (s.mem.entries x).value).addr := hm x hx
      have h3 : 0 < size := hnew.size_pos
      omega
  · intro hnil
    refine Or.inr fun p hp => ?_
    obtain ⟨x, hx, rfl⟩ := h.live_area.1 hp
    rw [hnil, List.append_nil] at hx
    have h1 : (areaAt s.mem x).addr + (areaAt s.mem x).size ≤ addr := hl x hx
    have h2 : (areaAt s.mem x).addr ≤ addr := by omega
    exact h2

theorem task_length_of_rep {L : DList} {t : VmTask} (h : t.vmAreas = some L) :
    t.length = L.length := by
  simp [VmTask.length, h]

theorem exact_create (h : VmaExact s es)
    (hs : VmaStep s (.create addr size flags vma entry) s') :
    (InOrder s (.create addr size flags vma entry) ∧ ∃ es, VmaExact s' es) ∨
    (¬ InOrder s (.create addr size flags vma entry) ∧ ∃ es, VmaAhead s' es) := by
  have hfr : FreshBlocks s.mem vma entry := hs.2.2.2.1
  have hnew : (vmaNew s.task addr size flags).Ok := VmArea.ok_of_user hs.2.1 hs.2.2.1
  rcases create_cases h.inv hs with ⟨⟨x, hx, hov⟩, href⟩ | ⟨l, k, m, rfl, hl, hm, hnil, hins⟩
  · refine Or.inl ⟨Or.inl ⟨_, h.live_area.2 ⟨x, hx, rfl⟩, hov⟩, es,
      refused_inv h.inv href hfr.vma_new, ?_, ?_⟩
    · rw [href.entries, href.live]
      exact h.members
    · rw [href.task]
      exact h.length
  · have hinv := inserted_inv h.inv hins hfr hnew hl hm
    obtain ⟨L, hL, -, hlen⟩ := hins.rep
    have hlen' : s'.task.length = l.length + (k.length + m.length) + 1 := by
      rw [task_length_of_rep hL, hlen, h.length, List.length_append, List.length_append]
    have hord := inOrder_iff vma entry h hnew hl hm
    by_cases hk : k ++ m = []
    · obtain ⟨rfl, rfl⟩ := List.append_eq_nil_iff.1 hk
      refine Or.inl ⟨hord.2 hk, _, hinv, ?_, by rw [hlen']; simp⟩
      have hframe := fun x hx => (hins.frame h.inv hfr (x := x) hx).2.1
      rw [hins.live]
      simp only [List.append_nil] at h hframe ⊢
      rw [List.map_append, List.map_singleton, hins.areaAt_entry.1, List.map_congr_left hframe]
      exact (List.perm_append_singleton _ _).trans (h.members.cons _)
    · have hk' : k ≠ [] := fun h => hk (by rw [h, hnil h]; rfl)
      have hpos : 0 < k.length := List.length_pos_of_ne_nil hk'
      refine Or.inr ⟨fun h => hk (hord.1 h), _, hinv, ?_⟩
      rw [hlen', List.length_append, List.length_append, List.length_singleton]
      omega

theorem ahead_create (h : VmaAhead s es)
    (hs : VmaStep s (.create addr size flags vma entry) s') : ∃ es, VmaAhead s' es := by
  have hfr : FreshBlocks s.mem vma entry := hs.2.2.2.1
  have hnew : (vmaNew s.task addr size flags).Ok := VmArea.ok_of_user hs.2.1 hs.2.2.1
  have hlt := h.length
  rcases create_cases h.inv hs with ⟨-, href⟩ | ⟨l, k, m, rfl, hl, hm, -, hins⟩
  · exact ⟨es, refused_inv h.inv href hfr.vma_new, by rw [href.task]; exact hlt⟩
  · obtain ⟨L, hL, -, hlen⟩ := hins.rep
    refine ⟨_, inserted_inv h.inv hins hfr hnew hl hm, ?_⟩
    rw [task_length_of_rep hL, hlen]
    simp only [List.length_append, List.length_singleton] at hlt ⊢
    omega

end Create

section Dispose

variable {s s' : VmaState} {es : List ℕ} {area : ℕ} {stale : ℤ}

theorem exact_dispose (h : VmaExact s es) (hs : VmaStep s (.dispose area stale) s') :
    ∃ es, VmaExact s' es := by
  obtain ⟨hlive, ⟨hall, hm, ht⟩ | ⟨l, item, m, rfl, hval, hrem⟩⟩ := dispose_cases h.inv hs
  · have hnot : area ∉ s.live := by
      rw [h.live_area]
      rintro ⟨x, hx, hxa⟩
      exact hall x hx hxa
    refine ⟨es, h.inv.congr hm ht, ?_, by rw [ht]; exact h.length⟩
    rw [hm, hlive, List.erase_of_not_mem hnot]
    exact h.members
  · obtain ⟨L, hL, -, hlen⟩ := hrem.rep
    refine ⟨l ++ m, removed_inv h.inv hval hrem, ?_, ?_⟩
    · -- the disposed area leads a permutation of the list, and leaves both sides at once
      have hp : (area :: (l ++ m).map fun x => (s.mem.entries x).value).Perm s.live := by
        rw [← hval, List.map_append]
        refine List.perm_middle.symm.trans ?_
        simpa using h.members
      simp only [hrem.value, hlive]
      simpa using hp.erase area
    · rw [task_length_of_rep hL, hlen, h.length]
      simp

theorem ahead_dispose (h : VmaAhead s es) (hs : VmaStep s (.dispose area stale) s') :
    ∃ es, VmaAhead s' es := by
  have hlt := h.length
  obtain ⟨-, ⟨-, hm, ht⟩ | ⟨l, item, m, rfl, hval, hrem⟩⟩ := dispose_cases h.inv hs
  · exact ⟨es, h.inv.congr hm ht, by rw [ht]; exact hlt⟩
  · obtain ⟨L, hL, -, hlen⟩ := hrem.rep
    refine ⟨l ++ m, removed_inv h.inv hval hrem, ?_⟩
    rw [task_length_of_rep hL, hlen]
    simp only [List.length_append, List.length_singleton] at hlt ⊢
    omega

end Dispose

/-- Either every step so far was in order and the list is exact, or some step was
not and the length is ahead for good. -/
theorem exact_or_ahead {evs : List VmaEvent} {s : VmaState} (h : VmaRun evs s) :
    (InOrderRun evs s ∧ ∃ es, VmaExact s es) ∨ ∃ es, VmaAhead s es := by
  induction h with
  | nil h => exact Or.inl ⟨Run.nil h, [], vmaExact_boot h⟩
  | @snoc evs s s' e _ hs ih =>
    rcases ih with ⟨hrun, es, hex⟩ | ⟨es, hah⟩
    · cases e with
      | create addr size flags vma entry =>
        rcases exact_create hex hs with ⟨hord, hex'⟩ | ⟨-, hah'⟩
        · exact Or.inl ⟨hrun.snoc ⟨hs, hord⟩, hex'⟩
        · exact Or.inr hah'
      | dispose area stale =>
        exact Or.inl ⟨hrun.snoc ⟨hs, trivial⟩, exact_dispose hex hs⟩
    · cases e with
      | create addr size flags vma entry => exact Or.inr (ahead_create hah hs)
      | dispose area stale => exact Or.inr (ahead_dispose hah hs)

theorem exact_of_inOrder {evs : List VmaEvent} {s : VmaState} (h : InOrderRun evs s) :
    ∃ es, VmaExact s es := by
  refine Run.invariant (fun s => ∃ es, VmaExact s es) (fun _ hb => ⟨[], vmaExact_boot hb⟩) ?_ h
  rintro s e s' ⟨es, hex⟩ ⟨hs, hord⟩
  cases e with
  | create addr size flags vma entry =>
    rcases exact_create hex hs with ⟨-, hex'⟩ | ⟨hnot, -⟩
    · exact hex'
    · exact absurd hord hnot
  | dispose area stale => exact exact_dispose hex hs

/-- In every run, the list holds exactly the live areas, and counts them, if and
only if every step was in order. -/
theorem vma_none_lost {evs : List VmaEvent} {s : VmaState} (h : VmaRun evs s) :
    NoneLost s ↔ InOrderRun evs s := by
  constructor
  · intro hn
    rcases exact_or_ahead h with ⟨hrun, -⟩ | ⟨es, hah⟩
    · exact hrun
    · exact absurd hn hah.not_noneLost
  · intro hrun
    obtain ⟨es, hex⟩ := exact_of_inOrder hrun
    exact hex.noneLost

/-- Two areas bottom up, the first disposed again. -/
theorem vma_none_lost_ascending : ∃ s, VmaRun [.create 0x2000 0x1000 0 100 101,
    .create 0x5000 0x1000 0 102 103, .dispose 100 7] s ∧ s.live = [102] ∧ NoneLost s := by
  have h0 : InOrderRun [] vmaBoot0 := Run.nil ⟨Or.inr rfl, rfl⟩
  have h1 := h0.snoc (show VmaStep _ (.create 0x2000 0x1000 0 100 101) ⟨_, _, _⟩ ∧
      InOrder _ (.create 0x2000 0x1000 0 100 101) from
    ⟨⟨by decide, by decide, by decide, ⟨by decide, by decide, by decide, by decide, by decide⟩,
      3, .ok 100, rfl, rfl⟩, Or.inr (by decide)⟩)
  have h2 := h1.snoc (show VmaStep _ (.create 0x5000 0x1000 0 102 103) ⟨_, _, _⟩ ∧
      InOrder _ (.create 0x5000 0x1000 0 102 103) from
    ⟨⟨by decide, by decide, by decide, ⟨by decide, by decide, by decide, by decide, by decide⟩,
      3, .ok 102, rfl, rfl⟩, Or.inr (by decide)⟩)
  have h3 := h2.snoc (show VmaStep _ (.dispose 100 7) ⟨_, _, _⟩ ∧ InOrder _ (.dispose 100 7) from
    ⟨⟨3, _, rfl, rfl⟩, trivial⟩)
  have hrun : VmaRun _ _ := h3.mono fun _ _ _ h => h.1
  exact ⟨_, hrun, rfl, (vma_none_lost hrun).2 h3⟩

/-- Top down, the first area is no longer in the list. -/
theorem vma_lost_descending : ∃ evs s, VmaRun evs s ∧ ¬ NoneLost s := by
  obtain ⟨s, hrun, hlive, hfirst, hnext, hval, -⟩ := vmaRun_two
  refine ⟨_, s, hrun, ?_⟩
  rintro ⟨es, hr, hp, -⟩
  have hes : Reached s [103] := ⟨hfirst, by decide, hnext⟩
  obtain rfl := hr.unique hes
  rw [hlive] at hp
  simpa using hp.length_eq

end DepthOS
