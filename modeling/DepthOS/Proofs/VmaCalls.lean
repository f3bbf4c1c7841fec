import DepthOS.Sanity.Vma

/-! What each call does to an ordered list of memory areas: `vma_create` fails,
or cuts the list in two and puts its entry between the parts; `vma_dispose`
takes one entry out. -/

namespace DepthOS

open Lib

/-- What holds of the entries `es` in the list after every call. -/
structure VmaInv (s : VmaState) (es : List ℕ) : Prop where
  rep : ∀ L, s.task.vmAreas = some L → ListRep s.mem.entries L es
  null : s.task.vmAreas = none → es = []
  ok : ∀ x ∈ es, (areaAt s.mem x).Ok
  sorted : es.Pairwise fun x y => AreaBelow (areaAt s.mem x) (areaAt s.mem y)
  values : (es.map fun x => (s.mem.entries x).value).Nodup
  apart : ∀ x ∈ es, ∀ y ∈ es, (s.mem.entries y).value ≠ x
  owned : ∀ x ∈ es, x ∈ s.mem.blocks ∧ (s.mem.entries x).value ∈ s.mem.blocks

theorem vmaInv_boot {s : VmaState} (h : VmaBoot s) : VmaInv s [] := by
  refine ⟨fun L hL => ?_, fun _ => rfl, by simp, by simp, by simp, by simp, by simp⟩
  rcases h.1 with h | h
  · simp [h] at hL
  · rw [h] at hL
    obtain rfl := Option.some.inj hL
    exact listRep_init _

theorem VmaInv.reached {s : VmaState} {es : List ℕ} (h : VmaInv s es) : Reached s es := by
  unfold Reached VmTask.first
  cases hL : s.task.vmAreas with
  | none => rw [h.null hL]; rfl
  | some L => exact (h.rep L hL).chain

/-- A successful `vma_create`: the list is cut after `l` and before `m`, and the
new entry stands between them. -/
structure Inserted (s s' : VmaState) (l m : List ℕ) (new : VmArea) (vma entry : ℕ) : Prop where
  value : ∀ x, (s'.mem.entries x).value = if x = entry then vma else (s.mem.entries x).value
  areas : s'.mem.areas = Function.update s.mem.areas vma new
  blocks : s'.mem.blocks = entry :: vma :: s.mem.blocks
  rep : ∃ L, s'.task.vmAreas = some L ∧ ListRep s'.mem.entries L (l ++ ([entry] ++ m)) ∧
    L.length = s.task.length + 1
  live : s'.live = vma :: s.live

/-- A failed one: only the block that was allocated and freed again is written. -/
structure Refused (s s' : VmaState) (new : VmArea) (vma : ℕ) : Prop where
  entries : s'.mem.entries = s.mem.entries
  areas : s'.mem.areas = Function.update s.mem.areas vma new
  blocks : ∀ p ∈ s.mem.blocks, p ≠ vma → p ∈ s'.mem.blocks
  task : s'.task = s.task
  live : s'.live = s.live

/-- A `vma_dispose` that found its area: what stands between `l` and `m` is gone. -/
structure Removed (s s' : VmaState) (l m : List ℕ) (area : ℕ) : Prop where
  value : ∀ x, (s'.mem.entries x).value = (s.mem.entries x).value
  areas : ∀ p, p ≠ area → s'.mem.areas p = s.mem.areas p
  blocks : ∀ p, p ≠ area → p ∈ s.mem.blocks → p ∈ s'.mem.blocks
  rep : ∃ L, s'.task.vmAreas = some L ∧ ListRep s'.mem.entries L (l ++ m) ∧
    L.length = s.task.length - 1

theorem vmaInsert_spec {m : VmMem} {L : DList} {l k mm : List ℕ} (task : VmTask) (vma : ℕ)
    {entry : ℕ} (h : ListRep m.entries L (l ++ (k ++ mm))) (h0 : entry ≠ 0) (hf : entry ∉ l ++ mm) :
    let r := vmaInsert m task L (lastOr 0 l) (headOr mm 0) vma entry
    (∀ x, (r.1.entries x).value = if x = entry then vma else (m.entries x).value) ∧
    r.1.areas = m.areas ∧ r.1.blocks = entry :: m.blocks ∧
    ∃ L', r.2.vmAreas = some L' ∧ ListRep r.1.entries L' (l ++ ([entry] ++ mm)) ∧
      L'.length = L.length + 1 := by
  have h' : ListRep (setValue m.entries entry vma) L (l ++ (k ++ mm)) :=
    h.congr (fun x => by simp) (fun x => by simp)
  obtain ⟨hval, -, -, -, -, hlen⟩ :=
    listInsert_fields (setValue m.entries entry vma) L (lastOr 0 l) (headOr mm 0) h0
  refine ⟨fun x => ?_, rfl, rfl, _, rfl, listInsert_rep h' h0 hf, hlen⟩
  simp only [vmaInsert, listInsertValue, hval x, setValue_value]

/-- The state once `vma_create` has filled in its area. -/
def allocated (m : VmMem) (vma : ℕ) (new : VmArea) : VmMem :=
  { m with areas := Function.update m.areas vma new, blocks := vma :: m.blocks }

theorem inserted_of_insert {s s' : VmaState} {L : DList} {l k m : List ℕ} {new : VmArea}
    {vma entry : ℕ} (h : ListRep s.mem.entries L (l ++ (k ++ m))) (h0 : entry ≠ 0)
    (hf : entry ∉ l ++ m) (hlen : L.length = s.task.length) (hlive : s'.live = vma :: s.live)
    (heq : vmaInsert (allocated s.mem vma new) s.task L (lastOr 0 l) (headOr m 0) vma entry =
      (s'.mem, s'.task)) : Inserted s s' l m new vma entry := by
  obtain ⟨hval, hareas, hblocks, L', hL', hrep, hlen'⟩ :=
    vmaInsert_spec (m := allocated s.mem vma new) s.task vma h h0 hf
  rw [heq] at hval hareas hblocks hL' hrep
  exact ⟨hval, hareas, hblocks, ⟨L', hL', hrep, by rw [hlen', hlen]⟩, hlive⟩

theorem areaAt_allocated {s : VmaState} {es : List ℕ} (hi : VmaInv s es) {vma x : ℕ}
    (hv : vma ∉ s.mem.blocks) (new : VmArea) (hx : x ∈ es) :
    areaAt (allocated s.mem vma new) x = areaAt s.mem x := by
  have hne : (s.mem.entries x).value ≠ vma := fun h => hv (h ▸ (hi.owned x hx).2)
  exact Function.update_of_ne hne _ _

theorem walk_spec {s : VmaState} {es : List ℕ} {L : DList} {new : VmArea} {vma fuel : ℕ}
    {w : WalkEnd} (hi : VmaInv s es) (hL : s.task.vmAreas = some L) (hv : vma ∉ s.mem.blocks)
    (hnew : new.Ok)
    (hw : vmaWalk (allocated s.mem vma new).entries (allocated s.mem vma new).areas new fuel
      L.first = some w) :
    match w with
    | .overlap => ∃ x ∈ es, vmaOverlap (areaAt s.mem x) new = true
    | .before y => ∃ l m, es = l ++ y :: m ∧ (∀ x ∈ l, AreaBelow (areaAt s.mem x) new) ∧
        ∀ x ∈ y :: m, AreaBelow new (areaAt s.mem x)
    | .push => ∀ x ∈ es, AreaBelow (areaAt s.mem x) new := by
  have harea := fun x hx => areaAt_allocated hi hv new (x := x) hx
  have hspec := vmaWalk_spec hnew (hi.rep L hL).chain
    (fun x hx => by have h := hi.ok x hx; rwa [← harea x hx] at h)
    (hi.sorted.imp_of_mem fun {x y} hx hy h => by rwa [← harea x hx, ← harea y hy] at h) hw
  cases w with
  | overlap =>
    obtain ⟨x, hx, hov⟩ := hspec
    exact ⟨x, hx, by rw [← harea x hx]; exact hov⟩
  | before y =>
    obtain ⟨l, m, rfl, hl, hm⟩ := hspec
    refine ⟨l, m, rfl, fun x hx => ?_, fun x hx => ?_⟩
    · rw [← harea x (List.mem_append_left _ hx)]
      exact hl x hx
    · rw [← harea x (List.mem_append_right _ hx)]
      exact hm x hx
  | push =>
    intro x hx
    rw [← harea x hx]
    exact hspec x hx

theorem create_cases {s s' : VmaState} {es : List ℕ} {addr size flags vma entry : ℕ}
    (hi : VmaInv s es) (hs : VmaStep s (.create addr size flags vma entry) s') :
    let new := vmaNew s.task addr size flags
    ((∃ x ∈ es, vmaOverlap (areaAt s.mem x) new = true) ∧ Refused s s' new vma) ∨
    ∃ l k m, es = l ++ (k ++ m) ∧ (∀ x ∈ l, AreaBelow (areaAt s.mem x) new) ∧
      (∀ x ∈ k ++ m, AreaBelow new (areaAt s.mem x)) ∧ (k = [] → m = []) ∧
      Inserted s s' l m new vma entry := by
  intro new
  obtain ⟨hal, hsz, hend, hfr, fuel, ret, hc, hlive⟩ := hs
  have hent : entry ∉ es := fun h => hfr.entry_new (hi.owned _ h).1
  unfold vmaCreate at hc
  rw [if_neg (not_not.2 hal)] at hc
  cases htask : s.task.vmAreas with
  | none =>
    have hnil := hi.null htask
    rw [htask] at hc
    obtain ⟨rfl, heq⟩ := Prod.mk.inj (Option.some.inj hc)
    refine Or.inr ⟨[], [], [], by simpa using hnil, by simp, by simp, by simp, ?_⟩
    exact inserted_of_insert (k := []) (listRep_init _) hfr.entry_ne (by simp)
      (by simp [VmTask.length, htask, listInit]) hlive heq
  | some L =>
    have hrep := hi.rep L htask
    have hlen : L.length = s.task.length := by simp [VmTask.length, htask]
    rw [htask] at hc
    cases hw : vmaWalk (allocated s.mem vma new).entries (allocated s.mem vma new).areas new fuel
      L.first with
    | none =>
      unfold allocated at hw
      simp [new, hw] at hc
    | some w =>
      have hspec := walk_spec hi htask hfr.vma_new (VmArea.ok_of_user hsz hend) hw
      unfold allocated at hw
      cases w with
      | overlap =>
        simp only [new, hw, Option.some.injEq, Prod.mk.injEq] at hc
        obtain ⟨rfl, hmem, htask'⟩ := hc
        refine Or.inl ⟨hspec, ⟨by rw [← hmem], by rw [← hmem], ?_, htask'.symm, hlive⟩⟩
        intro p hp hne
        rw [← hmem]
        simp [hp, hne]
      | before y =>
        obtain ⟨l, m, rfl, hl, hm⟩ := hspec
        obtain ⟨-, hp, hn⟩ := hrep.neighbours
        simp only [new, hw, Option.some.injEq, Prod.mk.injEq] at hc
        obtain ⟨rfl, heq⟩ := hc
        rw [hp, hn] at heq
        refine Or.inr ⟨l, [y], m, rfl, hl, hm, by simp, ?_⟩
        refine inserted_of_insert (k := [y]) hrep hfr.entry_ne (fun h => hent ?_) hlen hlive heq
        simp only [List.mem_append, List.mem_cons] at h ⊢
        tauto
      | push =>
        simp only [new, hw, Option.some.injEq, Prod.mk.injEq] at hc
        obtain ⟨rfl, heq⟩ := hc
        rw [hrep.last] at heq
        refine Or.inr ⟨es, [], [], by simp, hspec, by simp, by simp, ?_⟩
        exact inserted_of_insert (k := []) (by simpa using hrep) hfr.entry_ne (by simpa using hent)
          hlen hlive heq

/-- `vma_dispose` of an area the list does not hold does nothing; of one it
holds, it takes out that entry. -/
theorem dispose_cases {s s' : VmaState} {es : List ℕ} {area : ℕ} {stale : ℤ}
    (hi : VmaInv s es) (hs : VmaStep s (.dispose area stale) s') :
    s'.live = s.live.erase area ∧
    (((∀ x ∈ es, (s.mem.entries x).value ≠ area) ∧ s'.mem = s.mem ∧ s'.task = s.task) ∨
    ∃ l item m, es = l ++ ([item] ++ m) ∧ (s.mem.entries item).value = area ∧
      Removed s s' l m area) := by
  obtain ⟨fuel, call, hc, hlive⟩ := hs
  refine ⟨hlive, ?_⟩
  unfold vmaDispose at hc
  cases htask : s.task.vmAreas with
  | none => simp [htask] at hc
  | some L =>
    have hrep := hi.rep L htask
    rw [htask] at hc
    cases hw : vmaFind s.mem.entries area fuel L.first with
    | none => simp [hw] at hc
    | some item =>
      rcases vmaFind_spec hrep.chain hw with ⟨rfl, hall⟩ | ⟨hmem, hval⟩
      · simp only [hw, if_true, Option.some.injEq, Prod.mk.injEq] at hc
        exact Or.inl ⟨hall, hc.1.symm, hc.2.1.symm⟩
      · obtain ⟨l, m, rfl⟩ := List.append_of_mem hmem
        obtain ⟨h0, hp, hn⟩ := hrep.neighbours
        simp only [hw, if_neg h0, Option.some.injEq, Prod.mk.injEq] at hc
        obtain ⟨hm', ht', -⟩ := hc
        have hself : (s.mem.entries item).prev ≠ item := by
          rw [hp]
          refine ((border_ne (m := m) h0).1 fun hx => ?_).symm
          exact (List.nodup_append.1 hrep.nodup).2.2 item hx item (by simp) rfl
        obtain ⟨hv, -, -, -, -, hlen⟩ := listRemove_fields s.mem.entries L h0 hself
        refine Or.inr ⟨l, item, m, rfl, hval, fun x => ?_, fun p hp => ?_, fun p hp hb => ?_,
          (listRemove s.mem.entries L item).2, by rw [← ht'], ?_, ?_⟩
        · rw [← hm']
          exact hv x
        · rw [← hm']
          exact Function.update_of_ne hp _ _
        · rw [← hm']
          dsimp only
          split_ifs
          · simp [hb, hp]
          · exact hb
        · rw [← hm']
          exact listRemove_rep hrep
        · rw [hlen]
          simp [VmTask.length, htask]

end DepthOS
