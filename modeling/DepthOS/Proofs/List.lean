import DepthOS.Sanity.List

/-! The kernel's list as a sequence: every run of calls on one list is a run of the same
calls on the sequence of its entries and their values, with the same results. -/

namespace DepthOS

open Lib

/-- The calls on a sequence of entries with their values: append, prepend, drop the last or
the first, insert between neighbours, delete, delete at an index. -/
def SeqStep (seq : List (ℕ × ℕ)) (e : ListOp × Option ℕ) (seq' : List (ℕ × ℕ)) : Prop :=
  match e.1 with
  | .push value entry => e.2 = some entry ∧ seq' = seq ++ [(entry, value)]
  | .pushFront value entry => e.2 = some entry ∧ seq' = (entry, value) :: seq
  | .pop => e.2 = some ((seq.getLast?.map Prod.fst).getD 0) ∧ seq' = seq.dropLast
  | .popFront => e.2 = some ((seq.head?.map Prod.fst).getD 0) ∧ seq' = seq.tail
  | .insertValue prev next value entry => e.2 = some entry ∧
    ∃ l m, seq = l ++ m ∧ prev = lastOr 0 (l.map Prod.fst) ∧ next = headOr (m.map Prod.fst) 0 ∧
      seq' = l ++ (entry, value) :: m
  | .remove entry => e.2 = none ∧
    ∃ l value m, seq = l ++ (entry, value) :: m ∧ seq' = l ++ m
  | .removeIndex index =>
    e.2 = some ((seq[index]?.map Prod.fst).getD 0) ∧ seq' = seq.eraseIdx index

/-- The list stands for the sequence. -/
structure SeqRep (E : Entries) (L : DList) (seq : List (ℕ × ℕ)) : Prop where
  rep : ListRep E L (seq.map Prod.fst)
  length : L.length = seq.length
  values : ∀ p ∈ seq, (E p.1).value = p.2

section Ops

variable {E : Entries} {L : DList} {seq l m : List (ℕ × ℕ)}

theorem SeqRep.first (h : SeqRep E L seq) : L.first = headOr (seq.map Prod.fst) 0 := h.rep.first

theorem SeqRep.last (h : SeqRep E L seq) : L.last = lastOr 0 (seq.map Prod.fst) := h.rep.last

theorem SeqRep.ne_zero (h : SeqRep E L seq) {p : ℕ × ℕ} (hp : p ∈ seq) : p.1 ≠ 0 :=
  h.rep.linked.ne_zero (List.mem_map_of_mem hp)

theorem seqRep_insertValue (h : SeqRep E L (l ++ m)) {entry : ℕ} (h0 : entry ≠ 0)
    (hnew : entry ∉ (l ++ m).map Prod.fst) (value : ℕ) {prev next : ℕ}
    (hprev : prev = lastOr 0 (l.map Prod.fst)) (hnext : next = headOr (m.map Prod.fst) 0) :
    SeqRep (listInsertValue E L prev next value entry).1
      (listInsertValue E L prev next value entry).2 (l ++ (entry, value) :: m) := by
  subst hprev hnext
  have hrep : ListRep (setValue E entry value) L
      (l.map Prod.fst ++ ([] ++ m.map Prod.fst)) := by
    rw [List.nil_append, ← List.map_append]
    exact h.rep.congr (fun x => setValue_next E entry value x) fun x => setValue_prev E entry value x
  have hmem : entry ∉ l.map Prod.fst ++ m.map Prod.fst := by rwa [← List.map_append]
  obtain ⟨hval, -, -, -, -, hlen⟩ := listInsert_fields (setValue E entry value) L
    (lastOr 0 (l.map Prod.fst)) (headOr (m.map Prod.fst) 0) h0
  refine ⟨?_, ?_, ?_⟩
  · rw [List.map_append, List.map_cons]
    exact listInsert_rep hrep h0 hmem
  · change (listInsert _ _ _ _ _).2.length = _
    rw [hlen, h.length]
    simp only [List.length_append, List.length_cons]
    omega
  · intro p hp
    change ((listInsert _ _ _ _ _).1 p.1).value = p.2
    rw [hval, setValue_value]
    have hold : ∀ p ∈ l ++ m, p.1 ≠ entry := by
      rintro q hq rfl
      exact hnew (List.mem_map_of_mem hq)
    rcases List.mem_append.1 hp with hp | hp
    · rw [if_neg (hold p (List.mem_append_left _ hp))]
      exact h.values p (List.mem_append_left _ hp)
    · rcases List.mem_cons.1 hp with rfl | hp
      · rw [if_pos rfl]
      · rw [if_neg (hold p (List.mem_append_right _ hp))]
        exact h.values p (List.mem_append_right _ hp)

theorem seqRep_remove {p : ℕ × ℕ} (h : SeqRep E L (l ++ p :: m)) :
    SeqRep (listRemove E L p.1).1 (listRemove E L p.1).2 (l ++ m) := by
  have hrep : ListRep E L (l.map Prod.fst ++ ([p.1] ++ m.map Prod.fst)) := by
    have := h.rep
    rwa [List.map_append, List.map_cons] at this
  obtain ⟨h0, hprev, -⟩ := hrep.neighbours
  have hself : (E p.1).prev ≠ p.1 := by
    intro he
    have hnd := hrep.nodup
    rw [List.nodup_append] at hnd
    rw [hprev] at he
    by_cases hl : l.map Prod.fst = []
    · rw [hl, lastOr_nil] at he
      exact h0 he.symm
    · exact hnd.2.2 p.1 (he ▸ lastOr_mem hl 0) p.1 (by simp) rfl
  obtain ⟨hval, -, -, -, -, hlen⟩ := listRemove_fields E L h0 hself
  refine ⟨?_, ?_, ?_⟩
  · rw [List.map_append]
    exact listRemove_rep hrep
  · rw [hlen, h.length]
    simp only [List.length_append, List.length_cons]
    omega
  · intro q hq
    rw [hval]
    exact h.values q (by
      rcases List.mem_append.1 hq with hq | hq
      · exact List.mem_append_left _ hq
      · exact List.mem_append_right _ (List.mem_cons_of_mem _ hq))

theorem seqRep_pop (h : SeqRep E L seq) :
    (listPop E L).1 = (seq.getLast?.map Prod.fst).getD 0 ∧
    SeqRep (listPop E L).2.1 (listPop E L).2.2 seq.dropLast := by
  unfold listPop
  induction seq using List.reverseRecOn with
  | nil =>
    have hlast : L.last = 0 := h.last
    rw [if_pos hlast]
    exact ⟨rfl, h⟩
  | append_singleton l p _ =>
    have hlast : L.last = p.1 := by simp [h.last]
    have h0 : p.1 ≠ 0 := h.ne_zero (by simp)
    rw [hlast, if_neg h0]
    refine ⟨by simp, ?_⟩
    have hrem := seqRep_remove h
    rw [List.append_nil] at hrem
    rw [List.dropLast_concat]
    exact hrem

theorem seqRep_popFront (h : SeqRep E L seq) :
    (listPopFront E L).1 = (seq.head?.map Prod.fst).getD 0 ∧
    SeqRep (listPopFront E L).2.1 (listPopFront E L).2.2 seq.tail := by
  unfold listPopFront
  cases seq with
  | nil =>
    have hfirst : L.first = 0 := h.first
    rw [if_pos hfirst]
    exact ⟨rfl, h⟩
  | cons p m =>
    have hfirst : L.first = p.1 := h.first
    have h0 : p.1 ≠ 0 := h.ne_zero (by simp)
    rw [hfirst, if_neg h0]
    exact ⟨rfl, seqRep_remove (l := []) h⟩

theorem removeIndexLoop_eq (index : ℕ) {es : List ℕ} : ∀ {entry i fuel : ℕ},
    Chain (fun x => (E x).next) entry es → i ≤ index → ∀ r,
      removeIndexLoop E L index fuel entry i = some r →
      r = match es[index - i]? with
        | none => (0, E, L)
        | some x => (x, listRemove E L x) := by
  induction es with
  | nil =>
    intro entry i fuel hc _ r hr
    obtain rfl : entry = 0 := hc
    cases fuel with
    | zero => exact absurd hr (by simp [removeIndexLoop])
    | succ fuel =>
      unfold removeIndexLoop at hr
      rw [if_pos rfl] at hr
      exact (Option.some.inj hr).symm
  | cons x t ih =>
    intro entry i fuel hc hi r hr
    obtain ⟨rfl, h0, ht⟩ := hc
    cases fuel with
    | zero => exact absurd hr (by simp [removeIndexLoop])
    | succ fuel =>
      unfold removeIndexLoop at hr
      rw [if_neg h0] at hr
      by_cases he : i = index
      · rw [if_pos he] at hr
        rw [he, Nat.sub_self]
        exact (Option.some.inj hr).symm
      · rw [if_neg he] at hr
        have hr' := ih ht (by omega) r hr
        rw [show index - i = index - (i + 1) + 1 by omega, List.getElem?_cons_succ]
        exact hr'

theorem removeIndexLoop_isSome (index : ℕ) {es : List ℕ} : ∀ {entry i fuel : ℕ},
    Chain (fun x => (E x).next) entry es → es.length < fuel →
      (removeIndexLoop E L index fuel entry i).isSome := by
  induction es with
  | nil =>
    intro entry i fuel hc hfuel
    obtain rfl : entry = 0 := hc
    obtain ⟨fuel, rfl⟩ := Nat.exists_eq_add_of_lt hfuel
    unfold removeIndexLoop
    rw [if_pos rfl]
    rfl
  | cons x t ih =>
    intro entry i fuel hc hfuel
    obtain ⟨rfl, h0, ht⟩ := hc
    obtain ⟨fuel, rfl⟩ := Nat.exists_eq_add_of_lt hfuel
    unfold removeIndexLoop
    rw [if_neg h0]
    split_ifs
    · rfl
    · refine ih ht ?_
      simp only [List.length_cons]
      omega

theorem seqRep_removeIndex (h : SeqRep E L seq) {fuel index : ℕ} {r : ℕ × Entries × DList}
    (hr : listRemoveIndex fuel E L index = some r) :
    r.1 = (seq[index]?.map Prod.fst).getD 0 ∧ SeqRep r.2.1 r.2.2 (seq.eraseIdx index) := by
  have hr := removeIndexLoop_eq index h.rep.chain (Nat.zero_le index) r hr
  rw [Nat.sub_zero, List.getElem?_map] at hr
  rcases hp : seq[index]? with _ | p
  · rw [hp] at hr
    subst hr
    rw [List.eraseIdx_of_length_le (List.getElem?_eq_none_iff.1 hp)]
    exact ⟨rfl, h⟩
  · rw [hp] at hr
    subst hr
    obtain ⟨hlt, rfl⟩ := List.getElem?_eq_some_iff.1 hp
    refine ⟨rfl, ?_⟩
    rw [List.eraseIdx_eq_take_drop_succ]
    refine seqRep_remove (p := seq[index]) ?_
    rw [← List.drop_eq_getElem_cons hlt, List.take_append_drop]
    exact h

end Ops

theorem SeqRep.forward {s : ListState} {seq : List (ℕ × ℕ)} (h : SeqRep s.entries s.list seq)
    {es : List ℕ} : s.Forward es ↔ es = seq.map Prod.fst := by
  constructor
  · intro hes
    exact Chain.unique hes h.rep.chain
  · rintro rfl
    exact h.rep.chain

theorem SeqRep.fresh {s : ListState} {seq : List (ℕ × ℕ)} (h : SeqRep s.entries s.list seq)
    {entry : ℕ} (hf : FreshEntry s entry) : entry ≠ 0 ∧ entry ∉ seq.map Prod.fst :=
  ⟨hf.1, hf.2 _ (h.forward.2 rfl)⟩

theorem exec_some {ret ret' : Option ℕ} {r : Entries × DList} {E : Entries} {L : DList}
    (h : some (ret', r) = some (ret, E, L)) : ret = ret' ∧ r = (E, L) := by
  obtain ⟨h1, h2⟩ := Prod.mk.inj (Option.some.inj h)
  exact ⟨h1.symm, h2⟩

theorem seqRep_step (s : ListState) (e : ListOp × Option ℕ) (s' : ListState)
    (seq : List (ℕ × ℕ)) (h : SeqRep s.entries s.list seq) (hstep : ListOpStep s e s') :
    ∃ seq', SeqStep seq e seq' ∧ SeqRep s'.entries s'.list seq' := by
  obtain ⟨op, ret⟩ := e
  obtain ⟨hallow, fuel, hexec⟩ := hstep
  cases op with
  | push value entry =>
    obtain ⟨hret, hr⟩ := exec_some hexec
    obtain ⟨h0, hnew⟩ := h.fresh hallow
    have h' : SeqRep s.entries s.list (seq ++ []) := by rwa [List.append_nil]
    have hrep := seqRep_insertValue h' h0 (by rwa [List.append_nil]) value h.last
      (show 0 = _ from rfl)
    change listInsertValue _ _ _ _ _ _ = _ at hr
    rw [hr] at hrep
    exact ⟨_, ⟨hret, rfl⟩, hrep⟩
  | pushFront value entry =>
    obtain ⟨hret, hr⟩ := exec_some hexec
    obtain ⟨h0, hnew⟩ := h.fresh hallow
    have hrep := seqRep_insertValue (l := []) h h0 hnew value (show 0 = _ from rfl) h.first
    change listInsertValue _ _ _ _ _ _ = _ at hr
    rw [hr] at hrep
    exact ⟨_, ⟨hret, rfl⟩, hrep⟩
  | pop =>
    obtain ⟨hret, hr⟩ := exec_some hexec
    obtain ⟨hpop, hrep⟩ := seqRep_pop h
    change (listPop s.entries s.list).2 = _ at hr
    rw [hr] at hrep
    exact ⟨_, ⟨hret.trans (congrArg some hpop), rfl⟩, hrep⟩
  | popFront =>
    obtain ⟨hret, hr⟩ := exec_some hexec
    obtain ⟨hpop, hrep⟩ := seqRep_popFront h
    change (listPopFront s.entries s.list).2 = _ at hr
    rw [hr] at hrep
    exact ⟨_, ⟨hret.trans (congrArg some hpop), rfl⟩, hrep⟩
  | insertValue prev next value entry =>
    obtain ⟨hret, hr⟩ := exec_some hexec
    obtain ⟨hfresh, l, m, hlm, hprev, hnext⟩ := hallow
    obtain ⟨h0, hnew⟩ := h.fresh hfresh
    obtain ⟨a, b, rfl, rfl, rfl⟩ := List.map_eq_append_iff.1 (h.forward.1 hlm).symm
    have hrep := seqRep_insertValue h h0 hnew value hprev hnext
    rw [hr] at hrep
    exact ⟨_, ⟨hret, a, b, rfl, hprev, hnext, rfl⟩, hrep⟩
  | remove entry =>
    obtain ⟨hret, hr⟩ := exec_some hexec
    obtain ⟨es, hes, hmem⟩ := hallow
    rw [h.forward.1 hes] at hmem
    obtain ⟨⟨entry, value⟩, hp, rfl⟩ := List.mem_map.1 hmem
    obtain ⟨l, m, rfl⟩ := List.append_of_mem hp
    have hrep := seqRep_remove h
    rw [hr] at hrep
    exact ⟨_, ⟨hret, l, value, m, rfl, rfl⟩, hrep⟩
  | removeIndex index =>
    obtain ⟨r, hloop, hr⟩ := Option.map_eq_some_iff.1 hexec
    obtain ⟨hret, hr⟩ := exec_some (congrArg some hr)
    obtain ⟨hrem, hrep⟩ := seqRep_removeIndex h hloop
    change r.2 = _ at hr
    rw [hr] at hrep
    exact ⟨_, ⟨hret.trans (congrArg some hrem), rfl⟩, hrep⟩

theorem list_run_seq {ops : List (ListOp × Option ℕ)} {s : ListState} (hrun : ListRun ops s) :
    ∃ seq, Run (fun seq => seq = []) SeqStep ops seq ∧ SeqRep s.entries s.list seq := by
  refine Run.simulation (fun s seq => SeqRep s.entries s.list seq) ?_ seqRep_step hrun
  intro s hs
  refine ⟨[], rfl, ?_, ?_, by simp⟩
  · rw [hs]
    exact listRep_init s.entries
  · rw [hs]
    rfl

/-- Every run of calls on one list is a run of the same calls, with the same results, on a
sequence that both directions of the list spell out, null-terminated at either end, and whose
size is `length`; and a call that may be made at its end returns. -/
theorem list_refines_seq (ops : List (ListOp × Option ℕ)) (s : ListState)
    (hrun : ListRun ops s) :
    ∃ seq, Run (fun seq => seq = []) SeqStep ops seq ∧
      s.Forward (seq.map Prod.fst) ∧ s.Backward (seq.map Prod.fst).reverse ∧
      (∀ p ∈ seq, (s.entries p.1).value = p.2) ∧ s.list.length = seq.length ∧
      ∀ op : ListOp, op.Allowed s → ∃ ret s', ListOpStep s (op, ret) s' := by
  obtain ⟨seq, hseq, h⟩ := list_run_seq hrun
  refine ⟨seq, hseq, h.forward.2 rfl, ?_, h.values, h.length, ?_⟩
  · unfold ListState.Backward
    rw [h.last]
    exact h.rep.linked.chain_reverse
  · intro op hallow
    have hret : (op.exec (seq.length + 1) s).isSome := by
      cases op with
      | removeIndex index =>
        have hloop := removeIndexLoop_isSome (L := s.list) index (i := 0) h.rep.chain
          (Nat.lt_succ_self (seq.map Prod.fst).length)
        rw [List.length_map] at hloop
        simpa only [ListOp.exec, listRemoveIndex, Option.isSome_map] using hloop
      | _ => rfl
    obtain ⟨⟨ret, E, L⟩, hr⟩ := Option.isSome_iff_exists.1 hret
    exact ⟨ret, ⟨E, L⟩, hallow, _, hr⟩

theorem FreshEntry.of_forward {s : ListState} {es : List ℕ} {entry : ℕ} (h : s.Forward es)
    (h0 : entry ≠ 0) (hnew : entry ∉ es) : FreshEntry s entry := by
  refine ⟨h0, fun es' h' => ?_⟩
  rw [Chain.unique h' h]
  exact hnew

/-- Two entries pushed on an empty list. -/
def twoPushed : ListState :=
  let r := listPush (fun _ => ⟨0, 0, 0⟩) listInit 5 100
  let r := listPush r.1 r.2 6 200
  ⟨r.1, r.2⟩

theorem listRun_twoPushed : ListRun [(.push 5 100, some 100), (.push 6 200, some 200)] twoPushed := by
  set s0 : ListState := ⟨fun _ => ⟨0, 0, 0⟩, listInit⟩
  set s1 : ListState := ⟨(listPush s0.entries s0.list 5 100).1, (listPush s0.entries s0.list 5 100).2⟩
  have h0 : ListRun [] s0 := Run.nil rfl
  have hf0 : s0.Forward [] := rfl
  have h1 : ListRun ([] ++ [(.push 5 100, some 100)]) s1 :=
    h0.snoc ⟨FreshEntry.of_forward hf0 (by decide) (by decide), 0, rfl⟩
  have hf1 : s1.Forward [100] := ⟨rfl, by decide, rfl⟩
  exact h1.snoc ⟨FreshEntry.of_forward hf1 (by decide) (by decide), 0, rfl⟩

theorem list_refines_seq_twoPushed : ∃ seq,
    Run (fun seq => seq = []) SeqStep [(.push 5 100, some 100), (.push 6 200, some 200)] seq ∧
      twoPushed.Forward (seq.map Prod.fst) ∧ twoPushed.list.length = seq.length := by
  obtain ⟨seq, hseq, hf, -, -, hlen, -⟩ := list_refines_seq _ _ listRun_twoPushed
  exact ⟨seq, hseq, hf, hlen⟩

end DepthOS
