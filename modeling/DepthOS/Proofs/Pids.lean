import DepthOS.Proofs.Family

/-! Process ids. `generate_pid` hands out the ids `process_delete` has queued and counts
up when there are none, so an id is either in use, or queued, or not yet reached by the
counter. -/

namespace DepthOS

open Lib

/-- The ids of the processes that exist and the ids that are queued. -/
structure PidsOk (k : Kernel) : Prop where
  distinct : (k.live.map fun p => (k.procs p).pid).Nodup
  used : ∀ p ∈ k.live, (k.procs p).pid ∉ k.freePid
  queued : k.freePid.Nodup
  below : ∀ p ∈ k.live, (k.procs p).pid < k.currentPid
  queued_below : ∀ pid ∈ k.freePid, pid < k.currentPid

/-- After `n` creations. -/
structure PidInv (n : ℕ) (k : Kernel) : Prop extends PidsOk k where
  nonneg : 0 ≤ k.currentPid
  counted : k.currentPid ≤ n

theorem PidInv.same {n : ℕ} {k k' : Kernel} (h : PidInv n k) (hs : SameFamily k k') :
    PidInv n k' := by
  have hpid : (fun p => (k'.procs p).pid) = fun p => (k.procs p).pid := funext hs.pid
  refine ⟨⟨?_, ?_, ?_, ?_, ?_⟩, ?_, ?_⟩
  · rw [hs.live, hpid]
    exact h.distinct
  · intro p hp
    rw [hs.pid, hs.freePid]
    exact h.used p (hs.live ▸ hp)
  · rw [hs.freePid]
    exact h.queued
  · intro p hp
    rw [hs.pid, hs.currentPid]
    exact h.below p (hs.live ▸ hp)
  · rw [hs.freePid, hs.currentPid]
    exact h.queued_below
  · rw [hs.currentPid]
    exact h.nonneg
  · rw [hs.currentPid]
    exact h.counted

/-- What `generate_pid` returns is in nobody's use, and what is left in the queue is
apart from it. -/
theorem PidInv.generatePid {n : ℕ} {k : Kernel} (h : PidInv n k) (hn : n + 1 < 2 ^ 31) :
    (∀ p ∈ k.live, (k.procs p).pid ≠ k.generatePid.1) ∧
    k.generatePid.1 ∉ k.generatePid.2.freePid ∧ k.generatePid.2.freePid.Sublist k.freePid ∧
    k.generatePid.1 < k.generatePid.2.currentPid ∧ k.currentPid ≤ k.generatePid.2.currentPid ∧
    k.generatePid.2.currentPid ≤ n + 1 := by
  have hc := h.counted
  have h0 := h.nonneg
  unfold Kernel.generatePid
  rcases hfree : k.freePid with _ | ⟨pid, rest⟩
  · have hb : Int.bmod (k.currentPid + 1) (2 ^ 32) = k.currentPid + 1 :=
      Int.bmod_eq_of_le (by norm_num; omega) (by norm_num; omega)
    dsimp only
    rw [hb]
    refine ⟨fun p hp => (h.below p hp).ne, List.not_mem_nil, List.Sublist.refl _, ?_, ?_, ?_⟩ <;>
      omega
  · have hmem : pid ∈ k.freePid := hfree ▸ List.mem_cons_self
    have hq := h.queued
    rw [hfree] at hq
    refine ⟨fun p hp hpid => h.used p hp (hpid ▸ hmem), (List.nodup_cons.1 hq).1,
      List.sublist_cons_self _ _, h.queued_below pid hmem, le_rfl, ?_⟩
    exact hc.trans (by omega)

theorem PidInv.born {n : ℕ} {k : Kernel} (h : PidInv n k) (hfam : Family k) (hn : n + 1 < 2 ^ 31)
    (task : KTask) {parent : Option ℕ} (m : Mem) (freed : List ℕ)
    (hpar : ∀ q, parent = some q → q < k.next) :
    PidInv (n + 1) (k.born task parent m freed) := by
  obtain ⟨hnew, hnot, hsub, hlt, hle, hcount⟩ := h.generatePid hn
  have hself : ((k.born task parent m freed).procs (k.next + 3)).pid = k.generatePid.1 := by
    rw [born_procs_self k task m freed hpar]
  have hpid : ∀ p ∈ k.live, ((k.born task parent m freed).procs p).pid = (k.procs p).pid := by
    intro p hp
    have hne : p ≠ k.next + 3 := by
      have := hfam.below p hp
      omega
    rw [born_procs_other k task parent m freed hne]
    split_ifs <;> rfl
  have hmap : (k.born task parent m freed).live.map
      (fun p => ((k.born task parent m freed).procs p).pid) =
      k.generatePid.1 :: k.live.map fun p => (k.procs p).pid := by
    change List.map _ ((k.next + 3) :: k.live) = _
    rw [List.map_cons, hself, List.map_congr_left hpid]
  refine ⟨⟨?_, ?_, h.queued.sublist hsub, ?_, ?_⟩, h.nonneg.trans hle, ?_⟩
  · rw [hmap]
    refine List.nodup_cons.2 ⟨fun hin => ?_, h.distinct⟩
    obtain ⟨p, hp, hpe⟩ := List.mem_map.1 hin
    exact hnew p hp hpe
  · intro p hp
    rcases List.mem_cons.1 hp with rfl | hp
    · rw [hself]
      exact hnot
    · rw [hpid p hp]
      exact fun hin => h.used p hp (hsub.subset hin)
  · intro p hp
    rcases List.mem_cons.1 hp with rfl | hp
    · rw [hself]
      exact hlt
    · rw [hpid p hp]
      exact (h.below p hp).trans_le hle
  · exact fun pid hin => (h.queued_below pid (hsub.subset hin)).trans_le hle
  · exact_mod_cast hcount

theorem PidInv.delete {n : ℕ} {k : Kernel} (h : PidInv n k) {child q : ℕ} (hlive : child ∈ k.live)
    (hnd : k.live.Nodup) : PidInv n (k.processDelete child q) := by
  have hpid : ∀ p, ((k.processDelete child q).procs p).pid = (k.procs p).pid := by
    intro p
    rw [Kernel.processDelete_procs]
  have hinj : ∀ p ∈ k.live.erase child, (k.procs p).pid ≠ (k.procs child).pid := by
    intro p hp he
    obtain rfl := List.inj_on_of_nodup_map h.distinct (List.mem_of_mem_erase hp) hlive he
    exact hnd.not_mem_erase hp
  refine ⟨⟨?_, ?_, ?_, ?_, ?_⟩, h.nonneg, h.counted⟩
  · rw [funext hpid]
    exact h.distinct.sublist (List.erase_sublist.map _)
  · intro p hp
    rw [hpid]
    intro hin
    rcases List.mem_append.1 hin with hin | hin
    · exact h.used p (List.mem_of_mem_erase hp) hin
    · exact hinj p hp (List.mem_singleton.1 hin)
  · refine List.nodup_append.2 ⟨h.queued, List.nodup_singleton _, fun pid hin x hx => ?_⟩
    rw [List.mem_singleton.1 hx]
    rintro rfl
    exact h.used child hlive hin
  · intro p hp
    rw [hpid]
    exact h.below p (List.mem_of_mem_erase hp)
  · intro pid hin
    rcases List.mem_append.1 hin with hin | hin
    · exact h.queued_below pid hin
    · rw [List.mem_singleton.1 hin]
      exact h.below child hlive

theorem pidInv_stable (n : ℕ) : Stable (fun _ e => e.isCreate = false)
    (fun k => TaskRing k ∧ Family k) (fun k => RingOk k ∧ Family k) (PidInv n) where
  boot k hk := by
    obtain ⟨idle, mem, pitTicks, rfl⟩ := hk
    exact ⟨⟨List.nodup_nil, nofun, List.nodup_nil, nofun, nofun⟩, le_rfl, Int.natCast_nonneg n⟩
  user k r m h := h.same (sameFamily_of_procs rfl rfl rfl rfl le_rfl)
  call k e k' hj h hf hC he := by
    rcases effect_family hf he with ⟨-, hs | hs⟩ | ⟨hcreate, -⟩
    · exact h.same hs
    · obtain ⟨m, q, child, hchild, rfl⟩ := hs.parent_eq hj.2
      have hm : PidInv n { k with mem := m } := h.same (sameFamily_of_procs rfl rfl rfl rfl le_rfl)
      exact hm.delete (hj.2.children q child hchild).1 hj.2.nodup
    · rw [hcreate] at hC
      cases hC
  switch k n _ h _ := h.same (sameFamily_switchTo k n)
  pending k x k1 k' _ h hfetch he := h.same (sameFamily_pending hfetch he)
  jump k prev _ h := h.same (sameFamily_of_procs rfl rfl rfl rfl le_rfl)

/-- The `process_spawn` and `fork` calls of a run. -/
def creates (evs : List KEvent) : ℕ := evs.countP KEvent.isCreate

theorem pidInv_run {evs : List KEvent} {k : Kernel} (h : KRun evs k)
    (hn : creates evs < 2 ^ 31) : (RingOk k ∧ Family k) ∧ PidInv (creates evs) k := by
  induction h with
  | nil hk => exact ⟨family_rule.boot _ hk, (pidInv_stable 0).boot _ hk⟩
  | @snoc evs k k' e _ hs ih =>
    have hcount : creates (evs ++ [e]) = creates evs + if e.isCreate then 1 else 0 := by
      unfold creates
      rw [List.countP_append, List.countP_singleton]
    rw [hcount] at hn ⊢
    obtain ⟨hbase, hpid⟩ := ih (by omega)
    have hbase' := family_rule.step hbase trivial hs
    refine ⟨hbase', ?_⟩
    rcases hc : e.isCreate with _ | _
    · have hrule := (family_rule.weaken fun _ _ _ => trivial).and
        ((pidInv_stable (creates evs)).rule fun _ hk => hk.1)
      exact (hrule.step ⟨hbase, hpid⟩ hc hs).2
    · rw [hc, if_pos rfl] at hn
      obtain ⟨k1, r, m, ⟨task, parent, image, freed, rfl, hpar⟩, rfl⟩ := create_grows hbase.1 hc hs
      have hborn := hpid.born hbase.2 hn task image freed
        fun q hq => (hpar q hq).elim (hbase.2.below q) hbase.1.process_lt
      exact hborn.same (sameFamily_of_procs rfl rfl rfl rfl le_rfl)

/-- In every run with fewer than 2^31 creations, the ids in use and the queued ids are all
different and below the counter. -/
theorem pids_unique {evs : List KEvent} {k : Kernel} (h : KRun evs k)
    (hn : creates evs < 2 ^ 31) : PidsOk k :=
  (pidInv_run h hn).2.toPidsOk

/-- A child that has been reaped leaves its id to the next one. -/
theorem pids_unique_reused : ∃ k, KRun [zeroSpawn none, .tick, .fork zeroTask, .yield, .exit 3,
      .tick, .waitpid (-1) 64, .fork zeroTask] k ∧
    k.live.map (fun p => (k.procs p).pid) = [1, 0] ∧ PidsOk k := by
  obtain ⟨k, hrun, hpids⟩ := zero_run 1 [zeroSpawn none, .tick, .fork zeroTask, .yield, .exit 3,
    .tick, .waitpid (-1) 64, .fork zeroTask] (fun k => k.live.map fun p => (k.procs p).pid)
    (v := [1, 0]) (by decide +kernel)
  exact ⟨k, hrun, hpids, pids_unique hrun (by decide)⟩

end DepthOS
