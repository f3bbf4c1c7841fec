import DepthOS.Spec.Open

/-! Which calls of `pipe_open` find each other. The search goes by the inode alone, so FIFOs on
two devices share a pipe when their inodes have the same number. -/

namespace DepthOS

open Lib

/-- Call after call of `pipe_open` for a device and an inode: what each returns, and the list. -/
def pipeOpens : List OpenPipe → List (ℕ × ℕ) → List ℕ × List OpenPipe
  | pipes, [] => ([], pipes)
  | pipes, (device, inode) :: calls =>
    let r := pipeOpen pipes device inode
    let rs := pipeOpens r.2 calls
    (r.1 :: rs.1, rs.2)

/-- The first entry for the inode. -/
def FirstEntry (pipes : List OpenPipe) (inode k : ℕ) : Prop :=
  pipes.findIdx? (fun op => inode = op.inode) = some k

section Keys

variable {pipes more : List OpenPipe} {inode inode' k : ℕ}

theorem FirstEntry.entry (h : FirstEntry pipes inode k) :
    (pipes[k]?).map OpenPipe.inode = some inode := by
  obtain ⟨hk, heq, -⟩ := List.findIdx?_eq_some_iff_getElem.1 h
  simpa [hk] using (of_decide_eq_true heq).symm

theorem FirstEntry.append (h : FirstEntry pipes inode k) : FirstEntry (pipes ++ more) inode k := by
  unfold FirstEntry at h ⊢
  rw [List.findIdx?_append, h]
  rfl

theorem FirstEntry.eq_iff {k' : ℕ} (h : FirstEntry pipes inode k)
    (h' : FirstEntry pipes inode' k') : k = k' ↔ inode = inode' := by
  constructor
  · rintro rfl
    exact Option.some.inj (h.entry.symm.trans h'.entry)
  · rintro rfl
    exact Option.some.inj (h.symm.trans h')

theorem pipeOpen_first (pipes : List OpenPipe) (device inode : ℕ) :
    (∃ more, (pipeOpen pipes device inode).2 = pipes ++ more) ∧
      FirstEntry (pipeOpen pipes device inode).2 inode (pipeOpen pipes device inode).1 := by
  unfold pipeOpen
  split
  · rename_i k hfound
    exact ⟨⟨[], (List.append_nil _).symm⟩, hfound⟩
  · rename_i hnone
    refine ⟨⟨_, rfl⟩, ?_⟩
    simp [FirstEntry, List.findIdx?_append, hnone]

theorem pipeOpens_first (pipes : List OpenPipe) (calls : List (ℕ × ℕ)) :
    (∃ more, (pipeOpens pipes calls).2 = pipes ++ more) ∧
      List.Forall₂ (fun c k => FirstEntry (pipeOpens pipes calls).2 c.2 k) calls
        (pipeOpens pipes calls).1 := by
  induction calls generalizing pipes with
  | nil => exact ⟨⟨[], (List.append_nil _).symm⟩, .nil⟩
  | cons c calls ih =>
    obtain ⟨⟨new, hnew⟩, hfirst⟩ := pipeOpen_first pipes c.1 c.2
    obtain ⟨⟨more, hmore⟩, hall⟩ := ih (pipeOpen pipes c.1 c.2).2
    refine ⟨⟨new ++ more, ?_⟩, .cons ?_ hall⟩
    · exact hmore.trans (by rw [hnew, List.append_assoc])
    · simp only [pipeOpens, hmore]
      exact hfirst.append

end Keys

/-- In a sequence of calls two return the same pipe exactly for the same device and inode, if and
only if no inode number comes with two devices. -/
theorem pipes_keyed_iff (pipes : List OpenPipe) (calls : List (ℕ × ℕ)) :
    (∀ i j, i < calls.length → j < calls.length →
      ((pipeOpens pipes calls).1[i]? = (pipeOpens pipes calls).1[j]? ↔ calls[i]? = calls[j]?)) ↔
    ∀ c ∈ calls, ∀ d ∈ calls, c.2 = d.2 → c.1 = d.1 := by
  obtain ⟨hlen, hget⟩ := List.forall₂_iff_get.1 (pipeOpens_first pipes calls).2
  have hsame : ∀ i j (hi : i < calls.length) (hj : j < calls.length),
      (pipeOpens pipes calls).1[i]? = (pipeOpens pipes calls).1[j]? ↔ calls[i].2 = calls[j].2 := by
    intro i j hi hj
    have h := (hget i hi (hlen ▸ hi)).eq_iff (hget j hj (hlen ▸ hj))
    simpa [hlen ▸ hi, hlen ▸ hj] using h
  constructor
  · intro h c hc d hd hinode
    obtain ⟨i, hi, rfl⟩ := List.getElem_of_mem hc
    obtain ⟨j, hj, rfl⟩ := List.getElem_of_mem hd
    have heq := (h i j hi hj).1 ((hsame i j hi hj).2 hinode)
    simp only [List.getElem?_eq_getElem hi, List.getElem?_eq_getElem hj, Option.some.injEq] at heq
    rw [heq]
  · intro h i j hi hj
    rw [hsame i j hi hj, List.getElem?_eq_getElem hi, List.getElem?_eq_getElem hj,
      Option.some.injEq]
    refine ⟨fun hinode => ?_, fun heq => by rw [heq]⟩
    exact Prod.ext (h _ (List.getElem_mem hi) _ (List.getElem_mem hj) hinode) hinode

/-- Inode 5 of the first device, and inode 5 of the second. -/
theorem pipes_shared : ¬ ∀ calls : List (ℕ × ℕ), ∀ i j, i < calls.length → j < calls.length →
    ((pipeOpens [] calls).1[i]? = (pipeOpens [] calls).1[j]? ↔ calls[i]? = calls[j]?) := by
  intro h
  exact absurd (h [(0, 5), (1, 5)] 0 1 (by decide) (by decide)) (by decide)

end DepthOS
