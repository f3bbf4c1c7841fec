import DepthOS.Proofs.Ext2Iter
import DepthOS.Spec.Ext2Trace

/-! What `ext2_read_dentries` leaves in the buffer, whatever the block holds: one slot for each
record it comes to. The slot of a record without inode keeps what was there before, so the buffer
shows through exactly where such a record is counted. -/

namespace DepthOS

open Lib

section Slots

variable (m : Mem) (blockSize n : ℕ)

/-- Where the record of slot `j` starts. -/
def recordOffset : ℕ → ℕ
  | 0 => 0
  | j + 1 => u32 (recordOffset j + rawSize m (recordOffset j))

/-- The entry for that record. -/
def recordEntry (j : ℕ) : Dentry :=
  let i := recordOffset m j
  ⟨rawInode m i, rawType m i, bytesAt m (i + 8) (rawNameLength m i), i⟩

/-- The loop goes on to slot `j`, by what the record before it holds, and does not break there. -/
structure Counts (j : ℕ) : Prop where
  inside : recordOffset m j < blockSize
  room : j < n
  more : rawSize m (recordOffset m (j - 1)) ≠ 0 ∨ rawNameLength m (recordOffset m (j - 1)) ≠ 0
  whole : rawInode m (recordOffset m j) = 0 ∨ rawSize m (recordOffset m j) ≠ 0

/-- The scan comes to slot `k`. -/
def ScanReaches (k : ℕ) : Prop := ∀ j ≤ k, Counts m blockSize n j

/-- Slots `j` to `c` are counted, and filled where their records have an inode. -/
structure Slots (ds : ℕ → Dentry) (j : ℕ) (res : ℕ × (ℕ → Dentry)) : Prop where
  le : j ≤ res.1
  counts : ∀ k, j ≤ k → k < res.1 → Counts m blockSize n k
  stops : ¬ Counts m blockSize n res.1
  used : ∀ k, j ≤ k → k < res.1 → rawInode m (recordOffset m k) ≠ 0 → res.2 k = recordEntry m k
  unused : ∀ k, k < res.1 → rawInode m (recordOffset m k) = 0 → res.2 k = ds k
  behind : ∀ k, res.1 ≤ k → res.2 k = ds k
  before : ∀ k < j, res.2 k = ds k

variable {m blockSize n}

theorem Slots.step {ds ds1 : ℕ → Dentry} {j : ℕ} {res : ℕ × (ℕ → Dentry)}
    (h : Slots m blockSize n ds1 (j + 1) res) (hj : Counts m blockSize n j)
    (hother : ∀ k, k ≠ j → ds1 k = ds k)
    (hused : rawInode m (recordOffset m j) ≠ 0 → ds1 j = recordEntry m j)
    (hunused : rawInode m (recordOffset m j) = 0 → ds1 j = ds j) :
    Slots m blockSize n ds j res := by
  have hle := h.le
  constructor
  · omega
  · intro k hjk hk
    rcases Nat.eq_or_lt_of_le hjk with rfl | hlt
    · exact hj
    · exact h.counts k hlt hk
  · exact h.stops
  · intro k hjk hk h0
    rcases Nat.eq_or_lt_of_le hjk with rfl | hlt
    · rw [h.before j (Nat.lt_succ_self j)]
      exact hused h0
    · exact h.used k hlt hk h0
  · intro k hk h0
    rw [h.unused k hk h0]
    by_cases hkj : k = j
    · subst hkj
      exact hunused h0
    · exact hother k hkj
  · intro k hk
    rw [h.behind k hk]
    exact hother k (by omega)
  · intro k hk
    rw [h.before k (by omega)]
    exact hother k (by omega)

theorem slots_stop {ds : ℕ → Dentry} {j : ℕ} (h : ¬ Counts m blockSize n j) :
    Slots m blockSize n ds j (j, ds) where
  le := le_rfl
  counts _ hjk hk := absurd hk (Nat.not_lt.2 hjk)
  stops := h
  used _ hjk hk := absurd hk (Nat.not_lt.2 hjk)
  unused _ _ _ := rfl
  behind _ _ := rfl
  before _ _ := rfl

theorem readDentriesLoop_slots (fuel j : ℕ) (ds : ℕ → Dentry) (hn : fuel + j = n) :
    Slots m blockSize n ds j (readDentriesLoop m blockSize n fuel (recordOffset m j) j
      (recordOffset m (j - 1)) ds) := by
  induction fuel generalizing j ds with
  | zero =>
    rw [readDentriesLoop]
    apply slots_stop
    exact fun h => absurd h.room (by omega)
  | succ fuel ih =>
    rw [readDentriesLoop]
    split_ifs with hguard h0 hsize
    · apply (ih (j + 1) ds (by omega)).step
      · exact ⟨hguard.1, hguard.2.1, hguard.2.2, Or.inl h0⟩
      · exact fun _ _ => rfl
      · exact fun h => absurd h0 h
      · exact fun _ => rfl
    · apply slots_stop
      intro h
      exact h.whole.elim h0 fun h => h hsize
    · apply (ih (j + 1) _ (by omega)).step
      · exact ⟨hguard.1, hguard.2.1, hguard.2.2, Or.inr hsize⟩
      · exact fun k hk => Function.update_of_ne hk _ _
      · exact fun _ => Function.update_self _ _ _
      · exact fun h => absurd h h0
    · apply slots_stop
      exact fun h => hguard ⟨h.inside, h.room, h.more⟩

theorem Slots.reaches {ds : ℕ → Dentry} {res : ℕ × (ℕ → Dentry)} (h : Slots m blockSize n ds 0 res)
    (k : ℕ) : k < res.1 ↔ ScanReaches m blockSize n k := by
  constructor
  · intro hk j hj
    exact h.counts j (Nat.zero_le j) (by omega)
  · intro hk
    by_contra hge
    exact h.stops (hk _ (Nat.le_of_not_lt hge))

end Slots

section Scan

variable (fs : Ext2Fs) (dir : Ext2Inode)

/-- The block that is scanned: the first one of the directory, as far as it can be read. -/
def dirBlock : Mem :=
  (readData fs dir 0 (blit (fs.fresh 0).dentries 0 (fun _ => 0) fs.blockSize) fs.blockSize).2

/-- Every record that the scan comes to has an inode. -/
def NoUnused (n : ℕ) : Prop :=
  ∀ k, ScanReaches (dirBlock fs dir) fs.blockSize n k →
    rawInode (dirBlock fs dir) (recordOffset (dirBlock fs dir) k) ≠ 0

/-- What is returned does not depend on what the buffer held. -/
def ReadsSame (n : ℕ) : Prop :=
  ∀ ds ds' res res', ext2ReadDentries fs dir ds n = some res →
    ext2ReadDentries fs dir ds' n = some res' → res.1 = res'.1 ∧ ∀ k < res.1, res.2 k = res'.2 k

/-- The directory has a record of that name with inode `i`. -/
def RecordsName (name : List Byte) (i : ℕ) : Prop :=
  ∃ k, ScanReaches (dirBlock fs dir) fs.blockSize 1024 k ∧ i ≠ 0 ∧
    (recordEntry (dirBlock fs dir) k).inode = i ∧
    cstring (recordEntry (dirBlock fs dir) k).name = cstring name

/-- Every search of the directory, in a walk from anywhere, finds what it has recorded. -/
def ResolvesRecorded : Prop :=
  ∀ (start : Ext2Fs) (pfrags : List (List Byte)) (root : Ext2Inode) (stale : ℕ → Dentry),
    ∀ s ∈ ext2Searches start pfrags root stale, s.fs = fs → s.dir = dir → ∀ i, s.found = some i →
      RecordsName fs dir s.pfrag i

variable {fs dir}

variable (fs dir) in
theorem readEntries_slots (ds : ℕ → Dentry) (n : ℕ) :
    Slots (dirBlock fs dir) fs.blockSize n ds 0 (readEntries fs dir ds n) :=
  readDentriesLoop_slots n 0 ds (Nat.add_zero n)

theorem ext2ReadDentries_slots {ds : ℕ → Dentry} {n : ℕ} {res : ℕ × (ℕ → Dentry)}
    (h : ext2ReadDentries fs dir ds n = some res) :
    Slots (dirBlock fs dir) fs.blockSize n ds 0 res := by
  have hbuf : fs.Buffered := by
    by_contra hnull
    rw [ext2ReadDentries_none hnull] at h
    cases h
  rw [ext2ReadDentries_some hbuf, Option.some.injEq] at h
  rw [← h]
  exact readEntries_slots fs dir ds n

theorem readsSame_of_noUnused {n : ℕ} (hno : NoUnused fs dir n) : ReadsSame fs dir n := by
  intro ds ds' res res' hres hres'
  have h := ext2ReadDentries_slots hres
  have h' := ext2ReadDentries_slots hres'
  constructor
  · apply Nat.le_antisymm
    · exact Nat.le_of_not_lt fun hlt => h'.stops (h.counts _ (Nat.zero_le _) hlt)
    · exact Nat.le_of_not_lt fun hlt => h.stops (h'.counts _ (Nat.zero_le _) hlt)
  · intro k hk
    have hreach := (h.reaches k).1 hk
    rw [h.used k (Nat.zero_le k) hk (hno k hreach),
      h'.used k (Nat.zero_le k) ((h'.reaches k).2 hreach) (hno k hreach)]

theorem readsSame_iff (n : ℕ) : ReadsSame fs dir n ↔ ¬ fs.Buffered ∨ NoUnused fs dir n := by
  constructor
  · intro hsame
    by_cases hbuf : fs.Buffered
    · refine Or.inr fun k hk h0 => ?_
      have hold := readEntries_slots fs dir (fun _ => ⟨0, 0, [], 0⟩) n
      have hnew := readEntries_slots fs dir (fun _ => ⟨1, 0, [], 0⟩) n
      have hlt := (hold.reaches k).2 hk
      have heq := (hsame (fun _ => ⟨0, 0, [], 0⟩) (fun _ => ⟨1, 0, [], 0⟩) _ _
        (ext2ReadDentries_some hbuf dir _ n) (ext2ReadDentries_some hbuf dir _ n)).2 k hlt
      rw [hold.unused k hlt h0, hnew.unused k ((hnew.reaches k).2 hk) h0] at heq
      exact absurd (congrArg Dentry.inode heq) Nat.zero_ne_one
    · exact Or.inl hbuf
  · rintro (hnull | hno)
    · intro ds ds' res res' hres _
      rw [ext2ReadDentries_none hnull] at hres
      cases hres
    · exact readsSame_of_noUnused hno

theorem searches_found {fs : Ext2Fs} {pfrags : List (List Byte)} {root : Ext2Inode}
    {stale : ℕ → Dentry} {s : Search} (hs : s ∈ ext2Searches fs pfrags root stale) {i : ℕ}
    (hi : s.found = some i) : ∃ ds res k, ext2ReadDentries s.fs s.dir ds 1024 = some res ∧
      k < res.1 ∧ cstring s.pfrag = cstring (res.2 k).name ∧ (res.2 k).inode = i := by
  induction pfrags generalizing fs root stale with
  | nil => exact absurd hs List.not_mem_nil
  | cons pfrag rest ih =>
    rw [ext2Searches, if_neg (mask_never root)] at hs
    split_ifs at hs with hempty
    · exact ih hs
    · split at hs
      · rw [List.mem_singleton] at hs
        subst hs
        cases hi
      · next n ds hread =>
        split at hs
        · next j hfind =>
          obtain ⟨hmatch, hmem, -⟩ := List.find?_range_eq_some.1 hfind
          rcases List.mem_cons.1 hs with rfl | htail
          · refine ⟨stale, (n, ds), j, hread, List.mem_range.1 hmem, by simpa using hmatch, ?_⟩
            simpa using hi
          · exact ih htail
        · rw [List.mem_singleton] at hs
          subst hs
          cases hi

theorem searches_single (hbuf : fs.Buffered) {name : List Byte} (hname : name ≠ [])
    (stale : ℕ → Dentry) :
    ext2Searches fs [name] dir stale = [⟨fs, dir, name,
      ((List.range (readEntries fs dir stale 1024).1).find? fun j =>
        cstring name == cstring ((readEntries fs dir stale 1024).2 j).name).map fun j =>
          ((readEntries fs dir stale 1024).2 j).inode⟩] := by
  rw [ext2Searches, if_neg (mask_never dir), if_neg hname, ext2ReadDentries_some hbuf]
  dsimp only
  split
  · next j hfind => rw [hfind, ext2Searches, Option.map_some]
  · next hfind => rw [hfind, Option.map_none]

theorem resolves_of_noUnused (h : NoUnused fs dir 1024) : ResolvesRecorded fs dir := by
  intro start pfrags root stale s hs hfs hdir i hi
  obtain ⟨ds, res, k, hres, hk, hname, hinode⟩ := searches_found hs hi
  rw [hfs, hdir] at hres
  have hslots := ext2ReadDentries_slots hres
  have hreach := (hslots.reaches k).1 hk
  rw [hslots.used k (Nat.zero_le k) hk (h k hreach)] at hname hinode
  refine ⟨k, hreach, ?_, hinode, hname.symm⟩
  rw [← hinode]
  exact h k hreach

theorem resolves_of_null (hnull : ¬ fs.Buffered) : ResolvesRecorded fs dir := by
  intro start pfrags root stale s hs hfs hdir i hi
  obtain ⟨ds, res, k, hres, -⟩ := searches_found hs hi
  rw [hfs, ext2ReadDentries_none hnull] at hres
  cases hres

/-- The scan shows nothing of what the buffer held exactly when no record it comes to is unused,
and then a path component is resolved only to an inode that the directory has recorded for it.
Without a block buffer there is no scan. -/
theorem dentries_expose_nothing_iff (fs : Ext2Fs) (dir : Ext2Inode) :
    (∀ n, ReadsSame fs dir n ↔ ¬ fs.Buffered ∨ NoUnused fs dir n) ∧
    (ReadsSame fs dir 1024 ∧ ResolvesRecorded fs dir ↔ ¬ fs.Buffered ∨ NoUnused fs dir 1024) :=
  ⟨readsSame_iff, fun h => (readsSame_iff 1024).1 h.1,
    fun h => ⟨(readsSame_iff 1024).2 h, h.elim resolves_of_null resolves_of_noUnused⟩⟩

end Scan

/-- A block of one unused record. -/
def unusedFs : Ext2Fs := wordFs fun w => if w = 257 then 1024 else 0

/-- The entry left in its slot is returned, and a component is resolved to its inode. -/
theorem dentries_show_through : (¬ ∀ (fs : Ext2Fs) (dir : Ext2Inode) (n : ℕ), ReadsSame fs dir n) ∧
    ¬ ∀ (fs : Ext2Fs) (dir : Ext2Inode), ResolvesRecorded fs dir := by
  have hbuf : unusedFs.Buffered := by decide
  constructor
  · intro h
    have hzero := (h unusedFs oneBlockDir 1024 (fun _ => ⟨1, 0, [], 0⟩) (fun _ => ⟨2, 0, [], 0⟩) _ _
      (ext2ReadDentries_some hbuf _ _ _) (ext2ReadDentries_some hbuf _ _ _)).2 0 (by decide +kernel)
    exact absurd (congrArg Dentry.inode hzero) (by decide +kernel)
  · intro h
    let stale : ℕ → Dentry := fun _ => ⟨9, 0, [120], 0⟩
    have hs : ext2Searches unusedFs [[120]] oneBlockDir stale = _ :=
      searches_single hbuf (by decide) stale
    obtain ⟨k, hreach, -, hinode, -⟩ := h unusedFs oneBlockDir unusedFs [[120]] oneBlockDir stale _
      (hs ▸ List.mem_singleton_self _) rfl rfl 9 (by decide +kernel)
    -- the second record would lie behind the block
    have hk : k = 0 := by
      by_contra hne
      exact absurd (hreach 1 (by omega)).inside (by decide +kernel)
    rw [hk] at hinode
    exact absurd hinode (by decide +kernel)

end DepthOS
