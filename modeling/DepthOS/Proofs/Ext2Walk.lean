import DepthOS.Proofs.Ext2Scan
import DepthOS.Spec.Open

/-! The inodes that a path leads through. The test of `ext2_open` for a directory masks with the
value of a comparison, which is 0, so it never holds, and a file is searched like a directory.
Whether a path leads on through it is up to the bytes of its first block. -/

namespace DepthOS

open Lib

/-- The type bits of a directory, apart from those of a socket or a block device. -/
def IsDir (inode : Ext2Inode) : Prop := inode.typePermissions &&& 0xf000 = EXT2_INODE_T_DIR

instance (inode : Ext2Inode) : Decidable (IsDir inode) := inferInstanceAs (Decidable (_ = _))

instance (m : Mem) (blockSize n j : ℕ) : Decidable (Counts m blockSize n j) :=
  decidable_of_iff (recordOffset m j < blockSize ∧ j < n ∧
      (rawSize m (recordOffset m (j - 1)) ≠ 0 ∨ rawNameLength m (recordOffset m (j - 1)) ≠ 0) ∧
      (rawInode m (recordOffset m j) = 0 ∨ rawSize m (recordOffset m j) ≠ 0))
    ⟨fun ⟨h1, h2, h3, h4⟩ => ⟨h1, h2, h3, h4⟩, fun h => ⟨h.inside, h.room, h.more, h.whole⟩⟩

instance (m : Mem) (blockSize n k : ℕ) : Decidable (ScanReaches m blockSize n k) :=
  inferInstanceAs (Decidable (∀ j ≤ k, Counts m blockSize n j))

section Names

variable (fs : Ext2Fs) (dir : Ext2Inode)

/-- The entries when the records of `dir` have been laid over old ones: an unused record leaves
its place as it is. -/
def shownEntries (ds : ℕ → Dentry) (k : ℕ) : Dentry :=
  if ScanReaches (dirBlock fs dir) fs.blockSize 1024 k ∧
      rawInode (dirBlock fs dir) (recordOffset (dirBlock fs dir) k) ≠ 0 then
    recordEntry (dirBlock fs dir) k
  else ds k

/-- Record `k` is the first one of `dir` that shows the name. -/
structure FirstNamed (ds : ℕ → Dentry) (pfrag : List Byte) (k : ℕ) : Prop where
  reached : ScanReaches (dirBlock fs dir) fs.blockSize 1024 k
  name : cstring pfrag = cstring (shownEntries fs dir ds k).name
  first : ∀ j < k, cstring pfrag ≠ cstring (shownEntries fs dir ds j).name

end Names

/-- From one inode the components lead to another, each named in what the ones before it lead to,
and `P` holds of every inode that one of them is looked up in. -/
inductive Leads (P : Ext2Inode → Prop) : Ext2Fs → List (List Byte) → Ext2Inode → (ℕ → Dentry) →
    Ext2Fs → Ext2Inode → (ℕ → Dentry) → Prop
  | done (fs : Ext2Fs) (curr : Ext2Inode) (ds : ℕ → Dentry) : Leads P fs [] curr ds fs curr ds
  | skip {fs fs' : Ext2Fs} {rest : List (List Byte)} {curr last : Ext2Inode} {ds ds' : ℕ → Dentry} :
    Leads P fs rest curr ds fs' last ds' → Leads P fs ([] :: rest) curr ds fs' last ds'
  | find {fs fs' : Ext2Fs} {pfrag : List Byte} {rest : List (List Byte)} {curr last : Ext2Inode}
      {ds ds' : ℕ → Dentry} {k : ℕ} :
    pfrag ≠ [] → P curr → FirstNamed fs curr ds pfrag k →
    Leads P fs.next rest (ext2GetInode fs (shownEntries fs curr ds k).inode)
      (shownEntries fs curr ds) fs' last ds' →
    Leads P fs (pfrag :: rest) curr ds fs' last ds'

/-- The components lead on from `file`, whatever the inodes on the way are. -/
def LeadsOn (fs : Ext2Fs) (pfrags : List (List Byte)) (file : Ext2Inode) (ds : ℕ → Dentry) : Prop :=
  ∃ fs' last ds', Leads (fun _ => True) fs pfrags file ds fs' last ds'

/-- Through directories the path leads to an inode that is none, and on from there. -/
def LeadsThroughFile (fs : Ext2Fs) (pfrags : List (List Byte)) (root : Ext2Inode)
    (ds : ℕ → Dentry) : Prop :=
  ∃ (front : List (List Byte)) (pfrag : List Byte) (rest : List (List Byte)) (fs' : Ext2Fs)
    (file : Ext2Inode) (ds' : ℕ → Dentry),
    pfrags = front ++ pfrag :: rest ∧ pfrag ≠ [] ∧ Leads IsDir fs front root ds fs' file ds' ∧
      ¬ IsDir file ∧ LeadsOn fs' (pfrag :: rest) file ds'

section Leads

variable {P : Ext2Inode → Prop} {fs fs' : Ext2Fs} {pfrag : List Byte} {rest : List (List Byte)}
  {curr last root : Ext2Inode} {ds ds' : ℕ → Dentry} {k : ℕ}

theorem FirstNamed.unique {j : ℕ} (h : FirstNamed fs curr ds pfrag j)
    (h' : FirstNamed fs curr ds pfrag k) : j = k := by
  apply Nat.le_antisymm
  · exact Nat.le_of_not_lt fun hlt => h.first k hlt h'.name
  · exact Nat.le_of_not_lt fun hlt => h'.first j hlt h.name

theorem leads_skip_iff :
    Leads P fs ([] :: rest) curr ds fs' last ds' ↔ Leads P fs rest curr ds fs' last ds' := by
  constructor
  · intro h
    cases h with
    | skip h => exact h
    | find hne _ _ _ => exact absurd rfl hne
  · exact Leads.skip

theorem leads_find_iff (hne : pfrag ≠ []) (hk : FirstNamed fs curr ds pfrag k) :
    Leads P fs (pfrag :: rest) curr ds fs' last ds' ↔
      P curr ∧ Leads P fs.next rest (ext2GetInode fs (shownEntries fs curr ds k).inode)
        (shownEntries fs curr ds) fs' last ds' := by
  constructor
  · intro h
    cases h with
    | skip => exact absurd rfl hne
    | find _ hp hj h =>
      rw [hk.unique hj]
      exact ⟨hp, h⟩
  · exact fun h => Leads.find hne h.1 hk h.2

theorem not_leads_missing (hne : pfrag ≠ []) (hno : ∀ k, ¬ FirstNamed fs curr ds pfrag k) :
    ¬ Leads P fs (pfrag :: rest) curr ds fs' last ds' := by
  intro h
  cases h with
  | skip => exact hne rfl
  | find _ _ hk _ => exact hno _ hk

theorem leadsOn_skip_iff : LeadsOn fs ([] :: rest) curr ds ↔ LeadsOn fs rest curr ds := by
  simp only [LeadsOn, leads_skip_iff]

theorem leadsOn_find_iff (hne : pfrag ≠ []) (hk : FirstNamed fs curr ds pfrag k) :
    LeadsOn fs (pfrag :: rest) curr ds ↔
      LeadsOn fs.next rest (ext2GetInode fs (shownEntries fs curr ds k).inode)
        (shownEntries fs curr ds) := by
  simp only [LeadsOn, leads_find_iff hne hk, true_and]

theorem through_cons_iff : LeadsThroughFile fs (pfrag :: rest) curr ds ↔
    (pfrag ≠ [] ∧ ¬ IsDir curr ∧ LeadsOn fs (pfrag :: rest) curr ds) ∨
    ∃ (front : List (List Byte)) (p : List Byte) (post : List (List Byte)) (fs' : Ext2Fs)
      (file : Ext2Inode) (ds' : ℕ → Dentry), rest = front ++ p :: post ∧ p ≠ [] ∧
        Leads IsDir fs (pfrag :: front) curr ds fs' file ds' ∧ ¬ IsDir file ∧
        LeadsOn fs' (p :: post) file ds' := by
  constructor
  · intro h
    obtain ⟨front, p, post, fs', file, ds', heq, hp, hfront, hfile, hon⟩ := h
    cases front with
    | nil =>
      obtain ⟨rfl, rfl⟩ := List.cons.inj heq
      cases hfront
      exact Or.inl ⟨hp, hfile, hon⟩
    | cons q front =>
      obtain ⟨rfl, rfl⟩ := List.cons.inj heq
      exact Or.inr ⟨front, p, post, fs', file, ds', rfl, hp, hfront, hfile, hon⟩
  · intro h
    obtain ⟨hp, hfile, hon⟩ | ⟨front, p, post, fs', file, ds', rfl, hp, hfront, hfile, hon⟩ := h
    · exact ⟨[], pfrag, rest, fs, curr, ds, rfl, hp, Leads.done fs curr ds, hfile, hon⟩
    · exact ⟨pfrag :: front, p, post, fs', file, ds', rfl, hp, hfront, hfile, hon⟩

theorem through_skip_iff :
    LeadsThroughFile fs ([] :: rest) curr ds ↔ LeadsThroughFile fs rest curr ds := by
  rw [through_cons_iff]
  simp only [leads_skip_iff, ne_eq, not_true_eq_false, false_and, false_or]
  exact Iff.rfl

theorem through_find_iff (hne : pfrag ≠ []) (hk : FirstNamed fs curr ds pfrag k) :
    LeadsThroughFile fs (pfrag :: rest) curr ds ↔
      (¬ IsDir curr ∧ LeadsOn fs.next rest (ext2GetInode fs (shownEntries fs curr ds k).inode)
        (shownEntries fs curr ds)) ∨
      (IsDir curr ∧ LeadsThroughFile fs.next rest
        (ext2GetInode fs (shownEntries fs curr ds k).inode) (shownEntries fs curr ds)) := by
  rw [through_cons_iff, leadsOn_find_iff hne hk]
  simp only [leads_find_iff hne hk, hne, ne_eq, not_false_eq_true, true_and]
  refine or_congr Iff.rfl ?_
  constructor
  · rintro ⟨front, p, post, fs', file, ds', heq, hp, ⟨hdir, hfront⟩, hfile, hon⟩
    exact ⟨hdir, front, p, post, fs', file, ds', heq, hp, hfront, hfile, hon⟩
  · rintro ⟨hdir, front, p, post, fs', file, ds', heq, hp, hfront, hfile, hon⟩
    exact ⟨front, p, post, fs', file, ds', heq, hp, ⟨hdir, hfront⟩, hfile, hon⟩

theorem not_through_missing (hne : pfrag ≠ []) (hno : ∀ k, ¬ FirstNamed fs curr ds pfrag k) :
    ¬ LeadsThroughFile fs (pfrag :: rest) curr ds := by
  rw [through_cons_iff]
  rintro (⟨-, -, _, _, _, hon⟩ | ⟨_, _, _, _, _, _, -, -, hfront, -⟩)
  · exact not_leads_missing hne hno hon
  · exact not_leads_missing hne hno hfront

theorem Leads.ends {pfrags : List (List Byte)} (h : Leads P fs pfrags root ds fs' last ds') :
    (∃ fresh, fs' = fs.refresh fresh) ∧ (last = root ∨ ∃ i, last = ext2GetInode fs i) := by
  induction h with
  | done fs curr ds => exact ⟨⟨fs.fresh, rfl⟩, Or.inl rfl⟩
  | skip _ ih => exact ih
  | find _ _ _ _ ih =>
    obtain ⟨⟨fresh, rfl⟩, hlast⟩ := ih
    refine ⟨⟨fresh, rfl⟩, Or.inr ?_⟩
    rcases hlast with rfl | ⟨i, rfl⟩
    · exact ⟨_, rfl⟩
    · exact ⟨i, rfl⟩

theorem not_through_of_plain {pfrags : List (List Byte)} (hroot : IsDir root)
    (hplain : ∀ fresh i, ¬ IsDir (ext2GetInode fs i) →
      ¬ ScanReaches (dirBlock (fs.refresh fresh) (ext2GetInode fs i)) fs.blockSize 1024 0) :
    ¬ LeadsThroughFile fs pfrags root ds := by
  rintro ⟨front, pfrag, rest, fs', file, ds', -, hne, hfront, hfile, fs'', last, ds'', hon⟩
  obtain ⟨⟨fresh, rfl⟩, rfl | ⟨i, rfl⟩⟩ := hfront.ends
  · exact hfile hroot
  · cases hon with
    | skip => exact hne rfl
    | find _ _ hk _ =>
      exact hplain fresh i hfile fun j hj => hk.reached j (by omega)

end Leads

/-! The walk goes where the path leads. -/

section Walk

variable {fs : Ext2Fs} {pfrag : List Byte} {rest : List (List Byte)} {curr : Ext2Inode}
  {ds : ℕ → Dentry} {icurr k : ℕ}

theorem readEntries_shown : (readEntries fs curr ds 1024).2 = shownEntries fs curr ds := by
  have h := readEntries_slots fs curr ds 1024
  funext k
  unfold shownEntries
  by_cases hk : k < (readEntries fs curr ds 1024).1
  · have hreach := (h.reaches k).1 hk
    by_cases h0 : rawInode (dirBlock fs curr) (recordOffset (dirBlock fs curr) k) = 0
    · rw [if_neg fun hc => hc.2 h0, h.unused k hk h0]
    · rw [if_pos ⟨hreach, h0⟩, h.used k (Nat.zero_le k) hk h0]
  · rw [if_neg fun hc => hk ((h.reaches k).2 hc.1), h.behind k (Nat.le_of_not_lt hk)]

theorem find_named_iff : (List.range (readEntries fs curr ds 1024).1).find? (fun j =>
      cstring pfrag == cstring ((readEntries fs curr ds 1024).2 j).name) = some k ↔
    FirstNamed fs curr ds pfrag k := by
  rw [List.find?_range_eq_some, List.mem_range, (readEntries_slots fs curr ds 1024).reaches,
    readEntries_shown]
  constructor
  · intro h
    exact ⟨h.2.1, by simpa using h.1, fun j hj => by simpa using h.2.2 j hj⟩
  · intro h
    exact ⟨by simpa using h.name, h.reached, fun j hj => by simpa using h.first j hj⟩

theorem walk_skip : walkPath fs ([] :: rest) curr icurr ds = walkPath fs rest curr icurr ds := by
  rw [walkPath, if_pos rfl]

theorem searches_skip : ext2Searches fs ([] :: rest) curr ds = ext2Searches fs rest curr ds := by
  rw [ext2Searches, if_neg (mask_never curr), if_pos rfl]

theorem walk_find (hne : pfrag ≠ []) (hk : FirstNamed fs curr ds pfrag k) :
    walkPath fs (pfrag :: rest) curr icurr ds =
      walkPath fs.next rest (ext2GetInode fs (shownEntries fs curr ds k).inode)
        (shownEntries fs curr ds k).inode (shownEntries fs curr ds) := by
  rw [walkPath, if_neg hne]
  dsimp only
  rw [find_named_iff.2 hk, readEntries_shown]

theorem searches_find (hbuf : fs.Buffered) (hne : pfrag ≠ [])
    (hk : FirstNamed fs curr ds pfrag k) : ext2Searches fs (pfrag :: rest) curr ds =
      ⟨fs, curr, pfrag, some (shownEntries fs curr ds k).inode⟩ ::
        ext2Searches fs.next rest (ext2GetInode fs (shownEntries fs curr ds k).inode)
          (shownEntries fs curr ds) := by
  rw [ext2Searches, if_neg (mask_never curr), if_neg hne, ext2ReadDentries_some hbuf]
  dsimp only
  rw [find_named_iff.2 hk, readEntries_shown]

theorem walk_missing (hne : pfrag ≠ []) (hno : ∀ k, ¬ FirstNamed fs curr ds pfrag k) :
    walkPath fs (pfrag :: rest) curr icurr ds = none := by
  rw [walkPath, if_neg hne]
  dsimp only
  split
  · next j hfind => exact absurd (find_named_iff.1 hfind) (hno j)
  · rfl

theorem walk_isSome_iff (pfrags : List (List Byte)) :
    (walkPath fs pfrags curr icurr ds).isSome = true ↔ LeadsOn fs pfrags curr ds := by
  induction pfrags generalizing fs curr icurr ds with
  | nil => exact ⟨fun _ => ⟨fs, curr, ds, Leads.done fs curr ds⟩, fun _ => rfl⟩
  | cons pfrag rest ih =>
    by_cases hne : pfrag = []
    · subst hne
      rw [walk_skip, leadsOn_skip_iff, ih]
    · by_cases hk : ∃ k, FirstNamed fs curr ds pfrag k
      · obtain ⟨k, hk⟩ := hk
        rw [walk_find hne hk, leadsOn_find_iff hne hk, ih]
      · have hno := not_exists.1 hk
        rw [walk_missing hne hno]
        exact iff_of_false (by simp) fun ⟨_, _, _, hon⟩ => not_leads_missing hne hno hon

theorem searched_file_iff (pfrags : List (List Byte)) (hbuf : fs.Buffered) :
    ((walkPath fs pfrags curr icurr ds).isSome = true ∧
      ∃ s ∈ ext2Searches fs pfrags curr ds, ¬ IsDir s.dir) ↔ LeadsThroughFile fs pfrags curr ds := by
  induction pfrags generalizing fs curr icurr ds with
  | nil =>
    simp [ext2Searches, LeadsThroughFile]
  | cons pfrag rest ih =>
    have hnext : fs.next.Buffered := hbuf
    by_cases hne : pfrag = []
    · subst hne
      rw [walk_skip, searches_skip, through_skip_iff, ih hbuf]
    · by_cases hk : ∃ k, FirstNamed fs curr ds pfrag k
      · obtain ⟨k, hk⟩ := hk
        rw [through_find_iff hne hk, ← ih hnext, ← walk_isSome_iff, walk_find hne hk,
          searches_find hbuf hne hk]
        simp only [List.mem_cons, exists_eq_or_imp]
        tauto
      · have hno := not_exists.1 hk
        simp [walk_missing hne hno, not_through_missing hne hno]

theorem searches_null (pfrags : List (List Byte)) (hnull : ¬ fs.Buffered) {x : Option (Ext2Inode × ℕ)}
    (h : ext2Walk fs pfrags curr icurr ds = some x) : ext2Searches fs pfrags curr ds = [] := by
  induction pfrags with
  | nil => rfl
  | cons pfrag rest ih =>
    rw [ext2Walk, if_neg (mask_never curr)] at h
    split_ifs at h with hne
    · subst hne
      rw [searches_skip]
      exact ih h
    · rw [ext2ReadDentries_none hnull] at h
      cases h

end Walk

/-- A walk that returns an inode has searched directories only, exactly when there is no block
buffer or the path does not lead through something else: through directories to an inode that is
none, and on by what its first block shows. `pfrag` and `stale` are what the two buffers hold at
first. Where the first blocks of files show no record, no path does. -/
theorem ext2_open_through_dirs_iff (fs : Ext2Fs) (root : Ext2Inode) (pfrag : Mem) (path : CString)
    (stale : ℕ → Dentry) :
    ((∀ f, ext2Walk fs (ext2Fragments pfrag path) root 2 stale = some (some f) →
      ∀ s ∈ ext2Searches fs (ext2Fragments pfrag path) root stale, IsDir s.dir) ↔
    ¬ fs.Buffered ∨ ¬ LeadsThroughFile fs (ext2Fragments pfrag path) root stale) ∧
    (IsDir root → (∀ fresh i, ¬ IsDir (ext2GetInode fs i) →
        ¬ ScanReaches (dirBlock (fs.refresh fresh) (ext2GetInode fs i)) fs.blockSize 1024 0) →
      ¬ LeadsThroughFile fs (ext2Fragments pfrag path) root stale) := by
  refine ⟨?_, fun hroot hplain => not_through_of_plain hroot hplain⟩
  by_cases hbuf : fs.Buffered
  · rw [or_iff_right (not_not.2 hbuf), ← searched_file_iff _ hbuf]
    constructor
    · rintro h ⟨hsome, s, hs, hfile⟩
      obtain ⟨f, hf⟩ := Option.isSome_iff_exists.1 hsome
      exact hfile (h f ((ext2Walk_some _ hbuf root 2 stale).trans (congrArg some hf)) s hs)
    · intro h f hf s hs
      rw [ext2Walk_some _ hbuf, Option.some.injEq] at hf
      by_contra hfile
      exact h ⟨by rw [hf]; rfl, s, hs, hfile⟩
  · refine iff_of_true (fun f hf s hs => ?_) (Or.inl hbuf)
    rw [searches_null _ hbuf hf] at hs
    exact absurd hs List.not_mem_nil

/-- Inode 3 is a file whose block 7 looks like a directory with a record "x"; the root, in block
6, has it under the name "f". -/
def imitationWord (w : ℕ) : ℕ :=
  if w = 1280 then 0x8000
  else if w = 1281 then 1024
  else if w = 1290 then 7
  else if w = 1536 then 3
  else if w = 1537 then 0x01010400
  else if w = 1538 then 102
  else if w = 1792 then 4
  else if w = 1793 then 0x01010400
  else if w = 1794 then 120
  else 0

def imitationRoot : Ext2Inode := ⟨0x4000, 1024, fun i => if i = 0 then 6 else 0, 0, 0⟩

/-- "f/x" -/
def imitationPath : CString := ⟨[102, 47, 120], by decide⟩

/-- It is opened, by a search in the file. -/
theorem ext2_open_through_file : ¬ ∀ (fs : Ext2Fs) (root : Ext2Inode) (pfrag : Mem)
    (path : CString) (stale : ℕ → Dentry),
    ∀ f, ext2Walk fs (ext2Fragments pfrag path) root 2 stale = some (some f) →
      ∀ s ∈ ext2Searches fs (ext2Fragments pfrag path) root stale, IsDir s.dir := by
  intro h
  have hsome : (walkPath (wordFs imitationWord) (ext2Fragments (fun _ => 0) imitationPath)
      imitationRoot 2 fun _ => ⟨0, 0, [], 0⟩).isSome = true := by decide +kernel
  obtain ⟨f, hf⟩ := Option.isSome_iff_exists.1 hsome
  have hdirs := h (wordFs imitationWord) imitationRoot (fun _ => 0) imitationPath
    (fun _ => ⟨0, 0, [], 0⟩) f ((ext2Walk_some _ (by decide) _ _ _).trans (congrArg some hf))
  exact absurd hdirs (by decide +kernel)

end DepthOS
