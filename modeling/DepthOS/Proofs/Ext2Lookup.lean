import DepthOS.Proofs.Ext2Exact
import Mathlib.Data.List.TakeWhile

/-! Lookup against iteration: `ext2_iter` goes through every record of every
block, `ext2_open` through the first block only and over entries its buffer held
before. -/

namespace DepthOS

open Lib

/-- The records `ext2_read_dentries` gets to: of the first block, at most 1024. -/
def scanned (blocks : List (List DirRec)) : List DirRec := (blocks.headD []).take 1024

/-- Whatever the buffers hold, the lookup of `name` in `dir` and the iteration over
`dir` agree on the inode. -/
def LookupAgrees (fs : Ext2Fs) (dir : Ext2Inode) (name : List Byte) : Prop :=
  ∀ (stale : ℕ → Dentry) (icurr maxNameLen : ℕ), 256 ≤ maxNameLen → maxNameLen < 4294967296 →
    ∀ i > 0, (∃ c, ext2Walk fs [name] dir icurr stale = some (some (c, i))) ↔
      ∃ d, IterYields fs dir maxNameLen 0 d ∧ d.name = name ∧ d.inode = i

/-- The blocks of a directory that lie in the three ranges. -/
def ranged (fs : Ext2Fs) (blocks : List (List DirRec)) : List (List DirRec) :=
  blocks.take (12 + fs.idblocksCount + fs.idblocksCount * fs.idblocksCount)

/-- The blocks are in reach of the code: there is a block buffer, no block number on the way to
one of them is found as 0, and every record is found as it is. -/
structure InReach (fs : Ext2Fs) (dir : Ext2Inode) (blocks : List (List DirRec)) : Prop where
  buffered : fs.Buffered
  path : ∀ (fresh : ℕ → Leftovers), ∀ i < blocks.length, BlockSeen (fs.refresh fresh) dir i
  records : ∀ (fresh : ℕ → Leftovers) (b : ℕ) (hb : b < blocks.length),
    Tiled (seenByte (fs.refresh fresh) dir) (b * fs.blockSize) ((b + 1) * fs.blockSize) blocks[b]

/-- The record of `name` is scanned and no unused record comes before it; or no record
has the name and all that are scanned are in use. -/
def LookupSafe (blocks : List (List DirRec)) (name : List Byte) : Prop :=
  (∃ (k : ℕ) (hk : k < (scanned blocks).length), (scanned blocks)[k].inode ≠ 0 ∧
    (scanned blocks)[k].name = name ∧
    ∀ (j : ℕ) (hj : j < k), (scanned blocks)[j].inode ≠ 0) ∨
  ((∀ r ∈ blocks.flatten, r.inode ≠ 0 → r.name ≠ name) ∧ ∀ r ∈ scanned blocks, r.inode ≠ 0)

/-- The blocks from the start of a directory to its end, or to the end of the three ranges. -/
structure DirectoryFront (fs : Ext2Fs) (dir : Ext2Inode) (blocks : List (List DirRec)) : Prop where
  size_lt : dir.sizeLo + 1024 ≤ 4294967296
  inside : blocks.length * fs.blockSize ≤ dir.sizeLo
  ends : blocks.length * fs.blockSize = dir.sizeLo ∨
    blocks.length = 12 + fs.idblocksCount + fs.idblocksCount * fs.idblocksCount
  names : ((blocks.flatten.filter (·.inode ≠ 0)).map (·.name)).Nodup
  text : ∀ r ∈ blocks.flatten, r.inode ≠ 0 → (0 : Byte) ∉ r.name

theorem Ext2Directory.front {fs : Ext2Fs} {dir : Ext2Inode} {triple : ℕ}
    {blocks : List (List DirRec)} (h : Ext2Directory fs dir triple blocks) :
    DirectoryFront fs dir (ranged fs blocks) := by
  have hsub : (ranged fs blocks).flatten.Sublist blocks.flatten :=
    (List.take_sublist _ _).flatten
  have hlen : (ranged fs blocks).length = min _ blocks.length := List.length_take
  refine ⟨?_, ?_, ?_, h.names.sublist ((hsub.filter _).map _), fun r hr => h.text r (hsub.subset hr)⟩
  · -- a whole number of KiB below 4 GiB leaves one
    have hlt := h.size_lt
    have hdvd : 1024 ∣ dir.sizeLo := by
      rw [h.size, fs.blockSize_eq]
      exact Dvd.dvd.mul_left (Dvd.intro _ rfl) _
    omega
  · rw [h.size, hlen]
    exact Nat.mul_le_mul_right _ (Nat.min_le_right _ _)
  · rw [h.size, hlen]
    rcases Nat.le_total blocks.length
      (12 + fs.idblocksCount + fs.idblocksCount * fs.idblocksCount) with hle | hge
    · exact Or.inl (by rw [Nat.min_eq_right hle])
    · exact Or.inr (Nat.min_eq_left hge)

section Iterate

variable {fs : Ext2Fs} {dir : Ext2Inode} {triple : ℕ} {blocks : List (List DirRec)}
  {name : List Byte} {maxNameLen i a : ℕ}

theorem yields_of_reads {rs : List DirRec} (h : IterReads fs dir maxNameLen a rs) :
    (∃ d, IterYields fs dir maxNameLen a d ∧ d.name = name ∧ d.inode = i) ↔
      ∃ r ∈ rs, r.name = name ∧ r.inode = i := by
  induction rs generalizing a with
  | nil =>
    have hend {fresh : ℕ → Leftovers} {raw name : Mem} {dst : Dentry} {x : ℕ × Dentry × ℕ}
        (hx : ext2Iter (fs.refresh fresh) dir raw name dst maxNameLen a = some x) : x.1 = 0 := by
      obtain ⟨y, hy, h0⟩ := h fresh raw name dst
      rw [Option.some.inj (hx.symm.trans hy)]
      exact h0
    refine iff_of_false ?_ fun ⟨r, hr, _⟩ => absurd hr List.not_mem_nil
    rintro ⟨d, hd, -⟩
    cases hd with
    | here hcall hret => exact hret (hend hcall)
    | later hcall hret _ => exact hret (hend hcall)
  | cons r rs ih =>
    obtain ⟨hret, hrest⟩ := h
    -- every call from here gives the same entry and the same next offset
    have hsame {fresh : ℕ → Leftovers} {raw name : Mem} {dst d : Dentry} {ret next : ℕ}
        (hx : ext2Iter (fs.refresh fresh) dir raw name dst maxNameLen a = some (ret, d, next)) :
        d = ⟨r.inode, r.type, r.name, a⟩ ∧ next = a + r.size := by
      obtain ⟨ret', nm, hcall, -⟩ := hret fresh raw name dst
      exact Prod.mk.inj (Prod.mk.inj (Option.some.inj (hx.symm.trans hcall))).2
    rw [List.exists_mem_cons_iff, ← ih hrest]
    obtain ⟨ret, nm, hfirst, h0, -⟩ := hret fs.fresh (fun _ => 0) (fun _ => 0) ⟨0, 0, [], 0⟩
    constructor
    · rintro ⟨d, hd, h1, h2⟩
      cases hd with
      | here hcall _ =>
        obtain ⟨rfl, -⟩ := hsame hcall
        exact Or.inl ⟨h1, h2⟩
      | later hcall _ hd =>
        obtain ⟨-, rfl⟩ := hsame hcall
        exact Or.inr ⟨d, hd, h1, h2⟩
    · rintro (⟨h1, h2⟩ | ⟨d, hd, h1, h2⟩)
      · exact ⟨_, .here hfirst h0, h1, h2⟩
      · exact ⟨d, .later hfirst h0 hd, h1, h2⟩

theorem yields_iff (hdir : DirectoryFront fs dir blocks) (hreach : InReach fs dir blocks)
    (hmax : 256 ≤ maxNameLen) (hmax' : maxNameLen < 4294967296) :
    (∃ d, IterYields fs dir maxNameLen 0 d ∧ d.name = name ∧ d.inode = i) ↔
      ∃ r ∈ blocks.flatten, r.name = name ∧ r.inode = i := by
  have hwhole (fresh : ℕ → Leftovers) : Tiled (seenByte (fs.refresh fresh) dir) 0
      (blocks.length * fs.blockSize) blocks.flatten := blocks_whole (hreach.records fresh)
  have hend : IterEnds fs dir maxNameLen (blocks.length * fs.blockSize) := by
    rcases hdir.ends with heq | hlen
    · exact iterEnds_past heq.ge
    · rcases Nat.lt_or_ge (blocks.length * fs.blockSize) dir.sizeLo with hlt | hge
      · exact iterEnds_beyond hreach.buffered hdir.size_lt hlen.ge hlt
      · exact iterEnds_past hge
  refine yields_of_reads (iterReads_of_seen hreach.buffered hdir.size_lt (hwhole fs.fresh)
    (blocks_fit hdir.inside (hreach.records fs.fresh))
    (fun fresh i hi => hreach.path fresh i (Nat.lt_of_mul_lt_mul_right hi)) hmax hmax'
    (fun fresh => tiled_seen (hwhole fresh) hdir.inside) hend)

theorem record_unique (hdir : DirectoryFront fs dir blocks) {r r' : DirRec}
    (hr : r ∈ blocks.flatten) (hr' : r' ∈ blocks.flatten) (h0 : r.inode ≠ 0) (h0' : r'.inode ≠ 0)
    (hname : r.name = r'.name) : r = r' := by
  refine List.inj_on_of_nodup_map hdir.names ?_ ?_ hname
  · exact List.mem_filter.2 ⟨hr, decide_eq_true h0⟩
  · exact List.mem_filter.2 ⟨hr', decide_eq_true h0'⟩

theorem mem_of_scanned {r : DirRec} (h : r ∈ scanned blocks) : r ∈ blocks.flatten := by
  have hmem := List.mem_of_mem_take h
  cases blocks with
  | nil => exact absurd hmem (List.not_mem_nil)
  | cons rs rest =>
    rw [List.flatten_cons, List.mem_append]
    exact Or.inl hmem

end Iterate

section Lookup

variable {fs : Ext2Fs} {dir : Ext2Inode} {triple : ℕ} {blocks : List (List DirRec)}

theorem dentries_block (hdir : DirectoryFront fs dir blocks)
    (hreach : InReach fs dir blocks) (m : Mem) :
    (readData fs dir 0 m fs.blockSize).2 =
      if blocks = [] then m else blit m 0 (seenByte fs dir) fs.blockSize := by
  have hle := fs.blockSize_le
  have hpos := fs.blockSize_pos
  by_cases hnil : blocks = []
  · have hzero : dir.sizeLo = 0 := by
      have hends := hdir.ends
      rw [hnil, List.length_nil, Nat.zero_mul] at hends
      omega
    unfold readData ext2InodeSize
    dsimp only
    rw [if_pos hnil, if_pos hzero.le]
  · have hlen := List.length_pos_of_ne_nil hnil
    have hone : 1 * fs.blockSize ≤ dir.sizeLo := (Nat.mul_le_mul_right _ hlen).trans hdir.inside
    have hmin : min fs.blockSize (dir.sizeLo - 0) = fs.blockSize := by omega
    have hS := hdir.size_lt
    have hseen : BlockSeen fs dir 0 := hreach.path fs.fresh 0 hlen
    rw [← Nat.zero_div fs.blockSize] at hseen
    rw [if_neg hnil, readData_seen (by omega) (by omega) (by omega)
      hpos (by rw [hmin, Nat.zero_mod, Nat.zero_add]) hseen, hmin]
    simp only [Nat.zero_add]

theorem readEntries_spec (hdir : DirectoryFront fs dir blocks)
    (hreach : InReach fs dir blocks) (ds : ℕ → Dentry) : ∃ ds',
    readEntries fs dir ds 1024 = ((scanned blocks).length, ds') ∧
      Filled ds ds' 0 1024 (blocks.headD []) := by
  have hle := fs.blockSize_le
  have hpos := fs.blockSize_pos
  unfold readEntries
  dsimp only
  rw [dentries_block hdir hreach]
  generalize (fs.fresh 0).dentries = left
  by_cases hnil : blocks = []
  · -- an empty directory leaves the zeroed block, which ends the scan at once
    have h4 := fs.four_idblocks
    have hz : ∀ x < fs.blockSize, blit left 0 (fun _ => 0) fs.blockSize x = 0 := fun x hx =>
      blit_front hx
    have hbs := fs.blockSize_eq
    have hpow := Nat.two_pow_pos fs.logBlockSize
    rw [if_pos hnil, hnil]
    refine ⟨ds, ?_, fun _ _ => rfl, fun k hk => absurd hk (Nat.not_lt_zero k),
      fun k hk => absurd hk (Nat.not_lt_zero k)⟩
    rw [readDentriesLoop, if_neg]
    · rfl
    · simp only [rawSize, rawNameLength, load16, Nat.zero_add, hz 4 (by omega), hz 5 (by omega),
        hz 6 (by omega)]
      simp
  · obtain ⟨rs, rest, rfl⟩ := List.exists_cons_of_ne_nil hnil
    rw [if_neg hnil]
    have ht : Tiled (seenByte fs dir) _ _ _ := hreach.records fs.fresh 0 (by simp)
    rw [Nat.zero_mul, Nat.zero_add, Nat.one_mul, List.getElem_cons_zero] at ht
    generalize blit left 0 (fun _ => 0) fs.blockSize = zeroed
    have ht' : Tiled (blit zeroed 0 (seenByte fs dir) fs.blockSize) 0 fs.blockSize rs := by
      refine ht.congr fun x _ hx => ?_
      exact blit_front hx
    have hraw : rawSize (blit zeroed 0 (seenByte fs dir) fs.blockSize) 0 ≠ 0 := by
      cases rs with
      | nil => exact absurd ht' (by unfold Tiled; omega)
      | cons r rs =>
        obtain ⟨hr, hsize, -⟩ := ht'
        have : r.size ≠ 0 := by omega
        rw [← hr] at this
        exact this
    obtain ⟨ds', hloop, hf⟩ := readDentriesLoop_spec (n := 1024) (by omega) rs 1024 0 0 0 ds ht'
      (by norm_num) hraw
    refine ⟨ds', ?_, hf⟩
    rw [hloop, Nat.zero_add, scanned, List.headD_cons, List.length_take]

theorem ext2Walk_single (hbuf : fs.Buffered) {name : List Byte} (hname : name ≠ [])
    {ds ds' : ℕ → Dentry} {n icurr i : ℕ} (hread : readEntries fs dir ds 1024 = (n, ds')) :
    (∃ c, ext2Walk fs [name] dir icurr ds = some (some (c, i))) ↔
      ∃ k < n, cstring name = cstring (ds' k).name ∧
        (∀ j < k, cstring name ≠ cstring (ds' j).name) ∧ (ds' k).inode = i := by
  rw [ext2Walk_some _ hbuf]
  unfold walkPath
  rw [if_neg hname, hread]
  dsimp only
  constructor
  · rintro ⟨c, hc⟩
    split at hc
    · next k hfind =>
      obtain ⟨hk, hmem, hbefore⟩ := List.find?_range_eq_some.1 hfind
      simp only [walkPath, Option.some.injEq, Prod.mk.injEq] at hc
      refine ⟨k, List.mem_range.1 hmem, by simpa using hk, fun j hj => ?_, hc.2⟩
      simpa using hbefore j hj
    · cases Option.some.inj hc
  · rintro ⟨k, hk, hmatch, hbefore, hi⟩
    have hfind : (List.range n).find? (fun j => cstring name == cstring (ds' j).name) = some k := by
      rw [List.find?_range_eq_some]
      exact ⟨by simpa using hmatch, List.mem_range.2 hk, fun j hj => by simpa using hbefore j hj⟩
    rw [hfind]
    exact ⟨ext2GetInode fs i, by simp only [walkPath, hi]⟩

theorem cstring_eq {s : List Byte} (h : (0 : Byte) ∉ s) : cstring s = s := by
  unfold cstring
  rw [List.takeWhile_eq_self_iff]
  intro b hb
  exact decide_eq_true fun h0 => h (h0 ▸ hb)

/-- The lookup in terms of the records: the first slot that is unused with a stale
entry of that name, or in use with the name. -/
theorem lookup_slot (hdir : DirectoryFront fs dir blocks) (hreach : InReach fs dir blocks)
    {name : List Byte} (hne : name ≠ []) (htext : (0 : Byte) ∉ name) (stale : ℕ → Dentry)
    (icurr i : ℕ) :
    (∃ c, ext2Walk fs [name] dir icurr stale = some (some (c, i))) ↔
      ∃ (k : ℕ) (hk : k < (scanned blocks).length),
        (if (scanned blocks)[k].inode = 0 then
          name = cstring (stale k).name ∧ (stale k).inode = i
        else name = (scanned blocks)[k].name ∧ (scanned blocks)[k].inode = i) ∧
        ∀ (j : ℕ) (hj : j < k), if (scanned blocks)[j].inode = 0 then
          name ≠ cstring (stale j).name else name ≠ (scanned blocks)[j].name := by
  obtain ⟨ds', hread, hfill⟩ := readEntries_spec hdir hreach stale
  have hlen : (scanned blocks).length = min 1024 (blocks.headD []).length := List.length_take
  -- slot by slot: an unused record leaves the stale entry
  have hunused : ∀ (k : ℕ) (hk : k < (scanned blocks).length), (scanned blocks)[k].inode = 0 →
      ds' k = stale k := by
    intro k hk h0
    have hk' : k < (blocks.headD []).length := by omega
    have h := hfill.unused k hk' (by omega)
    rw [Nat.zero_add] at h
    apply h
    simpa [scanned] using h0
  have hused : ∀ (k : ℕ) (hk : k < (scanned blocks).length), (scanned blocks)[k].inode ≠ 0 →
      (ds' k).inode = (scanned blocks)[k].inode ∧
      cstring (ds' k).name = (scanned blocks)[k].name := by
    intro k hk h0
    have hk' : k < (blocks.headD []).length := by omega
    have hget : (scanned blocks)[k] = (blocks.headD [])[k] := by simp [scanned]
    have h := hfill.used k hk' (by omega)
    rw [Nat.zero_add, ← hget] at h
    obtain ⟨h1, h2⟩ := h h0
    refine ⟨h1, ?_⟩
    rw [h2, cstring_eq]
    exact hdir.text _ (mem_of_scanned (List.getElem_mem hk)) h0
  rw [ext2Walk_single hreach.buffered hne hread, cstring_eq htext]
  constructor
  · rintro ⟨k, hk, hmatch, hbefore, hi⟩
    refine ⟨k, hk, ?_, fun j hj => ?_⟩
    · split_ifs with h0
      · rw [← hunused k hk h0]
        exact ⟨hmatch, hi⟩
      · obtain ⟨h1, h2⟩ := hused k hk h0
        rw [← h1, ← h2]
        exact ⟨hmatch, hi⟩
    · have hb := hbefore j hj
      split_ifs with h0
      · rwa [← hunused j (by omega) h0]
      · rwa [← (hused j (by omega) h0).2]
  · rintro ⟨k, hk, hslot, hbefore⟩
    refine ⟨k, hk, ?_, fun j hj => ?_, ?_⟩
    · split_ifs at hslot with h0
      · rw [hunused k hk h0]
        exact hslot.1
      · rw [(hused k hk h0).2]
        exact hslot.1
    · have hb := hbefore j hj
      split_ifs at hb with h0
      · rwa [hunused j (by omega) h0]
      · rwa [(hused j (by omega) h0).2]
    · split_ifs at hslot with h0
      · rw [hunused k hk h0]
        exact hslot.2
      · rw [(hused k hk h0).1]
        exact hslot.2

variable {name : List Byte}

/-- The condition is enough. -/
theorem agrees_of_safe (hdir : DirectoryFront fs dir blocks)
    (hreach : InReach fs dir blocks) (hne : name ≠ []) (htext : (0 : Byte) ∉ name)
    (h : LookupSafe blocks name) :
    LookupAgrees fs dir name := by
  intro stale icurr maxNameLen hmax hmax' i hi
  rw [lookup_slot hdir hreach hne htext, yields_iff hdir hreach hmax hmax']
  rcases h with ⟨k, hk, h0, hname, hbefore⟩ | ⟨habsent, hall⟩
  · have hmem := mem_of_scanned (List.getElem_mem hk)
    constructor
    · rintro ⟨k', hk', hslot, hfirst⟩
      -- the match cannot come after the record, and before it all are in use
      have hle : k' ≤ k := by
        by_contra hgt
        have := hfirst k (by omega)
        rw [if_neg h0] at this
        exact this hname.symm
      have h0' : (scanned blocks)[k'].inode ≠ 0 := by
        rcases Nat.eq_or_lt_of_le hle with rfl | hlt
        · exact h0
        · exact hbefore k' hlt
      rw [if_neg h0'] at hslot
      exact ⟨_, mem_of_scanned (List.getElem_mem hk'), hslot.1.symm, hslot.2⟩
    · rintro ⟨r, hr, hrn, hri⟩
      have hrk : r = (scanned blocks)[k] :=
        record_unique hdir hr hmem (by omega) h0 (hrn.trans hname.symm)
      -- the least slot with the name; its record is the same one
      have hex : ∃ j, ∃ hj : j < (scanned blocks).length, (scanned blocks)[j].name = name :=
        ⟨k, hk, hname⟩
      classical
      obtain ⟨hj, hjn⟩ := Nat.find_spec hex
      have hle : Nat.find hex ≤ k := Nat.find_min' hex ⟨hk, hname⟩
      have h0' : ∀ (j : ℕ) (hj : j < (scanned blocks).length), j ≤ k →
          (scanned blocks)[j].inode ≠ 0 := by
        intro j hj hjk
        rcases Nat.eq_or_lt_of_le hjk with rfl | hlt
        · exact h0
        · exact hbefore j hlt
      have hsame := record_unique hdir (mem_of_scanned (List.getElem_mem hj)) hmem
        (h0' _ hj hle) h0 (hjn.trans hname.symm)
      refine ⟨Nat.find hex, hj, ?_, fun j hjf => ?_⟩
      · rw [if_neg (h0' _ hj hle), hsame, ← hrk]
        exact ⟨hrn.symm, hri⟩
      · rw [if_neg (h0' j (by omega) (by omega))]
        exact fun heq => Nat.find_min hex hjf ⟨by omega, heq.symm⟩
  · constructor
    · rintro ⟨k, hk, hslot, -⟩
      have h0 := hall _ (List.getElem_mem hk)
      rw [if_neg h0] at hslot
      exact absurd hslot.1.symm (habsent _ (mem_of_scanned (List.getElem_mem hk)) h0)
    · rintro ⟨r, hr, hrn, hri⟩
      exact absurd hrn (habsent r hr (by omega))

/-- It is necessary too: entries left in the buffer can be chosen against any other
directory. -/
theorem safe_of_agrees (hdir : DirectoryFront fs dir blocks)
    (hreach : InReach fs dir blocks) (hne : name ≠ []) (htext : (0 : Byte) ∉ name)
    (h : LookupAgrees fs dir name) :
    LookupSafe blocks name := by
  have hcs := cstring_eq htext
  have hag : ∀ (stale : ℕ → Dentry) (i : ℕ), i > 0 → _ := fun stale i hi =>
    h stale 0 256 le_rfl (by norm_num) i hi
  simp only [lookup_slot hdir hreach hne htext,
    yields_iff hdir hreach le_rfl (show 256 < 4294967296 by norm_num)] at hag
  by_cases hin : ∃ r ∈ blocks.flatten, r.inode ≠ 0 ∧ r.name = name
  · obtain ⟨r, hr, h0, hrn⟩ := hin
    -- stale entries with the right name and a wrong inode
    have hother : (if r.inode = 1 then 2 else 1) ≠ r.inode := by split_ifs <;> omega
    obtain ⟨k, hk, hslot, hbefore⟩ := (hag (fun _ => ⟨if r.inode = 1 then 2 else 1, 0, name, 0⟩)
      r.inode (by omega)).2 ⟨r, hr, hrn, rfl⟩
    have hk0 : (scanned blocks)[k].inode ≠ 0 := fun hz => by
      rw [if_pos hz] at hslot
      exact hother hslot.2
    rw [if_neg hk0] at hslot
    refine Or.inl ⟨k, hk, hk0, hslot.1.symm, fun j hj hz => ?_⟩
    have := hbefore j hj
    rw [if_pos hz] at this
    exact this hcs.symm
  · have habsent : ∀ r ∈ blocks.flatten, r.inode ≠ 0 → r.name ≠ name := fun r hr h0 hrn =>
      hin ⟨r, hr, h0, hrn⟩
    refine Or.inr ⟨habsent, fun r hr hz => ?_⟩
    obtain ⟨k, hk, rfl⟩ := List.getElem_of_mem hr
    have hex : ∃ j, ∃ hj : j < (scanned blocks).length, (scanned blocks)[j].inode = 0 := ⟨k, hk, hz⟩
    classical
    obtain ⟨hj, hj0⟩ := Nat.find_spec hex
    obtain ⟨r', hr', hrn', hri'⟩ := (hag (fun _ => ⟨1, 0, name, 0⟩) 1 (by norm_num)).1
      ⟨Nat.find hex, hj, by rw [if_pos hj0]; exact ⟨hcs.symm, rfl⟩, fun j hjf => by
        have hj' : (scanned blocks)[j].inode ≠ 0 := fun hz' =>
          Nat.find_min hex hjf ⟨by omega, hz'⟩
        rw [if_neg hj']
        exact fun heq => habsent _ (mem_of_scanned (List.getElem_mem _)) hj' heq.symm⟩
    exact habsent r' hr' (by omega) hrn'

theorem agrees_of_null (hnull : ¬ fs.Buffered) (hne : name ≠ []) : LookupAgrees fs dir name := by
  intro stale icurr maxNameLen _ _ i _
  apply iff_of_false
  · rintro ⟨c, hc⟩
    rw [ext2Walk, if_neg (mask_never dir), if_neg hne, ext2ReadDentries_none hnull,
      Option.bind_none] at hc
    cases hc
  · have hzero {fresh : ℕ → Leftovers} {raw name : Mem} {dst : Dentry} {x : ℕ × Dentry × ℕ}
        (hx : ext2Iter (fs.refresh fresh) dir raw name dst maxNameLen 0 = some x) : x.1 = 0 := by
      have hnull' : ¬ (fs.refresh fresh).Buffered := hnull
      exact congrArg Prod.fst (ext2Iter_none hnull' hx)
    rintro ⟨d, hd, -⟩
    cases hd with
    | here hcall hret => exact hret (hzero hcall)
    | later hcall hret _ => exact hret (hzero hcall)

/-- Below 4 GiB blocks of the three ranges are in reach. -/
theorem inReach_of_good (hbuf : fs.Buffered)
    (hlen : blocks.length ≤ 12 + fs.idblocksCount + fs.idblocksCount * fs.idblocksCount)
    (htiled : ∀ (b : ℕ) (hb : b < blocks.length),
      Tiled (pathByte fs dir triple) (b * fs.blockSize) ((b + 1) * fs.blockSize) blocks[b])
    (hgood : ∀ i < blocks.length, ∀ b ∈ blockPath fs dir triple i, BlockGood fs b) :
    InReach fs dir blocks := by
  refine ⟨hbuf, fun fresh => (seenByte_of_good hlen hgood fresh).1, fun fresh b hb => ?_⟩
  obtain ⟨-, hbytes⟩ := seenByte_of_good hlen hgood fresh
  have hend : (b + 1) * fs.blockSize ≤ blocks.length * fs.blockSize := Nat.mul_le_mul_right _ hb
  exact (htiled b hb).congr fun x _ hx => hbytes x (hx.trans_le hend)

theorem Ext2Directory.inReach (hdir : Ext2Directory fs dir triple blocks) (hbuf : fs.Buffered)
    (hgood : ∀ i < (ranged fs blocks).length, ∀ b ∈ blockPath fs dir triple i, BlockGood fs b) :
    InReach fs dir (ranged fs blocks) := by
  refine inReach_of_good hbuf (List.length_take_le _ _) (fun b hb => ?_) hgood
  have hb' : b < blocks.length := hb.trans_le (List.length_take_le' _ _)
  have hget : (ranged fs blocks)[b] = blocks[b] := List.getElem_take
  rw [hget]
  exact hdir.tiled b hb'

/-- Lookup and iteration agree on the names `LookupSafe` describes, where the code reaches the
blocks of the three ranges, and where there is no block buffer; where it reaches them on no others.
Below 4 GiB it reaches them. -/
theorem lookup_agrees_iff (hdir : Ext2Directory fs dir triple blocks) (hne : name ≠ [])
    (htext : (0 : Byte) ∉ name) :
    (¬ fs.Buffered ∨ InReach fs dir (ranged fs blocks) ∧ LookupSafe (ranged fs blocks) name →
      LookupAgrees fs dir name) ∧
    (InReach fs dir (ranged fs blocks) → LookupAgrees fs dir name →
      LookupSafe (ranged fs blocks) name) ∧
    (fs.Buffered →
      (∀ i < (ranged fs blocks).length, ∀ b ∈ blockPath fs dir triple i, BlockGood fs b) →
      InReach fs dir (ranged fs blocks)) := by
  refine ⟨?_, fun hreach => safe_of_agrees hdir.front hreach hne htext, hdir.inReach⟩
  rintro (hnull | ⟨hreach, hsafe⟩)
  · exact agrees_of_null hnull hne
  · exact agrees_of_safe hdir.front hreach hne htext hsafe

end Lookup

theorem dots_directory : Ext2Directory (wordFs dotsWord) dotsDir 0 dotsBlocks := by
  have hwf := dots_wellFormed
  exact ⟨by decide, rfl, hwf.allocated, hwf.tiled, by decide, by decide⟩

/-- Both blocks of it are in the ranges. -/
theorem dots_ranged : ranged (wordFs dotsWord) dotsBlocks = dotsBlocks :=
  List.take_of_length_le (by decide)

/-- "a" is found: ".", ".." and "a" are in the first block, and "b" in the second. -/
theorem lookup_agrees_first : InReach (wordFs dotsWord) dotsDir dotsBlocks ∧
    LookupAgrees (wordFs dotsWord) dotsDir [97] := by
  obtain ⟨hagrees, -, hgood⟩ := lookup_agrees_iff dots_directory (show ([97] : List Byte) ≠ [] by
    decide) (by decide)
  rw [dots_ranged] at hagrees hgood
  have hreach := hgood (by decide) fun i hi b hb => dots_good hi hb
  have hused : ∀ r ∈ scanned dotsBlocks, r.inode ≠ 0 := by decide
  exact ⟨hreach, hagrees (Or.inr ⟨hreach, Or.inl ⟨2, by decide, by decide, rfl,
    fun j hj => hused _ (List.getElem_mem _)⟩⟩)⟩

/-- Iteration yields "b", no lookup finds it. -/
theorem lookup_misses_second_block : Ext2Directory (wordFs dotsWord) dotsDir 0 dotsBlocks ∧
    ¬ LookupAgrees (wordFs dotsWord) dotsDir [98] := by
  refine ⟨dots_directory, fun h => ?_⟩
  have hfront := dots_directory.front
  rw [dots_ranged] at hfront
  have hreach : InReach (wordFs dotsWord) dotsDir dotsBlocks := inReach_of_good (by decide)
    (by decide) dots_directory.tiled fun i hi b hb => dots_good hi hb
  rcases safe_of_agrees hfront hreach (by decide) (by decide) h with
    ⟨k, hk, -, hname, -⟩ | ⟨habsent, -⟩
  · have hall : ∀ r ∈ scanned dotsBlocks, r.name ≠ [98] := by decide
    exact hall _ (List.getElem_mem hk) hname
  · exact habsent ⟨6, 1024, 1, [98]⟩ (by simp [dotsBlocks]) (by decide) rfl

end DepthOS
