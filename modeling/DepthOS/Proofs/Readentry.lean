import DepthOS.Proofs.Ext2Exact
import DepthOS.Proofs.Ext2Iter
import DepthOS.Proofs.HeapAlign
import DepthOS.Spec.Readentry

/-! How far `readentry` writes. The name's block is asked for as an `int`: for the smallest size
and for those from 40970 on there is none, and the call faults, while any free cell will do for
those that come out negative. -/

namespace DepthOS

open Lib

/-- The bytes behind `tmp->name` that the call may use: what it asks for, as far as the cell
goes. -/
def nameRoom (h : Kheap) (maxNameLen : ℕ) : ℕ :=
  if (kmallocInt h (s32 maxNameLen)).1 = 0 then 0
  else min maxNameLen (kmallocCell h (s32 maxNameLen))

/-- From `buf` and `name` before the call to its result. -/
structure ReadentrySafe (room size : ℕ) (buf name : Mem) (res : Readentry) : Prop where
  buf : ∀ k, size ≤ k → res.buf k = buf k
  name : ∀ k, room ≤ k → res.name k = name k
  ret : 0 < res.ret → res.ret ≤ size

section Cell

variable {h h' : Kheap} {size k : ℕ}

theorem kmalloc_max : ((HEAP_LGSLAB_PAGES * PAGE_SIZE : ℕ) : ℤ) = 40960 := rfl

theorem kmallocInt_eq (h : Kheap) (size : ℤ) : kmallocInt h size =
    if size = 0 ∨ size > (HEAP_LGSLAB_PAGES * PAGE_SIZE : ℕ) then (0, h)
    else
      match kmallocSlab h size with
      | (none, h') => (0, h')
      | (some k, h') => kmallocTake h' k := rfl

/-- The cells of the slab hold the request, unless that is negative. -/
theorem kmallocSlab_fits (h1 : 1 ≤ size) (h2 : size ≤ 40960)
    (hslab : kmallocSlab h size = (some k, h')) :
    ∃ slab, h'.cache[k]? = some slab ∧ size ≤ slab.objectSize := by
  have hcell := cellSize_bounds h1
  have hle : cellSize size ≤ 40960 := cellSize_le h2 (by norm_num)
  have hlarge : (1024 : ℤ) ≤ (cellSize size : ℕ) ↔ 1024 ≤ cellSize size := by omega
  unfold kmallocSlab at hslab
  simp only [cellSizeInt_natCast (show size ≤ 2147483647 by omega), kmallocSearchInt_natCast,
    sizeT_of_nat (show cellSize size ≤ 2147483647 by omega), hlarge] at hslab
  by_cases hfound : (kmallocSearch (cellSize size) h.cache 0 0 0).1 ≠ 0
  · rw [if_pos hfound] at hslab
    obtain ⟨hk, rfl⟩ := Prod.mk.inj hslab
    obtain rfl := Option.some.inj hk
    obtain ⟨slab, hat, -, hsize⟩ := kmallocSearch_sound (cellSize size) h.cache h.cache [] 0 0 rfl
      (fun h0 => absurd rfl h0) hfound
    exact ⟨slab, hat, hcell.2.trans hsize⟩
  · rw [if_neg hfound] at hslab
    have hgrow := growSize_bounds hcell.1 hle
    unfold kheapCacheGrow at hslab
    dsimp only at hslab
    split_ifs at hslab <;> obtain ⟨hk, rfl⟩ := Prod.mk.inj hslab
    · exact absurd hk (by simp)
    · exact absurd hk (by simp)
    · obtain rfl := Option.some.inj hk
      exact ⟨_, List.getElem?_concat_length, hcell.2.trans hgrow.1⟩

theorem kmallocCell_ge (h1 : 1 ≤ size) (h2 : size ≤ 40960) (hne : (kmallocInt h size).1 ≠ 0) :
    size ≤ kmallocCell h size := by
  have hbig : ¬ ((size : ℤ) = 0 ∨ (size : ℤ) > (HEAP_LGSLAB_PAGES * PAGE_SIZE : ℕ)) := by
    rw [kmalloc_max]
    omega
  rw [kmallocInt_eq, if_neg hbig] at hne
  rw [kmallocCell, if_neg hbig]
  rcases hslab : kmallocSlab h size with ⟨_ | k, h'⟩
  · rw [hslab] at hne
    exact absurd rfl hne
  · obtain ⟨slab, hat, hsize⟩ := kmallocSlab_fits h1 h2 hslab
    simp only [hat]
    exact hsize

/-- Sizes that are 0 or too large get no block. -/
theorem kmallocInt_null {size : ℤ} (hsize : size = 0 ∨ size > 40960) :
    (kmallocInt h size).1 = 0 := by
  rw [kmallocInt_eq, kmalloc_max, if_pos hsize]

end Cell

section Read

variable {fs : Ext2Fs} {inode : Ext2Inode} {n offset : ℕ}

theorem readFile_rest (hn : n < 4294967296) (buf : Mem) {k : ℕ}
    (hk : (readFile fs inode buf n offset).r ≤ k) :
    (readFile fs inode buf n offset).buf k = buf k := by
  rcases Nat.lt_or_ge offset inode.sizeLo with hoff | hoff
  · have hlt := (cut_le (n := n) hoff).trans_lt hn
    obtain ⟨hr, hrest⟩ := readFile_delivers fs hoff rfl hlt buf
    exact hrest k (hr ▸ hk)
  · rw [(readFile_past fs hoff buf).2]

theorem readFile_count (hn : n < 4294967296) (buf buf' : Mem) :
    (readFile fs inode buf n offset).r = (readFile fs inode buf' n offset).r := by
  rcases Nat.lt_or_ge offset inode.sizeLo with hoff | hoff
  · have hlt := (cut_le (n := n) hoff).trans_lt hn
    rw [(readFile_delivers fs hoff rfl hlt buf).1, (readFile_delivers fs hoff rfl hlt buf').1]
  · rw [(readFile_past fs hoff buf).1, (readFile_past fs hoff buf').1]

/-- The read of the name behind a whole header. -/
def nameRead (fs : Ext2Fs) (dir : Ext2Inode) (raw name : Mem) (maxNameLen offset : ℕ) :
    Ext2ReadResult :=
  let header := readFile fs dir raw 8 offset
  readFile fs.next dir name (min (sub32 maxNameLen 1) (rawNameLength header.buf 0)) header.offset

variable {raw name : Mem} {maxNameLen : ℕ}

theorem iterRecord_name (h8 : (readFile fs inode raw 8 offset).r = 8) (dst : Dentry) :
    (iterRecord fs inode raw name dst maxNameLen offset).2.1.name =
      bytesAt (nameRead fs inode raw name maxNameLen offset).buf 0
        (nameRead fs inode raw name maxNameLen offset).r := by
  unfold iterRecord
  dsimp only
  rw [if_neg (by omega)]
  rfl

theorem iterRecordName_whole (h8 : (readFile fs inode raw 8 offset).r = 8) :
    iterRecordName fs inode raw name maxNameLen offset =
      Function.update (nameRead fs inode raw name maxNameLen offset).buf
        (nameRead fs inode raw name maxNameLen offset).r 0 := by
  unfold iterRecordName
  dsimp only
  rw [if_neg (by omega)]
  rfl

theorem ext2IterName_short {x : Ext2ReadResult} (hread : ext2Read fs inode raw 8 offset = some x)
    (h8 : x.r ≠ 8) : ext2IterName fs inode raw name maxNameLen offset = some name := by
  have hle := ext2Read_le raw hread (by norm_num)
  unfold ext2IterName
  rw [hread, Option.bind_some, if_pos (by omega)]

variable (fs inode raw name maxNameLen offset) in
theorem nameRead_le : (nameRead fs inode raw name maxNameLen offset).r ≤
    min (sub32 maxNameLen 1) (rawNameLength (readFile fs inode raw 8 offset).buf 0) := by
  have hlen := rawNameLength_lt (readFile fs inode raw 8 offset).buf 0
  exact readFile_le name (by omega)

theorem nameRead_rest {k : ℕ} (hk : (nameRead fs inode raw name maxNameLen offset).r < k) :
    Function.update (nameRead fs inode raw name maxNameLen offset).buf
      (nameRead fs inode raw name maxNameLen offset).r 0 k = name k := by
  have hlen := rawNameLength_lt (readFile fs inode raw 8 offset).buf 0
  rw [Function.update_of_ne (Nat.ne_of_gt hk)]
  exact readFile_rest (by omega) name hk.le

/-- The bytes that the directory has of the name of the entry at `offset`. -/
def nameHeld (fs : Ext2Fs) (dir : Ext2Inode) (raw : Mem) (offset : ℕ) : ℕ :=
  let header := readFile fs dir raw 8 offset
  (readFile fs.next dir (fun _ => 0) (rawNameLength header.buf 0) header.offset).r

/-- A bound of 255 or more is none. -/
theorem nameRead_held (h : 255 ≤ sub32 maxNameLen 1) :
    (nameRead fs inode raw name maxNameLen offset).r = nameHeld fs inode raw offset := by
  have hlen := rawNameLength_lt (readFile fs inode raw 8 offset).buf 0
  unfold nameRead nameHeld
  dsimp only
  rw [Nat.min_eq_right (by omega)]
  exact readFile_count (by omega) _ _

end Read

section Call

variable {table : ℤ → Option IterFile} {h : Kheap} {blocks : ReadentryBlocks} {fd : ℤ} {buf : Mem}
  {size : ℕ} {file : IterFile} {res : Readentry}

/-- The heap that the name's block is taken from. -/
def nameHeap (h : Kheap) : Kheap := (kmallocInt h DENTRY_SIZE).2

/-- The call gets as far as an entry of the directory `file`, and has its blocks. -/
structure EntryRead (table : ℤ → Option IterFile) (h : Kheap) (raw : Mem) (fd : ℤ) (size : ℕ)
    (file : IterFile) : Prop where
  inside : 0 ≤ fd ∧ fd < TASK_FILETABLE_MAX
  found : table fd = some file
  dir : file.type = .FS_DIR
  iter : file.iter = true
  large : DENTRY_USER_SIZE ≤ size
  hasTmp : (kmallocInt h DENTRY_SIZE).1 ≠ 0
  hasName : (kmallocInt (nameHeap h) (s32 (sub32 size DENTRY_USER_SIZE))).1 ≠ 0
  divides : ¬ kmallocDivides (nameHeap h) (s32 (sub32 size DENTRY_USER_SIZE))
  hasRaw : (kmallocInt (kmallocInt (nameHeap h) (s32 (sub32 size DENTRY_USER_SIZE))).2
    EXT2_DENTRY_SIZE).1 ≠ 0
  whole : ∃ x, ext2Read file.fs file.cached raw EXT2_DENTRY_SIZE file.pos = some x ∧ x.r = 8

/-- The name's block is one of the size asked for, or one taken for a negative size that happens
to hold what the directory has of the name. -/
def NameFits (h : Kheap) (raw : Mem) (size : ℕ) (file : IterFile) : Prop :=
  size ≤ 40969 ∨
    nameHeld file.fs file.cached raw file.pos < kmallocCell (nameHeap h) (s32 (sub32 size 9))

theorem EntryRead.buffered {raw : Mem} (he : EntryRead table h raw fd size file) :
    file.fs.Buffered := by
  obtain ⟨x, hx, h8⟩ := he.whole
  by_contra hbuf
  rw [(ext2Read_none hbuf (by norm_num) hx).1] at h8
  cases h8

theorem EntryRead.header {raw : Mem} (he : EntryRead table h raw fd size file) :
    (readFile file.fs file.cached raw 8 file.pos).r = 8 := by
  obtain ⟨x, hx, h8⟩ := he.whole
  rw [ext2Read_some he.buffered] at hx
  rw [Option.some.inj hx]
  exact h8

/-- Sizes that give `kmalloc` a positive number beyond its largest have no block for the name. -/
theorem EntryRead.sizes {raw : Mem} (he : EntryRead table h raw fd size file)
    (hsize : size < 4294967296) : 10 ≤ size ∧ size ≤ 40969 ∨ 2147483657 ≤ size := by
  have hmin : 9 ≤ size := he.large
  have hname := he.hasName
  rw [show DENTRY_USER_SIZE = 9 from rfl, sub32_small hmin hsize] at hname
  by_contra hnot
  rw [s32_of_lt (by omega)] at hname
  exact hname (kmallocInt_null (by omega))

theorem readentry_fails {ret : ℤ} (hret : ret ≤ 0)
    (h : some (⟨ret, buf, blocks.name, table, h⟩ : Readentry) = some res) :
    res.buf = buf ∧ res.name = blocks.name ∧ res.ret ≤ 0 := by
  obtain rfl := Option.some.inj h
  exact ⟨rfl, rfl, hret⟩

theorem sysReadentry_early (hno : ∀ file, ¬ EntryRead table h blocks.raw fd size file)
    (hcall : sysReadentry table h blocks fd buf size = some res) :
    res.buf = buf ∧ res.name = blocks.name ∧ res.ret ≤ 0 := by
  unfold sysReadentry at hcall
  dsimp only at hcall
  by_cases hfd : fd < 0 ∨ fd ≥ TASK_FILETABLE_MAX
  · rw [if_pos hfd] at hcall
    exact readentry_fails (by norm_num) hcall
  rw [if_neg hfd] at hcall
  rcases hfile : table fd with _ | file
  · rw [hfile] at hcall
    exact readentry_fails (by norm_num) hcall
  rw [hfile] at hcall
  dsimp only at hcall
  split_ifs at hcall with hdir hiter hsize
  · exact readentry_fails (by norm_num) hcall
  · exact readentry_fails (by norm_num) hcall
  · obtain ⟨x, hx, hcall⟩ := Option.bind_eq_some_iff.1 hcall
    split_ifs at hcall with hfault
    -- what is missing to an entry can only be the header
    have h8 : x.r ≠ 8 := fun h8 => by
      simp only [not_or, not_and, ne_eq] at hfault
      obtain ⟨htmp, hdiv, hraw, hname⟩ := hfault
      exact hno file ⟨by omega, hfile, not_not.1 hdir, hiter, Nat.le_of_not_lt hsize, htmp,
        fun h0 => hname h0 h8, hdiv, fun h0 => absurd (hraw h0) (by omega), x, hx, h8⟩
    obtain ⟨r, hr, hcall⟩ := Option.bind_eq_some_iff.1 hcall
    rw [ext2Iter_short hx h8, Option.some.injEq] at hr
    obtain ⟨stored, hstored, hcall⟩ := Option.map_eq_some_iff.1 hcall
    rw [ext2IterName_short hx h8, Option.some.injEq] at hstored
    rw [← hr, if_pos rfl] at hcall
    rw [← hcall, ← hstored]
    exact ⟨rfl, rfl, le_rfl⟩
  · exact readentry_fails (by norm_num) hcall

theorem storeEntry_rest {entry : Dentry} {stored : Mem} {n k : ℕ}
    (hk : DENTRY_USER_SIZE + n + 1 ≤ k) :
    Function.update (blit (storeDentryUser buf entry) DENTRY_USER_SIZE stored n)
      (DENTRY_USER_SIZE + n) 0 k = buf k := by
  have h9 : DENTRY_USER_SIZE = 9 := rfl
  rw [Function.update_of_ne (by omega), blit_other (Or.inr (by omega)), storeDentryUser,
    store32_other (Or.inr (by omega)), store32_other (Or.inr (by omega)),
    Function.update_of_ne (by omega)]

variable (blocks buf) in
/-- With an entry, the call stores the bytes it has read of the name and a NUL into the name's
block, and no more than these behind the fields of `*buf`. -/
theorem sysReadentry_entry (he : EntryRead table h blocks.raw fd size file) :
    ∃ n res, sysReadentry table h blocks fd buf size = some res ∧
      n ≤ sub32 (sub32 size 9) 1 ∧
      n ≤ (nameRead file.fs file.cached blocks.raw blocks.name (sub32 size 9) file.pos).r ∧
      res.name = Function.update
        (nameRead file.fs file.cached blocks.raw blocks.name (sub32 size 9) file.pos).buf
        (nameRead file.fs file.cached blocks.raw blocks.name (sub32 size 9) file.pos).r 0 ∧
      (∀ k, DENTRY_USER_SIZE + n + 1 ≤ k → res.buf k = buf k) ∧
      res.ret = u32 (DENTRY_USER_SIZE + n + 1) := by
  have hbuf := he.buffered
  have h8 := he.header
  have hiter := ext2Iter_some hbuf file.cached blocks.raw blocks.name blocks.entry
    (sub32 size DENTRY_USER_SIZE) file.pos
  obtain ⟨hne, -⟩ := ext2Iter_header (ext2Read_some hbuf _ _ _ _) h8 hiter
  have hfault : ¬ ((kmallocInt h DENTRY_SIZE).1 = 0 ∨
      kmallocDivides (kmallocInt h DENTRY_SIZE).2 (s32 (sub32 size DENTRY_USER_SIZE)) ∨
      (kmallocInt (kmallocInt (kmallocInt h DENTRY_SIZE).2 (s32 (sub32 size DENTRY_USER_SIZE))).2
          EXT2_DENTRY_SIZE).1 = 0 ∧
        (readFile file.fs file.cached blocks.raw EXT2_DENTRY_SIZE file.pos).r ≠ 0 ∨
      (kmallocInt (kmallocInt h DENTRY_SIZE).2 (s32 (sub32 size DENTRY_USER_SIZE))).1 = 0 ∧
        (readFile file.fs file.cached blocks.raw EXT2_DENTRY_SIZE file.pos).r =
          EXT2_DENTRY_SIZE) := by
    rintro (h0 | h0 | ⟨h0, -⟩ | ⟨h0, -⟩)
    · exact he.hasTmp h0
    · exact he.divides h0
    · exact he.hasRaw h0
    · exact he.hasName h0
  have hfd : ¬ (fd < 0 ∨ fd ≥ TASK_FILETABLE_MAX) := by
    have hin := he.inside
    omega
  have hsize : ¬ size < DENTRY_USER_SIZE := Nat.not_lt.2 he.large
  unfold sysReadentry
  dsimp only
  rw [if_neg hfd, he.found]
  dsimp only
  rw [if_neg (not_not.2 he.dir), if_neg (not_not.2 he.iter), if_neg hsize, ext2Read_some hbuf,
    Option.bind_some, if_neg hfault, hiter, Option.bind_some, ext2IterName_some hbuf,
    Option.map_some, if_neg hne]
  refine ⟨_, _, rfl, Nat.min_le_left _ _, ?_, ?_, ?_, rfl⟩
  · rw [iterRecord_name h8]
    refine (Nat.min_le_right _ _).trans ((List.takeWhile_prefix _).length_le.trans ?_)
    rw [bytesAt_length]
  · exact iterRecordName_whole h8
  · intro k hk
    dsimp only
    exact storeEntry_rest hk

theorem EntryRead.fits_iff {raw : Mem} (he : EntryRead table h raw fd size file)
    (hsize : size < 4294967296) (name : Mem) :
    (nameRead file.fs file.cached raw name (sub32 size 9) file.pos).r <
      nameRoom (nameHeap h) (sub32 size 9) ↔ NameFits h raw size file := by
  have hmax : sub32 size 9 = size - 9 := sub32_small he.large hsize
  have hle := nameRead_le file.fs file.cached file.pos raw name (size - 9)
  have hlen := rawNameLength_lt (readFile file.fs file.cached raw 8 file.pos).buf 0
  have hname := he.hasName
  have hsizes := he.sizes hsize
  have hsub : sub32 (size - 9) 1 = size - 9 - 1 := sub32_small (by omega) (by omega)
  rw [show DENTRY_USER_SIZE = 9 from rfl, hmax] at hname
  unfold NameFits nameRoom
  rw [hmax, if_neg hname]
  rcases hsizes with ⟨hlow, hhigh⟩ | hbig
  · -- a size that stays positive has a block of as many bytes
    rw [s32_of_lt (by omega)] at hname ⊢
    have hcell := kmallocCell_ge (by omega) (by omega) hname
    rw [hsub] at hle
    exact ⟨fun _ => Or.inl hhigh, fun _ => by omega⟩
  · have hwide : 255 ≤ sub32 (size - 9) 1 := by
      rw [hsub]
      omega
    rw [nameRead_held hwide] at hle ⊢
    exact ⟨fun hlt => Or.inr (by omega), fun hfit => by omega⟩

variable (table h) in
/-- A call keeps to its two buffers exactly when it comes to no entry or the name's block is
large enough. -/
theorem readentry_safe_iff (raw : Mem) (fd : ℤ) (hsize : size < 4294967296) :
    (∀ entry name buf res, sysReadentry table h ⟨entry, name, raw⟩ fd buf size = some res →
      ReadentrySafe (nameRoom (nameHeap h) (sub32 size 9)) size buf name res) ↔
    ∀ file, EntryRead table h raw fd size file → NameFits h raw size file := by
  constructor
  · intro hall file he
    rw [← he.fits_iff hsize fun _ => 1]
    by_contra hroom
    -- the NUL behind the name shows in a block of ones
    obtain ⟨n, res, hcall, -, -, hname, -⟩ := sysReadentry_entry
      ⟨⟨0, 0, [], 0⟩, fun _ => 1, raw⟩ (fun _ => 0) he
    have hsame := (hall _ _ _ res hcall).name _ (Nat.le_of_not_lt hroom)
    rw [hname, Function.update_self] at hsame
    exact absurd hsame (by decide)
  · intro hfit entry name buf res hcall
    by_cases hno : ∀ file, ¬ EntryRead table h raw fd size file
    · obtain ⟨hbuf, hname, hret⟩ := sysReadentry_early hno hcall
      exact ⟨fun k _ => by rw [hbuf], fun k _ => by rw [hname], fun hpos => by omega⟩
    · push Not at hno
      obtain ⟨file, he⟩ := hno
      have hmin : 9 ≤ size := he.large
      have hmax : sub32 size 9 = size - 9 := sub32_small hmin hsize
      have hroom := (he.fits_iff hsize name).2 (hfit file he)
      obtain ⟨n, res', hcall', hn, hr, hname, hbuf, hret⟩ := sysReadentry_entry
        ⟨entry, name, raw⟩ buf he
      obtain rfl := Option.some.inj (hcall.symm.trans hcall')
      have hsizes := he.sizes hsize
      have hsub : sub32 (size - 9) 1 = size - 9 - 1 := sub32_small (by omega) (by omega)
      rw [hmax, hsub] at hn
      rw [show DENTRY_USER_SIZE = 9 from rfl] at hbuf hret
      refine ⟨fun k hk => hbuf k (by omega), fun k hk => ?_, fun _ => ?_⟩
      · rw [hname]
        exact nameRead_rest (hroom.trans_le hk)
      · rw [hret, u32_of_lt (by omega)]
        exact_mod_cast (by omega)

end Call

/-- A directory with the entry ".", and a heap with three cells of 16 bytes left. -/
def dotFile : IterFile := ⟨.FS_DIR, true, dotFs 1024, dotDir 1, 0⟩

def dotTable : ℤ → Option IterFile := fun _ => some dotFile

def threeCells : Kheap where
  mem := store32 (store32 (fun _ => 0) 0xC0400000 0xC0400010) 0xC0400010 0xC0400020
  bitmap := bitmapInit 32 (by norm_num)
  cache := [⟨0xC0400000, 0xC0400000, 16, 0, false⟩]
  imallocPtr := HEAP_BASE

/-- A buffer of 16 bytes takes that entry. -/
theorem readentry_safe_dot : EntryRead dotTable threeCells (fun _ => 0) 0 16 dotFile ∧
    NameFits threeCells (fun _ => 0) 16 dotFile ∧
    ∀ entry name buf res,
      sysReadentry dotTable threeCells ⟨entry, name, fun _ => 0⟩ 0 buf 16 = some res →
        ReadentrySafe (nameRoom (nameHeap threeCells) (sub32 16 9)) 16 buf name res := by
  have he : EntryRead dotTable threeCells (fun _ => 0) 0 16 dotFile := by
    constructor
    · decide
    · rfl
    · rfl
    · rfl
    · norm_num
    · decide +kernel
    · decide +kernel
    · decide +kernel
    · decide +kernel
    · exact ⟨_, ext2Read_some (by decide) _ _ _ _, by decide +kernel⟩
  have hfit (file : IterFile) : NameFits threeCells (fun _ => 0) 16 file := Or.inl (by norm_num)
  exact ⟨he, hfit dotFile, (readentry_safe_iff dotTable threeCells (fun _ => 0) 0
    (by norm_num)).2 fun file _ => hfit file⟩

/-- The block of a directory with one record, for a file whose name is sixteen times "a". -/
def sixteenWord (i : ℕ) : ℕ :=
  if i = 256 then 12
  else if i = 257 then 1024 + 16 * 65536 + 16777216
  else if 258 ≤ i ∧ i < 262 then 0x61616161
  else 0

def sixteenFile : IterFile := ⟨.FS_DIR, true, wordFs sixteenWord, dotDir 1, 0⟩

def sixteenTable : ℤ → Option IterFile := fun _ => some sixteenFile

/-- For 2 GiB and 9 bytes `kmalloc` is asked for a negative number and gives a cell of 16. -/
theorem readentry_overruns : ¬ ∀ (table : ℤ → Option IterFile) (h : Kheap)
    (blocks : ReadentryBlocks) (fd : ℤ) (buf : Mem) (size : ℕ) (res : Readentry),
    size < 4294967296 → sysReadentry table h blocks fd buf size = some res →
      ReadentrySafe (nameRoom (nameHeap h) (sub32 size 9)) size buf blocks.name res := by
  intro h
  have he : EntryRead sixteenTable threeCells (fun _ => 0) 0 2147483657 sixteenFile := by
    constructor
    · decide
    · rfl
    · rfl
    · rfl
    · norm_num
    · decide +kernel
    · decide +kernel
    · decide +kernel
    · decide +kernel
    · exact ⟨_, ext2Read_some (by decide) _ _ _ _, by decide +kernel⟩
  obtain ⟨n, res, hcall, -, -, hname, -⟩ := sysReadentry_entry
    ⟨⟨0, 0, [], 0⟩, fun _ => 1, fun _ => 0⟩ (fun _ => 0) he
  have hsame := (h _ _ _ _ _ _ res (by norm_num) hcall).name 16 (by decide +kernel)
  have h16 : (nameRead sixteenFile.fs sixteenFile.cached (fun _ => 0) (fun _ => 1)
      (sub32 2147483657 9) sixteenFile.pos).r = 16 := by decide +kernel
  rw [hname, h16, Function.update_self] at hsame
  exact absurd hsame (by decide)

end DepthOS
