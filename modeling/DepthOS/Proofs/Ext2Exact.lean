import DepthOS.Proofs.Ext2Iter
import DepthOS.Sanity.Ext2Seen

/-! What `ext2_iter` returns for the records of a well-formed directory, from its start to its
end. A record is returned as it stands at the byte address of its block cut to 32 bits, and
nothing is found behind the double indirect range. -/

namespace DepthOS

open Lib

/-- `P` holds of every record, with the offset it starts at. -/
def Along (P : ℕ → DirRec → Prop) : ℕ → List DirRec → Prop
  | _, [] => True
  | a, r :: rs => P a r ∧ Along P (a + r.size) rs

section Along

variable {P Q R : ℕ → DirRec → Prop} {c : Mem} {a e f : ℕ} {rs rs' : List DirRec}

theorem Tiled.append (h : Tiled c a e rs) (h' : Tiled c e f rs') (hle : e ≤ f) :
    Tiled c a f (rs ++ rs') := by
  induction rs generalizing a with
  | nil =>
    rw [show a = e from h]
    exact h'
  | cons r rs ih =>
    obtain ⟨hr, hsize, hend, ht⟩ := h
    exact ⟨hr, hsize, hend.trans hle, ih ht⟩

theorem along_append (h : Tiled c a e rs) :
    Along P a (rs ++ rs') ↔ Along P a rs ∧ Along P e rs' := by
  induction rs generalizing a with
  | nil =>
    rw [show a = e from h]
    simp [Along]
  | cons r rs ih =>
    rw [List.cons_append, Along, Along, ih h.2.2.2, and_assoc]

theorem along_congr (h : Along P a rs) (hiff : ∀ a r, P a r → (Q a r ↔ R a r)) :
    Along Q a rs ↔ Along R a rs := by
  induction rs generalizing a with
  | nil => exact Iff.rfl
  | cons r rs ih =>
    obtain ⟨hr, hrs⟩ := h
    rw [Along, Along, hiff a r hr, ih hrs]

theorem blocks_tail (Q : ℕ → List DirRec → Prop) {rest : List (List DirRec)} {b : ℕ}
    (h : ∀ (i : ℕ) (hi : i < (rs :: rest).length), Q (b + i) (rs :: rest)[i]) (i : ℕ)
    (hi : i < rest.length) : Q (b + 1 + i) rest[i] := by
  have hnext := h (i + 1) (Nat.succ_lt_succ hi)
  rwa [← Nat.add_assoc, Nat.add_right_comm b i 1, List.getElem_cons_succ] at hnext

/-- Blocks of `s` bytes from block `b` on, one after the other. -/
theorem tiled_flatten {s : ℕ} : ∀ (blocks : List (List DirRec)) (b : ℕ),
    (∀ (i : ℕ) (hi : i < blocks.length), Tiled c ((b + i) * s) ((b + i + 1) * s) blocks[i]) →
    Tiled c (b * s) ((b + blocks.length) * s) blocks.flatten := by
  intro blocks
  induction blocks with
  | nil => exact fun b _ => rfl
  | cons rs rest ih =>
    intro b h
    have hhead := h 0 (Nat.zero_lt_succ _)
    have htail := ih (b + 1) (blocks_tail (fun i rs => Tiled c (i * s) ((i + 1) * s) rs) h)
    rw [Nat.add_zero, List.getElem_cons_zero] at hhead
    rw [List.flatten_cons, List.length_cons, Nat.add_comm rest.length, ← Nat.add_assoc]
    exact hhead.append htail (Nat.mul_le_mul_right _ (Nat.le_add_right _ _))

theorem along_flatten {s : ℕ} : ∀ (blocks : List (List DirRec)) (b : ℕ),
    (∀ (i : ℕ) (hi : i < blocks.length), Tiled c ((b + i) * s) ((b + i + 1) * s) blocks[i]) →
    (∀ (i : ℕ) (hi : i < blocks.length), Along P ((b + i) * s) blocks[i]) →
    Along P (b * s) blocks.flatten := by
  intro blocks
  induction blocks with
  | nil => exact fun b _ _ => trivial
  | cons rs rest ih =>
    intro b ht h
    have hhead := ht 0 (Nat.zero_lt_succ _)
    rw [Nat.add_zero, List.getElem_cons_zero] at hhead
    rw [List.flatten_cons, along_append hhead]
    exact ⟨h 0 (Nat.zero_lt_succ _),
      ih (b + 1) (blocks_tail (fun i rs => Tiled c (i * s) ((i + 1) * s) rs) ht)
        (blocks_tail (fun i rs => Along P (i * s) rs) h)⟩

end Along

section Exact

variable (fs : Ext2Fs) (dir : Ext2Inode) (maxNameLen : ℕ)

/-- The call at offset `a` returns the record `r`, with its name and a terminator in the buffer,
and goes on behind it, whatever the buffers hold before. -/
def IterReturns (a : ℕ) (r : DirRec) : Prop :=
  ∀ (fresh : ℕ → Leftovers) (raw name : Mem) (dst : Dentry), ∃ ret nm,
    ext2Iter (fs.refresh fresh) dir raw name dst maxNameLen a =
      some (ret, ⟨r.inode, r.type, r.name, a⟩, a + r.size) ∧ ret ≠ 0 ∧
    ext2IterName (fs.refresh fresh) dir raw name maxNameLen a = some nm ∧
    bytesAt nm 0 r.name.length = r.name ∧ nm r.name.length = 0

/-- The call at offset `a` returns 0. -/
def IterEnds (a : ℕ) : Prop :=
  ∀ (fresh : ℕ → Leftovers) (raw name : Mem) (dst : Dentry), ∃ x,
    ext2Iter (fs.refresh fresh) dir raw name dst maxNameLen a = some x ∧ x.1 = 0

/-- Call after call from offset `a` on, the records are returned in order, and then 0. -/
def IterReads : ℕ → List DirRec → Prop
  | a, [] => IterEnds fs dir maxNameLen a
  | a, r :: rs => IterReturns fs dir maxNameLen a r ∧ IterReads (a + r.size) rs

/-- The record at `a` is found as it is where the code looks for it. -/
structure SeenAs (a : ℕ) (r : DirRec) : Prop where
  inode : rawInode (seenByte fs dir) a = r.inode
  size : rawSize (seenByte fs dir) a = r.size
  type : rawType (seenByte fs dir) a = r.type
  name : bytesAt (seenByte fs dir) (a + 8) r.name.length = r.name
  length : min (rawNameLength (seenByte fs dir) a) (dir.sizeLo - (a + 8)) = r.name.length

/-- A record that lies in one block. -/
structure RecFits (a : ℕ) (r : DirRec) : Prop where
  length : 8 + r.name.length ≤ r.size
  block : a % fs.blockSize + r.size ≤ fs.blockSize
  inside : a + r.size ≤ dir.sizeLo

variable {fs dir maxNameLen} {a e : ℕ} {r : DirRec} {rs : List DirRec}

theorem iterReads_iff {c : Mem} (h : Tiled c a e rs) : IterReads fs dir maxNameLen a rs ↔
    Along (IterReturns fs dir maxNameLen) a rs ∧ IterEnds fs dir maxNameLen e := by
  induction rs generalizing a with
  | nil =>
    rw [show a = e from h]
    simp [IterReads, Along]
  | cons r rs ih => rw [IterReads, Along, ih h.2.2.2, and_assoc]

theorem iterEnds_past (hend : dir.sizeLo ≤ a) : IterEnds fs dir maxNameLen a :=
  fun _ raw _ _ => ⟨_, ext2Iter_short (ext2Read_end _ hend raw 8) (by norm_num), rfl⟩

/-- The name of a record that fits is read from its block. -/
theorem nameRead_seen (hS : dir.sizeLo + 1024 ≤ 4294967296) (h : RecFits fs dir a r)
    (hseen : BlockSeen fs dir (a / fs.blockSize)) {n : ℕ} (hn : n < 256)
    (hname : min n (dir.sizeLo - (a + 8)) = r.name.length) (name : Mem) :
    (readFile fs dir name n (a + 8)).r = r.name.length ∧
    bytesAt (readFile fs dir name n (a + 8)).buf 0 r.name.length =
      bytesAt (seenByte fs dir) (a + 8) r.name.length := by
  obtain ⟨hlen, hblock, hin⟩ := h
  rcases Nat.eq_zero_or_pos r.name.length with hzero | hpos
  · rw [hzero]
    refine ⟨?_, rfl⟩
    rcases Nat.lt_or_ge (a + 8) dir.sizeLo with hoff | hoff
    · have hn0 : n = 0 := by omega
      rw [hn0]
      exact Nat.le_zero.1 (readFile_le name (by norm_num))
    · exact (readFile_past fs hoff name).1
  · have hdm := Nat.div_add_mod' a fs.blockSize
    -- a name that is not empty starts in the block
    obtain ⟨hdiv, hmod⟩ := block_divMod fs (a / fs.blockSize)
      (show a % fs.blockSize + 8 < fs.blockSize by omega)
    rw [← Nat.add_assoc, hdm] at hdiv hmod
    obtain ⟨hr, hbuf, -⟩ := readFile_seen (n := n) (by omega) (show a + 8 < dir.sizeLo by omega)
      (by omega) (by rw [hmod, hname]; omega) (by rwa [hdiv]) name
    rw [hname] at hr hbuf
    refine ⟨hr, bytesAt_congr fun k hk => ?_⟩
    rw [Nat.zero_add]
    exact hbuf k hk

/-- A read of the length of the name has had no more to read. -/
theorem nameRead_length (hS : dir.sizeLo + 1024 ≤ 4294967296) (h : RecFits fs dir a r)
    (hseen : ∀ i, i * fs.blockSize < dir.sizeLo → BlockSeen fs dir i) {n : ℕ} (hn : n < 256)
    (name : Mem) (hr : (readFile fs dir name n (a + 8)).r = r.name.length) :
    min n (dir.sizeLo - (a + 8)) = r.name.length := by
  obtain ⟨hlen, hblock, hin⟩ := h
  have hbs := fs.blockSize_eq
  have hpow := Nat.two_pow_pos fs.logBlockSize
  rcases Nat.lt_or_ge (a + 8) dir.sizeLo with hoff | hoff
  · have hdm := Nat.div_add_mod' (a + 8) fs.blockSize
    have hmod := Nat.mod_lt (a + 8) fs.blockSize_pos
    have h0 := hseen ((a + 8) / fs.blockSize) (by omega)
    by_cases hone : (a + 8) % fs.blockSize + min n (dir.sizeLo - (a + 8)) ≤ fs.blockSize
    · rw [← hr, (readFile_seen (by omega) hoff (by omega) hone h0 name).1]
    · -- the name would go into the next block, and be too long
      have hmod8 : (a + 8) % fs.blockSize = a % fs.blockSize + 8 := by
        have hne : a % fs.blockSize + 8 ≠ fs.blockSize := by
          intro heq
          have hzero : (a + 8) % fs.blockSize = 0 := by
            rw [Nat.add_mod, Nat.mod_eq_of_lt (show 8 < fs.blockSize by omega), heq, Nat.mod_self]
          omega
        rw [Nat.add_mod, Nat.mod_eq_of_lt (show 8 < fs.blockSize by omega),
          Nat.mod_eq_of_lt (by omega)]
      have h1 := hseen ((a + 8) / fs.blockSize + 1) (by rw [Nat.succ_mul]; omega)
      have hmore := readFile_crosses (n := n) (by omega) hoff (by omega) (by omega) (by omega) h0 h1
        name
      omega
  · omega

theorem iterRecord_seen (hS : dir.sizeLo + 1024 ≤ 4294967296) (h : RecFits fs dir a r)
    (hseen : BlockSeen fs dir (a / fs.blockSize)) (hmax : 256 ≤ maxNameLen)
    (hmax' : maxNameLen < 4294967296) (raw name : Mem) (dst : Dentry) {nm : Ext2ReadResult}
    (hnm : readFile fs.next dir name (rawNameLength (seenByte fs dir) a) (a + 8) = nm) :
    iterRecord fs dir raw name dst maxNameLen a = (u32 (8 + nm.r),
      ⟨rawInode (seenByte fs dir) a, rawType (seenByte fs dir) a, bytesAt nm.buf 0 nm.r, a⟩,
      u32 (a + rawSize (seenByte fs dir) a)) ∧
    iterRecordName fs dir raw name maxNameLen a = Function.update nm.buf nm.r 0 := by
  obtain ⟨hlen, hblock, hin⟩ := h
  have hdm := Nat.div_add_mod' a fs.blockSize
  have hnl := rawNameLength_lt (seenByte fs dir) a
  have hcut : min 8 (dir.sizeLo - a) = 8 := by omega
  obtain ⟨hr, hbuf, hoff⟩ := readFile_seen (n := 8) (by omega) (show a < dir.sizeLo by omega)
    (by omega) (by omega) hseen raw
  rw [hcut] at hr hbuf hoff
  obtain ⟨hi, hs, hl, ht⟩ := raw_congr (m := (readFile fs dir raw 8 a).buf) (a := 0)
    (c := seenByte fs dir) (b := a) (fun k hk => by rw [Nat.zero_add]; exact hbuf k hk)
  have hmin : min (sub32 maxNameLen 1) (rawNameLength (seenByte fs dir) a) =
      rawNameLength (seenByte fs dir) a := by
    rw [sub32_small (by omega) hmax']
    omega
  constructor
  · unfold iterRecord
    dsimp only
    rw [hr, if_neg (by decide), hi, hs, hl, ht, hoff, hmin, hnm]
  · unfold iterRecordName
    dsimp only
    rw [hr, if_neg (by decide), hl, hoff, hmin, hnm]

variable (fs) in
theorem refresh_twice (fresh : ℕ → Leftovers) :
    (fs.refresh fun i => fresh (i - 1)).next = fs.refresh fresh := rfl

section Records

variable (hbuf : fs.Buffered)

include hbuf

theorem iterReturns_of_seen (hS : dir.sizeLo + 1024 ≤ 4294967296) (h : RecFits fs dir a r)
    (hseen : ∀ (fresh : ℕ → Leftovers), BlockSeen (fs.refresh fresh) dir (a / fs.blockSize))
    (hmax : 256 ≤ maxNameLen) (hmax' : maxNameLen < 4294967296)
    (has : ∀ fresh, SeenAs (fs.refresh fresh) dir a r) : IterReturns fs dir maxNameLen a r := by
  intro fresh raw name dst
  have hnew : (fs.refresh fresh).Buffered := hbuf
  obtain ⟨hcall, hnm⟩ := iterRecord_seen hS (⟨h.1, h.2, h.3⟩ : RecFits (fs.refresh fresh) dir a r)
    (hseen fresh) hmax hmax' raw name dst rfl
  have hnl := rawNameLength_lt (seenByte (fs.refresh fresh) dir) a
  -- the second read has its own leftovers
  have hnext := has fun i => fresh (i + 1)
  obtain ⟨hr, hname⟩ := nameRead_seen hS
    (⟨h.1, h.2, h.3⟩ : RecFits (fs.refresh fun i => fresh (i + 1)) dir a r) (hseen _) hnl
    (has fresh).length name
  rw [hnext.name] at hname
  have hlen := h.length
  have hin := h.inside
  change (readFile (fs.refresh fresh).next dir name _ (a + 8)).r = _ at hr
  change bytesAt (readFile (fs.refresh fresh).next dir name _ (a + 8)).buf 0 _ = _ at hname
  rw [hr, (has fresh).inode, (has fresh).size, (has fresh).type, hname,
    u32_of_lt (show 8 + r.name.length < 4294967296 by omega),
    u32_of_lt (show a + r.size < 4294967296 by omega)] at hcall
  rw [hr] at hnm
  refine ⟨8 + r.name.length, _, ?_, by omega, ext2IterName_some hnew dir raw name _ _, ?_, ?_⟩
  · rw [ext2Iter_some hnew, hcall]
  · rw [hnm]
    refine (bytesAt_congr fun k hk => ?_).trans hname
    rw [Nat.zero_add]
    exact Function.update_of_ne hk.ne _ _
  · rw [hnm]
    exact Function.update_self _ _ _

theorem iterReturns_iff (hS : dir.sizeLo + 1024 ≤ 4294967296) (h : RecFits fs dir a r)
    (hseen : ∀ (fresh : ℕ → Leftovers) (i : ℕ), i * fs.blockSize < dir.sizeLo →
      BlockSeen (fs.refresh fresh) dir i) (hmax : 256 ≤ maxNameLen)
    (hmax' : maxNameLen < 4294967296) :
    IterReturns fs dir maxNameLen a r ↔ ∀ fresh, SeenAs (fs.refresh fresh) dir a r := by
  have hfits (fresh : ℕ → Leftovers) : RecFits (fs.refresh fresh) dir a r := ⟨h.1, h.2, h.3⟩
  have hlen := h.length
  have hin := h.inside
  have hdm := Nat.div_add_mod' a fs.blockSize
  have hown (fresh : ℕ → Leftovers) : BlockSeen (fs.refresh fresh) dir (a / fs.blockSize) :=
    hseen fresh _ (by omega)
  refine ⟨fun hret fresh => ?_, iterReturns_of_seen hbuf hS h hown hmax hmax'⟩
  obtain ⟨ret, nm, hcall, -, -⟩ := hret (fun i => fresh (i - 1)) (fun _ => 0) (fun _ => 0)
    ⟨0, 0, [], 0⟩
  have hnew : (fs.refresh fun i => fresh (i - 1)).Buffered := hbuf
  have hnl := rawNameLength_lt (seenByte (fs.refresh fresh) dir) a
  have htotal := (iterRecord_seen hS (hfits fun i => fresh (i - 1)) (hown _) hmax hmax'
    (fun _ => 0) (fun _ => 0) ⟨0, 0, [], 0⟩ rfl).1
  rw [ext2Iter_some hnew, htotal, refresh_twice] at hcall
  simp only [Option.some.injEq, Prod.mk.injEq, Dentry.mk.injEq, and_true] at hcall
  obtain ⟨-, ⟨hi, ht, hname⟩, hnext⟩ := hcall
  -- a length of 16 bits that wraps would lead back
  have hraw := rawSize_lt (seenByte (fs.refresh fresh) dir) a
  have hs : rawSize (seenByte (fs.refresh fresh) dir) a = r.size := by
    change u32 (a + rawSize (seenByte (fs.refresh fresh) dir) a) = a + r.size at hnext
    unfold u32 at hnext
    omega
  have hr := congrArg List.length hname
  rw [bytesAt_length] at hr
  have hleft := nameRead_length hS (hfits fresh) (hseen fresh) hnl (fun _ => 0) hr
  obtain ⟨-, hbytes⟩ := nameRead_seen hS (hfits fresh) (hown fresh) hnl hleft fun _ => 0
  refine ⟨hi, hs, ht, ?_, hleft⟩
  rw [← hbytes, ← hr]
  exact hname

/-- Records that are found as they are, in blocks that are seen, up to where iteration ends. -/
theorem iterReads_of_seen {c : Mem} (hS : dir.sizeLo + 1024 ≤ 4294967296) (ht : Tiled c a e rs)
    (hfits : Along (RecFits fs dir) a rs) (hseen : ∀ (fresh : ℕ → Leftovers) (i : ℕ),
      i * fs.blockSize < e → BlockSeen (fs.refresh fresh) dir i)
    (hmax : 256 ≤ maxNameLen) (hmax' : maxNameLen < 4294967296)
    (has : ∀ (fresh : ℕ → Leftovers), Along (SeenAs (fs.refresh fresh) dir) a rs)
    (hend : IterEnds fs dir maxNameLen e) : IterReads fs dir maxNameLen a rs := by
  induction rs generalizing a with
  | nil =>
    rw [show a = e from ht]
    exact hend
  | cons r rs ih =>
    obtain ⟨-, hsize, hle, ht⟩ := ht
    have hdm := Nat.div_add_mod' a fs.blockSize
    have hown (fresh : ℕ → Leftovers) : BlockSeen (fs.refresh fresh) dir (a / fs.blockSize) :=
      hseen fresh _ (by omega)
    exact ⟨iterReturns_of_seen hbuf hS hfits.1 hown hmax hmax' fun fresh => (has fresh).1,
      ih ht hfits.2 fun fresh => (has fresh).2⟩

theorem iterEnds_beyond (hS : dir.sizeLo + 1024 ≤ 4294967296) {m : ℕ}
    (hm : 12 + fs.idblocksCount + fs.idblocksCount * fs.idblocksCount ≤ m)
    (hin : m * fs.blockSize < dir.sizeLo) : IterEnds fs dir maxNameLen (m * fs.blockSize) := by
  intro fresh raw name dst
  have hnew : (fs.refresh fresh).Buffered := hbuf
  have hdiv : m * fs.blockSize / fs.blockSize = m := Nat.mul_div_cancel _ fs.blockSize_pos
  have hzero : (readFile (fs.refresh fresh) dir raw 8 (m * fs.blockSize)).r = 0 := by
    refine readFile_beyond (show dir.sizeLo < 4294967296 by omega) hin (by omega) ?_ raw
    exact hm.trans hdiv.ge
  exact ⟨_, ext2Iter_short (ext2Read_some hnew _ _ _ _) (by rw [hzero]; norm_num), rfl⟩

end Records

/-- The records of a stretch of block `b`. -/
theorem tiled_recFits {c : Mem} {b : ℕ} (he : e = (b + 1) * fs.blockSize) (hend : e ≤ dir.sizeLo)
    (ha : b * fs.blockSize ≤ a) (h : Tiled c a e rs) : Along (RecFits fs dir) a rs := by
  induction rs generalizing a with
  | nil => trivial
  | cons r rs ih =>
    obtain ⟨-, hsize, hle, ht⟩ := h
    refine ⟨⟨hsize, ?_, by omega⟩, ih (by omega) ht⟩
    obtain ⟨x, rfl⟩ := Nat.exists_eq_add_of_le ha
    rw [Nat.succ_mul] at he
    rw [(block_divMod fs b (by omega)).2]
    omega

variable {triple : ℕ} {blocks : List (List DirRec)}

theorem blocks_whole {c : Mem} (ht : ∀ (b : ℕ) (hb : b < blocks.length),
      Tiled c (b * fs.blockSize) ((b + 1) * fs.blockSize) blocks[b]) :
    Tiled c 0 (blocks.length * fs.blockSize) blocks.flatten := by
  have hall := tiled_flatten blocks 0 fun i hi => by
    rw [Nat.zero_add]
    exact ht i hi
  rwa [Nat.zero_mul, Nat.zero_add] at hall

theorem blocks_fit {c : Mem} (hle : blocks.length * fs.blockSize ≤ dir.sizeLo)
    (ht : ∀ (b : ℕ) (hb : b < blocks.length),
      Tiled c (b * fs.blockSize) ((b + 1) * fs.blockSize) blocks[b]) :
    Along (RecFits fs dir) 0 blocks.flatten := by
  have hall := along_flatten blocks 0 (fun i hi => by
    rw [Nat.zero_add]
    exact ht i hi) fun i hi => by
      have hend : (i + 1) * fs.blockSize ≤ dir.sizeLo :=
        (Nat.mul_le_mul_right _ hi).trans hle
      rw [Nat.zero_add]
      exact tiled_recFits rfl hend le_rfl (ht i hi)
  rwa [Nat.zero_mul] at hall

theorem Ext2WellFormed.whole (h : Ext2WellFormed fs dir triple blocks) :
    Tiled (pathByte fs dir triple) 0 dir.sizeLo blocks.flatten := by
  rw [h.size]
  exact blocks_whole h.tiled

theorem iterReads_buffered (h : Ext2WellFormed fs dir triple blocks)
    (hreads : IterReads fs dir maxNameLen 0 blocks.flatten) (hne : blocks ≠ []) :
    fs.Buffered := by
  by_contra hnull
  obtain ⟨rs, rest, rfl⟩ := List.exists_cons_of_ne_nil hne
  have ht := h.tiled 0 (Nat.zero_lt_succ _)
  have hbs := fs.blockSize_pos
  rw [List.getElem_cons_zero, Nat.zero_mul, Nat.zero_add, Nat.one_mul] at ht
  cases rs with
  | nil => exact absurd (show 0 = fs.blockSize from ht) (by omega)
  | cons r rs =>
    rw [List.flatten_cons, List.cons_append] at hreads
    obtain ⟨ret, nm, hcall, hret, -⟩ := hreads.1 fs.fresh (fun _ => 0) (fun _ => 0) ⟨0, 0, [], 0⟩
    have hnull' : ¬ (fs.refresh fs.fresh).Buffered := hnull
    exact hret (congrArg Prod.fst (ext2Iter_none hnull' hcall))

theorem iterReads_length (h : Ext2WellFormed fs dir triple blocks)
    (hreads : IterReads fs dir maxNameLen 0 blocks.flatten) :
    blocks.length ≤ 12 + fs.idblocksCount + fs.idblocksCount * fs.idblocksCount := by
  have hS := h.size_lt
  by_contra hgt
  generalize hm : 12 + fs.idblocksCount + fs.idblocksCount * fs.idblocksCount = m at hgt
  have hlt : m < blocks.length := by omega
  have hfront := tiled_flatten (blocks.take m) 0 fun i hi => by
    rw [Nat.zero_add, List.getElem_take]
    exact h.tiled i (by rw [List.length_take] at hi; omega)
  rw [Nat.zero_mul, Nat.zero_add, List.length_take, Nat.min_eq_left hlt.le] at hfront
  have hsplit : blocks.flatten = (blocks.take m).flatten ++ (blocks.drop m).flatten := by
    rw [← List.flatten_append, List.take_append_drop]
  have hall := ((iterReads_iff h.whole).1 hreads).1
  rw [hsplit, along_append hfront, List.drop_eq_getElem_cons hlt, List.flatten_cons] at hall
  have ht := h.tiled m hlt
  have hend : (m + 1) * fs.blockSize ≤ dir.sizeLo := by
    rw [h.size]
    exact Nat.mul_le_mul_right _ hlt
  rw [Nat.succ_mul] at ht hend
  have hbs := fs.blockSize_pos
  cases hrs : blocks[m] with
  | nil =>
    rw [hrs] at ht
    exact absurd (show m * fs.blockSize = _ from ht) (by omega)
  | cons r rs =>
    rw [hrs, List.cons_append] at hall
    obtain ⟨ret, nm, hcall, hret, -⟩ := hall.2.1 fs.fresh (fun _ => 0) (fun _ => 0) ⟨0, 0, [], 0⟩
    have hbuf : fs.Buffered := iterReads_buffered h hreads (List.ne_nil_of_length_pos (by omega))
    obtain ⟨x, hx, h0⟩ := iterEnds_beyond hbuf (by omega) hm.le
      (show m * fs.blockSize < dir.sizeLo by omega) fs.fresh (fun _ => 0) (fun _ => 0)
      ⟨0, 0, [], 0⟩
    rw [hcall, Option.some.injEq] at hx
    exact hret ((congrArg Prod.fst hx).trans h0)

variable (fs dir triple blocks) in
/-- What a reader of a directory needs of it: a block buffer, the three ranges, no block number 0
on the way to a block, and every record where the code looks for it. -/
structure ReaderFinds : Prop where
  buffered : blocks ≠ [] → fs.Buffered
  ranges : blocks.length ≤ 12 + fs.idblocksCount + fs.idblocksCount * fs.idblocksCount
  path : ∀ (fresh : ℕ → Leftovers), ∀ i < blocks.length, BlockSeen (fs.refresh fresh) dir i
  records : ∀ (fresh : ℕ → Leftovers), Along (SeenAs (fs.refresh fresh) dir) 0 blocks.flatten

theorem along_forall {ι : Type} {P : ι → ℕ → DirRec → Prop} :
    Along (fun a r => ∀ i, P i a r) a rs ↔ ∀ i, Along (P i) a rs := by
  induction rs generalizing a with
  | nil => simp [Along]
  | cons r rs ih => simp only [Along, ih, forall_and]

theorem iterReads_seen_iff {c : Mem} (hS : dir.sizeLo + 1024 ≤ 4294967296)
    (hwhole : Tiled c 0 dir.sizeLo rs) (hfits : Along (RecFits fs dir) 0 rs)
    (hbuf : rs ≠ [] → fs.Buffered) (hseen : ∀ (fresh : ℕ → Leftovers) (i : ℕ),
      i * fs.blockSize < dir.sizeLo → BlockSeen (fs.refresh fresh) dir i)
    (hmax : 256 ≤ maxNameLen) (hmax' : maxNameLen < 4294967296) :
    IterReads fs dir maxNameLen 0 rs ↔
      ∀ (fresh : ℕ → Leftovers), Along (SeenAs (fs.refresh fresh) dir) 0 rs := by
  by_cases hnil : rs = []
  · subst hnil
    have hzero : 0 = dir.sizeLo := hwhole
    exact iff_of_true (iterEnds_past hzero.ge) fun _ => trivial
  · rw [iterReads_iff hwhole, along_congr hfits fun a r hfits =>
      iterReturns_iff (hbuf hnil) hS hfits hseen hmax hmax', along_forall]
    exact and_iff_left (iterEnds_past le_rfl)

theorem Ext2WellFormed.reads_iff (h : Ext2WellFormed fs dir triple blocks)
    (hbuf : blocks ≠ [] → fs.Buffered)
    (hseen : ∀ (fresh : ℕ → Leftovers), ∀ i < blocks.length, BlockSeen (fs.refresh fresh) dir i)
    (hmax : 256 ≤ maxNameLen) (hmax' : maxNameLen < 4294967296) :
    IterReads fs dir maxNameLen 0 blocks.flatten ↔
      ∀ (fresh : ℕ → Leftovers), Along (SeenAs (fs.refresh fresh) dir) 0 blocks.flatten := by
  have hS := h.size_lt
  refine iterReads_seen_iff (by omega) h.whole (blocks_fit h.size.ge h.tiled)
    (fun hne => hbuf fun hnil => hne (by rw [hnil]; rfl)) (fun fresh i hi => ?_) hmax hmax'
  rw [h.size] at hi
  exact hseen fresh i (Nat.lt_of_mul_lt_mul_right hi)

theorem tiled_seen (h : Tiled (seenByte fs dir) a e rs) (hend : e ≤ dir.sizeLo) :
    Along (SeenAs fs dir) a rs := by
  induction rs generalizing a with
  | nil => trivial
  | cons r rs ih =>
    obtain ⟨hr, hsize, hle, ht⟩ := h
    refine ⟨?_, ih ht⟩
    subst hr
    simp only [recAt, bytesAt_length] at hsize hle
    constructor <;> simp only [recAt, bytesAt_length]
    omega

theorem readPointer_eq (left : Mem) {b i : ℕ} (hb : BlockGood fs b) (hi : i < fs.idblocksCount) :
    readPointer fs left b i = fs.pointer b i :=
  readBlock_word hb _ hi

/-- A block whose path lies below 4 GiB and can be read is seen where it is. -/
theorem blockSeen_path {i : ℕ}
    (hi : i < 12 + fs.idblocksCount + fs.idblocksCount * fs.idblocksCount)
    (h : ∀ b ∈ blockPath fs dir triple i, BlockGood fs b) :
    BlockSeen fs dir i ∧ seenBlock fs dir i = (blockPath fs dir triple i).getLastD 0 ∧
      BlockGood fs (seenBlock fs dir i) := by
  have hn := fs.idblocks_pos
  unfold blockPath at h ⊢
  dsimp only at h ⊢
  by_cases hdir : i < 12
  · rw [if_pos hdir] at h ⊢
    have heq : seenBlock fs dir i = dir.dblocks i := if_pos hdir
    have hb := h _ (List.mem_singleton_self _)
    rw [← heq] at hb ⊢
    exact ⟨⟨hi, hb.1, by omega, by omega⟩, rfl, hb⟩
  · obtain ⟨b, rfl⟩ := Nat.exists_eq_add_of_le (Nat.le_of_not_lt hdir)
    rw [if_neg hdir, Nat.add_sub_cancel_left] at h ⊢
    by_cases hsingle : b < fs.idblocksCount
    · rw [if_pos (by omega)] at h ⊢
      simp only [List.mem_cons, List.not_mem_nil, or_false, forall_eq_or_imp, forall_eq] at h
      obtain ⟨hptr, hb⟩ := h
      have heq : seenBlock fs dir (12 + b) = _ := (seenBlock_single hsingle).1
      rw [readPointer_eq _ hptr hsingle] at heq
      rw [← heq] at hb
      exact ⟨⟨hi, hb.1, fun _ _ => hptr.1, by omega⟩, heq, hb⟩
    · obtain ⟨c, rfl⟩ := Nat.exists_eq_add_of_le (Nat.le_of_not_lt hsingle)
      rw [if_neg (by omega), if_pos hi, Nat.add_sub_cancel_left] at h ⊢
      simp only [List.mem_cons, List.not_mem_nil, or_false, forall_eq_or_imp, forall_eq] at h
      obtain ⟨hptr, htable, hb⟩ := h
      have hlt : c < fs.idblocksCount * fs.idblocksCount := by omega
      have hrow : seenDouble fs dir.doubleIdblockPtr (c / fs.idblocksCount) = _ :=
        readPointer_eq _ hptr (Nat.div_lt_of_lt_mul hlt)
      have heq : seenBlock fs dir (12 + (fs.idblocksCount + c)) = _ := (seenBlock_double c).1
      rw [tablePointer, hrow, readPointer_eq _ htable (Nat.mod_lt c hn)] at heq
      rw [← heq] at hb
      refine ⟨⟨hi, hb.1, by omega, fun _ => ⟨hptr.1, ?_⟩⟩, heq, hb⟩
      rw [Nat.add_sub_cancel_left, Nat.add_sub_cancel_left, hrow]
      exact htable.1

/-- Below 4 GiB a directory of the three ranges has its bytes where the code looks for them. -/
theorem seenByte_of_good
    (hlen : blocks.length ≤ 12 + fs.idblocksCount + fs.idblocksCount * fs.idblocksCount)
    (hgood : ∀ i < blocks.length, ∀ b ∈ blockPath fs dir triple i, BlockGood fs b)
    (fresh : ℕ → Leftovers) :
    (∀ i < blocks.length, BlockSeen (fs.refresh fresh) dir i) ∧
    ∀ x < blocks.length * fs.blockSize,
      seenByte (fs.refresh fresh) dir x = pathByte fs dir triple x := by
  have hpath (i : ℕ) (hi : i < blocks.length) : BlockSeen (fs.refresh fresh) dir i ∧
      seenBlock (fs.refresh fresh) dir i = (blockPath fs dir triple i).getLastD 0 ∧
      BlockGood (fs.refresh fresh) (seenBlock (fs.refresh fresh) dir i) :=
    blockSeen_path (hi.trans_le hlen) (hgood i hi)
  refine ⟨fun i hi => (hpath i hi).1, fun x hx => ?_⟩
  obtain ⟨-, heq, hok⟩ := hpath (x / fs.blockSize) (Nat.div_lt_of_lt_mul (by rwa [Nat.mul_comm]))
  exact (readBlock_byte hok _ (Nat.mod_lt _ fs.blockSize_pos)).trans (by rw [heq]; rfl)

theorem readerFinds_of_good (h : Ext2WellFormed fs dir triple blocks)
    (hbuf : blocks ≠ [] → fs.Buffered)
    (hlen : blocks.length ≤ 12 + fs.idblocksCount + fs.idblocksCount * fs.idblocksCount)
    (hgood : ∀ i < blocks.length, ∀ b ∈ blockPath fs dir triple i, BlockGood fs b) :
    ReaderFinds fs dir blocks := by
  refine ⟨hbuf, hlen, fun fresh => (seenByte_of_good hlen hgood fresh).1, fun fresh => ?_⟩
  obtain ⟨-, hbytes⟩ := seenByte_of_good hlen hgood fresh
  exact tiled_seen ((blocks_whole h.tiled).congr fun x _ hx => hbytes x hx) h.size.ge

/-- A reader gets the records of a well-formed directory, in order and as they are, when it finds
them: there is a block buffer, the directory ends with the double indirect range, and its records
stand where block addresses of 32 bits lead. Below 4 GiB they do. If no block number found on the
way to them is 0, that is also necessary. -/
theorem ext2_iter_exact_iff (h : Ext2WellFormed fs dir triple blocks) (hmax : 256 ≤ maxNameLen)
    (hmax' : maxNameLen < 4294967296) :
    (ReaderFinds fs dir blocks → IterReads fs dir maxNameLen 0 blocks.flatten) ∧
    ((blocks ≠ [] → fs.Buffered) →
      blocks.length ≤ 12 + fs.idblocksCount + fs.idblocksCount * fs.idblocksCount →
      (∀ i < blocks.length, ∀ b ∈ blockPath fs dir triple i, BlockGood fs b) →
      ReaderFinds fs dir blocks) ∧
    (IterReads fs dir maxNameLen 0 blocks.flatten →
      (∀ (fresh : ℕ → Leftovers), ∀ i < blocks.length, i < 12 + fs.idblocksCount +
        fs.idblocksCount * fs.idblocksCount → BlockSeen (fs.refresh fresh) dir i) →
      ReaderFinds fs dir blocks) := by
  refine ⟨fun hf => (h.reads_iff hf.buffered hf.path hmax hmax').2 hf.records,
    readerFinds_of_good h, fun hreads hseen => ?_⟩
  have hbuf := iterReads_buffered h hreads
  have hle := iterReads_length h hreads
  have hpath : ∀ (fresh : ℕ → Leftovers), ∀ i < blocks.length, BlockSeen (fs.refresh fresh) dir i :=
    fun fresh i hi => hseen fresh i hi (hi.trans_le hle)
  exact ⟨hbuf, hle, hpath, (h.reads_iff hbuf hpath hmax hmax').1 hreads⟩

end Exact

/-- A directory of two blocks, ".", ".." and "a" in the first, "b" in the second. -/
def dotsDir : Ext2Inode := ⟨0x4000, 2048, fun i => i + 1, 0, 0⟩

def dotsBlocks : List (List DirRec) :=
  [[⟨2, 12, 2, [46]⟩, ⟨2, 12, 2, [46, 46]⟩, ⟨5, 1000, 1, [97]⟩], [⟨6, 1024, 1, [98]⟩]]

theorem dots_path {i b : ℕ} (hi : i < 2) (hb : b ∈ blockPath (wordFs dotsWord) dotsDir 0 i) :
    b = i + 1 := by
  unfold blockPath at hb
  dsimp only at hb
  rw [if_pos (by omega), List.mem_singleton] at hb
  exact hb

theorem dots_good {i b : ℕ} (hi : i < 2) (hb : b ∈ blockPath (wordFs dotsWord) dotsDir 0 i) :
    BlockGood (wordFs dotsWord) b := by
  rw [dots_path hi hb]
  refine ⟨Nat.succ_ne_zero i, ?_, le_rfl⟩
  change (i + 1) * 1024 < 4294967296
  omega

theorem dots_wellFormed : Ext2WellFormed (wordFs dotsWord) dotsDir 0 dotsBlocks := by
  refine ⟨by decide, rfl, fun i hi b hb => ?_, fun b hb => ?_, by decide⟩
  · rw [dots_path hi hb]
    exact Nat.succ_ne_zero i
  · obtain rfl | rfl : b = 0 ∨ b = 1 := by
      change b < 2 at hb
      omega
    · exact ⟨rfl, by decide, by decide, rfl, by decide, by decide, rfl, by decide, by decide, rfl⟩
    · exact ⟨rfl, by decide, by decide, rfl⟩

/-- A reader gets its four records, across the blocks, and then 0. -/
theorem ext2_iter_exact_dots : ReaderFinds (wordFs dotsWord) dotsDir dotsBlocks ∧
    IterReads (wordFs dotsWord) dotsDir 256 0 dotsBlocks.flatten := by
  obtain ⟨hreads, hgood, -⟩ := ext2_iter_exact_iff dots_wellFormed le_rfl
    (show 256 < 4294967296 by norm_num)
  have hfinds : ReaderFinds (wordFs dotsWord) dotsDir dotsBlocks :=
    hgood (fun _ => by decide) (by decide) fun i hi b hb => dots_good hi hb
  exact ⟨hfinds, hreads hfinds⟩

/-- A directory of one record, "." in a block of its own. -/
def dotBlocks : List (List DirRec) := [[⟨2, 1024, 2, [46]⟩]]

/-- Its bytes from `start` on. -/
def dotFs (start : ℕ) : Ext2Fs :=
  { sampleFs with
    dev := {
      blockSize := 512
      disk := fun x =>
        if x = start then 2
        else if x = start + 5 then 4
        else if x = start + 6 then 1
        else if x = start + 7 then 2
        else if x = start + 8 then 46
        else 0
      done := fun _ count => count }
    sector_eq := rfl }

def dotDir (block : ℕ) : Ext2Inode := ⟨0x4000, 1024, fun _ => block, 0, 0⟩

theorem dot_byte (block : ℕ) {x : ℕ} (hx : x < 1024) :
    pathByte (dotFs (block * 1024)) (dotDir block) 0 x = if x = 0 then 2 else if x = 5 then 4
      else if x = 6 then 1 else if x = 7 then 2 else if x = 8 then 46 else 0 := by
  have hbs : (dotFs (block * 1024)).blockSize = 1024 := rfl
  unfold pathByte mapByte
  rw [hbs, Nat.div_eq_of_lt hx, Nat.mod_eq_of_lt hx]
  change (dotFs (block * 1024)).dev.disk (block * 1024 + x) = _
  simp only [dotFs, Nat.add_left_cancel_iff, Nat.add_eq_left]

theorem dot_wellFormed {block : ℕ} (h0 : block ≠ 0) :
    Ext2WellFormed (dotFs (block * 1024)) (dotDir block) 0 dotBlocks := by
  have hone : ∀ i < dotBlocks.length, i = 0 := fun i hi => Nat.lt_one_iff.1 hi
  refine ⟨show 1024 < 2147483648 by norm_num, rfl, fun i hi b hb => ?_, fun b hb => ?_, ?_⟩
  · rw [hone i hi] at hb
    rw [show b = block by simpa [blockPath, dotDir] using hb]
    exact h0
  · obtain rfl := hone b hb
    refine ⟨?_, by decide, le_rfl, rfl⟩
    simp [recAt, rawInode, rawSize, rawType, rawNameLength, load32, load16, bytesAt, dot_byte]
  · intro r hr
    simp only [dotBlocks, List.flatten_cons, List.flatten_nil, List.append_nil,
      List.mem_singleton] at hr
    rw [hr]
    decide

/-- At 4 GiB the code reads block 0 in its place. -/
theorem ext2_iter_elsewhere : ¬ ∀ (fs : Ext2Fs) (dir : Ext2Inode) (triple : ℕ)
    (blocks : List (List DirRec)) (maxNameLen : ℕ), fs.dev.ReadsSucceed →
      Ext2WellFormed fs dir triple blocks → 256 ≤ maxNameLen → maxNameLen < 4294967296 →
        IterReads fs dir maxNameLen 0 blocks.flatten := by
  intro h
  have hreads := h (dotFs (4194304 * 1024)) (dotDir 4194304) 0 dotBlocks 256 (fun _ _ => rfl)
    (dot_wellFormed (by norm_num)) le_rfl (by norm_num)
  obtain ⟨ret, nm, hcall, -⟩ := hreads.1 (fun _ => Leftovers.all fun _ => 0) (fun _ => 0)
    (fun _ => 0) ⟨0, 0, [], 0⟩
  rw [ext2Iter_some (by decide), Option.some.injEq] at hcall
  have hnext : _ = 1024 := congrArg (fun x : ℕ × Dentry × ℕ => x.2.2) hcall
  exact absurd hnext (by decide +kernel)

end DepthOS
