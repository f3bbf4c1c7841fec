import DepthOS.Sanity.Ext2
import DepthOS.Sanity.String
import DepthOS.Spec.Initrd

/-! The initial ramdisk round trip: what the tool packs, the kernel finds under its rewritten
path and reads back, in pieces of any size. -/

namespace DepthOS

open Lib

/-! What the tool writes. -/

/-- The headers of files whose data starts at `offset`. -/
def headersFrom : ℕ → List HostFile → List ImageHeader
  | _, [] => []
  | offset, f :: fs =>
    ⟨rewritten f, f.contents.length, offset⟩ :: headersFrom (offset + f.contents.length) fs

/-- The sizes of the files together. -/
def totalSize (fs : List HostFile) : ℕ := (fs.map fun f => f.contents.length).sum

theorem foldl_addFile (files : List HostFile) (s : ImageState) :
    files.foldl addFile s =
      ⟨s.headers ++ headersFrom s.offset (accepted files), s.offset + totalSize (accepted files),
        s.data ++ (accepted files).flatMap HostFile.contents⟩ := by
  induction files generalizing s with
  | nil => simp [accepted, headersFrom, totalSize]
  | cons f files ih =>
    rw [List.foldl_cons, ih]
    unfold addFile
    by_cases hf : f.path.length > INITRD_PATH_LENGTH
    · have hacc : accepted (f :: files) = accepted files :=
        List.filter_cons_of_neg (by simpa using hf)
      rw [if_pos hf, hacc]
    · have hacc : accepted (f :: files) = f :: accepted files :=
        List.filter_cons_of_pos (by simpa using hf)
      rw [if_neg hf, hacc]
      simp [headersFrom, totalSize, Nat.add_assoc]

theorem headersFrom_length (offset : ℕ) (fs : List HostFile) :
    (headersFrom offset fs).length = fs.length := by
  induction fs generalizing offset with
  | nil => rfl
  | cons f fs ih => rw [headersFrom, List.length_cons, List.length_cons, ih]

/-- The 68 bytes of a header. -/
def packed (h : ImageHeader) : List Byte :=
  packName (h.filepath.take (INITRD_PATH_LENGTH - 1)) ++ le32 h.length ++ le32 h.offset

/-- A header that `struct` takes, with a name that is not cut and has no NUL. -/
structure HeaderFits (h : ImageHeader) : Prop where
  ascii : ∀ b ∈ h.filepath, b ≠ 0 ∧ b.toNat < 128
  short : h.filepath.length < INITRD_PATH_LENGTH
  length : h.length < 4294967296
  offset : h.offset < 4294967296

section Header

variable {h : ImageHeader}

theorem HeaderFits.take (hf : HeaderFits h) :
    h.filepath.take (INITRD_PATH_LENGTH - 1) = h.filepath :=
  List.take_of_length_le (Nat.le_sub_one_of_lt hf.short)

theorem HeaderFits.pack (hf : HeaderFits h) : h.pack 0 = some (packed h) := by
  have hname : asciiBytes h.filepath = some h.filepath := if_pos fun b hb => (hf.ascii b hb).2
  have hlen : packL h.length = some (le32 h.length) := if_pos hf.length
  have hoff : packL (h.offset + 0) = some (le32 h.offset) := if_pos hf.offset
  unfold ImageHeader.pack packed
  rw [hf.take, hname, hlen, hoff]
  rfl

theorem packName_length (s : List Byte) : (packName s).length = 60 := by
  rw [packName, List.length_take, List.length_append, List.length_replicate]
  exact Nat.min_eq_left (Nat.le_add_left _ _)

theorem packed_length (h : ImageHeader) : (packed h).length = 68 := by
  rw [packed, List.length_append, List.length_append, packName_length]
  rfl

theorem packHeaders_eq {hs : List ImageHeader} (hfit : ∀ h ∈ hs, HeaderFits h) :
    packHeaders hs = some (hs.flatMap packed) := by
  induction hs with
  | nil => rfl
  | cons h hs ih =>
    have hhead := (hfit h (by simp)).pack
    have htail := ih fun x hx => hfit x (by simp [hx])
    unfold packHeaders
    rw [hhead, htail]
    rfl

end Header

/-! What the kernel reads. -/

theorem view_u32 (m : Mem) (a : ℕ) : view m (u32 a) = view m a := by
  funext k
  unfold view u32
  rw [Nat.mod_add_mod]

theorem view_add (m : Mem) (a n : ℕ) : view m (a + n) = fun k => view m a (n + k) := by
  funext k
  unfold view
  rw [Nat.add_assoc]

theorem load16_shows {v : Mem} {x : ℕ} (h : Shows v (le16 x)) (hx : x < 65536) :
    load16 v 0 = x := by
  have h0 : v 0 = BitVec.ofNat 8 x := h 0 (by decide : 0 < 2)
  have h1 : v 1 = BitVec.ofNat 8 (x / 256) := h 1 (by decide : 1 < 2)
  rw [load16, h0, Nat.zero_add, h1, BitVec.toNat_ofNat, BitVec.toNat_ofNat]
  omega

theorem load32_shows {v : Mem} {a x : ℕ} (h : Shows (fun k => v (a + k)) (le32 x))
    (hx : x < 4294967296) : load32 v a = x := by
  have h0 : v a = BitVec.ofNat 8 x := h 0 (by decide : 0 < 4)
  have h1 : v (a + 1) = BitVec.ofNat 8 (x / 256) := h 1 (by decide : 1 < 4)
  have h2 : v (a + 2) = BitVec.ofNat 8 (x / 65536) := h 2 (by decide : 2 < 4)
  have h3 : v (a + 3) = BitVec.ofNat 8 (x / 16777216) := h 3 (by decide : 3 < 4)
  rw [load32, h0, h1, h2, h3]
  simp only [BitVec.toNat_ofNat]
  omega

theorem shows_packed {v : Mem} {h : ImageHeader} (hf : HeaderFits h) (hv : Shows v (packed h)) :
    HoldsStr v 0 h.filepath ∧ load32 v 60 = h.length ∧ load32 v 64 = h.offset := by
  unfold packed at hv
  rw [hf.take, shows_append, shows_append, List.length_append, packName_length] at hv
  obtain ⟨⟨hname, hlen⟩, hoff⟩ := hv
  have hshort : h.filepath.length < 60 := hf.short
  have hbytes : ∀ k < 60, v k = (h.filepath ++ List.replicate 60 0).getD k 0 := by
    intro k hk
    rw [hname k (by rw [packName_length]; exact hk), packName, List.getD_eq_getElem?_getD,
      List.getD_eq_getElem?_getD, List.getElem?_take_of_lt hk]
  refine ⟨holdsStr_iff.2 ⟨fun h0 => (hf.ascii 0 h0).1 rfl, fun k hk => ?_, ?_⟩,
    load32_shows hlen hf.length, load32_shows hoff hf.offset⟩
  · rw [Nat.zero_add, hbytes k (by omega), List.getD_append _ _ _ _ hk]
  · rw [Nat.zero_add, hbytes _ hshort, List.getD_append_right _ _ _ _ le_rfl, Nat.sub_self]
    rfl

/-- Header and data of file `i`, in a memory that shows the data of all files from
`offset` on. -/
theorem headersFrom_file {w : Mem} {fs : List HostFile} {offset : ℕ}
    (hw : Shows (fun k => w (offset + k)) (fs.flatMap HostFile.contents)) {i : ℕ} {f : HostFile}
    (hi : fs[i]? = some f) :
    ∃ o, (headersFrom offset fs)[i]? = some ⟨rewritten f, f.contents.length, o⟩ ∧
      Shows (fun k => w (o + k)) f.contents := by
  induction fs generalizing offset i with
  | nil => exact absurd hi (by simp)
  | cons g fs ih =>
    rw [List.flatMap_cons, shows_append] at hw
    cases i with
    | zero =>
      obtain rfl : g = f := Option.some.inj hi
      exact ⟨offset, rfl, hw.1⟩
    | succ i =>
      refine ih ?_ hi
      intro k hk
      change w (offset + g.contents.length + k) = _
      rw [Nat.add_assoc]
      exact hw.2 k hk

/-- What the files that get into the image must be like. -/
structure FilesOk (fs : List HostFile) : Prop where
  below : ∀ f ∈ fs, ∃ rest, f.path = [105, 110, 105, 116, 114, 100, 47] ++ rest
  ascii : ∀ f ∈ fs, ∀ b ∈ f.path, b ≠ 0 ∧ b.toNat < 128
  distinct : (fs.map HostFile.path).Nodup
  count : fs.length ≤ 65535
  size : totalSize fs < 2147483648

section Files

variable {fs : List HostFile}

theorem FilesOk.rewritten_ascii (h : FilesOk fs) {f : HostFile} (hf : f ∈ fs) :
    ∀ b ∈ rewritten f, b ≠ 0 ∧ b.toNat < 128 := by
  intro b hb
  rcases List.mem_cons.1 hb with rfl | hb
  · decide
  · exact h.ascii f hf b (List.mem_of_mem_drop hb)

theorem FilesOk.rewritten_short (h : FilesOk fs) {f : HostFile} (hf : f ∈ fs)
    (hshort : f.path.length ≤ INITRD_PATH_LENGTH) : (rewritten f).length < INITRD_PATH_LENGTH := by
  obtain ⟨rest, hrest⟩ := h.below f hf
  rw [hrest] at hshort
  rw [rewritten, hrest]
  change rest.length + 7 ≤ 60 at hshort
  change rest.length + 1 < 60
  omega

theorem FilesOk.rewritten_inj (h : FilesOk fs) {i j : ℕ} {f g : HostFile} (hi : fs[i]? = some f)
    (hj : fs[j]? = some g) (he : rewritten f = rewritten g) : i = j := by
  obtain ⟨r, hr⟩ := h.below f (List.mem_of_getElem? hi)
  obtain ⟨t, ht⟩ := h.below g (List.mem_of_getElem? hj)
  have hpath : f.path = g.path := by
    rw [rewritten, rewritten, hr, ht] at he
    rw [hr, ht]
    exact congrArg _ (List.tail_eq_of_cons_eq he)
  have hlt := (List.getElem?_eq_some_iff.1 hi).1
  refine (List.getElem?_inj (by rw [List.length_map]; exact hlt) h.distinct).1 ?_
  rw [List.getElem?_map, List.getElem?_map, hi, hj, Option.map_some, Option.map_some, hpath]

theorem headersFrom_mem {offset : ℕ} {x : ImageHeader} (hx : x ∈ headersFrom offset fs) :
    (∃ f ∈ fs, x.filepath = rewritten f ∧ x.length = f.contents.length) ∧
      x.offset + x.length ≤ offset + totalSize fs := by
  induction fs generalizing offset with
  | nil => exact absurd hx List.not_mem_nil
  | cons f fs ih =>
    have htotal : totalSize (f :: fs) = f.contents.length + totalSize fs := by
      simp [totalSize]
    rcases List.mem_cons.1 hx with rfl | hx
    · exact ⟨⟨f, by simp, rfl, rfl⟩, by rw [htotal]; dsimp only; omega⟩
    · obtain ⟨⟨g, hg, hname, hlen⟩, hend⟩ := ih hx
      exact ⟨⟨g, List.mem_cons_of_mem _ hg, hname, hlen⟩, by rw [htotal]; omega⟩

end Files

theorem accepted_short {files : List HostFile} {f : HostFile} (hf : f ∈ accepted files) :
    f.path.length ≤ INITRD_PATH_LENGTH :=
  of_decide_eq_true (List.mem_filter.1 hf).2

theorem FilesOk.fits {files : List HostFile} (h : FilesOk (accepted files)) {x : ImageHeader}
    (hx : x ∈ headersFrom 0 (accepted files)) : HeaderFits x := by
  obtain ⟨⟨f, hf, hname, hlen⟩, hend⟩ := headersFrom_mem hx
  have hshort := h.rewritten_short hf (accepted_short hf)
  have hascii := h.rewritten_ascii hf
  have hsize := h.size
  exact ⟨by rw [hname]; exact hascii, by rw [hname]; exact hshort, by omega, by omega⟩

/-- The image of files that are all accepted. -/
def imageOf (fs : List HostFile) : List Byte :=
  le16 fs.length ++ (headersFrom 0 fs).flatMap packed ++ fs.flatMap HostFile.contents

theorem writeImage_eq {files : List HostFile} (h : FilesOk (accepted files)) :
    writeImage files = some (imageOf (accepted files)) := by
  have hcount : packH (accepted files).length = some (le16 (accepted files).length) :=
    if_pos (Nat.lt_succ_of_le h.count)
  unfold writeImage imageOf
  rw [foldl_addFile]
  simp only [List.nil_append]
  rw [headersFrom_length, hcount, packHeaders_eq fun x hx => h.fits hx]
  rfl

/-- Everything the kernel needs of file `i` in a loaded image. -/
structure FileLoaded (m : Mem) (rd : Initrd) (i : ℕ) (f : HostFile) : Prop where
  name : HoldsStr (rd.header m i) 0 (rewritten f)
  length : load32 (rd.header m i) INITRD_PATH_LENGTH = f.contents.length
  data : Shows (fun k => view m rd.data (load32 (rd.header m i) (INITRD_PATH_LENGTH + 4) + k))
    f.contents

theorem fileLoaded {files : List HostFile} (h : FilesOk (accepted files)) {m : Mem} {start : ℕ}
    (hm : Loaded m start (imageOf (accepted files))) :
    (initrdInit m start).nheaders = (accepted files).length ∧
      ∀ (i : ℕ) f, (accepted files)[i]? = some f → FileLoaded m (initrdInit m start) i f := by
  have hfits := fun x => h.fits (x := x)
  have hlt := h.count
  generalize accepted files = fs at *
  obtain ⟨hhead, hdata⟩ := shows_append.1 hm
  obtain ⟨hcount, htable⟩ := shows_append.1 hhead
  have hn : (initrdInit m start).nheaders = fs.length :=
    load16_shows hcount (Nat.lt_succ_of_le hlt)
  have htablen : ((headersFrom 0 fs).flatMap packed).length = 68 * fs.length := by
    rw [List.length_flatMap]
    simp only [packed_length]
    simp [headersFrom_length, Nat.mul_comm]
  refine ⟨hn, fun i f hi => ?_⟩
  -- the data starts behind the table, the headers behind the count
  have hdataview : view m (initrdInit m start).data =
      fun k => view m start (2 + 68 * fs.length + k) := by
    change view m (u32 (u32 (start + 2) + 68 * load16 (view m start) 0)) = _
    rw [view_u32, show load16 (view m start) 0 = fs.length from hn, view_add, view_u32, view_add]
    funext k
    rw [Nat.add_assoc]
  have hheaderview : (initrdInit m start).header m i = fun k => view m start (2 + (68 * i + k)) := by
    change view m (u32 (start + 2) + 68 * i) = _
    rw [view_add, view_u32, view_add]
  have hw : Shows (fun k => view m (initrdInit m start).data (0 + k))
      (fs.flatMap HostFile.contents) := by
    intro k hk
    change view m _ (0 + k) = _
    rw [Nat.zero_add, hdataview, ← hdata k hk, List.length_append, htablen]
    rfl
  obtain ⟨o, ho, hshows⟩ := headersFrom_file hw hi
  have hentry := htable.entry (fun x _ => packed_length x) ho
  obtain ⟨hname, hlen, hoff⟩ := shows_packed (hfits _ (List.mem_of_getElem? ho)) hentry
  have hsame : (initrdInit m start).header m i =
      fun k => view m start ((le16 fs.length).length + (68 * i + k)) := hheaderview
  refine ⟨by rw [hsame]; exact hname, by rw [hsame]; exact hlen, ?_⟩
  rw [show load32 ((initrdInit m start).header m i) (INITRD_PATH_LENGTH + 4) = o by
    rw [hsame]; exact hoff]
  exact hshows

theorem initrdfsOpen_eq {fs : List HostFile} (h : FilesOk fs) {m : Mem} {rd : Initrd}
    (hn : rd.nheaders = fs.length) (hload : ∀ i f, fs[i]? = some f → FileLoaded m rd i f) {i : ℕ}
    {f : HostFile} (hi : fs[i]? = some f) : initrdfsOpen m rd (rewritten f) = some i := by
  have hlt := (List.getElem?_eq_some_iff.1 hi).1
  have htext : (0 : Byte) ∉ rewritten f := fun h0 =>
    (h.rewritten_ascii (List.mem_of_getElem? hi) 0 h0).1 rfl
  have hcmp : ∀ j g, fs[j]? = some g →
      (strcmp (rd.header m j) 0 (rewritten f) = 0 ↔ rewritten g = rewritten f) :=
    fun j g hj => strcmp_eq_zero (hload j g hj).name htext
  unfold initrdfsOpen
  rw [List.find?_range_eq_some]
  refine ⟨decide_eq_true ((hcmp i f hi).2 rfl), List.mem_range.2 (hn ▸ hlt), fun j hj => ?_⟩
  have hg := List.getElem?_eq_getElem (l := fs) (i := j) (by omega)
  rw [Bool.not_eq_true', decide_eq_false_iff_not, hcmp j _ hg]
  intro he
  have := h.rewritten_inj hg hi he
  omega

section Reads

variable {m : Mem} {rd : Initrd} {i : ℕ} {f : HostFile}

theorem initrdContents_length (m : Mem) (rd : Initrd) (i : ℕ) :
    (initrdContents m rd i).length = initrdLength m rd i := by
  simp [initrdContents]

theorem initrdRead_spec {pos : ℕ} (hL : initrdLength m rd i < 2147483648)
    (hpos : pos ≤ initrdLength m rd i) (buf : Mem) (n : ℕ) :
    (initrdfsRead m rd i buf n pos).r = min n (initrdLength m rd i - pos) ∧
    (List.range (initrdfsRead m rd i buf n pos).r).map (initrdfsRead m rd i buf n pos).buf =
      ((initrdContents m rd i).drop pos).take n ∧
    (∀ k, (initrdfsRead m rd i buf n pos).r ≤ k →
      (initrdfsRead m rd i buf n pos).buf k = buf k) ∧
    (initrdfsRead m rd i buf n pos).offset = pos + (initrdfsRead m rd i buf n pos).r := by
  have hsub : sub32 (load32 (rd.header m i) INITRD_PATH_LENGTH) pos =
      initrdLength m rd i - pos := by
    unfold initrdLength at hL hpos ⊢
    exact sub32_small hpos (by omega)
  have hr : (initrdfsRead m rd i buf n pos).r = min n (initrdLength m rd i - pos) := by
    unfold initrdfsRead
    dsimp only
    rw [hsub, Nat.min_comm]
  refine ⟨hr, ?_, fun k hk => ?_, ?_⟩
  · apply List.ext_getElem
    · rw [List.length_map, List.length_range, hr, List.length_take, List.length_drop,
        initrdContents_length]
    · intro k hk hk'
      rw [List.length_map, List.length_range] at hk
      have hbuf : (initrdfsRead m rd i buf n pos).buf k = view m rd.data
          (load32 (rd.header m i) (INITRD_PATH_LENGTH + 4) + k + pos) := by
        unfold initrdfsRead at hk ⊢
        dsimp only at hk ⊢
        exact blit_front hk
      simp only [List.getElem_map, List.getElem_range, List.getElem_take, List.getElem_drop, hbuf,
        initrdContents]
      congr 1
      omega
  · unfold initrdfsRead at hk ⊢
    dsimp only at hk ⊢
    apply blit_other
    apply Or.inr
    rwa [Nat.zero_add]
  · have hle := Nat.min_le_right n (initrdLength m rd i - pos)
    rw [hr]
    unfold initrdfsRead
    dsimp only
    rw [hsub, Nat.min_comm]
    exact u32_of_lt (by omega)

theorem FileLoaded.contents (h : FileLoaded m rd i f) : initrdContents m rd i = f.contents := by
  have hlen : (initrdContents m rd i).length = f.contents.length :=
    (initrdContents_length m rd i).trans h.length
  refine List.ext_getElem hlen fun k hk hk' => ?_
  have hbyte := h.data k hk'
  rw [List.getD_eq_getElem?_getD, List.getElem?_eq_getElem hk', Option.getD_some] at hbyte
  simp only [initrdContents, List.getElem_map, List.getElem_range]
  exact hbyte

/-- A read inside the file: the bytes from `offset` on, as many as are asked for and there. -/
theorem initrdfsRead_eq (hload : FileLoaded m rd i f) (hsize : f.contents.length < 2147483648)
    {offset : ℕ} (hoff : offset ≤ f.contents.length) (buf : Mem) (nbytes : ℕ) :
    (initrdfsRead m rd i buf nbytes offset).r = min (f.contents.length - offset) nbytes ∧
    (initrdfsRead m rd i buf nbytes offset).offset =
      offset + min (f.contents.length - offset) nbytes ∧
    (List.range (initrdfsRead m rd i buf nbytes offset).r).map
        (initrdfsRead m rd i buf nbytes offset).buf =
      (f.contents.drop offset).take (min (f.contents.length - offset) nbytes) := by
  have hlen : initrdLength m rd i = f.contents.length := hload.length
  rw [← hlen] at hsize hoff
  obtain ⟨hr, hbytes, -, hend⟩ := initrdRead_spec hsize hoff buf nbytes
  rw [hlen, Nat.min_comm] at hr
  rw [hload.contents] at hbytes
  refine ⟨hr, by rw [hend, hr], ?_⟩
  rw [hbytes, List.take_eq_take_min, List.length_drop, Nat.min_comm]

theorem initrdReads_eq (hload : FileLoaded m rd i f) (hsize : f.contents.length < 2147483648)
    (bufs : ℕ → Mem) (sizes : ℕ → ℕ) (k : ℕ) :
    (initrdReads m rd i bufs sizes k).2 ≤ f.contents.length ∧
    (initrdReads m rd i bufs sizes k).1 = f.contents.take (initrdReads m rd i bufs sizes k).2 := by
  induction k with
  | zero => exact ⟨Nat.zero_le _, rfl⟩
  | succ k ih =>
    obtain ⟨hle, hbytes⟩ := ih
    obtain ⟨-, hoff, hmap⟩ := initrdfsRead_eq hload hsize hle (bufs k) (sizes k)
    simp only [initrdReads]
    rw [hoff, hmap, hbytes, ← List.take_add]
    exact ⟨by omega, rfl⟩

theorem readResult_eq (hload : FileLoaded m rd i f) (hsize : f.contents.length < 2147483648)
    (bufs : ℕ → Mem) (sizes : ℕ → ℕ) (k : ℕ) :
    readResult m rd i bufs sizes k =
      min (f.contents.length - (initrdReads m rd i bufs sizes k).2) (sizes k) :=
  (initrdfsRead_eq hload hsize (initrdReads_eq hload hsize bufs sizes k).1 (bufs k) (sizes k)).1

theorem initrdReads_end (hload : FileLoaded m rd i f) (hsize : f.contents.length < 2147483648)
    (bufs : ℕ → Mem) (sizes : ℕ → ℕ) :
    ∃ k, readResult m rd i bufs sizes k = 0 ∧ ∀ j < k, readResult m rd i bufs sizes j ≠ 0 := by
  suffices hex : ∃ k, readResult m rd i bufs sizes k = 0 from
    ⟨Nat.find hex, Nat.find_spec hex, fun j hj => Nat.find_min hex hj⟩
  by_contra hno
  push Not at hno
  -- otherwise the offset grows without end
  have hgrow : ∀ k, k ≤ (initrdReads m rd i bufs sizes k).2 := by
    intro k
    induction k with
    | zero => exact Nat.zero_le _
    | succ k ih =>
      have hle := (initrdReads_eq hload hsize bufs sizes k).1
      obtain ⟨-, hoff, -⟩ := initrdfsRead_eq hload hsize hle (bufs k) (sizes k)
      have hne := hno k
      rw [readResult_eq hload hsize] at hne
      simp only [initrdReads]
      rw [hoff]
      omega
  have h1 := hgrow (f.contents.length + 1)
  have h2 := (initrdReads_eq hload hsize bufs sizes (f.contents.length + 1)).1
  omega

end Reads

theorem length_le_totalSize {fs : List HostFile} {f : HostFile} (hf : f ∈ fs) :
    f.contents.length ≤ totalSize fs :=
  List.le_sum_of_mem (List.mem_map_of_mem hf)

/-- The initial ramdisk round trip. -/
theorem initrd_round_trip (files : List HostFile) (h : FilesOk (accepted files)) :
    ∃ image, writeImage files = some image ∧ ∀ m start, Loaded m start image →
      ∀ f ∈ accepted files, ∃ inode,
        initrdfsOpen m (initrdInit m start) (rewritten f) = some inode ∧
        ∀ (bufs : ℕ → Mem) (sizes : ℕ → ℕ), (∀ j, 0 < sizes j) →
          ∃ k, readResult m (initrdInit m start) inode bufs sizes k = 0 ∧
            (∀ j < k, readResult m (initrdInit m start) inode bufs sizes j ≠ 0) ∧
            (initrdReads m (initrdInit m start) inode bufs sizes k).1 = f.contents := by
  refine ⟨_, writeImage_eq h, fun m start hm f hf => ?_⟩
  obtain ⟨hn, hload⟩ := fileLoaded h hm
  obtain ⟨i, hi⟩ := List.mem_iff_getElem?.1 hf
  refine ⟨i, initrdfsOpen_eq h hn hload hi, fun bufs sizes hpos => ?_⟩
  have hfile := hload i f hi
  have hsize : f.contents.length < 2147483648 := (length_le_totalSize hf).trans_lt h.size
  obtain ⟨k, hzero, hmin⟩ := initrdReads_end hfile hsize bufs sizes
  refine ⟨k, hzero, hmin, ?_⟩
  -- a read returns 0 only at the end of the file
  obtain ⟨hle, hbytes⟩ := initrdReads_eq hfile hsize bufs sizes k
  rw [readResult_eq hfile hsize] at hzero
  have := hpos k
  rw [hbytes]
  exact List.take_of_length_le (by omega)

/-- `initrd/a.txt` with two bytes and the empty `initrd/b.c`. -/
def twoFiles : List HostFile :=
  [⟨[105, 110, 105, 116, 114, 100, 47, 97, 46, 116, 120, 116], [104, 105]⟩,
    ⟨[105, 110, 105, 116, 114, 100, 47, 98, 46, 99], []⟩]

theorem filesOk_twoFiles : FilesOk (accepted twoFiles) := by
  refine ⟨?_, by decide, by decide, by decide, by decide⟩
  intro f hf
  rcases List.mem_cons.1 hf with rfl | hf
  · exact ⟨[97, 46, 116, 120, 116], rfl⟩
  · obtain rfl := List.mem_singleton.1 hf
    exact ⟨[98, 46, 99], rfl⟩

/-- Both files come back in reads of one byte. -/
theorem initrd_round_trip_twoFiles : ∃ image, writeImage twoFiles = some image ∧
    ∀ m start, Loaded m start image → ∀ f ∈ accepted twoFiles, ∃ inode,
      initrdfsOpen m (initrdInit m start) (rewritten f) = some inode ∧
      ∀ bufs, ∃ k, readResult m (initrdInit m start) inode bufs (fun _ => 1) k = 0 ∧
        (initrdReads m (initrdInit m start) inode bufs (fun _ => 1) k).1 = f.contents := by
  obtain ⟨image, himage, h⟩ := initrd_round_trip twoFiles filesOk_twoFiles
  refine ⟨image, himage, fun m start hm f hf => ?_⟩
  obtain ⟨inode, hopen, hreads⟩ := h m start hm f hf
  refine ⟨inode, hopen, fun bufs => ?_⟩
  obtain ⟨k, hzero, -, hcontents⟩ := hreads bufs _ fun _ => Nat.one_pos
  exact ⟨k, hzero, hcontents⟩

end DepthOS
