import DepthOS.Lib.Run
import DepthOS.Proofs.Ext2Complete
import DepthOS.Sanity.Ext2Dir

/-! `ext2_iter` call after call. It goes on by the length that the record at hand gives for
itself, whatever that is. -/

namespace DepthOS

open Lib

section Progress

variable {fs : Ext2Fs} {dir : Ext2Inode} {maxNameLen offset : ℕ} {raw name : Mem} {dst : Dentry}

variable (fs dir) in
/-- The record at `offset`, if there is one, has a length, and the one behind it a place. -/
def Advances (raw : Mem) (offset : ℕ) : Prop :=
  ∀ h, ext2Read fs dir raw 8 offset = some h → h.r = 8 →
    1 ≤ rawSize h.buf 0 ∧ offset + rawSize h.buf 0 < 4294967296

theorem rawSize_lt (m : Mem) (a : ℕ) : rawSize m a < 65536 := by
  have h1 := (m (a + 4)).isLt
  have h2 := (m (a + 4 + 1)).isLt
  unfold rawSize load16
  omega

theorem ext2Iter_short {h : Ext2ReadResult} (hread : ext2Read fs dir raw 8 offset = some h)
    (h8 : h.r ≠ 8) :
    ext2Iter fs dir raw name dst maxNameLen offset = some (0, { dst with offset := offset }, offset)
    := by
  have hle := ext2Read_le raw hread (by norm_num)
  unfold ext2Iter
  dsimp only
  rw [hread, Option.bind_some]
  by_cases h0 : h.r = 0
  · rw [if_pos h0]
  · rw [if_neg h0, if_pos (by omega)]

theorem ext2Iter_header {h : Ext2ReadResult} (hread : ext2Read fs dir raw 8 offset = some h)
    (h8 : h.r = 8) {x : ℕ × Dentry × ℕ}
    (hx : ext2Iter fs dir raw name dst maxNameLen offset = some x) :
    x.1 ≠ 0 ∧ x.2.2 = u32 (offset + rawSize h.buf 0) := by
  have hlen := rawNameLength_lt h.buf 0
  unfold ext2Iter at hx
  dsimp only at hx
  rw [hread, Option.bind_some, if_neg (by omega), if_neg (by omega), h8] at hx
  obtain ⟨nm, hnm, rfl⟩ := Option.map_eq_some_iff.1 hx
  have hle := ext2Read_le name hnm (by omega)
  refine ⟨?_, rfl⟩
  dsimp only
  rw [u32_of_lt (by omega)]
  omega

theorem ext2Iter_read {x : ℕ × Dentry × ℕ}
    (hx : ext2Iter fs dir raw name dst maxNameLen offset = some x) (hret : x.1 ≠ 0) :
    ∃ h, ext2Read fs dir raw 8 offset = some h ∧ h.r = 8 := by
  cases hread : ext2Read fs dir raw 8 offset with
  | none =>
    unfold ext2Iter at hx
    rw [hread] at hx
    cases hx
  | some h =>
    refine ⟨h, rfl, ?_⟩
    by_contra h8
    rw [ext2Iter_short hread h8] at hx
    exact hret (congrArg Prod.fst (Option.some.inj hx)).symm

theorem ext2Iter_advances_iff (hoff : offset < 4294967296) (raw name : Mem) (dst : Dentry) :
    (∀ x, ext2Iter fs dir raw name dst maxNameLen offset = some x → x.1 ≠ 0 → offset < x.2.2) ↔
      Advances fs dir raw offset := by
  constructor
  · intro hadv h hread h8
    have hsize := rawSize_lt h.buf 0
    -- a header comes only through a block buffer, and so the call returns
    have hbuf : fs.Buffered := by
      by_contra hnull
      have hr := (ext2Read_none hnull (by norm_num) hread).1
      omega
    obtain ⟨hret, hnext⟩ := ext2Iter_header hread h8
      (ext2Iter_some hbuf dir raw name dst maxNameLen offset)
    have hlt := hadv _ (ext2Iter_some hbuf dir raw name dst maxNameLen offset) hret
    rw [hnext, u32] at hlt
    omega
  · intro hadv x hx hret
    obtain ⟨h, hread, h8⟩ := ext2Iter_read hx hret
    obtain ⟨h1, hlt⟩ := hadv h hread h8
    rw [(ext2Iter_header hread h8 hx).2, u32_of_lt hlt]
    omega

/-- One call of a reader: what its buffers hold. -/
structure IterCall where
  fresh : ℕ → Leftovers
  raw : Mem
  name : Mem
  dst : Dentry

variable (fs dir maxNameLen) in
/-- A call that does not return 0 takes the reader from one offset to the next. -/
def IterStep (offset : ℕ) (c : IterCall) (next : ℕ) : Prop :=
  ∃ x, ext2Iter (fs.refresh c.fresh) dir c.raw c.name c.dst maxNameLen offset = some x ∧
    x.1 ≠ 0 ∧ next = x.2.2

theorem iterStep_inside {c : IterCall} {next : ℕ} (hoff : offset < 4294967296)
    (h : IterStep fs dir maxNameLen offset c next)
    (hadv : Advances (fs.refresh c.fresh) dir c.raw offset) :
    offset < dir.sizeLo ∧ offset < next ∧ next < 4294967296 := by
  obtain ⟨x, hx, hret, rfl⟩ := h
  obtain ⟨y, hread, h8⟩ := ext2Iter_read hx hret
  refine ⟨?_, (ext2Iter_advances_iff hoff c.raw c.name c.dst).2 hadv x hx hret, ?_⟩
  · by_contra hend
    rw [ext2Read_end _ (Nat.le_of_not_lt hend), Option.some.injEq] at hread
    rw [← hread] at h8
    exact absurd h8 (by norm_num)
  · rw [(ext2Iter_header hread h8 hx).2]
    exact Nat.mod_lt _ (by norm_num)

/-- A call goes forward exactly when the record it reads has a length that does not lead past
4 GiB. A reader all of whose calls do so makes no more of them than the directory has bytes. -/
theorem ext2_iter_progress_iff (fs : Ext2Fs) (dir : Ext2Inode) (maxNameLen : ℕ) :
    (∀ (raw name : Mem) (dst : Dentry) (offset : ℕ), offset < 4294967296 →
      ((∀ x, ext2Iter fs dir raw name dst maxNameLen offset = some x → x.1 ≠ 0 → offset < x.2.2) ↔
        Advances fs dir raw offset)) ∧
    ∀ calls offset, Run (· = 0) (fun o c o' => IterStep fs dir maxNameLen o c o' ∧
      Advances (fs.refresh c.fresh) dir c.raw o) calls offset → calls.length ≤ dir.sizeLo := by
  refine ⟨fun raw name dst offset hoff => ext2Iter_advances_iff hoff raw name dst, ?_⟩
  intro calls offset hrun
  have hall : calls.length ≤ dir.sizeLo ∧ calls.length ≤ offset ∧ offset < 4294967296 := by
    induction hrun with
    | nil h0 =>
      rw [h0]
      exact ⟨Nat.zero_le _, le_rfl, by norm_num⟩
    | snoc _ hs ih =>
      obtain ⟨-, hle, hlt⟩ := ih
      obtain ⟨hstep, hadv⟩ := hs
      obtain ⟨hin, hnext, hlt'⟩ := iterStep_inside hlt hstep hadv
      rw [List.length_append, List.length_singleton]
      omega
  exact hall.1

end Progress

/-- A directory of one block. -/
def oneBlockDir : Ext2Inode := ⟨0x4000, 1024, fun i => if i = 0 then 1 else 0, 0, 0⟩

/-- It holds ".", ".." and "a", and the next block "b". -/
def dotsWord (w : ℕ) : ℕ :=
  if w = 256 then 2
  else if w = 257 then 0x0201000c
  else if w = 258 then 0x2e
  else if w = 259 then 2
  else if w = 260 then 0x0202000c
  else if w = 261 then 0x2e2e
  else if w = 262 then 5
  else if w = 263 then 0x010103e8
  else if w = 264 then 0x61
  else if w = 512 then 6
  else if w = 513 then 0x01010400
  else if w = 514 then 0x62
  else 0

/-- A call with empty buffers. -/
def blankCall : IterCall :=
  ⟨fun _ => Leftovers.all fun _ => 0, fun _ => 0, fun _ => 0, ⟨0, 0, [], 0⟩⟩

/-- A reader gets through them with three calls, and the next one returns 0. -/
theorem ext2_iter_progress_dots :
    Run (· = 0) (fun o c o' => IterStep (wordFs dotsWord) oneBlockDir 256 o c o' ∧
      Advances ((wordFs dotsWord).refresh c.fresh) oneBlockDir c.raw o)
      [blankCall, blankCall, blankCall] 1024 ∧
    [blankCall, blankCall, blankCall].length ≤ oneBlockDir.sizeLo ∧
    ∃ x, ext2Iter (wordFs dotsWord) oneBlockDir (fun _ => 0) (fun _ => 0) ⟨0, 0, [], 0⟩ 256 1024 =
      some x ∧ x.1 = 0 := by
  have hbuf : ((wordFs dotsWord).refresh blankCall.fresh).Buffered := by decide
  have hstep (o o' : ℕ) (h1 : (iterRecord ((wordFs dotsWord).refresh blankCall.fresh) oneBlockDir
      blankCall.raw blankCall.name blankCall.dst 256 o).1 ≠ 0)
      (h2 : (iterRecord ((wordFs dotsWord).refresh blankCall.fresh) oneBlockDir blankCall.raw
        blankCall.name blankCall.dst 256 o).2.2 = o') (hlt : o < o') (ho : o < 4294967296) :
      IterStep (wordFs dotsWord) oneBlockDir 256 o blankCall o' ∧
        Advances ((wordFs dotsWord).refresh blankCall.fresh) oneBlockDir blankCall.raw o := by
    refine ⟨⟨_, ext2Iter_some hbuf _ _ _ _ _ _, h1, h2.symm⟩, ?_⟩
    refine ((ext2_iter_progress_iff _ oneBlockDir 256).1 blankCall.raw blankCall.name
      blankCall.dst o ho).1 fun x hx _ => ?_
    rw [ext2Iter_some hbuf, Option.some.injEq] at hx
    rw [← hx, h2]
    exact hlt
  have hstart : Run (· = 0) (fun o c o' => IterStep (wordFs dotsWord) oneBlockDir 256 o c o' ∧
      Advances ((wordFs dotsWord).refresh c.fresh) oneBlockDir c.raw o) [] 0 := Run.nil rfl
  have hfirst := hstart.snoc (hstep 0 12 (by decide +kernel) (by decide +kernel) (by decide)
    (by decide))
  have hsecond := hfirst.snoc (hstep 12 24 (by decide +kernel) (by decide +kernel) (by decide)
    (by decide))
  have hrun := hsecond.snoc (hstep 24 1024 (by decide +kernel) (by decide +kernel) (by decide)
    (by decide))
  refine ⟨hrun, (ext2_iter_progress_iff (wordFs dotsWord) oneBlockDir 256).2 _ 1024 hrun, ?_⟩
  exact ⟨_, ext2Iter_some (by decide) _ _ _ _ _ _, by decide +kernel⟩

/-- A record of length 0 is returned again and again. -/
theorem ext2_iter_stays : ¬ ∀ (fs : Ext2Fs) (dir : Ext2Inode) (maxNameLen : ℕ) (raw name : Mem)
    (dst : Dentry) (offset : ℕ), offset < 4294967296 →
      ∀ x, ext2Iter fs dir raw name dst maxNameLen offset = some x → x.1 ≠ 0 → offset < x.2.2 := by
  intro h
  have hbuf : (wordFs fun _ => 0).Buffered := by decide
  have hstep := h (wordFs fun _ => 0) oneBlockDir 256 (fun _ => 0) (fun _ => 0) ⟨0, 0, [], 0⟩ 0
    (by norm_num) _ (ext2Iter_some hbuf _ _ _ _ _ _)
  exact absurd hstep (by decide +kernel)

end DepthOS
