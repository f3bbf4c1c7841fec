import DepthOS.Sanity.Ext2

/-! The records of a directory, and one block of them scanned by `ext2_read_dentries`. -/

namespace DepthOS

open Lib

section Raw

variable {m c : Mem} {a b : ℕ}

theorem raw_congr (h : ∀ k < 8, m (a + k) = c (b + k)) :
    rawInode m a = rawInode c b ∧ rawSize m a = rawSize c b ∧
    rawNameLength m a = rawNameLength c b ∧ rawType m a = rawType c b := by
  have h0 := h 0 (by norm_num)
  rw [Nat.add_zero, Nat.add_zero] at h0
  refine ⟨?_, ?_, ?_, ?_⟩
  · unfold rawInode load32
    rw [h0, h 1 (by norm_num), h 2 (by norm_num), h 3 (by norm_num)]
  · unfold rawSize load16
    rw [h 4 (by norm_num), Nat.add_assoc a, Nat.add_assoc b, h 5 (by norm_num)]
  · unfold rawNameLength
    rw [h 6 (by norm_num)]
  · unfold rawType
    rw [h 7 (by norm_num)]

theorem bytesAt_congr {n : ℕ} (h : ∀ k < n, m (a + k) = c (b + k)) :
    bytesAt m a n = bytesAt c b n :=
  List.map_congr_left fun k hk => h k (List.mem_range.1 hk)

theorem rawNameLength_lt (m : Mem) (a : ℕ) : rawNameLength m a < 256 := (m (a + 6)).isLt

end Raw

section Scan

variable {m c : Mem}

theorem recAt_congr {a : ℕ} (h : ∀ k < 8 + rawNameLength c a, m (a + k) = c (a + k)) :
    recAt m a = recAt c a := by
  obtain ⟨hi, hs, hl, ht⟩ := raw_congr (m := m) (a := a) (c := c) (b := a)
    (fun k hk => h k (by omega))
  unfold recAt
  rw [hi, hs, hl, ht, bytesAt_congr (c := c) (b := a + 8) (fun k hk => ?_)]
  rw [Nat.add_assoc]
  exact h _ (by omega)

theorem Tiled.congr : ∀ {rs : List DirRec} {a e : ℕ}, (∀ x, a ≤ x → x < e → m x = c x) →
    Tiled c a e rs → Tiled m a e rs := by
  intro rs
  induction rs with
  | nil => exact fun _ h => h
  | cons r rs ih =>
    rintro a e hm ⟨hr, hsize, hle, ht⟩
    refine ⟨?_, hsize, hle, ih (fun x h1 h2 => hm x (by omega) h2) ht⟩
    rw [← hr]
    apply recAt_congr
    intro k hk
    have hlen : r.name.length = rawNameLength c a := by rw [← hr, recAt, bytesAt_length]
    exact hm _ (by omega) (by omega)

/-- The slots a scan has filled: one for each record, with the old entry where the
record is unused. -/
structure Filled (ds ds' : ℕ → Dentry) (j fuel : ℕ) (rs : List DirRec) : Prop where
  before : ∀ k < j, ds' k = ds k
  unused : ∀ (k : ℕ) (hk : k < rs.length), k < fuel → rs[k].inode = 0 → ds' (j + k) = ds (j + k)
  used : ∀ (k : ℕ) (hk : k < rs.length), k < fuel → rs[k].inode ≠ 0 →
    (ds' (j + k)).inode = rs[k].inode ∧ (ds' (j + k)).name = rs[k].name

theorem Filled.cons {ds ds1 ds' : ℕ → Dentry} {j fuel : ℕ} {r : DirRec} {rs : List DirRec}
    (h : Filled ds1 ds' (j + 1) fuel rs) (hother : ∀ k, k ≠ j → ds1 k = ds k)
    (hunused : r.inode = 0 → ds1 j = ds j)
    (hused : r.inode ≠ 0 → (ds1 j).inode = r.inode ∧ (ds1 j).name = r.name) :
    Filled ds ds' j (fuel + 1) (r :: rs) := by
  have hj : ds' j = ds1 j := h.before j (by omega)
  refine ⟨fun k hk => (h.before k (by omega)).trans (hother k (by omega)), ?_, ?_⟩
  · intro k hk hf h0
    cases k with
    | zero =>
      rw [Nat.add_zero, hj]
      exact hunused h0
    | succ k =>
      have hk' : k < rs.length := by simpa using hk
      have := h.unused k hk' (by omega) h0
      rw [show j + 1 + k = j + (k + 1) by omega] at this
      exact this.trans (hother _ (by omega))
  · intro k hk hf h0
    cases k with
    | zero =>
      rw [Nat.add_zero, hj]
      exact hused h0
    | succ k =>
      have hk' : k < rs.length := by simpa using hk
      have := h.used k hk' (by omega) h0
      rwa [show j + 1 + k = j + (k + 1) by omega] at this

theorem readDentriesLoop_spec {blockSize n : ℕ} (hbs : blockSize < 4294967296) :
    ∀ (rs : List DirRec) (fuel i j raw : ℕ) (ds : ℕ → Dentry), Tiled m i blockSize rs →
    fuel + j = n → rawSize m raw ≠ 0 → ∃ ds',
      readDentriesLoop m blockSize n fuel i j raw ds = (j + min fuel rs.length, ds') ∧
      Filled ds ds' j fuel rs := by
  intro rs
  induction rs with
  | nil =>
    intro fuel i j raw ds ht _ _
    refine ⟨ds, ?_, fun _ _ => rfl, fun k hk => absurd hk (Nat.not_lt_zero k),
      fun k hk => absurd hk (Nat.not_lt_zero k)⟩
    have hi : i = blockSize := ht
    cases fuel with
    | zero => rfl
    | succ fuel =>
      rw [readDentriesLoop, if_neg (by omega)]
      rfl
  | cons r rs ih =>
    rintro fuel i j raw ds ⟨hr, hsize, hle, ht⟩ hn hraw
    have hrs : rawSize m i = r.size := by rw [← hr, recAt]
    have hri : rawInode m i = r.inode := by rw [← hr, recAt]
    have hrn : bytesAt m (i + 8) (rawNameLength m i) = r.name := by rw [← hr, recAt]
    cases fuel with
    | zero =>
      refine ⟨ds, by rw [Nat.zero_min]; rfl, fun _ _ => rfl,
        fun k _ hk => absurd hk (Nat.not_lt_zero k),
        fun k _ hk => absurd hk (Nat.not_lt_zero k)⟩
    | succ fuel =>
      have hlen : j + 1 + min fuel rs.length = j + min (fuel + 1) (r :: rs).length := by
        rw [List.length_cons]
        omega
      rw [readDentriesLoop, if_pos ⟨by omega, by omega, Or.inl hraw⟩, hri, hrs,
        u32_of_lt (by omega), ← hlen]
      by_cases h0 : r.inode = 0
      · rw [if_pos h0]
        obtain ⟨ds', hloop, hf⟩ := ih fuel (i + r.size) (j + 1) i ds ht (by omega) (by omega)
        exact ⟨ds', hloop, hf.cons (fun _ _ => rfl) (fun _ => rfl) (fun h => absurd h0 h)⟩
      · rw [if_neg h0, if_neg (by omega)]
        obtain ⟨ds', hloop, hf⟩ := ih fuel (i + r.size) (j + 1) i _ ht (by omega) (by omega)
        refine ⟨ds', hloop, hf.cons (fun k hk => Function.update_of_ne hk _ _)
          (fun h => absurd h h0) (fun _ => ?_)⟩
        rw [Function.update_self]
        exact ⟨rfl, hrn⟩

end Scan

end DepthOS
