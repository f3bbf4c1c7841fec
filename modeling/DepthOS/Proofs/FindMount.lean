import DepthOS.Sanity.String
import DepthOS.Spec.Vfs

/-! `find_mount`: on a copy of the path that ends where the path does it finds the mount
with the longest fitting path. The copy has no NUL of its own, so what stands behind it in
the block can be read as part of the path. -/

namespace DepthOS

open Lib

theorem sameStr_iff {s t : CString} : sameStr s t = true ↔ s = t := by
  unfold sameStr
  rw [decide_eq_true_eq, strcmp_eq_zero (holdsStr_ofBytes s.text) t.text]
  exact ⟨CString.ext, fun h => h ▸ rfl⟩

/-- `m` is `q`, or the part of `q` before one of its separators. -/
def Covers (m q : List Byte) : Prop := m = q ∨ m ++ [PATH_SEPARATOR] <+: q

section Covers

variable {m p q t rest : List Byte}

theorem snoc_prefix_iff {c : Byte} : m ++ [c] <+: q ↔ m <+: q ∧ q[m.length]? = some c := by
  constructor
  · rintro ⟨t, rfl⟩
    refine ⟨⟨[c] ++ t, by simp⟩, ?_⟩
    simp
  · rintro ⟨⟨t, rfl⟩, hc⟩
    rw [List.getElem?_append_right le_rfl, Nat.sub_self] at hc
    cases t with
    | nil => exact absurd hc (by simp)
    | cons d t =>
      obtain rfl : d = c := Option.some.inj hc
      exact ⟨t, by simp⟩

theorem Covers.starts (h : Covers m q) : m <+: q := by
  rcases h with rfl | h
  · exact List.prefix_refl m
  · exact (snoc_prefix_iff.1 h).1

theorem Covers.length_le (h : Covers m q) : m.length ≤ q.length := h.starts.length_le

theorem Covers.eq_of_length (h : Covers m q) (h' : Covers t q) (hlen : m.length = t.length) :
    m = t :=
  (List.prefix_of_prefix_length_le h.starts h'.starts hlen.le).eq_of_length hlen

theorem covers_append (h : Covers m (p ++ t)) : m ++ [PATH_SEPARATOR] <+: p ∨ p <+: m := by
  rcases Nat.lt_or_ge m.length p.length with hlt | hge
  · left
    rcases h with rfl | h
    · exact absurd hlt (by simp)
    · obtain ⟨hpre, hsep⟩ := snoc_prefix_iff.1 h
      rw [List.getElem?_append_left hlt] at hsep
      exact snoc_prefix_iff.2
        ⟨List.prefix_of_prefix_length_le hpre (List.prefix_append p t) hlt.le, hsep⟩
  · exact Or.inr (List.prefix_of_prefix_length_le (List.prefix_append p t) h.starts hge)

theorem Covers.append (h : m ++ [PATH_SEPARATOR] <+: p) : Covers m (p ++ t) :=
  Or.inr (h.trans (List.prefix_append p t))

theorem covers_parent (hrest : PATH_SEPARATOR ∉ rest) :
    Covers m (p ++ PATH_SEPARATOR :: rest) ↔ m = p ++ PATH_SEPARATOR :: rest ∨ Covers m p := by
  constructor
  · rintro (rfl | h)
    · exact Or.inl rfl
    · right
      obtain ⟨hpre, hsep⟩ := snoc_prefix_iff.1 h
      rcases Nat.lt_trichotomy m.length p.length with hlt | heq | hgt
      · rw [List.getElem?_append_left hlt] at hsep
        exact Or.inr (snoc_prefix_iff.2
          ⟨List.prefix_of_prefix_length_le hpre (List.prefix_append _ _) hlt.le, hsep⟩)
      · left
        exact (List.prefix_of_prefix_length_le hpre (List.prefix_append _ _) heq.le).eq_of_length heq
      · -- a separator there would be in the part without one
        rw [List.getElem?_append_right hgt.le] at hsep
        obtain ⟨n, hn⟩ : ∃ n, m.length - p.length = n + 1 := ⟨m.length - p.length - 1, by omega⟩
        rw [hn, List.getElem?_cons_succ] at hsep
        exact absurd (List.mem_of_getElem? hsep) hrest
  · rintro (rfl | rfl | h)
    · exact Or.inl rfl
    · exact Or.inr ⟨rest, by simp⟩
    · exact Covers.append h

end Covers

/-- The paths the loop looks up when it starts from `q`. -/
def Searched (q : List Byte) (s : CString) : Prop := PATH_SEPARATOR ∈ s.bytes ∧ Covers s.bytes q

/-- Entry `i` is the first one with path `s`. -/
structure FirstAt (v : Vfs) (i : ℕ) (s : CString) : Prop where
  entry : ∃ m, v.mounts[i]? = some m ∧ m.path = s
  least : ∀ j < i, ∀ m, v.mounts[j]? = some m → m.path ≠ s

theorem FirstAt.unique {v : Vfs} {i j : ℕ} {s : CString} (hi : FirstAt v i s) (hj : FirstAt v j s) :
    i = j := by
  obtain ⟨m, hm, hms⟩ := hi.entry
  obtain ⟨n, hn, hns⟩ := hj.entry
  rcases Nat.lt_trichotomy i j with h | h | h
  · exact absurd hms (hj.least i h m hm)
  · exact h
  · exact absurd hns (hi.least j h n hn)

theorem FirstAt.path {v : Vfs} {i : ℕ} {s t : CString} (hs : FirstAt v i s) (ht : FirstAt v i t) :
    s = t := by
  obtain ⟨m, hm, rfl⟩ := hs.entry
  obtain ⟨n, hn, rfl⟩ := ht.entry
  rw [Option.some.inj (hm.symm.trans hn)]

theorem findIdx?_path {v : Vfs} {P : Mount → Bool} {s : CString}
    (hP : ∀ m ∈ v.mounts, P m = true ↔ m.path = s) :
    (∃ i, v.mounts.findIdx? P = some i ∧ FirstAt v i s) ∨
      v.mounts.findIdx? P = none ∧ ∀ m ∈ v.mounts, m.path ≠ s := by
  rcases h : v.mounts.findIdx? P with _ | i
  · right
    refine ⟨rfl, fun m hm hs => ?_⟩
    have := List.findIdx?_eq_none_iff.1 h m hm
    rw [(hP m hm).2 hs] at this
    exact absurd this (by decide)
  · left
    obtain ⟨hlt, hi, hleast⟩ := List.findIdx?_eq_some_iff_getElem.1 h
    refine ⟨i, rfl, ⟨v.mounts[i], List.getElem?_eq_getElem hlt, (hP _ (List.getElem_mem hlt)).1 hi⟩, ?_⟩
    intro j hj m hm hs
    obtain ⟨hlt', rfl⟩ := List.getElem?_eq_some_iff.1 hm
    exact hleast j hj ((hP _ (List.getElem_mem hlt')).2 hs)

/-- `r` is the first entry with the longest mounted path that is in `S`, or `root_mount` if
none is. -/
def Best (v : Vfs) (S : CString → Prop) (r : Option ℕ) : Prop :=
  (∃ i s, r = some i ∧ FirstAt v i s ∧ S s ∧ ∀ m ∈ v.mounts, S m.path → m.path.length ≤ s.length) ∨
  (r = v.rootMount ∧ ∀ m ∈ v.mounts, ¬ S m.path)

section Best

variable {v : Vfs} {S S' : CString → Prop} {r r' : Option ℕ}

theorem Best.congr (h : Best v S r) (hS : ∀ m ∈ v.mounts, S m.path ↔ S' m.path) : Best v S' r := by
  rcases h with ⟨i, s, rfl, hfirst, hs, hmax⟩ | ⟨rfl, hno⟩
  · obtain ⟨m, hm, rfl⟩ := hfirst.entry
    exact Or.inl ⟨i, _, rfl, hfirst, (hS m (List.mem_of_getElem? hm)).1 hs,
      fun n hn hns => hmax n hn ((hS n hn).2 hns)⟩
  · exact Or.inr ⟨rfl, fun n hn hns => hno n hn ((hS n hn).2 hns)⟩

theorem Best.unique (hS : ∀ s t, S s → S t → s.length = t.length → s = t) (h : Best v S r)
    (h' : Best v S r') : r = r' := by
  rcases h with ⟨i, s, rfl, hi, hs, hmax⟩ | ⟨rfl, hno⟩ <;>
    rcases h' with ⟨j, t, rfl, hj, ht, hmax'⟩ | ⟨rfl, hno'⟩
  · obtain ⟨m, hm, rfl⟩ := hi.entry
    obtain ⟨n, hn, rfl⟩ := hj.entry
    have h1 := hmax n (List.mem_of_getElem? hn) ht
    have h2 := hmax' m (List.mem_of_getElem? hm) hs
    rw [hS _ _ hs ht (le_antisymm h2 h1)] at hi
    rw [hi.unique hj]
  · obtain ⟨m, hm, rfl⟩ := hi.entry
    exact absurd hs (hno' m (List.mem_of_getElem? hm))
  · obtain ⟨n, hn, rfl⟩ := hj.entry
    exact absurd ht (hno n (List.mem_of_getElem? hn))
  · rfl

end Best

theorem searched_inj {q : List Byte} (s t : CString) (hs : Searched q s) (ht : Searched q t)
    (hlen : s.length = t.length) : s = t :=
  CString.ext (hs.2.eq_of_length ht.2 hlen)

theorem findMountExact_cases (v : Vfs) {str : Mem} {q : List Byte} (h : HoldsStr str 0 q) :
    (∃ i, findMountExact v str = some i ∧ FirstAt v i ⟨q, h.text⟩) ∨
      findMountExact v str = none ∧ ∀ m ∈ v.mounts, m.path.bytes ≠ q := by
  have hP : ∀ m ∈ v.mounts, decide (strcmp str 0 m.path.bytes = 0) = true ↔
      m.path = ⟨q, h.text⟩ := by
    intro m _
    rw [decide_eq_true_eq, strcmp_eq_zero h m.path.text]
    exact ⟨fun he => CString.ext he.symm, fun he => by rw [he]⟩
  rcases findIdx?_path hP with hfound | ⟨hnone, hpath⟩
  · exact Or.inl hfound
  · exact Or.inr ⟨hnone, fun m hm he => hpath m hm (CString.ext he)⟩

theorem findMountLoop_finds (v : Vfs) {walk fuel : ℕ} : ∀ {str : Mem} {q : List Byte},
    HoldsStr str 0 q → q.length < walk → q.length < fuel →
      ∃ r, findMountLoop v walk fuel str = some r ∧ Best v (Searched q) r := by
  induction fuel with
  | zero =>
    intro str q _ _ hfuel
    exact absurd hfuel (Nat.not_lt_zero _)
  | succ fuel ih =>
    intro str q hstr hwalk hfuel
    unfold findMountLoop
    rcases strrchr_eq hstr PATH_SEPARATOR hwalk with ⟨hno, hr⟩ | ⟨k, hr, rest, hq, hrest, hk⟩
    · refine ⟨v.rootMount, by rw [hr], Or.inr ⟨rfl, ?_⟩⟩
      rintro m - ⟨hsep, hc⟩
      exact hno (hc.starts.subset hsep)
    · rw [hr]
      rcases findMountExact_cases v hstr with ⟨i, hex, hfirst⟩ | ⟨hex, hpath⟩
      · refine ⟨some i, by rw [hex], Or.inl ⟨i, _, rfl, hfirst, ⟨?_, Or.inl rfl⟩, ?_⟩⟩
        · change PATH_SEPARATOR ∈ q
          rw [hq]
          simp
        · rintro m - ⟨-, hc⟩
          exact hc.length_le
      · -- the copy is cut before its last separator and searched again
        have hcut := hstr.truncate hk.le
        obtain ⟨r, hloop, hbest⟩ := ih hcut (by simp; omega) (by simp; omega)
        refine ⟨r, by rw [hex]; exact hloop, ?_⟩
        refine hbest.congr fun m hm => ?_
        unfold Searched
        rw [hq, covers_parent hrest, ← hq]
        exact and_congr_right fun _ => ⟨Or.inr, fun h => h.resolve_left (hpath m hm)⟩

/-- The copy of the path in the block. -/
def copied (block : Mem) (p : CString) : Mem := blit block 0 (ofBytes p.bytes) p.length

theorem holdsStr_copied {block : Mem} {p : CString} {t : List Byte}
    (h : HoldsStr block p.length t) : HoldsStr (copied block p) 0 (p.bytes ++ t) := by
  obtain ⟨htext, hbytes, hend⟩ := holdsStr_iff.1 h
  have hlen : p.length = p.bytes.length := rfl
  refine holdsStr_iff.2 ⟨?_, fun k hk => ?_, ?_⟩
  · rw [List.mem_append, not_or]
    exact ⟨p.text, htext⟩
  · rw [List.length_append] at hk
    rw [Nat.zero_add, copied, List.getD_eq_getElem?_getD]
    rcases Nat.lt_or_ge k p.length with hlt | hge
    · rw [blit_front hlt, List.getElem?_append_left hlt, ofBytes, List.getD_eq_getElem?_getD]
    · rw [blit_other (Or.inr (by omega)), List.getElem?_append_right hge,
        ← List.getD_eq_getElem?_getD, ← hlen, ← hbytes (k - p.length) (by omega)]
      congr 1
      omega
  · rw [List.length_append, copied, blit_other (Or.inr (by omega)), Nat.zero_add]
    exact hend

theorem findMount_finds (v : Vfs) {p : CString} (hp : p ≠ rootPath) {block : Mem} {t : List Byte}
    (ht : HoldsStr block p.length t) {fuel : ℕ} (hfuel : p.length + t.length < fuel) :
    ∃ r, findMount fuel v p block = some r ∧ Best v (Searched (p.bytes ++ t)) r := by
  unfold findMount
  rw [if_neg (fun h => hp (sameStr_iff.1 h))]
  have hlen : (p.bytes ++ t).length < fuel := by rw [List.length_append]; exact hfuel
  exact findMountLoop_finds v (holdsStr_copied ht) hlen hlen

theorem findMount_returns {v : Vfs} {p : CString} (hp : p ≠ rootPath) {block : Mem} {fuel : ℕ}
    {r : Option ℕ} (h : findMount fuel v p block = some r) :
    ∃ t, HoldsStr block p.length t ∧ Best v (Searched (p.bytes ++ t)) r := by
  have hloop : findMountLoop v fuel fuel (copied block p) = some r := by
    unfold findMount at h
    rwa [if_neg (fun he => hp (sameStr_iff.1 he))] at h
  obtain ⟨s, hs, hlt⟩ : ∃ s, HoldsStr (copied block p) 0 s ∧ s.length < fuel := by
    cases fuel with
    | zero => exact absurd hloop (by simp [findMountLoop])
    | succ n =>
      unfold findMountLoop at hloop
      rcases hlen : strlen (n + 1) (copied block p) 0 with _ | len
      · rw [strrchr, hlen] at hloop
        exact absurd hloop (by simp)
      · exact strlen_some hlen
  -- the NUL is not in the path
  have hge : p.length ≤ s.length := by
    by_contra hcon
    push Not at hcon
    have hend := (holdsStr_iff.1 hs).2.2
    rw [Nat.zero_add, copied, blit_front hcon, ofBytes, List.getD_eq_getElem?_getD,
      List.getElem?_eq_getElem hcon] at hend
    exact p.text (hend ▸ List.getElem_mem hcon)
  have hnul : block (p.length + (s.length - p.length)) = 0 := by
    have hend := (holdsStr_iff.1 hs).2.2
    rw [Nat.zero_add, copied, blit_other (Or.inr (by omega))] at hend
    rw [Nat.add_sub_cancel' hge]
    exact hend
  obtain ⟨t, ht⟩ := exists_holdsStr hnul
  have hst := hs.unique (holdsStr_copied ht)
  rw [hst, List.length_append] at hlt
  obtain ⟨r', hr', hbest⟩ := findMount_finds v hp ht hlt
  obtain rfl : r' = r := Option.some.inj (hr'.symm.trans h)
  exact ⟨t, ht, hbest⟩

/-! The path and nothing behind it. -/

def Absolute (s : CString) : Prop := s.bytes.head? = some PATH_SEPARATOR

theorem Absolute.sep_mem {s : CString} (h : Absolute s) : PATH_SEPARATOR ∈ s.bytes :=
  List.mem_of_mem_head? h

/-- `r` is the first entry with the longest mounted path that is `p` or a part of `p` before
a separator, or `root_mount` if there is none. -/
def LongestMount (v : Vfs) (p : CString) : Option ℕ → Prop :=
  Best v fun s => Covers s.bytes p.bytes

/-- `root_mount` designates the mount at the root, or is NULL if there is none. -/
def RootMounted (v : Vfs) : Prop :=
  v.rootMount = v.mounts.findIdx? fun m => decide (m.path = rootPath)

theorem RootMounted.cases {v : Vfs} (h : RootMounted v) :
    (∃ i, v.rootMount = some i ∧ FirstAt v i rootPath) ∨
      v.rootMount = none ∧ ∀ m ∈ v.mounts, m.path ≠ rootPath := by
  rw [h]
  exact findIdx?_path fun m _ => decide_eq_true_iff

theorem Best.longest {v : Vfs} (habs : ∀ m ∈ v.mounts, Absolute m.path) {p : CString}
    {r : Option ℕ} (h : Best v (Searched p.bytes) r) : LongestMount v p r :=
  h.congr fun m hm => ⟨fun hs => hs.2, fun hc => ⟨(habs m hm).sep_mem, hc⟩⟩

theorem covers_root {s : CString} (hs : Absolute s) (h : Covers s.bytes rootPath.bytes) :
    s = rootPath := by
  rcases h with h | h
  · exact CString.ext h
  · have hlen := h.length_le
    rw [List.length_append] at hlen
    have hnil : s.bytes = [] := List.length_eq_zero_iff.1 (by
      change s.bytes.length + 1 ≤ 1 at hlen
      omega)
    rw [Absolute, hnil] at hs
    exact absurd hs (by simp)

theorem rootMount_longest {v : Vfs} (habs : ∀ m ∈ v.mounts, Absolute m.path)
    (hroot : RootMounted v) : LongestMount v rootPath v.rootMount := by
  rcases hroot.cases with ⟨i, hi, hfirst⟩ | ⟨-, hno⟩
  · refine Or.inl ⟨i, rootPath, hi, hfirst, Or.inl rfl, fun m hm hc => ?_⟩
    rw [covers_root (habs m hm) hc]
  · exact Or.inr ⟨rfl, fun m hm hc => hno m hm (covers_root (habs m hm) hc)⟩

/-- What `get_relative_mountpoint_path` is to return for a mount found for `p`. -/
structure RelativePath (m : Mount) (p rel : CString) : Prop where
  absolute : Absolute rel
  equal : p = m.path → rel = rootPath
  root : m.path = rootPath → rel = p
  below : p ≠ m.path → m.path ≠ rootPath → m.path.bytes ++ rel.bytes = p.bytes

theorem relativePath_spec {m : Mount} {p : CString} (hp : Absolute p)
    (h : m.path = rootPath ∨ Covers m.path.bytes p.bytes) :
    RelativePath m p (getRelativeMountpointPath m p) := by
  unfold getRelativeMountpointPath
  by_cases heq : p = m.path
  · rw [if_pos (sameStr_iff.2 heq)]
    exact ⟨rfl, fun _ => rfl, fun hr => (heq.trans hr).symm, fun hne => absurd heq hne⟩
  · rw [if_neg (fun he => heq (sameStr_iff.1 he))]
    by_cases hr : m.path = rootPath
    · rw [sameStr_iff.2 hr]
      exact ⟨hp, fun he => absurd he heq, fun _ => rfl, fun _ hne => absurd hr hne⟩
    · have hf : sameStr m.path rootPath = false := by
        rw [← Bool.not_eq_true, sameStr_iff]
        exact hr
      rw [hf]
      rcases h.resolve_left hr with hc | ⟨t, ht⟩
      · exact absurd (CString.ext hc.symm) heq
      · have hdrop : (p.drop m.path.length).bytes = PATH_SEPARATOR :: t := by
          simp only [CString.drop, CString.length, ← ht, List.append_assoc, List.drop_left]
          rfl
        refine ⟨?_, fun he => absurd he heq, fun he => absurd he hr, fun _ _ => ?_⟩
        · exact congrArg List.head? hdrop
        · change m.path.bytes ++ (p.drop m.path.length).bytes = p.bytes
          rw [hdrop, ← ht]
          simp

/-- Longest-prefix mount resolution, for a copy that is terminated where the path is. -/
theorem find_mount_longest (v : Vfs) (p : CString) (block : Mem)
    (habs : ∀ m ∈ v.mounts, Absolute m.path) (hroot : RootMounted v) (hp : Absolute p)
    (hnul : block p.length = 0) :
    ∃ r, (∀ fuel, p.length < fuel → findMount fuel v p block = some r) ∧ LongestMount v p r ∧
      ∀ i, r = some i → ∃ m, v.mounts[i]? = some m ∧
        RelativePath m p (getRelativeMountpointPath m p) := by
  have hres : ∃ r, (∀ fuel, p.length < fuel → findMount fuel v p block = some r) ∧
      LongestMount v p r := by
    by_cases hpr : p = rootPath
    · refine ⟨v.rootMount, fun fuel _ => ?_, ?_⟩
      · unfold findMount
        rw [if_pos (sameStr_iff.2 hpr)]
      · rw [hpr]
        exact rootMount_longest habs hroot
    · have hstr : HoldsStr block p.length [] := hnul
      obtain ⟨r, -, hbest⟩ := findMount_finds v hpr hstr (Nat.lt_succ_self p.length)
      rw [List.append_nil] at hbest
      refine ⟨r, fun fuel hfuel => ?_, hbest.longest habs⟩
      obtain ⟨r', hr', hbest'⟩ := findMount_finds v hpr hstr hfuel
      rw [List.append_nil] at hbest'
      rw [hr', Best.unique searched_inj hbest' hbest]
  obtain ⟨r, hret, hlong⟩ := hres
  refine ⟨r, hret, hlong, fun i hi => ?_⟩
  subst hi
  rcases hlong with ⟨j, s, hj, hfirst, hc, -⟩ | ⟨hr, -⟩
  · obtain rfl : i = j := Option.some.inj hj
    obtain ⟨m, hm, rfl⟩ := hfirst.entry
    exact ⟨m, hm, relativePath_spec hp (Or.inr hc)⟩
  · rcases hroot.cases with ⟨j, hj, hfirst⟩ | ⟨hnone, -⟩
    · obtain rfl : i = j := Option.some.inj (hr.trans hj)
      obtain ⟨m, hm, hpath⟩ := hfirst.entry
      exact ⟨m, hm, relativePath_spec hp (Or.inl hpath)⟩
    · exact absurd (hr.trans hnone) (by simp)

/-- `"/dev"` and `"/dev/tty0"` -/
def devPath : CString := ⟨[47, 100, 101, 118], by decide⟩

def ttyPath : CString := ⟨[47, 100, 101, 118, 47, 116, 116, 121, 48], by decide⟩

def devTable : Vfs := ⟨[⟨rootPath, 1⟩, ⟨devPath, 2⟩], some 0⟩

/-- The terminal is looked for below `/dev`, not below the root. -/
theorem find_mount_longest_dev : ∃ r, LongestMount devTable ttyPath r ∧
    ∀ fuel, 9 < fuel → findMount fuel devTable ttyPath (fun _ => 0) = some r := by
  obtain ⟨r, hret, hlong, -⟩ := find_mount_longest devTable ttyPath (fun _ => 0) (by
    intro m hm
    rcases List.mem_cons.1 hm with rfl | hm
    · rfl
    · obtain rfl := List.mem_singleton.1 hm
      rfl) rfl rfl rfl
  exact ⟨r, hlong, hret⟩

example : findMount 10 devTable ttyPath (fun _ => 0) = some (some 1) := by decide

/-! The path with leftovers behind it. -/

/-- The result is the same for any two contents of the block with which the call returns. -/
def LeftoversIgnored (v : Vfs) (p : CString) : Prop :=
  ∀ block block' fuel fuel' r r', findMount fuel v p block = some r →
    findMount fuel' v p block' = some r' → r = r'

/-- A path that the copy with leftovers can turn into. -/
def Extends (p s : CString) : Prop := PATH_SEPARATOR ∈ s.bytes ∧ p.bytes <+: s.bytes

/-- A path that is looked up as a parent of `p`. -/
def IsParent (p s : CString) : Prop :=
  PATH_SEPARATOR ∈ s.bytes ∧ s.bytes ++ [PATH_SEPARATOR] <+: p.bytes

theorem isParent_inj {p : CString} (s t : CString) (hs : IsParent p s) (ht : IsParent p t)
    (hlen : s.length = t.length) : s = t :=
  searched_inj s t ⟨hs.1, Or.inr hs.2⟩ ⟨ht.1, Or.inr ht.2⟩ hlen

theorem IsParent.length_lt {p s : CString} (h : IsParent p s) : s.length < p.length := by
  have := h.2.length_le
  rw [List.length_append] at this
  exact this

theorem IsParent.searched {p s : CString} (h : IsParent p s) (t : List Byte) :
    Searched (p.bytes ++ t) s := ⟨h.1, Covers.append h.2⟩

theorem Searched.cases {p s : CString} {t : List Byte} (h : Searched (p.bytes ++ t) s) :
    IsParent p s ∨ Extends p s := by
  rcases covers_append h.2 with hc | hc
  · exact Or.inl ⟨h.1, hc⟩
  · exact Or.inr ⟨h.1, hc⟩

/-- Leftovers that hold `t` behind `n` bytes. -/
def behind (n : ℕ) (t : List Byte) : Mem := fun k => ofBytes t (k - n)

theorem holdsStr_behind (n : ℕ) {t : List Byte} (ht : (0 : Byte) ∉ t) :
    HoldsStr (behind n t) n t := by
  obtain ⟨-, hbytes, hend⟩ := holdsStr_iff.1 (holdsStr_ofBytes ht)
  refine holdsStr_iff.2 ⟨ht, fun k hk => ?_, ?_⟩
  · have := hbytes k hk
    rw [Nat.zero_add] at this
    rw [behind, Nat.add_sub_cancel_left, this]
  · rw [Nat.zero_add] at hend
    rw [behind, Nat.add_sub_cancel_left, hend]

theorem searched_junk {v : Vfs} {p : CString} {c : Byte} (hc : c ≠ PATH_SEPARATOR) {n : ℕ}
    (hn : ∀ m ∈ v.mounts, m.path.length < n) :
    ∀ m ∈ v.mounts, Searched (p.bytes ++ List.replicate n c) m.path ↔ IsParent p m.path := by
  intro m hm
  refine ⟨fun h => ?_, fun h => h.searched _⟩
  refine h.cases.resolve_right fun hext => ?_
  have hlt : m.path.bytes.length < n := hn m hm
  rcases h.2 with heq | hsep
  · rw [heq, List.length_append, List.length_replicate] at hlt
    omega
  · have hat := (snoc_prefix_iff.1 hsep).2
    rw [List.getElem?_append_right hext.2.length_le] at hat
    exact hc (List.eq_of_mem_replicate (List.mem_of_getElem? hat)).symm

theorem exists_length_bound (l : List Mount) : ∃ n, ∀ m ∈ l, m.path.length < n := by
  induction l with
  | nil => exact ⟨0, fun m hm => absurd hm List.not_mem_nil⟩
  | cons m l ih =>
    obtain ⟨n, hn⟩ := ih
    refine ⟨max (m.path.length + 1) n, fun x hx => ?_⟩
    rcases List.mem_cons.1 hx with rfl | hx
    · omega
    · have := hn x hx
      omega

theorem Best.exact {v : Vfs} {m : Mount} (hm : m ∈ v.mounts) (hsep : PATH_SEPARATOR ∈ m.path.bytes)
    {r : Option ℕ} (h : Best v (Searched m.path.bytes) r) :
    ∃ i, r = some i ∧ FirstAt v i m.path := by
  have hself : Searched m.path.bytes m.path := ⟨hsep, Or.inl rfl⟩
  rcases h with ⟨i, s, rfl, hfirst, hs, hmax⟩ | ⟨rfl, hno⟩
  · have hlen : s.length = m.path.length := le_antisymm hs.2.length_le (hmax m hm hself)
    rw [searched_inj s m.path hs hself hlen] at hfirst
    exact ⟨i, rfl, hfirst⟩
  · exact absurd hself (hno m hm)

/-- Two leftovers tell an extension that is mounted from the parents of the path, unless
`root_mount` is what both come to. -/
theorem leftovers_forced {v : Vfs} {p : CString} (hp : p ≠ rootPath) (h : LeftoversIgnored v p)
    {m : Mount} (hm : m ∈ v.mounts) (hext : Extends p m.path) :
    (∃ i, v.rootMount = some i ∧ FirstAt v i m.path) ∧
      ∀ n ∈ v.mounts, ¬ IsParent p n.path := by
  obtain ⟨u, hu⟩ := hext.2
  have hutext : (0 : Byte) ∉ u := fun h0 => m.path.text (hu ▸ List.mem_append_right _ h0)
  obtain ⟨r, hr, hbest⟩ := findMount_finds v hp (holdsStr_behind p.length hutext)
    (Nat.lt_succ_self _)
  rw [hu] at hbest
  obtain ⟨i, rfl, hfirst⟩ := hbest.exact hm hext.1
  obtain ⟨n, hn⟩ := exists_length_bound v.mounts
  have hjunk : (0 : Byte) ∉ List.replicate n (120 : Byte) := fun h0 =>
    absurd (List.eq_of_mem_replicate h0) (by decide)
  obtain ⟨r', hr', hbest'⟩ := findMount_finds v hp (holdsStr_behind p.length hjunk)
    (Nat.lt_succ_self _)
  obtain rfl := h _ _ _ _ _ _ hr hr'
  rcases hbest'.congr (searched_junk (by decide) hn) with ⟨j, s, hj, hfirst', hs, -⟩ | ⟨hroot, hno⟩
  · -- the parent found would have the longer path
    obtain rfl : i = j := Option.some.inj hj
    have := hs.length_lt
    rw [hfirst'.path hfirst] at this
    exact absurd this (by have := hext.2.length_le; exact Nat.not_lt.2 this)
  · exact ⟨⟨i, hroot.symm, hfirst⟩, hno⟩

/-- Leftovers do not matter exactly for `"/"` and where no mounted path extends the path; the
one exception is a `root_mount` that is itself the entry of every such extension, with no
parent of the path mounted. -/
theorem leftovers_ignored_iff (v : Vfs) (p : CString) :
    LeftoversIgnored v p ↔ p = rootPath ∨ ∀ m ∈ v.mounts, Extends p m.path →
      (∃ i, v.rootMount = some i ∧ FirstAt v i m.path) ∧ ∀ n ∈ v.mounts, ¬ IsParent p n.path := by
  by_cases hp : p = rootPath
  · refine ⟨fun _ => Or.inl hp, fun _ => ?_⟩
    intro block block' fuel fuel' r r' hr hr'
    unfold findMount at hr hr'
    rw [if_pos (sameStr_iff.2 hp)] at hr hr'
    exact Option.some.inj (hr.symm.trans hr')
  constructor
  · exact fun h => Or.inr fun m hm hext => leftovers_forced hp h hm hext
  · intro hcond block block' fuel fuel' r r' hr hr'
    have hcond := hcond.resolve_left hp
    obtain ⟨t, -, hbest⟩ := findMount_returns hp hr
    obtain ⟨t', -, hbest'⟩ := findMount_returns hp hr'
    by_cases hnone : ∀ m ∈ v.mounts, ¬ Extends p m.path
    · -- only parents of the path are ever found
      have hparent : ∀ (t : List Byte), ∀ m ∈ v.mounts,
          Searched (p.bytes ++ t) m.path ↔ IsParent p m.path := fun t m hm =>
        ⟨fun hs => hs.cases.resolve_right (hnone m hm), fun hs => hs.searched t⟩
      exact (hbest.congr (hparent t)).unique isParent_inj (hbest'.congr (hparent t'))
    · push Not at hnone
      obtain ⟨m, hm, hext⟩ := hnone
      have hno := (hcond m hm hext).2
      have hroot : ∀ {t : List Byte} {r : Option ℕ}, Best v (Searched (p.bytes ++ t)) r →
          r = v.rootMount := by
        rintro t r (⟨i, s, rfl, hfirst, hs, -⟩ | ⟨rfl, -⟩)
        · obtain ⟨n, hn, rfl⟩ := hfirst.entry
          have hmem := List.mem_of_getElem? hn
          obtain ⟨⟨j, hj, hfirst'⟩, -⟩ := hcond n hmem (hs.cases.resolve_left (hno n hmem))
          rw [hj, hfirst.unique hfirst']
        · rfl
      rw [hroot hbest, hroot hbest']

/-- With `/dev` mounted, its path is lost when the byte behind the copy is an `x`. -/
theorem leftovers_hide_dev : ¬ LeftoversIgnored ⟨[⟨devPath, 2⟩], none⟩ devPath := by
  intro h
  have h1 : findMount 6 ⟨[⟨devPath, 2⟩], none⟩ devPath (fun _ => 0) = some (some 0) := by decide
  have h2 : findMount 6 ⟨[⟨devPath, 2⟩], none⟩ devPath (behind 4 [120]) = some none := by decide
  exact absurd (h _ _ _ _ _ _ h1 h2) (by decide)

end DepthOS
