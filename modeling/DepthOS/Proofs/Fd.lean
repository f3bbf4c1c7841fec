import DepthOS.Spec.Fd

/-! Which calls keep to the descriptor table. `open`, `close`, `read`, `write`,
`seek` and `dup3` always do; `socket` and `accept` store at index -1 once the table
is full, `pipe` leaves its read end behind when it finds one slot only, and `mmap`
lets 256 and every negative descriptor through. -/

namespace DepthOS

def LogIn (s : FdState) : Prop := ∀ i ∈ s.log, 0 ≤ i ∧ i < TASK_FILETABLE_MAX

theorem logIn_nil (t : Filetable) : LogIn ⟨t, []⟩ := by
  intro i hi
  cases hi

theorem LogIn.read {s : FdState} (h : LogIn s) {i : ℤ} (h0 : 0 ≤ i) (h1 : i < TASK_FILETABLE_MAX) :
    LogIn (readSlot s i).2 := by
  intro j hj
  rcases List.mem_cons.1 hj with rfl | hj
  · exact ⟨h0, h1⟩
  · exact h j hj

theorem LogIn.write {s : FdState} (h : LogIn s) {i : ℤ} (h0 : 0 ≤ i) (h1 : i < TASK_FILETABLE_MAX)
    (f : Option File) : LogIn (writeSlot s i f) := by
  intro j hj
  rcases List.mem_cons.1 hj with rfl | hj
  · exact ⟨h0, h1⟩
  · exact h j hj

theorem LogIn.withTable {s : FdState} (h : LogIn s) (t : Filetable) :
    LogIn { s with table := t } := h

/-! The slot search. -/

theorem findFrom_table (n : ℕ) : ∀ (i : ℤ) (s : FdState), (findFrom n i s).2.table = s.table := by
  induction n with
  | zero => intro i s; rfl
  | succ n ih =>
    intro i s
    simp only [findFrom]
    split_ifs
    · rfl
    · rw [ih]
      rfl

theorem findFrom_log (n : ℕ) : ∀ (i : ℤ) (s : FdState), LogIn s → 0 ≤ i →
    i + n ≤ TASK_FILETABLE_MAX → LogIn (findFrom n i s).2 := by
  induction n with
  | zero => intro i s h _ _; exact h
  | succ n ih =>
    intro i s h h0 h1
    have hr : LogIn (readSlot s i).2 := h.read h0 (by omega)
    simp only [findFrom]
    split_ifs
    · exact hr
    · exact ih (i + 1) _ hr (by omega) (by omega)

theorem findFrom_result (n : ℕ) : ∀ (i : ℤ) (s : FdState),
    ((findFrom n i s).1 = -1 ∧ ∀ j, i ≤ j → j < i + n → s.table j ≠ none) ∨
    (i ≤ (findFrom n i s).1 ∧ (findFrom n i s).1 < i + n ∧
      s.table (findFrom n i s).1 = none) := by
  induction n with
  | zero =>
    intro i s
    exact Or.inl ⟨rfl, fun j h1 h2 => by omega⟩
  | succ n ih =>
    intro i s
    simp only [findFrom]
    by_cases hi : (readSlot s i).1 = none
    · rw [if_pos hi]
      exact Or.inr ⟨le_rfl, by omega, hi⟩
    · rw [if_neg hi]
      rcases ih (i + 1) (readSlot s i).2 with ⟨hr, hall⟩ | ⟨h1, h2, h3⟩
      · refine Or.inl ⟨hr, fun j h1 h2 => ?_⟩
        rcases eq_or_lt_of_le h1 with rfl | hlt
        · exact hi
        · exact hall j hlt (by omega)
      · exact Or.inr ⟨by omega, by omega, h3⟩

theorem freeSlots_eq_zero {t : Filetable} :
    freeSlots t = 0 ↔ ∀ j : ℤ, 0 ≤ j → j < TASK_FILETABLE_MAX → t j ≠ none := by
  rw [freeSlots, Finset.card_eq_zero, Finset.filter_eq_empty_iff]
  constructor
  · intro h j h0 h1
    obtain ⟨n, rfl⟩ := Int.eq_ofNat_of_zero_le h0
    exact h (Finset.mem_range.2 (by exact_mod_cast h1))
  · intro h n hn
    exact h n (by omega) (by exact_mod_cast Finset.mem_range.1 hn)

theorem freeSlots_update {t : Filetable} {i : ℤ} (h0 : 0 ≤ i) (h1 : i < TASK_FILETABLE_MAX)
    (hi : t i = none) (f : File) :
    freeSlots (Function.update t i (some f)) + 1 = freeSlots t := by
  obtain ⟨n, rfl⟩ := Int.eq_ofNat_of_zero_le h0
  have herase : (Finset.range TASK_FILETABLE_MAX).filter
      (fun k : ℕ => Function.update t (n : ℤ) (some f) k = none) =
      ((Finset.range TASK_FILETABLE_MAX).filter (fun k : ℕ => t k = none)).erase n := by
    ext k
    rw [Finset.mem_erase, Finset.mem_filter, Finset.mem_filter]
    by_cases hk : k = n
    · subst hk
      simp
    · have hk' : (k : ℤ) ≠ n := by exact_mod_cast hk
      rw [Function.update_of_ne hk']
      exact ⟨fun h => ⟨hk, h⟩, fun h => h.2⟩
  have hn : n < TASK_FILETABLE_MAX := by exact_mod_cast h1
  unfold freeSlots
  rw [herase]
  exact Finset.card_erase_add_one (Finset.mem_filter.2 ⟨Finset.mem_range.2 hn, hi⟩)

/-- `find_available_fd` reads inside the table and changes nothing; it returns -1
exactly when no slot is free. -/
theorem findAvailableFd_spec {s : FdState} (h : LogIn s) :
    (findAvailableFd s).2.table = s.table ∧ LogIn (findAvailableFd s).2 ∧
    ((freeSlots s.table = 0 ∧ (findAvailableFd s).1 = -1) ∨
      (0 < freeSlots s.table ∧ 0 ≤ (findAvailableFd s).1 ∧
        (findAvailableFd s).1 < TASK_FILETABLE_MAX ∧ s.table (findAvailableFd s).1 = none)) := by
  refine ⟨findFrom_table _ _ _, findFrom_log _ _ _ h le_rfl (by norm_num), ?_⟩
  rcases findFrom_result TASK_FILETABLE_MAX 0 s with ⟨hr, hall⟩ | ⟨h1, h2, h3⟩
  · refine Or.inl ⟨freeSlots_eq_zero.2 fun j h0 hlt => hall j h0 (by omega), hr⟩
  · rw [Int.zero_add] at h2
    refine Or.inr ⟨Nat.pos_of_ne_zero fun hz => ?_, h1, h2, h3⟩
    exact freeSlots_eq_zero.1 hz _ h1 h2 h3

theorem storeFirst_full {s : FdState} (h : LogIn s) (hz : freeSlots s.table = 0) (f : File) :
    (storeFirst s f).1 = none ∧ (storeFirst s f).2.table = s.table ∧
      LogIn (storeFirst s f).2 := by
  obtain ⟨ht, hlog, ⟨-, hr⟩ | ⟨hpos, -⟩⟩ := findAvailableFd_spec h
  · simp only [storeFirst, if_pos hr]
    exact ⟨trivial, ht, hlog⟩
  · omega

theorem storeFirst_free {s : FdState} (h : LogIn s) (hpos : 0 < freeSlots s.table) (f : File) :
    ∃ i : ℤ, 0 ≤ i ∧ i < TASK_FILETABLE_MAX ∧ s.table i = none ∧ (storeFirst s f).1 = some i ∧
      (storeFirst s f).2.table = Function.update s.table i (some f) ∧
      LogIn (storeFirst s f).2 := by
  obtain ⟨ht, hlog, ⟨hz, -⟩ | ⟨-, h0, h1, hnone⟩⟩ := findAvailableFd_spec h
  · omega
  · refine ⟨(findAvailableFd s).1, h0, h1, hnone, ?_⟩
    have hne : (findAvailableFd s).1 ≠ -1 := by omega
    simp only [storeFirst, if_neg hne]
    refine ⟨trivial, ?_, hlog.write h0 h1 _⟩
    simp only [writeSlot, ht]

/-- `lookup_file` reads inside the table and finds the file behind the descriptor. -/
theorem lookupFile_spec {s : FdState} (h : LogIn s) (fd : ℤ) :
    ∃ s', lookupFile s fd = ((fileAt s.table fd).elim (.error EBADF) .ok, s') ∧
      s'.table = s.table ∧ LogIn s' := by
  unfold lookupFile fileAt
  by_cases hfd : fd < 0 ∨ fd ≥ TASK_FILETABLE_MAX
  · rw [if_pos hfd, if_neg (by omega)]
    exact ⟨s, rfl, rfl, h⟩
  · rw [if_neg hfd, if_pos (by omega)]
    refine ⟨(readSlot s fd).2, ?_, rfl, h.read (by omega) (by omega)⟩
    cases hf : s.table fd <;> simp [readSlot, hf]

theorem taskDump_spec {s : FdState} (h : LogIn s) :
    (taskDumpFiletable s).table = s.table ∧ LogIn (taskDumpFiletable s) := by
  have hloop : ∀ (l : List ℕ) (s : FdState), (∀ i ∈ l, i < TASK_FILETABLE_MAX) → LogIn s →
      (l.foldl (fun s i => (readSlot s i).2) s).table = s.table ∧
      LogIn (l.foldl (fun s i => (readSlot s i).2) s) := by
    intro l
    induction l with
    | nil => intro s _ hs; exact ⟨rfl, hs⟩
    | cons i l ih =>
      intro s hl hs
      have hi := hl i List.mem_cons_self
      exact ih _ (fun j hj => hl j (List.mem_cons_of_mem _ hj))
        (hs.read (by omega) (by exact_mod_cast hi))
  exact hloop _ s (fun i hi => List.mem_range.1 hi) h

/-! The calls. -/

theorem sysWrite_log {s : FdState} (h : LogIn s) (ops : FileOps) (fd : ℤ) (buf n : ℕ) :
    LogIn (sysWrite ops s fd buf n).2 := by
  obtain ⟨s', hl, -, hlog⟩ := lookupFile_spec h fd
  unfold sysWrite
  rw [hl]
  cases fileAt s.table fd <;> dsimp only [Option.elim] <;> split_ifs <;> assumption

theorem sysRead_log {s : FdState} (h : LogIn s) (ops : FileOps) (fd : ℤ) (buf n : ℕ) :
    LogIn (sysRead ops s fd buf n).2 := by
  obtain ⟨s', hl, -, hlog⟩ := lookupFile_spec h fd
  unfold sysRead
  rw [hl]
  cases fileAt s.table fd <;> dsimp only [Option.elim] <;> split_ifs <;> assumption

theorem sysSeek_log {s : FdState} (h : LogIn s) (ops : FileOps) (fd offset whence : ℤ) :
    LogIn (sysSeek ops s fd offset whence).2 := by
  obtain ⟨s', hl, -, hlog⟩ := lookupFile_spec h fd
  unfold sysSeek
  rw [hl]
  cases fileAt s.table fd <;> exact hlog

theorem fileAt_bounds {t : Filetable} {fd : ℤ} {f : File} (h : fileAt t fd = some f) :
    0 ≤ fd ∧ fd < TASK_FILETABLE_MAX := by
  unfold fileAt at h
  split_ifs at h with hfd
  exact hfd

theorem sysClose_log {s : FdState} (h : LogIn s) (fd : ℤ) : LogIn (sysClose s fd).2 := by
  obtain ⟨s', hl, -, hlog⟩ := lookupFile_spec h fd
  unfold sysClose
  rw [hl]
  cases hf : fileAt s.table fd with
  | none => exact hlog
  | some f =>
    obtain ⟨h0, h1⟩ := fileAt_bounds hf
    dsimp only [Option.elim]
    exact (taskDump_spec (hlog.write h0 h1 none)).2

theorem sysOpen_safe {s : FdState} (h : LogIn s) (ops : FileOps) (path : String) (flags : ℕ) :
    LogIn (sysOpen ops s path flags).2 ∧
    ∀ f, openNode ops path flags = .ok (some f) → freeSlots s.table = 0 →
      (sysOpen ops s path flags).1 = some (-EMFILE) ∧
      (sysOpen ops s path flags).2.table = s.table := by
  obtain ⟨ht, hlog, hr⟩ := findAvailableFd_spec h
  unfold sysOpen
  rcases openNode ops path flags with e | _ | f
  · exact ⟨h, fun f hf => by cases hf⟩
  · exact ⟨h, fun f hf => by cases hf⟩
  · dsimp only
    rcases hr with ⟨hz, hm⟩ | ⟨hpos, h0, h1, -⟩
    · rw [if_pos (by omega)]
      exact ⟨hlog, fun _ _ _ => ⟨rfl, ht⟩⟩
    · rw [if_neg (by omega)]
      exact ⟨hlog.write h0 h1 _, fun _ _ hz => absurd hz (by omega)⟩

theorem sysDup3_safe {s : FdState} (h : LogIn s) (oldfd newfd : ℤ) :
    LogIn (sysDup3 s oldfd newfd).2 ∧
    ((fileAt s.table oldfd).isSome → newfd = -1 → freeSlots s.table = 0 →
      (sysDup3 s oldfd newfd).1 = -EMFILE ∧ (sysDup3 s oldfd newfd).2.table = s.table) := by
  obtain ⟨s', hl, ht, hlog⟩ := lookupFile_spec h oldfd
  unfold sysDup3
  rw [hl]
  cases hf : fileAt s.table oldfd with
  | none => exact ⟨hlog, fun hsome => by cases hsome⟩
  | some file =>
    obtain ⟨hdt, hdlog⟩ := taskDump_spec hlog
    rw [ht] at hdt
    dsimp only [Option.elim]
    by_cases hnew : newfd = -1
    · rw [if_pos hnew]
      by_cases hz : freeSlots s.table = 0
      · obtain ⟨hn, htab, hslog⟩ := storeFirst_full hdlog (by rw [hdt]; exact hz) file
        rw [← Prod.mk.eta (p := storeFirst _ file), hn]
        exact ⟨hslog, fun _ _ _ => ⟨rfl, htab.trans hdt⟩⟩
      · obtain ⟨i, -, -, -, hi, -, hslog⟩ :=
          storeFirst_free hdlog (by rw [hdt]; exact Nat.pos_of_ne_zero hz) file
        rw [← Prod.mk.eta (p := storeFirst _ file), hi]
        exact ⟨hslog, fun _ _ h0 => absurd h0 hz⟩
    · rw [if_neg hnew]
      refine ⟨?_, fun _ h1 => absurd h1 hnew⟩
      split_ifs with hb <;> dsimp only
      · exact hdlog
      · exact hdlog.write (by omega) (by omega) _

/-- `pipe` keeps to the table, but with a single free slot its read end stays. -/
theorem sysPipe_spec {s : FdState} (h : LogIn s) (rf wf : File) :
    LogIn (sysPipe s rf wf).2 ∧
    (freeSlots s.table = 0 → (sysPipe s rf wf).1 = -EMFILE ∧ (sysPipe s rf wf).2.table = s.table) ∧
    (freeSlots s.table = 1 → (sysPipe s rf wf).2.table ≠ s.table) := by
  unfold sysPipe
  dsimp only
  by_cases hz : freeSlots s.table = 0
  · obtain ⟨-, ht, hlog⟩ := storeFirst_full h hz (createPipeFile rf)
    obtain ⟨hn, ht2, hlog2⟩ := storeFirst_full hlog (by rw [ht]; exact hz) (createPipeFile wf)
    rw [← Prod.mk.eta (p := storeFirst (storeFirst _ _).2 _), hn]
    exact ⟨hlog2, fun _ => ⟨rfl, ht2.trans ht⟩, fun h1 => absurd h1 (by omega)⟩
  · obtain ⟨i, h0, h1, hnone, -, ht, hlog⟩ :=
      storeFirst_free h (Nat.pos_of_ne_zero hz) (createPipeFile rf)
    have hcount := freeSlots_update h0 h1 hnone (createPipeFile rf)
    rw [← ht] at hcount
    by_cases hone : freeSlots s.table = 1
    · obtain ⟨hn, ht2, hlog2⟩ := storeFirst_full hlog (by omega) (createPipeFile wf)
      rw [← Prod.mk.eta (p := storeFirst (storeFirst _ _).2 _), hn]
      refine ⟨hlog2, fun h0 => absurd h0 hz, fun _ heq => ?_⟩
      have hi := congrFun (heq.symm.trans (ht2.trans ht)) i
      rw [Function.update_self, hnone] at hi
      cases hi
    · obtain ⟨j, -, -, -, hj, -, hlog2⟩ := storeFirst_free hlog (by omega) (createPipeFile wf)
      rw [← Prod.mk.eta (p := storeFirst (storeFirst _ _).2 _), hj]
      exact ⟨hlog2, fun h0 => absurd h0 hz, fun h1 => absurd h1 hone⟩

theorem writeSlot_minus_one (s : FdState) (f : Option File) : ¬ LogIn (writeSlot s (-1) f) := by
  intro h
  obtain ⟨h0, -⟩ := h (-1) List.mem_cons_self
  omega

theorem store_unchecked_iff {s : FdState} (h : LogIn s) (f : File) :
    LogIn (writeSlot (findAvailableFd s).2 (findAvailableFd s).1 (some f)) ↔
      0 < freeSlots s.table := by
  obtain ⟨-, hlog, ⟨hz, hm⟩ | ⟨hpos, h0, h1, -⟩⟩ := findAvailableFd_spec h
  · rw [hm]
    exact ⟨fun hw => absurd hw (writeSlot_minus_one _ _), fun hpos => absurd hpos (by omega)⟩
  · exact ⟨fun _ => hpos, fun _ => hlog.write h0 h1 _⟩

theorem sysSocket_iff {s : FdState} (h : LogIn s) (domain type : ℤ) :
    LogIn (sysSocket s domain type).2 ↔
      (domain = AF_LOCAL → type = SOCK_STREAM → 0 < freeSlots s.table) := by
  unfold sysSocket
  split_ifs with hd ht
  · exact ⟨fun _ hd' => absurd hd' hd, fun _ => h⟩
  · exact ⟨fun _ _ ht' => absurd ht' ht, fun _ => h⟩
  · dsimp only
    rw [store_unchecked_iff h]
    exact ⟨fun hpos _ _ => hpos, fun himp => himp (not_not.1 hd) (not_not.1 ht)⟩

theorem sysAccept_iff {s : FdState} (h : LogIn s) (fd : ℤ) (waited : Option Filetable) :
    LogIn (sysAccept s fd waited).2 ↔
      (IsSocket s.table fd → 0 < freeSlots (waited.getD s.table)) := by
  obtain ⟨s', hl, ht, hlog⟩ := lookupFile_spec h fd
  unfold sysAccept
  rw [hl]
  cases hf : fileAt s.table fd with
  | none =>
    refine ⟨fun _ hsock => ?_, fun _ => hlog⟩
    obtain ⟨file, hfile, -⟩ := hsock
    rw [hf] at hfile
    cases hfile
  | some sockfile =>
    dsimp only [Option.elim]
    by_cases hns : sockfile.type ≠ .FS_SOCKET ∨ ¬ sockfile.socket
    · rw [if_pos hns]
      refine ⟨fun _ hsock => ?_, fun _ => hlog⟩
      obtain ⟨file, hfile, htype, hs⟩ := hsock
      rw [hf] at hfile
      cases hfile
      rcases hns with hns | hns
      · exact absurd htype hns
      · exact absurd hs hns
    · rw [if_neg hns]
      rw [not_or, not_not, not_not] at hns
      have hsock : IsSocket s.table fd := ⟨sockfile, hf, hns.1, hns.2⟩
      have hlog' := hlog.withTable (waited.getD s'.table)
      obtain ⟨-, hflog, hr⟩ := findAvailableFd_spec hlog'
      have hiff := store_unchecked_iff hlog' socketFile
      rw [ht] at hflog hiff hr ⊢
      by_cases hzero : (findAvailableFd { s' with table := waited.getD s.table }).1 = 0
      · rw [if_pos hzero]
        rcases hr with ⟨-, hm⟩ | ⟨hpos, -⟩
        · omega
        · exact ⟨fun _ _ => hpos, fun _ => hflog⟩
      · rw [if_neg hzero, hiff]
        exact ⟨fun hpos _ => hpos, fun himp => himp hsock⟩

/-- `vma_map_file` makes one access or none. -/
theorem vmaMapFile_state (ops : FileOps) (s : FdState) (fd offset : ℤ) :
    (vmaMapFile ops s fd offset).2 =
      if fd > TASK_FILETABLE_MAX then s else (readSlot s fd).2 := by
  unfold vmaMapFile
  by_cases hbig : fd > TASK_FILETABLE_MAX
  · rw [if_pos hbig, if_pos hbig]
  · rw [if_neg hbig, if_neg hbig]
    dsimp only
    split
    · rfl
    · split_ifs <;> rfl

theorem vmaMapFile_iff {s : FdState} (h : LogIn s) (ops : FileOps) (fd offset : ℤ) :
    LogIn (vmaMapFile ops s fd offset).2 ↔ 0 ≤ fd ∧ fd ≠ TASK_FILETABLE_MAX := by
  rw [vmaMapFile_state]
  split_ifs with hbig
  · exact ⟨fun _ => by omega, fun _ => h⟩
  · constructor
    · intro hr
      obtain ⟨h0, h1⟩ := hr fd List.mem_cons_self
      omega
    · rintro ⟨h0, h1⟩
      exact h.read h0 (by omega)

theorem sysMmap_iff {s : FdState} (h : LogIn s) (ops : FileOps) (t : MmapTask) (p : MmapParams) :
    LogIn (sysMmap ops s t p).2 ↔ (MmapsFile t p → 0 ≤ p.fd ∧ p.fd ≠ TASK_FILETABLE_MAX) := by
  unfold sysMmap
  by_cases hfixed : p.addr = 0 ∧ p.flags &&& MAP_FIXED ≠ 0
  · rw [if_pos hfixed]
    exact ⟨fun _ hm => absurd hfixed hm.1, fun _ => h⟩
  rw [if_neg hfixed]
  rcases harea : mmapArea t (mmapAddr t p) p.length p.flags with _ | e | area
  · exact ⟨fun _ ⟨_, _, _, _, ha⟩ => (by rw [harea] at ha; cases ha), fun _ => h⟩
  · exact ⟨fun _ ⟨_, _, _, _, ha⟩ => (by rw [harea] at ha; cases ha), fun _ => h⟩
  dsimp only
  by_cases hfile : p.flags &&& MAP_ANON = 0 ∧ p.fd ≠ 0
  · rw [if_pos hfile]
    have hiff := vmaMapFile_iff h ops p.fd p.offset
    have hdone : LogIn (vmaMapFile ops s p.fd p.offset).2 ↔
        (MmapsFile t p → 0 ≤ p.fd ∧ p.fd ≠ TASK_FILETABLE_MAX) :=
      hiff.trans ⟨fun hb _ => hb, fun himp => himp ⟨hfixed, hfile.1, hfile.2, area, harea⟩⟩
    rcases hv : vmaMapFile ops s p.fd p.offset with ⟨e | u, s'⟩ <;> rw [hv] at hdone <;>
      exact hdone
  · rw [if_neg hfile]
    exact ⟨fun _ hm => absurd ⟨hm.2.1, hm.2.2.1⟩ hfile, fun _ => h⟩

/-- When a call keeps to the table. -/
def FdFits (t : Filetable) : FdCall → Prop
  | .pipe _ _ => freeSlots t ≠ 1
  | .socket domain type => domain = AF_LOCAL → type = SOCK_STREAM → 0 < freeSlots t
  | .accept fd waited => IsSocket t fd → 0 < freeSlots (waited.getD t)
  | .mmap task params => MmapsFile task params → 0 ≤ params.fd ∧ params.fd ≠ TASK_FILETABLE_MAX
  | _ => True

theorem safe_of_log {ops : FileOps} {t : Filetable} {c : FdCall} (hlog : LogIn (fdCall ops t c).2)
    (hneed : slotsNeeded ops t c = 0) : FdSafe ops t c :=
  ⟨hlog, fun hlack => absurd hlack (by rw [hneed]; exact Nat.not_lt_zero _)⟩

/-- Every call on every table: the accesses stay inside and the lack of a slot is
reported, exactly where `FdFits` says. -/
theorem fd_call_safe_iff (ops : FileOps) (t : Filetable) (c : FdCall) :
    FdSafe ops t c ↔ FdFits t c := by
  have h := logIn_nil t
  cases c with
  | openFile path flags =>
    obtain ⟨hlog, hfull⟩ := sysOpen_safe h ops path flags
    refine ⟨fun _ => trivial, fun _ => ⟨hlog, fun hlack => ?_⟩⟩
    dsimp only [searched, slotsNeeded] at hlack
    rcases hn : openNode ops path flags with e | _ | f <;> rw [hn] at hlack <;>
      dsimp only at hlack
    · omega
    · omega
    · exact hfull f hn (Nat.lt_one_iff.1 hlack)
  | close fd =>
    exact ⟨fun _ => trivial, fun _ => safe_of_log (sysClose_log h fd) rfl⟩
  | read fd buf n =>
    exact ⟨fun _ => trivial, fun _ => safe_of_log (sysRead_log h ops fd buf n) rfl⟩
  | write fd buf n =>
    exact ⟨fun _ => trivial, fun _ => safe_of_log (sysWrite_log h ops fd buf n) rfl⟩
  | seek fd offset whence =>
    exact ⟨fun _ => trivial, fun _ => safe_of_log (sysSeek_log h ops fd offset whence) rfl⟩
  | dup3 oldfd newfd =>
    obtain ⟨hlog, hfull⟩ := sysDup3_safe h oldfd newfd
    refine ⟨fun _ => trivial, fun _ => ⟨hlog, fun hlack => ?_⟩⟩
    dsimp only [searched, slotsNeeded] at hlack
    split_ifs at hlack with hcond
    · obtain ⟨hret, htab⟩ := hfull hcond.1 hcond.2 (Nat.lt_one_iff.1 hlack)
      exact ⟨congrArg some hret, htab⟩
    · omega
  | pipe rf wf =>
    obtain ⟨hlog, hnone, hone⟩ := sysPipe_spec h rf wf
    constructor
    · rintro ⟨-, hlack⟩ h1
      change freeSlots t < 2 → _ at hlack
      exact hone h1 (hlack (by omega)).2
    · intro hfits
      refine ⟨hlog, fun hlack => ?_⟩
      change freeSlots t ≠ 1 at hfits
      change freeSlots t < 2 at hlack
      obtain ⟨hret, htab⟩ := hnone (show freeSlots t = 0 by omega)
      exact ⟨congrArg some hret, htab⟩
  | socket domain type =>
    have hiff := sysSocket_iff h domain type
    refine ⟨fun hsafe => hiff.1 hsafe.1, fun hfits => ⟨hiff.2 hfits, fun hlack => ?_⟩⟩
    dsimp only [searched, slotsNeeded] at hlack
    split_ifs at hlack with hcond
    · exact absurd (hfits hcond.1 hcond.2) (by omega)
    · omega
  | accept fd waited =>
    have hiff := sysAccept_iff h fd waited
    refine ⟨fun hsafe => hiff.1 hsafe.1, fun hfits => ⟨hiff.2 hfits, fun hlack => ?_⟩⟩
    dsimp only [searched, slotsNeeded] at hlack
    split_ifs at hlack with hcond
    · exact absurd (hfits hcond) (by omega)
    · omega
  | mmap task params =>
    have hiff := sysMmap_iff h ops task params
    exact ⟨fun hsafe => hiff.1 hsafe.1, fun hfits => safe_of_log (hiff.2 hfits) rfl⟩

/-- A system with no files. -/
def noFiles : FileOps := ⟨id, fun _ => none, fun _ => none, fun _ _ _ => 0, fun _ _ _ => 0,
  fun _ _ _ => 0, fun _ => 0⟩

def fullTable : Filetable := fun _ => some socketFile

/-- On a full table `socket` stores in front of it. -/
theorem socket_full_table : ¬ FdSafe noFiles fullTable (.socket AF_LOCAL SOCK_STREAM) := by
  intro hsafe
  have hz : freeSlots fullTable = 0 := freeSlots_eq_zero.2 fun j _ _ => by simp [fullTable]
  have hpos := (sysSocket_iff (logIn_nil fullTable) AF_LOCAL SOCK_STREAM).1 hsafe.1 rfl rfl
  exact absurd hpos (by rw [hz]; exact lt_irrefl 0)

/-! The table of a forked task. -/

section Fork

variable {Node : Type}

theorem cloneSlots_apply (dst src : ℤ → Option Node) (n : ℕ) (i : ℤ) :
    cloneSlots dst src n i = if 0 ≤ i ∧ i < n ∧ (src i).isSome then src i else dst i := by
  induction n with
  | zero =>
    rw [if_neg (by omega)]
    rfl
  | succ n ih =>
    unfold cloneSlots
    dsimp only
    by_cases hi : i = n
    · subst hi
      by_cases hopen : (src n).isSome
      · rw [if_pos hopen, Function.update_self, if_pos ⟨by omega, by omega, hopen⟩]
      · rw [if_neg hopen, if_neg (fun h => hopen h.2.2), ih, if_neg (by omega)]
    · have hstep : (if (src n).isSome then Function.update (cloneSlots dst src n) n (src n)
          else cloneSlots dst src n) i = cloneSlots dst src n i := by
        split_ifs
        · exact Function.update_of_ne hi _ _
        · rfl
      rw [hstep, ih]
      refine if_congr ?_ rfl rfl
      constructor
      · rintro ⟨h0, hlt, hopen⟩
        exact ⟨h0, by omega, hopen⟩
      · rintro ⟨h0, hlt, hopen⟩
        exact ⟨h0, by omega, hopen⟩

theorem taskSetupFiletable_apply (tty : Option Node) (ft : ℤ → Option Node) {i : ℤ} (h0 : 0 ≤ i)
    (hi : i < TASK_FILETABLE_MAX) :
    taskSetupFiletable tty ft i = if i < 3 then tty else none := by
  simp only [taskSetupFiletable, Function.update_apply]
  split_ifs <;> first | rfl | omega

theorem forkFiletable_apply (vfsOpen : String → Option Node) (block parent : ℤ → Option Node)
    {i : ℤ} (h0 : 0 ≤ i) (hi : i < TASK_FILETABLE_MAX) :
    forkFiletable vfsOpen block parent i =
      if (parent i).isSome then parent i else if i < 3 then vfsOpen "/dev/tty0" else none := by
  unfold forkFiletable taskCloneFiletable
  rw [cloneSlots_apply, taskSetupFiletable_apply _ _ h0 hi]
  exact if_congr ⟨fun h => h.2.2, fun h => ⟨h0, hi, h⟩⟩ rfl rfl

/-- Fork copies the descriptor table exactly when there is no terminal to put into closed
standard slots, or none of the three is closed. -/
theorem fork_filetable_iff (vfsOpen : String → Option Node) (block parent : ℤ → Option Node) :
    (∀ i : ℤ, 0 ≤ i → i < TASK_FILETABLE_MAX → forkFiletable vfsOpen block parent i = parent i) ↔
      vfsOpen "/dev/tty0" = none ∨
        (parent 0).isSome ∧ (parent 1).isSome ∧ (parent 2).isSome := by
  constructor
  · intro h
    by_cases htty : vfsOpen "/dev/tty0" = none
    · exact Or.inl htty
    -- a closed standard slot would hold the terminal in the child
    have hstd : ∀ i : ℤ, 0 ≤ i → i < 3 → (parent i).isSome := by
      intro i h0 hi
      by_contra hclosed
      have hmax : i < TASK_FILETABLE_MAX := by
        change i < 256
        omega
      have heq := h i h0 hmax
      rw [forkFiletable_apply _ _ _ h0 hmax, if_neg hclosed, if_pos hi] at heq
      exact htty (heq.trans (Option.not_isSome_iff_eq_none.1 hclosed))
    exact Or.inr ⟨hstd 0 (by omega) (by omega), hstd 1 (by omega) (by omega),
      hstd 2 (by omega) (by omega)⟩
  · intro h i h0 hi
    rw [forkFiletable_apply _ _ _ h0 hi]
    by_cases hopen : (parent i).isSome
    · rw [if_pos hopen]
    · rw [if_neg hopen, Option.not_isSome_iff_eq_none.1 hopen]
      split_ifs with hstd
      · rcases h with htty | ⟨hp0, hp1, hp2⟩
        · exact htty
        · obtain rfl | rfl | rfl : i = 0 ∨ i = 1 ∨ i = 2 := by omega
          · exact absurd hp0 hopen
          · exact absurd hp1 hopen
          · exact absurd hp2 hopen
      · rfl

/-- A parent with standard input closed: the child gets the terminal there. -/
theorem fork_reopens_stdin : ¬ ∀ i : ℤ, 0 ≤ i → i < TASK_FILETABLE_MAX →
    forkFiletable (fun _ => some 7) (fun _ => none)
      (fun i => if i = 1 ∨ i = 2 then some 7 else none) i =
      (if i = 1 ∨ i = 2 then some 7 else none) := by
  intro h
  have h0 := h 0 (by decide) (by decide)
  rw [forkFiletable_apply _ _ _ (by decide) (by decide)] at h0
  exact absurd h0 (by decide)

end Fork

end DepthOS
