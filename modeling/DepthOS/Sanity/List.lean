import DepthOS.Spec.List

/-! The list operations on the sequence of entries a list stands for. -/

namespace DepthOS

open Lib

section Fields

variable (E : Entries) (L : DList) (p v x : ℕ)

@[simp] theorem setNext_next : (setNext E p v x).next = if x = p then v else (E x).next := by
  by_cases h : x = p <;> simp [setNext, h]

@[simp] theorem setNext_prev : (setNext E p v x).prev = (E x).prev := by
  by_cases h : x = p <;> simp [setNext, h]

@[simp] theorem setNext_value : (setNext E p v x).value = (E x).value := by
  by_cases h : x = p <;> simp [setNext, h]

@[simp] theorem setPrev_next : (setPrev E p v x).next = (E x).next := by
  by_cases h : x = p <;> simp [setPrev, h]

@[simp] theorem setPrev_prev : (setPrev E p v x).prev = if x = p then v else (E x).prev := by
  by_cases h : x = p <;> simp [setPrev, h]

@[simp] theorem setPrev_value : (setPrev E p v x).value = (E x).value := by
  by_cases h : x = p <;> simp [setPrev, h]

@[simp] theorem setValue_next : (setValue E p v x).next = (E x).next := by
  by_cases h : x = p <;> simp [setValue, h]

@[simp] theorem setValue_prev : (setValue E p v x).prev = (E x).prev := by
  by_cases h : x = p <;> simp [setValue, h]

@[simp] theorem setValue_value : (setValue E p v x).value = if x = p then v else (E x).value := by
  by_cases h : x = p <;> simp [setValue, h]

end Fields

theorem listInsert_fields (E : Entries) (L : DList) (prev next : ℕ) {entry : ℕ} (h : entry ≠ 0) :
    let r := listInsert E L prev next entry
    (∀ x, (r.1 x).value = (E x).value) ∧
    (∀ x, (r.1 x).next = if x = prev ∧ prev ≠ 0 then entry else
      if x = entry then next else (E x).next) ∧
    (∀ x, (r.1 x).prev = if x = next ∧ next ≠ 0 then entry else
      if x = entry then prev else (E x).prev) ∧
    r.2.first = (if prev = 0 then entry else L.first) ∧
    r.2.last = (if next = 0 then entry else L.last) ∧ r.2.length = L.length + 1 := by
  by_cases hn : next = 0 <;> by_cases hp : prev = 0 <;> simp [listInsert, h, hn, hp]

theorem listRemove_fields (E : Entries) (L : DList) {entry : ℕ} (h : entry ≠ 0)
    (hp : (E entry).prev ≠ entry) :
    let r := listRemove E L entry
    (∀ x, (r.1 x).value = (E x).value) ∧
    (∀ x, (r.1 x).next = if x = (E entry).prev ∧ (E entry).prev ≠ 0 then (E entry).next
      else (E x).next) ∧
    (∀ x, (r.1 x).prev = if x = (E entry).next ∧ (E entry).next ≠ 0 then (E entry).prev
      else (E x).prev) ∧
    r.2.first = (if (E entry).prev = 0 then (E entry).next else L.first) ∧
    r.2.last = (if (E entry).next = 0 then (E entry).prev else L.last) ∧
    r.2.length = L.length - 1 := by
  have hp' := hp.symm
  by_cases h1 : (E entry).prev = 0 <;> by_cases h2 : (E entry).next = 0 <;>
    simp [listRemove, h, h1, h2, hp']

/-- The list `L` holds the entries `es`, forwards and backwards. -/
structure ListRep (E : Entries) (L : DList) (es : List ℕ) : Prop where
  linked : Linked (fun x => (E x).next) (fun x => (E x).prev) 0 es 0
  nodup : es.Nodup
  first : L.first = headOr es 0
  last : L.last = lastOr 0 es

theorem listRep_init (E : Entries) : ListRep E listInit [] := ⟨trivial, List.nodup_nil, rfl, rfl⟩

theorem ListRep.chain {E : Entries} {L : DList} {es : List ℕ} (h : ListRep E L es) :
    Chain (fun x => (E x).next) L.first es := by
  rw [h.first]
  exact h.linked.chain

theorem ListRep.congr {E E' : Entries} {L : DList} {es : List ℕ} (h : ListRep E L es)
    (hn : ∀ x, (E' x).next = (E x).next) (hp : ∀ x, (E' x).prev = (E x).prev) :
    ListRep E' L es :=
  ⟨h.linked.congr (fun x _ => hn x) (fun x _ => hp x), h.nodup, h.first, h.last⟩

theorem ListRep.frame {E E' : Entries} {L : DList} {es : List ℕ} (h : ListRep E L es)
    (hE : ∀ x ∈ es, (E' x).next = (E x).next ∧ (E' x).prev = (E x).prev) : ListRep E' L es :=
  ⟨h.linked.congr (fun x hx => (hE x hx).1) (fun x hx => (hE x hx).2), h.nodup, h.first, h.last⟩

theorem lastOr_eq_zero {l : List ℕ} (h : ∀ x ∈ l, x ≠ 0) : lastOr 0 l = 0 ↔ l = [] := by
  constructor
  · intro h0
    by_contra hl
    exact h _ (lastOr_mem hl 0) h0
  · rintro rfl
    rfl

theorem headOr_eq_zero {l : List ℕ} (h : ∀ x ∈ l, x ≠ 0) : headOr l 0 = 0 ↔ l = [] := by
  constructor
  · intro h0
    by_contra hl
    exact h _ (headOr_mem hl 0) h0
  · rintro rfl
    rfl

section Splice

variable {E E' : Entries} {L L' : DList} {l k k' m : List ℕ}

/-- Both operations replace a middle part `k` by `k'`. -/
theorem ListRep.splice (h : ListRep E L (l ++ (k ++ m)))
    (hk : Linked (fun x => (E' x).next) (fun x => (E' x).prev) (lastOr 0 l) k' (headOr m 0))
    (hnd : (l ++ (k' ++ m)).Nodup)
    (hnl : ∀ x ∈ l, (E' x).next = if x = lastOr 0 l then headOr k' (headOr m 0) else (E x).next)
    (hpl : ∀ x ∈ l, (E' x).prev = (E x).prev) (hnm : ∀ x ∈ m, (E' x).next = (E x).next)
    (hpm : ∀ x ∈ m, (E' x).prev =
      if x = headOr m 0 then lastOr (lastOr 0 l) k' else (E x).prev)
    (hfirst : L'.first = if lastOr 0 l = 0 then headOr k' (headOr m 0) else L.first)
    (hlast : L'.last = if headOr m 0 = 0 then lastOr (lastOr 0 l) k' else L.last) :
    ListRep E' L' (l ++ (k' ++ m)) := by
  have hne : ∀ x ∈ l ++ (k ++ m), x ≠ 0 := fun x hx => h.linked.ne_zero hx
  have hl0 := lastOr_eq_zero (fun x hx => hne x (List.mem_append_left _ hx))
  have hm0 := headOr_eq_zero (l := m) (fun x hx => hne x (by simp [hx]))
  refine ⟨h.linked.splice h.nodup hk hnl hpl hnm hpm, hnd, ?_, ?_⟩
  · rw [hfirst, h.first]
    by_cases hl : l = []
    · simp [hl]
    · obtain ⟨y, t, rfl⟩ := List.exists_cons_of_ne_nil hl
      rw [if_neg (fun h0 => hl (hl0.1 h0))]
      rfl
  · rw [hlast, h.last]
    by_cases hm : m = []
    · simp [hm]
    · obtain ⟨y, t, rfl⟩ := List.exists_cons_of_ne_nil hm
      rw [if_neg (fun h0 => hm (hm0.1 h0))]
      simp

theorem ListRep.parts (h : ListRep E L (l ++ (k ++ m))) :
    (∀ x ∈ l, x ≠ 0) ∧ (∀ x ∈ m, x ≠ 0) ∧ (∀ x ∈ l, x ∉ m) ∧ (l ++ m).Nodup := by
  obtain ⟨hl, hkm, hdisj⟩ := List.nodup_append.1 h.nodup
  have hm := (List.nodup_append.1 hkm).2.1
  have hlm : ∀ x ∈ l, ∀ y ∈ m, x ≠ y := fun x hx y hy => hdisj x hx y (by simp [hy])
  refine ⟨fun x hx => h.linked.ne_zero (by simp [hx]), fun x hx => h.linked.ne_zero (by simp [hx]),
    fun x hx hxm => hlm x hx x hxm rfl, List.nodup_append.2 ⟨hl, hm, hlm⟩⟩

/-- A node outside `l` and `m` is neither of the two border nodes. -/
theorem border_ne {x : ℕ} (hx : x ≠ 0) :
    (x ∉ l → x ≠ lastOr 0 l) ∧ (x ∉ m → x ≠ headOr m 0) := by
  constructor
  · rintro hxl rfl
    by_cases hl : l = []
    · simp [hl] at hx
    · exact hxl (lastOr_mem hl 0)
  · rintro hxm rfl
    by_cases hm : m = []
    · simp [hm] at hx
    · exact hxm (headOr_mem hm 0)

/-- `list_insert` between `l` and `m` puts the entry there, and whatever stood
between them is no longer in the list. -/
theorem listInsert_rep (h : ListRep E L (l ++ (k ++ m))) {entry : ℕ} (h0 : entry ≠ 0)
    (hf : entry ∉ l ++ m) :
    ListRep (listInsert E L (lastOr 0 l) (headOr m 0) entry).1
      (listInsert E L (lastOr 0 l) (headOr m 0) entry).2 (l ++ ([entry] ++ m)) := by
  obtain ⟨-, hnx, hpv, hfirst, hlast, -⟩ := listInsert_fields E L (lastOr 0 l) (headOr m 0) h0
  obtain ⟨hl0, hm0, hlm, hnd⟩ := h.parts
  rw [List.mem_append, not_or] at hf
  have he := border_ne (l := l) (m := m) h0
  have hnd' : (l ++ ([entry] ++ m)).Nodup := by
    rw [List.singleton_append, List.nodup_middle, List.nodup_cons, List.mem_append, not_or]
    exact ⟨hf, hnd⟩
  refine h.splice ⟨h0, ?_, ?_, trivial⟩ hnd' ?_ ?_ ?_ ?_ hfirst hlast
  · simp [hpv, he.2 hf.2]
  · simp [hnx, he.1 hf.1]
  · intro x hx
    have hxe : x ≠ entry := fun h => hf.1 (h ▸ hx)
    rw [hnx x, headOr_cons, if_neg hxe]
    by_cases hxl : x = lastOr 0 l
    · rw [if_pos ⟨hxl, hxl ▸ hl0 x hx⟩, if_pos hxl]
    · rw [if_neg (fun h => hxl h.1), if_neg hxl]
  · intro x hx
    have hxe : x ≠ entry := fun h => hf.1 (h ▸ hx)
    rw [hpv x, if_neg hxe, if_neg (fun h => (border_ne (l := l) (hl0 x hx)).2 (hlm x hx) h.1)]
  · intro x hx
    have hxe : x ≠ entry := fun h => hf.2 (h ▸ hx)
    have hxl : x ∉ l := fun h => hlm x h hx
    rw [hnx x, if_neg hxe, if_neg (fun h => (border_ne (m := m) (hm0 x hx)).1 hxl h.1)]
  · intro x hx
    have hxe : x ≠ entry := fun h => hf.2 (h ▸ hx)
    rw [hpv x, lastOr_cons, lastOr_nil, if_neg hxe]
    by_cases hxm : x = headOr m 0
    · rw [if_pos ⟨hxm, hxm ▸ hm0 x hx⟩, if_pos hxm]
    · rw [if_neg (fun h => hxm h.1), if_neg hxm]

theorem ListRep.neighbours {entry : ℕ} (h : ListRep E L (l ++ ([entry] ++ m))) :
    entry ≠ 0 ∧ (E entry).prev = lastOr 0 l ∧ (E entry).next = headOr m 0 := by
  obtain ⟨-, hkm⟩ := linked_append.1 h.linked
  obtain ⟨h0, hp, hn, -⟩ := hkm
  exact ⟨h0, hp, hn⟩

theorem listInsertValue_other (E : Entries) (L : DList) (l m : List ℕ) (value : ℕ) {entry x : ℕ}
    (h0 : entry ≠ 0) (hx0 : x ≠ 0) (hx : x ∉ l ++ m) (hxe : x ≠ entry) :
    ((listInsertValue E L (lastOr 0 l) (headOr m 0) value entry).1 x).next = (E x).next ∧
      ((listInsertValue E L (lastOr 0 l) (headOr m 0) value entry).1 x).prev = (E x).prev := by
  rw [List.mem_append, not_or] at hx
  obtain ⟨hl, hm⟩ := border_ne (l := l) (m := m) hx0
  obtain ⟨-, hn, hp, -⟩ :=
    listInsert_fields (setValue E entry value) L (lastOr 0 l) (headOr m 0) h0
  unfold listInsertValue
  rw [hn x, hp x]
  simp [hl hx.1, hm hx.2, hxe]

theorem listPush_spec (h : ListRep E L l) (value : ℕ) {entry : ℕ} (h0 : entry ≠ 0) (hf : entry ∉ l) :
    ListRep (listPush E L value entry).1 (listPush E L value entry).2 (l ++ [entry]) ∧
    (∀ x, ((listPush E L value entry).1 x).value = if x = entry then value else (E x).value) ∧
    ∀ x, x ≠ 0 → x ∉ l → x ≠ entry →
      ((listPush E L value entry).1 x).next = (E x).next ∧
      ((listPush E L value entry).1 x).prev = (E x).prev := by
  have h' : ListRep (setValue E entry value) L (l ++ ([] ++ [])) := by
    simpa using h.congr (fun x => by simp) (fun x => by simp)
  unfold listPush
  rw [h.last]
  refine ⟨listInsert_rep h' h0 (by simpa using hf), fun x => ?_, fun x hx0 hx hxe => ?_⟩
  · obtain ⟨hval, -⟩ := listInsert_fields (setValue E entry value) L (lastOr 0 l) 0 h0
    rw [listInsertValue, hval x, setValue_value]
  · exact listInsertValue_other E L l [] value h0 hx0 (by simpa using hx) hxe

theorem listRemove_rep {entry : ℕ} (h : ListRep E L (l ++ ([entry] ++ m))) :
    ListRep (listRemove E L entry).1 (listRemove E L entry).2 (l ++ m) := by
  obtain ⟨h0, hp, hn⟩ := h.neighbours
  obtain ⟨hl0, hm0, hlm, hnd⟩ := h.parts
  have hel : entry ∉ l := fun hx =>
    (List.nodup_append.1 h.nodup).2.2 entry hx entry (by simp) rfl
  have hself : (E entry).prev ≠ entry := by
    rw [hp]
    exact ((border_ne (m := m) h0).1 hel).symm
  obtain ⟨-, hnx, hpv, hfirst, hlast, -⟩ := listRemove_fields E L h0 hself
  rw [hp, hn] at hnx hpv hfirst hlast
  refine h.splice (show Linked _ _ _ [] _ from trivial) hnd ?_ ?_ ?_ ?_ hfirst hlast
  · intro x hx
    rw [hnx x, headOr_nil]
    by_cases hxl : x = lastOr 0 l
    · rw [if_pos ⟨hxl, hxl ▸ hl0 x hx⟩, if_pos hxl]
    · rw [if_neg (fun h => hxl h.1), if_neg hxl]
  · intro x hx
    rw [hpv x, if_neg (fun h => (border_ne (l := l) (hl0 x hx)).2 (hlm x hx) h.1)]
  · intro x hx
    have hxl : x ∉ l := fun h => hlm x h hx
    rw [hnx x, if_neg (fun h => (border_ne (m := m) (hm0 x hx)).1 hxl h.1)]
  · intro x hx
    rw [hpv x, lastOr_nil]
    by_cases hxm : x = headOr m 0
    · rw [if_pos ⟨hxm, hxm ▸ hm0 x hx⟩, if_pos hxm]
    · rw [if_neg (fun h => hxm h.1), if_neg hxm]

theorem listRemove_other {entry x : ℕ} (h : ListRep E L (l ++ ([entry] ++ m))) (hx0 : x ≠ 0)
    (hx : x ∉ l ++ ([entry] ++ m)) :
    ((listRemove E L entry).1 x).next = (E x).next ∧
      ((listRemove E L entry).1 x).prev = (E x).prev := by
  obtain ⟨h0, hp, hn⟩ := h.neighbours
  have hel : entry ∉ l := fun hm =>
    (List.nodup_append.1 h.nodup).2.2 entry hm entry (by simp) rfl
  have hself : (E entry).prev ≠ entry := by
    rw [hp]
    exact ((border_ne (m := m) h0).1 hel).symm
  simp only [List.mem_append, not_or] at hx
  obtain ⟨hxl, hxm⟩ := border_ne (l := l) (m := m) hx0
  obtain ⟨-, hnx, hpv, -⟩ := listRemove_fields E L h0 hself
  rw [hnx x, hpv x, hp, hn]
  exact ⟨if_neg fun h => hxl hx.1 h.1, if_neg fun h => hxm hx.2.2 h.1⟩

end Splice

end DepthOS
