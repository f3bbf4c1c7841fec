import DepthOS.Sanity.Ext2
import DepthOS.Sanity.String
import DepthOS.Spec.InitStack

/-! The stack a new program starts with: `argc`, the pointers to its arguments and NULL, then
the pointers to its environment and NULL. The arguments are pushed from the last on and stand in
their order; the environment is pushed from the first on and stands in reverse. -/

namespace DepthOS

open Lib

section Push

variable {s : PushState}

theorem push_eq (v : ℕ) (h : 4 ≤ s.esp) (h' : s.esp < 4294967296) :
    s.push v = ⟨store32 s.mem (s.esp - 4) v, s.esp - 4⟩ := by
  rw [PushState.push, sub32_small h h']

/-- The words are below the old stack pointer, the last of them first; nothing else changes. -/
structure Pushed (s s' : PushState) (ws : List ℕ) : Prop where
  esp : s'.esp + 4 * ws.length = s.esp
  words : WordsAt s'.mem s'.esp ws.reverse
  frame : ∀ x, x < s'.esp ∨ s.esp ≤ x → s'.mem x = s.mem x

theorem pushed_all {ws : List ℕ} (hfit : 4 * ws.length ≤ s.esp) (h' : s.esp < 4294967296)
    (hws : ∀ w ∈ ws, w < 4294967296) : Pushed s (ws.foldl PushState.push s) ws := by
  induction ws generalizing s with
  | nil => exact ⟨rfl, trivial, fun _ _ => rfl⟩
  | cons w ws ih =>
    rw [List.length_cons] at hfit
    have heq := push_eq w (by omega : 4 ≤ s.esp) h'
    have hesp : (s.push w).esp = s.esp - 4 := by rw [heq]
    have hrest := ih (s := s.push w) (by omega) (by omega)
      fun v hv => hws v (List.mem_cons_of_mem _ hv)
    have hlen := hrest.esp
    rw [List.foldl_cons]
    refine ⟨by rw [List.length_cons]; omega, ?_, fun x hx => ?_⟩
    · rw [List.reverse_cons, wordsAt_append, List.length_reverse]
      refine ⟨hrest.words, ?_, trivial⟩
      have hplace : (ws.foldl PushState.push (s.push w)).esp + 4 * ws.length = s.esp - 4 := by omega
      rw [hplace, load32_congr (m := (s.push w).mem) fun x h1 h2 => hrest.frame x (by omega), heq,
        load32_store32]
      exact Nat.mod_eq_of_lt (hws w List.mem_cons_self)
    · rw [hrest.frame x (by omega), heq]
      exact store32_other (by omega)

theorem pushEnvp_eq {envp fuel i : ℕ} {ps : List ℕ} (hw : WordsAt s.mem (envp + 4 * i) (ps ++ [0]))
    (h0 : ∀ p ∈ ps, p ≠ 0) (hfuel : ps.length < fuel) (hfit : 4 * ps.length ≤ s.esp)
    (h' : s.esp < 4294967296) (hout : Apart (envp + 4 * i) (4 * (ps.length + 1))
      (s.esp - 4 * ps.length) (4 * ps.length)) :
    pushEnvp envp fuel s i = some (ps.foldl PushState.push s) := by
  induction ps generalizing s i fuel with
  | nil =>
    obtain ⟨fuel, rfl⟩ := Nat.exists_eq_add_of_lt hfuel
    unfold pushEnvp
    dsimp only
    rw [hw.1, if_pos rfl]
    rfl
  | cons p ps ih =>
    obtain ⟨fuel, rfl⟩ := Nat.exists_eq_add_of_lt hfuel
    rw [List.length_cons] at hfit hout hfuel
    unfold Apart at hout
    have heq := push_eq p (by omega : 4 ≤ s.esp) h'
    have hesp : (s.push p).esp = s.esp - 4 := by rw [heq]
    have hnext : envp + 4 * i + 4 = envp + 4 * (i + 1) := by omega
    unfold pushEnvp
    dsimp only
    rw [hw.1, if_neg (h0 p List.mem_cons_self), List.foldl_cons]
    apply ih ?_ (fun q hq => h0 q (List.mem_cons_of_mem _ hq))
    · rw [List.length_cons]
      omega
    · omega
    · omega
    · unfold Apart
      omega
    · have hrest : WordsAt s.mem (envp + 4 * i + 4) (ps ++ [0]) := hw.2
      rw [heq, ← hnext]
      apply hrest.congr
      apply sameOn_store32
      rw [List.length_append, List.length_singleton]
      unfold Apart
      omega

theorem pushArgv_eq {argv : ℕ} {ps : List ℕ} (hw : WordsAt s.mem argv ps)
    (hfit : 4 * ps.length ≤ s.esp) (h' : s.esp < 4294967296)
    (hout : ps = [] ∨ Apart argv (4 * ps.length) (s.esp - 4 * ps.length) (4 * ps.length)) :
    pushArgv argv ps.length s = ps.reverse.foldl PushState.push s := by
  induction ps using List.reverseRecOn generalizing s with
  | nil => rfl
  | append_singleton ps p ih =>
    obtain ⟨hps, hp, -⟩ := wordsAt_append.1 hw
    have hout := hout.resolve_left (by simp)
    rw [List.length_append, List.length_singleton] at hfit hout ⊢
    unfold Apart at hout
    have heq := push_eq p (by omega : 4 ≤ s.esp) h'
    have hesp : (s.push p).esp = s.esp - 4 := by rw [heq]
    rw [pushArgv, hp, List.reverse_append, List.reverse_singleton, List.singleton_append,
      List.foldl_cons]
    apply ih
    · rw [heq]
      apply hps.congr
      apply sameOn_store32
      unfold Apart
      omega
    · omega
    · omega
    · unfold Apart
      omega

end Push

section Strings

theorem holdsStr_copy {m : Mem} {p q : ℕ} {t : List Byte} (h : HoldsStr m p t) :
    HoldsStr (blit m q (fun k => m (p + k)) (t.length + 1)) q t := by
  obtain ⟨htext, hk, hend⟩ := holdsStr_iff.1 h
  refine holdsStr_iff.2 ⟨htext, fun k hlt => ?_, ?_⟩
  · rw [blit_inside (by omega)]
    exact hk k hlt
  · rw [blit_inside (by omega)]
    exact hend

theorem strBytes_cons (s : List Byte) (l : List (List Byte)) :
    strBytes (s :: l) = s.length + 1 + strBytes l := by
  simp [strBytes]

theorem length_le_strBytes (l : List (List Byte)) : l.length ≤ strBytes l := by
  induction l with
  | nil => exact Nat.zero_le _
  | cons s l ih =>
    rw [strBytes_cons, List.length_cons]
    omega

/-- What a round leaves: the string below the old stack pointer, its place in the array. -/
structure StringPushed (a : ℕ) (s s' : PushState) (t : List Byte) : Prop where
  esp : s'.esp + (t.length + 1) = s.esp
  text : HoldsStr s'.mem s'.esp t
  word : load32 s'.mem a = s'.esp
  frame : ∀ x, x < s'.esp ∨ s.esp ≤ x → x < a ∨ a + 4 ≤ x → s'.mem x = s.mem x

theorem pushStrings_round {arr fuel i p : ℕ} {s : PushState} {t : List Byte}
    (hw : load32 s.mem (arr + 4 * i) = p) (h0 : p ≠ 0) (ht : HoldsStr s.mem p t)
    (hfuel : t.length < fuel) (hfit : t.length + 1 ≤ s.esp) (h' : s.esp < 4294967296)
    (hout : ∀ x, arr + 4 * i ≤ x → x < arr + 4 * i + 4 →
      x < s.esp - (t.length + 1) ∨ s.esp ≤ x) :
    ∃ s', pushStrings arr (fuel + 1) s i = pushStrings arr fuel s' (i + 1) ∧
      StringPushed (arr + 4 * i) s s' t := by
  obtain ⟨esp, hesp⟩ : ∃ esp, s.esp - (t.length + 1) = esp := ⟨_, rfl⟩
  obtain ⟨m, hm⟩ : ∃ m, blit s.mem esp (fun k => s.mem (p + k)) (t.length + 1) = m := ⟨_, rfl⟩
  have hsub : sub32 s.esp (t.length + 1) = esp := by rw [sub32_small hfit h', hesp]
  rw [hesp] at hout
  refine ⟨⟨store32 m (arr + 4 * i) esp, esp⟩, ?_, by dsimp only; omega, ?_, ?_, fun x h1 h2 => ?_⟩
  · rw [pushStrings]
    dsimp only
    rw [hw, if_neg h0, strlen_eq ht hfuel]
    dsimp only
    rw [hsub, hm]
  · have hcopy : HoldsStr m esp t := hm ▸ holdsStr_copy ht
    apply hcopy.congr
    intro k hk
    have hapart : esp + k < arr + 4 * i ∨ arr + 4 * i + 4 ≤ esp + k := by
      by_contra hin
      have := hout (esp + k) (by omega) (by omega)
      omega
    exact store32_other hapart
  · rw [load32_store32]
    exact Nat.mod_eq_of_lt (by omega)
  · dsimp only at h1 ⊢
    rw [store32_other h2, ← hm, blit_other (by omega)]

section Round

variable {Q : ℕ → Prop} {a low : ℕ} {s s₁ s' : PushState} {t : List Byte} {ps : List ℕ}
  {l : List (List Byte)}

theorem StringPushed.pointees (h : StringPushed a s s₁ t) (hps : Pointees Q s.mem ps l)
    (hQ : ∀ x, Q x → (x < s₁.esp ∨ s.esp ≤ x) ∧ (x < a ∨ a + 4 ≤ x)) :
    Pointees Q s₁.mem ps l :=
  hps.congr fun x hx => h.frame x (hQ x hx).1 (hQ x hx).2

theorem StringPushed.words (h : StringPushed a s s₁ t) (hw : WordsAt s.mem (a + 4) ps)
    (harr : ∀ x, a + 4 ≤ x → x < a + 4 + 4 * ps.length → x < s₁.esp ∨ s.esp ≤ x) :
    WordsAt s₁.mem (a + 4) ps :=
  hw.congr fun k hk => h.frame _ (harr _ (by omega) (by omega)) (by omega)

/-- Together with the strings pushed after it, which write neither to it nor to its place in
the array. -/
theorem StringPushed.cons (h : StringPushed a s s₁ t) (h0 : s₁.esp ≠ 0) (hle : s'.esp ≤ s₁.esp)
    (hp : Pointees (fun x => s'.esp ≤ x ∧ x < s₁.esp) s'.mem ps l)
    (hw : WordsAt s'.mem (a + 4) (ps ++ [0]))
    (htext : ∀ x, s₁.esp ≤ x → x < s.esp → s'.mem x = s₁.mem x)
    (hword : ∀ x, a ≤ x → x < a + 4 → s'.mem x = s₁.mem x) :
    Pointees (fun x => s'.esp ≤ x ∧ x < s.esp) s'.mem (s₁.esp :: ps) (t :: l) ∧
    WordsAt s'.mem a (s₁.esp :: ps ++ [0]) := by
  have hesp := h.esp
  have htail : Pointees (fun x => s'.esp ≤ x ∧ x < s.esp) s'.mem ps l :=
    hp.mono fun x hx => ⟨hx.1, by omega⟩
  have hstr : HoldsStr s'.mem s₁.esp t :=
    h.text.congr fun k hk => htext _ (by omega) (by omega)
  have hplace : load32 s'.mem a = s₁.esp := by rw [load32_congr hword, h.word]
  exact ⟨List.Forall₂.cons ⟨h0, hstr, fun k hk => by omega⟩ htail, hplace, hw⟩

end Round

/-- The strings stand below the old stack pointer, and the array points to them. -/
theorem pushStrings_spec {Q : ℕ → Prop} {arr fuel i : ℕ} (low : ℕ) {s : PushState} {ps : List ℕ}
    {l : List (List Byte)} (hp : Pointees Q s.mem ps l)
    (hw : WordsAt s.mem (arr + 4 * i) (ps ++ [0])) (hfuel : strBytes l < fuel) (hlow : 0 < low)
    (hfit : low + strBytes l ≤ s.esp) (h' : s.esp < 4294967296)
    (hQ : ∀ x, Q x → (x < low ∨ s.esp ≤ x) ∧ (x < arr + 4 * i ∨ arr + 4 * i + 4 * l.length ≤ x))
    (harr : ∀ x, arr + 4 * i ≤ x → x < arr + 4 * i + 4 * (l.length + 1) → x < low ∨ s.esp ≤ x) :
    ∃ s' qs, pushStrings arr fuel s i = some (s', i + l.length) ∧ s'.esp + strBytes l = s.esp ∧
      Pointees (fun x => s'.esp ≤ x ∧ x < s.esp) s'.mem qs l ∧
      WordsAt s'.mem (arr + 4 * i) (qs ++ [0]) ∧
      ∀ x, x < s'.esp ∨ s.esp ≤ x → x < arr + 4 * i ∨ arr + 4 * i + 4 * l.length ≤ x →
        s'.mem x = s.mem x := by
  induction l generalizing s i fuel ps with
  | nil =>
    obtain ⟨fuel, rfl⟩ := Nat.exists_eq_add_of_lt hfuel
    cases hp
    refine ⟨s, [], ?_, rfl, List.Forall₂.nil, hw, fun _ _ _ => rfl⟩
    unfold pushStrings
    dsimp only
    rw [hw.1, if_pos rfl]
    rfl
  | cons t l ih =>
    cases hp with
    | cons hq hqs =>
      rename_i p ps
      obtain ⟨fuel, rfl⟩ := Nat.exists_eq_add_of_lt hfuel
      obtain ⟨hp0, hstr, -⟩ := hq
      have hqs : Pointees Q s.mem ps l := hqs
      have hbytes := strBytes_cons t l
      rw [List.length_cons] at hQ harr
      obtain ⟨s₁, hround, h1⟩ := pushStrings_round hw.1 hp0 hstr
        (show t.length < strBytes (t :: l) + fuel by omega) (by omega) h'
        (fun x hx hx' => by have := harr x hx (by omega); omega)
      have hesp := h1.esp
      have hnext : arr + 4 * i + 4 = arr + 4 * (i + 1) := by omega
      have hqs' : Pointees Q s₁.mem ps l :=
        h1.pointees hqs fun x hx => by have := hQ x hx; omega
      have hw' : WordsAt s₁.mem (arr + 4 * i + 4) (ps ++ [0]) := by
        refine h1.words hw.2 fun x hx hx' => ?_
        rw [List.length_append, List.length_singleton, hqs.length] at hx'
        have := harr x (by omega) (by omega)
        omega
      rw [hnext] at hw'
      obtain ⟨s', qs, hrun, hlen, hpq, hwq, hframe⟩ := ih hqs' hw'
        (show strBytes l < strBytes (t :: l) + fuel by omega) (by omega) (by omega)
        (fun x hx => by have := hQ x hx; omega)
        (fun x hx hx' => by have := harr x (by omega) (by omega); omega)
      rw [← hnext] at hwq
      -- the array is outside of the strings
      have htext : ∀ x, s₁.esp ≤ x → x < s.esp → s'.mem x = s₁.mem x := by
        intro x hx hx'
        have hout : x < arr + 4 * i ∨ arr + 4 * i + 4 * (l.length + 1 + 1) ≤ x := by
          by_contra hin
          have := harr x (by omega) (by omega)
          omega
        exact hframe x (by omega) (by omega)
      have hword : ∀ x, arr + 4 * i ≤ x → x < arr + 4 * i + 4 → s'.mem x = s₁.mem x := by
        intro x hx hx'
        have := harr x hx (by omega)
        exact hframe x (by omega) (by omega)
      obtain ⟨hpointees, hwords⟩ := h1.cons (by omega) (by omega) hpq hwq htext hword
      refine ⟨s', s₁.esp :: qs, ?_, by omega, hpointees, hwords, fun x hx hx' => ?_⟩
      · rw [hround, hrun, List.length_cons]
        congr 2
        omega
      · rw [List.length_cons] at hx'
        rw [hframe x (by omega) (by omega)]
        exact h1.frame x (by omega) (by omega)

/-- The pointers in the array, as they are once its strings are pushed. -/
def Pointers (m : Mem) (arr : ℕ) (qs : List ℕ) : Prop :=
  if arr ≠ 0 then WordsAt m arr (qs ++ [0]) else qs = []

/-- An array that may be NULL. -/
theorem pushArray_spec {Q : ℕ → Prop} {arr fuel : ℕ} (low : ℕ) {s : PushState}
    {l : List (List Byte)} (h : ArrayOf Q s.mem arr l) (hfuel : strBytes l < fuel) (hlow : 0 < low)
    (hfit : low + strBytes l ≤ s.esp) (h' : s.esp < 4294967296)
    (hQ : ∀ x, Q x → (x < low ∨ s.esp ≤ x) ∧ ¬ InArray arr l x)
    (harr : ∀ x, InArray arr l x → x < low ∨ s.esp ≤ x) :
    ∃ s' qs, pushArray arr fuel s = some (s', l.length) ∧
      s'.esp + strBytes l = s.esp ∧ Pointees (fun x => s'.esp ≤ x ∧ x < s.esp) s'.mem qs l ∧
      Pointers s'.mem arr qs ∧
      ∀ x, x < s'.esp ∨ s.esp ≤ x → ¬ InArray arr l x → s'.mem x = s.mem x := by
  unfold ArrayOf at h
  unfold pushArray Pointers
  unfold InArray at *
  by_cases h0 : arr ≠ 0
  · rw [if_pos h0] at h ⊢
    obtain ⟨ps, hp, hw⟩ := h
    obtain ⟨s', qs, hrun, hlen, hpq, hwq, hframe⟩ := pushStrings_spec (i := 0) low hp hw hfuel hlow
      hfit h'
      (fun x hx => by have := hQ x hx; omega)
      (fun x h1 h2 => harr x ⟨h0, by omega, by omega⟩)
    rw [Nat.zero_add] at hrun
    refine ⟨s', qs, hrun, hlen, hpq, by rw [if_pos h0]; exact hwq, fun x h1 h2 => ?_⟩
    exact hframe x h1 (by omega)
  · rw [if_neg h0] at h ⊢
    subst h
    exact ⟨s, [], rfl, rfl, List.Forall₂.nil, by rw [if_neg h0], fun _ _ _ => rfl⟩

end Strings

section Vectors

variable {argv envp : ℕ} {qa qe : List ℕ} {s : PushState}

/-- The words of the vectors in the order they are pushed. -/
def vectorWords (envp : ℕ) (qa qe : List ℕ) : List ℕ :=
  [0, 0, 0] ++ (if envp ≠ 0 then qe else [0]) ++ [0] ++ qa.reverse ++ [qa.length]

theorem length_vectorWords : (vectorWords envp qa qe).length =
    3 + (if envp ≠ 0 then qe.length else 1) + 1 + qa.length + 1 := by
  unfold vectorWords
  split_ifs <;> simp only [List.length_append, List.length_cons, List.length_nil,
    List.length_reverse]

theorem Pointers.pushed (low : ℕ) {arr : ℕ} {qs ws : List ℕ} {s' : PushState}
    (h : Pointers s.mem arr qs) (hp : Pushed s s' ws) (hlow : low ≤ s'.esp)
    (hout : arr ≠ 0 → arr + 4 * (qs.length + 1) ≤ low ∨ s.esp ≤ arr) : Pointers s'.mem arr qs := by
  unfold Pointers at *
  by_cases h0 : arr ≠ 0
  · rw [if_pos h0] at h ⊢
    have := hout h0
    apply h.congr
    intro k hk
    rw [List.length_append, List.length_singleton] at hk
    exact hp.frame _ (by omega)
  · rw [if_neg h0] at h ⊢
    exact h

theorem pushEnv_eq {fuel : ℕ} (low : ℕ) (he : Pointers s.mem envp qe) (h0 : ∀ p ∈ qe, p ≠ 0)
    (hfuel : qe.length < fuel) (hfit : low + 4 * (if envp ≠ 0 then qe.length else 1) ≤ s.esp)
    (h' : s.esp < 4294967296)
    (henvp : envp ≠ 0 → envp + 4 * (qe.length + 1) ≤ low ∨ s.esp ≤ envp) :
    (if envp ≠ 0 then pushEnvp envp fuel s 0 else some (s.push 0)) =
      some ((if envp ≠ 0 then qe else [0]).foldl PushState.push s) := by
  by_cases hne : envp ≠ 0
  · unfold Pointers at he
    rw [if_pos hne] at he hfit ⊢
    rw [if_pos hne]
    have hout := henvp hne
    apply pushEnvp_eq (i := 0) he h0 hfuel (by omega) h'
    unfold Apart
    omega
  · rw [if_neg hne, if_neg hne]
    rfl

theorem pushArgs_eq (low : ℕ) (ha : Pointers s.mem argv qa) (hfit : low + 4 * qa.length ≤ s.esp)
    (h' : s.esp < 4294967296)
    (hargv : argv ≠ 0 → argv + 4 * (qa.length + 1) ≤ low ∨ s.esp ≤ argv) :
    pushArgv argv qa.length s = qa.reverse.foldl PushState.push s := by
  unfold Pointers at ha
  by_cases hne : argv ≠ 0
  · rw [if_pos hne] at ha
    have hout := hargv hne
    apply pushArgv_eq (wordsAt_append.1 ha).1 (by omega) h'
    unfold Apart
    omega
  · rw [if_neg hne] at ha
    rw [ha]
    rfl

theorem pushVectors_eq {fuel low : ℕ} (ha : Pointers s.mem argv qa) (he : Pointers s.mem envp qe)
    (h0 : ∀ p ∈ qe, p ≠ 0) (hsmall : ∀ w ∈ vectorWords envp qa qe, w < 4294967296)
    (hfuel : qe.length < fuel) (hfit : low + 4 * (vectorWords envp qa qe).length ≤ s.esp)
    (h' : s.esp < 4294967296)
    (hargv : argv ≠ 0 → argv + 4 * (qa.length + 1) ≤ low ∨ s.esp ≤ argv)
    (henvp : envp ≠ 0 → envp + 4 * (qe.length + 1) ≤ low ∨ s.esp ≤ envp) :
    pushVectors fuel argv envp qa.length s =
      some ((vectorWords envp qa qe).foldl PushState.push s) := by
  rw [length_vectorWords] at hfit
  obtain ⟨env, henv⟩ : ∃ env, (if envp ≠ 0 then qe else [0]) = env := ⟨_, rfl⟩
  have hlen : (if envp ≠ 0 then qe.length else 1) = env.length := by
    rw [← henv]
    split_ifs <;> rfl
  have hwords : vectorWords envp qa qe = [0, 0, 0] ++ env ++ [0] ++ qa.reverse ++ [qa.length] := by
    rw [← henv, vectorWords]
  rw [hwords] at hsmall ⊢
  simp only [List.forall_mem_append] at hsmall
  obtain ⟨⟨⟨⟨hsmall₁, hsmall₂⟩, hsmall₃⟩, -⟩, -⟩ := hsmall
  rw [hlen] at hfit
  -- the zeros at the end
  obtain ⟨s₁, hs₁⟩ : ∃ s₁, [0, 0, 0].foldl PushState.push s = s₁ := ⟨_, rfl⟩
  have hp₁ : Pushed s s₁ [0, 0, 0] :=
    hs₁ ▸ pushed_all (by simp only [List.length_cons, List.length_nil]; omega) h' hsmall₁
  have hesp₁ : s₁.esp + 4 * 3 = s.esp := hp₁.esp
  have hzeros : (s.push64 0).push 0 = s₁ := hs₁
  have henvs := pushEnv_eq low (he.pushed low hp₁ (by omega) henvp) h0 hfuel
    (by rw [hlen]; omega) (by omega) (fun hne => by have := henvp hne; omega)
  rw [henv] at henvs
  -- the state before the pointers to the arguments
  obtain ⟨s₂, hs₂⟩ : ∃ s₂, (env ++ [0]).foldl PushState.push s₁ = s₂ := ⟨_, rfl⟩
  have hp₂ : Pushed s₁ s₂ (env ++ [0]) := by
    rw [← hs₂]
    apply pushed_all
    · rw [List.length_append, List.length_singleton]
      omega
    · omega
    · rw [List.forall_mem_append]
      exact ⟨hsmall₂, hsmall₃⟩
  have hesp₂ := hp₂.esp
  rw [List.length_append, List.length_singleton] at hesp₂
  have ha₁ := ha.pushed low hp₁ (by omega) hargv
  have ha₂ := ha₁.pushed low hp₂ (by omega) fun hne => by have := hargv hne; omega
  have hargs := pushArgs_eq low ha₂ (by omega) (by omega)
    fun hne => by have := hargv hne; omega
  rw [List.foldl_append, List.foldl_cons, List.foldl_nil] at hs₂
  rw [pushVectors, hzeros, henvs, Option.map_some, hs₂, hargs]
  simp only [List.foldl_append, hs₁, List.foldl_cons, List.foldl_nil, hs₂]

/-- From the stack pointer on: `argc`, the arguments and NULL, the environment and NULL. -/
theorem vectorWords_reverse (qa : List ℕ) (h : envp = 0 → qe = []) :
    ∃ rest, (vectorWords envp qa qe).reverse =
      qa.length :: (qa ++ [0] ++ (qe.reverse ++ [0] ++ rest)) := by
  unfold vectorWords
  by_cases hne : envp ≠ 0
  · refine ⟨[0, 0], ?_⟩
    rw [if_pos hne]
    simp
  · refine ⟨[0, 0, 0], ?_⟩
    rw [if_neg hne, h (not_not.1 hne)]
    simp

end Vectors

section Call

variable {m m' : Mem} {regs argv envp low top fuel : ℕ} {args envs : List (List Byte)}

theorem ArrayOf.congr {Q : ℕ → Prop} {arr : ℕ} {l : List (List Byte)} (h : ArrayOf Q m arr l)
    (hQ : ∀ x, Q x → m' x = m x) (harr : ∀ x, InArray arr l x → m' x = m x) :
    ArrayOf Q m' arr l := by
  unfold ArrayOf at *
  by_cases h0 : arr ≠ 0
  · rw [if_pos h0] at h ⊢
    obtain ⟨ps, hp, hw⟩ := h
    refine ⟨ps, hp.congr hQ, hw.congr fun k hk => harr _ ⟨h0, by omega, ?_⟩⟩
    rw [List.length_append, List.length_singleton, hp.length] at hk
    omega
  · rw [if_neg h0] at h ⊢
    exact h

theorem Pointers.congr {arr : ℕ} {qs : List ℕ} {l : List (List Byte)} (h : Pointers m arr qs)
    (hlen : qs.length = l.length) (harr : ∀ x, InArray arr l x → m' x = m x) :
    Pointers m' arr qs := by
  unfold Pointers at *
  by_cases h0 : arr ≠ 0
  · rw [if_pos h0] at h ⊢
    refine h.congr fun k hk => harr _ ⟨h0, by omega, ?_⟩
    rw [List.length_append, List.length_singleton, hlen] at hk
    omega
  · rw [if_neg h0] at h ⊢
    exact h

theorem array_apart {arr : ℕ} {l : List (List Byte)}
    (h : ∀ x, InArray arr l x → x < low ∨ top ≤ x) (hlt : low < top) (h0 : arr ≠ 0) :
    arr + 4 * (l.length + 1) ≤ low ∨ top ≤ arr := by
  by_contra hno
  have := h (max arr low) ⟨h0, by omega, by omega⟩
  omega

/-- Both arrays point to the strings, which stand at the top of the stack. -/
structure StringsPushed (s : PushState) (argv envp top : ℕ) (args envs : List (List Byte))
    (qa qe : List ℕ) : Prop where
  esp : s.esp + strBytes args + strBytes envs = top
  args : Pointees (fun x => s.esp ≤ x ∧ x < top) s.mem qa args
  envs : Pointees (fun x => s.esp ≤ x ∧ x < top) s.mem qe envs
  argv : Pointers s.mem argv qa
  envp : Pointers s.mem envp qe

theorem strings_pushed (h : StackArgs m regs argv envp low top args envs)
    (hfuel : strBytes args < fuel) (hfuel' : strBytes envs < fuel) (htop : top < 4294967296) :
    ∃ s₁ s₂ qa qe, pushArray envp fuel ⟨m, top⟩ = some (s₁, envs.length) ∧
      pushArray argv fuel s₁ = some (s₂, args.length) ∧
      StringsPushed s₂ argv envp top args envs qa qe := by
  have hfits := h.fits
  unfold stackBytes at hfits
  obtain ⟨s₁, qe, hrun₁, hlen₁, hqe, hpe, hframe₁⟩ := pushArray_spec (s := ⟨m, top⟩)
    (low + strBytes args + 20) h.envStrings hfuel' (by omega)
    (by dsimp only; split_ifs at hfits <;> omega) htop
    (fun x hx => ⟨by dsimp only; omega, hx.2.2⟩)
    (fun x hx => by have := h.envArray x hx; dsimp only; omega)
  dsimp only at hlen₁ hqe hframe₁
  have hargs₁ : ArrayOf (fun x => (x < low ∨ top ≤ x) ∧ ¬ InArray argv args x ∧
      ¬ InArray envp envs x) s₁.mem argv args := by
    apply h.argStrings.congr
    · intro x hx
      exact hframe₁ x (by omega) hx.2.2
    · intro x hx
      obtain ⟨hout, hnot⟩ := h.argArray x hx
      exact hframe₁ x (by omega) hnot
  obtain ⟨s₂, qa, hrun₂, hlen₂, hqa, hpa, hframe₂⟩ := pushArray_spec (low + 20) hargs₁ hfuel
    (by omega) (by split_ifs at hfits <;> omega) (by omega)
    (fun x hx => ⟨by omega, hx.2.1⟩)
    (fun x hx => by have := (h.argArray x hx).1; omega)
  refine ⟨s₁, s₂, qa, qe, hrun₁, hrun₂, by omega, ?_, ?_, hpa, ?_⟩
  · exact hqa.mono fun x hx => ⟨hx.1, by omega⟩
  · have hkept : Pointees (fun x => s₁.esp ≤ x ∧ x < top) s₂.mem qe envs := by
      apply hqe.congr
      intro x hx
      refine hframe₂ x (Or.inr hx.1) fun hc => ?_
      have := (h.argArray x hc).1
      omega
    exact hkept.mono fun x hx => ⟨by omega, hx.2⟩
  · apply hpe.congr hqe.length
    intro x hx
    have hout := h.envArray x hx
    exact hframe₂ x (by omega) fun hc => (h.argArray x hc).2 hx

theorem vectorWords_small {qa qe : List ℕ} (hlen : qa.length < 4294967296)
    (ha : ∀ p ∈ qa, p < 4294967296) (he : ∀ p ∈ qe, p < 4294967296) :
    ∀ w ∈ vectorWords envp qa qe, w < 4294967296 := by
  intro w hw
  unfold vectorWords at hw
  simp only [List.mem_append, List.mem_cons, List.not_mem_nil, or_false, List.mem_reverse] at hw
  rcases hw with (((hw | hw) | hw) | hw) | hw
  · omega
  · split_ifs at hw
    · exact he w hw
    · rw [List.mem_singleton] at hw
      omega
  · omega
  · exact ha w hw
  · omega

theorem vectors_pushed {s : PushState} {qa qe : List ℕ}
    (h : StackArgs m regs argv envp low top args envs) (hfuel' : strBytes envs < fuel)
    (htop : top < 4294967296) (hs : StringsPushed s argv envp top args envs qa qe) :
    ∃ s', pushVectors fuel argv envp args.length s = some s' ∧
      Pushed s s' (vectorWords envp qa qe) ∧ low ≤ s'.esp := by
  have hesp := hs.esp
  have hla : qa.length = args.length := hs.args.length
  have hle : qe.length = envs.length := hs.envs.length
  have hlow : low + 4 * (vectorWords envp qa qe).length ≤ s.esp := by
    have hfits := h.fits
    unfold stackBytes at hfits
    rw [length_vectorWords, hla, hle]
    split_ifs at hfits ⊢ <;> omega
  have hlen : (vectorWords envp qa qe).length = _ := length_vectorWords
  have hsmall : ∀ w ∈ vectorWords envp qa qe, w < 4294967296 := by
    apply vectorWords_small (by omega)
    · exact fun p hp => (hs.args.lt (fun x hx => hx.2) p hp).trans htop
    · exact fun p hp => (hs.envs.lt (fun x hx => hx.2) p hp).trans htop
  have hpushed := pushed_all (s := s) (by omega) (by omega) hsmall
  have hesp' := hpushed.esp
  refine ⟨_, ?_, hpushed, by omega⟩
  rw [← hla]
  apply pushVectors_eq hs.argv hs.envp hs.envs.ne_zero hsmall ?_ hlow (by omega)
  · intro h0
    rw [hla]
    have := array_apart (fun x hx => (h.argArray x hx).1) (by omega) h0
    omega
  · intro h0
    rw [hle]
    have := array_apart h.envArray (by omega) h0
    omega
  · have := length_le_strBytes envs
    omega

/-- What a program finds on its stack. -/
theorem init_stack_spec (h : StackArgs m regs argv envp low top args envs)
    (hfuel : strBytes args < fuel) (hfuel' : strBytes envs < fuel) :
    ∃ m' esp, taskInitStack fuel m regs argv envp = some m' ∧
      load32 m' (userespAt regs) = esp ∧ low ≤ esp ∧ load32 m' esp = args.length ∧
      StrList (fun x => esp ≤ x ∧ x < top) m' (esp + 4) args ∧
      StrList (fun x => esp ≤ x ∧ x < top) m' (esp + 4 + 4 * (args.length + 1)) envs.reverse := by
  have htop : top < 4294967296 := by
    rw [← h.useresp]
    exact load32_lt _ _
  obtain ⟨s₁, s₂, qa, qe, hrun₁, hrun₂, hs⟩ := strings_pushed h hfuel hfuel' htop
  obtain ⟨s₃, hrun₃, hpushed, hlow⟩ := vectors_pushed h hfuel' htop hs
  have hesp₂ := hs.esp
  have hesp := hpushed.esp
  -- the saved registers are apart from the stack
  have hkeep : ∀ x, low ≤ x → x < top →
      store32 s₃.mem (userespAt regs) s₃.esp x = s₃.mem x := by
    intro x h1 h2
    have hregs := h.regs
    unfold Apart at hregs
    exact store32_other (by omega)
  have hstrings : ∀ x, s₂.esp ≤ x ∧ x < top →
      store32 s₃.mem (userespAt regs) s₃.esp x = s₂.mem x := by
    intro x hx
    rw [hkeep x (by omega) hx.2, hpushed.frame x (Or.inr hx.1)]
  have hwords : WordsAt (store32 s₃.mem (userespAt regs) s₃.esp) s₃.esp
      (vectorWords envp qa qe).reverse := by
    apply hpushed.words.congr
    intro k hk
    rw [List.length_reverse] at hk
    exact hkeep _ (by omega) (by omega)
  have hnone : envp = 0 → qe = [] := by
    intro h0
    have hpe := hs.envp
    unfold Pointers at hpe
    rwa [if_neg (not_not.2 h0)] at hpe
  obtain ⟨rest, hrev⟩ := vectorWords_reverse qa hnone
  rw [hrev] at hwords
  obtain ⟨hargc, hvectors⟩ := hwords
  obtain ⟨hargv, hrest⟩ := wordsAt_append.1 hvectors
  have henvp := (wordsAt_append.1 hrest).1
  rw [List.length_append, List.length_singleton, hs.args.length] at henvp
  refine ⟨store32 s₃.mem (userespAt regs) s₃.esp, s₃.esp, ?_, ?_, hlow,
    by rw [hargc, hs.args.length], ⟨qa, ?_, hargv⟩, ⟨qe.reverse, ?_, henvp⟩⟩
  · unfold taskInitStack
    simp only [h.useresp, hrun₁, hrun₂, hrun₃, Option.bind_eq_bind, Option.bind_some]
  · rw [load32_store32]
    exact Nat.mod_eq_of_lt (by omega)
  · have hnew := hs.args.congr hstrings
    exact hnew.mono fun x hx => ⟨by omega, hx.2⟩
  · have hnew := hs.envs.congr hstrings
    exact (hnew.mono fun x hx => ⟨by omega, hx.2⟩).reverse

/-- The arguments, in their order. -/
theorem init_stack_argv (h : StackArgs m regs argv envp low top args envs)
    (hfuel : strBytes args < fuel) (hfuel' : strBytes envs < fuel) :
    ∃ m' esp, taskInitStack fuel m regs argv envp = some m' ∧
      load32 m' (userespAt regs) = esp ∧ load32 m' esp = args.length ∧
      StrList (fun x => esp ≤ x ∧ x < top) m' (esp + 4) args := by
  obtain ⟨m', esp, hrun, hesp, -, hargc, hargs, -⟩ := init_stack_spec h hfuel hfuel'
  exact ⟨m', esp, hrun, hesp, hargc, hargs⟩

/-- The environment is in its order if and only if that is the reverse order as well. -/
theorem init_stack_envp_iff (h : StackArgs m regs argv envp low top args envs)
    (hfuel : strBytes args < fuel) (hfuel' : strBytes envs < fuel) :
    ∃ m' esp, taskInitStack fuel m regs argv envp = some m' ∧
      load32 m' (userespAt regs) = esp ∧
      (StrList (fun x => esp ≤ x ∧ x < top) m' (esp + 4 + 4 * (args.length + 1)) envs ↔
        envs.reverse = envs) := by
  obtain ⟨m', esp, hrun, hesp, -, -, -, henvs⟩ := init_stack_spec h hfuel hfuel'
  refine ⟨m', esp, hrun, hesp, fun hlist => henvs.unique hlist, fun heq => ?_⟩
  rwa [heq] at henvs

end Call

section Kstack

variable {m : Mem} {kernelEsp selcode seldata selgs selfs entry esp : ℕ}

/-- `task_init_kstack` leaves the stack pointer it is given in the saved registers. -/
theorem taskInitKstack_useresp (h : 80 ≤ kernelEsp) (h' : kernelEsp < 4294967296)
    (hw : ∀ w ∈ [seldata, esp, selcode, entry, selgs, selfs], w < 4294967296) :
    (taskInitKstack m kernelEsp selcode seldata selgs selfs entry esp).esp + 80 = kernelEsp ∧
    load32 (taskInitKstack m kernelEsp selcode seldata selgs selfs entry esp).mem
      (userespAt (taskInitKstack m kernelEsp selcode seldata selgs selfs entry esp).esp) = esp ∧
    ∀ x, x < (taskInitKstack m kernelEsp selcode seldata selgs selfs entry esp).esp →
      (taskInitKstack m kernelEsp selcode seldata selgs selfs entry esp).mem x = m x := by
  simp only [List.forall_mem_cons, List.not_mem_nil, false_implies, implies_true, and_true] at hw
  obtain ⟨h1, h2, h3, h4, h5, h6⟩ := hw
  unfold taskInitKstack
  dsimp only
  obtain ⟨s₁, hs₁⟩ : ∃ s₁, [seldata, esp, 0x202, selcode, entry, 0, 0, 0].foldl PushState.push
    ⟨m, kernelEsp⟩ = s₁ := ⟨_, rfl⟩
  have hp₁ : Pushed ⟨m, kernelEsp⟩ s₁ [seldata, esp, 0x202, selcode, entry, 0, 0, 0] :=
    hs₁ ▸ pushed_all (by simp only [List.length_cons, List.length_nil]; omega) h'
      (by simp [h1, h2, h3, h4])
  have hesp₁ : s₁.esp + 32 = kernelEsp := hp₁.esp
  rw [hs₁]
  obtain ⟨s₂, hs₂⟩ : ∃ s₂, [0, 0, 0, 0, s₁.esp, 0, 0, 0, seldata, seldata, selgs, selfs].foldl
    PushState.push s₁ = s₂ := ⟨_, rfl⟩
  have hp₂ : Pushed s₁ s₂ [0, 0, 0, 0, s₁.esp, 0, 0, 0, seldata, seldata, selgs, selfs] :=
    hs₂ ▸ pushed_all (by simp only [List.length_cons, List.length_nil]; omega) (by omega) (by
      simp only [List.forall_mem_cons, List.not_mem_nil, false_implies, implies_true, and_true]
      omega)
  have hesp₂ : s₂.esp + 48 = s₁.esp := hp₂.esp
  rw [hs₂]
  refine ⟨by omega, ?_, fun x hx => ?_⟩
  · have hword : load32 s₁.mem (s₁.esp + 24) = esp :=
      (wordsAt_append.1 (show WordsAt s₁.mem s₁.esp
        ([0, 0, 0, entry, selcode, 0x202] ++ [esp, seldata]) from hp₁.words)).2.1
    have hplace : userespAt s₂.esp = s₁.esp + 24 := by
      unfold userespAt
      omega
    rw [hplace, ← hword]
    exact load32_congr fun x h1 h2 => hp₂.frame x (by omega)
  · rw [hp₂.frame x (Or.inl hx), hp₁.frame x (Or.inl (by omega))]

end Kstack

/-- The strings "a", "b" and "c", an array of the first and one of "c", "b", "c". -/
def stringMem : Mem :=
  storeWords (storeWords (blit (blit (blit (fun _ => 0) 0xC0200100 (ofBytes [97]) 1)
    0xC0200110 (ofBytes [98]) 1) 0xC0200120 (ofBytes [99]) 1) 0xC0200000 [0xC0200100, 0])
    0xC020003C [0xC0200120, 0xC0200110, 0xC0200120, 0]

/-- With the registers of a program whose stack ends at the kernel. -/
def newProgram : PushState :=
  taskInitKstack stringMem 0xC0301000 0x1B 0x23 0x33 0x3B 0x400000 VIRT_BASE

theorem newProgram_esp : newProgram.esp = 0xC0300FB0 := by
  have h : newProgram.esp + 80 = 0xC0301000 :=
    (taskInitKstack_useresp (by decide) (by decide) (by decide)).1
  omega

theorem newProgram_mem {x : ℕ} (h : x < 0xC0300FB0) : newProgram.mem x = stringMem x := by
  rw [← newProgram_esp] at h
  exact (taskInitKstack_useresp (by decide) (by decide) (by decide)).2.2 x h

theorem newProgram_useresp : load32 newProgram.mem (userespAt newProgram.esp) = VIRT_BASE :=
  (taskInitKstack_useresp (by decide) (by decide) (by decide)).2.1

theorem stringMem_byte {Q : ℕ → Prop} (p : ℕ) (b : Byte) (hb : b ≠ 0) (h1 : stringMem p = b)
    (h2 : stringMem (p + 1) = 0) (hp : 0 < p) (hp' : p + 1 < 0xC0300FB0) (hQ : Q p ∧ Q (p + 1)) :
    p ≠ 0 ∧ HoldsStr newProgram.mem p [b] ∧ ∀ k ≤ [b].length, Q (p + k) := by
  refine ⟨by omega, ⟨?_, hb, ?_⟩, fun k hk => ?_⟩
  · rw [newProgram_mem (by omega), h1]
  · change newProgram.mem (p + 1) = 0
    rw [newProgram_mem hp', h2]
  · rw [List.length_singleton] at hk
    rcases Nat.le_one_iff_eq_zero_or_eq_one.1 hk with rfl | rfl
    · exact hQ.1
    · exact hQ.2

theorem stringMem_words {a : ℕ} {ws : List ℕ} (h : WordsAt stringMem a ws)
    (ha : a + 4 * ws.length ≤ 0xC0300FB0) : WordsAt newProgram.mem a ws :=
  h.congr fun k hk => newProgram_mem (by omega)

/-- A program with one argument and the environment at 0xC020003C or a part of it. -/
theorem newProgram_args {envp : ℕ} {envs : List (List Byte)} (h1 : 0xC020003C ≤ envp)
    (h2 : envp + 4 * (envs.length + 1) = 0xC020004C) (hlen : strBytes envs ≤ 6)
    (henv : ∀ Q : ℕ → Prop, (∀ x, 0xC0200100 ≤ x → Q x) → StrList Q newProgram.mem envp envs) :
    StackArgs newProgram.mem newProgram.esp 0xC0200000 envp (VIRT_BASE - 100 * PAGE_SIZE) VIRT_BASE
      [[97]] envs := by
  have harg : strBytes [[97]] = 2 := rfl
  have hin : ∀ {x}, InArray 0xC0200000 [[(97 : Byte)]] x ↔ 0xC0200000 ≤ x ∧ x < 0xC0200008 := by
    intro x
    simp [InArray]
  have hine : ∀ {x}, InArray envp envs x ↔ envp ≤ x ∧ x < 0xC020004C := by
    intro x
    unfold InArray
    rw [h2]
    exact and_iff_right (by omega)
  refine ⟨newProgram_useresp, ?_, ?_, ?_, fun x hx => ?_, fun x hx => ?_, ?_⟩
  · unfold stackBytes
    rw [harg, if_pos (by omega)]
    simp only [VIRT_BASE, PAGE_SIZE, List.length_singleton]
    omega
  · unfold ArrayOf
    rw [if_pos (by decide)]
    have ha := stringMem_byte (Q := fun x => (x < VIRT_BASE - 100 * PAGE_SIZE ∨ VIRT_BASE ≤ x) ∧
      ¬ InArray 0xC0200000 [[97]] x ∧ ¬ InArray envp envs x) 0xC0200100 97 (by decide) (by decide)
      (by decide) (by decide) (by decide) (by simp only [hin, hine, VIRT_BASE]; omega)
    exact ⟨[0xC0200100], List.Forall₂.cons ha List.Forall₂.nil,
      stringMem_words ⟨by decide, by decide, trivial⟩ (by decide)⟩
  · unfold ArrayOf
    rw [if_pos (by omega)]
    apply henv
    intro x hx
    simp only [hin, hine, VIRT_BASE]
    omega
  · rw [hin] at hx
    simp only [hine, VIRT_BASE]
    omega
  · rw [hine] at hx
    simp only [VIRT_BASE]
    omega
  · rw [newProgram_esp]
    exact Or.inr (by decide)

theorem newProgram_two : StackArgs newProgram.mem newProgram.esp 0xC0200000 0xC0200040
    (VIRT_BASE - 100 * PAGE_SIZE) VIRT_BASE [[97]] [[98], [99]] := by
  apply newProgram_args (by decide) (by decide) (by decide)
  intro Q hQ
  have hb := stringMem_byte (Q := Q) 0xC0200110 98 (by decide) (by decide) (by decide) (by decide)
    (by decide) ⟨hQ _ (by decide), hQ _ (by decide)⟩
  have hc := stringMem_byte (Q := Q) 0xC0200120 99 (by decide) (by decide) (by decide) (by decide)
    (by decide) ⟨hQ _ (by decide), hQ _ (by decide)⟩
  exact ⟨[0xC0200110, 0xC0200120], List.Forall₂.cons hb (List.Forall₂.cons hc List.Forall₂.nil),
    stringMem_words ⟨by decide, by decide, by decide, trivial⟩ (by decide)⟩

theorem newProgram_three : StackArgs newProgram.mem newProgram.esp 0xC0200000 0xC020003C
    (VIRT_BASE - 100 * PAGE_SIZE) VIRT_BASE [[97]] [[99], [98], [99]] := by
  apply newProgram_args (by decide) (by decide) (by decide)
  intro Q hQ
  have hb := stringMem_byte (Q := Q) 0xC0200110 98 (by decide) (by decide) (by decide) (by decide)
    (by decide) ⟨hQ _ (by decide), hQ _ (by decide)⟩
  have hc := stringMem_byte (Q := Q) 0xC0200120 99 (by decide) (by decide) (by decide) (by decide)
    (by decide) ⟨hQ _ (by decide), hQ _ (by decide)⟩
  exact ⟨[0xC0200120, 0xC0200110, 0xC0200120],
    List.Forall₂.cons hc (List.Forall₂.cons hb (List.Forall₂.cons hc List.Forall₂.nil)),
    stringMem_words ⟨by decide, by decide, by decide, by decide, trivial⟩ (by decide)⟩

theorem init_stack_argv_new : ∃ m' esp, taskInitStack 5 newProgram.mem newProgram.esp 0xC0200000
    0xC0200040 = some m' ∧ load32 m' (userespAt newProgram.esp) = esp ∧ load32 m' esp = 1 ∧
    StrList (fun x => esp ≤ x ∧ x < VIRT_BASE) m' (esp + 4) [[97]] :=
  init_stack_argv newProgram_two (by decide) (by decide)

theorem init_stack_envp_new : ∃ m' esp, taskInitStack 7 newProgram.mem newProgram.esp 0xC0200000
    0xC020003C = some m' ∧ load32 m' (userespAt newProgram.esp) = esp ∧
    StrList (fun x => esp ≤ x ∧ x < VIRT_BASE) m' (esp + 4 + 4 * 2) [[99], [98], [99]] := by
  obtain ⟨m', esp, hrun, hesp, hiff⟩ :=
    init_stack_envp_iff newProgram_three (show strBytes [[97]] < 7 by decide) (by decide)
  exact ⟨m', esp, hrun, hesp, hiff.2 rfl⟩

/-- Two variables stand the other way round. -/
theorem init_stack_envp_reversed : ∃ m' esp, taskInitStack 5 newProgram.mem newProgram.esp
    0xC0200000 0xC0200040 = some m' ∧ load32 m' (userespAt newProgram.esp) = esp ∧
    StrList (fun x => esp ≤ x ∧ x < VIRT_BASE) m' (esp + 4 + 4 * 2) [[99], [98]] ∧
    ∀ Q, ¬ StrList Q m' (esp + 4 + 4 * 2) [[98], [99]] := by
  obtain ⟨m', esp, hrun, hesp, -, -, -, henvs⟩ :=
    init_stack_spec newProgram_two (show strBytes [[97]] < 5 by decide) (by decide)
  refine ⟨m', esp, hrun, hesp, henvs, fun Q hlist => ?_⟩
  exact absurd (henvs.unique hlist) (by decide)

end DepthOS
