import DepthOS.Spec.Socket

/-! Who is whose peer. `connect` only queues the client, `accept` wires it to a new socket
whatever it is wired to already, so peers stay symmetric as long as no client is accepted
a second time. -/

namespace DepthOS

open Lib

/-- Connected or made by `accept`, which alone stores `SOCK_STATE_LISTENING`, in the socket
it makes; nothing goes back to `SOCK_STATE_DISCONNECTED`. -/
def Socket.Wired (sk : Socket) : Prop := sk.state ≠ SockState.DISCONNECTED

def PeersSymmetric (s : NetState) : Prop :=
  ∀ (i : ℕ) (sk : Socket) (p : ℕ), s.sockets[i]? = some sk → sk.Wired → sk.peer = some p →
    ∃ sp : Socket, s.sockets[p]? = some sp ∧ sp.peer = some i

/-- A client that is accepted is not wired yet: it has neither been accepted before nor
been made by `accept`. -/
def AcceptsNew (s : NetState) (e : NetEvent) : Prop :=
  match e with
  | .accept listener _ => ∀ (l : Socket) (client : ℕ) (c : Socket), s.sockets[listener]? = some l →
      l.connQueue.head? = some client → s.sockets[client]? = some c → ¬ c.Wired
  | _ => True

/-- The two fields of a socket that connecting it sets. -/
def NetState.wiring (s : NetState) (i : ℕ) : Option (SockState × Option ℕ) :=
  s.sockets[i]?.map fun sk => (sk.state, sk.peer)

/-- Whoever is wired has a peer, which is wired back. -/
def PeersInv (s : NetState) : Prop :=
  ∀ i st p, s.wiring i = some (st, p) → st ≠ .DISCONNECTED →
    ∃ j st', p = some j ∧ s.wiring j = some (st', some i) ∧ st' ≠ .DISCONNECTED

variable {s s' : NetState} {i : ℕ}

theorem PeersInv.symmetric (h : PeersInv s) : PeersSymmetric s := by
  intro i sk p hi hw hp
  obtain ⟨j, st', hj, hback, -⟩ := h i sk.state sk.peer (by simp [NetState.wiring, hi]) hw
  rw [hp] at hj
  cases hj
  obtain ⟨sp, hsp, hpair⟩ := Option.map_eq_some_iff.1 hback
  exact ⟨sp, hsp, congrArg Prod.snd hpair⟩

theorem PeersInv.congr (h : PeersInv s) (hsame : ∀ i, s'.wiring i = s.wiring i) : PeersInv s' := by
  intro i st p hi hst
  rw [hsame] at hi
  obtain ⟨j, st', hj, hback, hst'⟩ := h i st p hi hst
  exact ⟨j, st', hj, by rw [hsame]; exact hback, hst'⟩

theorem wiring_modify {f : Socket → Socket} {sock : ℕ}
    (hf : ∀ sk, (f sk).state = sk.state ∧ (f sk).peer = sk.peer) :
    (s.modify sock f).wiring i = s.wiring i := by
  simp only [NetState.wiring, NetState.modify, List.getElem?_modify]
  cases s.sockets[i]? with
  | none => rfl
  | some sk =>
    by_cases hi : sock = i
    · simp [hi, hf sk]
    · simp [hi]

theorem wiring_lt {x : SockState × Option ℕ} (h : s.wiring i = some x) : i < s.sockets.length := by
  obtain ⟨sk, hsk, -⟩ := Option.map_eq_some_iff.1 h
  exact (List.getElem?_eq_some_iff.1 hsk).1

theorem wiring_append (sk : Socket) (hi : i ≠ s.sockets.length) :
    ({ s with sockets := s.sockets ++ [sk] } : NetState).wiring i = s.wiring i := by
  simp only [NetState.wiring]
  rcases Nat.lt_or_gt_of_ne hi with hlt | hgt
  · rw [List.getElem?_append_left hlt]
  · rw [List.getElem?_eq_none (by rw [List.length_append, List.length_singleton]; omega),
      List.getElem?_eq_none hgt.le]

theorem wiring_append_self (sk : Socket) :
    ({ s with sockets := s.sockets ++ [sk] } : NetState).wiring s.sockets.length =
      some (sk.state, sk.peer) := by
  simp [NetState.wiring]

/-! The calls. -/

theorem createLocalSocket_some {junk sk : Socket} {type : ℤ}
    (h : createLocalSocket junk type = some sk) : sk.state = .DISCONNECTED := by
  unfold createLocalSocket at h
  split at h
  · cases h
    rfl
  · cases h

theorem socket_peersInv (h : PeersInv s) (junk : Socket) (domain type : ℤ) :
    PeersInv (netSocket s junk domain type) := by
  unfold netSocket
  split
  · exact h
  split
  · exact h
  cases hc : createLocalSocket junk type with
  | none => exact h
  | some sk =>
    intro i st p hi hst
    by_cases hnew : i = s.sockets.length
    · -- the new socket is not wired
      subst hnew
      rw [wiring_append_self, createLocalSocket_some hc] at hi
      cases hi
      exact absurd rfl hst
    · rw [wiring_append sk hnew] at hi
      obtain ⟨j, st', hj, hback, hst'⟩ := h i st p hi hst
      refine ⟨j, st', hj, ?_, hst'⟩
      rw [wiring_append sk (wiring_lt hback).ne]
      exact hback

theorem connect_wiring (sock : ℕ) (path : CString) :
    (localSocketConnect s sock path).2.wiring i = s.wiring i := by
  unfold localSocketConnect
  split
  · rfl
  · split
    · rfl
    · split
      · rfl
      · apply wiring_modify
        exact fun _ => ⟨rfl, rfl⟩

/-- What `accept` does to the wiring: the client and the new socket, and no other. -/
theorem netAccept_wiring {listener : ℕ} {junk : Socket} (h : netAccept s listener junk = some s') :
    ∃ l client c, s.sockets[listener]? = some l ∧ l.connQueue.head? = some client ∧
      s.sockets[client]? = some c ∧
      ∀ i, s'.wiring i =
        if i = s.sockets.length then some (.LISTENING, some client)
        else if i = client then some (.CONNECTED, some s.sockets.length)
        else s.wiring i := by
  unfold netAccept at h
  obtain ⟨l, hl, h⟩ := Option.bind_eq_some_iff.1 h
  obtain ⟨client, hclient, h⟩ := Option.bind_eq_some_iff.1 h
  obtain ⟨c₁, hc₁, h⟩ := Option.bind_eq_some_iff.1 h
  obtain ⟨sock, -, h⟩ := Option.bind_eq_some_iff.1 h
  obtain rfl := Option.some.inj h
  set s₁ := s.modify listener fun sk => { sk with connQueue := sk.connQueue.tail } with hs₁
  have hlen : s₁.sockets.length = s.sockets.length := by simp [hs₁, NetState.modify]
  have hwire₁ : ∀ i, s₁.wiring i = s.wiring i := by
    intro i
    apply wiring_modify
    exact fun _ => ⟨rfl, rfl⟩
  have hclt : client < s.sockets.length := hlen ▸ (List.getElem?_eq_some_iff.1 hc₁).1
  obtain ⟨c, hc⟩ : ∃ c, s.sockets[client]? = some c := ⟨_, List.getElem?_eq_getElem hclt⟩
  refine ⟨l, client, c, hl, hclient, hc, fun i => ?_⟩
  set s₂ := s₁.modify client fun sk =>
    { sk with state := .CONNECTED, peer := some s₁.sockets.length } with hs₂
  have hlen₂ : s₂.sockets.length = s.sockets.length := by
    rw [← hlen]
    simp [hs₂, NetState.modify]
  by_cases hnew : i = s.sockets.length
  · rw [if_pos hnew, hnew, ← hlen₂, wiring_append_self]
  · rw [if_neg hnew, wiring_append _ (by rw [hlen₂]; exact hnew)]
    by_cases hic : i = client
    · rw [if_pos hic, hic]
      simp [hs₂, NetState.wiring, NetState.modify, hc₁, hlen]
    · rw [if_neg hic, ← hwire₁ i]
      simp only [hs₂, NetState.wiring, NetState.modify]
      rw [List.getElem?_modify_ne _ _ (Ne.symm hic)]

theorem accept_peersInv {listener : ℕ} {junk : Socket} (h : PeersInv s)
    (hacc : netAccept s listener junk = some s') (hnew : AcceptsNew s (.accept listener junk)) :
    PeersInv s' := by
  obtain ⟨l, client, c, hl, hclient, hc, hwire⟩ := netAccept_wiring hacc
  have hfree : c.state = .DISCONNECTED := not_not.1 (hnew l client c hl hclient hc)
  have hclt : client ≠ s.sockets.length := (List.getElem?_eq_some_iff.1 hc).1.ne
  intro i st p hi hst
  rw [hwire i] at hi
  split at hi
  · rename_i hin
    cases hi
    refine ⟨client, .CONNECTED, rfl, ?_, nofun⟩
    rw [hwire, if_neg hclt, if_pos rfl, hin]
  · split at hi
    · rename_i hic
      cases hi
      refine ⟨s.sockets.length, .LISTENING, rfl, ?_, nofun⟩
      rw [hwire, if_pos rfl, hic]
    · obtain ⟨j, st', hj, hback, hst'⟩ := h i st p hi hst
      -- the client was wired to nobody, so it is not the peer of `i`
      have hjc : j ≠ client := by
        rintro rfl
        simp only [NetState.wiring, hc, Option.map_some, Option.some.injEq, Prod.mk.injEq] at hback
        exact hst' (hback.1.symm.trans hfree)
      refine ⟨j, st', hj, ?_, hst'⟩
      rw [hwire, if_neg (wiring_lt hback).ne, if_neg hjc]
      exact hback

theorem step_peersInv {e : NetEvent} (h : PeersInv s) (hstep : NetStep s e s')
    (hnew : AcceptsNew s e) : PeersInv s' := by
  cases e with
  | socket junk domain type =>
    obtain rfl := hstep
    exact socket_peersInv h junk domain type
  | bind sock path found =>
    obtain ⟨-, rfl⟩ := hstep
    refine h.congr fun i => ?_
    unfold localSocketBind
    split <;> rfl
  | listen sock backlog =>
    obtain ⟨-, rfl⟩ := hstep
    refine h.congr fun i => ?_
    apply wiring_modify
    exact fun _ => ⟨rfl, rfl⟩
  | connect sock path =>
    obtain ⟨-, rfl⟩ := hstep
    exact h.congr fun i => connect_wiring sock path
  | accept listener junk => exact accept_peersInv h hstep hnew

/-- As long as every client that is accepted is new, peers are symmetric. -/
theorem socket_peers_symmetric {evs : List NetEvent}
    (h : Run NetBoot (fun s e s' => NetStep s e s' ∧ AcceptsNew s e) evs s) : PeersSymmetric s := by
  have hinv : PeersInv s := by
    refine Run.invariant PeersInv (fun s hs => ?_) (fun s e s' hs hstep => ?_) h
    · intro i st p hi
      simp [NetState.wiring, hs.1] at hi
    · exact step_peersInv hs hstep.1 hstep.2
  exact hinv.symmetric

/-! A listener, socket 0, with room for two connections, and a client, socket 1. -/

def freshSocket : Socket where
  family := 0
  type := 0
  state := .DISCONNECTED
  connQueue := []
  backlog := 0
  messages := []
  peer := none

def socketPath : CString := ⟨[47, 115], by decide⟩

def noSockets : NetState := ⟨[], [], fun _ _ => 0⟩

def made (s : NetState) : NetState := netSocket s freshSocket AF_LOCAL SOCK_STREAM

def bound (s : NetState) : NetState := (localSocketBind s 0 socketPath false).2

def queued (s : NetState) : NetState := (localSocketConnect s 1 socketPath).2

def listening : NetState := netListen (bound (made (made noSockets))) 0 2

def acceptedState (s : NetState) : NetState := (netAccept s 0 freshSocket).getD s

theorem setup_run {P : NetState → NetEvent → Prop}
    (hP : ∀ s e, (∀ l junk, e ≠ .accept l junk) → P s e) :
    ∃ evs, Run NetBoot (fun s e s' => NetStep s e s' ∧ P s e) evs (queued listening) := by
  have hmade : ∀ s, NetStep s (.socket freshSocket AF_LOCAL SOCK_STREAM) (made s) := fun _ => rfl
  have hbound : NetStep (made (made noSockets)) (.bind 0 socketPath false)
      (bound (made (made noSockets))) := ⟨by decide, rfl⟩
  have hlisten : NetStep (bound (made (made noSockets))) (.listen 0 2) listening :=
    ⟨by decide, rfl⟩
  have hqueued : NetStep listening (.connect 1 socketPath) (queued listening) := ⟨by decide, rfl⟩
  have h0 : Run NetBoot (fun s e s' => NetStep s e s' ∧ P s e) [] noSockets := Run.nil ⟨rfl, rfl⟩
  have h1 := (h0.snoc ⟨hmade _, hP _ _ nofun⟩).snoc ⟨hmade _, hP _ _ nofun⟩
  exact ⟨_, ((h1.snoc ⟨hbound, hP _ _ nofun⟩).snoc ⟨hlisten, hP _ _ nofun⟩).snoc
    ⟨hqueued, hP _ _ nofun⟩⟩

theorem accept_queued : NetStep (queued listening) (.accept 0 freshSocket)
    (acceptedState (queued listening)) := rfl

theorem socket_peers_symmetric_accept : PeersSymmetric (acceptedState (queued listening)) := by
  have hsetup : ∀ s e, (∀ l junk, e ≠ .accept l junk) → AcceptsNew s e := by
    intro s e he
    cases e <;> first | trivial | exact absurd rfl (he _ _)
  obtain ⟨evs, hrun⟩ := setup_run hsetup
  refine socket_peers_symmetric (hrun.snoc ⟨accept_queued, ?_⟩)
  intro l client c hl hclient hc
  cases hl
  cases hclient
  cases hc
  exact not_not.2 rfl

/-- The client is accepted twice; the first of its two peers is left behind. -/
theorem socket_peers_asymmetric :
    ¬ ∀ evs s, Run NetBoot NetStep evs s → PeersSymmetric s := by
  intro h
  obtain ⟨evs, hsetup⟩ := setup_run (P := fun _ _ => True) fun _ _ _ => trivial
  have hrun : Run NetBoot NetStep evs (queued listening) := hsetup.mono fun _ _ _ hs => hs.1
  have hqueued : NetStep (queued listening) (.connect 1 socketPath) (queued (queued listening)) :=
    ⟨by decide, rfl⟩
  have haccept : NetStep (queued (queued listening)) (.accept 0 freshSocket)
      (acceptedState (queued (queued listening))) := rfl
  have hagain : NetStep (acceptedState (queued (queued listening))) (.accept 0 freshSocket)
      (acceptedState (acceptedState (queued (queued listening)))) := rfl
  obtain ⟨sp, hsp, hpeer⟩ :=
    h _ _ (((hrun.snoc hqueued).snoc haccept).snoc hagain) 2 _ 1 rfl nofun rfl
  cases hsp
  exact absurd hpeer (by decide)

end DepthOS
