import DepthOS.Lib.Run
import DepthOS.Spec.Socket

/-! What two connected sockets deliver. The queue keeps messages and what is left of them in
order, but a message is a pointer to the sender's buffer, so what arrives is what stands
there, in the receiver's address space, when it is received. -/

namespace DepthOS

open Lib

/-- A receive finds the bytes it takes from its message as they were sent, and its buffer
does not begin within them. -/
def ReceivesIntact (s : Exchange) (e : ExchangeEvent) : Prop :=
  match e with
  | .recv sock space buf size => ∀ (sk : Socket) (msg : NetMessage) (queue : List NetMessage),
      s.net.sockets[sock]? = some sk → sk.messages = msg :: queue →
      bytesAt (view (s.net.mem space) msg.data) 0 (min size msg.size) =
        msg.content.take (min size msg.size) ∧
      ∀ i k, i < k → k < min size msg.size → u32 (buf + i) ≠ u32 (msg.data + k)
  | _ => True

/-- What socket `x` has received and what is on its queue is what its peer `y` has sent. -/
def Flows (s : Exchange) (x y : ℕ) : Prop :=
  ∃ sk : Socket, s.net.sockets[x]? = some sk ∧ sk.peer = some y ∧
    (∀ m ∈ sk.messages, m.content.length = m.size) ∧
    s.received x ++ sk.messages.flatMap (·.content) = s.sent y

variable {s s' : Exchange} {a b x y : ℕ} {m : Mem}

/-! Copying. -/

theorem memcpy_other {dst src n c : ℕ} (h : ∀ k < n, u32 (dst + k) ≠ c) :
    memcpy m dst src n c = m c := by
  induction n with
  | zero => rfl
  | succ n ih =>
    unfold memcpy
    rw [Function.update_of_ne (Ne.symm (h n (Nat.lt_succ_self n))), ih fun k hk => h k (by omega)]

theorem memcpy_byte {dst src n : ℕ} (hn : n < 4294967296)
    (h : ∀ i k, i < k → k < n → u32 (dst + i) ≠ u32 (src + k)) {k : ℕ} (hk : k < n) :
    memcpy m dst src n (u32 (dst + k)) = m (u32 (src + k)) := by
  induction n with
  | zero => omega
  | succ n ih =>
    unfold memcpy
    by_cases hkn : k = n
    · rw [hkn, Function.update_self]
      exact memcpy_other fun i hi => h i n hi (Nat.lt_succ_self n)
    · have hne : u32 (dst + k) ≠ u32 (dst + n) := by
        unfold u32
        omega
      rw [Function.update_of_ne hne]
      exact ih (by omega) (fun i j hij hj => h i j hij (by omega)) (by omega)

theorem memcpy_bytes {dst src n : ℕ} (hn : n < 4294967296)
    (h : ∀ i k, i < k → k < n → u32 (dst + i) ≠ u32 (src + k)) :
    bytesAt (view (memcpy m dst src n) dst) 0 n = bytesAt (view m src) 0 n := by
  unfold bytesAt
  refine List.map_congr_left fun k hk => ?_
  simp only [view, Nat.zero_add]
  exact memcpy_byte hn h (List.mem_range.1 hk)

/-! One step keeps the flow in each direction. -/

theorem Flows.write (h : Flows s x y) (mem : ℕ → Mem) :
    Flows { s with net := { s.net with mem := mem } } x y := h

theorem modify_self {net : NetState} {sk : Socket} (h : net.sockets[x]? = some sk)
    (f : Socket → Socket) : (net.modify x f).sockets[x]? = some (f sk) := by
  simp [NetState.modify, h]

theorem modify_of_ne {net : NetState} {i : ℕ} (h : i ≠ x) (f : Socket → Socket) :
    (net.modify x f).sockets[i]? = net.sockets[i]? := by
  simp only [NetState.modify]
  rw [List.getElem?_modify_ne _ _ (Ne.symm h)]

theorem Flows.send (h : Flows s x y) {sock p : ℕ} {msg : NetMessage}
    (hpeer : (sock = y ∧ p = x) ∨ (sock ≠ y ∧ p ≠ x)) (hmsg : msg.content.length = msg.size) :
    Flows ⟨s.net.modify p fun sk => { sk with messages := sk.messages ++ [msg] },
      Function.update s.sent sock (s.sent sock ++ msg.content), s.received⟩ x y := by
  obtain ⟨sx, hx, hpx, hsize, hflow⟩ := h
  rcases hpeer with ⟨rfl, rfl⟩ | ⟨hy, hx'⟩
  · refine ⟨{ sx with messages := sx.messages ++ [msg] }, modify_self hx _, hpx, ?_, ?_⟩
    · intro m hm
      rcases List.mem_append.1 hm with hm | hm
      · exact hsize m hm
      · rw [List.mem_singleton.1 hm]
        exact hmsg
    · dsimp only
      rw [Function.update_self, ← hflow]
      simp
  · refine ⟨sx, (modify_of_ne (Ne.symm hx') _).trans hx, hpx, hsize, ?_⟩
    dsimp only
    rw [Function.update_of_ne (Ne.symm hy)]
    exact hflow

theorem Flows.recv (h : Flows s x y) {sk : Socket} {msg : NetMessage} {queue : List NetMessage}
    (hsk : s.net.sockets[x]? = some sk) (hq : sk.messages = msg :: queue) (size : ℕ)
    (mem : ℕ → Mem) :
    Flows ⟨{ s.net.modify x fun sk => { sk with
        messages := if size < msg.size then msg.rest size :: queue else queue } with mem := mem },
      s.sent, Function.update s.received x
        (s.received x ++ msg.content.take (min size msg.size))⟩ x y := by
  obtain ⟨sx, hx, hpx, hsize, hflow⟩ := h
  obtain rfl : sk = sx := Option.some.inj (hsk.symm.trans hx)
  rw [hq] at hsize hflow
  have hlen : msg.content.length = msg.size := hsize msg List.mem_cons_self
  refine ⟨_, modify_self hx _, hpx, ?_, ?_⟩
  · intro m hm
    dsimp only at hm
    split at hm
    · rcases List.mem_cons.1 hm with rfl | hm
      · simp [NetMessage.rest, hlen]
      · exact hsize m (List.mem_cons_of_mem _ hm)
    · exact hsize m (List.mem_cons_of_mem _ hm)
  · dsimp only
    rw [Function.update_self, ← hflow]
    split
    · rename_i hlt
      rw [Nat.min_eq_left hlt.le, List.flatMap_cons, List.flatMap_cons, List.append_assoc]
      simp only [NetMessage.rest]
      rw [← List.append_assoc (List.take _ _), List.take_append_drop]
    · rename_i hge
      rw [Nat.min_eq_right (Nat.le_of_not_lt hge), ← hlen, List.take_length, List.flatMap_cons,
        List.append_assoc]

theorem Flows.recv_other (h : Flows s x y) {sock : ℕ} (hne : sock ≠ x) (f : Socket → Socket)
    (mem : ℕ → Mem) (bytes : List Byte) :
    Flows ⟨{ s.net.modify sock f with mem := mem }, s.sent,
      Function.update s.received sock bytes⟩ x y := by
  obtain ⟨sx, hx, hpx, hsize, hflow⟩ := h
  refine ⟨sx, (modify_of_ne (Ne.symm hne) f).trans hx, hpx, hsize, ?_⟩
  dsimp only
  rw [Function.update_of_ne (Ne.symm hne)]
  exact hflow

theorem localSocketSend_some {net net' : NetState} {sock space buf size : ℕ}
    (h : localSocketSend net sock space buf size = some net') :
    ∃ (sk : Socket) (p : ℕ), net.sockets[sock]? = some sk ∧ sk.peer = some p ∧
      net' = net.modify p fun sk => { sk with
        messages := sk.messages ++ [⟨buf, size, bytesAt (view (net.mem space) buf) 0 size⟩] } := by
  unfold localSocketSend at h
  obtain ⟨sk, hsk, h⟩ := Option.bind_eq_some_iff.1 h
  obtain ⟨p, hp, h⟩ := Option.bind_eq_some_iff.1 h
  exact ⟨sk, p, hsk, hp, (Option.some.inj h).symm⟩

theorem localSocketRecv_some {net net' : NetState} {sock space buf size : ℕ} {bytes : List Byte}
    (h : localSocketRecv net sock space buf size = some (bytes, net')) :
    ∃ (sk : Socket) (msg : NetMessage) (queue : List NetMessage) (mem : ℕ → Mem),
      net.sockets[sock]? = some sk ∧ sk.messages = msg :: queue ∧
      bytes = bytesAt (view (memcpy (net.mem space) buf msg.data (min size msg.size)) buf) 0
        (min size msg.size) ∧
      net' = { net.modify sock fun sk => { sk with
        messages := if size < msg.size then msg.rest size :: queue else queue } with mem := mem } := by
  unfold localSocketRecv at h
  obtain ⟨sk, hsk, h⟩ := Option.bind_eq_some_iff.1 h
  cases hq : sk.messages with
  | nil => simp [hq] at h
  | cons msg queue =>
    rw [hq] at h
    obtain ⟨rfl, rfl⟩ := Prod.mk.inj (Option.some.inj h)
    exact ⟨sk, msg, queue, _, hsk, hq, rfl, rfl⟩

/-- Both directions at once. -/
def Exchanges (a b : ℕ) (s : Exchange) : Prop := Flows s a b ∧ Flows s b a

theorem Exchanges.peer (h : Exchanges a b s) {sock : ℕ} {sk : Socket} {p : ℕ}
    (hsock : sock = a ∨ sock = b) (hsk : s.net.sockets[sock]? = some sk) (hp : sk.peer = some p) :
    (sock = a ∧ p = b) ∨ (sock = b ∧ p = a) := by
  obtain ⟨⟨sa, ha, hpa, -⟩, sb, hb, hpb, -⟩ := h
  rcases hsock with rfl | rfl
  · obtain rfl : sk = sa := Option.some.inj (hsk.symm.trans ha)
    exact Or.inl ⟨rfl, Option.some.inj (hp.symm.trans hpa)⟩
  · obtain rfl : sk = sb := Option.some.inj (hsk.symm.trans hb)
    exact Or.inr ⟨rfl, Option.some.inj (hp.symm.trans hpb)⟩

theorem Connected.exchanges (h : Connected a b s) : Exchanges a b s := by
  obtain ⟨sa, sb, ha, hb, hpa, hpb, hma, hmb, hsent, hreceived⟩ := h
  constructor
  · refine ⟨sa, ha, hpa, ?_, ?_⟩
    · rw [hma]
      exact fun m hm => absurd hm List.not_mem_nil
    · rw [hma, hsent, hreceived]
      rfl
  · refine ⟨sb, hb, hpb, ?_, ?_⟩
    · rw [hmb]
      exact fun m hm => absurd hm List.not_mem_nil
    · rw [hmb, hsent, hreceived]
      rfl

theorem step_exchanges {e : ExchangeEvent} (h : Exchanges a b s) (hstep : ExchangeStep a b s e s')
    (hintact : ReceivesIntact s e) : Exchanges a b s' := by
  cases e with
  | write space addr byte =>
    obtain rfl := hstep
    exact ⟨h.1.write _, h.2.write _⟩
  | send sock space buf size =>
    obtain ⟨hsock, hsize, net, hsend, rfl⟩ := hstep
    obtain ⟨sk, p, hsk, hp, rfl⟩ := localSocketSend_some hsend
    have hlen := bytesAt_length (view (s.net.mem space) buf) 0 size
    have hpeer := h.peer hsock hsk hp
    have hdir : ∀ x y, (x = a ∧ y = b) ∨ (x = b ∧ y = a) →
        (sock = y ∧ p = x) ∨ (sock ≠ y ∧ p ≠ x) := by
      intro x y hxy
      omega
    exact ⟨h.1.send (hdir a b (Or.inl ⟨rfl, rfl⟩)) hlen,
      h.2.send (hdir b a (Or.inr ⟨rfl, rfl⟩)) hlen⟩
  | recv sock space buf size =>
    obtain ⟨hsock, hsize, bytes, net, hrecv, rfl⟩ := hstep
    obtain ⟨sk, msg, queue, mem, hsk, hq, rfl, rfl⟩ := localSocketRecv_some hrecv
    obtain ⟨hsame, hapart⟩ := hintact sk msg queue hsk hq
    -- what the copy leaves in the buffer is what was sent
    rw [memcpy_bytes (by omega) hapart, hsame]
    have hdir : ∀ x y, Flows s x y → Flows
        ⟨{ s.net.modify sock fun sk => { sk with
            messages := if size < msg.size then msg.rest size :: queue else queue } with mem := mem },
          s.sent, Function.update s.received sock
            (s.received sock ++ msg.content.take (min size msg.size))⟩ x y := by
      intro x y hflow
      by_cases hx : sock = x
      · subst hx
        exact hflow.recv hsk hq size mem
      · exact hflow.recv_other hx _ mem _
    exact ⟨hdir a b h.1, hdir b a h.2⟩

/-- As long as every receive finds its message intact, each side receives a prefix of what
the other one has sent. -/
theorem sockets_deliver {evs : List ExchangeEvent}
    (h : Run (Connected a b) (fun s e s' => ExchangeStep a b s e s' ∧ ReceivesIntact s e) evs s) :
    s.received a <+: s.sent b ∧ s.received b <+: s.sent a := by
  have hinv : Exchanges a b s := by
    refine Run.invariant (Exchanges a b) (fun s => Connected.exchanges) (fun s e s' hs hstep => ?_) h
    exact step_exchanges hs hstep.1 hstep.2
  obtain ⟨⟨sa, -, -, -, hab⟩, sb, -, -, -, hba⟩ := hinv
  exact ⟨⟨_, hab⟩, ⟨_, hba⟩⟩

/-! Two sockets in one address space; socket 0 sends the byte at 100. -/

def pairSocket (peer : ℕ) : Socket where
  family := AF_LOCAL
  type := SOCK_STREAM
  state := .CONNECTED
  connQueue := []
  backlog := 0
  messages := []
  peer := some peer

def pairStart : Exchange :=
  ⟨⟨[pairSocket 1, pairSocket 0], [], fun _ _ => 0⟩, fun _ => [], fun _ => []⟩

def pairSent : Exchange :=
  { pairStart with
    net := (localSocketSend pairStart.net 0 0 100 1).getD pairStart.net
    sent := Function.update pairStart.sent 0 [0] }

/-- Socket 1 receives `byte` into the buffer at 200. -/
def pairReceived (s : Exchange) (byte : Byte) : Exchange :=
  { s with
    net := ((localSocketRecv s.net 1 0 200 1).map (·.2)).getD s.net
    received := Function.update s.received 1 [byte] }

def pairOverwritten : Exchange :=
  { pairSent with net := { pairSent.net with
      mem := Function.update pairSent.net.mem 0 (Function.update (pairSent.net.mem 0) 100 1) } }

theorem pair_connected : Connected 0 1 pairStart :=
  ⟨pairSocket 1, pairSocket 0, rfl, rfl, rfl, rfl, rfl, rfl, fun _ => rfl, fun _ => rfl⟩

theorem pair_send : ExchangeStep 0 1 pairStart (.send 0 0 100 1) pairSent :=
  ⟨Or.inl rfl, by decide, _, rfl, rfl⟩

theorem sockets_deliver_pair : (pairReceived pairSent 0).received 0 <+: pairSent.sent 1 ∧
    (pairReceived pairSent 0).received 1 <+: pairSent.sent 0 := by
  have hrecv : ExchangeStep 0 1 pairSent (.recv 1 0 200 1) (pairReceived pairSent 0) :=
    ⟨Or.inr rfl, by decide, [0], _, rfl, rfl⟩
  have hintact : ReceivesIntact pairSent (.recv 1 0 200 1) := by
    intro sk msg queue hsk hq
    cases hsk
    cases hq
    exact ⟨rfl, fun i k hik hk => absurd hk (by change ¬ k < 1; omega)⟩
  have hsteps : ∀ {s e s'}, ExchangeStep 0 1 s e s' → ReceivesIntact s e →
      ExchangeStep 0 1 s e s' ∧ ReceivesIntact s e := And.intro
  exact sockets_deliver (((Run.nil pair_connected).snoc (hsteps pair_send trivial)).snoc
    (hsteps hrecv hintact))

/-- The sender reuses its buffer before the other side has received. -/
theorem socket_buffer_reused : ¬ ∀ a b evs s, Run (Connected a b) (ExchangeStep a b) evs s →
    s.received a <+: s.sent b ∧ s.received b <+: s.sent a := by
  intro h
  have hwrite : ExchangeStep 0 1 pairSent (.write 0 100 1) pairOverwritten := rfl
  have hrecv : ExchangeStep 0 1 pairOverwritten (.recv 1 0 200 1) (pairReceived pairOverwritten 1) :=
    ⟨Or.inr rfl, by decide, [1], _, rfl, rfl⟩
  have hprefix := (h 0 1 _ _ (((Run.nil pair_connected).snoc pair_send).snoc hwrite |>.snoc hrecv)).2
  exact absurd hprefix (by decide)

end DepthOS
