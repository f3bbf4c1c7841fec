import DepthOS.Proofs.Initrd
import DepthOS.Proofs.Messages

/-! Receiving in pieces. A receive that is shorter than the message at the front leaves the
rest of it there, so what the calls return and what stays on the queue are together the
messages that were on it, as long as nobody writes to their bytes meanwhile. -/

namespace DepthOS

open Lib

/-- A network with the size of each receive so far and the bytes it returned. -/
structure Receiving where
  net : NetState
  returned : List (ℕ × List Byte)

inductive ReceivingEvent where
  | recv (buf size : ℕ)
  /-- whatever else happens to memory -/
  | write (mem : ℕ → Mem)

/-- The calls are made on one socket, by tasks of one address space. -/
def RecvStep (sock space : ℕ) (s : Receiving) (e : ReceivingEvent) (s' : Receiving) : Prop :=
  match e with
  | .recv buf size => size < 4294967296 ∧
      ∃ bytes net, localSocketRecv s.net sock space buf size = some (bytes, net) ∧
        s' = ⟨net, s.returned ++ [(size, bytes)]⟩
  | .write mem => s' = { s with net := { s.net with mem := mem } }

def queueOf (net : NetState) (sock : ℕ) : List NetMessage :=
  match net.sockets[sock]? with
  | some sk => sk.messages
  | none => []

/-- What the message's pointer and size stand for. -/
def messageBytes (net : NetState) (space : ℕ) (msg : NetMessage) : List Byte :=
  bytesAt (view (net.mem space) msg.data) 0 msg.size

def queuedBytes (net : NetState) (sock space : ℕ) : List Byte :=
  (queueOf net sock).flatMap (messageBytes net space)

/-- The data of the messages on the queue is the same after the step. -/
def DataKept (sock space : ℕ) (s s' : Receiving) : Prop :=
  ∀ msg ∈ queueOf s.net sock, messageBytes s'.net space msg = messageBytes s.net space msg

variable {m : Mem} {sock space : ℕ} {s s' s₀ : Receiving}

/-! Copying over a source that is the same afterwards. -/

theorem memcpy_later {dst src j n c : ℕ} (hj : j ≤ n)
    (h : ∀ k, j ≤ k → k < n → u32 (dst + k) ≠ c) : memcpy m dst src n c = memcpy m dst src j c := by
  induction n, hj using Nat.le_induction with
  | base => rfl
  | succ n hj ih =>
    change Function.update (memcpy m dst src n) _ _ c = _
    rw [Function.update_of_ne (Ne.symm (h n hj (Nat.lt_succ_self n)))]
    exact ih fun k hk hkn => h k hk (by omega)

/-- Every address is written at most once, so a source that is the same in the end was the
same all along. -/
theorem memcpy_source {dst src n : ℕ} (hn : n < 4294967296)
    (hkept : ∀ k < n, memcpy m dst src n (u32 (src + k)) = m (u32 (src + k))) {i : ℕ} (hi : i < n) :
    memcpy m dst src n (u32 (dst + i)) = m (u32 (src + i)) := by
  have hdistinct : ∀ a b, a < b → b < n → u32 (dst + b) ≠ u32 (dst + a) := by
    intro a b hab hb
    unfold u32
    omega
  have hbefore : memcpy m dst src i (u32 (src + i)) = m (u32 (src + i)) := by
    by_cases hw : ∃ a < i, u32 (dst + a) = u32 (src + i)
    · obtain ⟨a, ha, hsame⟩ := hw
      rw [← hkept i hi, ← hsame]
      refine (memcpy_later hi.le fun k hk hkn => ?_).symm
      exact hdistinct a k (by omega) hkn
    · push Not at hw
      exact memcpy_other hw
  rw [memcpy_later (j := i + 1) (by omega) fun k hk hkn => hdistinct i k (by omega) hkn]
  unfold memcpy
  rw [Function.update_self, hbefore]

/-! Bytes in memory, front and rest. -/

theorem messageBytes_rest (net : NetState) (msg : NetMessage) {n : ℕ} (hn : n ≤ msg.size) :
    messageBytes net space msg =
      bytesAt (view (net.mem space) msg.data) 0 n ++ messageBytes net space (msg.rest n) := by
  have hrest : messageBytes net space (msg.rest n) =
      bytesAt (view (net.mem space) msg.data) (0 + n) (msg.size - n) := by
    unfold messageBytes NetMessage.rest
    dsimp only
    rw [view_u32, view_add]
    apply List.map_congr_left
    intro k _
    dsimp only
    rw [Nat.zero_add, Nat.zero_add]
  rw [hrest, ← bytesAt_add]
  unfold messageBytes
  congr 1
  omega

theorem messageBytes_length (net : NetState) (msg : NetMessage) :
    (messageBytes net space msg).length = msg.size := bytesAt_length _ _ _

/-! One call. -/

theorem recv_queue {net net' : NetState} {buf size : ℕ} {bytes : List Byte}
    (h : localSocketRecv net sock space buf size = some (bytes, net')) :
    ∃ msg queue, queueOf net sock = msg :: queue ∧
      queueOf net' sock = (if size < msg.size then msg.rest size :: queue else queue) ∧
      net'.mem space = memcpy (net.mem space) buf msg.data (min size msg.size) ∧
      bytes = bytesAt (view (net'.mem space) buf) 0 (min size msg.size) := by
  unfold localSocketRecv at h
  obtain ⟨sk, hsk, h⟩ := Option.bind_eq_some_iff.1 h
  cases hq : sk.messages with
  | nil => simp [hq] at h
  | cons msg queue =>
    rw [hq] at h
    obtain ⟨rfl, rfl⟩ := Prod.mk.inj (Option.some.inj h)
    refine ⟨msg, queue, ?_, ?_, ?_, ?_⟩
    · simp [queueOf, hsk, hq]
    · simp [queueOf, NetState.modify, hsk]
    · exact Function.update_self ..
    · dsimp only
      rw [Function.update_self]

theorem recv_returns {net : NetState} (h : queueOf net sock ≠ []) (buf size : ℕ) :
    (localSocketRecv net sock space buf size).isSome = true := by
  unfold queueOf at h
  unfold localSocketRecv
  cases hsk : net.sockets[sock]? with
  | none => simp [hsk] at h
  | some sk =>
    rw [hsk] at h
    cases hq : sk.messages with
    | nil => exact absurd hq h
    | cons msg queue => simp [hq]

theorem recv_kept {net net' : NetState} {buf size : ℕ} {bytes : List Byte}
    (hsize : size < 4294967296)
    (h : localSocketRecv net sock space buf size = some (bytes, net'))
    (hkept : ∀ msg ∈ queueOf net sock, messageBytes net' space msg = messageBytes net space msg) :
    bytes ++ queuedBytes net' sock space = queuedBytes net sock space ∧ bytes.length ≤ size := by
  obtain ⟨msg, queue, hq, hq', hmem, hbytes⟩ := recv_queue h
  set n := min size msg.size with hn
  have hfront : bytes = bytesAt (view (net.mem space) msg.data) 0 n := by
    rw [hbytes, hmem]
    have hsame := hkept msg (by rw [hq]; exact List.mem_cons_self)
    apply List.map_congr_left
    intro k hk
    have hkn := List.mem_range.1 hk
    simp only [view, Nat.zero_add]
    refine memcpy_source (by omega) (fun j hj => ?_) hkn
    have hj' : j < (messageBytes net space msg).length := by
      rw [messageBytes_length]
      omega
    have hget := congrArg (fun l => l[j]?) hsame
    simp only [messageBytes, bytesAt, hmem, List.getElem?_map] at hget
    rw [messageBytes_length] at hj'
    simpa [view, List.getElem?_range hj'] using hget
  have hrest : (queueOf net' sock).flatMap (messageBytes net' space) =
      messageBytes net space (msg.rest n) ++ queue.flatMap (messageBytes net space) := by
    have hqueue : queue.flatMap (messageBytes net' space) =
        queue.flatMap (messageBytes net space) := by
      apply List.flatMap_congr
      intro x hx
      exact hkept x (by rw [hq]; exact List.mem_cons_of_mem _ hx)
    rw [hq']
    split
    · rename_i hlt
      have hns : n = size := by omega
      have hboth := hkept msg (by rw [hq]; exact List.mem_cons_self)
      rw [messageBytes_rest net' msg hlt.le, messageBytes_rest net msg hlt.le] at hboth
      have hsplit := List.append_inj hboth (by rw [bytesAt_length, bytesAt_length])
      rw [List.flatMap_cons, hqueue, hns, hsplit.2]
    · rename_i hge
      have hns : n = msg.size := by omega
      have hnil : messageBytes net space (msg.rest n) = [] := by
        apply List.eq_nil_of_length_eq_zero
        rw [messageBytes_length]
        simp [NetMessage.rest, hns]
      rw [hqueue, hnil, List.nil_append]
  constructor
  · unfold queuedBytes
    rw [hrest, hq, List.flatMap_cons, hfront, ← List.append_assoc,
      ← messageBytes_rest net msg (by omega)]
  · rw [hbytes, bytesAt_length]
    omega

/-! Any number of calls. -/

theorem step_kept {e : ReceivingEvent} (hstep : RecvStep sock space s e s')
    (hkept : DataKept sock space s s') :
    s'.returned.flatMap (·.2) ++ queuedBytes s'.net sock space =
      s.returned.flatMap (·.2) ++ queuedBytes s.net sock space ∧
    ((∀ r ∈ s.returned, r.2.length ≤ r.1) → ∀ r ∈ s'.returned, r.2.length ≤ r.1) := by
  cases e with
  | recv buf size =>
    obtain ⟨hsize, bytes, net, hrecv, rfl⟩ := hstep
    obtain ⟨hbytes, hlen⟩ := recv_kept hsize hrecv hkept
    constructor
    · rw [← hbytes]
      simp
    · intro hall r hr
      rcases List.mem_append.1 hr with hr | hr
      · exact hall r hr
      · rw [List.mem_singleton.1 hr]
        exact hlen
  | write mem =>
    obtain rfl := hstep
    refine ⟨?_, id⟩
    congr 1
    exact List.flatMap_congr hkept

/-- What the calls return, followed by what is left on the queue, is what was on it, and
every call on a queue that is not empty returns. -/
theorem receives_lose_nothing {evs : List ReceivingEvent} (hnew : s₀.returned = [])
    (h : Run (fun s => s = s₀)
      (fun s e s' => RecvStep sock space s e s' ∧ DataKept sock space s s') evs s) :
    s.returned.flatMap (·.2) ++ queuedBytes s.net sock space = queuedBytes s₀.net sock space ∧
    (∀ r ∈ s.returned, r.2.length ≤ r.1) ∧
    (queueOf s.net sock ≠ [] →
      ∀ buf size, (localSocketRecv s.net sock space buf size).isSome = true) := by
  have hinv : s.returned.flatMap (·.2) ++ queuedBytes s.net sock space =
      queuedBytes s₀.net sock space ∧ ∀ r ∈ s.returned, r.2.length ≤ r.1 := by
    refine Run.invariant (fun s => s.returned.flatMap (·.2) ++ queuedBytes s.net sock space =
      queuedBytes s₀.net sock space ∧ ∀ r ∈ s.returned, r.2.length ≤ r.1) ?_ ?_ h
    · rintro s rfl
      simp [hnew]
    · rintro s e s' ⟨hflow, hlen⟩ ⟨hstep, hkept⟩
      obtain ⟨hflow', hlen'⟩ := step_kept hstep hkept
      exact ⟨hflow'.trans hflow, hlen' hlen⟩
  exact ⟨hinv.1, hinv.2, recv_returns⟩

/-! A message of three bytes at 100 and an empty one. -/

def threeAndNone : Receiving :=
  ⟨⟨[{ pairSocket 0 with messages := [⟨100, 3, []⟩, ⟨100, 0, []⟩] }], [],
    fun _ a => if a = 101 then 7 else 0⟩, []⟩

def afterTwo : Receiving :=
  ⟨((localSocketRecv threeAndNone.net 0 0 500 2).map (·.2)).getD threeAndNone.net, [(2, [0, 7])]⟩

theorem receives_lose_nothing_two :
    afterTwo.returned.flatMap (·.2) ++ queuedBytes afterTwo.net 0 0 =
      queuedBytes threeAndNone.net 0 0 ∧ queuedBytes afterTwo.net 0 0 = [0] := by
  have hrecv : RecvStep 0 0 threeAndNone (.recv 500 2) afterTwo :=
    ⟨by decide, [0, 7], _, rfl, rfl⟩
  have hkept : DataKept 0 0 threeAndNone afterTwo := by
    intro msg hmsg
    rcases List.mem_cons.1 hmsg with rfl | hmsg
    · rfl
    · obtain rfl := List.mem_singleton.1 hmsg
      rfl
  have hnil : Run (fun s => s = threeAndNone)
      (fun s e s' => RecvStep 0 0 s e s' ∧ DataKept 0 0 s s') [] threeAndNone := Run.nil rfl
  exact ⟨(receives_lose_nothing rfl (hnil.snoc (And.intro hrecv hkept))).1, rfl⟩

end DepthOS
