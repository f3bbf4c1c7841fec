import DepthOS.Spec.Ext2Dir
import DepthOS.Spec.Fd
import DepthOS.Spec.Initrd

/-! `net/local_socket.c` and the socket calls of `fs/fdops.c`, on the sockets behind the
descriptors. A socket pointer is an index into the sockets made so far, none of which is
freed; `none` is NULL. `create_local_socket` has no `return` and is read as returning what
it builds. Each task runs in an address space, and a user pointer means what it points to
in the space of the task that follows it. -/

namespace DepthOS

open Lib

abbrev EADDRINUSE : ℤ := 18
abbrev ECONNREFUSED : ℤ := 19

inductive SockState where
  | DISCONNECTED
  | LISTENING
  | CONNECTED
deriving DecidableEq

/-- `content` is what the buffer held when it was sent; the code does not have it. -/
structure NetMessage where
  data : ℕ
  size : ℕ
  content : List Byte

structure Socket where
  family : ℤ
  type : ℤ
  state : SockState
  connQueue : List ℕ
  backlog : ℤ
  messages : List NetMessage
  peer : Option ℕ

structure BoundSocket where
  sock : ℕ
  path : CString

structure NetState where
  sockets : List Socket
  boundSockets : List BoundSocket
  /-- the memory of each address space -/
  mem : ℕ → Mem

def NetState.modify (s : NetState) (sock : ℕ) (f : Socket → Socket) : NetState :=
  { s with sockets := s.sockets.modify sock f }

/-! Making and connecting sockets. -/

/-- `kmalloc` returned `junk`; `none` is the failed assertion. -/
def createLocalSocket (junk : Socket) (type : ℤ) : Option Socket :=
  if type = SOCK_STREAM then
    some { junk with
      family := AF_LOCAL
      type := type
      connQueue := []
      messages := []
      state := .DISCONNECTED }
  else none

def createSocket (junk : Socket) (family type : ℤ) : Option Socket :=
  if family = AF_LOCAL then createLocalSocket junk type else none

def netSocket (s : NetState) (junk : Socket) (domain type : ℤ) : NetState :=
  if domain ≠ AF_LOCAL then s
  else if type ≠ SOCK_STREAM then s
  else
    match createLocalSocket junk type with
    | none => s
    | some sock => { s with sockets := s.sockets ++ [sock] }

/-- `found` tells whether `vfs_open` finds the path. -/
def localSocketBind (s : NetState) (sock : ℕ) (path : CString) (found : Bool) : ℤ × NetState :=
  if found then (-EADDRINUSE, s)
  else (0, { s with boundSockets := s.boundSockets ++ [⟨sock, path⟩] })

def netListen (s : NetState) (sock : ℕ) (backlog : ℤ) : NetState :=
  s.modify sock fun sk => { sk with backlog := backlog }

/-- The first socket bound to the path decides. -/
def localSocketConnect (s : NetState) (sock : ℕ) (path : CString) : ℤ × NetState :=
  match s.boundSockets.find? fun bs => sameStr path bs.path with
  | none => (-ECONNREFUSED, s)
  | some bs =>
    match s.sockets[bs.sock]? with
    | none => (-ECONNREFUSED, s)
    | some listener =>
      if s32 listener.connQueue.length ≥ listener.backlog then (-ECONNREFUSED, s)
      else (0, s.modify bs.sock fun sk => { sk with connQueue := sk.connQueue ++ [sock] })

/-- The part of `accept` from a connection on; without one it waits, which is `none`, as is
a NULL from `create_socket`. -/
def netAccept (s : NetState) (listener : ℕ) (junk : Socket) : Option NetState := do
  let l ← s.sockets[listener]?
  let client ← l.connQueue.head?
  let s := s.modify listener fun sk => { sk with connQueue := sk.connQueue.tail }
  let c ← s.sockets[client]?
  let sock ← createSocket junk c.family c.type
  let s := s.modify client fun sk => { sk with state := .CONNECTED, peer := some s.sockets.length }
  some { s with sockets := s.sockets ++ [{ sock with state := .LISTENING, peer := some client }] }

/-! Messages. -/

/-- `n` bytes, one after the other from the front. -/
def memcpy (m : Mem) (dst src : ℕ) : ℕ → Mem
  | 0 => m
  | n + 1 =>
    let m := memcpy m dst src n
    Function.update m (u32 (dst + n)) (m (u32 (src + n)))

/-- The message points at the buffer, in whatever space the receiver will be in. -/
def localSocketSend (s : NetState) (sock space buf size : ℕ) : Option NetState := do
  let sk ← s.sockets[sock]?
  let peer ← sk.peer
  let msg : NetMessage := ⟨buf, size, bytesAt (view (s.mem space) buf) 0 size⟩
  some (s.modify peer fun sk => { sk with messages := sk.messages ++ [msg] })

/-- What is left of a message after `n` bytes. -/
def NetMessage.rest (msg : NetMessage) (n : ℕ) : NetMessage :=
  ⟨u32 (msg.data + n), msg.size - n, msg.content.drop n⟩

/-- What the caller finds in its buffer, and the state; `none` while it waits. -/
def localSocketRecv (s : NetState) (sock space buf size : ℕ) : Option (List Byte × NetState) := do
  let sk ← s.sockets[sock]?
  match sk.messages with
  | [] => none
  | msg :: queue =>
    let bytesToTransfer := min size msg.size
    let m := memcpy (s.mem space) buf msg.data bytesToTransfer
    let queue := if size < msg.size then msg.rest size :: queue else queue
    let s := s.modify sock fun sk => { sk with messages := queue }
    some (bytesAt (view m buf) 0 bytesToTransfer, { s with mem := Function.update s.mem space m })

/-! Any interleaving of the calls that connect sockets, by any number of parties. -/

inductive NetEvent where
  | socket (junk : Socket) (domain type : ℤ)
  | bind (sock : ℕ) (path : CString) (found : Bool)
  | listen (sock : ℕ) (backlog : ℤ)
  | connect (sock : ℕ) (path : CString)
  | accept (sock : ℕ) (junk : Socket)

/-- The sockets of the calls are behind descriptors, so they have been made. -/
def NetStep (s : NetState) (e : NetEvent) (s' : NetState) : Prop :=
  match e with
  | .socket junk domain type => netSocket s junk domain type = s'
  | .bind sock path found => sock < s.sockets.length ∧ (localSocketBind s sock path found).2 = s'
  | .listen sock backlog => sock < s.sockets.length ∧ netListen s sock backlog = s'
  | .connect sock path => sock < s.sockets.length ∧ (localSocketConnect s sock path).2 = s'
  | .accept sock junk => netAccept s sock junk = some s'

def NetBoot (s : NetState) : Prop := s.sockets = [] ∧ s.boundSockets = []

/-! Any interleaving of sends and receives on two connected sockets and of writes to
memory, with what each socket has sent and received so far. -/

structure Exchange where
  net : NetState
  sent : ℕ → List Byte
  received : ℕ → List Byte

inductive ExchangeEvent where
  | send (sock space buf size : ℕ)
  | recv (sock space buf size : ℕ)
  | write (space addr : ℕ) (b : Byte)

/-- A size is a `size_t`. -/
def ExchangeStep (a b : ℕ) (s : Exchange) (e : ExchangeEvent) (s' : Exchange) : Prop :=
  match e with
  | .send sock space buf size => (sock = a ∨ sock = b) ∧ size < 4294967296 ∧
      ∃ net, localSocketSend s.net sock space buf size = some net ∧
        s' = ⟨net, Function.update s.sent sock
          (s.sent sock ++ bytesAt (view (s.net.mem space) buf) 0 size), s.received⟩
  | .recv sock space buf size => (sock = a ∨ sock = b) ∧ size < 4294967296 ∧
      ∃ bytes net, localSocketRecv s.net sock space buf size = some (bytes, net) ∧
        s' = ⟨net, s.sent, Function.update s.received sock (s.received sock ++ bytes)⟩
  | .write space addr b =>
      s' = { s with net := { s.net with
        mem := Function.update s.net.mem space (Function.update (s.net.mem space) addr b) } }

/-- Two sockets that are each other's peer and have exchanged nothing yet. -/
def Connected (a b : ℕ) (s : Exchange) : Prop :=
  ∃ sa sb, s.net.sockets[a]? = some sa ∧ s.net.sockets[b]? = some sb ∧ sa.peer = some b ∧
    sb.peer = some a ∧ sa.messages = [] ∧ sb.messages = [] ∧
    (∀ i, s.sent i = []) ∧ ∀ i, s.received i = []

end DepthOS
