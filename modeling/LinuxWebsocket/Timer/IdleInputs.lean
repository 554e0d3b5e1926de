import LinuxWebsocket.Lib.EdgeTriggered
import LinuxWebsocket.Timer.IdlePairing

/-!
# What the idle-connection server reads

The server with what arrives for it: connections that wait to be accepted, signal
bytes, and the bytes of each client. Everything is registered edge-triggered, and the
loop answers a report with a single call: one `accept`, one `recv` of at most
`BUFFER_SIZE - 1` bytes, or one `recv` of at most 1024 signal bytes. Input is left
behind once more has arrived than the reports still to come have room for.
-/

namespace LinuxWebsocket

namespace Idle

open EdgeTriggered

/-- `BUFFER_SIZE` -/
def bufferSize : Nat := 64

/-- How many signal bytes one `recv` takes. -/
def signalsSize : Nat := 1024

/-- The events of the batch still to be handled. -/
def Ctl.todo : Ctl → List Nat
  | .batch todo => todo
  | _ => []

/-- The server and its input. -/
structure State where
  server : Server
  /-- The established connections not accepted yet. -/
  listen : Inbox Unit
  /-- The bytes in `pipefd[0]`. -/
  sigs : Inbox Signal
  /-- What each client has sent. -/
  conns : Nat → Inbox UInt8
  /-- The clients that have closed their side. -/
  eof : Nat → Bool
  /-- The last report of a descriptor was `EPOLLIN`. -/
  pollin : Nat → Bool

/-- What happens next. -/
inductive Act
  /-- A step of the loop, but for `accept`. -/
  | server (e : Event)
  /-- `accept` on a connection over which these bytes have come already, and perhaps the end. -/
  | accept (connfd : Int) (p : Ptr) (now : Int) (early : List UInt8) (gone : Bool)
  /-- A connection is established. -/
  | connect
  /-- A client's bytes arrive. -/
  | bytes (fd : Nat) (bs : List UInt8)
  /-- A client closes its side. -/
  | hangup (fd : Nat)
  /-- The handler writes a signal byte. -/
  | signal (b : Signal)
  deriving DecidableEq

/-- The edge of a registered descriptor. -/
def State.edge (k : Setup) (s : State) (fd : Nat) : Bool :=
  if fd = k.listenfd then s.listen.edge
  else if fd = k.sigfd then s.sigs.edge
  else (s.conns fd).edge

/-- There is something to read at a registered descriptor. -/
def State.readable (k : Setup) (s : State) (fd : Nat) : Bool :=
  if fd = k.listenfd then !s.listen.queue.isEmpty
  else if fd = k.sigfd then !s.sigs.queue.isEmpty
  else !(s.conns fd).queue.isEmpty || s.eof fd

/-- What a `recv` on a client returns, unless it fails. -/
def State.received (s : State) (fd : Nat) : Received :=
  if (s.conns fd).queue ≠ [] then .data else if s.eof fd then .eof else .again

/-- One step of the loop, or an arrival. -/
def State.step (k : Setup) (s : State) (a : Act) : Except Fault State :=
  match a with
  | .server e => do
    let server ← s.server.step k e
    match e with
    | .wake ready => .ok { s with
        server := server
        listen := if ready.contains k.listenfd then s.listen.report else s.listen
        sigs := if ready.contains k.sigfd then s.sigs.report else s.sigs
        conns := fun fd => if ready.contains fd then (s.conns fd).report else s.conns fd
        pollin := fun fd => if ready.contains fd then s.readable k fd else s.pollin fd }
    | .signals _ => .ok { s with server := server, sigs := s.sigs.serve signalsSize }
    | .recv _ _ => .ok { s with
        server := server
        conns := fun fd => if s.server.ctl.todo.head? = some fd then
          (s.conns fd).serve (bufferSize - 1) else s.conns fd }
    | _ => .ok { s with server := server }
  | .accept connfd p now early gone => do
    let server ← s.server.step k (.accept connfd p now)
    .ok { s with
      server := server
      listen := s.listen.serve 1
      conns := Function.update s.conns connfd.toNat
        (if gone then (Inbox.registered early).hangup else .registered early)
      eof := Function.update s.eof connfd.toNat gone }
  | .connect => .ok { s with listen := s.listen.arrive [()] }
  | .bytes fd bs => .ok { s with conns := Function.update s.conns fd ((s.conns fd).arrive bs) }
  | .hangup fd => .ok { s with
      conns := Function.update s.conns fd (s.conns fd).hangup
      eof := Function.update s.eof fd true }
  | .signal b => .ok { s with sigs := s.sigs.arrive [b] }

/-- What `epoll_wait` and `recv` promise: only edges are reported; a `recv` yields all there is
or as much as it asked for; and an event is handled as what it was reported. -/
def State.Yields (k : Setup) (s : State) : Event → Prop
  | .wake ready => ∀ fd ∈ ready, s.edge k fd = true
  | .signals bytes => s.pollin k.sigfd = true ∧ bytes = s.sigs.queue.take signalsSize
  | .recv r _ => ∀ fd ∈ s.server.ctl.todo.head?, s.pollin fd = true ∧
    (r = s.received fd ∨ r = .error)
  | .skip => ∀ fd ∈ s.server.ctl.todo.head?, s.pollin fd = false
  | .accept .. => False
  | _ => True

instance (k : Setup) (s : State) : ∀ e, Decidable (s.Yields k e)
  | .wake ready => inferInstanceAs (Decidable (∀ fd ∈ ready, s.edge k fd = true))
  | .signals bytes => inferInstanceAs
    (Decidable (s.pollin k.sigfd = true ∧ bytes = s.sigs.queue.take signalsSize))
  | .recv r _ => inferInstanceAs (Decidable (∀ fd ∈ s.server.ctl.todo.head?,
    s.pollin fd = true ∧ (r = s.received fd ∨ r = .error)))
  | .skip => inferInstanceAs (Decidable (∀ fd ∈ s.server.ctl.todo.head?, s.pollin fd = false))
  | .accept .. => inferInstanceAs (Decidable False)
  | .fail => inferInstanceAs (Decidable True)
  | .endBatch _ => inferInstanceAs (Decidable True)

/-- What can happen next. -/
def State.Allowed (k : Setup) (s : State) : Act → Prop
  | .server e => s.server.Allowed k e ∧ s.Yields k e
  | .accept connfd p now _ _ => s.server.Allowed k (.accept connfd p now) ∧
    (0 ≤ connfd → s.listen.queue ≠ [])
  | .connect => True
  | .bytes fd bs => fd ∈ s.server.fds.clients ∧ s.eof fd = false ∧ bs ≠ []
  | .hangup fd => fd ∈ s.server.fds.clients
  | .signal _ => True

instance (k : Setup) (s : State) : ∀ a, Decidable (s.Allowed k a)
  | .server e => inferInstanceAs (Decidable (s.server.Allowed k e ∧ s.Yields k e))
  | .accept connfd p now _ _ => inferInstanceAs (Decidable
    (s.server.Allowed k (.accept connfd p now) ∧ (0 ≤ connfd → s.listen.queue ≠ [])))
  | .connect => inferInstanceAs (Decidable True)
  | .bytes fd bs =>
    inferInstanceAs (Decidable (fd ∈ s.server.fds.clients ∧ s.eof fd = false ∧ bs ≠ []))
  | .hangup fd => inferInstanceAs (Decidable (fd ∈ s.server.fds.clients))
  | .signal _ => inferInstanceAs (Decidable True)

/-- The server when it first enters the loop. -/
def State.start (k : Setup) (users : Nat → ClientData) (clock : Int) : State where
  server := .start k users clock
  listen := .empty
  sigs := .empty
  conns := fun _ => .empty
  eof := fun _ => false
  pollin := fun _ => false

/-- The server, its clients and its signals. -/
def inputs (k : Setup) (users : Nat → ClientData) (clock : Int) : Machine State Act Fault where
  init := .start k users clock
  Allowed := State.Allowed k
  step := State.step k

instance (k : Setup) (users : Nat → ClientData) (clock : Int) (s : State) (a : Act) :
    Decidable ((inputs k users clock).Allowed s a) :=
  inferInstanceAs (Decidable (s.Allowed k a))

end Idle

end LinuxWebsocket
