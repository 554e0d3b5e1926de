import LinuxWebsocket.Lib.Machine
import LinuxWebsocket.Timer.Lists
import Mathlib.Data.Finset.Basic

/-!
# The server that closes idle connections

The event loop of `closeNonactiveConn.cpp`. The environment picks what
`epoll_wait`, `accept`, `recv`, `new` and `time` return. The events of one batch
are handled in order, and `tick` runs between batches when a `SIGALRM` byte asked
for it. `cb_func` names the global `epollfd`, which `main` shadows and never
sets, so its `epoll_ctl` removes nothing: only the `close` ends a registration.
-/

namespace LinuxWebsocket

/-- `FD_LIMIT`: the length of `users`. -/
def fdLimit : Nat := 65535

/-- `TIMESLOT`: seconds between two ticks. -/
def timeslot : Int := 5

namespace Idle

/-- What the loop reads of a `client_data`: the peer address and the received
bytes feed nothing but a message on the terminal. -/
structure ClientData where
  socketFd : Nat
  timer : Option Ptr
  deriving DecidableEq, Repr

/-- What the kernel knows of the client connections. -/
structure Descriptors where
  /-- The open client descriptors. -/
  clients : Finset Nat
  /-- The descriptors registered with the local `epollfd`. -/
  interest : Finset Nat
  /-- The records `cb_func` was run on, latest first. -/
  called : List Nat

/-- Where the loop is. -/
inductive Ctl
  /-- Blocked in `epoll_wait`. -/
  | waiting
  /-- In the `for` loop, with these events to go. -/
  | batch (todo : List Nat)
  /-- Behind the `while` loop. -/
  | left
  deriving DecidableEq, Repr

/-- The server. -/
structure Server where
  timerLst : SortTimerLst
  users : Nat → ClientData
  timeout : Bool
  stopServer : Bool
  ctl : Ctl
  fds : Descriptors
  /-- When a descriptor was accepted or last yielded data. -/
  active : Nat → Int
  /-- The last clock reading. -/
  clock : Int

/-- The descriptors `main` opens before the loop. -/
structure Setup where
  listenfd : Nat
  /-- `pipefd[0]`, where signal bytes arrive. -/
  sigfd : Nat
  /-- Every descriptor open before the first `accept`. -/
  base : Finset Nat
  listen_mem : listenfd ∈ base
  sig_mem : sigfd ∈ base
  ne : listenfd ≠ sigfd

/-- A signal byte. -/
inductive Signal
  | alrm
  | term
  | other
  deriving DecidableEq, Repr

/-- What `recv` on a client returns. -/
inductive Received
  /-- At least one byte. -/
  | data
  /-- The peer has closed. -/
  | eof
  /-- `EAGAIN` -/
  | again
  /-- Any other error. -/
  | error
  deriving DecidableEq, Repr

/-- What the environment makes the loop do next. -/
inductive Event
  /-- `epoll_wait` reports these descriptors. -/
  | wake (ready : List Nat)
  /-- `epoll_wait` fails. -/
  | fail
  /-- `accept` returns `connfd`, `new` the address `p` and `time` the reading `now`. -/
  | accept (connfd : Int) (p : Ptr) (now : Int)
  /-- `recv` on `pipefd[0]` yields these bytes. -/
  | signals (bytes : List Signal)
  /-- `recv` on a client. -/
  | recv (r : Received) (now : Int)
  /-- The reported event is not `EPOLLIN`. -/
  | skip
  /-- The batch is done; `tick` would read the clock as `now`. -/
  | endBatch (now : Int)
  deriving DecidableEq, Repr

/-- `cb_func(user_data)` -/
def cbFunc (users : Nat → ClientData) (userData : Nat) (d : Descriptors) : Descriptors where
  clients := d.clients.erase (users userData).socketFd
  interest := d.interest.erase (users userData).socketFd
  called := userData :: d.called

/-- The branch for the listening socket. -/
def acceptBranch (s : Server) (connfd : Int) (p : Ptr) (now : Int) : Except Fault Server := do
  if connfd < 0 ∨ fdLimit ≤ connfd then
    .error .outOfRange
  else
    let fd := connfd.toNat
    let users := Function.update s.users fd ⟨fd, some p⟩
    let m ← (s.timerLst.new p (now + 3 * timeslot) 0 fd).addTimer (some p)
    .ok { s with
      timerLst := m
      users := users
      fds := { s.fds with
        clients := insert fd s.fds.clients
        interest := insert fd s.fds.interest }
      active := Function.update s.active fd now
      clock := now }

/-- The branch for the signal pipe. -/
def signalBranch (s : Server) (bytes : List Signal) : Server :=
  { s with
    timeout := s.timeout || bytes.contains .alrm
    stopServer := s.stopServer || bytes.contains .term }

/-- `cb_func( &users[sockfd] )` and the deletion of the timer after it. -/
def closeClient (s : Server) (sockfd : Nat) : Except Fault Server := do
  let timer := (s.users sockfd).timer
  let s := { s with fds := cbFunc s.users sockfd s.fds }
  if timer = none then
    .ok s
  else
    let m ← s.timerLst.delTimer timer
    .ok { s with timerLst := m }

/-- The branch for a client's data. -/
def recvBranch (s : Server) (sockfd : Nat) (r : Received) (now : Int) : Except Fault Server :=
  if fdLimit ≤ sockfd then
    .error .outOfRange
  else
    match r with
    | .again => .ok s
    | .error => closeClient s sockfd
    | .eof => closeClient s sockfd
    | .data => do
      let timer := (s.users sockfd).timer
      let s := { s with active := Function.update s.active sockfd now }
      if timer = none then
        .ok s
      else
        let m ← s.timerLst.setExpire timer (now + 3 * timeslot)
        let m ← m.adjustTimer timer
        .ok { s with timerLst := m, clock := now }

/-- `timer_handler()`; the timers' only callback is `cb_func`. -/
def timerHandler (s : Server) (now : Int) : Except Fault Server := do
  let (m, d) ← s.timerLst.tick (fun _ _ userData => cbFunc s.users userData) now s.fds
  .ok { s with timerLst := m, fds := d, clock := now }

/-- `if(timeout) timer_handler();` behind the `for` loop. -/
def timeoutBranch (s : Server) (now : Int) : Except Fault Server :=
  if s.timeout then timerHandler s now else .ok s

/-- One step of `main` from where it stands. -/
def Server.step (k : Setup) (s : Server) (e : Event) : Except Fault Server :=
  match s.ctl, e with
  | .waiting, .wake ready => .ok { s with ctl := .batch ready }
  | .waiting, .fail => .ok { s with ctl := .left }
  | .batch (sockfd :: todo), .accept connfd p now =>
    if sockfd = k.listenfd then acceptBranch { s with ctl := .batch todo } connfd p now else .ok s
  | .batch (sockfd :: todo), .signals bytes =>
    if sockfd = k.sigfd then .ok (signalBranch { s with ctl := .batch todo } bytes) else .ok s
  | .batch (sockfd :: todo), .recv r now =>
    if sockfd ≠ k.listenfd ∧ sockfd ≠ k.sigfd then
      recvBranch { s with ctl := .batch todo } sockfd r now
    else .ok s
  | .batch (sockfd :: todo), .skip =>
    if sockfd ≠ k.listenfd then .ok { s with ctl := .batch todo } else .ok s
  | .batch [], .endBatch now => do
    let s ← timeoutBranch s now
    .ok { s with timeout := false, ctl := if s.stopServer then .left else .waiting }
  | _, _ => .ok s

/-- The event is one the loop can meet where it stands. -/
def Server.at (k : Setup) (s : Server) (e : Event) : Bool :=
  match s.ctl, e with
  | .waiting, .wake _ => true
  | .waiting, .fail => true
  | .batch (sockfd :: _), .accept .. => sockfd = k.listenfd
  | .batch (sockfd :: _), .signals _ => sockfd = k.sigfd
  | .batch (sockfd :: _), .recv .. => sockfd ≠ k.listenfd ∧ sockfd ≠ k.sigfd
  | .batch (sockfd :: _), .skip => sockfd ≠ k.listenfd
  | .batch [], .endBatch _ => true
  | _, _ => false

/-- What the kernel promises of an event: `epoll_wait` reports registered
descriptors, each once; `accept` fails or returns a descriptor that is not open;
`new` returns an unused address. -/
def Server.Kernel (k : Setup) (s : Server) : Event → Prop
  | .wake ready => ready.Nodup ∧ ∀ fd ∈ ready, fd ∈ s.fds.interest
  | .accept connfd p _ =>
    ¬s.timerLst.Alloc p ∧ (connfd < 0 ∨ connfd.toNat ∉ k.base ∪ s.fds.clients)
  | _ => True

/-- What the environment may do. -/
def Server.Allowed (k : Setup) (s : Server) (e : Event) : Prop := s.at k e = true ∧ s.Kernel k e

instance (k : Setup) (s : Server) : ∀ e, Decidable (s.Kernel k e)
  | .wake ready => inferInstanceAs (Decidable (ready.Nodup ∧ ∀ fd ∈ ready, fd ∈ s.fds.interest))
  | .accept connfd p _ => inferInstanceAs (Decidable (¬s.timerLst.Alloc p ∧
      (connfd < 0 ∨ connfd.toNat ∉ k.base ∪ s.fds.clients)))
  | .fail => inferInstanceAs (Decidable True)
  | .signals _ => inferInstanceAs (Decidable True)
  | .recv .. => inferInstanceAs (Decidable True)
  | .skip => inferInstanceAs (Decidable True)
  | .endBatch _ => inferInstanceAs (Decidable True)

instance (k : Setup) (s : Server) (e : Event) : Decidable (s.Allowed k e) :=
  inferInstanceAs (Decidable (s.at k e = true ∧ s.Kernel k e))

/-- The server when it first enters the loop. `users` is not initialised. -/
def Server.start (k : Setup) (users : Nat → ClientData) (clock : Int) : Server where
  timerLst := .empty
  users := users
  timeout := false
  stopServer := false
  ctl := .waiting
  fds := ⟨∅, {k.listenfd, k.sigfd}, []⟩
  active := fun _ => clock
  clock := clock

/-- The server and its environment. -/
def machine (k : Setup) (users : Nat → ClientData) (clock : Int) :
    Machine Server Event Fault where
  init := Server.start k users clock
  Allowed := Server.Allowed k
  step := Server.step k

instance (k : Setup) (users : Nat → ClientData) (clock : Int) (s : Server) (e : Event) :
    Decidable ((machine k users clock).Allowed s e) :=
  inferInstanceAs (Decidable (s.Allowed k e))

end Idle

end LinuxWebsocket
