import LinuxWebsocket.Chat.Registry

/-!
# A child's start and its `SIGTERM`

The parent stops its children with `SIGTERM`. A child is forked with the parent's
handler, which posts the signal to the parent's signal pipe; it closes its end of
that pipe, installs a handler of its own, which sets `stop_child`, and from then on
tests the flag before each `epoll_wait`. Here a child goes statement by statement, a
signal sent to it may be delivered between any two of them or in `epoll_wait`, and
the bytes in the parent's signal pipe are noted with the child that posted them.
-/

namespace LinuxWebsocket

namespace Chat

namespace Sigterm

/-- The statement a child executes next. -/
inductive Pc
  | closeEpollfd
  | closeListenfd
  /-- `close( users[user_count].pipefd[0] )` -/
  | closePipefd
  /-- `close( sig_pipefd[0] )` -/
  | closeSig0
  /-- `close( sig_pipefd[1] )` -/
  | closeSig1
  | epollCreate
  /-- `addfd(child_epollfd, connfd)` -/
  | addConnfd
  /-- `addfd(child_epollfd, pipefd)` -/
  | addPipefd
  /-- `addsig(SIGTERM, child_term_handler, false)` -/
  | addsig
  /-- `while (!stop_child)` -/
  | test
  /-- `epoll_wait`, before it blocks -/
  | wait
  /-- Blocked in `epoll_wait`. -/
  | blocked
  /-- The `for` loop over the events. -/
  | batch
  /-- The `while` loop was left. -/
  | leaving
  deriving DecidableEq, Repr

/-- What is installed for `SIGTERM` in a child. -/
inductive Handler
  /-- `sig_handler` -/
  | inherited
  /-- `child_term_handler` -/
  | own
  deriving DecidableEq, Repr

/-- A child between `fork` and its exit. -/
structure Child where
  pc : Pc
  handler : Handler
  /-- `sig_pipefd[1]` is open. -/
  sigpipe : Bool
  stopChild : Bool
  /-- Something can be read from a descriptor it watches, and was not reported yet. -/
  ready : Bool
  /-- A `SIGTERM` was sent and not delivered yet. -/
  pending : Bool
  /-- A `SIGTERM` was delivered. -/
  delivered : Bool
  deriving DecidableEq, Repr

/-- A child as `fork` makes it. -/
def Child.forked : Child := ⟨.closeEpollfd, .inherited, true, false, false, false, false⟩

/-- A byte in the signal pipe and the child that posted it; `none` is the parent. -/
structure Post where
  sig : Signal
  child : Option Nat
  deriving DecidableEq, Repr

/-- The parent, its signal pipe and its children. -/
structure State where
  parent : Parent
  /-- The bytes in the signal pipe, oldest first. -/
  pipe : List Post
  /-- The bytes read from it and not handled yet. -/
  hand : List Post
  /-- The children by serial number. -/
  children : Nat → Child

/-- What happens next. -/
inductive Act
  /-- A step of the parent, or a child's exit. -/
  | parent (e : Event)
  /-- The parent gets a signal, and its handler posts it. -/
  | post (b : Signal)
  /-- Something arrives for a child to read. -/
  | arrive (c : Nat)
  /-- A child executes its next statement. -/
  | run (c : Nat)
  /-- A child's batch is done; `gone` if a `recv` found the other end closed or failed. -/
  | serve (c : Nat) (gone : Bool)
  /-- A `SIGTERM` is delivered to a child; `sent` if a `send` on the signal pipe succeeds. -/
  | deliver (c : Nat) (sent : Bool)
  deriving DecidableEq

/-- A child's next statement. -/
def Child.run (kid : Child) : Child :=
  match kid.pc with
  | .closeEpollfd => { kid with pc := .closeListenfd }
  | .closeListenfd => { kid with pc := .closePipefd }
  | .closePipefd => { kid with pc := .closeSig0 }
  | .closeSig0 => { kid with pc := .closeSig1 }
  | .closeSig1 => { kid with sigpipe := false, pc := .epollCreate }
  | .epollCreate => { kid with pc := .addConnfd }
  | .addConnfd => { kid with pc := .addPipefd }
  | .addPipefd => { kid with pc := .addsig }
  | .addsig => { kid with handler := .own, pc := .test }
  | .test => { kid with pc := if kid.stopChild then .leaving else .wait }
  | .wait | .blocked =>
    if kid.ready then { kid with ready := false, pc := .batch } else { kid with pc := .blocked }
  | .batch | .leaving => kid

/-- The end of a child's batch. -/
def Child.serve (kid : Child) (gone : Bool) : Child :=
  { kid with stopChild := kid.stopChild || gone, pc := .test }

/-- What a `SIGTERM` does in a child beside posting a byte: `epoll_wait` returns with
`EINTR` behind the handler. -/
def Child.deliver (kid : Child) : Child :=
  { kid with
    pending := false
    delivered := true
    stopChild := kid.stopChild || kid.handler == .own
    pc := if kid.pc = .blocked then .test else kid.pc }

/-- What a `SIGTERM` posts. -/
def Child.posts (kid : Child) (c : Nat) (sent : Bool) : List Post :=
  if kid.handler = .inherited ∧ kid.sigpipe ∧ sent then [⟨.term, some c⟩] else []

/-- A change to one child. -/
def State.onChild (s : State) (c : Nat) (f : Child → Child) : State :=
  { s with children := Function.update s.children c (f (s.children c)) }

/-- `kill(pid, SIGTERM)` for each of these numbers. -/
def State.kill (s : State) (pids : List Nat) : State :=
  { s with children := fun c =>
      if s.parent.kernel.procs.any fun p => p.serial == c && pids.contains p.pid then
        { s.children c with pending := true }
      else s.children c }

/-- One step of the parent or of a child. -/
def State.step (k : Setup) (s : State) (a : Act) : Except Fault State :=
  match a with
  | .parent e => do
    let parent ← s.parent.step k e
    match e with
    | .signals bytes => .ok { s with
        parent := parent, pipe := s.pipe.drop bytes.length, hand := s.pipe.take bytes.length }
    | .byte =>
      let pids := parent.killed.take (parent.killed.length - s.parent.killed.length)
      .ok { s.kill pids with parent := parent, hand := s.hand.tail }
    | _ => .ok { s with parent := parent }
  | .post b => .ok { s with pipe := s.pipe ++ [⟨b, none⟩] }
  | .arrive c => .ok (s.onChild c fun kid => { kid with ready := true })
  | .run c => .ok (s.onChild c Child.run)
  | .serve c gone => .ok (s.onChild c fun kid => kid.serve gone)
  | .deliver c sent => .ok { s.onChild c Child.deliver with
      pipe := s.pipe ++ (s.children c).posts c sent }

/-- A child runs: it was forked and has not exited. -/
def State.Live (s : State) (c : Nat) : Prop :=
  ∃ p ∈ s.parent.kernel.procs, p.serial = c ∧ p.dead = false

instance (s : State) (c : Nat) : Decidable (s.Live c) :=
  inferInstanceAs (Decidable (∃ p ∈ s.parent.kernel.procs, p.serial = c ∧ p.dead = false))

/-- A `recv` on the signal pipe yields at most 1024 of the bytes in it, in order. -/
def State.Receives (s : State) : Event → Prop
  | .signals bytes => bytes.length ≤ 1024 ∧ bytes <+: s.pipe.map Post.sig
  | _ => True

instance (s : State) : ∀ e, Decidable (s.Receives e)
  | .signals bytes =>
    inferInstanceAs (Decidable (bytes.length ≤ 1024 ∧ bytes <+: s.pipe.map Post.sig))
  | .wake _ => inferInstanceAs (Decidable True)
  | .fail => inferInstanceAs (Decidable True)
  | .accept _ => inferInstanceAs (Decidable True)
  | .byte => inferInstanceAs (Decidable True)
  | .waitpid _ => inferInstanceAs (Decidable True)
  | .notify _ => inferInstanceAs (Decidable True)
  | .endBatch => inferInstanceAs (Decidable True)
  | .die _ => inferInstanceAs (Decidable True)

/-- What can happen next. -/
def State.Allowed (k : Setup) (s : State) : Act → Prop
  | .parent e => s.parent.Allowed k e ∧ s.Receives e
  | .post _ => True
  | .arrive c => s.Live c
  | .run c => s.Live c ∧ (s.children c).pc ≠ .batch ∧ (s.children c).pc ≠ .leaving ∧
    ((s.children c).pc = .blocked → (s.children c).ready = true)
  | .serve c _ => s.Live c ∧ (s.children c).pc = .batch
  | .deliver c _ => s.Live c ∧ (s.children c).pending = true

instance (k : Setup) (s : State) : ∀ a, Decidable (s.Allowed k a)
  | .parent e => inferInstanceAs (Decidable (s.parent.Allowed k e ∧ s.Receives e))
  | .post _ => inferInstanceAs (Decidable True)
  | .arrive c => inferInstanceAs (Decidable (s.Live c))
  | .run c => inferInstanceAs (Decidable (s.Live c ∧ (s.children c).pc ≠ .batch ∧
    (s.children c).pc ≠ .leaving ∧ ((s.children c).pc = .blocked → (s.children c).ready = true)))
  | .serve c _ => inferInstanceAs (Decidable (s.Live c ∧ (s.children c).pc = .batch))
  | .deliver c _ => inferInstanceAs (Decidable (s.Live c ∧ (s.children c).pending = true))

/-- The server when the parent first enters its loop. -/
def State.start (k : Setup) (users : Nat → ClientData) : State :=
  ⟨.start k users, [], [], fun _ => .forked⟩

/-- The parent and its children as far as `SIGTERM` is concerned. -/
def machine (k : Setup) (users : Nat → ClientData) : Machine State Act Fault where
  init := .start k users
  Allowed := State.Allowed k
  step := State.step k

instance (k : Setup) (users : Nat → ClientData) (s : State) (a : Act) :
    Decidable ((machine k users).Allowed s a) :=
  inferInstanceAs (Decidable (s.Allowed k a))

end Sigterm

end Chat

end LinuxWebsocket
