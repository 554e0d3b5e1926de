import LinuxWebsocket.Lib.EdgeTriggered
import LinuxWebsocket.Pool.Parent

/-!
# The process pool

The parent together with `run_child` of every child, the pipes between them and the
connections waiting on the listening socket. A step is one step of the parent, one event
of one child's batch, a signal or an arrival. Descriptors are registered edge-triggered.
A child that sets `m_stop` exits once its batch is done; as it may be killed at any time,
it may exit at any step here.
-/

namespace LinuxWebsocket

namespace Pool

open EdgeTriggered

/-- The descriptors a child watches. -/
inductive Source
  /-- `pipefd` -/
  | pipe
  /-- The signal pipe or a client. -/
  | other
  deriving DecidableEq, Repr

/-- Where a child is. -/
inductive WorkerCtl
  /-- Blocked in `epoll_wait`. -/
  | waiting
  /-- In its `for` loop, with these events to go. -/
  | batch (todo : List Source)
  /-- In `accept`, behind a `recv` that read a notification or found none. -/
  | accepting (notified : Bool) (todo : List Source)
  deriving DecidableEq, Repr

/-- A child. -/
structure Worker where
  /-- From the parent to the child. -/
  down : Channel Nat
  ctl : WorkerCtl

/-- A child that has just been forked. -/
def Worker.forked : Worker := ⟨.empty, .batch []⟩

/-- A connection a child accepted. -/
structure Accept where
  child : Nat
  conn : Nat
  /-- A notification had been read before. -/
  notified : Bool
  deriving DecidableEq, Repr

/-- The parent, its children and their clients. -/
structure System where
  parent : Parent
  /-- The parent's `m_epollfd`. -/
  epoll : Epoll Nat
  workers : Nat → Worker
  /-- How many connections arrived; they are numbered from 0. -/
  arrived : Nat
  /-- The connections waiting on `m_listenfd`, oldest first. -/
  backlog : List Nat
  /-- The connections accepted, latest first. -/
  accepted : List Accept

/-- What happens next. -/
inductive Act
  /-- A connection is established. -/
  | arrive
  /-- The parent catches a signal, and its handler writes to the signal pipe. -/
  | signal
  /-- The parent or a child's exit. -/
  | parent (e : Event)
  /-- A child's `epoll_wait` reports these descriptors. -/
  | wake (k : Nat) (ready : List Source)
  /-- A child's `recv` on its pipe yields a notification or `EAGAIN`. -/
  | recv (k : Nat)
  /-- A child's `recv` on its pipe fails, or finds the other end closed. -/
  | hangup (k : Nat)
  /-- A child's `accept` returns. -/
  | accept (k : Nat)
  /-- A child handles another event. -/
  | other (k : Nat)
  /-- A child's batch is done. -/
  | endBatch (k : Nat)
  deriving DecidableEq

/-- A change to one child. -/
def System.onWorker (s : System) (k : Nat) (f : Worker → Worker) : System :=
  { s with workers := Function.update s.workers k (f (s.workers k)) }

/-- `send(fd, &new_conn, ..)`: a child gets it whose pipe's other end is open as `fd`. -/
def System.send (c : Setup) (s : System) (fd : Nat) : System :=
  { s with workers := fun k =>
      if k < c.mProcessNumber ∧ (c.forks k).pipefd.1 = fd ∧ s.parent.life k ≠ .reaped then
        { s.workers k with down := (s.workers k).down.write newConn }
      else s.workers k }

/-- `setup_sig_pipe`, as far as it registers descriptors. -/
def setupSigPipe (c : Setup) : Epoll Nat := Epoll.create.add c.sigfd

/-- A child's branch of the pipe, up to its call of `accept`. -/
def Worker.recv (w : Worker) (todo : List Source) : Worker :=
  { w with down := w.down.read, ctl := .accepting (!w.down.queue.isEmpty) todo }

/-- `accept(m_listenfd, ..)`; it fails if no connection waits. -/
def acceptBranch (s : System) (k : Nat) (notified : Bool) : System :=
  match s.backlog with
  | [] => s
  | conn :: backlog =>
    { s with backlog := backlog, accepted := ⟨k, conn, notified⟩ :: s.accepted }

/-- One step of the parent or of a child, or an arrival. -/
def System.step (c : Setup) (s : System) (a : Act) : Except Fault System :=
  match a with
  | .arrive => .ok
    { s with
      arrived := s.arrived + 1
      backlog := s.backlog ++ [s.arrived]
      epoll := s.epoll.raise c.mListenfd }
  | .signal => .ok { s with epoll := s.epoll.raise c.sigfd }
  | .parent e => do
    let parent ← s.parent.step c e
    let new := parent.sent.take (parent.sent.length - s.parent.sent.length)
    let s := new.foldr (fun n s => s.send c n.2) s
    let s := match e with
      | .wake ready => { s with epoll := s.epoll.report ready }
      | _ => s
    .ok { s with parent := parent }
  | .wake k ready => .ok (s.onWorker k fun w =>
      { w with
        down := if ready.contains .pipe then w.down.report else w.down
        ctl := .batch ready })
  | .recv k => match (s.workers k).ctl with
    | .batch (.pipe :: todo) => .ok (s.onWorker k fun w => w.recv todo)
    | _ => .ok s
  | .hangup k => match (s.workers k).ctl with
    | .batch (.pipe :: todo) => .ok (s.onWorker k fun w => { w with ctl := .batch todo })
    | _ => .ok s
  | .accept k => match (s.workers k).ctl with
    | .accepting notified todo =>
      .ok ((acceptBranch s k notified).onWorker k fun w => { w with ctl := .batch todo })
    | _ => .ok s
  | .other k => match (s.workers k).ctl with
    | .batch (.other :: todo) => .ok (s.onWorker k fun w => { w with ctl := .batch todo })
    | _ => .ok s
  | .endBatch k => .ok (s.onWorker k fun w => { w with ctl := .waiting })

/-- A child runs. -/
def System.Live (c : Setup) (s : System) (k : Nat) : Prop :=
  k < c.mProcessNumber ∧ s.parent.life k = .running

instance (c : Setup) (s : System) (k : Nat) : Decidable (s.Live c k) :=
  inferInstanceAs (Decidable (_ ∧ _))

/-- The events of a child's batch, the one to be handled first. -/
def WorkerCtl.todo : WorkerCtl → List Source
  | .waiting => []
  | .batch todo => todo
  | .accepting _ _ => []

/-- A child is in `accept`. -/
def WorkerCtl.inAccept : WorkerCtl → Bool
  | .accepting _ _ => true
  | _ => false

/-- What can happen next: `epoll_wait` reports edges that are pending. -/
def System.Allowed (c : Setup) (s : System) : Act → Prop
  | .arrive => True
  | .signal => True
  | .parent e => s.parent.Allowed c e ∧ match e with
    | .wake ready => ready.Nodup ∧ ∀ fd ∈ ready, fd ∈ s.epoll.pending
    | _ => True
  | .wake k ready => s.Live c k ∧ (s.workers k).ctl = .waiting ∧ ready.count .pipe ≤ 1 ∧
    (.pipe ∈ ready → (s.workers k).down.edge = true)
  | .recv k => s.Live c k ∧ (s.workers k).ctl.todo.head? = some .pipe
  | .hangup k => s.Live c k ∧ (s.workers k).ctl.todo.head? = some .pipe ∧
    (s.workers k).down.queue = []
  | .accept k => s.Live c k ∧ (s.workers k).ctl.inAccept = true
  | .other k => s.Live c k ∧ (s.workers k).ctl.todo.head? = some .other
  | .endBatch k => s.Live c k ∧ (s.workers k).ctl = .batch []

instance (c : Setup) (s : System) (a : Act) : Decidable (s.Allowed c a) := by
  unfold System.Allowed
  split
  case h_3 e => cases e <;> infer_instance
  all_goals infer_instance

/-- The pool when the parent first enters its loop. -/
def System.start (c : Setup) : System where
  parent := .start c
  epoll := setupSigPipe c
  workers := fun _ => .forked
  arrived := 0
  backlog := []
  accepted := []

/-- The pool and its environment. -/
def system (c : Setup) : Machine System Act Fault where
  init := .start c
  Allowed := System.Allowed c
  step := System.step c

instance (c : Setup) (s : System) (a : Act) : Decidable ((system c).Allowed s a) :=
  inferInstanceAs (Decidable (s.Allowed c a))

end Pool

end LinuxWebsocket
