import LinuxWebsocket.Chat.Registry
import LinuxWebsocket.Lib.EdgeTriggered

/-!
# The chat server

The parent together with `run_child` of every child, the pipes between them and the
shared memory. A step is one step of the parent or one event of one child's batch. A
pipe carries nothing but a slot number; what the number announces (the message, who
received it, and when) is noted beside it, and nothing the code does depends on the
notes. A child that sets `stop_child` exits once its batch is done; as it may be
killed at any time, it may exit at any step here.
-/

namespace LinuxWebsocket

namespace Chat

open EdgeTriggered

/-- `BUFFER_SIZE` -/
def bufferSize : Nat := 1024

/-- What one `recv` on a client yields: some bytes, short of a whole buffer. -/
structure Message where
  bytes : List UInt8
  nonempty : bytes ≠ []
  fits : bytes.length < bufferSize
  deriving DecidableEq

/-- A buffer cleared by `memset` with these bytes at its start. -/
def zeroPadded (bytes : List UInt8) : List UInt8 :=
  bytes ++ List.replicate (bufferSize - bytes.length) 0

/-- A slot number in a pipe, with what it announces. -/
structure Notice where
  idx : Nat
  /-- The child that received the message. -/
  sender : Nat
  text : Message
  /-- How often the slots had been written to when the message was in its slot. -/
  stamp : Nat
  deriving DecidableEq

/-- The descriptors a child watches. -/
inductive Source
  /-- `connfd` -/
  | conn
  /-- `pipefd` -/
  | pipe
  deriving DecidableEq, Repr

/-- Where a child is. -/
inductive KidCtl
  /-- Blocked in `epoll_wait`. -/
  | waiting
  /-- In its `for` loop, with these events to go. -/
  | batch (todo : List Source)
  deriving DecidableEq, Repr

/-- The events of the batch still to be handled. -/
def KidCtl.todo : KidCtl → List Source
  | .waiting => []
  | .batch todo => todo

/-- A child. -/
structure Kid where
  /-- From the child to the parent. -/
  up : Channel Notice
  /-- From the parent to the child. -/
  down : Channel Notice
  ctl : KidCtl

/-- A child that has just been forked; data that is there when a descriptor is
registered raises an edge like data that comes later. -/
def Kid.forked : Kid := ⟨.empty, .empty, .batch []⟩

/-- The parent, its children and their memory. -/
structure System where
  parent : Parent
  /-- The children by serial number. -/
  kids : Nat → Kid
  /-- The slots of the shared memory. -/
  shm : Nat → List UInt8
  /-- Every write to a slot and what it left there, latest first. -/
  writes : List (Nat × List UInt8)
  /-- Every buffer sent to a client and by which child, latest first. -/
  answers : List (Nat × List UInt8)

/-- What happens next. -/
inductive Act
  /-- The parent or a child's exit, but for the branch of the pipes. -/
  | parent (e : Event)
  /-- The parent's branch of the pipes. -/
  | notify
  /-- A child's `epoll_wait` reports these descriptors. -/
  | wake (c : Nat) (ready : List Source)
  /-- A child's `recv` on its client yields a message, or nothing. -/
  | receive (c : Nat) (m : Option Message)
  /-- A child's branch of the pipe. -/
  | answer (c : Nat)
  /-- A child's batch is done. -/
  | endBatch (c : Nat)
  deriving DecidableEq

/-- A child not waited for, by serial number. -/
def System.proc (s : System) (c : Nat) : Option Proc :=
  s.parent.kernel.procs.find? fun p => p.serial = c

/-- A change to one child. -/
def System.onKid (s : System) (c : Nat) (f : Kid → Kid) : System :=
  { s with kids := Function.update s.kids c (f (s.kids c)) }

/-- A change to some of the children not waited for. -/
def System.onKids (s : System) (sel : Proc → Bool) (f : Kid → Kid) : System :=
  { s with kids := fun c =>
      if s.parent.kernel.procs.any fun p => p.serial == c && sel p then f (s.kids c) else s.kids c }

/-- A slot is cleared and filled with these bytes. -/
def System.fill (s : System) (idx : Nat) (bytes : List UInt8) : System :=
  { s with
    shm := Function.update s.shm idx (zeroPadded bytes)
    writes := (idx, zeroPadded bytes) :: s.writes }

/-- `run_child` handles its client: the slot is cleared whatever `recv` yields. -/
def clientBranch (s : System) (p : Proc) (m : Option Message) : Except Fault System :=
  if userLimit ≤ p.idx then .error .outOfRange
  else
    match m with
    | none => .ok (s.fill p.idx [])
    | some m =>
      let s := s.fill p.idx m.bytes
      let n : Notice := ⟨p.idx, p.serial, m, s.writes.length⟩
      .ok (s.onKid p.serial fun kid => { kid with up := kid.up.write n })

/-- `run_child` handles its pipe: the slot read from it is sent to the client. -/
def pipeBranch (s : System) (p : Proc) : Except Fault System :=
  match (s.kids p.serial).down.queue.head? with
  | none => .ok s
  | some n =>
    if userLimit ≤ n.idx then .error .outOfRange
    else
      let s := { s with answers := (p.serial, s.shm n.idx) :: s.answers }
      .ok (s.onKid p.serial fun kid => { kid with down := kid.down.read })

/-- The parent handles a pipe: the slot number read from it goes to all other pipes. -/
def notifyBranch (k : Setup) (s : System) (sockfd : Nat) : Except Fault System :=
  match s.parent.kernel.procs.find? fun p => p.pipe = sockfd with
  | none => do
    let parent ← s.parent.step k (.notify none)
    .ok { s with parent := parent }
  | some p => do
    let n := (s.kids p.serial).up.queue.head?
    let parent ← s.parent.step k (.notify (n.map Notice.idx))
    let fds ← broadcastTargets s.parent sockfd
    let s := s.onKids (fun q => q.pipe == sockfd) fun kid => { kid with up := kid.up.read }
    let s := match n with
      | none => s
      | some n => s.onKids (fun q => fds.contains q.pipe) fun kid =>
        { kid with down := kid.down.write n }
    .ok { s with parent := parent }

/-- One step of the parent or of a child. -/
def System.step (k : Setup) (s : System) (a : Act) : Except Fault System :=
  match a with
  | .parent e => do
    let parent ← s.parent.step k e
    let s := match e with
      | .wake ready => s.onKids (fun p => ready.contains p.pipe) fun kid =>
        { kid with up := kid.up.report }
      | .die pid => s.onKids (fun p => p.pid == pid) fun kid => { kid with up := kid.up.hangup }
      | _ => s
    .ok { s with parent := parent }
  | .notify => match s.parent.ctl with
    | .batch (sockfd :: _) => notifyBranch k s sockfd
    | _ => .ok s
  | .wake c ready => .ok (s.onKid c fun kid =>
      { kid with
        down := if ready.contains .pipe then kid.down.report else kid.down
        ctl := .batch ready })
  | .receive c m => match s.proc c, (s.kids c).ctl with
    | some p, .batch (.conn :: todo) =>
      clientBranch (s.onKid c fun kid => { kid with ctl := .batch todo }) p m
    | _, _ => .ok s
  | .answer c => match s.proc c, (s.kids c).ctl with
    | some p, .batch (.pipe :: todo) =>
      pipeBranch (s.onKid c fun kid => { kid with ctl := .batch todo }) p
    | _, _ => .ok s
  | .endBatch c => .ok (s.onKid c fun kid => { kid with ctl := .waiting })

/-- The event does not depend on what is in a pipe. -/
def Event.ofParent : Event → Bool
  | .notify _ => false
  | _ => true

/-- A child runs: it was forked and has not exited. -/
def System.Live (s : System) (c : Nat) : Prop :=
  ∃ p ∈ s.parent.kernel.procs, p.serial = c ∧ p.dead = false

instance (s : System) (c : Nat) : Decidable (s.Live c) :=
  inferInstanceAs (Decidable (∃ p ∈ s.parent.kernel.procs, p.serial = c ∧ p.dead = false))

/-- What can happen next: the parent's steps as the kernel allows them, and the steps of
live children from where they stand. -/
def System.Allowed (k : Setup) (s : System) : Act → Prop
  | .parent e => e.ofParent = true ∧ s.parent.Allowed k e
  | .notify => s.parent.Allowed k (.notify none)
  | .wake c ready => s.Live c ∧ (s.kids c).ctl = .waiting ∧ ready.Nodup
  | .receive c _ => s.Live c ∧ (s.kids c).ctl.todo.head? = some .conn
  | .answer c => s.Live c ∧ (s.kids c).ctl.todo.head? = some .pipe
  | .endBatch c => s.Live c ∧ (s.kids c).ctl = .batch []

instance (k : Setup) (s : System) : ∀ a, Decidable (s.Allowed k a)
  | .parent e => inferInstanceAs (Decidable (e.ofParent = true ∧ s.parent.Allowed k e))
  | .notify => inferInstanceAs (Decidable (s.parent.Allowed k (.notify none)))
  | .wake c ready =>
    inferInstanceAs (Decidable (s.Live c ∧ (s.kids c).ctl = .waiting ∧ ready.Nodup))
  | .receive c _ => inferInstanceAs (Decidable (s.Live c ∧ (s.kids c).ctl.todo.head? = some .conn))
  | .answer c => inferInstanceAs (Decidable (s.Live c ∧ (s.kids c).ctl.todo.head? = some .pipe))
  | .endBatch c => inferInstanceAs (Decidable (s.Live c ∧ (s.kids c).ctl = .batch []))

/-- The server when the parent first enters its loop. -/
def System.start (k : Setup) (users : Nat → ClientData) : System where
  parent := .start k users
  kids := fun _ => .forked
  shm := fun _ => zeroPadded []
  writes := []
  answers := []

/-- The server and its environment. -/
def system (k : Setup) (users : Nat → ClientData) : Machine System Act Fault where
  init := .start k users
  Allowed := System.Allowed k
  step := System.step k

instance (k : Setup) (users : Nat → ClientData) (s : System) (a : Act) :
    Decidable ((system k users).Allowed s a) :=
  inferInstanceAs (Decidable (s.Allowed k a))

end Chat

end LinuxWebsocket
