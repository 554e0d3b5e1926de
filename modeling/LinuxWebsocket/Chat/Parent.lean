import LinuxWebsocket.Lib.CompactTable
import LinuxWebsocket.Lib.Machine
import LinuxWebsocket.Memory
import Mathlib.Data.Finset.Basic

/-!
# The parent of the chat server

The event loop of `main` in `multiprocessingChatServer.cpp`. Each step is one
event of a batch, one signal byte, or one `waitpid`; the environment picks what
the system calls return. The kernel's side holds the open and registered
descriptors and the children not yet waited for.
-/

namespace LinuxWebsocket

namespace Chat

open CompactTable

/-- `USER_LIMIT` -/
def userLimit : Nat := 5

/-- `PROCESS_LIMIT`: the length of `sub_process`. -/
def processLimit : Nat := 4194304

/-- `struct client_data`; the peer address is stored and never read. -/
structure ClientData where
  connfd : Nat
  pid : Nat
  /-- The parent's end of the pipe. -/
  pipefd0 : Nat
  /-- The child's end. -/
  pipefd1 : Nat
  deriving DecidableEq, Repr

/-- A child of the parent not yet waited for. -/
structure Proc where
  pid : Nat
  /-- The first argument of its `run_child`: `user_count` at the fork. -/
  idx : Nat
  /-- The parent's end of the pipe to it. -/
  pipe : Nat
  /-- How many children were forked before it. -/
  serial : Nat
  /-- It has exited. -/
  dead : Bool
  deriving DecidableEq, Repr

/-- What the kernel knows of the parent. -/
structure Kernel where
  /-- The parent's open descriptors. -/
  fds : Finset Nat
  /-- The descriptors registered with `epollfd`. -/
  interest : Finset Nat
  /-- The children not yet waited for, oldest first. -/
  procs : List Proc
  /-- How many children were ever forked. -/
  forks : Nat

/-- A signal byte. -/
inductive Signal
  | chld
  | term
  | int
  | other
  deriving DecidableEq, Repr

/-- Where the loop is. -/
inductive Ctl
  /-- Blocked in `epoll_wait`. -/
  | waiting
  /-- In the `for` loop over the events, with these to go. -/
  | batch (todo : List Nat)
  /-- In the `for` loop over the signal bytes, with these to go. -/
  | signals (bytes : List Signal) (todo : List Nat)
  /-- In the `waitpid` loop of a `SIGCHLD` byte. -/
  | reaping (bytes : List Signal) (todo : List Nat)
  /-- The `while` loop was left through `stop_server`. -/
  | left
  /-- The `while` loop was left because `epoll_wait` failed. -/
  | failed
  /-- An assertion ended the process. -/
  | aborted
  deriving DecidableEq, Repr

/-- The events of the batch still to be handled. -/
def Ctl.todo : Ctl → List Nat
  | .batch todo => todo
  | .signals _ todo => todo
  | .reaping _ todo => todo
  | _ => []

/-- The parent. -/
structure Parent where
  users : Nat → ClientData
  subProcess : Nat → Int
  userCount : Nat
  stopServer : Bool
  terminate : Bool
  ctl : Ctl
  kernel : Kernel
  /-- The children `kill` was called on, latest call first. -/
  killed : List Nat
  /-- The indices written and the descriptors they were written to, latest write first. -/
  sent : List (Nat × Nat)
  /-- A `SIGTERM` or `SIGINT` byte was handled. -/
  asked : Bool

/-- The descriptors `main` opens before the loop. -/
structure Setup where
  listenfd : Nat
  /-- `sig_pipefd[0]` -/
  sigfd : Nat
  /-- Every descriptor open before the first `accept`. -/
  base : Finset Nat
  listen_mem : listenfd ∈ base
  sig_mem : sigfd ∈ base
  ne : listenfd ≠ sigfd

/-- What the calls in the branch of the listening socket return; `none` is a failure. -/
structure Accepted where
  connfd : Option Nat
  /-- The pair `socketpair` fills in. -/
  pipefd : Option (Nat × Nat)
  /-- `fork` in the parent. -/
  pid : Option Nat
  deriving DecidableEq, Repr

/-- What the environment makes the loop do next. -/
inductive Event
  /-- `epoll_wait` reports these descriptors. -/
  | wake (ready : List Nat)
  /-- `epoll_wait` fails. -/
  | fail
  /-- The listening socket is handled. -/
  | accept (a : Accepted)
  /-- `recv` on `sig_pipefd[0]` yields these bytes. -/
  | signals (bytes : List Signal)
  /-- The next signal byte is handled; behind the last one the `for` loop ends. -/
  | byte
  /-- `waitpid` returns a child, or nothing positive. -/
  | waitpid (pid : Option Nat)
  /-- `recv` on another descriptor yields an index, or nothing. -/
  | notify (idx : Option Nat)
  /-- The batch is done. -/
  | endBatch
  /-- A child exits. -/
  | die (pid : Nat)
  deriving DecidableEq, Repr

/-- `users[i]` -/
def Parent.user (s : Parent) (i : Nat) : Except Fault ClientData :=
  if i ≤ userLimit then .ok (s.users i) else .error .outOfRange

/-- `users[i] = c` -/
def Parent.setUser (s : Parent) (i : Nat) (c : ClientData) : Except Fault Parent :=
  if i ≤ userLimit then .ok { s with users := Function.update s.users i c }
  else .error .outOfRange

/-- `sub_process[pid]` -/
def Parent.idxOf (s : Parent) (pid : Nat) : Except Fault Int :=
  if pid < processLimit then .ok (s.subProcess pid) else .error .outOfRange

/-- `sub_process[pid] = z` -/
def Parent.setIdx (s : Parent) (pid : Nat) (z : Int) : Except Fault Parent :=
  if pid < processLimit then .ok { s with subProcess := Function.update s.subProcess pid z }
  else .error .outOfRange

/-- `users[0]` to `users[user_count - 1]`, as the loops over the clients read them. -/
def Parent.clients (s : Parent) : Except Fault (List ClientData) :=
  (List.range s.userCount).mapM s.user

/-- Descriptors come open. -/
def Parent.opened (s : Parent) (fds : List Nat) : Parent :=
  { s with kernel := { s.kernel with fds := s.kernel.fds ∪ fds.toFinset } }

/-- `close(fd)`, which also ends the registration of `fd`. -/
def Parent.close (s : Parent) (fd : Nat) : Parent :=
  { s with kernel := { s.kernel with
      fds := s.kernel.fds.erase fd
      interest := s.kernel.interest.erase fd } }

/-- `addfd(epollfd, fd)` -/
def Parent.addfd (s : Parent) (fd : Nat) : Parent :=
  { s with kernel := { s.kernel with interest := insert fd s.kernel.interest } }

/-- `fork` makes a child that will run `run_child(idx, ..)` on the pipe. -/
def Parent.forked (s : Parent) (pid idx pipe : Nat) : Parent :=
  { s with kernel := { s.kernel with
      procs := s.kernel.procs ++ [⟨pid, idx, pipe, s.kernel.forks, false⟩]
      forks := s.kernel.forks + 1 } }

/-- `waitpid` takes a child off the process table. -/
def Parent.waited (s : Parent) (pid : Nat) : Parent :=
  { s with kernel := { s.kernel with procs := s.kernel.procs.filter fun p => p.pid ≠ pid } }

/-- A child exits. -/
def Parent.died (s : Parent) (pid : Nat) : Parent :=
  { s with kernel := { s.kernel with
      procs := s.kernel.procs.map fun p => if p.pid = pid then { p with dead := true } else p } }

/-- The parent's path behind a `fork` that made a child. -/
def register (s : Parent) (connfd pid : Nat) (c : ClientData) : Except Fault Parent := do
  let s := (s.forked pid s.userCount c.pipefd0).close connfd
  let s := (s.close c.pipefd1).addfd c.pipefd0
  let s ← s.setUser s.userCount { c with pid := pid }
  let s ← s.setIdx pid s.userCount
  .ok { s with userCount := s.userCount + 1 }

/-- The branch of the listening socket. -/
def acceptBranch (s : Parent) (a : Accepted) : Except Fault Parent :=
  match a.connfd with
  | none => .ok s
  | some connfd =>
    if userLimit ≤ s.userCount then
      .ok ((s.opened [connfd]).close connfd)
    else
      match a.pipefd with
      | none => .ok { s.opened [connfd] with ctl := .aborted }
      | some (fd0, fd1) => do
        let c ← s.user s.userCount
        let c := { c with connfd := connfd, pipefd0 := fd0, pipefd1 := fd1 }
        let s ← (s.opened [connfd, fd0, fd1]).setUser s.userCount c
        match a.pid with
        | none => .ok (s.close connfd)
        | some pid => register s connfd pid c

/-- The body of the `waitpid` loop. -/
def reap (s : Parent) (pid : Nat) : Except Fault Parent := do
  let s := s.waited pid
  let dead ← s.idxOf pid
  let s ← s.setIdx pid (-1)
  if dead < 0 ∨ userLimit < dead then
    .ok s
  else
    let i := dead.toNat
    let c ← s.user i
    let s := s.close c.pipefd0
    if s.userCount = 0 then
      .error .outOfRange
    else
      let s := { s with userCount := s.userCount - 1 }
      let last ← s.user s.userCount
      let s ← s.setUser i last
      s.setIdx last.pid dead

/-- The test behind the `waitpid` loop. -/
def endReap (s : Parent) : Parent :=
  if s.terminate ∧ s.userCount = 0 then { s with stopServer := true } else s

/-- The branch of `SIGTERM` and `SIGINT`. -/
def terminateBranch (s : Parent) : Except Fault Parent := do
  let s := { s with asked := true }
  if s.userCount = 0 then
    .ok { s with stopServer := true }
  else
    let cs ← s.clients
    .ok { s with killed := (cs.map ClientData.pid).reverse ++ s.killed, terminate := true }

/-- The descriptors an index read from `sockfd` is forwarded to. -/
def broadcastTargets (s : Parent) (sockfd : Nat) : Except Fault (List Nat) := do
  let cs ← s.clients
  .ok ((cs.map ClientData.pipefd0).filter fun fd => fd ≠ sockfd)

/-- The branch of the pipes. -/
def broadcastBranch (s : Parent) (sockfd : Nat) (idx : Option Nat) : Except Fault Parent :=
  match idx with
  | none => .ok s
  | some idx => do
    let fds ← broadcastTargets s sockfd
    .ok { s with sent := (fds.map fun fd => (fd, idx)).reverse ++ s.sent }

/-- One signal byte. -/
def signalByte (s : Parent) (bytes : List Signal) (todo : List Nat) : Signal → Except Fault Parent
  | .chld => .ok { s with ctl := .reaping bytes todo }
  | .term => terminateBranch { s with ctl := .signals bytes todo }
  | .int => terminateBranch { s with ctl := .signals bytes todo }
  | .other => .ok { s with ctl := .signals bytes todo }

/-- One step of `main` from where it stands, or of a child's exit. -/
def Parent.step (k : Setup) (s : Parent) (e : Event) : Except Fault Parent :=
  match s.ctl, e with
  | _, .die pid => .ok (s.died pid)
  | .waiting, .wake ready => .ok { s with ctl := .batch ready }
  | .waiting, .fail => .ok { s with ctl := .failed }
  | .batch (sockfd :: todo), .accept a =>
    if sockfd = k.listenfd then acceptBranch { s with ctl := .batch todo } a else .ok s
  | .batch (sockfd :: todo), .signals bytes =>
    if sockfd = k.sigfd then .ok { s with ctl := .signals bytes todo } else .ok s
  | .signals (b :: bytes) todo, .byte => signalByte s bytes todo b
  | .signals [] todo, .byte => .ok { s with ctl := .batch todo }
  | .reaping _ _, .waitpid (some pid) => reap s pid
  | .reaping bytes todo, .waitpid none => .ok (endReap { s with ctl := .signals bytes todo })
  | .batch (sockfd :: todo), .notify idx =>
    if sockfd ≠ k.listenfd ∧ sockfd ≠ k.sigfd then
      broadcastBranch { s with ctl := .batch todo } sockfd idx
    else .ok s
  | .batch [], .endBatch => .ok { s with ctl := if s.stopServer then .left else .waiting }
  | _, _ => .ok s

/-- The event is one the loop can meet where it stands. -/
def Parent.at (k : Setup) (s : Parent) (e : Event) : Bool :=
  match s.ctl, e with
  | _, .die _ => true
  | .waiting, .wake _ => true
  | .waiting, .fail => true
  | .batch (sockfd :: _), .accept _ => sockfd = k.listenfd
  | .batch (sockfd :: _), .signals _ => sockfd = k.sigfd
  | .signals _ _, .byte => true
  | .reaping _ _, .waitpid _ => true
  | .batch (sockfd :: _), .notify _ => sockfd ≠ k.listenfd ∧ sockfd ≠ k.sigfd
  | .batch [], .endBatch => true
  | _, _ => false

/-- What the kernel promises of an event: `epoll_wait` reports registered
descriptors, each once; new descriptors are not open yet; `fork` returns a
positive number below `PROCESS_LIMIT` that no child has; `waitpid` returns a child
that has exited. -/
def Parent.Kernel (s : Parent) : Event → Prop
  | .wake ready => ready.Nodup ∧ ∀ fd ∈ ready, fd ∈ s.kernel.interest
  | .accept a =>
    (∀ fd ∈ a.connfd, fd ∉ s.kernel.fds) ∧
    (∀ c ∈ a.pipefd, c.1 ∉ s.kernel.fds ∧ c.2 ∉ s.kernel.fds ∧ c.1 ≠ c.2 ∧
      some c.1 ≠ a.connfd ∧ some c.2 ≠ a.connfd) ∧
    ∀ pid ∈ a.pid, 0 < pid ∧ pid < processLimit ∧ ∀ p ∈ s.kernel.procs, p.pid ≠ pid
  | .waitpid pid => ∀ x ∈ pid, ∃ p ∈ s.kernel.procs, p.pid = x ∧ p.dead = true
  | .die pid => ∃ p ∈ s.kernel.procs, p.pid = pid ∧ p.dead = false
  | _ => True

instance (s : Parent) : ∀ e, Decidable (s.Kernel e)
  | .wake ready =>
    inferInstanceAs (Decidable (ready.Nodup ∧ ∀ fd ∈ ready, fd ∈ s.kernel.interest))
  | .accept a => inferInstanceAs (Decidable ((∀ fd ∈ a.connfd, fd ∉ s.kernel.fds) ∧
    (∀ c ∈ a.pipefd, c.1 ∉ s.kernel.fds ∧ c.2 ∉ s.kernel.fds ∧ c.1 ≠ c.2 ∧
      some c.1 ≠ a.connfd ∧ some c.2 ≠ a.connfd) ∧
    ∀ pid ∈ a.pid, 0 < pid ∧ pid < processLimit ∧ ∀ p ∈ s.kernel.procs, p.pid ≠ pid))
  | .waitpid pid => inferInstanceAs
    (Decidable (∀ x ∈ pid, ∃ p ∈ s.kernel.procs, p.pid = x ∧ p.dead = true))
  | .die pid => inferInstanceAs
    (Decidable (∃ p ∈ s.kernel.procs, p.pid = pid ∧ p.dead = false))
  | .fail => inferInstanceAs (Decidable True)
  | .signals _ => inferInstanceAs (Decidable True)
  | .byte => inferInstanceAs (Decidable True)
  | .notify _ => inferInstanceAs (Decidable True)
  | .endBatch => inferInstanceAs (Decidable True)

/-- What the environment may do. -/
def Parent.Allowed (k : Setup) (s : Parent) (e : Event) : Prop := s.at k e = true ∧ s.Kernel e

instance (k : Setup) (s : Parent) (e : Event) : Decidable (s.Allowed k e) :=
  inferInstanceAs (Decidable (s.at k e = true ∧ s.Kernel e))

/-- The parent when it first enters the loop. `users` is not initialised. -/
def Parent.start (k : Setup) (users : Nat → ClientData) : Parent where
  users := users
  subProcess := fun _ => -1
  userCount := 0
  stopServer := false
  terminate := false
  ctl := .waiting
  kernel := ⟨k.base, {k.listenfd, k.sigfd}, [], 0⟩
  killed := []
  sent := []
  asked := false

/-- The parent, its children's exits and its environment. -/
def parentMachine (k : Setup) (users : Nat → ClientData) : Machine Parent Event Fault where
  init := .start k users
  Allowed := Parent.Allowed k
  step := Parent.step k

instance (k : Setup) (users : Nat → ClientData) (s : Parent) (e : Event) :
    Decidable ((parentMachine k users).Allowed s e) :=
  inferInstanceAs (Decidable (s.Allowed k e))

end Chat

end LinuxWebsocket
