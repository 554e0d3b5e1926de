import LinuxWebsocket.Lib.Machine
import LinuxWebsocket.Memory
import Mathlib.Tactic.Common

/-!
# The parent of the process pool

The constructor of `processpool` in the parent, and `run_parent`. Each step is one event
of a batch, one signal byte, or one `waitpid`; the environment picks what the system
calls return. The dispatch branch sends to `m_sub_process[i]`, where `i` is the position
of the event in its batch and may lie behind the array; what is read there is left open.
-/

namespace LinuxWebsocket

namespace Pool

/-- `MAX_PROCESS_NUMBER` -/
def maxProcessNumber : Nat := 16

/-- `new_conn`: what a notification carries. -/
def newConn : Nat := 1

/-- `class process` -/
structure Process where
  mPid : Int
  mPipefd : Nat × Nat
  deriving DecidableEq, Repr

/-- What `socketpair` and `fork` yield in the parent. -/
structure Forked where
  pid : Nat
  pipefd : Nat × Nat
  deriving DecidableEq, Repr

/-- How a pool is created, and the descriptors it works on. -/
structure Setup where
  mListenfd : Nat
  mEpollfd : Nat
  /-- `sig_pipefd[0]` -/
  sigfd : Nat
  mProcessNumber : Nat
  /-- What the calls of the constructor yield for each child. -/
  forks : Nat → Forked
  /-- What lies in memory behind `m_sub_process`. -/
  behind : Nat → Process
  /-- The assertion of the constructor. -/
  admitted : 0 < mProcessNumber ∧ mProcessNumber < maxProcessNumber
  pid_pos : ∀ k, k < mProcessNumber → 0 < (forks k).pid
  pid_inj : ∀ j k, j < mProcessNumber → k < mProcessNumber → (forks j).pid = (forks k).pid → j = k
  /-- The parent's ends of the pipes are open all at once, with the other descriptors. -/
  pipe_inj : ∀ j k, j < mProcessNumber → k < mProcessNumber →
    (forks j).pipefd.1 = (forks k).pipefd.1 → j = k
  pipe_ne : ∀ k, k < mProcessNumber →
    (forks k).pipefd.1 ≠ mListenfd ∧ (forks k).pipefd.1 ≠ mEpollfd ∧ (forks k).pipefd.1 ≠ sigfd
  listen_ne : mListenfd ≠ sigfd

/-- A signal byte. -/
inductive Signal
  | chld
  | term
  | int
  | other
  deriving DecidableEq, Repr

/-- What became of a child. -/
inductive Life
  | running
  | exited
  /-- `waitpid` returned it. -/
  | reaped
  deriving DecidableEq, Repr

/-- Where the loop is; `i` and `todo` are the position in the batch and the events from
there on, the one being handled left out. -/
inductive Ctl
  /-- Blocked in `epoll_wait`. -/
  | waiting
  /-- In the `for` loop over the events. -/
  | batch (i : Nat) (todo : List Nat)
  /-- In the `for` loop over the signal bytes, with these to go. -/
  | signals (bytes : List Signal) (i : Nat) (todo : List Nat)
  /-- In the `waitpid` loop of a `SIGCHLD` byte. -/
  | reaping (bytes : List Signal) (i : Nat) (todo : List Nat)
  /-- The `while` loop was left through `m_stop`. -/
  | left
  /-- The `while` loop was left because `epoll_wait` failed. -/
  | failed
  deriving DecidableEq, Repr

/-- The parent. -/
structure Parent where
  mSubProcess : Nat → Process
  subProcessCounter : Nat
  mStop : Bool
  ctl : Ctl
  /-- The children, by their index in the pool. -/
  life : Nat → Life
  /-- The descriptors `run_parent` closed, latest first. -/
  closed : List Nat
  /-- The numbers `kill` was called on, latest call first. -/
  killed : List Int
  /-- The indices into `m_sub_process` and the descriptors of the notifications sent,
  latest first. -/
  sent : List (Nat × Nat)

/-- What the environment makes the loop do next. -/
inductive Event
  /-- `epoll_wait` reports these descriptors; it reports none if a signal interrupts it. -/
  | wake (ready : List Nat)
  /-- `epoll_wait` fails. -/
  | fail
  /-- The listening socket is handled. -/
  | dispatch
  /-- `recv` on `sig_pipefd[0]` yields these bytes, none if it fails. -/
  | signals (bytes : List Signal)
  /-- The next signal byte is handled; behind the last one the `for` loop ends. -/
  | byte
  /-- `waitpid` returns a child, or nothing positive. -/
  | waitpid (pid : Option Nat)
  /-- Another descriptor is passed over. -/
  | skip
  /-- The batch is done. -/
  | endBatch
  /-- A child exits. -/
  | die (k : Nat)
  deriving DecidableEq, Repr

variable (c : Setup)

/-- The constructor's loop behind a `fork`, in the parent. -/
def Parent.fork (s : Parent) (i : Nat) (f : Forked) : Parent :=
  { s with mSubProcess := Function.update s.mSubProcess i ⟨f.pid, f.pipefd⟩ }

/-- The pool before its first `fork`. -/
def Parent.blank : Parent where
  mSubProcess := fun k => if k < c.mProcessNumber then ⟨-1, (0, 0)⟩ else c.behind k
  subProcessCounter := 0
  mStop := false
  ctl := .waiting
  life := fun _ => .running
  closed := []
  killed := []
  sent := []

/-- The parent when it first enters the loop. -/
def Parent.start : Parent :=
  (List.range c.mProcessNumber).foldl (fun s i => s.fork i (c.forks i)) (.blank c)

/-- The `do .. while` loop of the dispatch branch from `j` on, for at most so many rounds. -/
def search (s : Parent) : Nat → Nat → Except Fault Nat
  | 0, _ => .error .diverges
  | rounds + 1, j =>
    if (s.mSubProcess j).mPid ≠ -1 then .ok j
    else
      let j := (j + 1) % c.mProcessNumber
      if j ≠ s.subProcessCounter then search s rounds j else .ok j

/-- The branch of the listening socket, for the event at position `i`. -/
def dispatch (s : Parent) (i : Nat) (todo : List Nat) : Except Fault Parent := do
  let j ← search c s c.mProcessNumber s.subProcessCounter
  if (s.mSubProcess j).mPid = -1 then
    .ok { s with mStop := true, ctl := .batch i [] }
  else
    .ok { s with
      subProcessCounter := (j + 1) % c.mProcessNumber
      sent := (i, (s.mSubProcess i).mPipefd.1) :: s.sent
      ctl := .batch (i + 1) todo }

/-- `waitpid` returns a number. -/
def Parent.waited (s : Parent) (pid : Nat) : Parent :=
  { s with life := fun k =>
      if k < c.mProcessNumber ∧ (c.forks k).pid = pid then .reaped else s.life k }

/-- The body of the `for` loop behind `waitpid`. -/
def join (pid : Int) (s : Parent) (k : Nat) : Parent :=
  if (s.mSubProcess k).mPid = pid then
    { s with
      closed := (s.mSubProcess k).mPipefd.1 :: s.closed
      mSubProcess := Function.update s.mSubProcess k { s.mSubProcess k with mPid := -1 } }
  else s

/-- The body of the `waitpid` loop. -/
def reap (s : Parent) (pid : Nat) : Parent :=
  (List.range c.mProcessNumber).foldl (join pid) (s.waited c pid)

/-- `m_stop` behind the `waitpid` loop. -/
def stopped (s : Parent) : Bool :=
  (List.range c.mProcessNumber).foldl
    (fun stop k => if (s.mSubProcess k).mPid ≠ -1 then false else stop) true

/-- The numbers the branch of `SIGTERM` and `SIGINT` passes to `kill`, in order. -/
def killTargets (s : Parent) : List Int :=
  ((List.range c.mProcessNumber).map fun k => (s.mSubProcess k).mPid).filter fun pid => pid ≠ -1

/-- One signal byte. -/
def signalByte (s : Parent) (bytes : List Signal) (i : Nat) (todo : List Nat) : Signal → Parent
  | .chld => { s with ctl := .reaping bytes i todo }
  | .term | .int =>
    { s with killed := (killTargets c s).reverse ++ s.killed, ctl := .signals bytes i todo }
  | .other => { s with ctl := .signals bytes i todo }

/-- What `run_parent` does behind its loop. -/
def Parent.leave (s : Parent) (ctl : Ctl) : Parent :=
  { s with closed := c.mEpollfd :: c.mListenfd :: s.closed, ctl := ctl }

/-- One step of `run_parent` from where it stands, or of a child's exit. -/
def Parent.step (s : Parent) (e : Event) : Except Fault Parent :=
  match s.ctl, e with
  | _, .die k => .ok { s with life := Function.update s.life k .exited }
  | .waiting, .wake ready => .ok { s with ctl := .batch 0 ready }
  | .waiting, .fail => .ok (s.leave c .failed)
  | .batch i (_ :: todo), .dispatch => dispatch c s i todo
  | .batch i (_ :: todo), .signals bytes => .ok { s with ctl := .signals bytes i todo }
  | .signals (b :: bytes) i todo, .byte => .ok (signalByte c s bytes i todo b)
  | .signals [] i todo, .byte => .ok { s with ctl := .batch (i + 1) todo }
  | .reaping _ _ _, .waitpid (some pid) => .ok (reap c s pid)
  | .reaping bytes i todo, .waitpid none =>
    .ok { s with mStop := stopped c s, ctl := .signals bytes i todo }
  | .batch i (_ :: todo), .skip => .ok { s with ctl := .batch (i + 1) todo }
  | .batch _ [], .endBatch => .ok (if s.mStop then s.leave c .left else { s with ctl := .waiting })
  | _, _ => .ok s

/-- The event is one the loop can meet where it stands. -/
def Parent.at (s : Parent) (e : Event) : Bool :=
  match s.ctl, e with
  | _, .die _ => true
  | .waiting, .wake _ => true
  | .waiting, .fail => true
  | .batch _ (sockfd :: _), .dispatch => sockfd = c.mListenfd
  | .batch _ (sockfd :: _), .signals _ => sockfd ≠ c.mListenfd ∧ sockfd = c.sigfd
  | .signals _ _ _, .byte => true
  | .reaping _ _ _, .waitpid _ => true
  | .batch _ (sockfd :: _), .skip => sockfd ≠ c.mListenfd ∧ sockfd ≠ c.sigfd
  | .batch _ [], .endBatch => true
  | _, _ => false

/-- What the kernel promises of an event: `waitpid` returns a positive number, which is
not that of a running child, and may be that of a child the pool did not make. -/
def Parent.Kernel (s : Parent) : Event → Prop
  | .waitpid pid => ∀ x ∈ pid, 0 < x ∧
    ∀ k, k < c.mProcessNumber → (c.forks k).pid = x → s.life k ≠ .running
  | .die k => k < c.mProcessNumber ∧ s.life k = .running
  | _ => True

instance (s : Parent) : ∀ e, Decidable (s.Kernel c e)
  | .waitpid none => isTrue nofun
  | .waitpid (some x) => decidable_of_iff (0 < x ∧
      ∀ k, k < c.mProcessNumber → (c.forks k).pid = x → s.life k ≠ .running)
      (by simp [Parent.Kernel])
  | .die k => inferInstanceAs (Decidable (k < c.mProcessNumber ∧ s.life k = .running))
  | .wake _ => inferInstanceAs (Decidable True)
  | .fail => inferInstanceAs (Decidable True)
  | .dispatch => inferInstanceAs (Decidable True)
  | .signals _ => inferInstanceAs (Decidable True)
  | .byte => inferInstanceAs (Decidable True)
  | .skip => inferInstanceAs (Decidable True)
  | .endBatch => inferInstanceAs (Decidable True)

/-- What the environment may do. -/
def Parent.Allowed (s : Parent) (e : Event) : Prop := s.at c e = true ∧ s.Kernel c e

instance (s : Parent) (e : Event) : Decidable (s.Allowed c e) :=
  inferInstanceAs (Decidable (s.at c e = true ∧ s.Kernel c e))

/-- The parent, its children's exits and its environment. -/
def parentMachine : Machine Parent Event Fault where
  init := .start c
  Allowed := Parent.Allowed c
  step := Parent.step c

instance (s : Parent) (e : Event) : Decidable ((parentMachine c).Allowed s e) :=
  inferInstanceAs (Decidable (s.Allowed c e))

end Pool

end LinuxWebsocket
