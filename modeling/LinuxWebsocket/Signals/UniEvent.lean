import LinuxWebsocket.Lib.Machine
import LinuxWebsocket.Lib.SignalLoop
import Mathlib.Data.Finset.Lattice.Lemmas
import Mathlib.Data.Finset.SDiff

/-!
# The unified event source

`main` of `unievent.cpp` from its loop on. Signals are caught by a handler that writes to
`pipefd[1]`, and the loop watches `pipefd[0]` beside the listening socket and whatever it
accepts. Accepted connections are registered, and nothing is ever done about them.
-/

namespace LinuxWebsocket

namespace UniEvent

open EdgeTriggered SignalLoop

/-- The signals with a handler. -/
inductive Signal
  | hup
  | chld
  | term
  | int
  deriving DecidableEq, Repr

/-- The signals whose bytes set `stop_server`. -/
def stops : Signal → Bool
  | .term | .int => true
  | _ => false

/-- The size of `signals`. -/
def signalsSize : Nat := 1024

/-- The descriptors open before the loop. -/
structure Setup where
  listenfd : Nat
  /-- `pipefd[0]` -/
  pipefd0 : Nat
  /-- `pipefd[1]` -/
  pipefd1 : Nat
  base : Finset Nat
  mem : {listenfd, pipefd0, pipefd1} ⊆ base
  ne : listenfd ≠ pipefd0

/-- The server. -/
structure Server where
  /-- The loop, with `stop_server` as the flag. -/
  loop : Loop Signal Nat
  /-- The open descriptors. -/
  fds : Finset Nat
  /-- The descriptors registered with `epollfd`. -/
  interest : Finset Nat
  /-- The connections accepted, latest first. -/
  conns : List Nat

/-- What happens next. -/
inductive Act
  /-- A signal is sent. -/
  | post (x : Signal)
  /-- A signal is delivered. -/
  | deliver (x : Signal)
  /-- `epoll_wait` reports these descriptors; it reports none if a signal interrupts it. -/
  | wake (ready : List Nat)
  /-- `epoll_wait` fails. -/
  | fail
  /-- `accept` returns. -/
  | accept (connfd : Option Nat)
  /-- The loop's next statement beside the branch of the listening socket. -/
  | run
  deriving DecidableEq

variable (k : Setup)

/-- A change to the loop. -/
def Server.onLoop (s : Server) (f : Loop Signal Nat → Loop Signal Nat) : Server :=
  { s with loop := f s.loop }

/-- `addfd(epollfd, connfd)` on what `accept` returned; it does nothing on a failure. -/
def Server.addfd (s : Server) : Option Nat → Server
  | none => s
  | some connfd =>
    { s with
      fds := insert connfd s.fds
      interest := insert connfd s.interest
      conns := connfd :: s.conns }

/-- What `main` does behind its loop. -/
def Server.close (s : Server) : Server :=
  { s with
    fds := s.fds \ {k.listenfd, k.pipefd0, k.pipefd1}
    interest := s.interest \ {k.listenfd, k.pipefd0, k.pipefd1} }

/-- `main` goes on behind its loop once that is left. -/
def Server.go (s : Server) (f : Loop Signal Nat → Loop Signal Nat) : Server :=
  if (f s.loop).ctl = .left then (s.onLoop f).close k else s.onLoop f

/-- One step of the server, or a signal. -/
def Server.step (s : Server) (a : Act) : Except Empty Server :=
  match a with
  | .post x => .ok (s.onLoop fun l => l.post stops x)
  | .deliver x => .ok (s.onLoop fun l => l.deliver x)
  | .wake ready => .ok (s.onLoop fun l => l.wake k.pipefd0 ready)
  | .fail => .ok (s.go k Loop.fail)
  | .accept connfd => .ok ((s.addfd connfd).onLoop (Loop.run stops k.pipefd0 signalsSize))
  | .run => .ok (s.go k (Loop.run stops k.pipefd0 signalsSize))

/-- What can happen next: `epoll_wait` reports registered descriptors, each once, and new
descriptors are not open yet. -/
def Server.Allowed (s : Server) : Act → Prop
  | .post _ => s.loop.ctl ≠ .left
  | .deliver x => s.loop.ctl ≠ .left ∧ x ∈ s.loop.sigs.pending
  | .wake ready => s.loop.ctl = .waiting ∧ ready.Nodup ∧ (∀ fd ∈ ready, fd ∈ s.interest) ∧
    (k.pipefd0 ∈ ready → s.loop.sigs.inbox.edge = true)
  | .fail => s.loop.ctl = .waiting
  | .accept connfd => s.loop.ctl.todo.head? = some k.listenfd ∧
    s.loop.ctl = .batch s.loop.ctl.todo ∧ ∀ fd ∈ connfd, fd ∉ s.fds
  | .run => s.loop.ctl ≠ .waiting ∧ s.loop.ctl ≠ .left ∧
    (s.loop.ctl = .batch s.loop.ctl.todo → s.loop.ctl.todo.head? ≠ some k.listenfd)

instance (s : Server) : ∀ a, Decidable (s.Allowed k a)
  | .post _ => inferInstanceAs (Decidable (s.loop.ctl ≠ .left))
  | .deliver x => inferInstanceAs (Decidable (s.loop.ctl ≠ .left ∧ x ∈ s.loop.sigs.pending))
  | .wake ready => inferInstanceAs (Decidable (s.loop.ctl = .waiting ∧ ready.Nodup ∧
      (∀ fd ∈ ready, fd ∈ s.interest) ∧
      (k.pipefd0 ∈ ready → s.loop.sigs.inbox.edge = true)))
  | .fail => inferInstanceAs (Decidable (s.loop.ctl = .waiting))
  | .accept connfd => inferInstanceAs (Decidable (s.loop.ctl.todo.head? = some k.listenfd ∧
      s.loop.ctl = .batch s.loop.ctl.todo ∧ ∀ fd ∈ connfd, fd ∉ s.fds))
  | .run => inferInstanceAs (Decidable (s.loop.ctl ≠ .waiting ∧ s.loop.ctl ≠ .left ∧
      (s.loop.ctl = .batch s.loop.ctl.todo → s.loop.ctl.todo.head? ≠ some k.listenfd)))

/-- The server when it first enters its loop. -/
def Server.start : Server := ⟨.start, k.base, {k.listenfd, k.pipefd0}, []⟩

/-- The server and its environment. -/
def machine : Machine Server Act Empty where
  init := .start k
  Allowed := Server.Allowed k
  step := Server.step k

/-- A signal is delivered only while its byte and those unread fit what the reports still to
be served have room for. -/
def Server.Fits (s : Server) : Act → Prop
  | .deliver x => s.loop.sigs.inbox.Fits signalsSize (s.loop.ctl.todo.contains k.pipefd0) [x]
  | _ => True

instance (s : Server) : ∀ a, Decidable (s.Fits k a)
  | .deliver x => inferInstanceAs (Decidable
      (s.loop.sigs.inbox.Fits signalsSize (s.loop.ctl.todo.contains k.pipefd0) [x]))
  | .post _ => inferInstanceAs (Decidable True)
  | .wake _ => inferInstanceAs (Decidable True)
  | .fail => inferInstanceAs (Decidable True)
  | .accept _ => inferInstanceAs (Decidable True)
  | .run => inferInstanceAs (Decidable True)

/-- The server where the signal pipe is read as fast as it is written. -/
def fitting : Machine Server Act Empty := (machine k).restrict (Server.Fits k)

instance (s : Server) (a : Act) : Decidable ((machine k).Allowed s a) :=
  inferInstanceAs (Decidable (s.Allowed k a))

instance (s : Server) (a : Act) : Decidable ((fitting k).Allowed s a) :=
  inferInstanceAs (Decidable (s.Allowed k a ∧ s.Fits k a))

variable {k} {s t : Server}

/-- The descriptors and the connections agree. -/
structure Inv (k : Setup) (s : Server) : Prop where
  running : s.loop.ctl ≠ .left → s.fds = k.base ∪ s.conns.toFinset ∧
    s.interest = {k.listenfd, k.pipefd0} ∪ s.conns.toFinset
  left : s.loop.ctl = .left →
    s.fds = k.base \ {k.listenfd, k.pipefd0, k.pipefd1} ∪ s.conns.toFinset ∧
      s.interest = s.conns.toFinset
  nodup : s.conns.Nodup
  fresh : Disjoint s.conns.toFinset k.base

/-- The server starts without a connection. -/
theorem inv_start (k : Setup) : Inv k (.start k) where
  running _ := by simp [Server.start]
  left h := by cases h
  nodup := List.nodup_nil
  fresh := by simp [Server.start]

/-- Where the loop is does not matter as long as it is not left. -/
theorem Inv.onLoop (h : Inv k s) {f : Loop Signal Nat → Loop Signal Nat}
    (hctl : s.loop.ctl ≠ .left) (hf : (f s.loop).ctl ≠ .left) : Inv k (s.onLoop f) :=
  ⟨fun _ => h.running hctl, fun hl => absurd hl hf, h.nodup, h.fresh⟩

/-- Behind the loop the listening socket and the pipe are closed, and nothing else. -/
theorem Inv.go (h : Inv k s) (f : Loop Signal Nat → Loop Signal Nat)
    (hctl : s.loop.ctl ≠ .left) : Inv k (s.go k f) := by
  unfold Server.go
  split
  case isFalse hf => exact h.onLoop hctl hf
  case isTrue hf =>
    obtain ⟨hfds, hinterest⟩ := h.running hctl
    have hkeep : Disjoint s.conns.toFinset {k.listenfd, k.pipefd0, k.pipefd1} :=
      h.fresh.mono_right k.mem
    refine ⟨fun hl => absurd hf hl, fun _ => ⟨?_, ?_⟩, h.nodup, h.fresh⟩
    · change s.fds \ {k.listenfd, k.pipefd0, k.pipefd1} = _
      rw [hfds, Finset.union_sdiff_distrib, Finset.sdiff_eq_self_of_disjoint hkeep]
      rfl
    · change s.interest \ {k.listenfd, k.pipefd0, k.pipefd1} = _
      rw [hinterest, Finset.union_sdiff_distrib, Finset.sdiff_eq_self_of_disjoint hkeep]
      change _ = s.conns.toFinset
      ext fd
      simp only [Finset.mem_union, Finset.mem_sdiff, Finset.mem_insert, Finset.mem_singleton]
      tauto

/-- An accepted connection is open and registered. -/
theorem Inv.addfd (h : Inv k s) {connfd : Option Nat} (hctl : s.loop.ctl ≠ .left)
    (hfresh : ∀ fd ∈ connfd, fd ∉ s.fds) : Inv k (s.addfd connfd) := by
  cases connfd with
  | none => exact h
  | some fd =>
      obtain ⟨hfds, hinterest⟩ := h.running hctl
      have hnew := hfresh fd rfl
      rw [hfds, Finset.notMem_union] at hnew
      refine ⟨fun _ => ⟨?_, ?_⟩, fun hl => absurd hl hctl, ?_, ?_⟩
      · simp only [Server.addfd, hfds, List.toFinset_cons, Finset.union_insert]
      · simp only [Server.addfd, hinterest, List.toFinset_cons, Finset.union_insert]
      · exact List.nodup_cons.mpr ⟨by simpa using hnew.2, h.nodup⟩
      · simpa [Server.addfd] using ⟨hnew.1, h.fresh⟩

/-- Serving the listening socket does not leave the loop. -/
theorem run_ne_left {fd : Nat} {todo : List Nat} {l : Loop Signal Nat}
    (hctl : l.ctl = .batch (fd :: todo)) :
    (l.run stops k.pipefd0 signalsSize).ctl ≠ .left := by
  simp only [Loop.run, hctl]
  split <;> simp

/-- Every step keeps descriptors and connections in agreement. -/
theorem Inv.step (h : Inv k s) {a : Act} (ha : s.Allowed k a) (hs : s.step k a = .ok t) :
    Inv k t := by
  cases a with
  | post x =>
      obtain rfl := Except.ok.inj hs
      exact h.onLoop ha ha
  | deliver x =>
      obtain rfl := Except.ok.inj hs
      exact h.onLoop ha.1 ha.1
  | wake ready =>
      obtain rfl := Except.ok.inj hs
      exact h.onLoop (by simp [ha.1]) (by simp [Loop.wake])
  | fail =>
      obtain rfl := Except.ok.inj hs
      have hctl : s.loop.ctl = .waiting := ha
      exact h.go _ (by simp [hctl])
  | accept connfd =>
      obtain rfl := Except.ok.inj hs
      obtain ⟨hhead, hctl, hfresh⟩ := ha
      obtain ⟨todo, htodo⟩ := List.head?_eq_some_iff.mp hhead
      rw [htodo] at hctl
      have hin : (s.addfd connfd).loop = s.loop := by cases connfd <;> rfl
      refine (h.addfd (by simp [hctl]) hfresh).onLoop (by simp [hin, hctl]) ?_
      rw [hin]
      exact run_ne_left hctl
  | run =>
      obtain rfl := Except.ok.inj hs
      exact h.go _ ha.2.1

/-- Descriptors and connections agree in every run. -/
theorem inv_of_run {as : List Act} (h : (machine k).Run as s) : Inv k s := by
  apply h.invariant (inv_start k)
  intro s a t hi ha hs
  exact hi.step ha hs

@[simp] theorem loop_addfd {connfd : Option Nat} : (s.addfd connfd).loop = s.loop := by
  cases connfd <;> rfl

@[simp] theorem loop_go {f : Loop Signal Nat → Loop Signal Nat} : (s.go k f).loop = f s.loop := by
  unfold Server.go
  split <;> rfl

/-- Every step keeps the loop in order while its pipe is read as fast as it is written. -/
theorem loop_step (h : s.loop.Inv stops k.pipefd0 signalsSize) {a : Act} (ha : s.Allowed k a)
    (hf : s.Fits k a) (hs : s.step k a = .ok t) : t.loop.Inv stops k.pipefd0 signalsSize := by
  cases a with
  | post x =>
      obtain rfl := Except.ok.inj hs
      exact h.post
  | deliver x =>
      obtain rfl := Except.ok.inj hs
      exact h.deliver hf
  | wake ready =>
      obtain rfl := Except.ok.inj hs
      exact h.wake ha.1 ha.2.1
  | fail =>
      obtain rfl := Except.ok.inj hs
      rw [loop_go]
      exact h.fail ha
  | accept connfd =>
      obtain rfl := Except.ok.inj hs
      simp only [Server.onLoop, loop_addfd]
      exact h.run
  | run =>
      obtain rfl := Except.ok.inj hs
      rw [loop_go]
      exact h.run

/-- The loop is in order in every run in which its pipe is read as fast as it is written. -/
theorem loop_inv_of_run {as : List Act} (h : (fitting k).Run as s) :
    s.loop.Inv stops k.pipefd0 signalsSize := by
  apply h.invariant Loop.inv_start
  rintro s a t hi ⟨ha, hf⟩ hs
  exact loop_step hi ha hf hs

/-- Whenever the server is blocked with nothing to be reported or delivered to it, in a run in
which its pipe is read as fast as it is written, it has handled every signal delivered to it,
each once and in the order of delivery, and was not sent `SIGTERM` or `SIGINT`. -/
theorem signals_served (k : Setup) {as : List Act} {s : Server} (h : (fitting k).Run as s)
    (ha : s.loop.Asleep) :
    s.loop.sigs.handled = s.loop.sigs.caught ∧ s.loop.told = false :=
  have hi := loop_inv_of_run h
  ⟨hi.handled_eq ha, hi.asleep ha⟩

theorem sample_mem : ({3, 5, 6} : Finset Nat) ⊆ {0, 1, 2, 3, 4, 5, 6} := by decide

theorem sample_ne : (3 : Nat) ≠ 5 := by decide

/-- A listening socket 3 and a pipe from 6 to 5. -/
def sampleSetup : Setup where
  listenfd := 3
  pipefd0 := 5
  pipefd1 := 6
  base := {0, 1, 2, 3, 4, 5, 6}
  mem := sample_mem
  ne := sample_ne

/-- One connection comes, and two signals of which the second finds the pipe reported. -/
def sampleActs : List Act :=
  [.run, .post .hup, .deliver .hup, .wake [3, 5], .post .chld, .deliver .chld, .accept (some 7)]

/-- The server handles both signals for one report and blocks again. -/
def sampleServed : List Act :=
  sampleActs ++ List.replicate 6 .run ++ [.wake [5]] ++ List.replicate 4 .run

/-- Both are handled in order. -/
theorem signals_served_twice :
    ∃ s, (fitting sampleSetup).Run sampleServed s ∧
      s.loop.sigs.caught = [.hup, .chld] ∧
      s.loop.sigs.handled = s.loop.sigs.caught ∧ s.loop.told = false :=
  have ⟨s, hrun, hs⟩ := Machine.Run.of_exec_map (M := fitting sampleSetup)
    (f := fun s => (s.loop.sigs.caught, decide s.loop.Asleep)) (x := ([.hup, .chld], true))
    sampleServed (by decide) (by decide)
  ⟨s, hrun, congrArg Prod.fst hs,
    signals_served _ hrun (of_decide_eq_true (congrArg Prod.snd hs))⟩

/-- What `accept` returned in a run, failures apart. -/
def accepted (as : List Act) : List Nat :=
  as.filterMap fun
    | .accept connfd => connfd
    | _ => none

/-- The connections are those that `accept` returned. -/
theorem conns_of_run {as : List Act} (h : (machine k).Run as s) :
    s.conns = (accepted as).reverse := by
  induction h with
  | nil => rfl
  | @snoc as s t a _ _ hs ih =>
      have hone : t.conns = (accepted [a]).reverse ++ s.conns := by
        have hgo {f : Loop Signal Nat → Loop Signal Nat} : (s.go k f).conns = s.conns := by
          unfold Server.go
          split <;> rfl
        cases a with
        | accept connfd =>
            obtain rfl := Except.ok.inj hs
            cases connfd <;> rfl
        | fail =>
            obtain rfl := Except.ok.inj hs
            exact hgo
        | run =>
            obtain rfl := Except.ok.inj hs
            exact hgo
        | _ =>
            obtain rfl := Except.ok.inj hs
            rfl
      rw [hone, ih, accepted, accepted, accepted, List.filterMap_append, List.reverse_append]

/-- In every run the descriptors open are those from before the loop and every connection ever
accepted, which also stay registered; behind the loop only the listening socket and the pipe are
closed. -/
theorem connections_kept (k : Setup) {as : List Act} {s : Server} (h : (machine k).Run as s) :
    (accepted as).Nodup ∧ Disjoint (accepted as).toFinset k.base ∧
      (s.loop.ctl ≠ .left → s.fds = k.base ∪ (accepted as).toFinset ∧
        s.interest = {k.listenfd, k.pipefd0} ∪ (accepted as).toFinset) ∧
      (s.loop.ctl = .left →
        s.fds = k.base \ {k.listenfd, k.pipefd0, k.pipefd1} ∪ (accepted as).toFinset ∧
          s.interest = (accepted as).toFinset) := by
  have hi := inv_of_run h
  have hconns : s.conns.toFinset = (accepted as).toFinset := by
    rw [conns_of_run h, List.toFinset_reverse]
  refine ⟨?_, hconns ▸ hi.fresh, fun hl => hconns ▸ hi.running hl, fun hl => hconns ▸ hi.left hl⟩
  exact List.nodup_reverse.mp (conns_of_run h ▸ hi.nodup)

/-- `SIGTERM` comes before the report, and the loop is left. -/
def sampleTerm : List Act :=
  sampleActs ++ List.replicate 6 .run ++ [.post .term, .deliver .term, .wake [5]] ++
    List.replicate 5 .run

/-- The one connection is still open then. -/
theorem connections_kept_term :
    ∃ s, (machine sampleSetup).Run sampleTerm s ∧ s.loop.ctl = .left ∧
      s.fds = {0, 1, 2, 4, 7} :=
  have ⟨s, hrun, hs⟩ := Machine.Run.of_exec_map (M := machine sampleSetup)
    (f := fun s => s.loop.ctl) (x := .left)
    sampleTerm (by decide) (by decide)
  have hfds := ((connections_kept _ hrun).2.2.2 hs).1
  ⟨s, hrun, hs, hfds.trans (by decide)⟩

end UniEvent

end LinuxWebsocket
