import LinuxWebsocket.Chat.Peers
import LinuxWebsocket.Chat.Quitting
import LinuxWebsocket.Chat.System

/-!
# Departures

The server together with what its clients send and their leaving. A client that closes its
connection raises an edge at its child, whose `recv` then finds the end of the stream only
behind all that the client has sent. The child sets `stop_child`, exits, and its `SIGCHLD`
makes the parent give back the slot.
-/

namespace LinuxWebsocket

namespace Chat

namespace Departures

open EdgeTriggered Sigterm Quitting

/-- The server and its clients. -/
structure Hall where
  server : Server
  clients : Peers UInt8

/-- What happens next. -/
inductive Act
  /-- The server goes on, or a signal is sent to it. -/
  | server (a : Quitting.Act)
  /-- A client sends some bytes. -/
  | send (c : Nat) (bytes : List UInt8)
  /-- A client closes its connection. -/
  | leave (c : Nat)
  deriving DecidableEq

/-- The clients behind a step of the server; a child's `recv` takes less than a whole buffer. -/
def Hall.clientsBehind (s : Hall) : Quitting.Act → Peers UInt8
  | .raise _ => s.clients
  | .act a => s.clients.behind s.server.state (bufferSize - 1) a

/-- One step of the server or of a client. -/
def Hall.step (k : Setup) (s : Hall) : Act → Except Fault Hall
  | .server a => do
    let server ← s.server.step k a
    .ok ⟨server, s.clientsBehind a⟩
  | .send c bytes => do
    let server ← s.server.step k (.act (.arrive c))
    .ok ⟨server, s.clients.on c fun x => x.send bytes⟩
  | .leave c => do
    let server ← s.server.step k (.act (.arrive c))
    .ok ⟨server, s.clients.on c Peer.leave⟩

/-- What can happen next. -/
def Hall.Allowed (k : Setup) (s : Hall) : Act → Prop
  | .server (.raise x) => s.server.Allowed k (.raise x)
  | .server (.act a) => s.server.Allowed k (.act a) ∧ s.clients.Receives a
  | .send c _ | .leave c => s.server.state.Live c ∧ (s.clients c).left = false

/-- The server is kept in order, and what a client sent was read before the `recv` its leaving
leads to. -/
def Hall.Orderly (k : Setup) (s : Hall) : Act → Prop
  | .server (.act a) => s.server.Orderly k (.act a) ∧ s.clients.Clear a
  | _ => True

/-- No `fork` fails behind an `accept` and a `socketpair` that succeeded. -/
def Hall.Forks (s : Hall) : Act → Prop
  | .server a => s.server.Forks a
  | _ => True

/-- The server when the parent first enters its loop. -/
def Hall.start (k : Setup) (users : Nat → ClientData) : Hall :=
  ⟨.start k users, fun _ => .connected⟩

/-- The server, its clients and the rest of their environment. -/
def machine (k : Setup) (users : Nat → ClientData) : Machine Hall Act Fault where
  init := .start k users
  Allowed := Hall.Allowed k
  step := Hall.step k

/-- The server in an environment that keeps it in order. -/
def orderly (k : Setup) (users : Nat → ClientData) : Machine Hall Act Fault :=
  (machine k users).restrict (Hall.Orderly k)

instance (k : Setup) (s : Hall) : ∀ a, Decidable (s.Allowed k a)
  | .server (.raise x) => inferInstanceAs (Decidable (s.server.Allowed k (.raise x)))
  | .server (.act a) =>
    inferInstanceAs (Decidable (s.server.Allowed k (.act a) ∧ s.clients.Receives a))
  | .send c _ => inferInstanceAs (Decidable (s.server.state.Live c ∧ (s.clients c).left = false))
  | .leave c => inferInstanceAs (Decidable (s.server.state.Live c ∧ (s.clients c).left = false))

instance (k : Setup) (s : Hall) : ∀ a, Decidable (s.Orderly k a)
  | .server (.raise _) => inferInstanceAs (Decidable True)
  | .server (.act a) =>
    inferInstanceAs (Decidable (s.server.Orderly k (.act a) ∧ s.clients.Clear a))
  | .send _ _ => inferInstanceAs (Decidable True)
  | .leave _ => inferInstanceAs (Decidable True)

instance (s : Hall) : ∀ a, Decidable (s.Forks a)
  | .server a => inferInstanceAs (Decidable (s.server.Forks a))
  | .send _ _ => inferInstanceAs (Decidable True)
  | .leave _ => inferInstanceAs (Decidable True)

instance (k : Setup) (users : Nat → ClientData) (s : Hall) (a : Act) :
    Decidable (((orderly k users).restrict Hall.Forks).Allowed s a) :=
  inferInstanceAs (Decidable ((s.Allowed k a ∧ s.Orderly k a) ∧ s.Forks a))

/-- What holds of the server and its clients at all times. -/
structure Hall.Inv (k : Setup) (s : Hall) : Prop where
  server : s.server.Inv k
  heard : s.clients.Heard s.server.state

section Steps

variable {k : Setup} {s t : Hall}

/-- The server starts that way. -/
theorem Hall.inv_start (k : Setup) (users : Nat → ClientData) : (Hall.start k users).Inv k where
  server := Server.inv_start k users
  heard := Peers.heard_connected _

/-- Something arrives at a child. -/
theorem Hall.Inv.arrive (h : s.Inv k) {c : Nat} (hl : s.server.state.Live c) {server : Server}
    (hs : s.server.step k (.act (.arrive c)) = .ok server) {f : Peer UInt8 → Peer UInt8}
    (hc : (f (s.clients c)).Heard { s.server.state.children c with ready := true }) :
    Hall.Inv k ⟨server, s.clients.on c f⟩ := by
  refine ⟨h.server.step (a := .act (.arrive c)) ⟨hl, trivial⟩ trivial hs, ?_⟩
  obtain rfl := Except.ok.inj hs
  exact h.heard.on (f := fun kid => { kid with ready := true }) hc

/-- A step in order keeps it so. -/
theorem Hall.Inv.step (h : s.Inv k) {a : Act} (ha : s.Allowed k a) (hord : s.Orderly k a)
    (hs : s.step k a = .ok t) : t.Inv k := by
  cases a with
  | server a =>
      cases a with
      | raise x =>
          obtain rfl := Except.ok.inj hs
          exact ⟨h.server.step (a := .raise x) ha trivial rfl, h.heard⟩
      | act a =>
          cases hu : s.server.state.step k a with
          | error x => simp [Hall.step, Server.step, hu] at hs
          | ok u =>
              have hserver : s.server.step k (.act a) = .ok ⟨u, sigsBehind k s.server a⟩ := by
                simp [Server.step, hu]
              simp only [Hall.step, hserver, ok_bind] at hs
              obtain rfl := Except.ok.inj hs
              exact ⟨h.server.step ha.1 hord.1 hserver,
                h.heard.step ha.1.1 ha.2 hord.2 hu⟩
  | send c bytes =>
      obtain rfl := Except.ok.inj hs
      exact h.arrive ha.1 rfl (f := fun x => x.send bytes) (h.heard c).send
  | leave c =>
      obtain rfl := Except.ok.inj hs
      exact h.arrive ha.1 rfl (h.heard c).leave

/-- In every orderly run. -/
theorem hall_inv_of_run {users : Nat → ClientData} {as : List Act}
    (h : (orderly k users).Run as s) : s.Inv k := by
  apply h.invariant (Hall.inv_start k users)
  rintro s a t hi ⟨ha, hord⟩ hs
  exact hi.step ha hord hs

end Steps

/-- In every orderly run in which no `fork` fails, the server comes to rest only when each child not
waited for still runs for a client that has not left, unless `epoll_wait` failed or an assertion
did; there are as many of them as the parent counts. -/
theorem departed_cleared (k : Setup) (users : Nat → ClientData) {as : List Act} {s : Hall}
    (h : ((orderly k users).restrict Hall.Forks).Run as s) (hr : s.server.AtRest) :
    s.server.state.parent.ctl = .failed ∨ s.server.state.parent.ctl = .aborted ∨
      (∀ p ∈ s.server.state.parent.kernel.procs, p.dead = false ∧
        (s.clients p.serial).left = false) ∧
      s.server.state.parent.userCount = s.server.state.parent.kernel.procs.length := by
  have hi := hall_inv_of_run h.of_restrict
  have hguard := hi.server.guard
  have hcount := hguard.parent.length_procs.symm
  rcases hr.parent with ⟨hctl, hedge, hpending⟩ | hout
  · refine Or.inr (Or.inr ⟨fun p hp => ?_, hcount⟩)
    have hd := hi.server.none_dead hctl hedge hpending p hp
    obtain ⟨hblocked, hready, -⟩ := hr.children p hp hd
    have hstop : (s.server.state.children p.serial).stopChild = false := by
      by_contra hset
      have := hguard.heeds p.serial (by simpa using hset) (Or.inr hblocked)
      simp [hready] at this
    exact ⟨hd, (hi.heard p.serial).stays hblocked hready hstop⟩
  · refine (not_looping hout).imp_right fun h => h.imp_right fun hleft => ⟨fun p hp => ?_, hcount⟩
    simp [(hi.server.left hleft).1] at hp

/-- The first of two clients sends something, is read from, and leaves. -/
def sampleDeparture : List Act :=
  let go (as : List Sigterm.Act) : List Act := as.map fun a => .server (.act a)
  go (forkAnd 11) ++ .send 0 [72] :: go [.run 0, .serve 0 false, .run 0, .run 0] ++
    go [.parent (.wake [3]), .parent (.accept ⟨some 7, some (9, 10), some 102⟩),
      .parent .endBatch] ++ go (List.replicate 11 (.run 1)) ++
    .leave 0 :: go [.run 0, .serve 0 true, .run 0, .parent (.die 101), .post .chld,
      .parent (.wake [5]), .parent (.signals [.chld]), .parent .byte,
      .parent (.waitpid (some 101)), .parent (.waitpid none), .parent .byte, .parent .endBatch]

/-- The second one's child alone is left behind it, in the only slot in use. -/
theorem departed_cleared_first :
    ∃ s, ((orderly sampleSetup fun _ => ⟨0, 0, 0, 0⟩).restrict Hall.Forks).Run sampleDeparture s ∧
      (s.clients 0).left = true ∧ s.server.state.parent.kernel.procs = [⟨102, 1, 9, 1, false⟩] ∧
        (s.clients 1).left = false ∧ s.server.state.parent.userCount = 1 := by
  obtain ⟨s, hrun, hs⟩ := Machine.Run.of_exec_map
    (M := (orderly sampleSetup fun _ => ⟨0, 0, 0, 0⟩).restrict Hall.Forks)
    (f := fun s => ((s.clients 0).left, s.server.state.parent.kernel.procs,
      decide (s.server.state.parent.ctl = .waiting ∧ s.server.sigs.inbox.edge = false ∧
        s.server.sigs.pending = ∅), s.server.state.children 1))
    (x := (true, [⟨102, 1, 9, 1, false⟩], true,
      ⟨.blocked, .own, false, false, false, false, false⟩))
    sampleDeparture (by decide) (by decide)
  simp only [Prod.mk.injEq, decide_eq_true_eq] at hs
  obtain ⟨hleft, hprocs, hparent, hchild⟩ := hs
  have hrest : s.server.AtRest := by
    refine ⟨Or.inl hparent, fun p hp _ => ?_⟩
    rw [hprocs] at hp
    obtain rfl := List.mem_singleton.mp hp
    simp [hchild]
  obtain hf | hf | ⟨hkept, hcount⟩ := departed_cleared _ _ hrun hrest
  · cases hparent.1.symm.trans hf
  · cases hparent.1.symm.trans hf
  · refine ⟨s, hrun, hleft, hprocs, ?_, by simp [hcount, hprocs]⟩
    exact (hkept ⟨102, 1, 9, 1, false⟩ (by simp [hprocs])).2

end Departures

end Chat

end LinuxWebsocket
