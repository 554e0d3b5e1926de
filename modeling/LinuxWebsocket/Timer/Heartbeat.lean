import LinuxWebsocket.Timer.IdleStranded
import LinuxWebsocket.Timer.IdleTicks

/-!
# The alarm that drives the ticks

`alarm(TIMESLOT)` is called before the loop and after every tick, and each alarm goes
off once. Its `SIGALRM` is caught by a handler that writes a byte, and a tick runs behind
the batch in which that byte is read. The alarm is never forgotten: it is set, or on its
way to the loop. A server at rest waits for its alarm, which then closes the idle clients.
-/

namespace LinuxWebsocket

namespace Idle

open EdgeTriggered

section Flags

variable {k : Setup} {s t : Server} {xs : List Ptr}

/-- The end of a batch clears `timeout`, and leaves the loop if `stop_server` is set. -/
theorem endBatch_flags {now : Int} (ha : s.Allowed k (.endBatch now))
    (hs : s.step k (.endBatch now) = .ok t) :
    t.timeout = false ∧ t.stopServer = s.stopServer ∧
      t.ctl = if s.stopServer then .left else .waiting := by
  have hctl := Server.at_endBatch ha.1
  obtain ⟨u, hu⟩ : ∃ u, timeoutBranch s now = .ok u := by
    cases hb : timeoutBranch s now with
    | ok u => exact ⟨u, rfl⟩
    | error x => simp [Server.step, hctl, hb] at hs
  have hstop : u.stopServer = s.stopServer := by
    unfold timeoutBranch at hu
    split at hu
    · cases htick : s.timerLst.tick (fun _ _ userData => cbFunc s.users userData) now s.fds with
      | error x => simp [timerHandler, htick] at hu
      | ok r =>
          simp only [timerHandler, htick, ok_bind, Except.ok.injEq] at hu
          rw [← hu]
    · rw [Except.ok.inj hu]
  simp only [Server.step, hctl, hu, ok_bind] at hs
  obtain rfl := Except.ok.inj hs
  exact ⟨rfl, hstop, by rw [hstop]⟩

/-- Only the end of a batch blocks the loop or clears `timeout`, and nothing clears
`stop_server`. -/
theorem Inv.flags (h : Inv k s xs) {e : Event} (ha : s.Allowed k e) (hs : s.step k e = .ok t)
    (he : ∀ now, e ≠ .endBatch now) : t.ctl ≠ .waiting ∧ (s.timeout = true → t.timeout = true) ∧
      (s.stopServer = true → t.stopServer = true) := by
  cases e with
  | wake ready =>
      have hctl := Server.at_waiting ha.1 (Or.inl ⟨ready, rfl⟩)
      obtain rfl : { s with ctl := .batch ready } = t := by simpa [Server.step, hctl] using hs
      exact ⟨by simp, id, id⟩
  | fail =>
      have hctl := Server.at_waiting ha.1 (Or.inr rfl)
      obtain rfl : { s with ctl := .left } = t := by simpa [Server.step, hctl] using hs
      exact ⟨by simp, id, id⟩
  | accept connfd p now =>
      obtain ⟨todo, hctl⟩ := Server.at_accept ha.1
      have hnext := (accept_fds hctl hs).2.1
      refine ⟨by simp [hnext], ?_⟩
      have hb : acceptBranch { s with ctl := .batch todo } connfd p now = .ok t := by
        simpa [Server.step, hctl] using hs
      unfold acceptBranch at hb
      split at hb
      · cases hb
      · cases hadd : (s.timerLst.new p (now + 3 * timeslot) 0 connfd.toNat).addTimer (some p) with
        | error x => simp [hadd] at hb
        | ok m =>
            simp only [hadd, ok_bind, Except.ok.injEq] at hb
            rw [← hb]
            exact ⟨id, id⟩
  | signals bytes =>
      obtain ⟨todo, hctl⟩ := Server.at_signals ha.1
      obtain rfl : signalBranch { s with ctl := .batch todo } bytes = t := by
        simpa [Server.step, hctl] using hs
      exact ⟨by simp [signalBranch], fun hto => by simp [signalBranch, hto],
        fun hstop => by simp [signalBranch, hstop]⟩
  | recv r now =>
      obtain ⟨fd, todo, hctl, hl, hg⟩ := Server.at_recv ha.1
      obtain ⟨hnext, -, hmem⟩ := h.next hctl
      have hfd : fd ∈ s.fds.clients := by tauto
      have hlim := h.limit fd hfd
      refine ⟨by simp [(recv_closes h hctl hl hg hfd hs).1], ?_⟩
      have hb : recvBranch { s with ctl := .batch todo } fd r now = .ok t := by
        simpa [Server.step, hctl, hl, hg] using hs
      have hclose (hc : closeClient { s with ctl := .batch todo } fd = .ok t) :
          (s.timeout = true → t.timeout = true) ∧ (s.stopServer = true → t.stopServer = true) := by
        obtain ⟨_, _, _, _, _, _, -, -, hrun, -, -⟩ := closeClient_spec hnext.toPairs hfd
        obtain rfl := Except.ok.inj (hrun.symm.trans hc)
        exact ⟨id, id⟩
      cases r with
      | data =>
          obtain ⟨_, _, _, -, -, -, hrun, -⟩ := recvBranch_data_spec hnext.toPairs hfd hlim now
          obtain rfl := Except.ok.inj (hrun.symm.trans hb)
          exact ⟨id, id⟩
      | again =>
          simp only [recvBranch, Nat.not_le.mpr hlim, ite_false, Except.ok.injEq] at hb
          rw [← hb]
          exact ⟨id, id⟩
      | eof => exact hclose (by simpa [recvBranch, Nat.not_le.mpr hlim] using hb)
      | error => exact hclose (by simpa [recvBranch, Nat.not_le.mpr hlim] using hb)
  | skip =>
      obtain ⟨fd, todo, hctl, hl⟩ := Server.at_skip ha.1
      obtain rfl : { s with ctl := .batch todo } = t := by simpa [Server.step, hctl, hl] using hs
      exact ⟨by simp, id, id⟩
  | endBatch now => exact absurd rfl (he now)

/-- `SIGALRM` bytes set `timeout`. -/
theorem signals_timeout {bytes : List Signal} (ha : s.Allowed k (.signals bytes))
    (hs : s.step k (.signals bytes) = .ok t) (hb : .alrm ∈ bytes) : t.timeout = true := by
  obtain ⟨todo, hctl⟩ := Server.at_signals ha.1
  obtain rfl : signalBranch { s with ctl := .batch todo } bytes = t := by
    simpa [Server.step, hctl] using hs
  simp [signalBranch, hb]

/-- A step that meets no fault under a clock that never runs backwards leaves at most one
client. -/
theorem Single.of_step (h : Single k s) {e : Event} (ha : s.Allowed k e) (hf : s.Forward e)
    (hs : s.step k e = .ok t) : Single k t := by
  refine h.step ha hf ?_ hs
  by_cases he : ∃ now, e = .endBatch now
  · obtain ⟨now, rfl⟩ := he
    trivial
  · refine (h.ticksRight_iff ha hf).mp ⟨t, hs, fun cur hcur => ?_⟩
    exact absurd ⟨cur, hcur⟩ he

end Flags

/-- The server with its alarm. -/
structure Beat where
  io : State
  /-- An alarm is set. -/
  armed : Bool
  /-- A `SIGALRM` was sent and not delivered yet. -/
  pending : Bool

/-- What happens next. -/
inductive Pulse
  /-- A step of the loop, or an arrival. -/
  | io (a : Act)
  /-- The alarm goes off. -/
  | expire
  /-- Someone else sends `SIGALRM`. -/
  | kill
  deriving DecidableEq

/-- `timer_handler` runs in this step, and calls `alarm`. -/
def Beat.rearms (s : Beat) : Act → Bool
  | .server (.endBatch _) => s.io.server.timeout
  | _ => false

/-- One step of the server and its alarm. -/
def Beat.step (k : Setup) (s : Beat) (a : Pulse) : Except Fault Beat :=
  match a with
  | .io a => do
    let io ← s.io.step k a
    .ok ⟨io, s.armed || s.rearms a, s.pending && a ≠ .signal .alrm⟩
  | .expire => .ok { s with armed := false, pending := true }
  | .kill => .ok { s with pending := true }

/-- What can happen next: the handler writes a `SIGALRM` byte for a signal that was sent. -/
def Beat.Allowed (k : Setup) (s : Beat) : Pulse → Prop
  | .io a => s.io.Allowed k a ∧ (a = .signal .alrm → s.pending = true)
  | .expire => s.armed = true
  | .kill => True

instance (k : Setup) (s : Beat) : ∀ a, Decidable (s.Allowed k a)
  | .io a => inferInstanceAs
    (Decidable (s.io.Allowed k a ∧ (a = .signal .alrm → s.pending = true)))
  | .expire => inferInstanceAs (Decidable (s.armed = true))
  | .kill => inferInstanceAs (Decidable True)

/-- The server when it first enters the loop, behind `alarm( TIMESLOT )`. -/
def Beat.start (k : Setup) (users : Nat → ClientData) (clock : Int) : Beat :=
  ⟨.start k users clock, true, false⟩

/-- The server, its input and its alarm. -/
def beats (k : Setup) (users : Nat → ClientData) (clock : Int) : Machine Beat Pulse Fault where
  init := .start k users clock
  Allowed := Beat.Allowed k
  step := Beat.step k

/-- The step of the loop in an action. -/
def Act.event : Act → Option Event
  | .server e => some e
  | .accept connfd p now _ _ => some (.accept connfd p now)
  | _ => none

/-- Input comes no faster than it is read, and the clock does not run backwards. -/
def Beat.Timely (k : Setup) (s : Beat) : Pulse → Prop
  | .io a => s.io.Spaced k a ∧ ∀ e ∈ a.event, s.io.server.Forward e
  | _ => True

instance (k : Setup) (s : Beat) : ∀ a, Decidable (s.Timely k a)
  | .io a => inferInstanceAs (Decidable (s.io.Spaced k a ∧ ∀ e ∈ a.event, s.io.server.Forward e))
  | .expire => inferInstanceAs (Decidable True)
  | .kill => inferInstanceAs (Decidable True)

/-- The server, its input and its alarm, timely. -/
def timely (k : Setup) (users : Nat → ClientData) (clock : Int) : Machine Beat Pulse Fault :=
  (beats k users clock).restrict (Beat.Timely k)

instance (k : Setup) (users : Nat → ClientData) (clock : Int) (s : Beat) (a : Pulse) :
    Decidable ((timely k users clock).Allowed s a) :=
  inferInstanceAs (Decidable (s.Allowed k a ∧ s.Timely k a))

/-- The alarm goes off, and its byte is written, reported and read; the clock reads `now`. -/
def heartbeat (k : Setup) (now : Int) : List Pulse :=
  [.expire, .io (.signal .alrm), .io (.server (.wake [k.sigfd])),
    .io (.server (.signals [.alrm])), .io (.server (.endBatch now))]

/-- The server is blocked, with nothing to be reported or delivered to it. -/
structure Beat.AtRest (k : Setup) (s : Beat) : Prop where
  quiet : s.io.Quiescent k
  delivered : s.pending = false

instance (k : Setup) (s : Beat) : Decidable (s.AtRest k) :=
  decidable_of_iff (s.io.Quiescent k ∧ s.pending = false) ⟨fun ⟨hq, hd⟩ => ⟨hq, hd⟩,
    fun ⟨hq, hd⟩ => ⟨hq, hd⟩⟩

variable {k : Setup} {s t : Beat}

/-- What holds of the server and its alarm at all times. -/
structure Beating (k : Setup) (s : Beat) : Prop where
  covering : Covering k s.io
  single : Single k s.io.server
  idle : s.io.server.ctl = .waiting → s.io.server.timeout = false ∧ s.io.server.stopServer = false
  /-- The alarm is set, or on its way to `timer_handler`. -/
  alive : s.armed = true ∨ s.pending = true ∨ .alrm ∈ s.io.sigs.queue ∨
    s.io.server.timeout = true

/-- The alarm is set before the loop. -/
theorem beating_start (k : Setup) (users : Nat → ClientData) (clock : Int) :
    Beating k (.start k users clock) where
  covering := covering_start k users clock
  single := ⟨[], inv_start k users clock, by simp [Dated], by simp⟩
  idle _ := ⟨rfl, rfl⟩
  alive := Or.inl rfl

/-- A step of the loop keeps the alarm alive if it reads the `SIGALRM` bytes it takes. -/
theorem Beating.loop (h : Beating k s) {e : Event} (ha : s.io.server.Allowed k e)
    (hf : s.io.server.Forward e) {io : State} (hu : s.io.server.step k e = .ok io.server)
    (hcov : Covering k io) (hqueue : .alrm ∈ s.io.sigs.queue → .alrm ∈ io.sigs.queue ∨
      ∃ bytes, e = .signals bytes ∧ .alrm ∈ bytes) {rearms : Bool}
    (hrearms : ∀ now, e = .endBatch now → rearms = s.io.server.timeout) :
    Beating k ⟨io, s.armed || rearms, s.pending⟩ := by
  obtain ⟨xs, hi, -⟩ := id h.single
  refine ⟨hcov, h.single.of_step ha hf hu, ?_, ?_⟩
  · intro hwait
    by_cases he : ∃ now, e = .endBatch now
    · obtain ⟨now, rfl⟩ := he
      obtain ⟨hto, hstop, hctl⟩ := endBatch_flags ha hu
      refine ⟨hto, hstop.trans ?_⟩
      cases hs : s.io.server.stopServer with
      | false => rfl
      | true => simp [hctl, hs] at hwait
    · exact absurd hwait (hi.flags ha hu fun now hn => he ⟨now, hn⟩).1
  · rcases h.alive with harmed | hpending | hqueued | hto
    · exact Or.inl (by simp [harmed])
    · exact Or.inr (Or.inl hpending)
    · rcases hqueue hqueued with hq | ⟨bytes, rfl, hb⟩
      · exact Or.inr (Or.inr (Or.inl hq))
      · exact Or.inr (Or.inr (Or.inr (signals_timeout ha hu hb)))
    · by_cases he : ∃ now, e = .endBatch now
      · obtain ⟨now, rfl⟩ := he
        exact Or.inl (by simp [hrearms now rfl, hto])
      · exact Or.inr (Or.inr (Or.inr ((hi.flags ha hu fun now hn => he ⟨now, hn⟩).2.1 hto)))

/-- A step of the loop other than `accept` takes no signal bytes but those it reads. -/
theorem server_step {s io : State} {e : Event} (ha : s.Allowed k (.server e))
    (hs : s.step k (.server e) = .ok io) : s.server.step k e = .ok io.server ∧
      ∀ b ∈ s.sigs.queue, b ∈ io.sigs.queue ∨ ∃ bytes, e = .signals bytes ∧ b ∈ bytes := by
  cases hu : s.server.step k e with
  | error x => simp [State.step, hu] at hs
  | ok u =>
      simp only [State.step, hu, ok_bind] at hs
      cases e with
      | signals bytes =>
          obtain rfl := Except.ok.inj hs
          refine ⟨rfl, fun b hq => ?_⟩
          rw [← List.take_append_drop signalsSize s.sigs.queue, ← ha.2.2] at hq
          exact (List.mem_append.mp hq).symm.imp_right fun hb => ⟨bytes, rfl, hb⟩
      | wake ready =>
          obtain rfl := Except.ok.inj hs
          refine ⟨rfl, fun b hq => Or.inl ?_⟩
          simp only
          split <;> exact hq
      | _ =>
          obtain rfl := Except.ok.inj hs
          exact ⟨rfl, fun _ => Or.inl⟩

/-- Every step keeps the alarm alive. -/
theorem Beating.step (h : Beating k s) {a : Pulse} (ha : s.Allowed k a) (ht : s.Timely k a)
    (hs : s.step k a = .ok t) : Beating k t := by
  cases a with
  | expire =>
      obtain rfl := Except.ok.inj hs
      exact { h with alive := Or.inr (Or.inl rfl) }
  | kill =>
      obtain rfl := Except.ok.inj hs
      exact { h with alive := Or.inr (Or.inl rfl) }
  | io a =>
      cases hio : s.io.step k a with
      | error x => simp [Beat.step, hio] at hs
      | ok io =>
          simp only [Beat.step, hio, ok_bind, Except.ok.injEq] at hs
          rw [← hs]
          have hcov := h.covering.step ha.1 ht.1 hio
          -- an arrival leaves the loop alone, and takes no signal byte away
          have harrival (hserver : io.server = s.io.server)
              (hrearms : s.rearms a = false)
              (hqueue : ∀ b ∈ s.io.sigs.queue, b ∈ io.sigs.queue)
              (hcaught : a = .signal .alrm → .alrm ∈ io.sigs.queue) :
              Beating k ⟨io, s.armed || s.rearms a, s.pending && a ≠ .signal .alrm⟩ := by
            refine ⟨hcov, hserver ▸ h.single, hserver ▸ h.idle, ?_⟩
            rw [hrearms, Bool.or_false]
            by_cases ha' : a = .signal .alrm
            · exact Or.inr (Or.inr (Or.inl (hcaught ha')))
            · rcases h.alive with harmed | hpending | hqueued | hto
              · exact Or.inl harmed
              · exact Or.inr (Or.inl (by simp [hpending, ha']))
              · exact Or.inr (Or.inr (Or.inl (hqueue _ hqueued)))
              · exact Or.inr (Or.inr (Or.inr (hserver ▸ hto)))
          cases a with
          | server e =>
              obtain ⟨hu, hqueue⟩ := server_step ha.1 hio
              have hrearms : ∀ now, e = .endBatch now →
                  s.rearms (.server e) = s.io.server.timeout := fun now he => by rw [he]; rfl
              simpa using h.loop ha.1.1 (ht.2 e rfl) hu hcov (hqueue _) hrearms
          | accept connfd p now early gone =>
              cases hu : s.io.server.step k (.accept connfd p now) with
              | error x => simp [State.step, hu] at hio
              | ok u =>
                  simp only [State.step, hu, ok_bind] at hio
                  obtain rfl := Except.ok.inj hio
                  have hloop : Beating k
                      ⟨_, s.armed || s.rearms (.accept connfd p now early gone), s.pending⟩ :=
                    h.loop ha.1.1 (ht.2 _ rfl) hu hcov Or.inl (by simp)
                  simpa using hloop
          | connect =>
              obtain rfl := Except.ok.inj hio
              exact harrival rfl rfl (fun _ hb => hb) (by simp)
          | bytes fd bs =>
              obtain rfl := Except.ok.inj hio
              exact harrival rfl rfl (fun _ hb => hb) (by simp)
          | hangup fd =>
              obtain rfl := Except.ok.inj hio
              exact harrival rfl rfl (fun _ hb => hb) (by simp)
          | signal b =>
              obtain rfl := Except.ok.inj hio
              refine harrival rfl rfl (fun _ hb => List.mem_append_left _ hb) fun hb => ?_
              obtain rfl : b = .alrm := by simpa using hb
              exact List.mem_append_right _ (List.mem_singleton_self _)

/-- The alarm is alive in every timely run. -/
theorem beating_of_run {users : Nat → ClientData} {clock : Int} {as : List Pulse}
    (h : (timely k users clock).Run as s) : Beating k s := by
  apply h.invariant (beating_start k users clock)
  intro s a t hi ha hs
  exact hi.step ha.1 ha.2 hs

/-- The alarm stays alive as a timely run goes on. -/
theorem Beating.run (h : Beating k s) {users : Nat → ClientData} {clock : Int} {as : List Pulse}
    (hr : ((timely k users clock).startAt s).Run as t) : Beating k t := by
  apply hr.invariant h
  intro s a t hi ha hs
  exact hi.step ha.1 ha.2 hs

/-- At rest the alarm is set. -/
theorem Beating.armed (h : Beating k s) (hr : s.AtRest k) : s.armed = true := by
  have hsigs := (h.covering.clear hr.quiet).signals
  have hto := (h.idle hr.quiet.waiting).1
  simpa [hr.delivered, hsigs, hto] using h.alive

/-- The byte of an alarm is in the pipe. -/
def State.rung (s : State) : State := { s with sigs := ⟨[.alrm], true⟩ }

/-- It is reported. -/
def State.woken (k : Setup) (s : State) : State :=
  { s with
    server := { s.server with ctl := .batch [k.sigfd] }
    sigs := ⟨[.alrm], false⟩
    conns := fun fd => if [k.sigfd].contains fd then (s.conns fd).report else s.conns fd
    pollin := fun fd => if [k.sigfd].contains fd then s.rung.readable k fd else s.pollin fd }

/-- It is read. -/
def State.alarmed (k : Setup) (s : State) : State :=
  { s.woken k with
    server := signalBranch { s.server with ctl := .batch [] } [.alrm]
    sigs := ⟨[], false⟩ }

/-- At rest, an alarm reaches the end of the batch that reads its byte. -/
theorem Beating.alarmed (h : Beating k s) (hr : s.AtRest k) {users : Nat → ClientData}
    {clock : Int} :
    ((timely k users clock).startAt s).Run
      [.expire, .io (.signal .alrm), .io (.server (.wake [k.sigfd])),
        .io (.server (.signals [.alrm]))] ⟨s.io.alarmed k, false, false⟩ := by
  have hctl := hr.quiet.waiting
  have hsigs := (h.covering.clear hr.quiet).signals
  have hreg := (h.covering.registered k.sigfd).mpr (Or.inr (Or.inl rfl))
  have hring : Beat.step k ⟨s.io, false, true⟩ (.io (.signal .alrm)) =
      .ok ⟨s.io.rung, false, false⟩ := by
    simp [Beat.step, State.step, State.rung, Inbox.arrive, Beat.rearms, hsigs]
  have hwake : Beat.step k ⟨s.io.rung, false, false⟩ (.io (.server (.wake [k.sigfd]))) =
      .ok ⟨s.io.woken k, false, false⟩ := by
    have hserver : s.io.rung.server.step k (.wake [k.sigfd]) =
        .ok { s.io.server with ctl := .batch [k.sigfd] } := by
      simp [State.rung, Server.step, hctl]
    have hno : [k.sigfd].contains k.listenfd = false := by simp [k.ne]
    simp only [Beat.step, State.step, hserver, ok_bind, hno]
    simp [State.woken, State.rung, Inbox.report, Beat.rearms]
  have hread : Beat.step k ⟨s.io.woken k, false, false⟩ (.io (.server (.signals [.alrm]))) =
      .ok ⟨s.io.alarmed k, false, false⟩ := by
    simp [Beat.step, State.step, Server.step, State.woken, State.alarmed, Inbox.serve,
      signalsSize, Beat.rearms]
  have h₁ : ((timely k users clock).startAt s).Run [.expire] ⟨s.io, false, true⟩ :=
    Machine.Run.nil.snoc ⟨h.armed hr, trivial⟩ rfl
  have h₂ : ((timely k users clock).startAt s).Run [.expire, .io (.signal .alrm)]
      ⟨s.io.rung, false, false⟩ := by
    refine h₁.snoc ⟨⟨trivial, fun _ => rfl⟩, ?_, by simp [Act.event]⟩ hring
    have hone : 1 ≤ signalsSize * (1 + (s.io.pending k.sigfd).toNat) :=
      Nat.mul_pos (by decide) (Nat.add_pos_left Nat.one_pos _)
    simpa [State.Spaced, Inbox.Fits, hsigs] using hone
  have h₃ : ((timely k users clock).startAt s).Run
      [.expire, .io (.signal .alrm), .io (.server (.wake [k.sigfd]))]
      ⟨s.io.woken k, false, false⟩ := by
    refine h₂.snoc ⟨⟨⟨⟨?_, ?_⟩, ?_⟩, by simp⟩, trivial, ?_⟩ hwake
    · simp [State.rung, Server.at, hctl]
    · simpa [State.rung, Server.Kernel] using hreg
    · simp [State.rung, State.Yields, State.edge, k.ne.symm]
    · simp [Act.event, Server.Forward, Event.reading]
  refine h₃.snoc ⟨⟨⟨⟨?_, trivial⟩, ?_, ?_⟩, by simp⟩, trivial, ?_⟩ hread
  · simp [State.woken, Server.at]
  · simp [State.woken, State.rung, State.readable, k.ne.symm]
  · simp [State.woken, signalsSize]
  · simp [Act.event, Server.Forward, Event.reading]

/-- At rest, a heartbeat closes exactly the idle clients, and ends at rest. -/
theorem Beating.beat (h : Beating k s) (hr : s.AtRest k) {users : Nat → ClientData}
    {clock now : Int} (hnow : s.io.server.clock ≤ now) :
    ∃ t, ((timely k users clock).startAt s).Run (heartbeat k now) t ∧ t.AtRest k ∧
      ∀ fd, fd ∈ t.io.server.fds.clients ↔
        fd ∈ s.io.server.fds.clients ∧ now - 3 * timeslot < s.io.server.active fd := by
  have hrun : ((timely k users clock).startAt s).Run _ ⟨s.io.alarmed k, false, false⟩ :=
    h.alarmed hr
  have hread := h.run hrun
  have hallowed : (s.io.alarmed k).server.Allowed k (.endBatch now) := ⟨rfl, trivial⟩
  obtain ⟨u, hu, hcloses⟩ := hread.single.endBatch hallowed
  have htick := hcloses now rfl (by simp [State.alarmed, signalBranch])
  have hstop : (s.io.alarmed k).server.stopServer = false := by
    simp [State.alarmed, signalBranch, (h.idle hr.quiet.waiting).2]
  have hwait : u.ctl = .waiting := by simpa [hstop] using (endBatch_flags hallowed hu).2.2
  have hend : Beat.step k ⟨s.io.alarmed k, false, false⟩ (.io (.server (.endBatch now))) =
      .ok ⟨{ s.io.alarmed k with server := u }, true, false⟩ := by
    simp only [Beat.step, State.step, hu, ok_bind]
    simp [Beat.rearms, State.alarmed, signalBranch]
  have hall : ((timely k users clock).startAt s).Run (heartbeat k now)
      ⟨{ s.io.alarmed k with server := u }, true, false⟩ := by
    have hok : Beat.Allowed k ⟨s.io.alarmed k, false, false⟩ (.io (.server (.endBatch now))) :=
      ⟨⟨hallowed, trivial⟩, by simp⟩
    refine hrun.snoc ⟨hok, trivial, ?_⟩ hend
    simpa [Act.event, Server.Forward, Event.reading, State.alarmed, signalBranch] using hnow
  have hafter := h.run hall
  refine ⟨⟨{ s.io.alarmed k with server := u }, true, false⟩, hall, ⟨⟨hwait, ?_⟩, rfl⟩,
    htick.kept⟩
  intro fd hfd he
  by_cases hg : fd = k.sigfd
  · simp [State.alarmed, State.edge, k.ne.symm, hg] at he
  · have hreg : fd ∈ s.io.server.fds.interest := by
      rw [h.covering.registered fd]
      rcases (hafter.covering.registered fd).mp hfd with hfd | hfd | hfd
      · exact Or.inl hfd
      · exact Or.inr (Or.inl hfd)
      · exact Or.inr (Or.inr ((htick.kept fd).mp hfd).1)
    have hedge : s.io.edge k fd = true := by
      simpa [State.alarmed, State.woken, State.edge, hg] using he
    simpa [State.alarmed, State.woken, State.readable, hg] using
      hr.quiet.unreported fd hreg hedge

/-- In every timely run without a memory error the alarm is set whenever the server is at rest.
Once it goes off and the clock reads `now`, exactly the clients last active by
`now - 3 * TIMESLOT` are closed, and the server is at rest again. -/
theorem idle_clients_closed (k : Setup) (users : Nat → ClientData) (clock : Int)
    {as : List Pulse} {s : Beat} (h : (timely k users clock).Run as s) (hr : s.AtRest k) :
    s.armed = true ∧ ∀ now, s.io.server.clock ≤ now →
      ∃ t, ((timely k users clock).startAt s).Run (heartbeat k now) t ∧ t.AtRest k ∧
        ∀ fd, fd ∈ t.io.server.fds.clients ↔
          fd ∈ s.io.server.fds.clients ∧ now - 3 * timeslot < s.io.server.active fd :=
  have hb := beating_of_run h
  ⟨hb.armed hr, fun _ hnow => hb.beat hr hnow⟩

/-- A client comes. -/
def sampleClient : List Pulse :=
  [.io .connect, .io (.server (.wake [3])), .io (.accept 7 1 0 [] false),
    .io (.server (.endBatch 0))]

/-- It is closed by the alarm that goes off 15 seconds later. -/
theorem idle_clients_closed_one :
    ∃ s, (timely sampleSetup (fun _ => ⟨0, none⟩) 0).Run sampleClient s ∧
      s.io.server.fds.clients = {7} ∧ s.armed = true ∧
      ∃ t, ((timely sampleSetup (fun _ => ⟨0, none⟩) 0).startAt s).Run
        (heartbeat sampleSetup 15) t ∧ t.AtRest sampleSetup ∧ t.io.server.fds.clients = ∅ := by
  obtain ⟨s, hrun, hs⟩ := Machine.Run.of_exec_map
    (M := timely sampleSetup (fun _ => ⟨0, none⟩) 0)
    (f := fun s => (decide (s.AtRest sampleSetup), s.io.server.fds.clients,
      s.io.server.active 7, s.io.server.clock)) (x := (true, {7}, 0, 0))
    sampleClient (by decide) (by decide)
  have hrest := of_decide_eq_true (congrArg Prod.fst hs)
  have hclients : s.io.server.fds.clients = {7} := congrArg (fun x => x.2.1) hs
  have hactive : s.io.server.active 7 = 0 := congrArg (fun x => x.2.2.1) hs
  have hclock : s.io.server.clock = 0 := congrArg (fun x => x.2.2.2) hs
  obtain ⟨harmed, hbeat⟩ := idle_clients_closed _ _ _ hrun hrest
  obtain ⟨t, ht, hquiet, hkept⟩ := hbeat 15 (by simp [hclock])
  refine ⟨s, hrun, hclients, harmed, t, ht, hquiet, ?_⟩
  ext fd
  rw [hkept, hclients, Finset.mem_singleton]
  simp only [Finset.notMem_empty, iff_false, not_and]
  rintro rfl
  simp [hactive, timeslot]

end Idle

end LinuxWebsocket
