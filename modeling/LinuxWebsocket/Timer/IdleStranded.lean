import LinuxWebsocket.Timer.IdleInputs

/-!
# Input left behind

As long as no arrival exceeds what the reports still to come have room for, every
unread byte and every waiting connection is covered by an edge or by an event of the
batch, so that nothing is left behind when the server blocks with nothing to be
reported. The clients registered are those open, also behind a tick, since what a
handler closes ends its registration.
-/

namespace LinuxWebsocket

namespace Idle

open EdgeTriggered SortTimerLst

section Fds

variable {k : Setup} {s t : Server} {xs : List Ptr}

/-- The clients in `out` are closed, and no other descriptor is opened or closed. -/
structure Server.Closes (s t : Server) (out : Finset Nat) : Prop where
  open_mem : out ⊆ s.fds.clients
  clients : t.fds.clients = s.fds.clients \ out
  interest : t.fds.interest = s.fds.interest \ out

/-- Registered are the listening socket, the signal pipe and the open clients. -/
def Server.Registered (k : Setup) (s : Server) : Prop :=
  ∀ fd, fd ∈ s.fds.interest ↔ fd = k.listenfd ∨ fd = k.sigfd ∨ fd ∈ s.fds.clients

/-- Nothing is closed. -/
theorem closes_empty (hc : t.fds.clients = s.fds.clients) (hi : t.fds.interest = s.fds.interest) :
    s.Closes t ∅ :=
  ⟨Finset.empty_subset _, by rw [hc, Finset.sdiff_empty], by rw [hi, Finset.sdiff_empty]⟩

/-- A client is none of the server's own descriptors. -/
theorem Inv.client_ne (h : Inv k s xs) {fd : Nat} (hfd : fd ∈ s.fds.clients) :
    fd ≠ k.listenfd ∧ fd ≠ k.sigfd :=
  ⟨fun he => h.base fd hfd (he ▸ k.listen_mem), fun he => h.base fd hfd (he ▸ k.sig_mem)⟩

/-- Closing clients ends their registrations and no other. -/
theorem Inv.registered_closes (h : Inv k s xs) (hr : s.Registered k) {out : Finset Nat}
    (hc : s.Closes t out) : t.Registered k := by
  intro fd
  rw [hc.clients, hc.interest, Finset.mem_sdiff, Finset.mem_sdiff, hr fd]
  constructor
  · rintro ⟨hfd | hfd | hfd, hout⟩
    · exact Or.inl hfd
    · exact Or.inr (Or.inl hfd)
    · exact Or.inr (Or.inr ⟨hfd, hout⟩)
  · rintro (rfl | rfl | ⟨hfd, hout⟩)
    · exact ⟨Or.inl rfl, fun hm => (h.client_ne (hc.open_mem hm)).1 rfl⟩
    · exact ⟨Or.inr (Or.inl rfl), fun hm => (h.client_ne (hc.open_mem hm)).2 rfl⟩
    · exact ⟨Or.inr (Or.inr hfd), hout⟩

/-- An `accept` that does not fault registers a new client. -/
theorem accept_fds {connfd now : Int} {p : Ptr} {todo : List Nat}
    (hctl : s.ctl = .batch (k.listenfd :: todo))
    (hs : s.step k (.accept connfd p now) = .ok t) :
    0 ≤ connfd ∧ t.ctl = .batch todo ∧ t.fds.clients = insert connfd.toNat s.fds.clients ∧
      t.fds.interest = insert connfd.toNat s.fds.interest := by
  have hb : acceptBranch { s with ctl := .batch todo } connfd p now = .ok t := by
    simpa [Server.step, hctl] using hs
  by_cases hr : connfd < 0 ∨ (fdLimit : Int) ≤ connfd
  · simp [acceptBranch, hr] at hb
  · cases hadd : (s.timerLst.new p (now + 3 * timeslot) 0 connfd.toNat).addTimer (some p) with
    | error x => simp [acceptBranch, hr, hadd] at hb
    | ok m =>
        simp only [acceptBranch, hr, hadd, ite_false, ok_bind, Except.ok.injEq] at hb
        rw [← hb]
        exact ⟨by omega, rfl, rfl, rfl⟩

/-- Closing a client closes it alone. -/
theorem closeClient_closes (h : Pairs s xs) {fd : Nat} (hfd : fd ∈ s.fds.clients)
    (hs : closeClient s fd = .ok t) : s.Closes t {fd} ∧ t.ctl = s.ctl := by
  obtain ⟨_, _, _, _, _, _, -, -, hrun, -, -⟩ := closeClient_spec h hfd
  obtain rfl := Except.ok.inj (hrun.symm.trans hs)
  refine ⟨⟨Finset.singleton_subset_iff.mpr hfd, ?_, ?_⟩, rfl⟩
  · exact (Finset.sdiff_singleton_eq_erase _ _).symm
  · exact (Finset.sdiff_singleton_eq_erase _ _).symm

/-- A `recv` on a client closes it or nothing. -/
theorem recv_closes (h : Inv k s xs) {fd : Nat} {todo : List Nat}
    (hctl : s.ctl = .batch (fd :: todo)) (hl : fd ≠ k.listenfd) (hg : fd ≠ k.sigfd)
    (hfd : fd ∈ s.fds.clients) {r : Received} {now : Int}
    (hs : s.step k (.recv r now) = .ok t) :
    t.ctl = .batch todo ∧ ∃ out, s.Closes t out := by
  have hn := (h.next hctl).1
  have hlim := h.limit fd hfd
  have hb : recvBranch { s with ctl := .batch todo } fd r now = .ok t := by
    simpa [Server.step, hctl, hl, hg] using hs
  cases r with
  | data =>
      obtain ⟨_, _, _, -, -, -, hrun, -⟩ := recvBranch_data_spec hn.toPairs hfd hlim now
      obtain rfl := Except.ok.inj (hrun.symm.trans hb)
      exact ⟨rfl, ∅, closes_empty rfl rfl⟩
  | again =>
      simp only [recvBranch, Nat.not_le.mpr hlim, ite_false, Except.ok.injEq] at hb
      rw [← hb]
      exact ⟨rfl, ∅, closes_empty rfl rfl⟩
  | eof =>
      simp only [recvBranch, Nat.not_le.mpr hlim, ite_false] at hb
      obtain ⟨hc, ht⟩ := closeClient_closes hn.toPairs hfd hb
      exact ⟨ht, {fd}, hc.open_mem, hc.clients, hc.interest⟩
  | error =>
      simp only [recvBranch, Nat.not_le.mpr hlim, ite_false] at hb
      obtain ⟨hc, ht⟩ := closeClient_closes hn.toPairs hfd hb
      exact ⟨ht, {fd}, hc.open_mem, hc.clients, hc.interest⟩

/-- Behind a batch, a tick closes the clients of the timers that fire. -/
theorem endBatch_closes (h : Inv k s xs) (hctl : s.ctl = .batch []) {now : Int}
    (hs : s.step k (.endBatch now) = .ok t) :
    t.ctl.todo = [] ∧ ∃ out, s.Closes t out := by
  have htodo (u : Server) :
      (if u.stopServer then Ctl.left else Ctl.waiting : Ctl).todo = [] := by
    cases u.stopServer <;> rfl
  by_cases hto : s.timeout = true
  · obtain ⟨fired, rest, m, rfl, -, -, hrun, -, -⟩ := timerHandler_spec h.toPairs now
    simp only [Server.step, hctl, timeoutBranch, hto, ite_true, hrun, ok_bind,
      Except.ok.injEq] at hs
    rw [← hs]
    refine ⟨htodo s, (fired.map s.timerLst.userDataOf).toFinset, ?_, rfl, rfl⟩
    intro fd hfd
    obtain ⟨p, hp, rfl⟩ := List.mem_map.mp (List.mem_toFinset.mp hfd)
    obtain ⟨e, c, fd, hfd, hd, -⟩ := h.timer p (List.mem_append_left _ hp)
    simpa [userDataOf, hd] using hfd
  · simp only [Server.step, hctl, timeoutBranch, hto, Bool.false_eq_true, ite_false, ok_bind,
      Except.ok.injEq] at hs
    rw [← hs]
    exact ⟨htodo s, ∅, closes_empty rfl rfl⟩

end Fds

variable {k : Setup} {s t : State}

/-- A report of a descriptor is still to be handled. -/
def Server.reported (s : Server) (fd : Nat) : Bool := s.ctl.todo.contains fd

/-- A report of a descriptor as `EPOLLIN` is still to be handled. -/
def State.pending (s : State) (fd : Nat) : Bool := s.server.reported fd && s.pollin fd

/-- An arrival does not exceed what one more report has room for, beside a report still to be
handled. -/
def State.Spaced (k : Setup) (s : State) : Act → Prop
  | .accept _ _ _ early _ => early.length ≤ bufferSize - 1
  | .connect => s.listen.Fits 1 (s.server.reported k.listenfd) [()]
  | .bytes fd bs => (s.conns fd).Fits (bufferSize - 1) (s.pending fd) bs
  | .signal b => s.sigs.Fits signalsSize (s.pending k.sigfd) [b]
  | _ => True

instance (k : Setup) (s : State) : ∀ a, Decidable (s.Spaced k a)
  | .accept _ _ _ early _ => inferInstanceAs (Decidable (early.length ≤ bufferSize - 1))
  | .connect => inferInstanceAs (Decidable (s.listen.Fits 1 (s.server.reported k.listenfd) [()]))
  | .bytes fd bs =>
    inferInstanceAs (Decidable ((s.conns fd).Fits (bufferSize - 1) (s.pending fd) bs))
  | .signal b => inferInstanceAs (Decidable (s.sigs.Fits signalsSize (s.pending k.sigfd) [b]))
  | .server _ => inferInstanceAs (Decidable True)
  | .hangup _ => inferInstanceAs (Decidable True)

/-- The server with input that comes no faster than it is read. -/
def spaced (k : Setup) (users : Nat → ClientData) (clock : Int) : Machine State Act Fault :=
  (inputs k users clock).restrict (State.Spaced k)

instance (k : Setup) (users : Nat → ClientData) (clock : Int) (s : State) (a : Act) :
    Decidable ((spaced k users clock).Allowed s a) :=
  inferInstanceAs (Decidable (s.Allowed k a ∧ s.Spaced k a))

/-- The server is blocked, and `epoll_wait` has nothing to report. -/
structure State.Quiescent (k : Setup) (s : State) : Prop where
  waiting : s.server.ctl = .waiting
  /-- No registered descriptor has both an edge and something to read. -/
  unreported : ∀ fd ∈ s.server.fds.interest, s.edge k fd = true → s.readable k fd = false

instance (k : Setup) (s : State) : Decidable (s.Quiescent k) :=
  decidable_of_iff (s.server.ctl = .waiting ∧
    ∀ fd ∈ s.server.fds.interest, s.edge k fd = true → s.readable k fd = false)
    ⟨fun ⟨hw, hu⟩ => ⟨hw, hu⟩, fun ⟨hw, hu⟩ => ⟨hw, hu⟩⟩

/-- No input is left behind. -/
structure State.Clear (s : State) : Prop where
  connections : s.listen.queue = []
  bytes : ∀ fd ∈ s.server.fds.clients, (s.conns fd).queue = []
  signals : s.sigs.queue = []

instance (s : State) : Decidable s.Clear :=
  decidable_of_iff (s.listen.queue = [] ∧
    (∀ fd ∈ s.server.fds.clients, (s.conns fd).queue = []) ∧ s.sigs.queue = [])
    ⟨fun ⟨hl, hc, hg⟩ => ⟨hl, hc, hg⟩, fun ⟨hl, hc, hg⟩ => ⟨hl, hc, hg⟩⟩

/-- All input is covered by edges and by reports still to be handled. -/
structure Covering (k : Setup) (s : State) : Prop where
  inv : ∃ xs, Inv k s.server xs
  registered : s.server.Registered k
  listen : s.listen.Covered 1 (s.server.reported k.listenfd)
  sigs : s.sigs.Covered signalsSize (s.pending k.sigfd)
  conns : ∀ fd ∈ s.server.fds.clients, (s.conns fd).Covered (bufferSize - 1) (s.pending fd)

theorem covering_start (k : Setup) (users : Nat → ClientData) (clock : Int) :
    Covering k (.start k users clock) := by
  refine ⟨⟨[], inv_start k users clock⟩, ?_, Inbox.covered_of_nil rfl,
    Inbox.covered_of_nil rfl, ?_⟩
  · intro fd
    simp [State.start, Server.start]
  · intro fd hfd
    exact Inbox.covered_of_nil rfl

/-- What is covered is not left behind. -/
theorem Covering.clear (h : Covering k s) (hq : s.Quiescent k) : s.Clear := by
  obtain ⟨xs, hi⟩ := h.inv
  have hreported (fd : Nat) : s.server.reported fd = false := by
    simp [Server.reported, hq.waiting, Ctl.todo]
  have hpending (fd : Nat) : s.pending fd = false := by simp [State.pending, hreported]
  refine ⟨?_, ?_, ?_⟩
  · have hcov := h.listen
    rw [hreported] at hcov
    apply hcov.drained
    intro he
    have hfd := (h.registered k.listenfd).mpr (Or.inl rfl)
    simpa [State.edge, State.readable, he] using hq.unreported _ hfd
  · intro fd hfd
    have hne := hi.client_ne hfd
    have hcov := h.conns fd hfd
    rw [hpending] at hcov
    apply hcov.drained
    intro he
    have hun := hq.unreported fd ((h.registered fd).mpr (Or.inr (Or.inr hfd)))
    have hboth : (s.conns fd).queue = [] ∧ s.eof fd = false := by
      simpa [State.edge, State.readable, he, hne] using hun
    exact hboth.1
  · have hcov := h.sigs
    rw [hpending] at hcov
    apply hcov.drained
    intro he
    have hfd := (h.registered k.sigfd).mpr (Or.inr (Or.inl rfl))
    simpa [State.edge, State.readable, he, k.ne.symm] using hq.unreported _ hfd

/-- The event being handled is not reported once more in its batch, and handling it changes
nothing about the others. -/
theorem reported_handled {s t : Server} {fd : Nat} {todo : List Nat}
    (hctl : s.ctl = .batch (fd :: todo)) (ht : t.ctl = .batch todo) (hn : fd ∉ todo) :
    s.reported fd = true ∧ t.reported fd = false ∧ ∀ x, x ≠ fd → t.reported x = s.reported x := by
  refine ⟨?_, ?_, fun x hx => ?_⟩
  · simp [Server.reported, hctl, Ctl.todo]
  · simpa [Server.reported, ht, Ctl.todo] using hn
  · simp [Server.reported, hctl, ht, Ctl.todo, hx]

/-- Handling the next event `fd` of a batch: what it was reported for is covered without that
report, and everything else is as it was, but for clients covered in any case. -/
theorem Covering.handled (h : Covering k s) {fd : Nat} {todo : List Nat}
    (hctl : s.server.ctl = .batch (fd :: todo)) (hn : fd ∉ todo) (ht : t.server.ctl = .batch todo)
    (hi : ∃ ys, Inv k t.server ys) (hr : t.server.Registered k) (hp : t.pollin = s.pollin)
    (hl : t.listen.Covered 1 false ∨ fd ≠ k.listenfd ∧ t.listen = s.listen)
    (hg : t.sigs.Covered signalsSize false ∨ fd ≠ k.sigfd ∧ t.sigs = s.sigs)
    (hc : ∀ x ∈ t.server.fds.clients, (t.conns x).Covered (bufferSize - 1) false ∨
      x ≠ fd ∧ x ∈ s.server.fds.clients ∧ t.conns x = s.conns x) : Covering k t := by
  obtain ⟨-, -, hsame⟩ := reported_handled hctl ht hn
  have hpending (x : Nat) (hx : x ≠ fd) : t.pending x = s.pending x := by
    rw [State.pending, State.pending, hsame x hx, hp]
  refine ⟨hi, hr, ?_, ?_, ?_⟩
  · rcases hl with hl | ⟨hne, he⟩
    · exact hl.mono
    · rw [he, hsame _ hne.symm]
      exact h.listen
  · rcases hg with hg | ⟨hne, he⟩
    · exact hg.mono
    · rw [he, hpending _ hne.symm]
      exact h.sigs
  · intro x hx
    rcases hc x hx with hx | ⟨hne, hx, he⟩
    · exact hx.mono
    · rw [he, hpending x hne]
      exact h.conns x hx

/-- Reports take the place of edges. -/
theorem Covering.wake (h : Covering k s) {ready : List Nat} {u : Server}
    (ha : s.server.Allowed k (.wake ready)) (hs : s.server.step k (.wake ready) = .ok u) :
    Covering k { s with
      server := u
      listen := if ready.contains k.listenfd then s.listen.report else s.listen
      sigs := if ready.contains k.sigfd then s.sigs.report else s.sigs
      conns := fun fd => if ready.contains fd then (s.conns fd).report else s.conns fd
      pollin := fun fd => if ready.contains fd then s.readable k fd else s.pollin fd } := by
  obtain ⟨xs, hi⟩ := h.inv
  have hu := hi.of_step ha hs
  have hctl := Server.at_waiting ha.1 (Or.inl ⟨ready, rfl⟩)
  obtain rfl : { s.server with ctl := .batch ready } = u := by simpa [Server.step, hctl] using hs
  have hbefore (fd : Nat) : s.server.reported fd = false := by
    simp [Server.reported, hctl, Ctl.todo]
  have hpending (fd : Nat) : s.pending fd = false := by simp [State.pending, hbefore]
  have hlisten := h.listen
  have hsigs := h.sigs
  rw [hbefore] at hlisten
  rw [hpending] at hsigs
  refine ⟨hu, h.registered, ?_, ?_, ?_⟩
  · apply hlisten.report_if id
    intro hr hno
    exact absurd (hr.symm.trans hno) Bool.true_eq_false.mp
  · apply hsigs.report_if
    · exact fun hp => (Bool.and_eq_true_iff.mp hp).1
    · intro hr hno
      have hread : s.readable k k.sigfd = false := by
        simpa [State.pending, Server.reported, Ctl.todo, List.contains_iff_mem.mp hr] using hno
      simpa [State.readable, k.ne.symm] using hread
  · intro fd hfd
    have hne := hi.client_ne hfd
    have hconn := h.conns fd hfd
    rw [hpending] at hconn
    apply hconn.report_if
    · exact fun hp => (Bool.and_eq_true_iff.mp hp).1
    · intro hr hno
      have hread : s.readable k fd = false := by
        simpa [State.pending, Server.reported, Ctl.todo, List.contains_iff_mem.mp hr] using hno
      have hnone : (s.conns fd).queue = [] ∧ s.eof fd = false := by
        simpa [State.readable, hne] using hread
      exact hnone.1

/-- One `recv` takes the signal bytes its report stood for. -/
theorem Covering.signals (h : Covering k s) {bytes : List Signal} {u : Server}
    (ha : s.server.Allowed k (.signals bytes)) (hy : s.Yields k (.signals bytes))
    (hs : s.server.step k (.signals bytes) = .ok u) :
    Covering k { s with server := u, sigs := s.sigs.serve signalsSize } := by
  obtain ⟨xs, hi⟩ := h.inv
  obtain ⟨todo, hctl⟩ := Server.at_signals ha.1
  obtain ⟨-, hn, -⟩ := hi.next hctl
  have hu := hi.of_step ha hs
  obtain rfl : signalBranch { s.server with ctl := .batch todo } bytes = u := by
    simpa [Server.step, hctl] using hs
  obtain ⟨hhead, -, -⟩ := reported_handled hctl (t := { s.server with ctl := .batch todo }) rfl hn
  have hpending : s.pending k.sigfd = true := by simp [State.pending, hhead, hy.1]
  have hsigs := h.sigs
  rw [hpending] at hsigs
  refine h.handled hctl hn rfl hu h.registered rfl (Or.inr ⟨k.ne.symm, rfl⟩) (Or.inl hsigs.serve) ?_
  intro fd hfd
  exact Or.inr ⟨(hi.client_ne hfd).2, hfd, rfl⟩

/-- One `recv` takes the bytes its report stood for. -/
theorem Covering.recv (h : Covering k s) {r : Received} {now : Int} {u : Server}
    (ha : s.server.Allowed k (.recv r now)) (hy : s.Yields k (.recv r now))
    (hs : s.server.step k (.recv r now) = .ok u) :
    Covering k { s with
      server := u
      conns := fun fd => if s.server.ctl.todo.head? = some fd then
        (s.conns fd).serve (bufferSize - 1) else s.conns fd } := by
  obtain ⟨xs, hi⟩ := h.inv
  obtain ⟨fd, todo, hctl, hl, hg⟩ := Server.at_recv ha.1
  obtain ⟨-, hn, hfd⟩ := hi.next hctl
  have hclient : fd ∈ s.server.fds.clients := by tauto
  obtain ⟨hu, out, hout⟩ := recv_closes hi hctl hl hg hclient hs
  have hhead : s.server.ctl.todo.head? = some fd := by simp [hctl, Ctl.todo]
  have hpollin := (hy fd hhead).1
  obtain ⟨hreported, -, -⟩ := reported_handled hctl hu hn
  have hconn := h.conns fd hclient
  rw [State.pending, hreported, hpollin] at hconn
  refine h.handled hctl hn hu (hi.of_step ha hs) (hi.registered_closes h.registered hout) rfl
    (Or.inr ⟨hl, rfl⟩) (Or.inr ⟨hg, rfl⟩) ?_
  intro x hx
  rw [hout.clients] at hx
  by_cases hxf : x = fd
  · left
    simp only [hxf, hhead, ite_true]
    exact hconn.serve
  · refine Or.inr ⟨hxf, (Finset.mem_sdiff.mp hx).1, if_neg ?_⟩
    rw [hhead]
    exact fun he => hxf (Option.some.inj he).symm

/-- A report that is not `EPOLLIN` stood for nothing to read. -/
theorem Covering.skip (h : Covering k s) {u : Server} (ha : s.server.Allowed k .skip)
    (hy : s.Yields k .skip) (hs : s.server.step k .skip = .ok u) :
    Covering k { s with server := u } := by
  obtain ⟨xs, hi⟩ := h.inv
  obtain ⟨fd, todo, hctl, hl⟩ := Server.at_skip ha.1
  obtain ⟨-, hn, -⟩ := hi.next hctl
  have hu := hi.of_step ha hs
  obtain rfl : { s.server with ctl := .batch todo } = u := by simpa [Server.step, hctl, hl] using hs
  have hpollin : s.pollin fd = false := hy fd (by simp [hctl, Ctl.todo])
  have hpending : s.pending fd = false := by simp [State.pending, hpollin]
  refine h.handled hctl hn rfl hu h.registered rfl (Or.inr ⟨hl, rfl⟩) ?_ ?_
  · by_cases he : fd = k.sigfd
    · left
      rw [← hpending, he]
      exact h.sigs
    · exact Or.inr ⟨he, rfl⟩
  · intro x hx
    by_cases he : x = fd
    · left
      rw [← hpending, ← he]
      exact h.conns x hx
    · exact Or.inr ⟨he, hx, rfl⟩

/-- One `accept` takes the connection its report stood for; what came over it before is
covered by the edge of its registration. -/
theorem Covering.accept (h : Covering k s) {connfd now : Int} {p : Ptr} {early : List UInt8}
    (he : early.length ≤ bufferSize - 1) (gone : Bool) {u : Server}
    (ha : s.server.Allowed k (.accept connfd p now))
    (hs : s.server.step k (.accept connfd p now) = .ok u) :
    Covering k { s with
      server := u
      listen := s.listen.serve 1
      conns := Function.update s.conns connfd.toNat
        (if gone then (Inbox.registered early).hangup else .registered early)
      eof := Function.update s.eof connfd.toNat gone } := by
  obtain ⟨xs, hi⟩ := h.inv
  obtain ⟨todo, hctl⟩ := Server.at_accept ha.1
  obtain ⟨-, hn, -⟩ := hi.next hctl
  obtain ⟨-, hu, hclients, hinterest⟩ := accept_fds hctl hs
  obtain ⟨hreported, -, -⟩ := reported_handled hctl hu hn
  have hlisten := h.listen
  rw [hreported] at hlisten
  have hreg : u.Registered k := by
    intro fd
    rw [hclients, hinterest, Finset.mem_insert, Finset.mem_insert, h.registered fd]
    tauto
  have hnew : (if gone then (Inbox.registered early).hangup else .registered early).Covered
      (bufferSize - 1) false := by
    have hearly : (Inbox.registered early).Covered (bufferSize - 1) false :=
      Inbox.covered_registered he
    split
    · exact hearly.hangup
    · exact hearly
  refine h.handled hctl hn hu (hi.of_step ha hs) hreg rfl (Or.inl hlisten.serve)
    (Or.inr ⟨k.ne, rfl⟩) ?_
  intro fd hfd
  by_cases hnewfd : fd = connfd.toNat
  · left
    simp only [hnewfd, Function.update_self]
    exact hnew
  · have hold : fd ∈ s.server.fds.clients := by
      rw [hclients] at hfd
      exact Finset.mem_of_mem_insert_of_ne hfd hnewfd
    refine Or.inr ⟨(hi.client_ne hold).1, hold, ?_⟩
    exact Function.update_of_ne hnewfd ..

/-- A step of the loop with no event at hand. -/
theorem Covering.between (h : Covering k s) {u : Server} (hs : s.server.ctl.todo = [])
    (hu : u.ctl.todo = []) (hi : ∃ ys, Inv k u ys) {out : Finset Nat}
    (hc : s.server.Closes u out) : Covering k { s with server := u } := by
  obtain ⟨xs, hold⟩ := h.inv
  have hsame (fd : Nat) : u.reported fd = s.server.reported fd := by
    rw [Server.reported, Server.reported, hs, hu]
  have hpending (fd : Nat) : ({ s with server := u } : State).pending fd = s.pending fd := by
    rw [State.pending, State.pending, hsame]
  refine ⟨hi, hold.registered_closes h.registered hc, ?_, ?_, ?_⟩
  · rw [hsame]
    exact h.listen
  · rw [hpending]
    exact h.sigs
  · intro fd hfd
    rw [hpending]
    apply h.conns fd
    rw [hc.clients] at hfd
    exact (Finset.mem_sdiff.mp hfd).1

/-- Something arrives from a client. -/
theorem Covering.conn (h : Covering k s) {fd : Nat} {c : Inbox UInt8} (eof : Nat → Bool)
    (hc : c.Covered (bufferSize - 1) (s.pending fd)) :
    Covering k { s with conns := Function.update s.conns fd c, eof := eof } := by
  refine ⟨h.inv, h.registered, h.listen, h.sigs, fun x hx => ?_⟩
  by_cases hxf : x = fd
  · simp only [hxf, Function.update_self]
    exact hc
  · simp only [Function.update_of_ne hxf]
    exact h.conns x hx

/-- Every step with spaced input keeps it covered. -/
theorem Covering.step (h : Covering k s) {a : Act} (ha : s.Allowed k a) (hsp : s.Spaced k a)
    (hs : s.step k a = .ok t) : Covering k t := by
  obtain ⟨xs, hi⟩ := h.inv
  cases a with
  | server e =>
      cases hu : s.server.step k e with
      | error x => simp [State.step, hu] at hs
      | ok u =>
          simp only [State.step, hu, ok_bind] at hs
          cases e with
          | wake ready =>
              obtain rfl := Except.ok.inj hs
              exact h.wake ha.1 hu
          | fail =>
              obtain rfl := Except.ok.inj hs
              have hctl := Server.at_waiting ha.1.1 (Or.inr rfl)
              have hleft : { s.server with ctl := .left } = u := by
                simpa [Server.step, hctl] using hu
              refine h.between (by rw [hctl]; rfl) (by rw [← hleft]; rfl) (hi.of_step ha.1 hu)
                (closes_empty ?_ ?_)
              · rw [← hleft]
              · rw [← hleft]
          | accept => exact absurd ha.2 id
          | signals bytes =>
              obtain rfl := Except.ok.inj hs
              exact h.signals ha.1 ha.2 hu
          | recv r now =>
              obtain rfl := Except.ok.inj hs
              exact h.recv ha.1 ha.2 hu
          | skip =>
              obtain rfl := Except.ok.inj hs
              exact h.skip ha.1 ha.2 hu
          | endBatch now =>
              obtain rfl := Except.ok.inj hs
              have hctl := Server.at_endBatch ha.1.1
              obtain ⟨htodo, out, hout⟩ := endBatch_closes hi hctl hu
              exact h.between (by rw [hctl]; rfl) htodo (hi.of_step ha.1 hu) hout
  | accept connfd p now early gone =>
      cases hu : s.server.step k (.accept connfd p now) with
      | error x => simp [State.step, hu] at hs
      | ok u =>
          simp only [State.step, hu, ok_bind] at hs
          obtain rfl := Except.ok.inj hs
          exact h.accept hsp gone ha.1 hu
  | connect =>
      obtain rfl := Except.ok.inj hs
      exact ⟨h.inv, h.registered, Inbox.covered_arrive_iff.mpr hsp, h.sigs, h.conns⟩
  | bytes fd bs =>
      obtain rfl := Except.ok.inj hs
      exact h.conn s.eof (Inbox.covered_arrive_iff.mpr hsp)
  | hangup fd =>
      obtain rfl := Except.ok.inj hs
      exact h.conn _ (h.conns fd ha).hangup
  | signal b =>
      obtain rfl := Except.ok.inj hs
      exact ⟨h.inv, h.registered, h.listen, Inbox.covered_arrive_iff.mpr hsp, h.conns⟩

/-- In every run in which no arrival exceeds what one more report has room for, beside one still
to be handled, no input is left behind when the server blocks with nothing to report. -/
theorem idle_nothing_stranded (k : Setup) (users : Nat → ClientData) (clock : Int) {as : List Act}
    (h : (spaced k users clock).Run as s) (hq : s.Quiescent k) : s.Clear := by
  have hc : Covering k s := by
    apply h.invariant (covering_start k users clock)
    intro s a t hi ha hs
    exact hi.step ha.1 ha.2 hs
  exact hc.clear hq

/-- A client comes and is accepted. -/
def sampleAccepted : List Act :=
  [.connect, .server (.wake [3]), .accept 7 1 0 [] false, .server (.endBatch 0)]

/-- It sends a byte, and a `SIGALRM` is handled with it. -/
def sampleByte : List Act :=
  sampleAccepted ++ [.bytes 7 [97], .signal .alrm, .server (.wake [4, 7]),
    .server (.signals [.alrm]), .server (.recv .data 2), .server (.endBatch 2)]

/-- Nothing is left of both. -/
theorem idle_nothing_stranded_byte :
    ∃ s, (spaced sampleSetup (fun _ => ⟨0, none⟩) 0).Run sampleByte s ∧
      s.Quiescent sampleSetup ∧ s.Clear :=
  have ⟨s, hrun, hq⟩ := Machine.Run.of_exec_map (M := spaced sampleSetup (fun _ => ⟨0, none⟩) 0)
    (f := fun s => decide (s.Quiescent sampleSetup)) (x := true) sampleByte (by decide) (by decide)
  ⟨s, hrun, of_decide_eq_true hq, idle_nothing_stranded _ _ _ hrun (of_decide_eq_true hq)⟩

/-- A client sends 64 bytes at once. -/
def sampleFlood : List Act :=
  sampleAccepted ++ [.bytes 7 (List.replicate 64 97), .server (.wake [7]),
    .server (.recv .data 2), .server (.endBatch 2)]

/-- Two connections come before one report, or a client sends 64 bytes at once: the server
blocks with nothing to report, and a connection waits, or a byte is unread. -/
theorem idle_input_stranded :
    (∃ s, (inputs sampleSetup (fun _ => ⟨0, none⟩) 0).Run (.connect :: sampleAccepted) s ∧
      s.Quiescent sampleSetup ∧ ¬s.Clear) ∧
    ∃ s, (inputs sampleSetup (fun _ => ⟨0, none⟩) 0).Run sampleFlood s ∧
      s.Quiescent sampleSetup ∧ ¬s.Clear := by
  constructor
  · obtain ⟨s, hrun, hs⟩ := Machine.Run.of_exec_map
      (M := inputs sampleSetup (fun _ => ⟨0, none⟩) 0)
      (f := fun s => decide (s.Quiescent sampleSetup ∧ ¬s.Clear)) (x := true)
      (.connect :: sampleAccepted) (by decide) (by decide)
    exact ⟨s, hrun, of_decide_eq_true hs⟩
  · obtain ⟨s, hrun, hs⟩ := Machine.Run.of_exec_map
      (M := inputs sampleSetup (fun _ => ⟨0, none⟩) 0)
      (f := fun s => decide (s.Quiescent sampleSetup ∧ ¬s.Clear)) (x := true)
      sampleFlood (by decide) (by decide)
    exact ⟨s, hrun, of_decide_eq_true hs⟩

end Idle

end LinuxWebsocket
