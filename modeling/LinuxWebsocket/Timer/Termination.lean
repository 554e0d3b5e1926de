import LinuxWebsocket.Timer.Heartbeat

/-!
# How the idle-connection server stops

The handler of `SIGTERM` writes a byte like that of `SIGALRM`, and the loop is left behind the
batch in which the byte is read. Neither the alarm nor the clients are needed for that, and
neither can hold it up.
-/

namespace LinuxWebsocket

namespace Idle

open EdgeTriggered

/-- A `SIGTERM` will make the loop end, or has. -/
def State.Stopping (s : State) : Prop :=
  .term ∈ s.sigs.queue ∨ s.server.stopServer = true ∨ s.server.ctl = .left

section Stopping

variable {k : Setup} {s t : Server} {xs : List Ptr}

/-- A loop that was left takes no step. -/
theorem Server.at_left (h : s.ctl = .left) (e : Event) : s.at k e = false := by
  unfold Server.at
  rw [h]

/-- A `SIGTERM` byte sets `stop_server`. -/
theorem signals_stop {bytes : List Signal} (ha : s.Allowed k (.signals bytes))
    (hs : s.step k (.signals bytes) = .ok t) (hb : .term ∈ bytes) : t.stopServer = true := by
  obtain ⟨todo, hctl⟩ := Server.at_signals ha.1
  obtain rfl : signalBranch { s with ctl := .batch todo } bytes = t := by
    simpa [Server.step, hctl] using hs
  simp [signalBranch, hb]

/-- Nothing takes `stop_server` back. -/
theorem Inv.stopServer_step (h : Inv k s xs) {e : Event} (ha : s.Allowed k e)
    (hs : s.step k e = .ok t) (hstop : s.stopServer = true) : t.stopServer = true := by
  by_cases he : ∃ now, e = .endBatch now
  · obtain ⟨now, rfl⟩ := he
    exact (endBatch_flags ha hs).2.1.trans hstop
  · exact (h.flags ha hs fun now hn => he ⟨now, hn⟩).2.2 hstop

end Stopping

variable {k : Setup} {s t : State}

/-- No step of the loop loses a `SIGTERM`. -/
theorem State.Stopping.loop (h : s.Stopping) {xs : List Ptr} (hi : Inv k s.server xs) {e : Event}
    (ha : s.server.Allowed k e) (hs : s.server.step k e = .ok t.server)
    (hq : .term ∈ s.sigs.queue → .term ∈ t.sigs.queue ∨
      ∃ bytes, e = .signals bytes ∧ .term ∈ bytes) : t.Stopping := by
  rcases h with hqueue | hstop | hleft
  · rcases hq hqueue with hqueue | ⟨bytes, rfl, hb⟩
    · exact Or.inl hqueue
    · exact Or.inr (Or.inl (signals_stop ha hs hb))
  · exact Or.inr (Or.inl (hi.stopServer_step ha hs hstop))
  · have hat := ha.1
    rw [Server.at_left hleft] at hat
    cases hat

/-- A step either catches a `SIGTERM` or loses none. -/
theorem State.Stopping.step {xs : List Ptr} (hi : Inv k s.server xs) {a : Act}
    (ha : s.Allowed k a) (hs : s.step k a = .ok t) (h : s.Stopping ∨ a = .signal .term) :
    t.Stopping := by
  have harrival (hserver : t.server = s.server) (hq : ∀ b ∈ s.sigs.queue, b ∈ t.sigs.queue)
      (ho : s.Stopping) : t.Stopping := by
    unfold State.Stopping
    rw [hserver]
    exact ho.imp_left (hq _)
  cases a with
  | server e =>
      have ho := h.resolve_right (by simp)
      obtain ⟨hu, hqueue⟩ := server_step ha hs
      exact ho.loop hi ha.1 hu (hqueue _)
  | accept connfd p now early gone =>
      have ho := h.resolve_right (by simp)
      cases hu : s.server.step k (.accept connfd p now) with
      | error x => simp [State.step, hu] at hs
      | ok u =>
          simp only [State.step, hu, ok_bind] at hs
          obtain rfl := Except.ok.inj hs
          exact ho.loop hi ha.1 hu Or.inl
  | connect =>
      obtain rfl := Except.ok.inj hs
      exact harrival rfl (fun _ hb => hb) (h.resolve_right (by simp))
  | bytes fd bs =>
      obtain rfl := Except.ok.inj hs
      exact harrival rfl (fun _ hb => hb) (h.resolve_right (by simp))
  | hangup fd =>
      obtain rfl := Except.ok.inj hs
      exact harrival rfl (fun _ hb => hb) (h.resolve_right (by simp))
  | signal b =>
      obtain rfl := Except.ok.inj hs
      rcases h with ho | hb
      · exact harrival rfl (fun _ hb => List.mem_append_left _ hb) ho
      · obtain rfl : b = .term := by simpa using hb
        exact Or.inl (List.mem_append_right _ (List.mem_singleton_self _))

/-- Once a `SIGTERM` was caught, the loop will end. -/
theorem stopping_of_run {users : Nat → ClientData} {clock : Int} {as : List Pulse} {s : Beat}
    (h : (timely k users clock).Run as s) (hterm : .io (.signal .term) ∈ as) : s.io.Stopping := by
  induction h with
  | nil => simp at hterm
  | @snoc as s t a hrun ha hs ih =>
      obtain ⟨xs, hi, -⟩ := (beating_of_run hrun).single
      cases a with
      | io a =>
          cases hio : s.io.step k a with
          | error x => simp [timely, beats, Machine.restrict, Beat.step, hio] at hs
          | ok io =>
              have hs : Beat.step k s (.io a) = .ok t := hs
              simp only [Beat.step, hio, ok_bind] at hs
              obtain rfl := Except.ok.inj hs
              refine State.Stopping.step hi ha.1.1 hio ?_
              rcases List.mem_append.mp hterm with hterm | hterm
              · exact Or.inl (ih hterm)
              · exact Or.inr (by simpa using (List.mem_singleton.mp hterm).symm)
      | expire =>
          obtain rfl := Except.ok.inj hs
          exact ih (by simpa using hterm)
      | kill =>
          obtain rfl := Except.ok.inj hs
          exact ih (by simpa using hterm)

/-- In every timely run in which a `SIGTERM` was caught the loop was left, or will be at the end
of a batch, or the byte is still in the pipe; and the server waits no more but with the byte in
the pipe and its edge to be reported. -/
theorem sigterm_stops (k : Setup) (users : Nat → ClientData) (clock : Int) {as : List Pulse}
    {s : Beat} (h : (timely k users clock).Run as s) (hterm : .io (.signal .term) ∈ as) :
    s.io.Stopping ∧
      (s.io.server.ctl = .waiting → .term ∈ s.io.sigs.queue ∧ s.io.sigs.edge = true) := by
  have hb := beating_of_run h
  have hstop := stopping_of_run h hterm
  refine ⟨hstop, fun hwait => ?_⟩
  have hmem : .term ∈ s.io.sigs.queue := by
    have hflag := (hb.idle hwait).2
    rcases hstop with hqueue | hset | hleft
    · exact hqueue
    · simp [hflag] at hset
    · simp [hwait] at hleft
  refine ⟨hmem, ?_⟩
  by_contra hedge
  have hpending : s.io.pending k.sigfd = false := by
    simp [State.pending, Server.reported, hwait, Ctl.todo]
  have hcov := hb.covering.sigs
  rw [hpending] at hcov
  have hnone := hcov.drained fun he => absurd he hedge
  simp [hnone] at hmem

/-- A client comes, and a `SIGTERM` is caught while the server waits for it. -/
theorem sigterm_stops_one :
    ∃ s, (timely sampleSetup (fun _ => ⟨0, none⟩) 0).Run
        (sampleClient ++ [.io (.signal .term)]) s ∧
      s.io.server.fds.clients = {7} ∧ s.io.server.ctl = .waiting ∧
        .term ∈ s.io.sigs.queue ∧ s.io.sigs.edge = true := by
  obtain ⟨s, hrun, hs⟩ := Machine.Run.of_exec_map
    (M := timely sampleSetup (fun _ => ⟨0, none⟩) 0)
    (f := fun s => (s.io.server.fds.clients, s.io.server.ctl)) (x := ({7}, .waiting))
    (sampleClient ++ [.io (.signal .term)]) (by decide) (by decide)
  simp only [Prod.mk.injEq] at hs
  obtain ⟨hclients, hwait⟩ := hs
  exact ⟨s, hrun, hclients, hwait, (sigterm_stops _ _ _ hrun (by simp)).2 hwait⟩

end Idle

end LinuxWebsocket
