import LinuxWebsocket.Timer.IdleTicks

/-!
# Which runs keep to `users` and to live timers

The accept path uses what `accept` returns without looking at it: a failure is
the index `-1`, and a client behind the first is a walk from a null pointer. No
other path of the loop can go wrong.
-/

namespace LinuxWebsocket

namespace Idle

variable {k : Setup} {s : Server}

/-- The step indexes `users` in range and follows no null or freed timer, and a
failed `accept` leaves the records, the timers and the descriptors as they were. -/
def Server.AccessesRight (k : Setup) (s : Server) (e : Event) : Prop :=
  ∃ t, s.step k e = .ok t ∧ ∀ connfd p now, e = .accept connfd p now → connfd < 0 →
    t.users = s.users ∧ t.timerLst = s.timerLst ∧ t.fds = s.fds

/-- Accesses only go wrong where a descriptor that is none, or a second client, is accepted. -/
theorem Single.accessesRight_iff (h : Single k s) {e : Event} (ha : s.Allowed k e)
    (hf : s.Forward e) : s.AccessesRight k e ↔ s.Alone e := by
  constructor
  · rintro ⟨t, ht, -⟩
    -- between batches nothing is accepted; elsewhere nothing ticks
    by_cases he : ∃ now, e = .endBatch now
    · obtain ⟨now, rfl⟩ := he
      exact trivial
    · apply (h.ticksRight_iff ha hf).mp
      exact ⟨t, ht, fun cur hcur => absurd ⟨cur, hcur⟩ he⟩
  · intro halone
    obtain ⟨t, ht, -⟩ := (h.ticksRight_iff ha hf).mpr halone
    refine ⟨t, ht, ?_⟩
    rintro connfd p now rfl hneg
    have hpos : 0 ≤ connfd := halone.2.1
    omega

/-- Under a clock that never runs backwards, every access of every step is
defined and every failed `accept` is without effect if and only if `accept` never
fails and no client is accepted while another is open. -/
theorem idle_accesses_right_iff (k : Setup) (users : Nat → ClientData) (clock : Int)
    (es : List Event)
    (ha : (forwardMachine k users clock).Along (forwardMachine k users clock).Allowed
      (forwardMachine k users clock).init es) :
    (forwardMachine k users clock).Along (Server.AccessesRight k)
        (forwardMachine k users clock).init es ↔
      (forwardMachine k users clock).Along Server.Alone (forwardMachine k users clock).init es := by
  apply Machine.along_iff (M := forwardMachine k users clock) (I := Single k) _ _ _ ha
  · intro s e hi hallowed
    exact hi.accessesRight_iff hallowed.1 hallowed.2
  · intro s e t hi hallowed hc hs
    exact hi.step hallowed.1 hallowed.2 hc hs
  · exact ⟨[], inv_start k users clock, by simp [Dated], by simp⟩

/-- A client that leaves, and one that takes over its descriptor and goes idle. -/
theorem idle_accesses_right_reuse :
    (forwardMachine sampleSetup (fun _ => ⟨0, none⟩) 0).Along (Server.AccessesRight sampleSetup)
      (forwardMachine sampleSetup (fun _ => ⟨0, none⟩) 0).init
      [.wake [3], .accept 7 1 0, .endBatch 0, .wake [7], .recv .eof 2, .endBatch 2, .wake [3],
        .accept 7 1 3, .endBatch 3, .wake [4], .signals [.alrm], .endBatch 18] :=
  (idle_accesses_right_iff _ _ _ _ (by decide)).mpr (by decide)

/-- `accept` fails on the first connection: its `-1` indexes `users`. -/
theorem idle_accept_failed :
    (forwardMachine sampleSetup (fun _ => ⟨0, none⟩) 0).Along
        (forwardMachine sampleSetup (fun _ => ⟨0, none⟩) 0).Allowed
        (forwardMachine sampleSetup (fun _ => ⟨0, none⟩) 0).init
        [.wake [3], .accept (-1) 1 0] ∧
      ¬(forwardMachine sampleSetup (fun _ => ⟨0, none⟩) 0).Along
        (Server.AccessesRight sampleSetup)
        (forwardMachine sampleSetup (fun _ => ⟨0, none⟩) 0).init
        [.wake [3], .accept (-1) 1 0] := by
  constructor
  · decide
  · intro h
    obtain ⟨⟨t, ht, -⟩, -⟩ := h.2 _ rfl
    cases ht

end Idle

end LinuxWebsocket
