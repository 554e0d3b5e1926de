import LinuxWebsocket.Chat.Registry

/-!
# Leaving the loop

`stop_server` should be up exactly when `SIGTERM` or `SIGINT` was handled and no
client is left. It is set by the signal branches and tested between batches only,
so a connection handled behind it in the same batch still gets a child.
-/

namespace LinuxWebsocket

namespace Chat

variable {k : Setup} {s t : Parent}

/-- What `stop_server` should say, and what it should do. -/
structure Parent.StopsRight (s : Parent) : Prop where
  /-- Except within the `waitpid` loop, the flag is up once asked for and no client is left. -/
  flag : (∀ bytes todo, s.ctl ≠ .reaping bytes todo) →
    (s.stopServer = true ↔ s.asked = true ∧ s.userCount = 0)
  /-- The loop is not left through the flag with a child. -/
  left : s.ctl = .left → s.kernel.procs = []
  /-- The loop does not go on once it was asked to stop and the last child was reaped. -/
  waiting : s.ctl = .waiting → ¬(s.asked = true ∧ s.userCount = 0)

/-- The step meets no fault and leaves the flag right. -/
def Parent.Stops (k : Setup) (s : Parent) (e : Event) : Prop :=
  ∃ t, s.step k e = .ok t ∧ t.StopsRight

/-- No child is forked once the flag is up. -/
def Parent.NoneAfterStop (s : Parent) : Event → Prop
  | .accept ⟨some _, some _, some _⟩ => s.userCount < userLimit → s.stopServer = false
  | _ => True

instance (s : Parent) (e : Event) : Decidable (s.NoneAfterStop e) := by
  unfold Parent.NoneAfterStop
  split <;> infer_instance

/-- The invariant behind the flag. -/
structure Flags (s : Parent) : Prop where
  /-- The flag is up only if asked for and no client is left. -/
  sound : s.stopServer = true → s.asked = true ∧ s.userCount = 0
  /-- A request that did not put the flag up is remembered. -/
  kept : s.asked = true → s.terminate = true ∨ s.stopServer = true
  terminate : s.terminate = true → s.asked = true
  /-- Except within the `waitpid` loop, the flag is up when it should be. -/
  complete : (∀ bytes todo, s.ctl ≠ .reaping bytes todo) → s.asked = true → s.userCount = 0 →
    s.stopServer = true
  left : s.ctl = .left → s.stopServer = true
  waiting : s.ctl = .waiting → s.stopServer = false

/-- Under the invariant the flag is right. -/
theorem Flags.stopsRight (hi : Inv k s) (h : Flags s) : s.StopsRight := by
  refine ⟨fun hc => ⟨h.sound, fun ha => h.complete hc ha.1 ha.2⟩, ?_, ?_⟩
  · intro hl
    have hn := hi.length_procs
    rw [(h.sound (h.left hl)).2] at hn
    exact List.length_eq_zero_iff.mp hn
  · rintro hw ⟨ha, hn⟩
    have hstop := h.complete (by simp [hw]) ha hn
    rw [h.waiting hw] at hstop
    cases hstop

/-- A step outside the `waitpid` loop that leaves the flags and the number of clients alone. -/
theorem Flags.goto (h : Flags s) (hs : ∀ bytes todo, s.ctl ≠ .reaping bytes todo)
    (hn : t.userCount = s.userCount) (hst : t.stopServer = s.stopServer)
    (hte : t.terminate = s.terminate) (has : t.asked = s.asked)
    (hl : t.ctl = .left → s.stopServer = true) (hw : t.ctl = .waiting → s.stopServer = false) :
    Flags t := by
  refine ⟨?_, ?_, ?_, ?_, hst ▸ hl, hst ▸ hw⟩
  · rw [hst, has, hn]
    exact h.sound
  · rw [hst, has, hte]
    exact h.kept
  · rw [hte, has]
    exact h.terminate
  · rw [hst, has, hn]
    exact fun _ => h.complete hs

/-- Every move but forking a child behind the flag keeps the invariant. -/
theorem Flags.move (h : Flags s) {e : Event} (hm : Move k s e t)
    (hc : s.NoneAfterStop e) : Flags t := by
  cases hm with
  | wake hctl => exact h.goto (by simp [hctl]) rfl rfl rfl rfl nofun nofun
  | fail hctl => exact h.goto (by simp [hctl]) rfl rfl rfl rfl nofun nofun
  | refused hctl => exact h.goto (by simp [hctl]) rfl rfl rfl rfl nofun nofun
  | aborted hctl => exact h.goto (by simp [hctl]) rfl rfl rfl rfl nofun nofun
  | unforked hctl => exact h.goto (by simp [hctl]) rfl rfl rfl rfl nofun nofun
  | admitted _ hn =>
      have hstop : s.stopServer = false := hc hn
      refine ⟨?_, h.kept, h.terminate, ?_, nofun, nofun⟩
      · intro hs
        cases hstop.symm.trans hs
      · intro _ _ hz
        cases hz
  | signals hctl => exact h.goto (by simp [hctl]) rfl rfl rfl rfl nofun nofun
  | chld hctl => exact h.goto (by simp [hctl]) rfl rfl rfl rfl nofun nofun
  | ignored hctl => exact h.goto (by simp [hctl]) rfl rfl rfl rfl nofun nofun
  | stop _ _ hn =>
      exact ⟨fun _ => ⟨rfl, hn⟩, fun _ => Or.inr rfl, fun _ => rfl, fun _ _ _ => rfl, nofun, nofun⟩
  | kill _ _ hn =>
      exact ⟨fun hs => absurd (h.sound hs).2 hn, fun _ => Or.inl rfl, fun _ => rfl,
        fun _ _ hz => absurd hz hn, nofun, nofun⟩
  | bytesDone hctl => exact h.goto (by simp [hctl]) rfl rfl rfl rfl nofun nofun
  | reaped hctl _ _ hlt =>
      -- a client is left before the child is reaped, so the flag is not up
      have hstop : s.stopServer ≠ true := fun hs => by
        have := (h.sound hs).2
        omega
      have hnow (c : Ctl) (hne : ∀ bytes todo, c ≠ .reaping bytes todo) : s.ctl ≠ c :=
        fun he => hne _ _ (he.symm.trans hctl)
      refine ⟨fun hs => absurd hs hstop, h.kept, h.terminate, fun hr => absurd hctl (hr _ _), ?_,
        ?_⟩
      · exact fun hl => absurd hl (hnow _ nofun)
      · exact fun hw => absurd hw (hnow _ nofun)
  | endReap =>
      refine ⟨?_, ?_, h.terminate, ?_, nofun, nofun⟩
      · intro hs
        rcases Bool.or_eq_true_iff.mp hs with hs | hs
        · exact h.sound hs
        · obtain ⟨hterm, hn⟩ := Bool.and_eq_true_iff.mp hs
          exact ⟨h.terminate hterm, by simpa using hn⟩
      · intro ha
        rcases h.kept ha with hterm | hs
        · exact Or.inl hterm
        · exact Or.inr (by simp [hs])
      · intro _ ha hn
        have hz : s.userCount = 0 := hn
        rcases h.kept ha with hterm | hs
        · simp [hterm, hz]
        · simp [hs]
  | notify hctl => exact h.goto (by simp [hctl]) rfl rfl rfl rfl nofun nofun
  | endBatch hctl =>
      refine h.goto (by simp [hctl]) rfl rfl rfl rfl ?_ ?_ <;> cases s.stopServer <;> simp
  | die => exact ⟨h.sound, h.kept, h.terminate, h.complete, h.left, h.waiting⟩

/-- A step leaves the flag right exactly when it forks no child behind it. -/
theorem stops_iff (hi : Inv k s) (h : Flags s) {e : Event} (ha : s.Allowed k e) :
    s.Stops k e ↔ s.NoneAfterStop e := by
  obtain ⟨t, ht, hm⟩ := hi.step_move ha
  have hiff : s.Stops k e ↔ t.StopsRight := by
    simp only [Parent.Stops, ht, Except.ok.injEq, exists_eq_left']
  rw [hiff]
  constructor
  · intro hr
    cases hm with
    | @refused a todo hctl hno =>
        obtain ⟨_ | connfd, _ | fds, _ | pid⟩ := a <;> simp_all [Parent.NoneAfterStop]
    | admitted _ hn =>
        intro _
        by_contra hstop
        have hup : s.stopServer = true := by simpa using hstop
        cases ((hr.flag nofun).mp hup).2
    | _ => trivial
  · intro hc
    exact (h.move hm hc).stopsRight (hi.move hm)

/-- In every run `stop_server` is right throughout, so that the loop is left through it
without a child and not entered again once asked to stop and without one, if and only
if no child is forked once it is up. -/
theorem stop_server_right_iff (k : Setup) (users : Nat → ClientData) (es : List Event)
    (ha : (parentMachine k users).Along (parentMachine k users).Allowed (.start k users) es) :
    (parentMachine k users).Along (Parent.Stops k) (.start k users) es ↔
      (parentMachine k users).Along Parent.NoneAfterStop (.start k users) es := by
  refine Machine.along_iff (M := parentMachine k users) (I := fun s => Inv k s ∧ Flags s)
    (fun s e hi hallowed => stops_iff hi.1 hi.2 hallowed) ?_ ⟨inv_start k users, ?_⟩ ha
  · rintro s e t ⟨hi, hf⟩ hallowed hc hs
    have hm := hi.move_of_step hallowed hs
    exact ⟨hi.move hm, hf.move hm hc⟩
  · constructor <;> simp [Parent.start]

/-- A client's child is told to terminate, exits and is reaped, and the loop is left. -/
theorem stop_server_right_sigterm :
    (parentMachine sampleSetup fun _ => ⟨0, 0, 0, 0⟩).Along (Parent.Stops sampleSetup)
      (.start sampleSetup fun _ => ⟨0, 0, 0, 0⟩)
      [.wake [3], .accept ⟨some 7, some (8, 9), some 101⟩, .endBatch,
        .wake [5], .signals [.term], .byte, .byte, .endBatch, .die 101,
        .wake [5], .signals [.chld], .byte, .waitpid (some 101), .waitpid none, .byte, .endBatch] :=
  (stop_server_right_iff _ _ _ (by decide)).mpr (by decide)

/-- `SIGTERM` without a client and a new client in one batch: the loop is left with a child. -/
theorem stop_server_with_child :
    ∃ s, (parentMachine sampleSetup fun _ => ⟨0, 0, 0, 0⟩).Run
      [.wake [5, 3], .signals [.term], .byte, .byte,
        .accept ⟨some 7, some (8, 9), some 101⟩, .endBatch] s ∧ ¬s.StopsRight :=
  ⟨_, Machine.Run.of_exec _ (by decide) rfl, fun h => absurd (h.left rfl) (by decide)⟩

end Chat

end LinuxWebsocket
