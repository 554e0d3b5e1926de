import LinuxWebsocket.Chat.Registry

/-!
# Slots of the shared memory

A child writes to the slot it was given at its fork, the number of clients at the
time. The parent closes the gaps in `users` when children are reaped, so that
number need not be free: after the death of an earlier client a new child gets
the slot of the last one that came before it.
-/

namespace LinuxWebsocket

namespace Chat

variable {k : Setup} {s t : Parent}

/-- No two live children write to the same slot. -/
def Parent.DistinctSlots (s : Parent) : Prop :=
  ∀ p ∈ s.kernel.procs, ∀ q ∈ s.kernel.procs, p.dead = false → q.dead = false →
    p.idx = q.idx → p = q

instance (s : Parent) : Decidable s.DistinctSlots := by
  unfold Parent.DistinctSlots
  infer_instance

/-- The step meets no fault and leaves the live children in different slots. -/
def Parent.Separates (k : Setup) (s : Parent) (e : Event) : Prop :=
  ∃ t, s.step k e = .ok t ∧ t.DistinctSlots

/-- No live child holds the slot a new child would get. -/
def Parent.SlotFree (s : Parent) : Event → Prop
  | .accept ⟨some _, some _, some _⟩ => s.userCount < userLimit →
    ∀ p ∈ s.kernel.procs, p.dead = false → p.idx ≠ s.userCount
  | _ => True

instance (s : Parent) : ∀ e, Decidable (s.SlotFree e)
  | .accept ⟨some _, some _, some _⟩ => inferInstanceAs (Decidable (s.userCount < userLimit →
    ∀ p ∈ s.kernel.procs, p.dead = false → p.idx ≠ s.userCount))
  | .accept ⟨none, _, _⟩ | .accept ⟨some _, none, _⟩ | .accept ⟨some _, some _, none⟩
  | .wake _ | .fail | .signals _ | .byte | .waitpid _ | .notify _ | .endBatch | .die _ =>
    isTrue trivial

/-- Fewer children are in different slots, too. -/
theorem Parent.DistinctSlots.mono (h : s.DistinctSlots)
    (hsub : ∀ p ∈ t.kernel.procs, p ∈ s.kernel.procs) : t.DistinctSlots :=
  fun p hp q hq => h p (hsub p hp) q (hsub q hq)

/-- A child's exit leaves the others where they were. -/
theorem Parent.DistinctSlots.died (h : s.DistinctSlots) (pid : Nat) :
    (s.died pid).DistinctSlots := by
  intro p hp q hq hpl hql he
  obtain ⟨p', hp', hpe, hpd⟩ := mem_died hp
  obtain ⟨q', hq', hqe, hqd⟩ := mem_died hq
  have hpl' : p'.dead = false := by
    cases hd : p'.dead
    · rfl
    · exact absurd (hpd hd) (by simp [hpl])
  have hql' : q'.dead = false := by
    cases hd : q'.dead
    · rfl
    · exact absurd (hqd hd) (by simp [hql])
  have hidx : p'.idx = q'.idx := by
    rw [hpe, hqe] at he
    exact he
  have hsame := h p' hp' q' hq' hpl' hql' hidx
  rw [hpe, hqe, hsame, hpl, hql]

/-- A new child is in a slot of its own exactly when no live child holds it. -/
theorem distinctSlots_admitted_iff (h : s.DistinctSlots) {connfd pid fd0 fd1 : Nat}
    (hfresh : ∀ p ∈ s.kernel.procs, p.pid ≠ pid) :
    (s.admitted connfd pid fd0 fd1).DistinctSlots ↔
      ∀ p ∈ s.kernel.procs, p.dead = false → p.idx ≠ s.userCount := by
  have hmem (p : Proc) : p ∈ (s.admitted connfd pid fd0 fd1).kernel.procs ↔
      p ∈ s.kernel.procs ∨ p = ⟨pid, s.userCount, fd0, s.kernel.forks, false⟩ := by
    simp [Parent.admitted]
  constructor
  · intro hd p hp hl he
    have hsame := hd p ((hmem p).mpr (Or.inl hp)) _ ((hmem _).mpr (Or.inr rfl)) hl rfl he
    exact hfresh p hp (congrArg Proc.pid hsame)
  · intro hfree p hp q hq hpl hql he
    rcases (hmem p).mp hp with hp | rfl
    · rcases (hmem q).mp hq with hq | rfl
      · exact h p hp q hq hpl hql he
      · exact absurd he (hfree p hp hpl)
    · rcases (hmem q).mp hq with hq | rfl
      · exact absurd he.symm (hfree q hq hql)
      · rfl

/-- A step keeps the live children apart exactly when the slot it gives away is free. -/
theorem separates_iff (hi : Inv k s) (h : s.DistinctSlots) {e : Event} (ha : s.Allowed k e) :
    s.Separates k e ↔ s.SlotFree e := by
  obtain ⟨t, ht, hm⟩ := hi.step_move ha
  have hiff : s.Separates k e ↔ t.DistinctSlots := by
    simp only [Parent.Separates, ht, Except.ok.injEq, exists_eq_left']
  rw [hiff]
  cases hm with
  | wake => exact iff_of_true h trivial
  | fail => exact iff_of_true h trivial
  | @refused a todo hctl hno =>
      apply iff_of_true h
      obtain ⟨_ | connfd, _ | fds, _ | pid⟩ := a <;> simp_all [Parent.SlotFree]
  | aborted => exact iff_of_true h trivial
  | unforked => exact iff_of_true h trivial
  | @admitted connfd fd0 fd1 pid todo _ hn _ _ hfresh =>
      have hd : ({ s with ctl := .batch todo } : Parent).DistinctSlots := h
      rw [distinctSlots_admitted_iff hd hfresh]
      exact ⟨fun hfree _ => hfree, fun hfree => hfree hn⟩
  | signals => exact iff_of_true h trivial
  | chld => exact iff_of_true h trivial
  | ignored => exact iff_of_true h trivial
  | stop => exact iff_of_true h trivial
  | kill => exact iff_of_true h trivial
  | bytesDone => exact iff_of_true h trivial
  | reaped => exact iff_of_true (h.mono fun p hp => (List.mem_filter.mp hp).1) trivial
  | endReap => exact iff_of_true h trivial
  | notify => exact iff_of_true h trivial
  | endBatch => exact iff_of_true h trivial
  | die => exact iff_of_true (h.died _) trivial

/-- In every run the live children write to different slots throughout if and only if
no child is forked while a live one holds the slot `user_count`. -/
theorem slots_distinct_iff (k : Setup) (users : Nat → ClientData) (es : List Event)
    (ha : (parentMachine k users).Along (parentMachine k users).Allowed (.start k users) es) :
    (parentMachine k users).Along (Parent.Separates k) (.start k users) es ↔
      (parentMachine k users).Along Parent.SlotFree (.start k users) es := by
  refine Machine.along_iff (M := parentMachine k users) (I := fun s => Inv k s ∧ s.DistinctSlots)
    (fun s e hi hallowed => separates_iff hi.1 hi.2 hallowed) ?_
    ⟨inv_start k users, by simp [Parent.DistinctSlots, Parent.start]⟩ ha
  rintro s e t ⟨hi, hd⟩ hallowed hfree hs
  obtain ⟨t', ht', hd'⟩ := (separates_iff hi hd hallowed).mpr hfree
  obtain rfl := Except.ok.inj (ht'.symm.trans hs)
  exact ⟨hi.move (hi.move_of_step hallowed hs), hd'⟩

/-- Two clients come, the later one's child exits, and a third client gets its slot. -/
theorem slots_distinct_reused :
    (parentMachine sampleSetup fun _ => ⟨0, 0, 0, 0⟩).Along (Parent.Separates sampleSetup)
      (.start sampleSetup fun _ => ⟨0, 0, 0, 0⟩)
      [.wake [3], .accept ⟨some 7, some (8, 9), some 101⟩, .endBatch,
        .wake [3], .accept ⟨some 7, some (9, 10), some 102⟩, .endBatch, .die 102,
        .wake [5], .signals [.chld], .byte, .waitpid (some 102), .waitpid none, .byte, .endBatch,
        .wake [3], .accept ⟨some 7, some (9, 10), some 103⟩] :=
  (slots_distinct_iff _ _ _ (by decide)).mpr (by decide)

/-- Two clients come, the earlier one's child exits, and a third client gets the slot of
the one that stayed. -/
theorem slots_shared :
    ∃ s, (parentMachine sampleSetup fun _ => ⟨0, 0, 0, 0⟩).Run
      [.wake [3], .accept ⟨some 7, some (8, 9), some 101⟩, .endBatch,
        .wake [3], .accept ⟨some 7, some (9, 10), some 102⟩, .endBatch, .die 101,
        .wake [5], .signals [.chld], .byte, .waitpid (some 101), .waitpid none, .byte, .endBatch,
        .wake [3], .accept ⟨some 7, some (8, 10), some 103⟩] s ∧ ¬s.DistinctSlots :=
  ⟨_, Machine.Run.of_exec _ (by decide) rfl, by decide⟩

end Chat

end LinuxWebsocket
