import LinuxWebsocket.Chat.Registry

/-!
# The table `sub_process`

It should map the number of every registered child to the child's slot, and every
other number to -1. Reaping a child clears its entry and then rewrites that of the
record moved into its slot. When the record in the last slot is the child's own,
the second write undoes the first.
-/

namespace LinuxWebsocket

namespace Chat

open CompactTable

variable {k : Setup} {s t : Parent}

/-- `sub_process` is the inverse of the part of `users` in use. -/
def Parent.Inverse (s : Parent) : Prop :=
  Inverts (fun i => (s.users i).pid) s.userCount s.subProcess (-1)

/-- The step meets no fault and leaves `sub_process` the inverse of `users`. -/
def Parent.KeepsInverse (k : Setup) (s : Parent) (e : Event) : Prop :=
  ∃ t, s.step k e = .ok t ∧ t.Inverse

/-- The child `waitpid` returns is not the one of the last record. -/
def Parent.ReapsBefore (s : Parent) : Event → Prop
  | .waitpid (some pid) => pid ≠ (s.users (s.userCount - 1)).pid
  | _ => True

instance (s : Parent) (e : Event) : Decidable (s.ReapsBefore e) := by
  unfold Parent.ReapsBefore
  split <;> infer_instance

/-- Nothing is registered at the start, and every entry is -1. -/
theorem inverse_start (k : Setup) (users : Nat → ClientData) :
    (Parent.start k users).Inverse := by
  apply (inverts_iff (by decide)).mpr
  exact ⟨fun i hi => absurd hi (Nat.not_lt_zero i), fun _ _ => rfl⟩

/-- A record written to the first free slot is not in use yet. -/
theorem Parent.Inverse.unforked (h : s.Inverse) (connfd fd0 fd1 : Nat) :
    (s.unforked connfd fd0 fd1).Inverse := by
  refine Inverts.congr h fun i hi => ?_
  exact congrArg ClientData.pid (Function.update_of_ne (Nat.ne_of_lt hi) ..)

/-- Registering a new child keeps the inverse. -/
theorem Inv.inverse_admitted (hi : Inv k s) (h : s.Inverse) {connfd pid fd0 fd1 : Nat}
    (hfresh : ∀ p ∈ s.kernel.procs, p.pid ≠ pid) :
    (s.admitted connfd pid fd0 fd1).Inverse := by
  have hkey : ∀ i, i < s.userCount → (s.users i).pid ≠ pid := by
    intro i hi' he
    obtain ⟨p, hp, hr⟩ := hi.proc_of_slot hi'
    exact hfresh p hp ((congrArg Prod.fst hr).trans he)
  have hf : (fun i => ((s.admitted connfd pid fd0 fd1).users i).pid) =
      Function.update (fun i => (s.users i).pid) s.userCount pid :=
    Function.comp_update ClientData.pid s.users s.userCount _
  unfold Parent.Inverse
  rw [hf]
  exact Inverts.push (by decide) h hkey

/-- Reaping a child keeps the inverse exactly when its record is not the last. -/
theorem Inv.inverse_reaped_iff (hi : Inv k s) (h : s.Inverse) {i : Nat} {p : Proc}
    (hin : i < s.userCount) (hr : (s.users i).record = p.record) :
    (s.reaped i p).Inverse ↔ p.pid ≠ (s.users (s.userCount - 1)).pid := by
  have hpid : (s.users i).pid = p.pid := congrArg Prod.fst hr
  have hf : (fun j => ((s.reaped i p).users j).pid) =
      Function.update (fun j => (s.users j).pid) i (s.users (s.userCount - 1)).pid :=
    Function.comp_update ClientData.pid s.users i _
  have hlast : Inverts (fun j => (s.users j).pid) (s.userCount - 1 + 1) s.subProcess (-1) := by
    rw [Nat.sub_add_cancel (by omega)]
    exact h
  have hremove := inverts_remove_iff (by decide) hlast (d := i) (by omega)
  have hslot : i ≠ s.userCount - 1 ↔ p.pid ≠ (s.users (s.userCount - 1)).pid := by
    rw [← hpid]
    apply not_congr
    constructor
    · intro he
      rw [he]
    · exact hi.index.injective hin (by omega)
  unfold Parent.Inverse
  rw [hf, ← hslot, ← hremove, hpid]
  rfl

/-- A step keeps the inverse exactly when it does not reap the child of the last record. -/
theorem keepsInverse_iff (hi : Inv k s) (h : s.Inverse) {e : Event} (ha : s.Allowed k e) :
    s.KeepsInverse k e ↔ s.ReapsBefore e := by
  obtain ⟨t, ht, hm⟩ := hi.step_move ha
  have hiff : s.KeepsInverse k e ↔ t.Inverse := by
    simp only [Parent.KeepsInverse, ht, Except.ok.injEq, exists_eq_left']
  rw [hiff]
  cases hm with
  | wake => exact iff_of_true h trivial
  | fail => exact iff_of_true h trivial
  | refused => exact iff_of_true h trivial
  | aborted => exact iff_of_true h trivial
  | @unforked connfd fd0 fd1 todo =>
      have hb : ({ s with ctl := .batch todo } : Parent).Inverse := h
      exact iff_of_true (hb.unforked connfd fd0 fd1) trivial
  | @admitted _ _ _ _ todo _ _ _ _ hfresh =>
      have hib : Inv k { s with ctl := .batch todo } :=
        hi.frame rfl (fun _ _ => rfl) rfl rfl rfl rfl (Finset.Subset.refl _)
      exact iff_of_true (hib.inverse_admitted h hfresh) trivial
  | signals => exact iff_of_true h trivial
  | chld => exact iff_of_true h trivial
  | ignored => exact iff_of_true h trivial
  | stop => exact iff_of_true h trivial
  | kill => exact iff_of_true h trivial
  | bytesDone => exact iff_of_true h trivial
  | reaped _ _ _ hin hr => exact hi.inverse_reaped_iff h hin hr
  | endReap => exact iff_of_true h trivial
  | notify => exact iff_of_true h trivial
  | endBatch => exact iff_of_true h trivial
  | die => exact iff_of_true h trivial

/-- In every run `sub_process` is the inverse of `users` throughout if and only if no
child is reaped while its record is the last one. -/
theorem subProcess_inverse_iff (k : Setup) (users : Nat → ClientData) (es : List Event)
    (ha : (parentMachine k users).Along (parentMachine k users).Allowed (.start k users) es) :
    (parentMachine k users).Along (Parent.KeepsInverse k) (.start k users) es ↔
      (parentMachine k users).Along Parent.ReapsBefore (.start k users) es := by
  refine Machine.along_iff (M := parentMachine k users) (I := fun s => Inv k s ∧ s.Inverse)
    (fun s e hi hallowed => keepsInverse_iff hi.1 hi.2 hallowed) ?_
    ⟨inv_start k users, inverse_start k users⟩ ha
  rintro s e t ⟨hi, h⟩ hallowed hbefore hs
  obtain ⟨t', ht', h'⟩ := (keepsInverse_iff hi h hallowed).mpr hbefore
  obtain rfl := Except.ok.inj (ht'.symm.trans hs)
  exact ⟨hi.move (hi.move_of_step hallowed hs), h'⟩

/-- Two clients come and the first one's child is reaped. -/
theorem subProcess_inverse_moved :
    (parentMachine sampleSetup fun _ => ⟨0, 0, 0, 0⟩).Along (Parent.KeepsInverse sampleSetup)
      (.start sampleSetup fun _ => ⟨0, 0, 0, 0⟩)
      [.wake [3], .accept ⟨some 7, some (8, 9), some 101⟩, .endBatch,
        .wake [3], .accept ⟨some 7, some (9, 10), some 102⟩, .endBatch, .die 101,
        .wake [5], .signals [.chld], .byte, .waitpid (some 101), .waitpid none] :=
  (subProcess_inverse_iff _ _ _ (by decide)).mpr (by decide)

/-- One client comes and its child is reaped: no client is left, and `sub_process` still
maps the child's number to slot 0. -/
theorem subProcess_stale :
    ∃ s, (parentMachine sampleSetup fun _ => ⟨0, 0, 0, 0⟩).Run
      [.wake [3], .accept ⟨some 7, some (8, 9), some 101⟩, .endBatch, .die 101,
        .wake [5], .signals [.chld], .byte, .waitpid (some 101)] s ∧
      s.userCount = 0 ∧ s.subProcess 101 = 0 ∧ ¬s.Inverse := by
  refine ⟨_, Machine.Run.of_exec _ (by decide) rfl, rfl, rfl, ?_⟩
  intro h
  exact absurd ((h.slot 101 0).mp rfl).1 (by decide)

end Chat

end LinuxWebsocket
