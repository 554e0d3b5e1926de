import LinuxWebsocket.Pool.Reaping

/-!
# Whom a connection is dispatched to

The search of the dispatch branch goes once round the table and settles on the first live
child at or behind the counter, which then moves on behind that child. While the same
children live, successive selections go through all of them in turn. The notification is
sent by another index, the position of the event in its batch.
-/

namespace LinuxWebsocket

namespace Pool

open RoundRobin

variable {c : Setup} {s t : Parent}

/-- The children `m_sub_process` holds as live. -/
def liveChildren (c : Setup) (s : Parent) : List Nat := (List.range c.mProcessNumber).filter s.live

/-- The child the search of the dispatch branch settles on, if it is live. -/
def selected (c : Setup) (s : Parent) : Option Nat :=
  match search c s c.mProcessNumber s.subProcessCounter with
  | .ok j => if (s.mSubProcess j).mPid ≠ -1 then some j else none
  | .error _ => none

/-- The children selected while events are handled, in order. -/
def selections (c : Setup) : Parent → List Event → List Nat
  | _, [] => []
  | s, e :: es =>
    match s.step c e with
    | .error _ => []
    | .ok t => (if e = .dispatch then (selected c s).toList else []) ++ selections c t es

/-- The search settles on the next live child. -/
theorem selected_eq (hc : s.subProcessCounter < c.mProcessNumber) :
    selected c s = next s.live c.mProcessNumber s.subProcessCounter := by
  rw [selected, search_eq hc]
  cases hn : next s.live c.mProcessNumber s.subProcessCounter with
  | none =>
      have hdead := (next_eq_none hc).mp hn _ hc
      simpa [Parent.live] using hdead
  | some j =>
      have hlive := (next_eq_some hc hn).2
      simpa [Parent.live] using hlive

/-- Only a dispatch moves the counter. -/
theorem Move.counter {e : Event} (h : Move c s e t) (he : e ≠ .dispatch) :
    t.subProcessCounter = s.subProcessCounter := by
  cases h with
  | sent => exact absurd rfl he
  | deserted => exact absurd rfl he
  | wake | fail | signals | chld | kill | ignored | bytesDone | joined | stranger | endReap |
    skip | goOn | leave | die => rfl

/-- A dispatch serves the next live child by moving the counter behind it, and sends the
notification by its position; if no child lives it raises `m_stop`. -/
theorem Inv.dispatched (h : Inv c s) (hm : Move c s .dispatch t) :
    (∃ i todo j, s.ctl = .batch i todo ∧
      next s.live c.mProcessNumber s.subProcessCounter = some j ∧
      t.subProcessCounter = (j + 1) % c.mProcessNumber ∧
      t.sent = (i, (s.mSubProcess i).mPipefd.1) :: s.sent) ∨
    (next s.live c.mProcessNumber s.subProcessCounter = none ∧
      t.subProcessCounter = s.subProcessCounter ∧ t.sent = s.sent) := by
  cases hm with
  | sent hctl hn => exact .inl ⟨_, _, _, hctl, hn, rfl, rfl⟩
  | deserted _ hall =>
      refine .inr ⟨?_, rfl, rfl⟩
      rw [next_eq_none h.counter]
      intro k hk
      have hdead : (s.mSubProcess k).mPid = -1 :=
        not_not.mp fun hne => (h.mPid_ne hk).mp hne (hall k hk)
      simp [Parent.live, hdead]

/-- While the same children live, selections follow one another as in the circle. -/
theorem selections_eq_picks {live : Nat → Bool} (h : Inv c s) {es : List Event}
    (ha : (parentMachine c).Along (parentMachine c).Allowed s es)
    (hl : (parentMachine c).Along (fun u _ => ∀ k, k < c.mProcessNumber → u.live k = live k) s es) :
    ∃ m, selections c s es = picks live c.mProcessNumber s.subProcessCounter m := by
  induction es generalizing s with
  | nil => exact ⟨0, rfl⟩
  | cons e es ih =>
      obtain ⟨hallowed, harest⟩ := ha
      obtain ⟨hlive, hlrest⟩ := hl
      obtain ⟨t, hstep, hmove⟩ := h.step_move hallowed
      obtain ⟨m, hm⟩ := ih (h.move hmove) (harest t hstep) (hlrest t hstep)
      have hcons : selections c s (e :: es) =
          (if e = .dispatch then (selected c s).toList else []) ++ selections c t es := by
        rw [selections, hstep]
      rw [hcons, selected_eq h.counter, hm]
      by_cases he : e = .dispatch
      · subst he
        have hnext : next s.live c.mProcessNumber s.subProcessCounter =
            next live c.mProcessNumber s.subProcessCounter := next_congr hlive
        rw [if_pos rfl]
        rcases h.dispatched hmove with ⟨_, _, j, -, hn, hc, -⟩ | ⟨hn, hc, -⟩
        · exact ⟨m + 1, by rw [picks, ← hnext, hn, hc]; rfl⟩
        · exact ⟨m, by rw [hn, hc]; rfl⟩
      · exact ⟨m, by rw [if_neg he, hmove.counter he, List.nil_append]⟩

/-- The search finds the first live child at or behind the counter, in a circle, or none, and
every run of consecutive selections that is as long as there are children lets each of
them have its turn, for as long as the same children live. -/
theorem round_robin_fair (c : Setup) :
    (∀ (s : Parent) (i : Nat) (todo : List Nat), s.subProcessCounter < c.mProcessNumber →
      (∃ d, d < c.mProcessNumber ∧ s.live ((s.subProcessCounter + d) % c.mProcessNumber) = true ∧
          (∀ e, e < d → s.live ((s.subProcessCounter + e) % c.mProcessNumber) = false) ∧
          search c s c.mProcessNumber s.subProcessCounter =
            .ok ((s.subProcessCounter + d) % c.mProcessNumber) ∧
          ∃ t, dispatch c s i todo = .ok t ∧ t.mStop = s.mStop ∧ t.subProcessCounter =
            ((s.subProcessCounter + d) % c.mProcessNumber + 1) % c.mProcessNumber) ∨
        ((∀ k, k < c.mProcessNumber → s.live k = false) ∧
          search c s c.mProcessNumber s.subProcessCounter = .ok s.subProcessCounter ∧
          ∃ t, dispatch c s i todo = .ok t ∧ t.mStop = true ∧ t.sent = s.sent)) ∧
    ∀ (es : List Event) (s : Parent), (parentMachine c).Run es s →
      s.subProcessCounter < c.mProcessNumber ∧
      ∀ fs, (parentMachine c).Along (parentMachine c).Allowed s fs →
        (parentMachine c).Along (fun u _ => ∀ k, k < c.mProcessNumber → u.live k = s.live k) s fs →
        ∀ d, d + (liveChildren c s).length ≤ (selections c s fs).length →
          (((selections c s fs).drop d).take (liveChildren c s).length).Perm
            (liveChildren c s) := by
  constructor
  · intro s i todo hc
    rw [search_eq hc, dispatch_eq hc]
    cases hn : next s.live c.mProcessNumber s.subProcessCounter with
    | none => exact .inr ⟨(next_eq_none hc).mp hn, rfl, _, rfl, rfl, rfl⟩
    | some j =>
        obtain ⟨d, hd, rfl, hlive, hbefore⟩ := next_eq_some_iff.mp hn
        exact .inl ⟨d, hd, hlive, hbefore, rfl, _, rfl, rfl, rfl⟩
  · intro es s hrun
    have hi := inv_of_run hrun
    refine ⟨hi.counter, fun fs ha hl d hd => ?_⟩
    obtain ⟨m, hm⟩ := selections_eq_picks hi ha hl
    rw [hm] at hd ⊢
    exact picks_fair hd

/-- Two dispatches serve two children in turn. -/
theorem round_robin_fair_two : ∃ s, (parentMachine sampleSetup).Run [.wake [3], .dispatch] s ∧
    (selections sampleSetup s [.endBatch, .wake [3, 3], .dispatch, .dispatch]).Perm [0, 1] := by
  have hrun := Machine.Run.of_exec (M := parentMachine sampleSetup) [.wake [3], .dispatch]
    (by decide) rfl
  refine ⟨_, hrun, ?_⟩
  exact ((round_robin_fair sampleSetup).2 _ _ hrun).2
    [.endBatch, .wake [3, 3], .dispatch, .dispatch] (by decide) (by decide) 0 (by decide)

/-! ## Notifications -/

/-- The position in its batch of the event being handled. -/
def Parent.position (s : Parent) : Option Nat :=
  match s.ctl with
  | .batch i _ => some i
  | _ => none

/-- A connection is announced through the open pipe of the child the search settles on, by that
child's entry, if a child lives. Nothing else is sent. -/
def Parent.NotifiesRight (c : Setup) (s : Parent) (e : Event) : Prop :=
  ∃ t, s.step c e = .ok t ∧
    if e = .dispatch ∧ ∃ k, k < c.mProcessNumber ∧ s.live k = true then
      ∃ j, selected c s = some j ∧ j < c.mProcessNumber ∧ (s.mSubProcess j).mPid ≠ -1 ∧
        (s.mSubProcess j).mPipefd.1 ∉ s.closed ∧ t.sent = (j, (s.mSubProcess j).mPipefd.1) :: s.sent
    else t.sent = s.sent

/-- The event of the listening socket stands in its batch at the position that is the index of
the first live child at or behind the counter, if a child lives. -/
def Parent.Aimed (c : Setup) (s : Parent) (e : Event) : Prop :=
  e = .dispatch → next s.live c.mProcessNumber s.subProcessCounter = none ∨
    next s.live c.mProcessNumber s.subProcessCounter = s.position

instance (s : Parent) (e : Event) : Decidable (s.Aimed c e) :=
  inferInstanceAs (Decidable (_ → _))

/-- Only a dispatch sends. -/
theorem Move.sent_eq {e : Event} (h : Move c s e t) (he : e ≠ .dispatch) : t.sent = s.sent := by
  cases h with
  | sent => exact absurd rfl he
  | deserted => exact absurd rfl he
  | wake | fail | signals | chld | kill | ignored | bytesDone | joined | stranger | endReap |
    skip | goOn | leave | die => rfl

/-- The pipe of a live child is open. -/
theorem Inv.pipe_open (h : Inv c s) {j : Nat} (hj : j < c.mProcessNumber)
    (hl : s.live j = true) : (s.mSubProcess j).mPid ≠ -1 ∧
      (s.mSubProcess j).mPipefd.1 ∉ s.closed := by
  have hpid : (s.mSubProcess j).mPid ≠ -1 := by simpa [Parent.live] using hl
  have hcount := h.closed j hj
  rw [if_neg ((h.mPid_ne hj).mp hpid)] at hcount
  refine ⟨hpid, ?_⟩
  rw [h.table j hj]
  exact List.count_eq_zero.mp hcount

/-- A step notifies whom it should exactly if its event stands at the right position. -/
theorem Inv.notifies_iff (h : Inv c s) {e : Event} (ha : s.Allowed c e) :
    s.NotifiesRight c e ↔ s.Aimed c e := by
  obtain ⟨t, hstep, hmove⟩ := h.step_move ha
  have hdet : ∀ u, s.step c e = .ok u → u = t := fun u hu => Except.ok.inj (hu.symm.trans hstep)
  by_cases he : e = .dispatch
  · subst he
    rcases h.dispatched hmove with ⟨i, todo, j, hctl, hn, -, hsent⟩ | ⟨hn, -, hsent⟩
    · obtain ⟨hj, hlive⟩ := next_eq_some h.counter hn
      have hserved : Event.dispatch = .dispatch ∧ ∃ k, k < c.mProcessNumber ∧ s.live k = true :=
        ⟨rfl, j, hj, hlive⟩
      have hsel : selected c s = some j := (selected_eq h.counter).trans hn
      constructor
      · rintro ⟨u, hu, hr⟩ -
        obtain rfl := hdet u hu
        rw [if_pos hserved] at hr
        obtain ⟨j', hj', -, -, -, hs⟩ := hr
        obtain rfl := Option.some.inj (hsel.symm.trans hj')
        rw [hsent] at hs
        obtain rfl : i = j := congrArg Prod.fst (List.cons.inj hs).1
        exact .inr (hn.trans (by rw [Parent.position, hctl]))
      · intro haim
        have hi : s.position = some i := by rw [Parent.position, hctl]
        obtain rfl : j = i := by simpa [hn, hi] using haim rfl
        obtain ⟨hpid, hopen⟩ := h.pipe_open hj hlive
        refine ⟨t, hstep, ?_⟩
        rw [if_pos hserved]
        exact ⟨j, hsel, hj, hpid, hopen, hsent⟩
    · have hdead :
          ¬ (Event.dispatch = .dispatch ∧ ∃ k, k < c.mProcessNumber ∧ s.live k = true) := by
        rintro ⟨-, k, hk, hlive⟩
        simp [(next_eq_none h.counter).mp hn k hk] at hlive
      refine iff_of_true ⟨t, hstep, ?_⟩ fun _ => .inl hn
      rwa [if_neg hdead]
  · refine iff_of_true ⟨t, hstep, ?_⟩ fun hd => absurd hd he
    rw [if_neg fun hd => he hd.1]
    exact hmove.sent_eq he

/-- Along a run every connection is announced to the child selected for it exactly if each
event of the listening socket stands at that child's position. -/
theorem notifications_right_iff (c : Setup) (es : List Event)
    (ha : (parentMachine c).Along (parentMachine c).Allowed (parentMachine c).init es) :
    (parentMachine c).Along (Parent.NotifiesRight c) (parentMachine c).init es ↔
      (parentMachine c).Along (Parent.Aimed c) (parentMachine c).init es :=
  Machine.along_iff (M := parentMachine c) (I := Inv c)
    (fun _ _ hi hallowed => hi.notifies_iff hallowed)
    (fun _ _ _ hi hallowed _ hs => hi.move (hi.move_of_step hallowed hs)) (inv_start c) ha

/-- The first connection is alone in its batch, the second one comes behind a signal. -/
theorem notifications_right_two :
    (parentMachine sampleSetup).Along (Parent.NotifiesRight sampleSetup)
      (parentMachine sampleSetup).init
      [.wake [3], .dispatch, .endBatch, .wake [7, 3], .signals [], .byte, .dispatch] :=
  (notifications_right_iff sampleSetup _ (by decide)).mpr (by decide)

/-- The first child exits and is waited for; the next connection is alone in its batch. -/
def sampleReaped : List Event :=
  [.die 0, .wake [7], .signals [.chld], .byte, .waitpid (some 101), .waitpid none, .byte,
    .endBatch, .wake [3]]

/-- It is announced through the closed pipe of that child. -/
theorem notification_to_reaped :
    ∃ s t, (parentMachine sampleSetup).Run sampleReaped s ∧
      s.Allowed sampleSetup .dispatch ∧ s.step sampleSetup .dispatch = .ok t ∧
      selected sampleSetup s = some 1 ∧ t.sent = [(0, 4)] ∧ (4 : Nat) ∈ s.closed ∧
      ¬ s.NotifiesRight sampleSetup .dispatch := by
  have hrun := Machine.Run.of_exec (M := parentMachine sampleSetup) sampleReaped (by decide) rfl
  refine ⟨_, _, hrun, by decide, rfl, by decide, rfl, by decide, ?_⟩
  intro hright
  have haim := ((inv_of_run hrun).notifies_iff (by decide)).mp hright
  exact absurd haim (by decide)

end Pool

end LinuxWebsocket
