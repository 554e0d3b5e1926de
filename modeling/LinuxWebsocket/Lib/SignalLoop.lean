import LinuxWebsocket.Lib.SelfPipe

/-!
# Event loops behind a self-pipe

A loop that tests a flag, blocks until descriptors are reported, and serves the reports
one by one; one of the descriptors is the signal pipe, whose bytes are read and handled
one by one, and some signals set the flag. Whatever else the loop serves, it cannot be
blocked for good when such a signal was sent to it.
-/

open EdgeTriggered

namespace SignalLoop

/-- Where a loop is. -/
inductive Ctl (α : Type)
  /-- At the test of the flag. -/
  | test
  /-- Blocked. -/
  | waiting
  /-- Serving reports, with these to go. -/
  | batch (todo : List α)
  /-- Handling signal bytes, with these reports to go. -/
  | signals (todo : List α)
  /-- Behind the loop. -/
  | left
  deriving DecidableEq, Repr

/-- The reports still to be served. -/
def Ctl.todo {α : Type} : Ctl α → List α
  | .batch todo => todo
  | .signals todo => todo
  | _ => []

/-- A loop and the signals of its process. -/
structure Loop (σ α : Type) where
  ctl : Ctl α
  stop : Bool
  sigs : SelfPipe σ
  /-- A signal that sets the flag was sent. -/
  told : Bool

namespace Loop

variable {σ α : Type}

/-- A loop at its first test. -/
def start : Loop σ α := ⟨.test, false, .empty, false⟩

/-- The loop is left while it is blocked. -/
def fail (l : Loop σ α) : Loop σ α := { l with ctl := .left }

/-- A loop is asleep when it is blocked with nothing to be reported or delivered to it. -/
def Asleep (l : Loop σ α) : Prop :=
  l.ctl = .waiting ∧ l.sigs.inbox.edge = false ∧ l.sigs.pending = ∅

variable [DecidableEq α]

/-- These descriptors are reported, none if a signal interrupts the loop. -/
def wake (fd : α) (l : Loop σ α) (ready : List α) : Loop σ α :=
  { l with
    sigs := if fd ∈ ready then l.sigs.report else l.sigs
    ctl := .batch ready }

/-- The next step of a loop that is not blocked; at most `cap` signal bytes are read at once. -/
def run (stops : σ → Bool) (fd : α) (cap : Nat) (l : Loop σ α) : Loop σ α :=
  match l.ctl with
  | .test => { l with ctl := if l.stop then .left else .waiting }
  | .batch [] => { l with ctl := .test }
  | .batch (a :: todo) =>
    if a = fd then { l with sigs := l.sigs.recv cap, ctl := .signals todo }
    else { l with ctl := .batch todo }
  | .signals todo =>
    match l.sigs.hand with
    | [] => { l with ctl := .batch todo }
    | x :: _ => { l with sigs := l.sigs.handle, stop := l.stop || stops x }
  | .waiting => l
  | .left => l

/-- What holds of a loop at all times. -/
structure Inv (stops : σ → Bool) (fd : α) (cap : Nat) (l : Loop σ α) : Prop where
  hand : l.sigs.hand ≠ [] → ∃ todo, l.ctl = .signals todo
  once : l.ctl.todo.Nodup
  covered : l.sigs.inbox.Covered cap (l.ctl.todo.contains fd)
  /-- The flag is set by the signals handled, and by nothing else. -/
  stop : l.stop = true ↔ ∃ x ∈ l.sigs.handled, stops x = true
  waiting : l.ctl = .waiting → l.stop = false
  /-- A process that was told to stop will learn of it. -/
  told : l.told = true → l.stop = true ∨ ∃ x, stops x = true ∧ l.sigs.Owed x

variable {stops : σ → Bool} {fd : α} {cap : Nat} {l : Loop σ α} {x : σ}

/-- A loop starts that way. -/
theorem inv_start : (start : Loop σ α).Inv stops fd cap where
  hand h := absurd rfl h
  once := List.nodup_nil
  covered := Inbox.covered_of_nil rfl
  stop := by simp [start, SelfPipe.empty]
  waiting h := by cases h
  told h := by cases h

/-- Only in the loop over them are there bytes in hand. -/
theorem Inv.hand_nil (h : l.Inv stops fd cap) (hctl : ∀ todo, l.ctl ≠ .signals todo) :
    l.sigs.hand = [] := by
  by_contra hne
  obtain ⟨todo, ht⟩ := h.hand hne
  exact hctl todo ht

/-- A loop goes on with a report of the signal pipe still to be served if there was one. -/
theorem Inv.goto (h : l.Inv stops fd cap) {ctl : Ctl α}
    (hhand : l.sigs.hand ≠ [] → ∃ todo, ctl = .signals todo) (honce : ctl.todo.Nodup)
    (htodo : ctl.todo.contains fd = l.ctl.todo.contains fd)
    (hwait : ctl = .waiting → l.stop = false) :
    ({ l with ctl := ctl } : Loop σ α).Inv stops fd cap where
  hand := hhand
  once := honce
  covered := by
    simp only [htodo]
    exact h.covered
  stop := h.stop
  waiting := hwait
  told := h.told

/-- Leaving while blocked. -/
theorem Inv.fail (h : l.Inv stops fd cap) (hctl : l.ctl = .waiting) :
    l.fail.Inv stops fd cap :=
  h.goto (fun hne => absurd (h.hand_nil (by simp [hctl])) hne) List.nodup_nil
    (by simp [hctl, Ctl.todo]) (by simp)

/-- Reports come. -/
theorem Inv.wake (h : l.Inv stops fd cap) {ready : List α} (hctl : l.ctl = .waiting)
    (hn : ready.Nodup) : (l.wake fd ready).Inv stops fd cap := by
  have hcov := h.covered
  simp only [hctl, Ctl.todo, List.contains_nil] at hcov
  have hhand := h.hand_nil (by simp [hctl])
  refine ⟨?_, hn, ?_, ?_, fun hc => (by cases hc), fun ht => ?_⟩
  · intro hne
    refine absurd ?_ hne
    by_cases hs : fd ∈ ready <;> simp [Loop.wake, hs, hhand]
  · by_cases hs : fd ∈ ready
    · have hcontains : (Ctl.batch ready).todo.contains fd = true := by simpa [Ctl.todo] using hs
      simp only [Loop.wake, hs, ite_true, hcontains]
      exact hcov.report fun hf => by cases hf
    · have hcontains : (Ctl.batch ready).todo.contains fd = false := by
        simpa [Ctl.todo] using hs
      simp only [Loop.wake, hs, ite_false, hcontains]
      exact hcov
  · have hstop := h.stop
    by_cases hs : fd ∈ ready <;> simpa [Loop.wake, hs] using hstop
  · refine (h.told ht).imp_right fun ⟨y, hy, ho⟩ => ⟨y, hy, ?_⟩
    by_cases hs : fd ∈ ready <;> simpa [Loop.wake, hs] using ho

/-- The signal bytes are read. -/
theorem Inv.recv (h : l.Inv stops fd cap) {todo : List α} (hctl : l.ctl = .batch (fd :: todo)) :
    ({ l with sigs := l.sigs.recv cap, ctl := .signals todo } : Loop σ α).Inv stops fd cap := by
  have honce := h.once
  have hcov := h.covered
  simp only [hctl, Ctl.todo, List.nodup_cons] at honce
  simp only [hctl, Ctl.todo, List.contains_cons, beq_self_eq_true, Bool.true_or] at hcov
  have hrest : (Ctl.signals todo).todo.contains fd = false := by simpa [Ctl.todo] using honce.1
  refine ⟨fun _ => ⟨todo, rfl⟩, honce.2, ?_, h.stop, fun hc => (by cases hc), fun ht => ?_⟩
  · rw [hrest]
    exact hcov.serve
  · exact (h.told ht).imp_right fun ⟨y, hy, ho⟩ => ⟨y, hy, SelfPipe.owed_recv.mpr ho⟩

/-- A signal byte is handled. -/
theorem Inv.handle (h : l.Inv stops fd cap) {todo : List α} {rest : List σ}
    (hctl : l.ctl = .signals todo) (hx : l.sigs.hand = x :: rest) :
    ({ l with sigs := l.sigs.handle, stop := l.stop || stops x } : Loop σ α).Inv stops fd cap := by
  refine ⟨fun _ => ⟨todo, hctl⟩, h.once, h.covered, ?_,
    fun hc => (by rw [hctl] at hc; cases hc), fun ht => ?_⟩
  · simp only [Bool.or_eq_true, h.stop, SelfPipe.handled_handle, hx, List.take_succ_cons,
      List.take_zero, List.mem_append, List.mem_singleton, or_and_right, exists_or,
      exists_eq_left]
  · rcases h.told ht with hs | ⟨y, hy, ho⟩
    · exact Or.inl (by simp [hs])
    · by_cases hxy : x = y
      · exact Or.inl (by simp [hxy, hy])
      · exact Or.inr ⟨y, hy, ho.handle (by simpa [hx] using hxy)⟩

/-- Every step of a loop keeps it that way. -/
theorem Inv.run (h : l.Inv stops fd cap) : (l.run stops fd cap).Inv stops fd cap := by
  have honce := h.once
  unfold Loop.run
  cases hctl : l.ctl with
  | test =>
      refine h.goto (fun hne => absurd (h.hand_nil (by simp [hctl])) hne) ?_ ?_ ?_
      all_goals cases hs : l.stop <;> simp [hctl, Ctl.todo]
  | waiting => exact h
  | batch reports =>
      rw [hctl] at honce
      have hhand := h.hand_nil (by simp [hctl])
      cases reports with
      | nil =>
          exact h.goto (fun hne => absurd hhand hne) List.nodup_nil (by simp [hctl, Ctl.todo])
            (by simp)
      | cons a reports =>
          by_cases ha : a = fd
          · subst ha
            simp only [ite_true]
            exact h.recv hctl
          · simp only [ha, ite_false]
            exact h.goto (fun hne => absurd hhand hne) (List.nodup_cons.mp honce).2
              (by simp [hctl, Ctl.todo, Ne.symm ha]) (by simp)
  | signals reports =>
      rw [hctl] at honce
      cases hx : l.sigs.hand with
      | nil =>
          exact h.goto (fun hne => absurd hx hne) honce (by simp [hctl, Ctl.todo]) (by simp)
      | cons x rest => simpa only [hctl] using h.handle hctl hx
  | left => exact h

/-- No step forgets what the process was told. -/
@[simp] theorem told_run : (l.run stops fd cap).told = l.told := by
  unfold Loop.run
  split
  case h_3 => split <;> rfl
  case h_4 => split <;> rfl
  all_goals rfl

/-- A loop asleep was not told to stop. -/
theorem Inv.asleep (h : l.Inv stops fd cap) (ha : l.Asleep) : l.told = false := by
  obtain ⟨hctl, hedge, hpending⟩ := ha
  by_contra hne
  have htold : l.told = true := by simpa using hne
  rcases h.told htold with hs | ⟨x, -, ho⟩
  · rw [h.waiting hctl] at hs
    cases hs
  · have hcov := h.covered
    simp only [hctl, Ctl.todo, List.contains_nil] at hcov
    exact SelfPipe.not_owed hpending hcov hedge (h.hand_nil (by simp [hctl])) ho

/-- A loop asleep has handled every signal that was delivered. -/
theorem Inv.handled_eq (h : l.Inv stops fd cap) (ha : l.Asleep) :
    l.sigs.handled = l.sigs.caught := by
  obtain ⟨hctl, hedge, -⟩ := ha
  have hcov := h.covered
  simp only [hctl, Ctl.todo, List.contains_nil] at hcov
  rw [l.sigs.flow, h.hand_nil (by simp [hctl]), hcov.drained fun ht => by simp [hedge] at ht,
    List.append_nil, List.append_nil]

section Signals

variable [DecidableEq σ]

instance (l : Loop σ α) : Decidable l.Asleep :=
  inferInstanceAs (Decidable (_ ∧ _ ∧ _))

/-- A signal is sent to the process. -/
def post (stops : σ → Bool) (l : Loop σ α) (x : σ) : Loop σ α :=
  { l with sigs := l.sigs.post x, told := l.told || stops x }

/-- A signal is delivered to its handler. -/
def deliver (l : Loop σ α) (x : σ) : Loop σ α := { l with sigs := l.sigs.deliver x }

/-- A signal is delivered that the process ignores. -/
def ignore (l : Loop σ α) (x : σ) : Loop σ α :=
  { l with sigs := { l.sigs with pending := l.sigs.pending.erase x } }

/-- A signal sent is owed. -/
theorem Inv.post (h : l.Inv stops fd cap) : (l.post stops x).Inv stops fd cap where
  hand := h.hand
  once := h.once
  covered := h.covered
  stop := h.stop
  waiting := h.waiting
  told ht := by
    rcases Bool.or_eq_true_iff.mp ht with ht | hx
    · refine (h.told ht).imp_right fun ⟨y, hy, ho⟩ => ⟨y, hy, ?_⟩
      exact SelfPipe.owed_post.mpr (Or.inr ho)
    · exact Or.inr ⟨x, hx, SelfPipe.owed_post.mpr (Or.inl rfl)⟩

/-- A signal delivered stays owed, and its byte is covered if it fits. -/
theorem Inv.deliver (h : l.Inv stops fd cap)
    (hf : l.sigs.inbox.Fits cap (l.ctl.todo.contains fd) [x]) :
    (l.deliver x).Inv stops fd cap where
  hand := h.hand
  once := h.once
  covered := Inbox.covered_arrive_iff.mpr hf
  stop := h.stop
  waiting := h.waiting
  told ht := (h.told ht).imp_right fun ⟨y, hy, ho⟩ => ⟨y, hy, ho.deliver⟩

/-- A signal that does not set the flag may be ignored. -/
theorem Inv.ignore (h : l.Inv stops fd cap) (hx : stops x = false) :
    (l.ignore x).Inv stops fd cap where
  hand := h.hand
  once := h.once
  covered := h.covered
  stop := h.stop
  waiting := h.waiting
  told ht := by
    refine (h.told ht).imp_right fun ⟨y, hy, ho⟩ => ⟨y, hy, ho.imp_left fun hm => ?_⟩
    refine Finset.mem_erase.mpr ⟨?_, hm⟩
    rintro rfl
    rw [hx] at hy
    cases hy

end Signals

end Loop

end SignalLoop
