import LinuxWebsocket.Lib.RoundRobin
import LinuxWebsocket.Pool.Parent
import Mathlib.Data.List.Count

/-!
# The children of the pool

`m_sub_process` marks a child that was waited for by the number `-1`. The loops over the
table are written here as what they do to it; what one step can do is said once, in
`Move`, and the parent's account of its children is read off it.
-/

namespace LinuxWebsocket

namespace Pool

open RoundRobin

variable {c : Setup} {s t : Parent}

/-- The table, the kernel and what was closed agree. -/
structure Inv (c : Setup) (s : Parent) : Prop where
  /-- An entry holds the child's number until the child is waited for, and its pipe throughout. -/
  table : ∀ k, k < c.mProcessNumber → s.mSubProcess k =
    ⟨if s.life k = .reaped then -1 else (c.forks k).pid, (c.forks k).pipefd⟩
  counter : s.subProcessCounter < c.mProcessNumber
  closed : ∀ k, k < c.mProcessNumber →
    s.closed.count (c.forks k).pipefd.1 = if s.life k = .reaped then 1 else 0
  stop : s.mStop = true → ∀ k, k < c.mProcessNumber → s.life k = .reaped
  left : s.ctl = .left → s.mStop = true

/-- An entry is live as long as its child was not waited for. -/
theorem Inv.mPid_ne (h : Inv c s) {k : Nat} (hk : k < c.mProcessNumber) :
    (s.mSubProcess k).mPid ≠ -1 ↔ s.life k ≠ .reaped := by
  have hpos := c.pid_pos k hk
  rw [h.table k hk]
  by_cases hl : s.life k = .reaped
  · simp [hl]
  · simp only [hl, ite_false, ne_eq, not_false_eq_true, iff_true]
    omega

/-- The entries the round-robin search stops at. -/
def Parent.live (s : Parent) (k : Nat) : Bool := (s.mSubProcess k).mPid ≠ -1

private theorem search_visits {d rounds : Nat} (hc : s.subProcessCounter < c.mProcessNumber)
    (hd : d + (rounds + 1) = c.mProcessNumber) :
    search c s (rounds + 1) ((s.subProcessCounter + d) % c.mProcessNumber) =
      .ok (((visits c.mProcessNumber s.subProcessCounter d (rounds + 1)).find? s.live).getD
        s.subProcessCounter) := by
  induction rounds generalizing d with
  | zero =>
      have hover : (s.subProcessCounter + d + 1) % c.mProcessNumber = s.subProcessCounter :=
        (turn_over hc (by omega)).mpr (by omega)
      by_cases hl : (s.mSubProcess ((s.subProcessCounter + d) % c.mProcessNumber)).mPid = -1
      · simp [search, visits, Parent.live, hl, hover]
      · simp [search, visits, Parent.live, hl]
  | succ rounds ih =>
      by_cases hl : (s.mSubProcess ((s.subProcessCounter + d) % c.mProcessNumber)).mPid = -1
      · have hgo : (s.subProcessCounter + (d + 1)) % c.mProcessNumber ≠ s.subProcessCounter :=
          fun he => by
            have := (turn_over hc (by omega)).mp he
            omega
        rw [search, if_neg (not_not.mpr hl), visits, List.range'_succ, List.map_cons,
          List.find?_cons_of_neg (by simpa [Parent.live] using hl)]
        simp only [Nat.mod_add_mod, Nat.add_assoc]
        rw [if_pos hgo]
        exact ih (d := d + 1) (by omega)
      · simp [search, visits, List.range'_succ, Parent.live, hl]

/-- The search ends at the next live entry, or where it began if there is none. -/
theorem search_eq (hc : s.subProcessCounter < c.mProcessNumber) :
    search c s c.mProcessNumber s.subProcessCounter =
      .ok ((next s.live c.mProcessNumber s.subProcessCounter).getD s.subProcessCounter) := by
  obtain ⟨rounds, hr⟩ : ∃ rounds, c.mProcessNumber = rounds + 1 :=
    Nat.exists_eq_succ_of_ne_zero (by omega)
  have h := search_visits (d := 0) hc (by omega : 0 + (rounds + 1) = c.mProcessNumber)
  rw [← hr] at h
  simpa only [next, Nat.add_zero, Nat.mod_eq_of_lt hc] using h

/-- The dispatch branch goes by what the search finds. -/
theorem dispatch_eq (hc : s.subProcessCounter < c.mProcessNumber) (i : Nat) (todo : List Nat) :
    dispatch c s i todo = .ok (match next s.live c.mProcessNumber s.subProcessCounter with
      | none => { s with mStop := true, ctl := .batch i [] }
      | some j => { s with
          subProcessCounter := (j + 1) % c.mProcessNumber
          sent := (i, (s.mSubProcess i).mPipefd.1) :: s.sent
          ctl := .batch (i + 1) todo }) := by
  rw [dispatch, search_eq hc, ok_bind]
  cases hn : next s.live c.mProcessNumber s.subProcessCounter with
  | none => exact if_pos (by simpa [Parent.live] using (next_eq_none hc).mp hn _ hc)
  | some j => exact if_neg (by simpa [Parent.live] using (next_eq_some hc hn).2)

/-- The parent behind the round of the `waitpid` loop for one of its children. -/
def Parent.joined (c : Setup) (s : Parent) (k : Nat) : Parent :=
  { s with
    life := Function.update s.life k .reaped
    closed := (c.forks k).pipefd.1 :: s.closed
    mSubProcess := Function.update s.mSubProcess k { s.mSubProcess k with mPid := -1 } }

/-- Everything one step can do. -/
inductive Move (c : Setup) (s : Parent) : Event → Parent → Prop
  | wake {ready : List Nat} : s.ctl = .waiting →
      Move c s (.wake ready) { s with ctl := .batch 0 ready }
  | fail : s.ctl = .waiting → Move c s .fail (s.leave c .failed)
  | sent {i j : Nat} {todo : List Nat} : s.ctl = .batch i (c.mListenfd :: todo) →
      next s.live c.mProcessNumber s.subProcessCounter = some j →
      Move c s .dispatch { s with
        subProcessCounter := (j + 1) % c.mProcessNumber
        sent := (i, (s.mSubProcess i).mPipefd.1) :: s.sent
        ctl := .batch (i + 1) todo }
  /-- The search found no live entry. -/
  | deserted {i : Nat} {todo : List Nat} : s.ctl = .batch i (c.mListenfd :: todo) →
      (∀ k, k < c.mProcessNumber → s.life k = .reaped) →
      Move c s .dispatch { s with mStop := true, ctl := .batch i [] }
  | signals {bytes : List Signal} {i : Nat} {todo : List Nat} :
      s.ctl = .batch i (c.sigfd :: todo) →
      Move c s (.signals bytes) { s with ctl := .signals bytes i todo }
  | chld {bytes : List Signal} {i : Nat} {todo : List Nat} :
      s.ctl = .signals (.chld :: bytes) i todo →
      Move c s .byte { s with ctl := .reaping bytes i todo }
  | kill {b : Signal} {bytes : List Signal} {i : Nat} {todo : List Nat} :
      s.ctl = .signals (b :: bytes) i todo → (b = .term ∨ b = .int) →
      Move c s .byte { s with
        killed := (killTargets c s).reverse ++ s.killed
        ctl := .signals bytes i todo }
  | ignored {bytes : List Signal} {i : Nat} {todo : List Nat} :
      s.ctl = .signals (.other :: bytes) i todo →
      Move c s .byte { s with ctl := .signals bytes i todo }
  | bytesDone {i : Nat} {todo : List Nat} : s.ctl = .signals [] i todo →
      Move c s .byte { s with ctl := .batch (i + 1) todo }
  | joined {k i : Nat} {bytes : List Signal} {todo : List Nat} : s.ctl = .reaping bytes i todo →
      k < c.mProcessNumber → s.life k = .exited →
      Move c s (.waitpid (some (c.forks k).pid)) (s.joined c k)
  /-- The number is not that of a child of the pool still to be waited for. -/
  | stranger {pid i : Nat} {bytes : List Signal} {todo : List Nat} :
      s.ctl = .reaping bytes i todo → Move c s (.waitpid (some pid)) s
  | endReap {bytes : List Signal} {i : Nat} {todo : List Nat} {stop : Bool} :
      s.ctl = .reaping bytes i todo →
      (stop = true ↔ ∀ k, k < c.mProcessNumber → s.life k = .reaped) →
      Move c s (.waitpid none) { s with mStop := stop, ctl := .signals bytes i todo }
  | skip {i fd : Nat} {todo : List Nat} : s.ctl = .batch i (fd :: todo) → fd ≠ c.mListenfd →
      Move c s .skip { s with ctl := .batch (i + 1) todo }
  | goOn {i : Nat} : s.ctl = .batch i [] → s.mStop = false →
      Move c s .endBatch { s with ctl := .waiting }
  | leave {i : Nat} : s.ctl = .batch i [] → s.mStop = true → Move c s .endBatch (s.leave c .left)
  | die {k : Nat} : k < c.mProcessNumber → s.life k = .running →
      Move c s (.die k) { s with life := Function.update s.life k .exited }

private theorem fork_range (s : Parent) (n : Nat) :
    (List.range n).foldl (fun s i => s.fork i (c.forks i)) s =
      { s with mSubProcess := fun k =>
          if k < n then ⟨(c.forks k).pid, (c.forks k).pipefd⟩ else s.mSubProcess k } := by
  induction n with
  | zero => simp
  | succ n ih =>
      rw [List.range_succ, List.foldl_append, ih]
      simp only [List.foldl_cons, List.foldl_nil, Parent.fork, Parent.mk.injEq, and_true]
      funext k
      rcases Nat.lt_trichotomy k n with hk | rfl | hk
      · simp [hk, hk.ne, Nat.lt_succ_of_lt hk]
      · simp
      · simp [hk.ne', Nat.not_lt.mpr hk.le, Nat.not_lt.mpr (Nat.succ_le_of_lt hk)]

/-- The constructor's loop fills the table and does nothing else. -/
theorem start_eq (c : Setup) : Parent.start c =
    { Parent.blank c with mSubProcess := fun k =>
        if k < c.mProcessNumber then ⟨(c.forks k).pid, (c.forks k).pipefd⟩
        else (Parent.blank c).mSubProcess k } :=
  fork_range (.blank c) c.mProcessNumber

/-- The constructor leaves every child in the table. -/
theorem inv_start (c : Setup) : Inv c (.start c) := by
  rw [start_eq]
  refine ⟨fun k hk => by simp [hk, Parent.blank], c.admitted.1, fun k _ => ?_, nofun, nofun⟩
  simp [Parent.blank]

/-- The loop over the table clears the one entry, if any, that holds the number. -/
private theorem join_range {pid : Int} {k n : Nat}
    (hu : ∀ j, j < n → ((s.mSubProcess j).mPid = pid ↔ j = k)) :
    (List.range n).foldl (join pid) s = if k < n then
      { s with
        closed := (s.mSubProcess k).mPipefd.1 :: s.closed
        mSubProcess := Function.update s.mSubProcess k { s.mSubProcess k with mPid := -1 } }
    else s := by
  induction n with
  | zero => simp
  | succ n ih =>
      rw [List.range_succ, List.foldl_append, ih fun j hj => hu j (Nat.lt_succ_of_lt hj),
        List.foldl_cons, List.foldl_nil]
      have hn := hu n (Nat.lt_succ_self n)
      rcases Nat.lt_trichotomy k n with hk | rfl | hk
      · have hne : (s.mSubProcess n).mPid ≠ pid := fun he => hk.ne' (hn.mp he)
        simp [hk, Nat.lt_succ_of_lt hk, join, hk.ne', hne]
      · simp [join, hn]
      · have hne : (s.mSubProcess n).mPid ≠ pid := fun he => hk.ne (hn.mp he)
        simp [Nat.not_lt.mpr hk.le, Nat.not_lt.mpr (Nat.succ_le_of_lt hk), join, hne]

/-- A child still to be waited for is taken out of the table. -/
theorem reap_child (h : Inv c s) {k : Nat} (hk : k < c.mProcessNumber) (hl : s.life k ≠ .reaped) :
    reap c s (c.forks k).pid = s.joined c k := by
  have hu : ∀ j, j < c.mProcessNumber → ((s.mSubProcess j).mPid = (c.forks k).pid ↔ j = k) := by
    intro j hj
    rw [h.table j hj]
    constructor
    · intro he
      by_cases hr : s.life j = .reaped
      · simp only [hr, ite_true] at he
        omega
      · simp only [hr, ite_false, Int.natCast_inj] at he
        exact c.pid_inj j k hj hk he
    · rintro rfl
      simp [hl]
  have hlife : (s.waited c (c.forks k).pid).life = Function.update s.life k .reaped := by
    funext j
    by_cases hj : j = k
    · simp [Parent.waited, hj, hk]
    · have hne : ¬(j < c.mProcessNumber ∧ (c.forks j).pid = (c.forks k).pid) :=
        fun he => hj (c.pid_inj j k he.1 hk he.2)
      simp [Parent.waited, hj, hne]
  rw [reap, join_range (s := s.waited c (c.forks k).pid) hu, if_pos hk, hlife]
  simp only [Parent.waited, Parent.joined, h.table k hk]

/-- A number that no child still to be waited for has changes nothing. -/
theorem reap_stranger (h : Inv c s) {pid : Nat}
    (hs : ∀ k, k < c.mProcessNumber → (c.forks k).pid = pid → s.life k = .reaped) :
    reap c s pid = s := by
  have hlife : s.waited c pid = s := by
    have he : (fun k => if k < c.mProcessNumber ∧ (c.forks k).pid = pid then Life.reaped
        else s.life k) = s.life := by
      funext k
      by_cases hk : k < c.mProcessNumber ∧ (c.forks k).pid = pid
      · rw [if_pos hk, hs k hk.1 hk.2]
      · rw [if_neg hk]
    rw [Parent.waited, he]
  have hu : ∀ j, j < c.mProcessNumber →
      ((s.mSubProcess j).mPid = (pid : Int) ↔ j = c.mProcessNumber) := by
    intro j hj
    rw [h.table j hj]
    refine ⟨fun he => ?_, fun he => absurd he hj.ne⟩
    by_cases hr : s.life j = .reaped
    · simp only [hr, ite_true] at he
      omega
    · simp only [hr, ite_false, Int.natCast_inj] at he
      exact absurd (hs j hj he) hr
  rw [reap, hlife, join_range hu, if_neg (Nat.lt_irrefl _)]

/-- Behind the `waitpid` loop `m_stop` says whether every child was waited for. -/
theorem stopped_iff (h : Inv c s) :
    stopped c s = true ↔ ∀ k, k < c.mProcessNumber → s.life k = .reaped := by
  have hfold : ∀ n, (List.range n).foldl
      (fun stop k => if (s.mSubProcess k).mPid ≠ -1 then false else stop) true = true ↔
      ∀ k, k < n → (s.mSubProcess k).mPid = -1 := by
    intro n
    induction n with
    | zero => simp
    | succ n ih =>
        rw [List.range_succ, List.foldl_append, List.foldl_cons, List.foldl_nil,
          Nat.forall_lt_succ_right, ← ih]
        by_cases hn : (s.mSubProcess n).mPid = -1 <;> simp [hn]
  rw [stopped, hfold]
  refine forall_congr' fun k => forall_congr' fun hk => ?_
  exact not_iff_not.mp (h.mPid_ne hk)

/-- The children still to be waited for, by their numbers. -/
def unreaped (c : Setup) (s : Parent) : List Int :=
  ((List.range c.mProcessNumber).filter fun k => s.life k ≠ .reaped).map fun k => (c.forks k).pid

/-- `kill` is called on exactly the children still to be waited for. -/
theorem killTargets_eq (h : Inv c s) : killTargets c s = unreaped c s := by
  rw [killTargets, unreaped, List.filter_map]
  have hf : (List.range c.mProcessNumber).filter
        ((fun pid : Int => decide (pid ≠ -1)) ∘ fun k => (s.mSubProcess k).mPid) =
      (List.range c.mProcessNumber).filter fun k => s.life k ≠ .reaped :=
    List.filter_congr fun k hk => by simp [← h.mPid_ne (List.mem_range.mp hk)]
  rw [hf]
  refine List.map_congr_left fun k hk => ?_
  obtain ⟨hn, hl⟩ : k < c.mProcessNumber ∧ s.life k ≠ .reaped := by simpa using hk
  rw [h.table k hn]
  simp [hl]

theorem Parent.at_waiting {e : Event} (h : s.at c e = true)
    (he : (∃ ready, e = .wake ready) ∨ e = .fail) : s.ctl = .waiting := by
  unfold Parent.at at h
  split at h <;> simp_all

theorem Parent.at_dispatch (h : s.at c .dispatch = true) :
    ∃ i todo, s.ctl = .batch i (c.mListenfd :: todo) := by
  unfold Parent.at at h
  split at h <;> simp_all

theorem Parent.at_signals {bytes : List Signal} (h : s.at c (.signals bytes) = true) :
    ∃ i todo, s.ctl = .batch i (c.sigfd :: todo) := by
  unfold Parent.at at h
  split at h <;> simp_all

theorem Parent.at_byte (h : s.at c .byte = true) :
    ∃ bytes i todo, s.ctl = .signals bytes i todo := by
  unfold Parent.at at h
  split at h <;> simp_all

theorem Parent.at_waitpid {pid : Option Nat} (h : s.at c (.waitpid pid) = true) :
    ∃ bytes i todo, s.ctl = .reaping bytes i todo := by
  unfold Parent.at at h
  split at h <;> simp_all

theorem Parent.at_skip (h : s.at c .skip = true) :
    ∃ i fd todo, s.ctl = .batch i (fd :: todo) ∧ fd ≠ c.mListenfd := by
  unfold Parent.at at h
  split at h <;> simp_all

theorem Parent.at_endBatch (h : s.at c .endBatch = true) : ∃ i, s.ctl = .batch i [] := by
  unfold Parent.at at h
  split at h <;> simp_all

/-- The branch of the listening socket sends a notification or finds the pool deserted. -/
theorem Inv.dispatch_move (h : Inv c s) {i : Nat} {todo : List Nat}
    (hctl : s.ctl = .batch i (c.mListenfd :: todo)) :
    ∃ t, dispatch c s i todo = .ok t ∧ Move c s .dispatch t := by
  rw [dispatch_eq h.counter]
  cases hn : next s.live c.mProcessNumber s.subProcessCounter with
  | none =>
      refine ⟨_, rfl, .deserted hctl fun k hk => ?_⟩
      have hdead : (s.mSubProcess k).mPid = -1 := by
        simpa [Parent.live] using (next_eq_none h.counter).mp hn k hk
      exact not_iff_not.mp (h.mPid_ne hk) |>.mp hdead
  | some j => exact ⟨_, rfl, .sent hctl hn⟩

/-- From a table that agrees with the kernel, every step the environment allows
is one of the moves. -/
theorem Inv.step_move (h : Inv c s) {e : Event} (ha : s.Allowed c e) :
    ∃ t, s.step c e = .ok t ∧ Move c s e t := by
  cases e with
  | wake ready =>
      have hctl := Parent.at_waiting ha.1 (Or.inl ⟨ready, rfl⟩)
      exact ⟨_, by simp [Parent.step, hctl], .wake hctl⟩
  | fail =>
      have hctl := Parent.at_waiting ha.1 (Or.inr rfl)
      exact ⟨_, by simp [Parent.step, hctl], .fail hctl⟩
  | dispatch =>
      obtain ⟨i, todo, hctl⟩ := Parent.at_dispatch ha.1
      have hstep : s.step c .dispatch = dispatch c s i todo := by simp [Parent.step, hctl]
      rw [hstep]
      exact h.dispatch_move hctl
  | signals bytes =>
      obtain ⟨i, todo, hctl⟩ := Parent.at_signals ha.1
      exact ⟨_, by simp [Parent.step, hctl], .signals hctl⟩
  | byte =>
      obtain ⟨bytes, i, todo, hctl⟩ := Parent.at_byte ha.1
      cases bytes with
      | nil => exact ⟨_, by simp [Parent.step, hctl], .bytesDone hctl⟩
      | cons b bytes =>
          have hstep : s.step c .byte = .ok (signalByte c s bytes i todo b) := by
            simp [Parent.step, hctl]
          refine ⟨_, hstep, ?_⟩
          cases b with
          | chld => exact .chld hctl
          | term => exact .kill hctl (Or.inl rfl)
          | int => exact .kill hctl (Or.inr rfl)
          | other => exact .ignored hctl
  | waitpid pid =>
      obtain ⟨bytes, i, todo, hctl⟩ := Parent.at_waitpid ha.1
      cases pid with
      | none => exact ⟨_, by simp [Parent.step, hctl], .endReap hctl (stopped_iff h)⟩
      | some pid =>
          have hstep : s.step c (.waitpid (some pid)) = .ok (reap c s pid) := by
            simp [Parent.step, hctl]
          by_cases hchild : ∃ k, k < c.mProcessNumber ∧ (c.forks k).pid = pid ∧ s.life k ≠ .reaped
          · obtain ⟨k, hk, rfl, hl⟩ := hchild
            have hexit : s.life k = .exited := by
              have := (ha.2 _ rfl).2 k hk rfl
              cases hlife : s.life k <;> simp_all
            exact ⟨_, by rw [hstep, reap_child h hk hl], .joined hctl hk hexit⟩
          · have hs : ∀ k, k < c.mProcessNumber → (c.forks k).pid = pid → s.life k = .reaped :=
              fun k hk hp => by_contra fun hl => hchild ⟨k, hk, hp, hl⟩
            exact ⟨_, by rw [hstep, reap_stranger h hs], .stranger hctl⟩
  | skip =>
      obtain ⟨i, fd, todo, hctl, hl⟩ := Parent.at_skip ha.1
      exact ⟨_, by simp [Parent.step, hctl], .skip hctl hl⟩
  | endBatch =>
      obtain ⟨i, hctl⟩ := Parent.at_endBatch ha.1
      cases hs : s.mStop with
      | false => exact ⟨_, by simp [Parent.step, hctl, hs], .goOn hctl hs⟩
      | true => exact ⟨_, by simp [Parent.step, hctl, hs], .leave hctl hs⟩
  | die k => exact ⟨_, by simp [Parent.step], .die ha.2.1 ha.2.2⟩

/-- Every step the environment allows is one of the moves. -/
theorem Inv.move_of_step (h : Inv c s) {e : Event} (ha : s.Allowed c e)
    (hs : s.step c e = .ok t) : Move c s e t := by
  obtain ⟨u, hu, hm⟩ := h.step_move ha
  obtain rfl := Except.ok.inj (hu.symm.trans hs)
  exact hm

/-- A state in which only other data differ. -/
theorem Inv.frame (h : Inv c s) (hm : t.mSubProcess = s.mSubProcess)
    (hn : t.subProcessCounter = s.subProcessCounter) (hl : t.life = s.life)
    (hc : t.closed = s.closed) (hs : t.mStop = s.mStop) (hctl : t.ctl ≠ .left) : Inv c t := by
  refine ⟨?_, hn ▸ h.counter, ?_, ?_, fun he => absurd he hctl⟩
  · rw [hm, hl]
    exact h.table
  · rw [hc, hl]
    exact h.closed
  · rw [hs, hl]
    exact h.stop

/-- Leaving the loop closes no pipe of a child. -/
theorem Inv.leave (h : Inv c s) {ctl : Ctl} (hl : ctl = .left → s.mStop = true) :
    Inv c (s.leave c ctl) := by
  refine ⟨h.table, h.counter, fun k hk => ?_, h.stop, hl⟩
  obtain ⟨hlisten, hepoll, -⟩ := c.pipe_ne k hk
  have hcount : (s.leave c ctl).closed.count (c.forks k).pipefd.1 =
      s.closed.count (c.forks k).pipefd.1 := by
    simp [Parent.leave, hlisten.symm, hepoll.symm]
  rw [hcount]
  exact h.closed k hk

/-- Waiting for a child clears its entry and closes its pipe. -/
theorem Inv.joined (h : Inv c s) {k : Nat} (hk : k < c.mProcessNumber) (hl : s.life k = .exited)
    (hctl : s.ctl ≠ .left) : Inv c (s.joined c k) := by
  refine ⟨fun j hj => ?_, h.counter, fun j hj => ?_, fun hs => ?_, fun he => absurd he hctl⟩
  · by_cases he : j = k
    · subst he
      simp [Parent.joined, h.table j hj]
    · simp [Parent.joined, he, h.table j hj]
  · by_cases he : j = k
    · subst he
      have h0 := h.closed j hj
      simp only [hl, reduceCtorEq, ite_false] at h0
      simp [Parent.joined, h0]
    · have hne : (c.forks k).pipefd.1 ≠ (c.forks j).pipefd.1 :=
        fun hp => he (c.pipe_inj k j hk hj hp).symm
      simp [Parent.joined, he, hne, h.closed j hj]
  · -- a child is left before it is waited for, so the flag is not up
    have := h.stop hs k hk
    simp [hl] at this

/-- Every move keeps the account. -/
theorem Inv.move (h : Inv c s) {e : Event} (hm : Move c s e t) : Inv c t := by
  cases hm with
  | wake => exact h.frame rfl rfl rfl rfl rfl nofun
  | fail => exact h.leave nofun
  | sent => exact ⟨h.table, Nat.mod_lt _ c.admitted.1, h.closed, h.stop, nofun⟩
  | deserted _ hall => exact ⟨h.table, h.counter, h.closed, fun _ => hall, nofun⟩
  | signals => exact h.frame rfl rfl rfl rfl rfl nofun
  | chld => exact h.frame rfl rfl rfl rfl rfl nofun
  | kill => exact h.frame rfl rfl rfl rfl rfl nofun
  | ignored => exact h.frame rfl rfl rfl rfl rfl nofun
  | bytesDone => exact h.frame rfl rfl rfl rfl rfl nofun
  | joined hctl hk hl => exact h.joined hk hl (by simp [hctl])
  | stranger => exact h
  | endReap _ hstop => exact ⟨h.table, h.counter, h.closed, hstop.mp, nofun⟩
  | skip => exact h.frame rfl rfl rfl rfl rfl nofun
  | goOn => exact h.frame rfl rfl rfl rfl rfl nofun
  | leave _ hs => exact h.leave fun _ => hs
  | @die k hk hl =>
      have hsame : ∀ j, Function.update s.life k .exited j = .reaped ↔ s.life j = .reaped := by
        intro j
        by_cases hj : j = k
        · subst hj
          simp [hl]
        · simp [hj]
      refine ⟨fun j hj => ?_, h.counter, fun j hj => ?_, fun hs j hj => ?_, h.left⟩
      · simp only [hsame]
        exact h.table j hj
      · simp only [hsame]
        exact h.closed j hj
      · exact (hsame j).mpr (h.stop hs j hj)

/-- The table agrees with the kernel throughout a run. -/
theorem inv_of_run {es : List Event} (h : (parentMachine c).Run es s) : Inv c s := by
  apply h.invariant (inv_start c)
  intro s e t hi ha hs
  exact hi.move (hi.move_of_step ha hs)

/-- The next signal byte is `SIGTERM` or `SIGINT`. -/
def Parent.terminating (s : Parent) : Event → Prop
  | .byte => ∃ b bytes i todo, s.ctl = .signals (b :: bytes) i todo ∧ (b = .term ∨ b = .int)
  | _ => False

/-- The parent's account of its children. -/
structure Parent.Accounts (c : Setup) (s : Parent) : Prop where
  /-- `m_pid` tells the children still to be waited for from the others. -/
  pid : ∀ k, k < c.mProcessNumber → ((s.mSubProcess k).mPid ≠ -1 ↔ s.life k ≠ .reaped)
  /-- The parent's end of a pipe was closed once if the child was waited for, else never. -/
  closed : ∀ k, k < c.mProcessNumber →
    s.closed.count (c.forks k).pipefd.1 = if s.life k = .reaped then 1 else 0
  /-- The loop is not left through `m_stop` with a child still to be waited for. -/
  left : s.ctl = .left → ∀ k, k < c.mProcessNumber → s.life k = .reaped

/-- What a step does about the children. -/
structure Effect (c : Setup) (s : Parent) (e : Event) (t : Parent) : Prop where
  /-- The step that reaps a child closes the parent's end of its pipe. -/
  reaped : ∀ k, k < c.mProcessNumber → s.life k ≠ .reaped → t.life k = .reaped →
    e = .waitpid (some (c.forks k).pid) ∧ t.closed = (c.forks k).pipefd.1 :: s.closed
  /-- `SIGTERM` and `SIGINT` signal every child still to be waited for, once. -/
  signalled : s.terminating e → t.killed = (unreaped c s).reverse ++ s.killed
  /-- Nothing else signals a child. -/
  unsignalled : ¬s.terminating e → t.killed = s.killed
  /-- Behind a `SIGCHLD` byte `m_stop` is up if no child is left, and only then. -/
  stop : e = .waitpid none → (t.mStop = true ↔ ∀ k, k < c.mProcessNumber → t.life k = .reaped)

private theorem effect_quiet {e : Event} (hl : ∀ k, t.life k = .reaped → s.life k = .reaped)
    (hk : t.killed = s.killed) (hnt : ¬s.terminating e) (hw : e ≠ .waitpid none) :
    Effect c s e t :=
  ⟨fun k _ hs ht => absurd (hl k ht) hs, fun ht => absurd ht hnt, fun _ => hk,
    fun he => absurd he hw⟩

/-- Every move has its effect. -/
theorem Inv.effect (h : Inv c s) {e : Event} (hm : Move c s e t) : Effect c s e t := by
  have hquiet {bytes : List Signal} {i : Nat} {todo : List Nat}
      (hctl : s.ctl = .signals bytes i todo)
      (hb : ∀ b ∈ bytes.head?, b ≠ .term ∧ b ≠ .int) : ¬s.terminating .byte := by
    rintro ⟨b, bs, j, td, hj, hterm⟩
    obtain ⟨rfl, -⟩ := Ctl.signals.inj (hctl.symm.trans hj)
    have := hb b rfl
    tauto
  cases hm with
  | wake => exact effect_quiet (fun _ => id) rfl nofun nofun
  | fail => exact effect_quiet (fun _ => id) rfl nofun nofun
  | sent => exact effect_quiet (fun _ => id) rfl nofun nofun
  | deserted => exact effect_quiet (fun _ => id) rfl nofun nofun
  | signals => exact effect_quiet (fun _ => id) rfl nofun nofun
  | chld hctl => exact effect_quiet (fun _ => id) rfl (hquiet hctl (by simp)) nofun
  | kill hctl hb =>
      refine ⟨fun k _ hs ht => absurd ht hs, fun _ => ?_, fun hno => ?_, nofun⟩
      · rw [← killTargets_eq h]
      · exact absurd ⟨_, _, _, _, hctl, hb⟩ hno
  | ignored hctl => exact effect_quiet (fun _ => id) rfl (hquiet hctl (by simp)) nofun
  | bytesDone hctl => exact effect_quiet (fun _ => id) rfl (hquiet hctl (by simp)) nofun
  | @joined k i bytes todo _ hk hl =>
      refine ⟨fun j _ hs ht => ?_, nofun, fun _ => rfl, nofun⟩
      by_cases hj : j = k
      · subst hj
        exact ⟨rfl, rfl⟩
      · exact absurd ((Function.update_of_ne hj ..).symm.trans ht) hs
  | stranger => exact effect_quiet (fun _ => id) rfl nofun nofun
  | endReap _ hstop => exact ⟨fun k _ hs ht => absurd ht hs, nofun, fun _ => rfl, fun _ => hstop⟩
  | skip => exact effect_quiet (fun _ => id) rfl nofun nofun
  | goOn => exact effect_quiet (fun _ => id) rfl nofun nofun
  | leave => exact effect_quiet (fun _ => id) rfl nofun nofun
  | @die k hk hl =>
      refine effect_quiet (fun j hj => ?_) rfl nofun nofun
      by_cases he : j = k
      · subst he
        simp at hj
      · simpa [he] using hj

/-- In every run the parent's account of its children is right, and every step does about
them exactly what it should. -/
theorem children_accounted (c : Setup) {es : List Event} {s : Parent}
    (h : (parentMachine c).Run es s) :
    s.Accounts c ∧ ∀ e, s.Allowed c e → ∃ t, s.step c e = .ok t ∧ Effect c s e t := by
  have hi := inv_of_run h
  refine ⟨⟨fun k hk => hi.mPid_ne hk, hi.closed, fun hl => hi.stop (hi.left hl)⟩, ?_⟩
  intro e ha
  obtain ⟨t, ht, hm⟩ := hi.step_move ha
  exact ⟨t, ht, hi.effect hm⟩

/-- A pool of two children whose listening socket is descriptor 3. -/
def sampleSetup : Setup where
  mListenfd := 3
  mEpollfd := 6
  sigfd := 7
  mProcessNumber := 2
  forks := fun k => ⟨101 + k, (4 + k, 5 + k)⟩
  behind := fun _ => ⟨-1, (0, 0)⟩
  admitted := by decide
  pid_pos := by decide
  pid_inj := fun _ _ _ _ h => Nat.add_left_cancel h
  pipe_inj := fun _ _ _ _ h => Nat.add_left_cancel h
  pipe_ne := by decide
  listen_ne := by decide

/-- One child exits and is waited for behind two `SIGCHLD` bytes, the other one is told to
terminate before a connection is dispatched, and the loop is left when it is gone too. -/
def sampleEnd : List Event :=
  [.die 0, .wake [7, 3], .signals [.chld, .chld, .term], .byte, .waitpid (some 101),
    .waitpid none, .byte, .waitpid none, .byte, .byte, .dispatch, .endBatch,
    .die 1, .wake [7], .signals [.chld], .byte, .waitpid (some 102), .waitpid none, .byte,
    .endBatch]

/-- Both are accounted for. -/
theorem children_accounted_both :
    ∃ s, (parentMachine sampleSetup).Run sampleEnd s ∧
      s.ctl = .left ∧ s.closed = [6, 3, 5, 4] ∧ s.killed = [102] ∧ s.Accounts sampleSetup :=
  have hrun := Machine.Run.of_exec (M := parentMachine sampleSetup) sampleEnd (by decide) rfl
  ⟨_, hrun, rfl, rfl, rfl, (children_accounted _ hrun).1⟩

end Pool

end LinuxWebsocket
