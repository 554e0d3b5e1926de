import LinuxWebsocket.Pool.Reaping
import LinuxWebsocket.Pool.System

/-!
# Connections that arrive

A connection is to wake the parent, whose notification makes a child accept it. Only
registered descriptors raise edges, and `setup_sig_pipe` registers the signal pipe alone:
the branch of the listening socket is never reached, and the connection waits for ever.
-/

namespace LinuxWebsocket

namespace Pool

open EdgeTriggered

variable {c : Setup} {s t : System}

/-- The parent and all live children are blocked, and no edge is pending. -/
structure System.Quiescent (c : Setup) (s : System) : Prop where
  parent : s.parent.ctl = .waiting
  epoll : s.epoll.pending = ∅
  workers : ∀ k, s.Live c k → (s.workers k).ctl = .waiting ∧ (s.workers k).down.edge = false

instance (c : Setup) (s : System) : Decidable (s.Quiescent c) :=
  decidable_of_iff (s.parent.ctl = .waiting ∧ s.epoll.pending = ∅ ∧
      ∀ k, k < c.mProcessNumber → s.parent.life k = .running →
        (s.workers k).ctl = .waiting ∧ (s.workers k).down.edge = false)
    ⟨fun h => ⟨h.1, h.2.1, fun k hk => h.2.2 k hk.1 hk.2⟩,
      fun h => ⟨h.parent, h.epoll, fun k hk hl => h.workers k ⟨hk, hl⟩⟩⟩

/-- No connection waits, and each was accepted by a child that had read a notification. -/
structure System.Served (s : System) : Prop where
  backlog : s.backlog = []
  accepted : ∀ i, i < s.arrived → ∃ a ∈ s.accepted, a.conn = i ∧ a.notified = true

/-- The events of the batch still to be handled. -/
def Ctl.todo : Ctl → List Nat
  | .batch _ todo => todo
  | .signals _ _ todo => todo
  | .reaping _ _ todo => todo
  | _ => []

/-- A child nothing was sent to. -/
structure Worker.Idle (w : Worker) : Prop where
  edge : w.down.edge = false
  pipe : .pipe ∉ w.ctl.todo
  accept : w.ctl.inAccept = false

/-- The parent was never woken by the listening socket, nor a child by the parent. -/
structure Unnotified (c : Setup) (s : System) : Prop where
  interest : s.epoll.interest = {c.sigfd}
  todo : c.mListenfd ∉ s.parent.ctl.todo
  workers : ∀ k, (s.workers k).Idle
  backlog : s.backlog = List.range s.arrived

private theorem acceptBranch_parent {k : Nat} {notified : Bool} :
    (acceptBranch s k notified).parent = s.parent := by
  unfold acceptBranch
  split <;> rfl

/-- On the parent's side, a run of the pool is a run of the parent. -/
theorem parent_of_run {as : List Act} (h : (system c).Run as s) :
    ∃ es, (parentMachine c).Run es s.parent := by
  apply h.project System.parent rfl
  intro s a t ha hs
  change s.step c a = .ok t at hs
  have hsame {u : System} (ht : (.ok u : Except Fault System) = .ok t)
      (hu : u.parent = s.parent) : t.parent = s.parent := by
    rw [← Except.ok.inj ht, hu]
  cases a with
  | parent e =>
      refine Or.inr ⟨e, ha.1, ?_⟩
      cases ht : s.parent.step c e with
      | error x => simp [System.step, ht] at hs
      | ok p =>
          simp only [System.step, ht, ok_bind, Except.ok.injEq] at hs
          rw [← hs]
          exact ht
  | arrive => exact Or.inl (hsame hs rfl)
  | signal => exact Or.inl (hsame hs rfl)
  | wake k ready => exact Or.inl (hsame hs rfl)
  | recv k =>
      left
      simp only [System.step] at hs
      split at hs <;> exact hsame hs rfl
  | hangup k =>
      left
      simp only [System.step] at hs
      split at hs <;> exact hsame hs rfl
  | accept k =>
      left
      simp only [System.step] at hs
      split at hs
      · exact hsame hs acceptBranch_parent
      · exact hsame hs rfl
  | other k =>
      left
      simp only [System.step] at hs
      split at hs <;> exact hsame hs rfl
  | endBatch k => exact Or.inl (hsame hs rfl)

/-- Behind anything but a report of the listening socket, its branch stays out of reach
and nothing is sent. -/
theorem todo_move {s t : Parent} {e : Event} (hm : Move c s e t)
    (hw : ∀ ready, e = .wake ready → c.mListenfd ∉ ready) (h : c.mListenfd ∉ s.ctl.todo) :
    c.mListenfd ∉ t.ctl.todo ∧ t.sent = s.sent := by
  cases hm with
  | wake => exact ⟨hw _ rfl, rfl⟩
  | sent hctl => simp [hctl, Ctl.todo] at h
  | deserted hctl => simp [hctl, Ctl.todo] at h
  | signals hctl => simp_all [Ctl.todo]
  | chld hctl => simp_all [Ctl.todo]
  | kill hctl => simp_all [Ctl.todo]
  | ignored hctl => simp_all [Ctl.todo]
  | bytesDone hctl => simp_all [Ctl.todo]
  | joined hctl => simp_all [Ctl.todo, Parent.joined]
  | stranger => exact ⟨h, rfl⟩
  | endReap hctl => simp_all [Ctl.todo]
  | skip hctl => simp_all [Ctl.todo]
  | fail => exact ⟨List.not_mem_nil, rfl⟩
  | goOn => exact ⟨List.not_mem_nil, rfl⟩
  | leave => exact ⟨List.not_mem_nil, rfl⟩
  | die => exact ⟨h, rfl⟩

/-- The pool starts with nothing sent. -/
theorem unnotified_start (c : Setup) : Unnotified c (.start c) := by
  refine ⟨rfl, ?_, fun _ => ⟨rfl, nofun, rfl⟩, rfl⟩
  simp [System.start, start_eq, Parent.blank, Ctl.todo]

/-- A step of one child alone. -/
theorem Unnotified.onWorker (h : Unnotified c s) {k : Nat} {f : Worker → Worker}
    (hf : (f (s.workers k)).Idle) : Unnotified c (s.onWorker k f) := by
  refine ⟨h.interest, h.todo, fun j => ?_, h.backlog⟩
  by_cases hj : j = k
  · subst hj
    simpa [System.onWorker] using hf
  · simpa [System.onWorker, hj] using h.workers j

/-- No step notifies anyone. -/
theorem Unnotified.step (h : Unnotified c s) (hi : Inv c s.parent) {a : Act} (ha : s.Allowed c a)
    (hs : s.step c a = .ok t) :
    Unnotified c t ∧ t.arrived = s.arrived + if a = .arrive then 1 else 0 := by
  have hquiet {k : Nat} (hk : (s.workers k).ctl.todo.head? = some .pipe) : False :=
    (h.workers k).pipe (List.mem_of_head? hk)
  cases a with
  | arrive =>
      obtain rfl := Except.ok.inj hs
      refine ⟨⟨h.interest, h.todo, h.workers, ?_⟩, rfl⟩
      rw [h.backlog]
      exact List.range_succ.symm
  | signal =>
      obtain rfl := Except.ok.inj hs
      exact ⟨⟨h.interest, h.todo, h.workers, h.backlog⟩, rfl⟩
  | parent e =>
      obtain ⟨p, hp, hm⟩ := hi.step_move ha.1
      have hready : ∀ ready, e = .wake ready → c.mListenfd ∉ ready := by
        rintro ready rfl hr
        have hint := s.epoll.registered (ha.2.2 _ hr)
        rw [h.interest, Finset.mem_singleton] at hint
        exact c.listen_ne hint
      obtain ⟨htodo, hsent⟩ := todo_move hm hready h.todo
      have ht : ∃ epoll : Epoll Nat, epoll.interest = s.epoll.interest ∧
          t = { s with epoll := epoll, parent := p } := by
        simp only [System.step, hp, ok_bind, hsent, Nat.sub_self, List.take_zero,
          List.foldr_nil] at hs
        obtain rfl := Except.ok.inj hs
        cases e with
        | wake ready => exact ⟨_, Epoll.interest_report, rfl⟩
        | _ => exact ⟨s.epoll, rfl, rfl⟩
      obtain ⟨epoll, hint, rfl⟩ := ht
      exact ⟨⟨hint.trans h.interest, htodo, h.workers, h.backlog⟩, rfl⟩
  | wake k ready =>
      obtain rfl := Except.ok.inj hs
      have hpipe : .pipe ∉ ready := fun hr => by
        have := ha.2.2.2 hr
        rw [(h.workers k).edge] at this
        cases this
      refine ⟨h.onWorker ?_, rfl⟩
      exact ⟨by simpa [hpipe] using (h.workers k).edge, hpipe, rfl⟩
  | recv k => exact (hquiet ha.2).elim
  | hangup k => exact (hquiet ha.2.1).elim
  | accept k =>
      have := ha.2
      rw [(h.workers k).accept] at this
      cases this
  | other k =>
      obtain ⟨todo, hctl⟩ : ∃ todo, (s.workers k).ctl = .batch (.other :: todo) := by
        have hk := ha.2
        cases hc : (s.workers k).ctl with
        | batch todo =>
            rw [hc] at hk
            obtain ⟨rest, hr⟩ := List.head?_eq_some_iff.mp hk
            exact ⟨rest, congrArg WorkerCtl.batch hr⟩
        | _ => simp [hc, WorkerCtl.todo] at hk
      have hpipe : .pipe ∉ todo := by simpa [hctl, WorkerCtl.todo] using (h.workers k).pipe
      simp only [System.step, hctl] at hs
      obtain rfl := Except.ok.inj hs
      exact ⟨h.onWorker ⟨(h.workers k).edge, hpipe, rfl⟩, rfl⟩
  | endBatch k =>
      obtain rfl := Except.ok.inj hs
      exact ⟨h.onWorker ⟨(h.workers k).edge, List.not_mem_nil, rfl⟩, rfl⟩

/-- No run notifies anyone. -/
theorem unnotified_of_run {as : List Act} (h : (system c).Run as s) :
    Unnotified c s ∧ s.arrived = as.count .arrive := by
  induction h with
  | nil => exact ⟨unnotified_start c, rfl⟩
  | snoc hrun ha hs ih =>
      obtain ⟨es, hparent⟩ := parent_of_run hrun
      obtain ⟨hu, hn⟩ := ih.1.step (inv_of_run hparent) ha hs
      refine ⟨hu, ?_⟩
      rw [hn, ih.2, List.count_append, List.count_singleton]
      simp only [beq_iff_eq]

/-- In every run, where the parent and all live children block and some child is live,
every connection was served if and only if none arrived. -/
theorem arrivals_served_iff (c : Setup) {as : List Act} {s : System} (h : (system c).Run as s) :
    s.Quiescent c → (∃ k, s.Live c k) → (s.Served ↔ Act.arrive ∉ as) := by
  intro _ _
  obtain ⟨hu, hn⟩ := unnotified_of_run h
  rw [← List.count_eq_zero, ← hn]
  constructor
  · intro hserved
    have hb := hserved.backlog
    rwa [hu.backlog, List.range_eq_nil] at hb
  · intro h0
    refine ⟨by rw [hu.backlog, h0, List.range_zero], fun i hi => ?_⟩
    omega

/-- A signal comes and a child exits, but no connection. -/
def sampleUnvisited : List Act :=
  [.endBatch 0, .endBatch 1, .parent (.die 0), .signal, .parent (.wake [7]),
    .parent (.signals [.chld]), .parent .byte, .parent (.waitpid (some 101)),
    .parent (.waitpid none), .parent .byte, .parent .endBatch]

/-- There is nothing to serve then. -/
theorem arrivals_served_none :
    ∃ s, (system sampleSetup).Run sampleUnvisited s ∧ s.Served := by
  have hrun := Machine.Run.of_exec (M := system sampleSetup) sampleUnvisited (by decide) rfl
  exact ⟨_, hrun, (arrivals_served_iff _ hrun (by decide) ⟨1, by decide⟩).mpr (by decide)⟩

/-- A connection arrives at a pool of two children, and everyone stays blocked. -/
theorem arrival_stranded :
    ∃ s, (system sampleSetup).Run [.endBatch 0, .endBatch 1, .arrive] s ∧
      s.Quiescent sampleSetup ∧ (∃ k, s.Live sampleSetup k) ∧ ¬s.Served :=
  ⟨_, Machine.Run.of_exec _ (by decide) rfl, by decide, ⟨0, by decide⟩,
    fun h => absurd h.backlog (by decide)⟩

/-- Were the listening socket registered as well, the connection would be served. -/
example :
    let s := { System.start sampleSetup with epoll := (setupSigPipe sampleSetup).add 3 }
    let as := [.endBatch 0, .endBatch 1, .arrive, .parent (.wake [3]), .parent .dispatch,
      .parent .endBatch, .wake 0 [.pipe], .recv 0, .accept 0, .endBatch 0]
    (system sampleSetup).Along (System.Allowed sampleSetup) s as ∧
      (((system sampleSetup).exec s as).toOption.map System.accepted) = some [⟨0, 0, true⟩] := by
  decide

end Pool

end LinuxWebsocket
