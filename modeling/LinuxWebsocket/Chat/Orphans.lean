import LinuxWebsocket.Chat.Peers

/-!
# Orphans

What becomes of the children when the parent is gone. A child is forked with a copy of every
descriptor of the parent, among them `pipefd[0]` of each child before it, and closes its own
`pipefd[0]` alone. So a child's pipe is hung up only when, besides the parent, every child
forked behind it is gone.
-/

namespace LinuxWebsocket

namespace Chat

namespace Orphans

open EdgeTriggered Sigterm

/-- The server, and who has which end of which pipe open. -/
structure Brood where
  state : State
  /-- The parent's ends of the children's pipes, as the children see them. -/
  pipes : Peers Nat
  /-- The children whose `pipefd[0]` a child has open; serial numbers. -/
  holds : Nat → List Nat
  /-- The parent is gone. -/
  orphaned : Bool

/-- What happens next. -/
inductive Act
  /-- The parent or a child goes on, or a child exits. -/
  | server (a : Sigterm.Act)
  /-- The parent sends an index to a child. -/
  | notice (c idx : Nat)
  /-- The parent exits, or is killed. -/
  | orphan
  deriving DecidableEq

instance (s : Parent) : ∀ e, Decidable (s.admits e)
  | .accept ⟨some _, some _, some _⟩ => inferInstanceAs (Decidable (s.userCount < userLimit))
  | .accept ⟨some _, some _, none⟩ => inferInstanceAs (Decidable False)
  | .accept ⟨some _, none, _⟩ => inferInstanceAs (Decidable False)
  | .accept ⟨none, _, _⟩ => inferInstanceAs (Decidable False)
  | .wake _ => inferInstanceAs (Decidable False)
  | .fail => inferInstanceAs (Decidable False)
  | .signals _ => inferInstanceAs (Decidable False)
  | .byte => inferInstanceAs (Decidable False)
  | .waitpid _ => inferInstanceAs (Decidable False)
  | .notify _ => inferInstanceAs (Decidable False)
  | .endBatch => inferInstanceAs (Decidable False)
  | .die _ => inferInstanceAs (Decidable False)

/-- The children whose `pipefd[0]` the parent has open. -/
def openEnds (s : Parent) : List Nat :=
  (s.kernel.procs.filter fun p => p.pipe ∈ s.kernel.fds).map Proc.serial

/-- The ends the children have open behind a step: `fork` copies those of the parent, and the
new child's own. -/
def Brood.holdsBehind (s : Brood) : Sigterm.Act → Nat → List Nat
  | .parent e =>
    if s.state.parent.admits e then
      Function.update s.holds s.state.parent.kernel.forks
        (openEnds s.state.parent ++ [s.state.parent.kernel.forks])
    else s.holds
  | .run c =>
    if (s.state.children c).pc = .closePipefd then
      Function.update s.holds c ((s.holds c).filter fun d => d ≠ c)
    else s.holds
  | _ => s.holds

/-- Nobody has the other end of a child's pipe open. -/
def Brood.Hung (s : Brood) (c : Nat) : Prop :=
  (s.orphaned = true ∨ c ∉ openEnds s.state.parent) ∧
    ∀ p ∈ s.state.parent.kernel.procs, p.dead = false → c ∉ s.holds p.serial

instance (s : Brood) (c : Nat) : Decidable (s.Hung c) :=
  inferInstanceAs (Decidable ((s.orphaned = true ∨ c ∉ openEnds s.state.parent) ∧
    ∀ p ∈ s.state.parent.kernel.procs, p.dead = false → c ∉ s.holds p.serial))

/-- A child's pipe is hung up, of which it has not been told. -/
def Brood.News (s : Brood) (c : Nat) : Prop :=
  s.state.Live c ∧ s.Hung c ∧ (s.pipes c).left = false

instance (s : Brood) (c : Nat) : Decidable (s.News c) :=
  inferInstanceAs (Decidable (s.state.Live c ∧ s.Hung c ∧ (s.pipes c).left = false))

/-- The kernel tells the children whose pipes are hung up. -/
def Brood.settled (s : Brood) : Brood :=
  { s with
    state := { s.state with
      children := fun c =>
        if s.News c then { s.state.children c with ready := true } else s.state.children c }
    pipes := fun c => if s.News c then (s.pipes c).leave else s.pipes c }

/-- One step of the parent or of a child. -/
def Brood.step (k : Setup) (s : Brood) : Act → Except Fault Brood
  | .server a => do
    let state ← s.state.step k a
    .ok (Brood.settled ⟨state, s.pipes.behind s.state 1 a, s.holdsBehind a, s.orphaned⟩)
  | .notice c idx => .ok { s with
      state := s.state.onChild c fun kid => { kid with ready := true }
      pipes := s.pipes.on c fun x => x.send [idx] }
  | .orphan => .ok (Brood.settled { s with orphaned := true })

/-- A step without the parent. -/
def ofChild : Sigterm.Act → Bool
  | .parent (.die _) | .arrive _ | .run _ | .serve _ _ | .deliver _ _ => true
  | _ => false

/-- What can happen next. -/
def Brood.Allowed (k : Setup) (s : Brood) : Act → Prop
  | .server a => s.state.Allowed k a ∧ s.pipes.Receives a ∧ (s.orphaned = true → ofChild a = true)
  | .notice c _ => s.state.Live c ∧ s.orphaned = false
  | .orphan => s.orphaned = false

/-- The server when the parent first enters its loop. -/
def Brood.start (k : Setup) (users : Nat → ClientData) : Brood :=
  ⟨.start k users, fun _ => .connected, fun _ => [], false⟩

/-- The parent, its children and their environment. -/
def machine (k : Setup) (users : Nat → ClientData) : Machine Brood Act Fault where
  init := .start k users
  Allowed := Brood.Allowed k
  step := Brood.step k

/-- Each `SIGTERM` is in time, and what the parent sent was read before the `recv` that the
hang-up leads to. -/
def Brood.Orderly (s : Brood) : Act → Prop
  | .server a => s.state.InTime a ∧ s.pipes.Clear a
  | _ => True

/-- The server in an environment that keeps it in order. -/
def orderly (k : Setup) (users : Nat → ClientData) : Machine Brood Act Fault :=
  (machine k users).restrict Brood.Orderly

instance (k : Setup) (s : Brood) : ∀ a, Decidable (s.Allowed k a)
  | .server a => inferInstanceAs (Decidable
    (s.state.Allowed k a ∧ s.pipes.Receives a ∧ (s.orphaned = true → ofChild a = true)))
  | .notice c _ => inferInstanceAs (Decidable (s.state.Live c ∧ s.orphaned = false))
  | .orphan => inferInstanceAs (Decidable (s.orphaned = false))

instance (s : Brood) : ∀ a, Decidable (s.Orderly a)
  | .server a => inferInstanceAs (Decidable (s.state.InTime a ∧ s.pipes.Clear a))
  | .notice _ _ => inferInstanceAs (Decidable True)
  | .orphan => inferInstanceAs (Decidable True)

instance (k : Setup) (users : Nat → ClientData) (s : Brood) (a : Act) :
    Decidable ((machine k users).Allowed s a) := inferInstanceAs (Decidable (s.Allowed k a))

instance (k : Setup) (users : Nat → ClientData) (s : Brood) (a : Act) :
    Decidable ((orderly k users).Allowed s a) :=
  inferInstanceAs (Decidable (s.Allowed k a ∧ s.Orderly a))

/-- The child has not closed its own `pipefd[0]`. -/
def starting : Pc → Bool
  | .closeEpollfd | .closeListenfd | .closePipefd => true
  | _ => false

/-- Who has which end open, at all times. -/
structure Ends (k : Setup) (s : Brood) : Prop where
  parent : Inv k s.state.parent
  /-- Nothing has happened to a child that was not forked yet. -/
  fresh : ∀ c, s.state.parent.kernel.forks ≤ c →
    s.state.children c = .forked ∧ s.pipes c = .connected
  /-- A child has open no end of a child forked behind it. -/
  below : ∀ p ∈ s.state.parent.kernel.procs, ∀ c ∈ s.holds p.serial, c ≤ p.serial
  /-- A child has its own end open until it closes it. -/
  own : ∀ p ∈ s.state.parent.kernel.procs,
    p.serial ∈ s.holds p.serial ↔ starting (s.state.children p.serial).pc = true
  /-- A child has the ends of all children open that were forked before it. -/
  elder : ∀ p ∈ s.state.parent.kernel.procs, ∀ q ∈ s.state.parent.kernel.procs,
    p.serial < q.serial → p.serial ∈ s.holds q.serial

section Ends

variable {k : Setup} {s : Brood}

/-- The parent has the end of every child open. -/
theorem openEnds_eq {s : Parent} (h : Inv k s) : openEnds s = s.kernel.procs.map Proc.serial := by
  unfold openEnds
  rw [List.filter_eq_self.mpr]
  intro p hp
  exact decide_eq_true (h.opened ((h.interest p.pipe).mpr (Or.inr (Or.inr ⟨p, hp, rfl⟩))))

/-- A child's pipe is hung up exactly if the parent is gone, the child has closed its own copy of
the other end, and no younger child runs. -/
theorem Ends.hung_iff (h : Ends k s) {p : Proc} (hp : p ∈ s.state.parent.kernel.procs)
    (hd : p.dead = false) :
    s.Hung p.serial ↔ s.orphaned = true ∧ starting (s.state.children p.serial).pc = false ∧
      ∀ q ∈ s.state.parent.kernel.procs, q.dead = false → q.serial ≤ p.serial := by
  constructor
  · rintro ⟨hparent, hkids⟩
    refine ⟨hparent.resolve_right fun hno => hno ?_, ?_, fun q hq hlive => ?_⟩
    · rw [openEnds_eq h.parent]
      exact List.mem_map_of_mem hp
    · by_contra hs
      exact hkids p hp hd ((h.own p hp).mpr (by simpa using hs))
    · by_contra hlt
      exact hkids q hq hlive (h.elder p hp q hq (Nat.not_le.mp hlt))
  · rintro ⟨hgone, hclosed, hlast⟩
    refine ⟨Or.inl hgone, fun q hq hlive hmem => ?_⟩
    have he : p.serial = q.serial := le_antisymm (h.below q hq _ hmem) (hlast q hq hlive)
    rw [← he] at hmem
    have hopen := (h.own p hp).mp hmem
    rw [hclosed] at hopen
    cases hopen

end Ends

/-- A move forks one child, or none. -/
theorem procs_move {k : Setup} {s t : Parent} {e : Event} (hm : Move k s e t) :
    (s.admits e ∧ t.kernel.forks = s.kernel.forks + 1 ∧ ∃ p : Proc,
      t.kernel.procs = s.kernel.procs ++ [p] ∧ p.serial = s.kernel.forks) ∨
    (¬s.admits e ∧ t.kernel.forks = s.kernel.forks ∧ ∀ p ∈ t.kernel.procs,
      ∃ q ∈ s.kernel.procs, q.serial = p.serial ∧ (p.dead = false → q.dead = false)) := by
  cases hm with
  | admitted _ hn => exact Or.inl ⟨hn, rfl, _, rfl, rfl⟩
  | @refused a _ _ hno =>
      refine Or.inr ⟨?_, rfl, fun p hp => ⟨p, hp, rfl, id⟩⟩
      obtain ⟨_ | connfd, _ | fds, _ | pid⟩ := a <;> simp_all [Parent.admits]
  | reaped => exact Or.inr ⟨id, rfl, fun p hp => ⟨p, (List.mem_filter.mp hp).1, rfl, id⟩⟩
  | die =>
      refine Or.inr ⟨id, rfl, fun p hp => ?_⟩
      obtain ⟨q, hq, he⟩ := List.mem_map.mp hp
      refine ⟨q, hq, ?_⟩
      rw [← he]
      split
      · exact ⟨rfl, fun hd => by simp at hd⟩
      · exact ⟨rfl, id⟩
  | _ => exact Or.inr ⟨id, rfl, fun p hp => ⟨p, hp, rfl, id⟩⟩

section Steps

variable {k : Setup} {s t : Brood}

/-- A step that forks no child, and in which a child at most closes its own end. -/
theorem Ends.kept (h : Ends k s) (hinv : Inv k t.state.parent)
    (hforks : t.state.parent.kernel.forks = s.state.parent.kernel.forks)
    (hprocs : ∀ p ∈ t.state.parent.kernel.procs,
      ∃ q ∈ s.state.parent.kernel.procs, q.serial = p.serial)
    (hfresh : ∀ c, s.state.parent.kernel.forks ≤ c →
      t.state.children c = .forked ∧ t.pipes c = .connected)
    (hstart : ∀ p ∈ s.state.parent.kernel.procs,
      starting (t.state.children p.serial).pc = true →
        starting (s.state.children p.serial).pc = true)
    (hholds : ∀ p ∈ s.state.parent.kernel.procs, ∀ c, c ∈ t.holds p.serial ↔
      c ∈ s.holds p.serial ∧ (c = p.serial → starting (t.state.children c).pc = true)) :
    Ends k t where
  parent := hinv
  fresh c hc := hfresh c (hforks ▸ hc)
  below p hp c hc := by
    obtain ⟨q, hq, he⟩ := hprocs p hp
    rw [← he] at hc ⊢
    exact h.below q hq c ((hholds q hq c).mp hc).1
  own p hp := by
    obtain ⟨q, hq, he⟩ := hprocs p hp
    rw [← he, hholds q hq, h.own q hq]
    exact ⟨fun hs => hs.2 rfl, fun hs => ⟨hstart q hq hs, fun _ => hs⟩⟩
  elder p hp q hq hlt := by
    obtain ⟨p', hp', he⟩ := hprocs p hp
    obtain ⟨q', hq', he'⟩ := hprocs q hq
    rw [← he, ← he'] at hlt ⊢
    exact (hholds q' hq' _).mpr
      ⟨h.elder p' hp' q' hq' hlt, fun hsame => absurd hsame (Nat.ne_of_lt hlt)⟩

/-- A child is forked. -/
theorem Ends.forked (h : Ends k s) (hinv : Inv k t.state.parent) {p : Proc}
    (hforks : t.state.parent.kernel.forks = s.state.parent.kernel.forks + 1)
    (hprocs : t.state.parent.kernel.procs = s.state.parent.kernel.procs ++ [p])
    (hserial : p.serial = s.state.parent.kernel.forks)
    (hkids : t.state.children = s.state.children) (hpipes : t.pipes = s.pipes)
    (hholds : t.holds = Function.update s.holds s.state.parent.kernel.forks
      (openEnds s.state.parent ++ [s.state.parent.kernel.forks])) : Ends k t := by
  rw [← hserial] at hholds
  have hnew (c : Nat) : c ∈ t.holds p.serial ↔
      (∃ q ∈ s.state.parent.kernel.procs, q.serial = c) ∨ c = p.serial := by
    rw [hholds, Function.update_self, openEnds_eq h.parent, List.mem_append, List.mem_map,
      List.mem_singleton]
  have hlt : ∀ q ∈ s.state.parent.kernel.procs, q.serial < p.serial := by
    rw [hserial]
    exact h.parent.serials.2
  have hmem (q : Proc) : q ∈ t.state.parent.kernel.procs ↔
      q ∈ s.state.parent.kernel.procs ∨ q = p := by
    rw [hprocs, List.mem_append, List.mem_singleton]
  have hold {q : Proc} (hq : q ∈ s.state.parent.kernel.procs) :
      t.holds q.serial = s.holds q.serial := by
    rw [hholds, Function.update_of_ne (Nat.ne_of_lt (hlt q hq))]
  refine ⟨hinv, fun c hc => ?_, fun q hq c hc => ?_, fun q hq => ?_, fun q hq r hr hqr => ?_⟩
  · rw [hkids, hpipes]
    exact h.fresh c (by omega)
  · rcases (hmem q).mp hq with hq | rfl
    · rw [hold hq] at hc
      exact h.below q hq c hc
    · rcases (hnew c).mp hc with ⟨r, hr, rfl⟩ | rfl
      · exact Nat.le_of_lt (hlt r hr)
      · exact le_rfl
  · rcases (hmem q).mp hq with hq | rfl
    · rw [hold hq, hkids]
      exact h.own q hq
    · rw [hnew, hkids, hserial, (h.fresh _ le_rfl).1]
      simp [Child.forked, starting]
  · rcases (hmem r).mp hr with hr | rfl
    · rcases (hmem q).mp hq with hq | rfl
      · rw [hold hr]
        exact h.elder q hq r hr hqr
      · exact absurd (hlt r hr) (Nat.not_lt.mpr (Nat.le_of_lt hqr))
    · refine (hnew _).mpr (Or.inl ?_)
      rcases (hmem q).mp hq with hq | rfl
      · exact ⟨q, hq, rfl⟩
      · exact absurd hqr (Nat.lt_irrefl _)

/-- A statement leaves the child starting unless it closes its own end. -/
theorem starting_run (kid : Child) :
    starting kid.run.pc = (starting kid.pc && decide (kid.pc ≠ .closePipefd)) := by
  cases hk : kid.pc <;> cases hr : kid.ready <;> cases hs : kid.stopChild <;>
    simp [Child.run, hk, hr, hs, starting]

/-- A child does something. -/
theorem Ends.child (h : Ends k s) {c : Nat} (hl : s.state.Live c) {f : Child → Child}
    (hstate : t.state = s.state.onChild c f) (hpipes : ∀ d, d ≠ c → t.pipes d = s.pipes d)
    (hkept : ∀ d, d ≠ c → t.holds d = s.holds d)
    (hstart : starting (f (s.state.children c)).pc = true →
      starting (s.state.children c).pc = true)
    (hholds : ∀ d, d ∈ t.holds c ↔
      d ∈ s.holds c ∧ (d = c → starting (f (s.state.children c)).pc = true)) : Ends k t := by
  obtain ⟨p, hp, rfl, -⟩ := hl
  have hparent : t.state.parent = s.state.parent := by rw [hstate]; rfl
  refine h.kept (hparent ▸ h.parent) (by rw [hparent]) (fun q hq => ⟨q, hparent ▸ hq, rfl⟩)
    (fun d hd => ?_) (fun q hq => ?_) (fun q hq d => ?_)
  · have hne : d ≠ p.serial := Nat.ne_of_gt ((h.parent.serials.2 p hp).trans_le hd)
    rw [hstate, children_onChild_of_ne hne, hpipes d hne]
    exact h.fresh d hd
  · rw [hstate]
    by_cases he : q.serial = p.serial
    · rw [he, children_onChild_self]
      exact hstart
    · rw [children_onChild_of_ne he]
      exact id
  · by_cases he : q.serial = p.serial
    · rw [he, hholds]
      refine and_congr_right fun _ => ⟨fun hs hd => ?_, fun hs hd => ?_⟩
      · rw [hd, hstate, children_onChild_self]
        exact hs hd
      · have hset := hs hd
        rwa [hd, hstate, children_onChild_self] at hset
    · rw [hkept _ he]
      refine ⟨fun hmem => ⟨hmem, fun hd => ?_⟩, fun hmem => hmem.1⟩
      rw [hd, hstate, children_onChild_of_ne he]
      exact (h.own q hq).mp (hd ▸ hmem)

/-- A child does something, and keeps its ends as they are. -/
theorem Ends.child_holding (h : Ends k s) {c : Nat} (hl : s.state.Live c) {f : Child → Child}
    (hstate : t.state = s.state.onChild c f) (hpipes : ∀ d, d ≠ c → t.pipes d = s.pipes d)
    (hholds : t.holds = s.holds)
    (hstart : starting (f (s.state.children c)).pc = starting (s.state.children c).pc) :
    Ends k t := by
  refine h.child hl hstate hpipes (fun d _ => by rw [hholds]) (fun hs => hstart ▸ hs) fun d => ?_
  obtain ⟨p, hp, rfl, -⟩ := hl
  rw [hholds, hstart]
  exact ⟨fun hmem => ⟨hmem, fun hd => (h.own p hp).mp (hd ▸ hmem)⟩, fun hmem => hmem.1⟩

/-- The other pipes are left alone by what a child does. -/
theorem behind_of_ne {μ : Type} (ps : Peers μ) (s : State) (cap : Nat) {c d : Nat} (hd : d ≠ c)
    {a : Sigterm.Act} (ha : (∃ gone, a = .serve c gone) ∨ a = .run c) :
    ps.behind s cap a d = ps d := by
  rcases ha with ⟨gone, rfl⟩ | rfl
  · exact Function.update_of_ne hd ..
  · simp only [Peers.behind]
    split
    · exact Function.update_of_ne hd ..
    · rfl

/-- A step of the parent is, to the children, a `SIGTERM` to some of them at most. -/
theorem children_parent {s u : State} {e : Event} (hs : s.step k (.parent e) = .ok u) (c : Nat) :
    u.children c = s.children c ∨ (∃ q ∈ s.parent.kernel.procs, q.serial = c) ∧
      u.children c = { s.children c with pending := true } ∧ e = .byte := by
  cases hp : s.parent.step k e with
  | error x => simp [State.step, hp] at hs
  | ok v =>
      simp only [State.step, hp, ok_bind] at hs
      cases e with
      | byte =>
          obtain rfl := Except.ok.inj hs
          rcases children_kill s (v.killed.take (v.killed.length - s.parent.killed.length)) c with
            ⟨q, hq, hc, he⟩ | he
          · exact Or.inr ⟨⟨q, hq, hc⟩, he, rfl⟩
          · exact Or.inl he
      | _ =>
          obtain rfl := Except.ok.inj hs
          exact Or.inl rfl

/-- It takes no child a statement further. -/
theorem pc_parent {s u : State} {e : Event} (hs : s.step k (.parent e) = .ok u) (c : Nat) :
    (u.children c).pc = (s.children c).pc := by
  rcases children_parent hs c with he | ⟨-, he, -⟩
  · rw [he]
  · rw [he]

/-- The parent behind it. -/
theorem parent_step {s u : State} {e : Event} (hs : s.step k (.parent e) = .ok u) :
    s.parent.step k e = .ok u.parent := by
  cases hp : s.parent.step k e with
  | error x => simp [State.step, hp] at hs
  | ok v =>
      simp only [State.step, hp, ok_bind] at hs
      cases e <;> obtain rfl := Except.ok.inj hs <;> rfl

/-- A step of the parent. -/
theorem Ends.ofParent (h : Ends k s) {e : Event} (ha : s.state.Allowed k (.parent e)) {u : State}
    (hs : s.state.step k (.parent e) = .ok u) :
    Ends k ⟨u, s.pipes, s.holdsBehind (.parent e), s.orphaned⟩ := by
  have hm := h.parent.move_of_step ha.1 (parent_step hs)
  have hinv : Inv k u.parent := h.parent.move hm
  rcases procs_move hm with ⟨hadm, hforks, p, hprocs, hserial⟩ | ⟨hadm, hforks, hprocs⟩
  · refine h.forked hinv (p := p) hforks hprocs hserial ?_ rfl (if_pos hadm)
    ext1 c
    rcases children_parent hs c with he | ⟨-, -, rfl⟩
    · exact he
    · exact hadm.elim
  · have hsame : s.holdsBehind (.parent e) = s.holds := if_neg hadm
    refine h.kept hinv hforks (fun q hq => ?_) (fun c hc => ⟨?_, (h.fresh c hc).2⟩)
      (fun q _ => ?_) (fun q hq c => ?_)
    · obtain ⟨r, hr, he, -⟩ := hprocs q hq
      exact ⟨r, hr, he⟩
    · rcases children_parent hs c with he | ⟨⟨q, hq, rfl⟩, -⟩
      · exact he.trans (h.fresh c hc).1
      · exact absurd (h.parent.serials.2 q hq) (Nat.not_lt.mpr hc)
    · rw [pc_parent hs]
      exact id
    · rw [hsame, pc_parent hs]
      exact ⟨fun hmem => ⟨hmem, fun hc => hc ▸ (h.own q hq).mp (hc ▸ hmem)⟩, fun hmem => hmem.1⟩

/-- A step of the server, before the kernel tells of what is hung up. -/
theorem Ends.server (h : Ends k s) {a : Sigterm.Act} (ha : s.state.Allowed k a) {u : State}
    (hs : s.state.step k a = .ok u) :
    Ends k ⟨u, s.pipes.behind s.state 1 a, s.holdsBehind a, s.orphaned⟩ := by
  cases a with
  | parent e => exact h.ofParent ha hs
  | post x =>
      obtain rfl := Except.ok.inj hs
      exact ⟨h.parent, h.fresh, h.below, h.own, h.elder⟩
  | arrive c =>
      obtain rfl := Except.ok.inj hs
      exact h.child_holding ha (f := fun kid => { kid with ready := true }) rfl
        (fun _ _ => rfl) rfl rfl
  | run c =>
      obtain rfl := Except.ok.inj hs
      refine h.child ha.1 rfl (fun d hd => behind_of_ne s.pipes s.state 1 hd (Or.inr rfl))
        (fun d hd => ?_)
        (fun hst => ?_) (fun d => ?_)
      · simp only [Brood.holdsBehind]
        split
        · exact Function.update_of_ne hd ..
        · rfl
      · rw [starting_run, Bool.and_eq_true] at hst
        exact hst.1
      · obtain ⟨p, hp, rfl, -⟩ := ha.1
        rw [starting_run]
        simp only [Brood.holdsBehind]
        split
        · rename_i hpc
          simp [hpc, starting]
        · rename_i hpc
          simp only [hpc, ne_eq, not_false_eq_true, decide_true, Bool.and_true]
          exact ⟨fun hmem => ⟨hmem, fun hd => (h.own p hp).mp (hd ▸ hmem)⟩, fun hmem => hmem.1⟩
  | serve c gone =>
      obtain rfl := Except.ok.inj hs
      refine h.child_holding ha.1 (f := fun kid => kid.serve gone) rfl
        (fun d hd => behind_of_ne s.pipes s.state 1 hd (Or.inl ⟨gone, rfl⟩)) rfl ?_
      rw [ha.2]
      rfl
  | deliver c sent =>
      obtain rfl := Except.ok.inj hs
      have hposted : Ends k { s with state := { s.state with
          pipe := s.state.pipe ++ (s.state.children c).posts c sent } } :=
        ⟨h.parent, h.fresh, h.below, h.own, h.elder⟩
      refine hposted.child_holding ha.1 (f := Child.deliver) rfl (fun _ _ => rfl) rfl ?_
      by_cases hb : (s.state.children c).pc = .blocked <;> simp [Child.deliver, hb, starting]

end Steps

end Orphans

end Chat

end LinuxWebsocket
