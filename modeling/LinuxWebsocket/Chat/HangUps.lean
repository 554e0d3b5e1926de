import LinuxWebsocket.Chat.Orphans
import Mathlib.Data.Finset.Max

/-!
# Hang-ups

Each child is told of the hang-up of its pipe exactly when the last end is closed. It exits then,
which closes its copies of the ends of those forked before it, so that in the end all are told.
-/

namespace LinuxWebsocket

namespace Chat

namespace Orphans

open EdgeTriggered Sigterm

/-- The children have been told of every pipe that is hung up, and of no other. -/
def Brood.Told (s : Brood) : Prop := ∀ p ∈ s.state.parent.kernel.procs, p.dead = false →
  ((s.pipes p.serial).left = true ↔ s.Hung p.serial)

section Told

variable {k : Setup} {s t : Brood}

/-- What the kernel tells changes no `pc`. -/
@[simp] theorem pc_settled (s : Brood) (c : Nat) :
    (s.settled.state.children c).pc = (s.state.children c).pc := by
  simp only [Brood.settled]
  split
  · rfl
  · rfl

/-- A child that was not forked yet is told nothing. -/
theorem Ends.not_news (h : Ends k s) {c : Nat} (hc : s.state.parent.kernel.forks ≤ c) :
    ¬s.News c := by
  rintro ⟨⟨p, hp, rfl, -⟩, -⟩
  exact absurd (h.parent.serials.2 p hp) (Nat.not_lt.mpr hc)

/-- What the kernel tells moves no end. -/
theorem Ends.settled (h : Ends k s) : Ends k s.settled where
  parent := h.parent
  fresh c hc := by
    simp only [Brood.settled, h.not_news hc, if_false]
    exact h.fresh c hc
  below := h.below
  own p hp := by
    rw [pc_settled]
    exact h.own p hp
  elder := h.elder

/-- Whoever was told only what is true is told all of it. -/
theorem told_settled (h : ∀ p ∈ s.state.parent.kernel.procs, p.dead = false →
    (s.pipes p.serial).left = true → s.Hung p.serial) : s.settled.Told := by
  intro p hp hd
  have hlive : s.state.Live p.serial := ⟨p, hp, rfl, hd⟩
  have hsound := h p hp hd
  have hhung : s.settled.Hung p.serial ↔ s.Hung p.serial := Iff.rfl
  rw [hhung]
  simp only [Brood.settled]
  split
  · rename_i hnews
    exact ⟨fun _ => hnews.2.1, fun _ => rfl⟩
  · rename_i hnews
    refine ⟨hsound, fun hu => ?_⟩
    by_contra hleft
    exact hnews ⟨hlive, hu, by simpa using hleft⟩

/-- The server's steps hang up nothing themselves. -/
@[simp] theorem left_behind {μ : Type} (ps : Peers μ) (s : State) (cap : Nat) (a : Sigterm.Act)
    (c : Nat) : (ps.behind s cap a c).left = (ps c).left := by
  have hon (d : Nat) (f : Peer μ → Peer μ) (hf : ∀ x, (f x).left = x.left) :
      (ps.on d f c).left = (ps c).left := by
    unfold Peers.on
    by_cases hd : c = d
    · rw [hd, Function.update_self, hf]
    · rw [Function.update_of_ne hd]
  cases a with
  | run d =>
      simp only [Peers.behind]
      split
      · exact hon d _ fun _ => rfl
      · rfl
  | serve d gone => exact hon d _ fun _ => rfl
  | _ => rfl

/-- A child does not start again. -/
theorem starting_step {a : Sigterm.Act} (ha : s.state.Allowed k a) {u : State}
    (hs : s.state.step k a = .ok u)
    (c : Nat) (hu : starting (u.children c).pc = true) :
    starting (s.state.children c).pc = true := by
  have hon {d : Nat} {f : Child → Child}
      (hf : starting (f (s.state.children d)).pc = true → starting (s.state.children d).pc = true)
      (hu : starting ((s.state.onChild d f).children c).pc = true) :
      starting (s.state.children c).pc = true := by
    by_cases hd : c = d
    · rw [hd, children_onChild_self] at hu
      exact hd ▸ hf hu
    · rwa [children_onChild_of_ne hd] at hu
  cases a with
  | parent e => rwa [pc_parent hs] at hu
  | post x =>
      obtain rfl := Except.ok.inj hs
      exact hu
  | arrive d =>
      obtain rfl := Except.ok.inj hs
      exact hon (f := fun kid => { kid with ready := true }) id hu
  | run d =>
      obtain rfl := Except.ok.inj hs
      refine hon (fun hf => ?_) hu
      rw [starting_run, Bool.and_eq_true] at hf
      exact hf.1
  | serve d gone =>
      obtain rfl := Except.ok.inj hs
      exact hon (f := fun kid => kid.serve gone)
        (fun hf => by simp [Child.serve, starting] at hf) hu
  | deliver d sent =>
      obtain rfl := Except.ok.inj hs
      refine hon (f := Child.deliver) (fun hf => ?_) hu
      by_cases hb : (s.state.children d).pc = .blocked
      · simp [Child.deliver, hb, starting] at hf
      · simpa [Child.deliver, hb] using hf

/-- A child there is behind a step was there before, unless the parent forked. -/
theorem procs_step (h : Ends k s) {a : Sigterm.Act} (ha : s.state.Allowed k a) {u : State}
    (hs : s.state.step k a = .ok u) : (∃ e, a = .parent e ∧ s.state.parent.admits e) ∨
      ∀ p ∈ u.parent.kernel.procs, ∃ q ∈ s.state.parent.kernel.procs,
        q.serial = p.serial ∧ (p.dead = false → q.dead = false) := by
  cases a with
  | parent e =>
      rcases procs_move (h.parent.move_of_step ha.1 (parent_step hs)) with
        ⟨hadm, -⟩ | ⟨-, -, hprocs⟩
      · exact Or.inl ⟨e, rfl, hadm⟩
      · exact Or.inr hprocs
  | _ =>
      obtain rfl := Except.ok.inj hs
      exact Or.inr fun p hp => ⟨p, hp, rfl, id⟩

/-- No child is told of a hang-up that is not one. -/
theorem Ends.hung_step (h : Ends k s) (ht : s.Told) {a : Sigterm.Act} (ha : s.state.Allowed k a)
    (ho : s.orphaned = true → ofChild a = true) {u : State} (hs : s.state.step k a = .ok u)
    {p : Proc} (hp : p ∈ u.parent.kernel.procs) (hd : p.dead = false)
    (hleft : (s.pipes p.serial).left = true) :
    Brood.Hung ⟨u, s.pipes.behind s.state 1 a, s.holdsBehind a, s.orphaned⟩ p.serial := by
  have hends := h.server ha hs
  refine (hends.hung_iff hp hd).mpr ?_
  have hold : ∃ q ∈ s.state.parent.kernel.procs, q.serial = p.serial ∧ q.dead = false := by
    rcases procs_step h ha hs with ⟨e, rfl, hadm⟩ | hprocs
    · rcases procs_move (h.parent.move_of_step ha.1 (parent_step hs)) with
        ⟨-, -, r, hprocs, hserial⟩ | ⟨hno, -⟩
      · rw [hprocs, List.mem_append, List.mem_singleton] at hp
        rcases hp with hp | rfl
        · exact ⟨p, hp, rfl, hd⟩
        · rw [hserial, (h.fresh _ le_rfl).2] at hleft
          simp [Peer.connected] at hleft
      · exact absurd hadm hno
    · obtain ⟨q, hq, he, hlive⟩ := hprocs p hp
      exact ⟨q, hq, he, hlive hd⟩
  obtain ⟨q, hq, he, hlive⟩ := hold
  rw [← he] at hleft ⊢
  obtain ⟨hgone, hclosed, hlast⟩ := (h.hung_iff hq hlive).mp ((ht q hq hlive).mp hleft)
  refine ⟨hgone, ?_, fun r hr hrlive => ?_⟩
  · by_contra hst
    have := starting_step ha hs q.serial (by simpa using hst)
    rw [hclosed] at this
    cases this
  · rcases procs_step h ha hs with ⟨e, rfl, hadm⟩ | hprocs
    · have hchild := ho hgone
      obtain ⟨⟨_ | connfd, _ | fds, _ | pid⟩⟩ | _ := e <;> simp_all [Parent.admits, ofChild]
    · obtain ⟨r', hr', her, hrlive'⟩ := hprocs r hr
      rw [← her]
      exact hlast r' hr' (hrlive' hrlive)

/-- Who holds what, and who was told, behind every step. -/
theorem Ends.step (h : Ends k s) (ht : s.Told) {a : Act} (ha : s.Allowed k a)
    (hs : s.step k a = .ok t) : Ends k t ∧ t.Told := by
  cases a with
  | server a =>
      cases hu : s.state.step k a with
      | error x => simp [Brood.step, hu] at hs
      | ok u =>
          simp only [Brood.step, hu, ok_bind] at hs
          obtain rfl := Except.ok.inj hs
          refine ⟨(h.server ha.1 hu).settled, told_settled fun p hp hd hleft => ?_⟩
          exact h.hung_step ht ha.1 ha.2.2 hu hp hd (left_behind s.pipes .. ▸ hleft)
  | notice c idx =>
      obtain rfl := Except.ok.inj hs
      have hother (d : Nat) (hd : d ≠ c) : (s.pipes.on c fun x => x.send [idx]) d = s.pipes d :=
        Function.update_of_ne hd ..
      refine ⟨h.child_holding ha.1 (f := fun kid => { kid with ready := true }) rfl hother rfl rfl,
        fun p hp hd => ?_⟩
      have hleft : ((s.pipes.on c fun x => x.send [idx]) p.serial).left =
          (s.pipes p.serial).left := by
        by_cases hc : p.serial = c
        · rw [← hc, Peers.on, Function.update_self]
          rfl
        · rw [hother _ hc]
      rw [hleft]
      exact ht p hp hd
  | orphan =>
      obtain rfl := Except.ok.inj hs
      have hends : Ends k { s with orphaned := true } :=
        ⟨h.parent, h.fresh, h.below, h.own, h.elder⟩
      refine ⟨hends.settled, told_settled fun p hp hd hleft => ?_⟩
      exact ⟨Or.inl rfl, ((ht p hp hd).mp hleft).2⟩

/-- In every run. -/
theorem ends_of_run {users : Nat → ClientData} {as : List Act} (h : (machine k users).Run as s) :
    Ends k s ∧ s.Told := by
  refine h.invariant (I := fun s => Ends k s ∧ s.Told) ⟨⟨inv_start k users, fun _ _ => ⟨rfl, rfl⟩,
    ?_, ?_, ?_⟩, ?_⟩ fun s a t hi ha hs => hi.1.step hi.2 ha hs
  all_goals simp [machine, Brood.start, State.start, Parent.start, Brood.Told]

end Told

/-- In every run, a child finds its pipe hung up only when the parent and every child forked
behind it are gone; and then it will find it so, once it has closed its own copy of the
other end. -/
theorem hung_up_iff (k : Setup) (users : Nat → ClientData) {as : List Act} {s : Brood}
    (h : (machine k users).Run as s) :
    ∀ p ∈ s.state.parent.kernel.procs, p.dead = false →
      ((s.pipes p.serial).left = true ↔
        s.orphaned = true ∧ starting (s.state.children p.serial).pc = false ∧
          ∀ q ∈ s.state.parent.kernel.procs, q.dead = false → q.serial ≤ p.serial) := by
  intro p hp hd
  obtain ⟨hends, htold⟩ := ends_of_run h
  exact (htold p hp hd).trans (hends.hung_iff hp hd)

/-- Two clients come, and the parent is killed. -/
def sampleOrphans : List Act :=
  let go (as : List Sigterm.Act) : List Act := as.map .server
  go (forkAnd 11) ++
    go [.parent (.wake [3]), .parent (.accept ⟨some 7, some (9, 10), some 102⟩),
      .parent .endBatch] ++ go (List.replicate 11 (.run 1)) ++ [.orphan]

/-- Of two orphans only the younger one is told. -/
theorem hung_up_iff_two :
    ∃ s, (machine sampleSetup fun _ => ⟨0, 0, 0, 0⟩).Run sampleOrphans s ∧
      (s.pipes 0).left = false ∧ (s.pipes 1).left = true := by
  obtain ⟨s, hrun, hs⟩ := Machine.Run.of_exec_map
    (M := machine sampleSetup fun _ => ⟨0, 0, 0, 0⟩)
    (f := fun s => (s.state.parent.kernel.procs, s.orphaned, (s.state.children 1).pc))
    (x := ([⟨101, 0, 8, 0, false⟩, ⟨102, 1, 9, 1, false⟩], true, .blocked)) sampleOrphans
    (by decide) (by decide)
  simp only [Prod.mk.injEq] at hs
  obtain ⟨hprocs, hgone, hpc⟩ := hs
  have hiff := hung_up_iff _ _ hrun
  rw [hprocs, hgone] at hiff
  refine ⟨s, hrun, ?_, ?_⟩
  · by_contra hleft
    have := ((hiff ⟨101, 0, 8, 0, false⟩ (by simp) rfl).mp (by simpa using hleft)).2.2
      ⟨102, 1, 9, 1, false⟩ (by simp) rfl
    simp at this
  · exact (hiff ⟨102, 1, 9, 1, false⟩ (by simp) rfl).mpr ⟨rfl, by simp [hpc, starting], by simp⟩

section Orderly

variable {k : Setup} {s t : Brood}

/-- What holds of the server and the pipes in an environment that keeps it in order. -/
structure Brood.Inv (k : Setup) (s : Brood) : Prop where
  guard : Guard k s.state
  heard : s.pipes.Heard s.state
  ends : Ends k s
  told : s.Told

/-- A child that is told has something to be read. -/
theorem Guard.settled (h : Guard k s.state) (he : Ends k s) : Guard k s.settled.state where
  parent := h.parent
  fresh c hc := by
    simp only [Brood.settled, he.not_news hc, if_false]
    exact h.fresh c hc
  hand := h.hand
  heeds c := by
    simp only [Brood.settled]
    split
    · exact fun _ _ => rfl
    · exact h.heeds c
  kept p hp := by
    have hk := h.kept p hp
    unfold State.Kept at hk ⊢
    simp only [Brood.settled]
    split
    · exact hk
    · exact hk

/-- A child hears that its pipe is hung up. -/
theorem heard_settled (h : s.pipes.Heard s.state) : s.settled.pipes.Heard s.settled.state := by
  intro c
  simp only [Brood.settled]
  split
  · exact (h c).leave
  · exact h c

/-- A step in order keeps it so. -/
theorem Brood.Inv.step (h : s.Inv k) {a : Act} (ha : s.Allowed k a) (hord : s.Orderly a)
    (hs : s.step k a = .ok t) : t.Inv k := by
  obtain ⟨hends, htold⟩ := h.ends.step h.told ha hs
  suffices hrest : Guard k t.state ∧ t.pipes.Heard t.state from ⟨hrest.1, hrest.2, hends, htold⟩
  cases a with
  | server a =>
      cases hu : s.state.step k a with
      | error x => simp [Brood.step, hu] at hs
      | ok u =>
          simp only [Brood.step, hu, ok_bind] at hs
          obtain rfl := Except.ok.inj hs
          exact ⟨Guard.settled (h.guard.step ha.1 hord.1 hu) (h.ends.server ha.1 hu),
            heard_settled (h.heard.step ha.1 ha.2.1 hord.2 hu)⟩
  | notice c idx =>
      obtain rfl := Except.ok.inj hs
      exact ⟨h.guard.step (a := .arrive c) ha.1 trivial rfl,
        h.heard.on (f := fun kid => { kid with ready := true }) (g := fun x => x.send [idx])
          (h.heard c).send⟩
  | orphan =>
      obtain rfl := Except.ok.inj hs
      have hends : Ends k { s with orphaned := true } :=
        ⟨h.ends.parent, h.ends.fresh, h.ends.below, h.ends.own, h.ends.elder⟩
      exact ⟨Guard.settled (s := { s with orphaned := true }) h.guard hends,
        heard_settled (s := { s with orphaned := true }) h.heard⟩

/-- In every orderly run. -/
theorem brood_inv_of_run {users : Nat → ClientData} {as : List Act}
    (h : (orderly k users).Run as s) : s.Inv k := by
  obtain ⟨hends, htold⟩ := ends_of_run (Machine.Run.nil (M := machine k users))
  refine h.invariant ⟨guard_start k users, Peers.heard_connected _, hends, htold⟩ ?_
  rintro s a t hi ⟨ha, hord⟩ hs
  exact hi.step ha hord hs

end Orderly

/-- Every child has exited, or is blocked with nothing to be reported to it. -/
def Brood.AtRest (s : Brood) : Prop := ∀ p ∈ s.state.parent.kernel.procs, p.dead = false →
  (s.state.children p.serial).pc = .blocked ∧ (s.state.children p.serial).ready = false

/-- In every orderly run, once the parent is gone the children come to rest only when all of them
have exited. -/
theorem orphans_exit (k : Setup) (users : Nat → ClientData) {as : List Act} {s : Brood}
    (h : (orderly k users).Run as s) (ho : s.orphaned = true) (hr : s.AtRest) :
    ∀ p ∈ s.state.parent.kernel.procs, p.dead = true := by
  have hi := brood_inv_of_run h
  by_contra hno
  push Not at hno
  obtain ⟨p, hp, hd⟩ := hno
  -- the youngest child that runs was hung up on
  obtain ⟨q, hq, hlast⟩ := Finset.exists_max_image
    (s.state.parent.kernel.procs.filter fun p => p.dead = false).toFinset Proc.serial
    ⟨p, by simpa using And.intro hp (by simpa using hd)⟩
  simp only [List.mem_toFinset, List.mem_filter, decide_eq_true_eq] at hq hlast
  obtain ⟨hblocked, hready⟩ := hr q hq.1 hq.2
  have hleft : (s.pipes q.serial).left = true := by
    rw [hi.told q hq.1 hq.2, hi.ends.hung_iff hq.1 hq.2]
    exact ⟨ho, by simp [hblocked, starting], fun r hr hrd => hlast r ⟨hr, hrd⟩⟩
  have hstop : (s.state.children q.serial).stopChild = false := by
    by_contra hset
    have := hi.guard.heeds q.serial (by simpa using hset) (Or.inr hblocked)
    simp [hready] at this
  rw [(hi.heard q.serial).stays hblocked hready hstop] at hleft
  cases hleft

/-- The younger orphan exits, and then the elder. -/
def sampleExits : List Act :=
  sampleOrphans ++ ([.run 1, .serve 1 true, .run 1, .parent (.die 102), .run 0, .serve 0 true,
    .run 0, .parent (.die 101)] : List Sigterm.Act).map .server

/-- No orphan is left. -/
theorem orphans_exit_both :
    ∃ s, (orderly sampleSetup fun _ => ⟨0, 0, 0, 0⟩).Run sampleExits s ∧
      s.state.parent.kernel.procs.length = 2 ∧
        ∀ p ∈ s.state.parent.kernel.procs, p.dead = true := by
  obtain ⟨s, hrun, hs⟩ := Machine.Run.of_exec_map
    (M := orderly sampleSetup fun _ => ⟨0, 0, 0, 0⟩)
    (f := fun s => (s.state.parent.kernel.procs, s.orphaned))
    (x := ([⟨101, 0, 8, 0, true⟩, ⟨102, 1, 9, 1, true⟩], true)) sampleExits (by decide) (by decide)
  simp only [Prod.mk.injEq] at hs
  obtain ⟨hprocs, hgone⟩ := hs
  refine ⟨s, hrun, by simp [hprocs], orphans_exit _ _ hrun hgone fun p hp hd => ?_⟩
  rw [hprocs] at hp
  simp only [List.mem_cons, List.not_mem_nil, or_false] at hp
  rcases hp with rfl | rfl <;> simp at hd

end Orphans

end Chat

end LinuxWebsocket
