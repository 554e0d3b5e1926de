import LinuxWebsocket.Chat.Sigterm

/-!
# The windows in which a `SIGTERM` is lost

A `SIGTERM` delivered to a child is remembered by `stop_child` or by the byte its
inherited handler posts, which makes the parent send another one. Neither is so
between the `close` of the signal pipe and the child's own handler; and a flag set
between its test and `epoll_wait` is not looked at before something arrives. Outside
these windows no child sleeps through its `SIGTERM`.
-/

namespace LinuxWebsocket

namespace Chat

section Moves

variable {k : Setup} {s t : Parent} {e : Event}

/-- The bytes read from the signal pipe and not handled yet. -/
def Ctl.bytes : Ctl → List Signal
  | .signals bytes _ => bytes
  | .reaping bytes _ => bytes
  | _ => []

/-- The loop over the signal bytes handles the first of them, and no child comes or goes. -/
theorem byte_move (hm : Move k s .byte t) :
    t.ctl.bytes = s.ctl.bytes.tail ∧ t.kernel = s.kernel := by
  cases hm with
  | chld hctl => exact ⟨by simp [Ctl.bytes, hctl], rfl⟩
  | ignored hctl => exact ⟨by simp [Ctl.bytes, hctl], rfl⟩
  | stop hctl => exact ⟨by simp [Ctl.bytes, hctl], rfl⟩
  | kill hctl => exact ⟨by simp [Ctl.bytes, hctl], rfl⟩
  | bytesDone hctl => exact ⟨by simp [Ctl.bytes, hctl], rfl⟩

/-- Nothing else changes the bytes but reading them. -/
theorem bytes_move (hm : Move k s e t) (hs : ∀ bytes, e ≠ .signals bytes) (hb : e ≠ .byte) :
    t.ctl.bytes = s.ctl.bytes := by
  cases hm with
  | wake hctl => simp [Ctl.bytes, hctl]
  | fail hctl => simp [Ctl.bytes, hctl]
  | refused hctl => simp [Ctl.bytes, hctl]
  | aborted hctl => simp [Ctl.bytes, hctl]
  | unforked hctl => simp [Ctl.bytes, hctl, Parent.unforked]
  | admitted hctl => simp [Ctl.bytes, hctl, Parent.admitted]
  | signals => exact absurd rfl (hs _)
  | chld => exact absurd rfl hb
  | ignored => exact absurd rfl hb
  | stop => exact absurd rfl hb
  | kill => exact absurd rfl hb
  | bytesDone => exact absurd rfl hb
  | reaped => rfl
  | endReap hctl => simp [Ctl.bytes, hctl]
  | notify hctl => simp [Ctl.bytes, hctl]
  | endBatch hctl =>
      rw [hctl]
      cases s.stopServer <;> rfl
  | die => rfl

end Moves

namespace Sigterm

variable {k : Setup} {s t : State}

/-- A byte a child posted for a `SIGTERM` is in the signal pipe or still to be handled. -/
def State.Posted (s : State) (c : Nat) : Prop := ⟨.term, some c⟩ ∈ s.hand ++ s.pipe

instance (s : State) (c : Nat) : Decidable (s.Posted c) := inferInstanceAs (Decidable (_ ∈ _))

/-- A child is blocked though its `SIGTERM` was delivered, and nothing will wake it. -/
structure State.Lost (s : State) (c : Nat) : Prop where
  live : s.Live c
  blocked : (s.children c).pc = .blocked
  delivered : (s.children c).delivered = true
  /-- No other `SIGTERM` is on its way to it. -/
  unsent : (s.children c).pending = false
  unready : (s.children c).ready = false
  unposted : ¬s.Posted c

instance (s : State) (c : Nat) : Decidable (s.Lost c) :=
  decidable_of_iff (s.Live c ∧ (s.children c).pc = .blocked ∧ (s.children c).delivered = true ∧
    (s.children c).pending = false ∧ (s.children c).ready = false ∧ ¬s.Posted c)
    ⟨fun ⟨hl, hb, hd, hu, hr, hp⟩ => ⟨hl, hb, hd, hu, hr, hp⟩,
      fun ⟨hl, hb, hd, hu, hr, hp⟩ => ⟨hl, hb, hd, hu, hr, hp⟩⟩

/-- A `SIGTERM` finds the inherited handler with its pipe, which takes the byte; or the child's
own handler, and the child not about to block. -/
def State.InTime (s : State) : Act → Prop
  | .deliver c sent => match (s.children c).handler with
    | .inherited => (s.children c).sigpipe = true ∧ sent = true
    | .own => (s.children c).pc = .wait → (s.children c).ready = true
  | _ => True

instance (s : State) (a : Act) : Decidable (s.InTime a) := by
  unfold State.InTime
  split
  · split <;> infer_instance
  · infer_instance

/-- The server in an environment that keeps out of the windows. -/
def timely (k : Setup) (users : Nat → ClientData) : Machine State Act Fault :=
  (machine k users).restrict State.InTime

instance (k : Setup) (users : Nat → ClientData) (s : State) (a : Act) :
    Decidable ((timely k users).Allowed s a) :=
  inferInstanceAs (Decidable (s.Allowed k a ∧ s.InTime a))

/-- A child with its flag set does not block. -/
def Child.Heeds (kid : Child) : Prop :=
  kid.stopChild = true → kid.pc = .wait ∨ kid.pc = .blocked → kid.ready = true

/-- A `SIGTERM` that was delivered is remembered: by the flag, by another one, or by a byte. -/
def State.Kept (s : State) (c : Nat) : Prop :=
  (s.children c).delivered = true →
    (s.children c).stopChild = true ∨ (s.children c).pending = true ∨ s.Posted c

/-- What holds as long as no `SIGTERM` comes in one of the windows. -/
structure Guard (k : Setup) (s : State) : Prop where
  parent : Inv k s.parent
  /-- Nothing has happened to a child that was not forked yet. -/
  fresh : ∀ c, s.parent.kernel.forks ≤ c → s.children c = .forked
  hand : s.hand.map Post.sig = s.parent.ctl.bytes
  heeds : ∀ c, (s.children c).Heeds
  kept : ∀ p ∈ s.parent.kernel.procs, s.Kept p.serial

theorem guard_start (k : Setup) (users : Nat → ClientData) : Guard k (.start k users) :=
  ⟨inv_start k users, fun _ _ => rfl, rfl, fun _ => nofun, by simp [State.start, Parent.start]⟩

/-- Under the guard no `SIGTERM` is lost. -/
theorem Guard.not_lost (h : Guard k s) (c : Nat) : ¬s.Lost c := by
  intro hl
  obtain ⟨p, hp, rfl, -⟩ := hl.live
  rcases h.kept p hp hl.delivered with hstop | hpending | hposted
  · have hready := h.heeds p.serial hstop (Or.inr hl.blocked)
    rw [hl.unready] at hready
    cases hready
  · rw [hl.unsent] at hpending
    cases hpending
  · exact hl.unposted hposted

section Child

variable {kid : Child}

/-- The flag is tested before `epoll_wait`, which does not block on something to be read. -/
theorem Child.Heeds.run (h : kid.Heeds) : kid.run.Heeds := by
  intro hstop hpc
  cases hk : kid.pc with
  | test =>
      simp only [Child.run, hk] at hstop hpc
      rw [if_pos hstop] at hpc
      simp at hpc
  | wait =>
      cases hr : kid.ready with
      | false =>
          simp only [Child.run, hk, hr] at hstop
          exact absurd (h hstop (Or.inl hk)) (by simp [hr])
      | true => simp [Child.run, hk, hr] at hpc
  | blocked =>
      cases hr : kid.ready with
      | false =>
          simp only [Child.run, hk, hr] at hstop
          exact absurd (h hstop (Or.inr hk)) (by simp [hr])
      | true => simp [Child.run, hk, hr] at hpc
  | _ => simp [Child.run, hk] at hpc

/-- A statement of the child is not about its `SIGTERM`. -/
theorem Child.run_kept : kid.run.delivered = kid.delivered ∧
    kid.run.stopChild = kid.stopChild ∧ kid.run.pending = kid.pending := by
  cases hk : kid.pc <;> cases hr : kid.ready <;> simp [Child.run, hk, hr]

/-- A `SIGTERM` in time sets no flag in front of a sleep: it ends the one it finds. -/
theorem Child.Heeds.deliver (h : kid.Heeds)
    (ht : kid.handler = .own → kid.pc = .wait → kid.ready = true) : kid.deliver.Heeds := by
  intro hstop hpc
  have hwait : kid.pc = .wait := by
    by_cases hb : kid.pc = .blocked
    · simp [Child.deliver, hb] at hpc
    · simpa [Child.deliver, hb] using hpc
  cases hk : kid.handler with
  | inherited =>
      have hset : kid.stopChild = true := by simpa [Child.deliver, hk] using hstop
      exact h hset (Or.inl hwait)
  | own => exact ht hk hwait

end Child

@[simp] theorem children_onChild_self {c : Nat} {f : Child → Child} :
    (s.onChild c f).children c = f (s.children c) := Function.update_self ..

theorem children_onChild_of_ne {c d : Nat} {f : Child → Child} (h : d ≠ c) :
    (s.onChild c f).children d = s.children d := Function.update_of_ne h ..

/-- A change to one child that keeps its flag heeded and its `SIGTERM` remembered. -/
theorem Guard.onChild (h : Guard k s) {p : Proc} (hp : p ∈ s.parent.kernel.procs)
    {f : Child → Child} (hf : (f (s.children p.serial)).Heeds)
    (hk : (s.onChild p.serial f).Kept p.serial) : Guard k (s.onChild p.serial f) := by
  refine ⟨h.parent, ?_, h.hand, ?_, ?_⟩
  · intro c hc
    have hlt := h.parent.serials.2 p hp
    have hle : s.parent.kernel.forks ≤ c := hc
    rw [children_onChild_of_ne (by omega)]
    exact h.fresh c hc
  · intro c
    by_cases hc : c = p.serial
    · rw [hc, children_onChild_self]
      exact hf
    · rw [children_onChild_of_ne hc]
      exact h.heeds c
  · intro q hq
    by_cases hc : q.serial = p.serial
    · rw [hc]
      exact hk
    · unfold State.Kept
      rw [children_onChild_of_ne hc]
      exact h.kept q hq

/-- A change to one child that forgets nothing of its `SIGTERM`. -/
theorem Guard.onChild_kept (h : Guard k s) {p : Proc} (hp : p ∈ s.parent.kernel.procs)
    {f : Child → Child} (hf : (f (s.children p.serial)).Heeds)
    (hd : (f (s.children p.serial)).delivered = (s.children p.serial).delivered)
    (hs : (s.children p.serial).stopChild = true → (f (s.children p.serial)).stopChild = true)
    (hpd : (f (s.children p.serial)).pending = (s.children p.serial).pending) :
    Guard k (s.onChild p.serial f) := by
  apply h.onChild hp hf
  unfold State.Kept
  rw [children_onChild_self, hd, hpd]
  intro hdelivered
  rcases h.kept p hp hdelivered with hstop | hrest
  · exact Or.inl (hs hstop)
  · exact Or.inr hrest

/-- More bytes in the signal pipe. -/
theorem Guard.append (h : Guard k s) (posts : List Post) :
    Guard k { s with pipe := s.pipe ++ posts } := by
  refine ⟨h.parent, h.fresh, h.hand, h.heeds, fun p hp hd => ?_⟩
  rcases h.kept p hp hd with hstop | hpending | hposted
  · exact Or.inl hstop
  · exact Or.inr (Or.inl hpending)
  · refine Or.inr (Or.inr ?_)
    simp only [State.Posted, ← List.append_assoc]
    exact List.mem_append_left _ hposted

/-- A `SIGTERM` delivered in time. -/
theorem Guard.deliver (h : Guard k s) {p : Proc} (hp : p ∈ s.parent.kernel.procs) {sent : Bool}
    (ht : s.InTime (.deliver p.serial sent)) :
    Guard k { s.onChild p.serial Child.deliver with
      pipe := s.pipe ++ (s.children p.serial).posts p.serial sent } := by
  refine (h.append ((s.children p.serial).posts p.serial sent)).onChild hp ?_ ?_
  · apply (h.heeds p.serial).deliver
    intro hown
    simpa [State.InTime, hown] using ht
  · intro _
    rw [children_onChild_self]
    cases hk : (s.children p.serial).handler with
    | inherited =>
        obtain ⟨hopen, hsent⟩ : (s.children p.serial).sigpipe = true ∧ sent = true := by
          simpa [State.InTime, hk] using ht
        refine Or.inr (Or.inr ?_)
        simp [State.Posted, State.onChild, Child.posts, hk, hopen, hsent]
    | own => exact Or.inl (by simp [Child.deliver, hk])

/-- A step of the parent beside its signal pipe. -/
theorem Guard.move (h : Guard k s) {e : Event} {u : Parent} (hm : Move k s.parent e u)
    (hs : ∀ bytes, e ≠ .signals bytes) (hb : e ≠ .byte) : Guard k { s with parent := u } := by
  refine ⟨h.parent.move hm, fun c hc => h.fresh c ((forks_le hm).trans hc),
    h.hand.trans (bytes_move hm hs hb).symm, h.heeds, fun p hp => ?_⟩
  rcases serials_move hm hp with ⟨q, hq, he⟩ | he
  · rw [← he]
    exact h.kept q hq
  · intro hd
    rw [he, h.fresh _ le_rfl] at hd
    cases hd

/-- The parent reads its signal pipe. -/
theorem Guard.signals (h : Guard k s) {bytes : List Signal} {u : Parent}
    (hm : Move k s.parent (.signals bytes) u) (hr : s.Receives (.signals bytes)) :
    Guard k { s with
      parent := u, pipe := s.pipe.drop bytes.length, hand := s.pipe.take bytes.length } := by
  cases hm with
  | @signals _ todo hctl =>
      have hempty : s.hand = [] := by
        have hb := h.hand
        rw [hctl] at hb
        exact List.map_eq_nil_iff.mp hb
      have htake : (s.pipe.take bytes.length).map Post.sig = bytes := by
        rw [List.map_take]
        exact (List.prefix_iff_eq_take.mp hr.2).symm
      refine ⟨h.parent.move (.signals hctl), h.fresh, htake, h.heeds, fun p hp hd => ?_⟩
      simp only [State.Posted, List.take_append_drop]
      simpa [State.Posted, hempty] using h.kept p hp hd

section Kill

variable {pids : List Nat}

/-- A child is sent a `SIGTERM`, or left alone. -/
theorem children_kill (s : State) (pids : List Nat) (c : Nat) :
    (∃ p ∈ s.parent.kernel.procs, p.serial = c ∧
      (s.kill pids).children c = { s.children c with pending := true }) ∨
    (s.kill pids).children c = s.children c := by
  by_cases hc : (s.parent.kernel.procs.any fun p => p.serial == c && pids.contains p.pid) = true
  · obtain ⟨p, hp, hpc⟩ := List.any_eq_true.mp hc
    exact Or.inl ⟨p, hp, by simp_all, if_pos hc⟩
  · exact Or.inr (if_neg hc)

/-- A child whose number is among those is sent a `SIGTERM`. -/
theorem pending_kill {p : Proc} (hp : p ∈ s.parent.kernel.procs) (hpid : p.pid ∈ pids) :
    ((s.kill pids).children p.serial).pending = true := by
  have hany : (s.parent.kernel.procs.any fun q => q.serial == p.serial && pids.contains q.pid) =
      true := List.any_eq_true.mpr ⟨p, hp, by simpa using hpid⟩
  simp only [State.kill, hany, ite_true]

/-- Nothing but `pending` is changed. -/
theorem kill_kept (s : State) (pids : List Nat) (c : Nat) :
    ((s.kill pids).children c).delivered = (s.children c).delivered ∧
      ((s.kill pids).children c).stopChild = (s.children c).stopChild ∧
      ((s.children c).pending = true → ((s.kill pids).children c).pending = true) := by
  rcases children_kill s pids c with ⟨_, _, _, he⟩ | he
  · rw [he]
    exact ⟨rfl, rfl, fun _ => rfl⟩
  · rw [he]
    exact ⟨rfl, rfl, id⟩

end Kill

/-- A `SIGTERM` byte makes the parent send one to every child. -/
theorem Guard.mem_killed (h : Guard k s) {u : Parent} (hm : Move k s.parent .byte u)
    (ha : s.parent.Allowed k .byte) {c : Option Nat} {rest : List Post}
    (hhand : s.hand = ⟨.term, c⟩ :: rest) {p : Proc} (hp : p ∈ s.parent.kernel.procs) :
    p.pid ∈ u.killed.take (u.killed.length - s.parent.killed.length) := by
  obtain ⟨bytes, todo, hctl⟩ := Parent.at_byte ha.1
  have hbytes : s.parent.ctl.bytes = bytes := by rw [hctl]; rfl
  rw [← h.hand, hhand] at hbytes
  have hterm : s.parent.terminating .byte :=
    ⟨.term, _, todo, by rw [hctl, ← hbytes]; rfl, Or.inl rfl⟩
  obtain ⟨pids, hkilled, hperm⟩ := (h.parent.effect hm).signalled hterm
  have htake : u.killed.take (u.killed.length - s.parent.killed.length) = pids := by
    rw [hkilled, List.length_append, Nat.add_sub_cancel_right, List.take_left]
  rw [htake]
  exact hperm.mem_iff.mpr (List.mem_map_of_mem hp)

/-- The parent handles a signal byte. -/
theorem Guard.byte (h : Guard k s) {u : Parent} (hm : Move k s.parent .byte u)
    (ha : s.parent.Allowed k .byte) :
    Guard k { s.kill (u.killed.take (u.killed.length - s.parent.killed.length)) with
      parent := u, hand := s.hand.tail } := by
  obtain ⟨hbytes, hkernel⟩ := byte_move hm
  refine ⟨h.parent.move hm, ?_, ?_, ?_, ?_⟩
  · intro c hc
    rw [hkernel] at hc
    rcases children_kill s _ c with ⟨p, hp, rfl, -⟩ | he
    · have hlt := h.parent.serials.2 p hp
      omega
    · exact he.trans (h.fresh c hc)
  · rw [hbytes, ← h.hand]
    exact List.map_tail
  · intro c
    rcases children_kill s _ c with ⟨_, _, _, he⟩ | he
    · rw [he]
      exact h.heeds c
    · rw [he]
      exact h.heeds c
  · intro p hp hd
    rw [hkernel] at hp
    obtain ⟨hdelivered, hstop, hpending⟩ := kill_kept s
      (u.killed.take (u.killed.length - s.parent.killed.length)) p.serial
    rw [hdelivered] at hd
    rw [hstop]
    rcases h.kept p hp hd with hset | hset | hposted
    · exact Or.inl hset
    · exact Or.inr (Or.inl (hpending hset))
    · cases hhand : s.hand with
      | nil =>
          rw [State.Posted, hhand] at hposted
          exact Or.inr (Or.inr hposted)
      | cons post rest =>
          rw [State.Posted, hhand, List.cons_append] at hposted
          -- the byte is handled now, or still to be handled
          rcases List.mem_cons.mp hposted with rfl | hrest
          · exact Or.inr (Or.inl (pending_kill hp (h.mem_killed hm ha hhand hp)))
          · exact Or.inr (Or.inr hrest)

/-- A step in time keeps the guard. -/
theorem Guard.step (h : Guard k s) {a : Act} (ha : s.Allowed k a) (ht : s.InTime a)
    (hs : s.step k a = .ok t) : Guard k t := by
  cases a with
  | parent e =>
      cases hp : s.parent.step k e with
      | error x => simp [State.step, hp] at hs
      | ok u =>
          have hm := h.parent.move_of_step ha.1 hp
          simp only [State.step, hp, ok_bind] at hs
          cases e with
          | signals bytes =>
              obtain rfl := Except.ok.inj hs
              exact h.signals hm ha.2
          | byte =>
              obtain rfl := Except.ok.inj hs
              exact h.byte hm ha.1
          | _ =>
              obtain rfl := Except.ok.inj hs
              exact h.move hm nofun nofun
  | post b =>
      obtain rfl := Except.ok.inj hs
      exact h.append _
  | arrive c =>
      obtain ⟨p, hp, rfl, -⟩ := ha
      obtain rfl := Except.ok.inj hs
      exact h.onChild_kept hp (fun _ _ => rfl) rfl id rfl
  | run c =>
      obtain ⟨⟨p, hp, rfl, -⟩, -⟩ := ha
      obtain rfl := Except.ok.inj hs
      obtain ⟨hd, hset, hpd⟩ := (s.children p.serial).run_kept
      exact h.onChild_kept hp (h.heeds p.serial).run hd (fun hold => hset.trans hold) hpd
  | serve c gone =>
      obtain ⟨⟨p, hp, rfl, -⟩, -⟩ := ha
      obtain rfl := Except.ok.inj hs
      refine h.onChild_kept hp ?_ rfl ?_ rfl
      · intro _ hpc
        simp [Child.serve] at hpc
      · intro hset
        simp [Child.serve, hset]
  | deliver c sent =>
      obtain ⟨⟨p, hp, rfl, -⟩, -⟩ := ha
      obtain rfl := Except.ok.inj hs
      exact h.deliver hp ht

/-- In every run in which each `SIGTERM` is delivered to a child in time, none is lost:
whenever a child is blocked in `epoll_wait` behind one, something will wake it. -/
theorem sigterm_not_lost (k : Setup) (users : Nat → ClientData) {as : List Act}
    (h : (timely k users).Run as s) (c : Nat) : ¬s.Lost c := by
  have hg : Guard k s := by
    apply h.invariant (guard_start k users)
    intro s a t hi ha hs
    exact hi.step ha.1 ha.2 hs
  exact hg.not_lost c

/-- A client comes, and its child executes `n` statements. -/
def forkAnd (n : Nat) : List Act :=
  [.parent (.wake [3]), .parent (.accept ⟨some 7, some (8, 9), some 101⟩), .parent .endBatch] ++
    List.replicate n (.run 0)

/-- A `SIGTERM` byte is read and handled. -/
def terminate : List Act :=
  [.parent (.wake [5]), .parent (.signals [.term]), .parent .byte, .parent .byte, .parent .endBatch]

/-- A child gets its `SIGTERM` before it closes the signal pipe; the byte it posts brings
another one, which finds it in `epoll_wait`. -/
theorem sigterm_not_lost_reposted :
    ∃ s, (timely sampleSetup fun _ => ⟨0, 0, 0, 0⟩).Run
      (forkAnd 1 ++ .post .term :: terminate ++ .deliver 0 true :: List.replicate 10 (.run 0) ++
        terminate) s ∧
      (s.children 0).pc = .blocked ∧ (s.children 0).delivered = true ∧ ¬s.Lost 0 :=
  have ⟨s, hrun, hs⟩ := Machine.Run.of_exec_map (M := timely sampleSetup fun _ => ⟨0, 0, 0, 0⟩)
    (f := fun s => ((s.children 0).pc, (s.children 0).delivered)) (x := (.blocked, true))
    (forkAnd 1 ++ .post .term :: terminate ++ .deliver 0 true :: List.replicate 10 (.run 0) ++
      terminate) (by decide) (by decide)
  ⟨s, hrun, congrArg Prod.fst hs, congrArg Prod.snd hs, sigterm_not_lost _ _ hrun 0⟩

/-- A child gets its `SIGTERM` between the test of `stop_child` and `epoll_wait`, or between
the `close` of the signal pipe and its own handler, and blocks for good. -/
theorem sigterm_lost :
    (∃ s, (machine sampleSetup fun _ => ⟨0, 0, 0, 0⟩).Run
      (forkAnd 10 ++ .post .term :: terminate ++ [.deliver 0 true, .run 0]) s ∧ s.Lost 0) ∧
    ∃ s, (machine sampleSetup fun _ => ⟨0, 0, 0, 0⟩).Run
      (forkAnd 5 ++ .post .term :: terminate ++ .deliver 0 true :: List.replicate 6 (.run 0)) s ∧
      s.Lost 0 := by
  constructor
  · obtain ⟨s, hrun, hs⟩ := Machine.Run.of_exec_map
      (M := machine sampleSetup fun _ => ⟨0, 0, 0, 0⟩) (f := fun s => decide (s.Lost 0)) (x := true)
      (forkAnd 10 ++ .post .term :: terminate ++ [.deliver 0 true, .run 0]) (by decide) (by decide)
    exact ⟨s, hrun, of_decide_eq_true hs⟩
  · obtain ⟨s, hrun, hs⟩ := Machine.Run.of_exec_map
      (M := machine sampleSetup fun _ => ⟨0, 0, 0, 0⟩) (f := fun s => decide (s.Lost 0)) (x := true)
      (forkAnd 5 ++ .post .term :: terminate ++ .deliver 0 true :: List.replicate 6 (.run 0))
      (by decide) (by decide)
    exact ⟨s, hrun, of_decide_eq_true hs⟩

end Sigterm

end Chat

end LinuxWebsocket
