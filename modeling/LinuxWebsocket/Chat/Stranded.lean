import LinuxWebsocket.Chat.Turns

/-!
# Notifications left behind

All descriptors are registered edge-triggered, and every report is answered by a
single `recv`. Two notifications that merge into one edge therefore leave one of them
unread, and closing the pipe of a reaped child loses whatever is unread in it. If
neither happens, nothing is left behind when parent and children all block.
-/

namespace LinuxWebsocket

namespace Chat

open EdgeTriggered

variable {k : Setup} {s t : System}

/-- A report of the descriptor is still to be handled in the batch. -/
def Parent.pending (s : Parent) (fd : Nat) : Bool := s.ctl.todo.contains fd

/-- A report of the pipe is still to be handled in the child's batch. -/
def Kid.pending (kid : Kid) : Bool := kid.ctl.todo.contains .pipe

/-- `epoll_wait` reports a pipe only where an edge is pending. -/
def System.Timely (s : System) : Act → Prop
  | .parent (.wake ready) => ∀ p ∈ s.parent.kernel.procs, p.pipe ∈ ready →
    (s.kids p.serial).up.edge = true
  | .wake c ready => .pipe ∈ ready → (s.kids c).down.edge = true
  | _ => True

instance (s : System) (a : Act) : Decidable (s.Timely a) := by
  unfold System.Timely
  split <;> infer_instance

/-- A number is written to a pipe only while all that is unread in it is covered by a
report still to be handled, and a child is reaped only once its pipe was read empty. -/
def System.Spaced (s : System) : Act → Prop
  | .receive c (some _) => ∀ p ∈ s.parent.kernel.procs, p.serial = c →
    (s.kids c).up.Spaced (s.parent.pending p.pipe)
  | .notify => ∀ p ∈ s.parent.kernel.procs, s.parent.ctl.todo.head? = some p.pipe →
    (s.kids p.serial).up.queue ≠ [] →
    ∀ q ∈ s.parent.kernel.procs, q.pipe ≠ p.pipe → q.dead = false →
      (s.kids q.serial).down.Spaced (s.kids q.serial).pending
  | .parent (.waitpid (some pid)) => ∀ p ∈ s.parent.kernel.procs, p.pid = pid →
    (s.kids p.serial).up.queue = []
  | _ => True

instance (s : System) (a : Act) : Decidable (s.Spaced a) := by
  unfold System.Spaced
  split <;> infer_instance

/-- The server on edge-triggered descriptors. -/
def edgeSystem (k : Setup) (users : Nat → ClientData) : Machine System Act Fault :=
  (system k users).restrict System.Timely

instance (k : Setup) (users : Nat → ClientData) (s : System) (a : Act) :
    Decidable ((edgeSystem k users).Allowed s a) :=
  inferInstanceAs (Decidable (s.Allowed k a ∧ s.Timely a))

instance (k : Setup) (users : Nat → ClientData) (s : System) (a : Act) :
    Decidable (((edgeSystem k users).restrict System.Spaced).Allowed s a) :=
  inferInstanceAs (Decidable ((s.Allowed k a ∧ s.Timely a) ∧ s.Spaced a))

/-- The parent and all live children are blocked, and no edge of a pipe is pending. -/
structure System.Quiescent (s : System) : Prop where
  parent : s.parent.ctl = .waiting
  up : ∀ p ∈ s.parent.kernel.procs, (s.kids p.serial).up.edge = false
  kids : ∀ p ∈ s.parent.kernel.procs, p.dead = false → (s.kids p.serial).ctl = .waiting
  down : ∀ p ∈ s.parent.kernel.procs, p.dead = false → (s.kids p.serial).down.edge = false

/-- Whatever a child wrote, exited or not, was read and passed on, and whatever was passed
on to a live child was read by it. -/
structure System.Delivered (s : System) : Prop where
  up : ∀ c, (s.kids c).up.received = (s.kids c).up.sent
  down : ∀ p ∈ s.parent.kernel.procs, p.dead = false →
    (s.kids p.serial).down.received = (s.kids p.serial).down.sent

/-- Everything unread is covered by an edge or a report. -/
structure Covering (k : Setup) (s : System) : Prop extends SysInv k s where
  up : s.parent.ctl ≠ .aborted → ∀ p ∈ s.parent.kernel.procs,
    (s.kids p.serial).up.Covered (s.parent.pending p.pipe)
  down : ∀ p ∈ s.parent.kernel.procs, p.dead = false →
    (s.kids p.serial).down.Covered (s.kids p.serial).pending
  /-- Nothing is unread in the pipe of a child that was reaped, or never forked. -/
  gone : ∀ c, (∀ p ∈ s.parent.kernel.procs, p.serial ≠ c) → (s.kids c).up.queue = []

/-- The server starts with nothing unread. -/
theorem covering_start (k : Setup) (users : Nat → ClientData) : Covering k (.start k users) :=
  ⟨sysInv_start k users, by simp [System.start, Parent.start], by simp [System.start, Parent.start],
    fun _ _ => rfl⟩

/-- Where all is covered and all block, nothing is unread. -/
theorem Covering.delivered (h : Covering k s) (hq : s.Quiescent) : s.Delivered := by
  refine ⟨?_, ?_⟩
  · intro c
    apply Channel.received_of_queue
    by_cases hc : ∃ p ∈ s.parent.kernel.procs, p.serial = c
    · obtain ⟨p, hp, rfl⟩ := hc
      have hcov := h.up (by simp [hq.parent]) p hp
      have hpend : s.parent.pending p.pipe = false := by
        simp [Parent.pending, hq.parent, Ctl.todo]
      rw [hpend] at hcov
      exact hcov.drained (hq.up p hp)
    · exact h.gone c fun p hp he => hc ⟨p, hp, he⟩
  · intro p hp hlive
    have hcov := h.down p hp hlive
    have hpend : (s.kids p.serial).pending = false := by
      simp [Kid.pending, hq.kids p hp hlive, KidCtl.todo]
    rw [hpend] at hcov
    exact Channel.received_of_queue (hcov.drained (hq.down p hp hlive))

section Moves

variable {s t : Parent} {e : Event}

/-- An aborted parent makes no move. -/
theorem ctl_ne_aborted (hm : Move k s e t) (hd : ∀ pid, e ≠ .die pid) : s.ctl ≠ .aborted := by
  cases hm with
  | die => exact absurd rfl (hd _)
  | reaped hctl => simp [hctl]
  | _ => simp_all

/-- Reports of the children's pipes stay pending through other events. -/
theorem pending_move (hi : Inv k s) (hm : Move k s e t) (hw : ∀ ready, e ≠ .wake ready)
    (hn : ∀ idx, e ≠ .notify idx) (ha : t.ctl ≠ .aborted) {p : Proc} (hp : p ∈ s.kernel.procs) :
    t.pending p.pipe = s.pending p.pipe := by
  have hl : p.pipe ≠ k.listenfd := fun he => hi.base.2 p hp (he ▸ k.listen_mem)
  have hs : p.pipe ≠ k.sigfd := fun he => hi.base.2 p hp (he ▸ k.sig_mem)
  cases hm with
  | wake => exact absurd rfl (hw _)
  | fail hctl => simp [Parent.pending, hctl, Ctl.todo]
  | refused hctl => simp [Parent.pending, hctl, Ctl.todo, hl]
  | aborted => exact absurd rfl ha
  | unforked hctl => simp [Parent.pending, hctl, Ctl.todo, hl, Parent.unforked]
  | admitted hctl => simp [Parent.pending, hctl, Ctl.todo, hl, Parent.admitted]
  | signals hctl => simp [Parent.pending, hctl, Ctl.todo, hs]
  | chld hctl => simp [Parent.pending, hctl, Ctl.todo]
  | ignored hctl => simp [Parent.pending, hctl, Ctl.todo]
  | stop hctl => simp [Parent.pending, hctl, Ctl.todo]
  | kill hctl => simp [Parent.pending, hctl, Ctl.todo]
  | bytesDone hctl => simp [Parent.pending, hctl, Ctl.todo]
  | reaped => rfl
  | endReap hctl => simp [Parent.pending, hctl, Ctl.todo]
  | notify => exact absurd rfl (hn _)
  | endBatch hctl => cases s.stopServer <;> simp [Parent.pending, hctl, Ctl.todo]
  | die => rfl

/-- Children come by being forked and go by being reaped. -/
theorem procs_move (hm : Move k s e t) (hd : ∀ pid, e ≠ .die pid) :
    (∀ p ∈ t.kernel.procs, p ∈ s.kernel.procs ∨ p.serial = s.kernel.forks) ∧
      ∀ p ∈ s.kernel.procs, p ∈ t.kernel.procs ∨ e = .waitpid (some p.pid) := by
  cases hm with
  | die => exact absurd rfl (hd _)
  | admitted =>
      refine ⟨fun p hp => ?_, fun p hp => Or.inl (List.mem_append_left _ hp)⟩
      rcases List.mem_append.mp hp with hp | hp
      · exact Or.inl hp
      · obtain rfl := List.mem_singleton.mp hp
        exact Or.inr rfl
  | @reaped bytes todo i p =>
      refine ⟨fun q hq => Or.inl (List.mem_filter.mp hq).1, fun q hq => ?_⟩
      by_cases hpid : q.pid = p.pid
      · exact Or.inr (by rw [hpid])
      · exact Or.inl (List.mem_filter.mpr ⟨hq, by simpa using hpid⟩)
  | _ => exact ⟨fun _ => Or.inl, fun _ => Or.inl⟩

end Moves

/-- A change to one child that keeps its channels covered. -/
theorem Covering.onKid (h : Covering k s) {p : Proc} (hp : p ∈ s.parent.kernel.procs)
    {f : Kid → Kid} (hc : (f (s.kids p.serial)).Carries)
    (hu : s.parent.ctl ≠ .aborted →
      (f (s.kids p.serial)).up.Covered (s.parent.pending p.pipe))
    (hd : p.dead = false → (f (s.kids p.serial)).down.Covered (f (s.kids p.serial)).pending) :
    Covering k (s.onKid p.serial f) := by
  refine ⟨h.toSysInv.onKid hp hc, ?_, ?_, ?_⟩
  · intro ha q hq
    by_cases hqp : q = p
    · subst q
      rw [kids_onKid_self]
      exact hu ha
    · rw [kids_onKid_of_ne fun he => hqp (h.parent.serial_injective hq hp he)]
      exact h.up ha q hq
  · intro q hq hlive
    by_cases hqp : q = p
    · subst q
      rw [kids_onKid_self]
      exact hd hlive
    · rw [kids_onKid_of_ne fun he => hqp (h.parent.serial_injective hq hp he)]
      exact h.down q hq hlive
  · intro c hc
    rw [kids_onKid_of_ne fun he => hc p hp he.symm]
    exact h.gone c hc

/-- A step of the parent that neither wakes it nor concerns a pipe keeps all covered, if a
reaped child has left nothing unread. -/
theorem Covering.move (h : Covering k s) {e : Event} {u : Parent} (hm : Move k s.parent e u)
    (hw : ∀ ready, e ≠ .wake ready) (hd : ∀ pid, e ≠ .die pid) (hn : ∀ idx, e ≠ .notify idx)
    (hreap : ∀ p ∈ s.parent.kernel.procs, e = .waitpid (some p.pid) →
      (s.kids p.serial).up.queue = []) : Covering k { s with parent := u } := by
  obtain ⟨hback, hforth⟩ := procs_move hm hd
  have hnew {p : Proc} (hp : p.serial = s.parent.kernel.forks) : s.kids p.serial = .forked :=
    h.fresh _ hp.ge
  refine ⟨h.toSysInv.move hm, ?_, ?_, ?_⟩
  · intro ha p hp
    rcases hback p hp with hp | hp
    · have hpend : Parent.pending u p.pipe = s.parent.pending p.pipe :=
        pending_move h.parent hm hw hn ha hp
      rw [hpend]
      exact h.up (ctl_ne_aborted hm hd) p hp
    · apply Channel.covered_of_nil
      rw [hnew hp]
      rfl
  · intro p hp hlive
    rcases hback p hp with hp | hp
    · exact h.down p hp hlive
    · apply Channel.covered_of_nil
      rw [hnew hp]
      rfl
  · intro c hc
    by_cases hex : ∃ p ∈ s.parent.kernel.procs, p.serial = c
    · obtain ⟨p, hp, rfl⟩ := hex
      rcases hforth p hp with hp' | he
      · exact absurd rfl (hc p hp')
      · exact hreap p hp he
    · exact h.gone c fun p hp he => hex ⟨p, hp, he⟩

/-- Handling a pipe keeps all covered that was covered without its report. -/
theorem Covering.notify (h : Covering k s) {idx : Option Nat} {fd : Nat} {todo : List Nat}
    {u : Parent} (hctl : s.parent.ctl = .batch (fd :: todo))
    (hm : Move k s.parent (.notify idx) u)
    (hfd : ∀ p ∈ s.parent.kernel.procs, p.pipe = fd →
      (s.kids p.serial).up.Covered (todo.contains fd)) : Covering k { s with parent := u } := by
  obtain ⟨hctl', hkernel⟩ : u.ctl = .batch todo ∧ u.kernel = s.parent.kernel := by
    rw [hm.notify_eq hctl]
    exact ⟨rfl, rfl⟩
  refine ⟨h.toSysInv.move hm, ?_, ?_, ?_⟩
  · intro _ p hp
    simp only [hkernel] at hp
    have hpend : Parent.pending u p.pipe = todo.contains p.pipe := by
      simp [Parent.pending, hctl', Ctl.todo]
    rw [hpend]
    by_cases hpf : p.pipe = fd
    · rw [hpf]
      exact hfd p hp hpf
    · have hold := h.up (by simp [hctl]) p hp
      have hsame : s.parent.pending p.pipe = todo.contains p.pipe := by
        simp [Parent.pending, hctl, Ctl.todo, hpf]
      rwa [hsame] at hold
  · intro p hp hlive
    simp only [hkernel] at hp
    exact h.down p hp hlive
  · intro c hc
    simp only [hkernel] at hc
    exact h.gone c hc

/-- Slots may hold anything. -/
theorem Covering.fill (h : Covering k s) {i : Nat} {bytes : List UInt8} :
    Covering k (s.fill i bytes) :=
  ⟨h.toSysInv.fill, h.up, h.down, h.gone⟩

/-- Reporting pending edges to the blocked parent keeps all covered. -/
theorem Covering.reported (h : Covering k s) {ready : List Nat} {u : Parent}
    (hm : Move k s.parent (.wake ready) u)
    (htimely : ∀ p ∈ s.parent.kernel.procs, p.pipe ∈ ready → (s.kids p.serial).up.edge = true) :
    Covering k { s.onKids (fun p => ready.contains p.pipe) fun kid =>
      { kid with up := kid.up.report } with parent := u } := by
  have hbase : SysInv k (s.onKids (fun p => ready.contains p.pipe) fun kid =>
      { kid with up := kid.up.report }) :=
    h.toSysInv.onKids fun c => ⟨(h.carries c).up, (h.carries c).down⟩
  have hinv := hbase.move hm
  cases hm with
  | wake hctl =>
      refine ⟨hinv, ?_, ?_, ?_⟩
      · intro _ p hp
        have hcov := h.up (by simp [hctl]) p hp
        have hpend : s.parent.pending p.pipe = false := by simp [Parent.pending, hctl, Ctl.todo]
        rw [hpend] at hcov
        simp only [kids_onKids h.parent hp]
        by_cases hr : p.pipe ∈ ready
        · simpa [Parent.pending, Ctl.todo, hr] using hcov.report (htimely p hp hr)
        · simpa [Parent.pending, Ctl.todo, hr] using hcov
      · intro p hp hlive
        simp only [kids_onKids h.parent hp]
        by_cases hr : p.pipe ∈ ready <;> simpa [hr, Kid.pending] using h.down p hp hlive
      · intro c hc
        rcases kids_onKids_cases (s := s) (fun p => ready.contains p.pipe)
          (fun kid => { kid with up := kid.up.report }) c with ⟨p, hp, he, -⟩ | he
        · exact absurd he (hc p hp)
        · exact (congrArg (fun kid => kid.up.queue) he).trans (h.gone c hc)

/-- A child's exit keeps all covered. -/
theorem Covering.died (h : Covering k s) {p : Proc} (hp : p ∈ s.parent.kernel.procs)
    (hdead : p.dead = false) : Covering k { s.onKid p.serial fun kid =>
      { kid with up := kid.up.hangup } with parent := s.parent.died p.pid } := by
  have hk : Covering k (s.onKid p.serial fun kid => { kid with up := kid.up.hangup }) :=
    h.onKid hp ⟨(h.carries _).up, (h.carries _).down⟩ (fun ha => (h.up ha p hp).hangup)
      (h.down p hp)
  refine ⟨hk.toSysInv.move (.die hp hdead), ?_, ?_, ?_⟩
  · intro ha q hq
    obtain ⟨q', hq', he, -⟩ := mem_died hq
    rw [he]
    exact hk.up ha q' hq'
  · intro q hq hlive
    obtain ⟨q', hq', he, hd⟩ := mem_died hq
    rw [he]
    apply hk.down q' hq'
    cases hqd : q'.dead
    · rfl
    · exact absurd (hd hqd) (by simp [hlive])
  · intro c hc
    refine hk.gone c fun q hq he => ?_
    have hmem : q.serial ∈ (s.parent.died p.pid).kernel.procs.map Proc.serial := by
      rw [map_died _ fun _ => rfl]
      exact List.mem_map_of_mem hq
    obtain ⟨q', hq', he'⟩ := List.mem_map.mp hmem
    exact hc q' hq' (he'.trans he)

/-- Passing a number on keeps all covered where the writes are spaced. -/
theorem Covering.passed (h : Covering k s) {p : Proc} {n : Notice} (hn : n.idx < userLimit)
    (hspaced : ∀ q ∈ s.parent.kernel.procs, q.pipe ≠ p.pipe → q.dead = false →
      (s.kids q.serial).down.Spaced (s.kids q.serial).pending) :
    Covering k (s.onKids (fun q => q.pipe != p.pipe) fun kid =>
      { kid with down := kid.down.write n }) := by
  refine ⟨h.toSysInv.onKids fun c => ⟨(h.carries c).up, ?_⟩, ?_, ?_, ?_⟩
  · intro m hm
    rcases List.mem_append.mp hm with hm | hm
    · exact (h.carries c).down m hm
    · obtain rfl := List.mem_singleton.mp hm
      exact hn
  · intro ha q hq
    rw [kids_onKids h.parent hq]
    by_cases hqp : q.pipe = p.pipe <;> simpa [hqp] using h.up ha q hq
  · intro q hq hlive
    rw [kids_onKids h.parent hq]
    by_cases hqp : q.pipe = p.pipe
    · simpa [hqp] using h.down q hq hlive
    · simpa [hqp, Kid.pending] using (hspaced q hq hqp hlive).write (m := n)
  · intro c hc
    rcases kids_onKids_cases (s := s) (fun q => q.pipe != p.pipe)
      (fun kid => { kid with down := kid.down.write n }) c with ⟨q, hq, he, -⟩ | he
    · exact absurd he (hc q hq)
    · rw [he]
      exact h.gone c hc

/-- Every turn that is timely and spaced keeps all covered. -/
theorem Covering.turn (h : Covering k s) {a : Act} (ht : Turn k s a t) (htimely : s.Timely a)
    (hspaced : s.Spaced a) : Covering k t := by
  have hsame (c : Nat) : (s.kids c).Carries := h.carries c
  have hread {p : Proc} (hp : p ∈ s.parent.kernel.procs) :
      Covering k (s.onKid p.serial fun kid => { kid with up := kid.up.read }) :=
    h.onKid hp ⟨fun n hn => (hsame _).up n (List.mem_of_mem_drop hn), (hsame _).down⟩
      (fun ha => (h.up ha p hp).read) (h.down p hp)
  cases ht with
  | quiet hm hw hd hn =>
      apply h.move hm hw hd hn
      rintro p hp rfl
      exact hspaced p hp rfl
  | reported hm => exact h.reported hm htimely
  | died hp hdead => exact h.died hp hdead
  | stray hctl hno hm => exact h.notify hctl hm fun p hp he => absurd he (hno p hp)
  | @unread p todo u hp hctl hq hm =>
      refine (hread hp).notify hctl hm fun q hq hqp => ?_
      obtain rfl := h.parent.pipe_injective hq hp hqp
      rw [kids_onKid_self]
      exact (h.up (by simp [hctl]) q hp).read
  | @passed p todo n u hp hctl hn hm =>
      have hidx := (hsame _).up n (List.mem_of_head? hn)
      have hne : (s.kids p.serial).up.queue ≠ [] := fun he => by simp [he] at hn
      have hspace : ∀ q ∈ s.parent.kernel.procs, q.pipe ≠ p.pipe → q.dead = false →
          (s.kids q.serial).down.Spaced (s.kids q.serial).pending :=
        hspaced p hp (by simp [hctl, Ctl.todo]) hne
      have hk := (hread hp).passed (p := p) hidx ?_
      · refine hk.notify hctl hm fun q hq hqp => ?_
        obtain rfl := h.parent.pipe_injective hq hp hqp
        rw [kids_onKids (s := s.onKid q.serial fun kid => { kid with up := kid.up.read })
          h.parent hp]
        simpa using (h.up (by simp [hctl]) q hp).read
      · intro q hq hqp hlive
        have hqs : q.serial ≠ p.serial := fun he =>
          hqp (congrArg Proc.pipe (h.parent.serial_injective hq hp he))
        rw [kids_onKid_of_ne hqs]
        exact hspace q hq hqp hlive
  | @woke p ready hp hdead hctl =>
      have hcov := h.down p hp hdead
      have hpend : (s.kids p.serial).pending = false := by simp [Kid.pending, hctl, KidCtl.todo]
      rw [hpend] at hcov
      refine h.onKid hp ⟨(hsame _).up, ?_⟩ (fun ha => h.up ha p hp) fun _ => ?_
      · intro n hn
        apply (hsame p.serial).down n
        by_cases hr : Source.pipe ∈ ready <;> simpa [hr] using hn
      · by_cases hr : Source.pipe ∈ ready
        · simpa [Kid.pending, KidCtl.todo, hr] using hcov.report (htimely hr)
        · simpa [Kid.pending, KidCtl.todo, hr] using hcov
  | @cleared p todo hp hdead hctl =>
      have hk : Covering k (s.onKid p.serial fun kid => { kid with ctl := .batch todo }) := by
        refine h.onKid hp ⟨(hsame _).up, (hsame _).down⟩ (fun ha => h.up ha p hp) fun _ => ?_
        simpa [Kid.pending, hctl, KidCtl.todo] using h.down p hp hdead
      exact hk.fill
  | @received p m todo hp hdead hctl =>
      have hfill : Covering k (s.fill p.idx m.bytes) := h.fill
      refine hfill.onKid hp ⟨?_, (hsame _).down⟩ (fun _ => (hspaced p hp rfl).write) fun _ => ?_
      · intro n hn
        rcases List.mem_append.mp hn with hn | hn
        · exact (hsame _).up n hn
        · obtain rfl := List.mem_singleton.mp hn
          exact h.parent.slots p hp
      · simpa [Kid.pending, hctl, KidCtl.todo] using h.down p hp hdead
  | @skipped p todo hp hdead hctl hq =>
      refine h.onKid hp ⟨(hsame _).up, (hsame _).down⟩ (fun ha => h.up ha p hp) fun _ => ?_
      exact Channel.covered_of_nil hq
  | @answered p todo n hp hdead hctl hq =>
      have hsent : Covering k { s with answers := (p.serial, s.shm n.idx) :: s.answers } :=
        ⟨⟨h.parent, h.fresh, h.carries⟩, h.up, h.down, h.gone⟩
      exact hsent.onKid hp
        ⟨(hsame _).up, fun m hm => (hsame _).down m (List.mem_of_mem_drop hm)⟩
        (fun ha => h.up ha p hp) fun _ => (h.down p hp hdead).read
  | @rested p hp hdead hctl =>
      refine h.onKid hp ⟨(hsame _).up, (hsame _).down⟩ (fun ha => h.up ha p hp) fun _ => ?_
      simpa [Kid.pending, hctl, KidCtl.todo] using h.down p hp hdead

/-- Where every write is timely and spaced, all is covered. -/
theorem covering_of_run {users : Nat → ClientData} {as : List Act} {s : System}
    (h : ((edgeSystem k users).restrict System.Spaced).Run as s) : Covering k s := by
  apply h.invariant (covering_start k users)
  rintro s a t hi ⟨⟨ha, htimely⟩, hspaced⟩ hs
  exact hi.turn (hi.toSysInv.turn_of_step ha hs) htimely hspaced

/-- In every run in which numbers are written to pipes spaced and children are reaped only
once their pipes were read empty, nothing is left behind when parent and children all block. -/
theorem nothing_stranded (k : Setup) (users : Nat → ClientData) {as : List Act} {s : System}
    (h : ((edgeSystem k users).restrict System.Spaced).Run as s) (hq : s.Quiescent) :
    s.Delivered :=
  (covering_of_run h).delivered hq

/-- A message of the first of two clients goes through before its child exits and is reaped. -/
def sampleExit : List Act :=
  sampleArrival 8 9 101 ++ sampleArrival 9 10 102 ++
    [.endBatch 0, .endBatch 1, .wake 0 [.conn], .receive 0 (some (sampleText 97)),
      .parent (.die 101), .parent (.wake [8, 5]), .notify, .parent (.signals [.chld]),
      .parent .byte, .parent (.waitpid (some 101)), .parent (.waitpid none), .parent .byte,
      .parent .endBatch, .wake 1 [.pipe], .answer 1, .endBatch 1]

/-- Nothing of it is left behind. -/
theorem nothing_stranded_exited :
    ∃ s, ((edgeSystem sampleSetup fun _ => ⟨0, 0, 0, 0⟩).restrict System.Spaced).Run
      sampleExit s ∧ s.Delivered :=
  have hrun := Machine.Run.of_exec
    (M := (edgeSystem sampleSetup fun _ => ⟨0, 0, 0, 0⟩).restrict System.Spaced)
    sampleExit (by decide) rfl
  ⟨_, hrun, nothing_stranded _ _ hrun ⟨rfl, by decide, by decide, by decide⟩⟩

/-- The first of two clients sends two messages before the parent wakes: the second number
stays in the pipe. -/
theorem notification_stranded :
    ∃ s, (edgeSystem sampleSetup fun _ => ⟨0, 0, 0, 0⟩).Run
      (sampleArrival 8 9 101 ++ sampleArrival 9 10 102 ++
        [.endBatch 0, .endBatch 1, .wake 0 [.conn], .receive 0 (some (sampleText 97)),
          .endBatch 0] ++ sampleMessage 0 8 98 ++ [.wake 1 [.pipe], .answer 1, .endBatch 1]) s ∧
      s.Quiescent ∧ ¬s.Delivered := by
  refine ⟨_, Machine.Run.of_exec _ (by decide) rfl, ⟨rfl, by decide, by decide, by decide⟩, ?_⟩
  intro h
  exact absurd (congrArg List.length (h.up 0)) (by decide)

end Chat

end LinuxWebsocket
