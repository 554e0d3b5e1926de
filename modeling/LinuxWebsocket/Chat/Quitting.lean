import LinuxWebsocket.Chat.Descriptors
import LinuxWebsocket.Chat.Shutdown
import LinuxWebsocket.Chat.SigtermWindows
import LinuxWebsocket.Lib.SelfPipe

/-!
# Quitting

The server from `SIGTERM` to `del_resource`: the parent with its signal pipe, the children,
and the `SIGCHLD` the kernel sends for each of them that exits. A signal is pending until
the parent's handler writes it to the pipe, whose edge `epoll_wait` reports.
-/

namespace LinuxWebsocket

namespace Chat

namespace Quitting

open EdgeTriggered Sigterm

/-- The size of the buffer the signal bytes are read into. -/
def signalsSize : Nat := 1024

/-- The server, and the signals on their way to the parent. -/
structure Server where
  state : State
  sigs : SelfPipe Post

/-- What happens next. -/
inductive Act
  /-- A signal is sent to the parent. -/
  | raise (x : Signal)
  /-- The server goes on. -/
  | act (a : Sigterm.Act)
  deriving DecidableEq

/-- The parent's signals behind a step. A child that exits is one. -/
def sigsBehind (k : Setup) (s : Server) : Sigterm.Act → SelfPipe Post
  | .post x => s.sigs.deliver ⟨x, none⟩
  | .deliver c sent => ((s.state.children c).posts c sent).foldl SelfPipe.deliver s.sigs
  | .parent (.wake ready) => if k.sigfd ∈ ready then s.sigs.report else s.sigs
  | .parent (.signals _) => s.sigs.recv signalsSize
  | .parent .byte => s.sigs.handle
  | .parent (.die _) => s.sigs.post ⟨.chld, none⟩
  | _ => s.sigs

/-- One step of the server, or a signal. -/
def Server.step (k : Setup) (s : Server) : Act → Except Fault Server
  | .raise x => .ok { s with sigs := s.sigs.post ⟨x, none⟩ }
  | .act a => do
    let state ← s.state.step k a
    .ok ⟨state, sigsBehind k s a⟩

/-- What the kernel promises besides: a signal is delivered that was sent, an edge is reported
that was raised, `recv` reads all that fits, and `waitpid` finds nothing only if no child has
exited. -/
def Server.Kernel (k : Setup) (s : Server) : Sigterm.Act → Prop
  | .post x => ⟨x, none⟩ ∈ s.sigs.pending
  | .parent (.wake ready) => k.sigfd ∈ ready → s.sigs.inbox.edge = true
  | .parent (.signals bytes) => bytes = (s.state.pipe.map Post.sig).take signalsSize
  | .parent (.waitpid none) => ∀ p ∈ s.state.parent.kernel.procs, p.dead = false
  | _ => True

/-- What can happen next. -/
def Server.Allowed (k : Setup) (s : Server) : Act → Prop
  | .raise x => x ≠ .other
  | .act a => s.state.Allowed k a ∧ s.Kernel k a

/-- The signal pipe is read as fast as it is written, a `SIGTERM` finds a child outside the
windows in which it is lost, and no client is admitted once the parent was asked to stop. -/
def Server.Orderly (k : Setup) (s : Server) : Act → Prop
  | .act (.post x) =>
    s.sigs.inbox.Fits signalsSize (s.state.parent.ctl.todo.contains k.sigfd) [⟨x, none⟩]
  | .act (.deliver c sent) => s.state.InTime (.deliver c sent) ∧
    s.sigs.inbox.Fits signalsSize (s.state.parent.ctl.todo.contains k.sigfd)
      ((s.state.children c).posts c sent)
  | .act (.parent (.accept ⟨some _, some _, some _⟩)) =>
    s.state.parent.asked = true → userLimit ≤ s.state.parent.userCount
  | _ => True

/-- The server when the parent first enters its loop. -/
def Server.start (k : Setup) (users : Nat → ClientData) : Server := ⟨.start k users, .empty⟩

/-- The server and its environment. -/
def machine (k : Setup) (users : Nat → ClientData) : Machine Server Act Fault where
  init := .start k users
  Allowed := Server.Allowed k
  step := Server.step k

/-- The server in an environment that keeps it in order. -/
def orderly (k : Setup) (users : Nat → ClientData) : Machine Server Act Fault :=
  (machine k users).restrict (Server.Orderly k)

instance (k : Setup) (s : Server) : ∀ a, Decidable (s.Kernel k a)
  | .post _ => inferInstanceAs (Decidable (_ ∈ s.sigs.pending))
  | .parent (.wake ready) =>
    inferInstanceAs (Decidable (k.sigfd ∈ ready → s.sigs.inbox.edge = true))
  | .parent (.signals bytes) =>
    inferInstanceAs (Decidable (bytes = (s.state.pipe.map Post.sig).take signalsSize))
  | .parent (.waitpid none) =>
    inferInstanceAs (Decidable (∀ p ∈ s.state.parent.kernel.procs, p.dead = false))
  | .parent (.waitpid (some _)) => inferInstanceAs (Decidable True)
  | .parent .fail => inferInstanceAs (Decidable True)
  | .parent (.accept _) => inferInstanceAs (Decidable True)
  | .parent .byte => inferInstanceAs (Decidable True)
  | .parent (.notify _) => inferInstanceAs (Decidable True)
  | .parent .endBatch => inferInstanceAs (Decidable True)
  | .parent (.die _) => inferInstanceAs (Decidable True)
  | .arrive _ => inferInstanceAs (Decidable True)
  | .run _ => inferInstanceAs (Decidable True)
  | .serve _ _ => inferInstanceAs (Decidable True)
  | .deliver _ _ => inferInstanceAs (Decidable True)

instance (k : Setup) (s : Server) : ∀ a, Decidable (s.Allowed k a)
  | .raise _ => inferInstanceAs (Decidable (_ ≠ _))
  | .act a => inferInstanceAs (Decidable (s.state.Allowed k a ∧ s.Kernel k a))

instance (k : Setup) (s : Server) (a : Act) : Decidable (s.Orderly k a) := by
  unfold Server.Orderly
  split <;> infer_instance

instance (k : Setup) (users : Nat → ClientData) (s : Server) (a : Act) :
    Decidable ((orderly k users).Allowed s a) :=
  inferInstanceAs (Decidable (s.Allowed k a ∧ s.Orderly k a))

/-- The `while` loop was not left. -/
def looping : Ctl → Bool
  | .left | .failed | .aborted => false
  | _ => true

/-- In the `waitpid` loop. -/
def isReaping : Ctl → Bool
  | .reaping _ _ => true
  | _ => false

/-- What holds of the server at all times. -/
structure Server.Inv (k : Setup) (s : Server) : Prop where
  guard : Guard k s.state
  flags : Flags s.state.parent
  queue : s.sigs.inbox.queue = s.state.pipe
  hand : s.sigs.hand = s.state.hand
  once : s.state.parent.ctl.todo.count k.sigfd ≤ 1
  covered : looping s.state.parent.ctl = true →
    s.sigs.inbox.Covered signalsSize (s.state.parent.ctl.todo.contains k.sigfd)
  /-- Once the parent was asked to stop, each child has been told. -/
  told : s.state.parent.asked = true → ∀ p ∈ s.state.parent.kernel.procs, p.dead = false →
    (s.state.children p.serial).pending = true ∨ (s.state.children p.serial).delivered = true
  /-- An exit the parent has not noticed will make it reap. -/
  exited : (∃ p ∈ s.state.parent.kernel.procs, p.dead = true) →
    s.sigs.Owed ⟨.chld, none⟩ ∨ isReaping s.state.parent.ctl = true

section Moves

variable {k : Setup} {s t : Parent} {e : Event}

/-- A report of the signal pipe is served once. -/
theorem count_sigfd_move (hm : Move k s e t) (hw : ∀ ready, e ≠ .wake ready) :
    t.ctl.todo.count k.sigfd ≤ s.ctl.todo.count k.sigfd := by
  cases hm with
  | wake => exact absurd rfl (hw _)
  | fail hctl => simp [hctl, Ctl.todo]
  | refused hctl => simp [hctl, Ctl.todo, List.count_cons]
  | aborted hctl => simp [hctl, Ctl.todo]
  | unforked hctl => simp [hctl, Ctl.todo, List.count_cons, Parent.unforked]
  | admitted hctl => simp [hctl, Ctl.todo, List.count_cons, Parent.admitted]
  | signals hctl => simp [hctl, Ctl.todo]
  | chld hctl => simp [hctl, Ctl.todo]
  | ignored hctl => simp [hctl, Ctl.todo]
  | stop hctl => simp [hctl, Ctl.todo]
  | kill hctl => simp [hctl, Ctl.todo]
  | bytesDone hctl => simp [hctl, Ctl.todo]
  | reaped => exact le_rfl
  | endReap hctl => simp [hctl, Ctl.todo]
  | notify hctl => simp [hctl, Ctl.todo, List.count_cons]
  | endBatch hctl => cases s.stopServer <;> simp [hctl, Ctl.todo]
  | die => exact le_rfl

/-- A report of the signal pipe stays pending through other events. -/
theorem contains_sigfd_move (hm : Move k s e t) (hw : ∀ ready, e ≠ .wake ready)
    (hs : ∀ bytes, e ≠ .signals bytes) (ht : looping t.ctl = true) :
    t.ctl.todo.contains k.sigfd = s.ctl.todo.contains k.sigfd := by
  have hne := Ne.symm k.ne
  cases hm with
  | wake => exact absurd rfl (hw _)
  | fail hctl => simp [looping] at ht
  | refused hctl => simp [hctl, Ctl.todo, hne]
  | aborted hctl => simp [looping] at ht
  | unforked hctl => simp [hctl, Ctl.todo, hne, Parent.unforked]
  | admitted hctl => simp [hctl, Ctl.todo, hne, Parent.admitted]
  | signals => exact absurd rfl (hs _)
  | chld hctl => simp [hctl, Ctl.todo]
  | ignored hctl => simp [hctl, Ctl.todo]
  | stop hctl => simp [hctl, Ctl.todo]
  | kill hctl => simp [hctl, Ctl.todo]
  | bytesDone hctl => simp [hctl, Ctl.todo]
  | reaped => rfl
  | endReap hctl => simp [hctl, Ctl.todo]
  | notify hctl _ hsig => simp [hctl, Ctl.todo, Ne.symm hsig]
  | endBatch hctl => cases s.stopServer <;> simp [hctl, Ctl.todo]
  | die => rfl

/-- A loop that was left is not entered again. -/
theorem looping_move (hm : Move k s e t) (ht : looping t.ctl = true) : looping s.ctl = true := by
  cases hm with
  | reaped => exact ht
  | die => exact ht
  | _ => simp_all [looping]

/-- A child that runs behind a move that forks none was there before. -/
theorem live_move (hm : Move k s e t) (ha : ¬s.admits e) {p : Proc} (hp : p ∈ t.kernel.procs)
    (hd : p.dead = false) : p ∈ s.kernel.procs := by
  cases hm with
  | admitted _ hn => exact absurd hn ha
  | reaped => exact (List.mem_filter.mp hp).1
  | @die q hq hlive =>
      obtain ⟨r, hr, he⟩ := List.mem_map.mp hp
      split at he
      · simp [← he] at hd
      · exact he ▸ hr
  | _ => exact hp

/-- A child that has exited had exited before, unless that is the move. -/
theorem dead_move (hm : Move k s e t) (he : ∀ pid, e ≠ .die pid) {p : Proc}
    (hp : p ∈ t.kernel.procs) (hd : p.dead = true) : p ∈ s.kernel.procs := by
  cases hm with
  | admitted =>
      rcases List.mem_append.mp hp with hp | hp
      · exact hp
      · obtain rfl := List.mem_singleton.mp hp
        simp at hd
  | reaped => exact (List.mem_filter.mp hp).1
  | die => exact absurd rfl (he _)
  | _ => exact hp

/-- The parent reaps on until `waitpid` finds nothing. -/
theorem isReaping_move (hm : Move k s e t) (he : e ≠ .waitpid none) (hr : isReaping s.ctl = true) :
    isReaping t.ctl = true := by
  cases hm with
  | reaped => exact hr
  | die => exact hr
  | endReap => exact absurd rfl he
  | _ => simp_all [isReaping]

/-- Only a `SIGTERM` or `SIGINT` byte asks the parent to stop. -/
theorem asked_move (hm : Move k s e t) (ht : t.asked = true) :
    s.asked = true ∨ s.terminating e := by
  cases hm with
  | stop hctl hb => exact Or.inr ⟨_, _, _, hctl, hb⟩
  | kill hctl hb => exact Or.inr ⟨_, _, _, hctl, hb⟩
  | _ => exact Or.inl ht

/-- The byte that asks the parent to stop makes it tell every child. -/
theorem mem_killed (h : Chat.Inv k s) (hm : Move k s .byte t) (ht : s.terminating .byte) {p : Proc}
    (hp : p ∈ s.kernel.procs) : p.pid ∈ t.killed.take (t.killed.length - s.killed.length) := by
  obtain ⟨pids, hkilled, hperm⟩ := (h.effect hm).signalled ht
  rw [hkilled, List.length_append, Nat.add_sub_cancel_right, List.take_left]
  exact hperm.mem_iff.mpr (List.mem_map_of_mem hp)

/-- A parent that admits no client once asked to stop forks none once `stop_server` is up. -/
theorem noneAfterStop (hf : Flags s) (ha : s.asked = true → ¬s.admits e) : s.NoneAfterStop e := by
  unfold Parent.NoneAfterStop
  split
  · intro hlt
    by_contra hstop
    exact ha (hf.sound (by simpa using hstop)).1 hlt
  · trivial

end Moves

variable {k : Setup} {s : Server}

/-- The server starts that way. -/
theorem Server.inv_start (k : Setup) (users : Nat → ClientData) : (Server.start k users).Inv k where
  guard := guard_start k users
  flags := by constructor <;> simp [Server.start, State.start, Parent.start]
  queue := rfl
  hand := rfl
  once := by simp [Server.start, State.start, Parent.start, Ctl.todo]
  covered _ := Inbox.covered_of_nil rfl
  told ha := by simp [Server.start, State.start, Parent.start] at ha
  exited := by simp [Server.start, State.start, Parent.start]

/-- A step of the parent beside its signal pipe. -/
theorem Server.Inv.go (h : s.Inv k) {e : Event} {u : Parent} {sigs : SelfPipe Post}
    (hm : Move k s.state.parent e u) (hw : ∀ ready, e ≠ .wake ready)
    (hs : ∀ bytes, e ≠ .signals bytes) (hb : e ≠ .byte)
    (ha : s.state.parent.asked = true → ¬s.state.parent.admits e)
    (hinbox : sigs.inbox = s.sigs.inbox) (hhand : sigs.hand = s.sigs.hand)
    (hex : (∃ p ∈ u.kernel.procs, p.dead = true) →
      sigs.Owed ⟨.chld, none⟩ ∨ isReaping u.ctl = true) :
    Server.Inv k ⟨{ s.state with parent := u }, sigs⟩ where
  guard := h.guard.move hm hs hb
  flags := h.flags.move hm (noneAfterStop h.flags ha)
  queue := (congrArg Inbox.queue hinbox).trans h.queue
  hand := hhand.trans h.hand
  once := (count_sigfd_move hm hw).trans h.once
  covered ht := by
    rw [hinbox, contains_sigfd_move hm hw hs ht]
    exact h.covered (looping_move hm ht)
  told hasked p hp hd := by
    rcases asked_move hm hasked with hold | hterm
    · exact h.told hold p (live_move hm (ha hold) hp hd) hd
    · cases e with
      | byte => exact absurd rfl hb
      | _ => exact hterm.elim
  exited := hex

/-- `epoll_wait` reports the signal pipe or does not. -/
theorem Server.Inv.wake (h : s.Inv k) {ready : List Nat} {u : Parent}
    (hm : Move k s.state.parent (.wake ready) u) :
    Server.Inv k ⟨{ s.state with parent := u },
      if k.sigfd ∈ ready then s.sigs.report else s.sigs⟩ := by
  have hg := h.guard.move hm (fun _ he => by cases he) (fun he => by cases he)
  have hf := h.flags.move hm trivial
  cases hm with
  | wake hctl hnodup =>
      have hcov := h.covered (by simp [hctl, looping])
      simp only [hctl, Ctl.todo, List.contains_nil] at hcov
      refine ⟨hg, hf, ?_, ?_, List.nodup_iff_count_le_one.mp hnodup _, fun _ => ?_, h.told,
        fun hd => ?_⟩
      · split <;> exact h.queue
      · split <;> exact h.hand
      · by_cases hr : k.sigfd ∈ ready
        · simp only [hr, if_true, Ctl.todo, List.contains_iff_mem.mpr hr]
          exact hcov.report (by simp)
        · have hno : ready.contains k.sigfd = false := by simpa using hr
          simpa only [hr, if_false, Ctl.todo, hno] using hcov
      · rcases h.exited hd with ho | hreap
        · left
          split
          · exact SelfPipe.owed_report.mpr ho
          · exact ho
        · simp [hctl, isReaping] at hreap

/-- The parent reads its signal pipe. -/
theorem Server.Inv.signals (h : s.Inv k) {bytes : List Signal} {u : Parent}
    (hm : Move k s.state.parent (.signals bytes) u) (hr : s.state.Receives (.signals bytes))
    (hb : bytes = (s.state.pipe.map Post.sig).take signalsSize) :
    Server.Inv k ⟨{ s.state with
      parent := u, pipe := s.state.pipe.drop bytes.length
      hand := s.state.pipe.take bytes.length }, s.sigs.recv signalsSize⟩ := by
  have hg := h.guard.signals hm hr
  have hf := h.flags.move hm trivial
  have hlen : bytes.length = min signalsSize s.state.pipe.length := by simp [hb]
  have hdrop : s.state.pipe.drop bytes.length = s.state.pipe.drop signalsSize := by
    rw [hlen]
    rcases Nat.le_total signalsSize s.state.pipe.length with hle | hle
    · rw [Nat.min_eq_left hle]
    · rw [Nat.min_eq_right hle, List.drop_length, List.drop_of_length_le hle]
  have htake : s.state.pipe.take bytes.length = s.state.pipe.take signalsSize := by
    rw [hlen]
    rcases Nat.le_total signalsSize s.state.pipe.length with hle | hle
    · rw [Nat.min_eq_left hle]
    · rw [Nat.min_eq_right hle, List.take_length, List.take_of_length_le hle]
  cases hm with
  | @signals _ todo hctl =>
      have hempty : s.sigs.hand = [] := by
        have hbytes := h.guard.hand
        rw [hctl] at hbytes
        rw [h.hand]
        exact List.map_eq_nil_iff.mp hbytes
      have hcov := h.covered (by simp [hctl, looping])
      have honce := h.once
      simp only [hctl, Ctl.todo, List.contains_cons, beq_self_eq_true, Bool.true_or,
        List.count_cons_self] at hcov honce
      refine ⟨hg, hf, ?_, ?_, ?_, fun _ => ?_, h.told, fun hd => Or.inl ?_⟩
      · simp only [SelfPipe.inbox_recv, Inbox.serve, h.queue, hdrop]
      · simp only [SelfPipe.hand_recv, hempty, List.nil_append, h.queue, htake]
      · simp only [Ctl.todo]
        omega
      · have hno : todo.contains k.sigfd = false := by
          have hzero : todo.count k.sigfd = 0 := by omega
          simpa using List.count_eq_zero.mp hzero
        simp only [Ctl.todo, hno, SelfPipe.inbox_recv]
        exact hcov.serve
      · rcases h.exited hd with ho | hreap
        · exact SelfPipe.owed_recv.mpr ho
        · simp [hctl, isReaping] at hreap

/-- The parent handles a signal byte. -/
theorem Server.Inv.byte (h : s.Inv k) {u : Parent} (hm : Move k s.state.parent .byte u)
    (ha : s.state.parent.Allowed k .byte) :
    Server.Inv k
      ⟨{ s.state.kill (u.killed.take (u.killed.length - s.state.parent.killed.length)) with
        parent := u, hand := s.state.hand.tail }, s.sigs.handle⟩ := by
  obtain ⟨bytes, todo, hctl⟩ := Parent.at_byte ha.1
  have hkernel := (byte_move hm).2
  refine ⟨h.guard.byte hm ha, h.flags.move hm trivial, h.queue, ?_, ?_, fun ht => ?_,
    fun hasked p hp hd => ?_, fun hdead => ?_⟩
  · rw [SelfPipe.hand_handle, List.drop_one, h.hand]
  · exact (count_sigfd_move hm (by simp)).trans h.once
  · rw [SelfPipe.inbox_handle, contains_sigfd_move hm (by simp) (by simp) ht]
    exact h.covered (looping_move hm ht)
  · have hp' : p ∈ s.state.parent.kernel.procs := hkernel ▸ hp
    rcases asked_move hm hasked with hold | hterm
    · obtain ⟨hdelivered, -, hpending⟩ := kill_kept s.state
        (u.killed.take (u.killed.length - s.state.parent.killed.length)) p.serial
      rcases h.told hold p hp' hd with hp | hdel
      · exact Or.inl (hpending hp)
      · exact Or.inr (hdelivered.trans hdel)
    · exact Or.inl (pending_kill hp' (mem_killed h.guard.parent hm hterm hp'))
  · have hdead' : ∃ p ∈ s.state.parent.kernel.procs, p.dead = true := hkernel ▸ hdead
    have ho : s.sigs.Owed ⟨.chld, none⟩ :=
      (h.exited hdead').resolve_right fun hr => by simp [hctl, isReaping] at hr
    by_cases hhead : s.sigs.hand.head? = some ⟨.chld, none⟩
    · right
      obtain ⟨rest, hrest⟩ := List.head?_eq_some_iff.mp hhead
      have hbytes : bytes = .chld :: rest.map Post.sig := by
        have hb := h.guard.hand
        rw [← h.hand, hrest, hctl] at hb
        exact hb.symm
      rw [hbytes] at hctl
      cases hm with
      | chld => rfl
      | stop hctl' hb =>
          rw [hctl] at hctl'
          simp only [Ctl.signals.injEq, List.cons.injEq] at hctl'
          simp [← hctl'.1.1] at hb
      | kill hctl' hb =>
          rw [hctl] at hctl'
          simp only [Ctl.signals.injEq, List.cons.injEq] at hctl'
          simp [← hctl'.1.1] at hb
      | _ => simp_all
    · exact Or.inl (ho.handle hhead)

/-- Something a child does that is not about its `SIGTERM`, or its delivery. -/
theorem Server.Inv.child (h : s.Inv k) {t : State} {sigs : SelfPipe Post} (hg : Guard k t)
    (hparent : t.parent = s.state.parent) (hqueue : sigs.inbox.queue = t.pipe)
    (hhand : sigs.hand = t.hand)
    (hcov : looping s.state.parent.ctl = true →
      sigs.inbox.Covered signalsSize (s.state.parent.ctl.todo.contains k.sigfd))
    (htold : ∀ c, (s.state.children c).pending = true ∨ (s.state.children c).delivered = true →
      (t.children c).pending = true ∨ (t.children c).delivered = true)
    (ho : s.sigs.Owed ⟨.chld, none⟩ → sigs.Owed ⟨.chld, none⟩) : Server.Inv k ⟨t, sigs⟩ where
  guard := hg
  flags := hparent ▸ h.flags
  queue := hqueue
  hand := hhand
  once := hparent ▸ h.once
  covered := by
    rw [hparent]
    exact hcov
  told := by
    rw [hparent]
    exact fun ha p hp hd => htold _ (h.told ha p hp hd)
  exited := by
    rw [hparent]
    exact fun hd => (h.exited hd).imp_left ho

/-- A step of the parent. -/
theorem Server.Inv.parent (h : s.Inv k) {e : Event} {t : State} (ha : s.state.parent.Allowed k e)
    (hr : s.state.Receives e) (hkernel : s.Kernel k (.parent e))
    (hadm : s.state.parent.asked = true → ¬s.state.parent.admits e)
    (hs : s.state.step k (.parent e) = .ok t) : Server.Inv k ⟨t, sigsBehind k s (.parent e)⟩ := by
  cases hp : s.state.parent.step k e with
  | error x => simp [State.step, hp] at hs
  | ok u =>
      have hm := h.guard.parent.move_of_step ha hp
      have hexited (hd : ∀ pid, e ≠ .die pid) (hn : e ≠ .waitpid none)
          (hdead : ∃ p ∈ u.kernel.procs, p.dead = true) :
          s.sigs.Owed ⟨.chld, none⟩ ∨ isReaping u.ctl = true := by
        obtain ⟨p, hmem, hdp⟩ := hdead
        exact (h.exited ⟨p, dead_move hm hd hmem hdp, hdp⟩).imp_right (isReaping_move hm hn)
      simp only [State.step, hp, ok_bind] at hs
      cases e with
      | wake ready =>
          obtain rfl := Except.ok.inj hs
          exact h.wake hm
      | signals bytes =>
          obtain rfl := Except.ok.inj hs
          exact h.signals hm hr hkernel
      | byte =>
          obtain rfl := Except.ok.inj hs
          exact h.byte hm ha
      | die pid =>
          obtain rfl := Except.ok.inj hs
          exact h.go hm (by simp) (by simp) (by simp) hadm rfl rfl fun _ =>
            Or.inl (SelfPipe.owed_post.mpr (Or.inl rfl))
      | waitpid pid =>
          obtain rfl := Except.ok.inj hs
          cases pid with
          | none =>
              refine h.go hm (by simp) (by simp) (by simp) hadm rfl rfl fun hdead => ?_
              obtain ⟨p, hmem, hdp⟩ := hdead
              have hlive := hkernel p (dead_move hm (by simp) hmem hdp)
              rw [hdp] at hlive
              cases hlive
          | some pid =>
              exact h.go hm (by simp) (by simp) (by simp) hadm rfl rfl (hexited (by simp) (by simp))
      | _ =>
          obtain rfl := Except.ok.inj hs
          exact h.go hm (by simp) (by simp) (by simp) hadm rfl rfl (hexited (by simp) (by simp))

/-- A `SIGTERM` is delivered to a child. -/
theorem Server.Inv.deliver (h : s.Inv k) {c : Nat} {sent : Bool} {t : State} (hg : Guard k t)
    (hfit : s.sigs.inbox.Fits signalsSize (s.state.parent.ctl.todo.contains k.sigfd)
      ((s.state.children c).posts c sent))
    (hs : s.state.step k (.deliver c sent) = .ok t) :
    Server.Inv k ⟨t, sigsBehind k s (.deliver c sent)⟩ := by
  obtain rfl := Except.ok.inj hs
  have htold (d : Nat) (hd : (s.state.children d).pending = true ∨
      (s.state.children d).delivered = true) :
      ((s.state.onChild c Child.deliver).children d).pending = true ∨
        ((s.state.onChild c Child.deliver).children d).delivered = true := by
    by_cases hdc : d = c
    · rw [hdc, children_onChild_self]
      exact Or.inr rfl
    · rwa [children_onChild_of_ne hdc]
  by_cases hposts : (s.state.children c).posts c sent = []
  · have hsigs : sigsBehind k s (.deliver c sent) = s.sigs := by simp [sigsBehind, hposts]
    rw [hsigs]
    refine h.child hg rfl ?_ h.hand h.covered htold id
    simpa [hposts] using h.queue
  · have hpost : (s.state.children c).posts c sent = [⟨.term, some c⟩] := by
      unfold Child.posts at hposts ⊢
      split at hposts
      · simp_all
      · exact absurd rfl hposts
    have hsigs : sigsBehind k s (.deliver c sent) = s.sigs.deliver ⟨.term, some c⟩ := by
      simp [sigsBehind, hpost]
    rw [hpost] at hfit
    rw [hsigs]
    refine h.child hg rfl ?_ h.hand (fun _ => Inbox.covered_arrive_iff.mpr hfit) htold
      SelfPipe.Owed.deliver
    simp only [SelfPipe.inbox_deliver, Inbox.arrive, h.queue, hpost]

/-- A step of the server in order keeps it so. -/
theorem Server.Inv.step (h : s.Inv k) {a : Act} {t : Server} (ha : s.Allowed k a)
    (hord : s.Orderly k a) (hs : s.step k a = .ok t) : t.Inv k := by
  cases a with
  | raise x =>
      obtain rfl := Except.ok.inj hs
      exact { h with
        exited := fun hd => (h.exited hd).imp_left fun ho => SelfPipe.owed_post.mpr (Or.inr ho) }
  | act a =>
      obtain ⟨hallowed, hkernel⟩ := ha
      cases hstep : s.state.step k a with
      | error x => simp [Server.step, hstep] at hs
      | ok u =>
          simp only [Server.step, hstep, ok_bind] at hs
          obtain rfl := Except.ok.inj hs
          have hsame {c : Nat} {f : Child → Child} (hu : u = s.state.onChild c f)
              (hg : Guard k u) (hf : ∀ kid, (f kid).pending = kid.pending ∧
                (f kid).delivered = kid.delivered) : Server.Inv k ⟨u, s.sigs⟩ := by
            subst hu
            refine h.child hg rfl h.queue h.hand h.covered (fun d hd => ?_) id
            by_cases hdc : d = c
            · rw [hdc, children_onChild_self, (hf _).1, (hf _).2, ← hdc]
              exact hd
            · rwa [children_onChild_of_ne hdc]
          cases a with
          | parent e =>
              refine h.parent hallowed.1 hallowed.2 hkernel (fun hasked hadm => ?_) hstep
              unfold Parent.admits at hadm
              split at hadm
              · exact absurd (hord hasked) (Nat.not_le.mpr hadm)
              · exact hadm
          | post x =>
              have hg := h.guard.step hallowed trivial hstep
              obtain rfl := Except.ok.inj hstep
              refine h.child hg rfl ?_ h.hand (fun _ => Inbox.covered_arrive_iff.mpr hord)
                (fun _ => id) SelfPipe.Owed.deliver
              simp only [sigsBehind, SelfPipe.inbox_deliver, Inbox.arrive, h.queue]
          | arrive c =>
              exact hsame (Except.ok.inj hstep).symm (h.guard.step hallowed trivial hstep)
                fun _ => ⟨rfl, rfl⟩
          | run c =>
              exact hsame (Except.ok.inj hstep).symm (h.guard.step hallowed trivial hstep)
                fun kid => ⟨kid.run_kept.2.2, kid.run_kept.1⟩
          | serve c gone =>
              exact hsame (Except.ok.inj hstep).symm (h.guard.step hallowed trivial hstep)
                fun _ => ⟨rfl, rfl⟩
          | deliver c sent =>
              exact h.deliver (h.guard.step hallowed hord.1 hstep) hord.2 hstep

/-- In every orderly run. -/
theorem server_inv_of_run {users : Nat → ClientData} {as : List Act}
    (h : (orderly k users).Run as s) : s.Inv k := by
  apply h.invariant (Server.inv_start k users)
  rintro s a t hi ⟨ha, hord⟩ hs
  exact hi.step ha hord hs

/-- No `fork` fails behind an `accept` and a `socketpair` that succeeded. If one does, the pair
stays open; it blocks, and a report left over in the batch can make the parent read from it. -/
def Server.Forks (s : Server) : Act → Prop
  | .act (.parent e) => s.state.parent.Forks e
  | _ => True

instance (s : Server) : ∀ a, Decidable (s.Forks a)
  | .raise _ => inferInstanceAs (Decidable True)
  | .act (.parent e) => inferInstanceAs (Decidable (s.state.parent.Forks e))
  | .act (.post _) => inferInstanceAs (Decidable True)
  | .act (.arrive _) => inferInstanceAs (Decidable True)
  | .act (.run _) => inferInstanceAs (Decidable True)
  | .act (.serve _ _) => inferInstanceAs (Decidable True)
  | .act (.deliver _ _) => inferInstanceAs (Decidable True)

instance (k : Setup) (users : Nat → ClientData) (s : Server) (a : Act) :
    Decidable (((orderly k users).restrict Server.Forks).Allowed s a) :=
  inferInstanceAs (Decidable ((orderly k users).Allowed s a ∧ s.Forks a))

/-- The parent is blocked in `epoll_wait`, with nothing to be reported or delivered to it, or is out
of its loop one way or the other; its children have exited or are blocked, with nothing to be
reported or delivered to them. -/
structure Server.AtRest (s : Server) : Prop where
  parent : (s.state.parent.ctl = .waiting ∧ s.sigs.inbox.edge = false ∧ s.sigs.pending = ∅) ∨
    looping s.state.parent.ctl = false
  children : ∀ p ∈ s.state.parent.kernel.procs, p.dead = false →
    (s.state.children p.serial).pc = .blocked ∧ (s.state.children p.serial).ready = false ∧
      (s.state.children p.serial).pending = false

/-- A parent that sleeps has handled every signal byte. -/
theorem Server.Inv.silent (hi : s.Inv k) (hctl : s.state.parent.ctl = .waiting)
    (hedge : s.sigs.inbox.edge = false) :
    s.sigs.inbox.Covered signalsSize false ∧ s.sigs.inbox.queue = [] ∧ s.sigs.hand = [] := by
  have hcov := hi.covered (by simp [hctl, looping])
  simp only [hctl, Ctl.todo, List.contains_nil] at hcov
  refine ⟨hcov, hcov.drained fun he => by simp [hedge] at he, ?_⟩
  have hb := hi.guard.hand
  rw [hctl] at hb
  rw [hi.hand]
  exact List.map_eq_nil_iff.mp hb

/-- A parent that sleeps with no signal on its way has waited for every child that exited. -/
theorem Server.Inv.none_dead (hi : s.Inv k) (hctl : s.state.parent.ctl = .waiting)
    (hedge : s.sigs.inbox.edge = false) (hpending : s.sigs.pending = ∅) :
    ∀ p ∈ s.state.parent.kernel.procs, p.dead = false := by
  intro p hp
  by_contra hd
  obtain ⟨hcov, -, hhand⟩ := hi.silent hctl hedge
  rcases hi.exited ⟨p, hp, by simpa using hd⟩ with ho | hreap
  · exact SelfPipe.not_owed hpending hcov hedge hhand ho
  · simp [hctl, isReaping] at hreap

/-- A loop that was left through `stop_server` has no children left to wait for. -/
theorem Server.Inv.left (hi : s.Inv k) (hleft : s.state.parent.ctl = .left) :
    s.state.parent.kernel.procs = [] ∧ s.state.parent.userCount = 0 := by
  have hnone := (hi.flags.stopsRight hi.guard.parent).left hleft
  have hlength := hi.guard.parent.length_procs
  rw [hnone] at hlength
  exact ⟨hnone, hlength.symm⟩

/-- A server that was asked to stop does not sleep on. -/
theorem Server.Inv.awake (hi : s.Inv k) (ha : s.state.parent.asked = true)
    (hr : ∀ p ∈ s.state.parent.kernel.procs, p.dead = false →
      (s.state.children p.serial).pc = .blocked ∧ (s.state.children p.serial).ready = false ∧
        (s.state.children p.serial).pending = false)
    (hctl : s.state.parent.ctl = .waiting) (hedge : s.sigs.inbox.edge = false) :
    s.sigs.pending ≠ ∅ := by
  intro hpending
  obtain ⟨-, hqueue, hhand⟩ := hi.silent hctl hedge
  have hlength := hi.guard.parent.length_procs
  have hnone : s.state.parent.kernel.procs = [] := by
    refine List.eq_nil_iff_forall_not_mem.mpr fun p hp => ?_
    have hd := hi.none_dead hctl hedge hpending p hp
    obtain ⟨hblocked, hready, hunsent⟩ := hr p hp hd
    have hdelivered := (hi.told ha p hp hd).resolve_left (by simp [hunsent])
    refine hi.guard.not_lost p.serial
      ⟨⟨p, hp, rfl, hd⟩, hblocked, hdelivered, hunsent, hready, ?_⟩
    simp [State.Posted, ← hi.hand, ← hi.queue, hhand, hqueue]
  rw [hnone] at hlength
  exact (hi.flags.stopsRight hi.guard.parent).waiting hctl ⟨ha, hlength.symm⟩

/-- Behind the loop there are three ways it was left. -/
theorem not_looping {ctl : Ctl} (h : looping ctl = false) :
    ctl = .failed ∨ ctl = .aborted ∨ ctl = .left := by
  cases ctl with
  | failed => exact Or.inl rfl
  | aborted => exact Or.inr (Or.inl rfl)
  | left => exact Or.inr (Or.inr rfl)
  | _ => cases h

/-- In every orderly run in which no `fork` fails, once the parent has handled `SIGTERM` or
`SIGINT`, the server comes to rest only when the parent has left its loop and has waited for all
its children, unless `epoll_wait` failed or an assertion did. -/
theorem server_quits (k : Setup) (users : Nat → ClientData) {as : List Act} {s : Server}
    (h : ((orderly k users).restrict Server.Forks).Run as s) (ha : s.state.parent.asked = true)
    (hr : s.AtRest) :
    s.state.parent.ctl = .failed ∨ s.state.parent.ctl = .aborted ∨
      s.state.parent.ctl = .left ∧ s.state.parent.kernel.procs = [] ∧
        s.state.parent.userCount = 0 := by
  have hi := server_inv_of_run h.of_restrict
  rcases hr.parent with ⟨hctl, hedge, hpending⟩ | hout
  · exact absurd hpending (hi.awake ha hr.children hctl hedge)
  · exact (not_looping hout).imp_right fun h => h.imp_right fun hleft => ⟨hleft, hi.left hleft⟩

/-- A client's child comes to its `epoll_wait`. -/
def sampleClient : List Act :=
  (forkAnd 11).map .act

/-- A signal is sent to the parent and read by it. -/
def sampleSignal (x : Signal) : List Act :=
  .raise x :: [.post x, .parent (.wake [5]), .parent (.signals [x])].map .act

/-- A client's child is told to stop and exits, and is waited for. -/
def sampleQuit : List Act :=
  sampleClient ++ sampleSignal .term ++
    ([.parent .byte, .parent .byte, .parent .endBatch, .deliver 0 true, .run 0,
      .parent (.die 101)].map .act ++
    [.post .chld, .parent (.wake [5]), .parent (.signals [.chld]), .parent .byte,
      .parent (.waitpid (some 101)), .parent (.waitpid none), .parent .byte,
      .parent .endBatch].map .act)

/-- The server quits behind it. -/
theorem server_quits_one :
    ∃ s, ((orderly sampleSetup fun _ => ⟨0, 0, 0, 0⟩).restrict Server.Forks).Run sampleQuit s ∧
      s.state.parent.asked = true ∧ s.state.parent.kernel.forks = 1 ∧
      s.state.parent.ctl = .left ∧ s.state.parent.kernel.procs = [] ∧
        s.state.parent.userCount = 0 := by
  obtain ⟨s, hrun, hs⟩ := Machine.Run.of_exec_map
    (M := (orderly sampleSetup fun _ => ⟨0, 0, 0, 0⟩).restrict Server.Forks)
    (f := fun s => (s.state.parent.asked, s.state.parent.kernel.forks, s.state.parent.ctl,
      s.state.parent.kernel.procs)) (x := (true, 1, .left, [])) sampleQuit (by decide) (by decide)
  simp only [Prod.mk.injEq] at hs
  obtain ⟨hasked, hforks, hleft, hprocs⟩ := hs
  have hrest : s.AtRest :=
    ⟨Or.inr (by rw [hleft]; rfl), fun p hp => (by simp [hprocs] at hp)⟩
  obtain hf | hf | hquit := server_quits _ _ hrun hasked hrest
  · cases hleft.symm.trans hf
  · cases hleft.symm.trans hf
  · exact ⟨s, hrun, hasked, hforks, hquit⟩

/-- `del_resource`, as far as it closes descriptors. -/
def delResource (u : Startup) (s : Parent) : Parent :=
  (((s.close u.epollfd).close u.listenfd).close u.sigfd0).close u.sigfd1

/-- No step but one of the parent changes the parent. -/
theorem parent_eq {a : Act} {t : Server} (hs : s.step k a = .ok t)
    (ha : ∀ e, a ≠ .act (.parent e)) : t.state.parent = s.state.parent := by
  cases a with
  | raise x =>
      obtain rfl := Except.ok.inj hs
      rfl
  | act a =>
      cases a with
      | parent e => exact absurd rfl (ha e)
      | _ =>
          obtain rfl := Except.ok.inj hs
          rfl

/-- No step of the server loses sight of a descriptor. -/
theorem Server.Inv.held_step (h : s.Inv k) (hheld : s.state.parent.Held k) {a : Act} {t : Server}
    (ha : s.Allowed k a) (hf : s.Forks a) (hs : s.step k a = .ok t) : t.state.parent.Held k := by
  by_cases hp : ∃ e, a = .act (.parent e)
  · obtain ⟨e, rfl⟩ := hp
    cases hu : s.state.parent.step k e with
    | error x => simp [Server.step, State.step, hu] at hs
    | ok u =>
        have hm := h.guard.parent.move_of_step ha.1.1 hu
        have hheld' := h.guard.parent.held_move hheld hm hf
        have hparent : t.state.parent = u := by
          simp only [Server.step, State.step, hu, ok_bind] at hs
          cases e <;> obtain rfl := Except.ok.inj hs <;> rfl
        rw [hparent]
        exact hheld'
  · rw [parent_eq hs fun e he => hp ⟨e, he⟩]
    exact hheld

/-- In every orderly run in which no `fork` fails, once the loop was left through `stop_server`,
`del_resource` leaves open what was open when `main` was entered, and nothing else. -/
theorem resources_released (u : Startup) (users : Nat → ClientData) {as : List Act} {s : Server}
    (h : ((orderly u.setup users).restrict Server.Forks).Run as s)
    (hleft : s.state.parent.ctl = .left) :
    (delResource u s.state.parent).kernel.fds = u.inherited := by
  obtain ⟨hi, hheld⟩ : s.Inv u.setup ∧ s.state.parent.Held u.setup := by
    refine h.invariant (I := fun s => s.Inv u.setup ∧ s.state.parent.Held u.setup)
      ⟨Server.inv_start _ users, held_start _ users⟩ ?_
    rintro s a t ⟨hi, hheld⟩ ⟨⟨hallowed, hord⟩, hf⟩ hs
    exact ⟨hi.step hallowed hord hs, hi.held_step hheld hallowed hf hs⟩
  obtain ⟨-, hcount⟩ := hi.left hleft
  have howned : u.Owned s.state.parent := hi.guard.parent.owned hheld (by simp [hleft])
  have hinherited : u.inherited ⊆ s.state.parent.kernel.fds := fun fd hfd =>
    hi.guard.parent.base.1 (by simp [Startup.setup, Startup.opened, hfd])
  have h1 := u.listen_new
  have h2 := u.epoll_new
  have h3 := u.sig0_new
  have h4 := u.sig1_new
  simp only [Finset.mem_insert, not_or] at h2 h3 h4
  simp only [Startup.Owned, hcount, CompactTable.entries, List.range_zero, List.map_nil,
    List.toFinset_nil, Finset.union_empty] at howned
  ext fd
  have hiff := Finset.ext_iff.mp howned fd
  simp only [Finset.mem_sdiff, Finset.mem_insert, Finset.mem_singleton] at hiff
  simp only [delResource, Parent.close, Finset.mem_erase]
  constructor
  · rintro ⟨hs1, hs0, hl, he, hfd⟩
    by_contra hno
    rcases hiff.mp ⟨hfd, hno⟩ with hx | hx | hx | hx <;> contradiction
  · intro hfd
    have hnone {x : Nat} (hx : x ∉ u.inherited) : fd ≠ x := fun he => hx (he ▸ hfd)
    exact ⟨hnone h4.2.2.2, hnone h3.2.2, hnone h1, hnone h2.2, hinherited hfd⟩

/-- The descriptors 0 to 2 of a server that had a client. -/
theorem resources_released_one :
    ∃ s, ((orderly sampleStartup.setup fun _ => ⟨0, 0, 0, 0⟩).restrict Server.Forks).Run
      sampleQuit s ∧ s.state.parent.kernel.forks = 1 ∧
        (delResource sampleStartup s.state.parent).kernel.fds = {0, 1, 2} := by
  obtain ⟨s, hrun, hs⟩ := Machine.Run.of_exec_map
    (M := (orderly sampleStartup.setup fun _ => ⟨0, 0, 0, 0⟩).restrict Server.Forks)
    (f := fun s => (s.state.parent.kernel.forks, s.state.parent.ctl)) (x := (1, .left))
    sampleQuit (by decide) (by decide)
  simp only [Prod.mk.injEq] at hs
  exact ⟨s, hrun, hs.1, resources_released _ _ hrun hs.2⟩

end Quitting

end Chat

end LinuxWebsocket
