import LinuxWebsocket.Lib.SignalLoop
import LinuxWebsocket.Pool.Reaping

/-!
# Telling the pool to stop

The caller of the constructor and all its children from the first `fork` on, as far as signals
go: the constructor's loop, `setup_sig_pipe` in every process, the signal handler, `run_child`
and `run_parent`. The processes do one statement at a time; a signal that reaches one of them
before its handler is installed has its default action. A child watches its signal pipe and
others; what it does about the others is left out.
-/

namespace LinuxWebsocket

namespace Pool

namespace Stopping

open EdgeTriggered SignalLoop

/-- The size of the buffers the signal bytes are read into. -/
def signalsSize : Nat := 1024

/-- The calls a process makes before its loop. -/
inductive Call
  /-- The constructor's `fork()` for a child. -/
  | fork (k : Nat)
  | epollCreate
  /-- `socketpair(.., sig_pipefd)` -/
  | socketpair
  | setnonblocking
  /-- `addfd(m_epollfd, sig_pipefd[0])` -/
  | addSigfd
  /-- `addsig(sig, sig_handler)` -/
  | addsig (x : Signal)
  /-- `addsig(SIGPIPE, SIG_IGN)` -/
  | ignoreSigpipe
  /-- `addfd(m_epollfd, pipefd)` -/
  | addPipefd
  deriving DecidableEq, Repr

/-- `setup_sig_pipe` -/
def setupSigPipe : List Call :=
  [.epollCreate, .socketpair, .setnonblocking, .addSigfd, .addsig .chld, .addsig .term,
    .addsig .int, .ignoreSigpipe]

/-- `run_child` up to its loop. -/
def runChild : List Call := setupSigPipe ++ [.addPipefd]

/-- The descriptors a child watches. -/
inductive Watched
  /-- `sig_pipefd[0]` -/
  | sigfd
  /-- The pipe to the parent or a client. -/
  | other
  deriving DecidableEq, Repr

/-- The constructor from its first `fork` on and `run_parent` up to its loop, in the caller. -/
def runParent (c : Setup) : List Call := (List.range c.mProcessNumber).map .fork ++ setupSigPipe

/-- A process before its loop. -/
structure Boot where
  /-- The calls still to be made. -/
  calls : List Call
  /-- Its `sig_pipefd` was created. -/
  piped : Bool
  /-- The signals its handler is installed for. -/
  catches : Finset Signal

/-- A process with these calls to make, and no handler. -/
def Boot.start (calls : List Call) : Boot := ⟨calls, false, ∅⟩

/-- The next call. -/
def Boot.step (b : Boot) : Boot :=
  match b.calls with
  | [] => b
  | .socketpair :: calls => { b with calls := calls, piped := true }
  | .addsig x :: calls => { b with calls := calls, catches := insert x b.catches }
  | _ :: calls => { b with calls := calls }

/-- A child. -/
structure Child extends Boot where
  /-- Its loop, with `m_stop` as the flag. -/
  loop : Loop Signal Watched

/-- A child that has just been forked. -/
def Child.forked : Child := ⟨.start runChild, .start⟩

/-- The signals whose bytes set `m_stop`: `SIGTERM` and `SIGINT`. -/
def stops : Signal → Bool
  | .term | .int => true
  | _ => false

/-- A change to the child's loop. -/
def Child.onLoop (ch : Child) (f : Loop Signal Watched → Loop Signal Watched) : Child :=
  { ch with loop := f ch.loop }

/-- The next statement of a child that is not blocked. -/
def Child.run (ch : Child) : Child :=
  match ch.calls with
  | _ :: _ => { ch with toBoot := ch.toBoot.step }
  | [] => ch.onLoop (Loop.run stops .sigfd signalsSize)

/-- The caller, the signals on their way to it, and its children. -/
structure Net where
  /-- The caller before its loop. -/
  boot : Boot
  /-- The caller was killed, or an assertion failed. -/
  ended : Bool
  /-- The caller's loop. -/
  parent : Parent
  sigs : SelfPipe Signal
  children : Nat → Child

/-- What happens next. -/
inductive Act
  /-- A signal is sent to the caller. -/
  | post (x : Signal)
  /-- A signal is delivered to the caller. -/
  | deliver (x : Signal)
  /-- The caller's next call before its loop. -/
  | call
  /-- The caller is killed, or an assertion fails. -/
  | abort
  /-- The caller's loop. -/
  | parent (e : Event)
  /-- A signal is sent to a child, by anybody. -/
  | postTo (k : Nat) (x : Signal)
  /-- A signal is delivered to a child. -/
  | deliverTo (k : Nat) (x : Signal)
  /-- The next statement of a child. -/
  | run (k : Nat)
  /-- A child's `epoll_wait` reports these descriptors. -/
  | wake (k : Nat) (ready : List Watched)
  /-- A child's `epoll_wait` fails. -/
  | fail (k : Nat)
  /-- A child exits. -/
  | exit (k : Nat)
  deriving DecidableEq

/-- The signals on their way to the parent behind a step of it. -/
def parentSigs (c : Setup) (sigs : SelfPipe Signal) : Event → SelfPipe Signal
  | .wake ready => if c.sigfd ∈ ready then sigs.report else sigs
  | .signals _ => sigs.recv signalsSize
  | .byte => sigs.handle
  | _ => sigs

/-- `kill(pid, SIGTERM)` for these numbers. -/
def tell (c : Setup) (children : Nat → Child) (pids : List Int) (k : Nat) : Child :=
  if k < c.mProcessNumber ∧ ((c.forks k).pid : Int) ∈ pids then
    (children k).onLoop fun l => l.post stops .term
  else children k

/-- A change to one child. -/
def Net.onChild (s : Net) (k : Nat) (f : Child → Child) : Net :=
  { s with children := Function.update s.children k (f (s.children k)) }

/-- A signal is sent to the caller; without a handler `SIGCHLD` is dropped at once. -/
def Net.post (s : Net) (x : Signal) : Net :=
  if x ∈ s.boot.catches ∨ stops x = true then { s with sigs := s.sigs.post x } else s

/-- A signal is delivered to the caller: its handler writes to the signal pipe, or it has its
default action. -/
def deliver (s : Net) (x : Signal) : Except Fault Net :=
  if x ∈ s.boot.catches then
    if s.boot.piped then .ok { s with sigs := s.sigs.deliver x } else .error .outOfRange
  else if stops x then .ok { s with ended := true }
  else .ok { s with sigs := { s.sigs with pending := s.sigs.pending.erase x } }

/-- A child exits, and the kernel sends `SIGCHLD` to the caller. -/
def exit (c : Setup) (s : Net) (k : Nat) : Except Fault Net := do
  let parent ← s.parent.step c (.die k)
  .ok (({ s with parent := parent } : Net).post .chld)

/-- A signal is delivered to a child: its handler writes to the signal pipe, or it has its
default action. -/
def deliverTo (c : Setup) (s : Net) (k : Nat) (x : Signal) : Except Fault Net :=
  let ch := s.children k
  if x ∈ ch.catches then
    if ch.piped then .ok (s.onChild k fun ch => ch.onLoop fun l => l.deliver x)
    else .error .outOfRange
  else if stops x then exit c s k
  else .ok (s.onChild k fun ch => ch.onLoop fun l => l.ignore x)

/-- One step of the parent or of a child, or a signal. -/
def Net.step (c : Setup) (s : Net) (a : Act) : Except Fault Net :=
  match a with
  | .post x => .ok (s.post x)
  | .deliver x => deliver s x
  | .call => .ok { s with boot := s.boot.step }
  | .abort => .ok { s with ended := true }
  | .parent e => do
    let parent ← s.parent.step c e
    let new := parent.killed.take (parent.killed.length - s.parent.killed.length)
    .ok { s with
      parent := parent
      sigs := parentSigs c s.sigs e
      children := tell c s.children new }
  | .postTo k x => .ok (s.onChild k fun ch => ch.onLoop fun l => l.post stops x)
  | .deliverTo k x => deliverTo c s k x
  | .run k => .ok (s.onChild k Child.run)
  | .wake k ready => .ok (s.onChild k fun ch => ch.onLoop fun l => l.wake .sigfd ready)
  | .fail k => .ok (s.onChild k fun ch => ch.onLoop Loop.fail)
  | .exit k => exit c s k

/-- A child was forked and runs. -/
def Net.Live (c : Setup) (s : Net) (k : Nat) : Prop :=
  k < c.mProcessNumber ∧ s.parent.life k = .running ∧ .fork k ∉ s.boot.calls

instance (c : Setup) (s : Net) (k : Nat) : Decidable (s.Live c k) :=
  inferInstanceAs (Decidable (_ ∧ _ ∧ _))

/-- What the kernel promises the parent besides: what `recv` reads is what is in the pipe, and
`waitpid` finds nothing only if no child has exited unnoticed. -/
def Net.Kernel (c : Setup) (s : Net) : Event → Prop
  | .wake ready => ready.Nodup ∧ (c.sigfd ∈ ready → s.sigs.inbox.edge = true)
  | .signals bytes => bytes = s.sigs.inbox.queue.take signalsSize
  | .waitpid none => ∀ k, k < c.mProcessNumber → s.parent.life k ≠ .exited
  | .die _ => False
  | _ => True

instance (c : Setup) (s : Net) : ∀ e, Decidable (s.Kernel c e)
  | .wake ready => inferInstanceAs (Decidable (ready.Nodup ∧ (c.sigfd ∈ ready →
      s.sigs.inbox.edge = true)))
  | .signals bytes => inferInstanceAs (Decidable (bytes = s.sigs.inbox.queue.take signalsSize))
  | .waitpid none => inferInstanceAs (Decidable (∀ k, k < c.mProcessNumber →
      s.parent.life k ≠ .exited))
  | .waitpid (some _) => inferInstanceAs (Decidable True)
  | .die _ => inferInstanceAs (Decidable False)
  | .fail => inferInstanceAs (Decidable True)
  | .dispatch => inferInstanceAs (Decidable True)
  | .byte => inferInstanceAs (Decidable True)
  | .skip => inferInstanceAs (Decidable True)
  | .endBatch => inferInstanceAs (Decidable True)

/-- What can happen next. -/
def Net.Allowed (c : Setup) (s : Net) : Act → Prop
  | .post x => x ≠ .other
  | .deliver x => s.ended = false ∧ x ∈ s.sigs.pending
  | .call => s.ended = false ∧ s.boot.calls ≠ []
  | .abort => s.ended = false
  | .parent e => s.ended = false ∧ s.boot.calls = [] ∧ s.parent.Allowed c e ∧ s.Kernel c e
  | .postTo k _ => s.Live c k
  | .deliverTo k x => s.Live c k ∧ x ∈ (s.children k).loop.sigs.pending
  | .run k => s.Live c k
  | .wake k ready => s.Live c k ∧ (s.children k).loop.ctl = .waiting ∧ ready.Nodup ∧
    (.sigfd ∈ ready → (s.children k).loop.sigs.inbox.edge = true)
  | .fail k => s.Live c k ∧ (s.children k).loop.ctl = .waiting
  | .exit k => s.Live c k

instance (c : Setup) (s : Net) : ∀ a, Decidable (s.Allowed c a)
  | .post x => inferInstanceAs (Decidable (x ≠ .other))
  | .deliver x => inferInstanceAs (Decidable (s.ended = false ∧ x ∈ s.sigs.pending))
  | .call => inferInstanceAs (Decidable (s.ended = false ∧ s.boot.calls ≠ []))
  | .abort => inferInstanceAs (Decidable (s.ended = false))
  | .parent e => inferInstanceAs (Decidable
      (s.ended = false ∧ s.boot.calls = [] ∧ s.parent.Allowed c e ∧ s.Kernel c e))
  | .postTo k _ => inferInstanceAs (Decidable (s.Live c k))
  | .deliverTo k x =>
    inferInstanceAs (Decidable (s.Live c k ∧ x ∈ (s.children k).loop.sigs.pending))
  | .run k => inferInstanceAs (Decidable (s.Live c k))
  | .wake k ready => inferInstanceAs (Decidable (s.Live c k ∧ (s.children k).loop.ctl = .waiting ∧
      ready.Nodup ∧ (.sigfd ∈ ready → (s.children k).loop.sigs.inbox.edge = true)))
  | .fail k => inferInstanceAs (Decidable (s.Live c k ∧ (s.children k).loop.ctl = .waiting))
  | .exit k => inferInstanceAs (Decidable (s.Live c k))

/-- The pool before the constructor's first `fork`. The table is filled as `fork` goes on, and
not looked at before the loop. -/
def Net.start (c : Setup) : Net :=
  ⟨.start (runParent c), false, .start c, .empty, fun _ => .forked⟩

/-- The pool and its environment. -/
def machine (c : Setup) : Machine Net Act Fault where
  init := .start c
  Allowed := Net.Allowed c
  step := Net.step c

/-- The events of the parent's batch still to be handled. -/
def todo : Ctl → List Nat
  | .batch _ todo => todo
  | .signals _ _ todo => todo
  | .reaping _ _ todo => todo
  | _ => []

/-- The signal bytes in the parent's hand. -/
def bytes : Ctl → List Signal
  | .signals bytes _ _ => bytes
  | .reaping bytes _ _ => bytes
  | _ => []

/-- The parent is in its `waitpid` loop. -/
def isReaping : Ctl → Bool
  | .reaping _ _ _ => true
  | _ => false

/-- A signal is delivered only while its byte and those unread fit what the reports still to
be served have room for. -/
def Net.Fits (c : Setup) (s : Net) : Act → Prop
  | .deliver x => x ∈ s.boot.catches →
    s.sigs.inbox.Fits signalsSize ((todo s.parent.ctl).contains c.sigfd) [x]
  | .deliverTo k x => (s.children k).loop.sigs.inbox.Fits signalsSize
    ((s.children k).loop.ctl.todo.contains .sigfd) [x]
  | _ => True

instance (c : Setup) (s : Net) : ∀ a, Decidable (s.Fits c a)
  | .deliver x => inferInstanceAs (Decidable (x ∈ s.boot.catches →
      s.sigs.inbox.Fits signalsSize ((todo s.parent.ctl).contains c.sigfd) [x]))
  | .deliverTo k x => inferInstanceAs (Decidable ((s.children k).loop.sigs.inbox.Fits signalsSize
      ((s.children k).loop.ctl.todo.contains .sigfd) [x]))
  | .post _ => inferInstanceAs (Decidable True)
  | .call => inferInstanceAs (Decidable True)
  | .abort => inferInstanceAs (Decidable True)
  | .parent _ => inferInstanceAs (Decidable True)
  | .postTo _ _ => inferInstanceAs (Decidable True)
  | .run _ => inferInstanceAs (Decidable True)
  | .wake _ _ => inferInstanceAs (Decidable True)
  | .fail _ => inferInstanceAs (Decidable True)
  | .exit _ => inferInstanceAs (Decidable True)

/-- The pool where the signal pipes are read as fast as they are written. -/
def fitting (c : Setup) : Machine Net Act Fault := (machine c).restrict (Net.Fits c)

instance (c : Setup) (s : Net) (a : Act) : Decidable ((fitting c).Allowed s a) :=
  inferInstanceAs (Decidable (s.Allowed c a ∧ s.Fits c a))

/-- No handler is installed in front of `socketpair`. -/
def guarded : List Call → Bool
  | [] => true
  | .addsig _ :: calls => !calls.contains .socketpair && guarded calls
  | _ :: calls => guarded calls

/-- Forks come first, and change nothing about it. -/
theorem guarded_forks (ks : List Nat) (calls : List Call) :
    guarded (ks.map .fork ++ calls) = guarded calls := by
  induction ks with
  | nil => rfl
  | cons k ks ih => exact ih

/-- What holds of a process before its loop. -/
structure Boot.Inv (b : Boot) : Prop where
  /-- The signal pipe is there before any handler is. -/
  piped : b.catches ≠ ∅ → b.piped = true
  guarded : guarded b.calls = true
  socketpair : Call.socketpair ∈ b.calls ∨ b.piped = true

/-- A process starts that way. -/
theorem Boot.inv_start {calls : List Call} (hg : Stopping.guarded calls = true)
    (hs : Call.socketpair ∈ calls) : (Boot.start calls).Inv :=
  ⟨fun h => absurd rfl h, hg, Or.inl hs⟩

/-- Every call keeps it that way. -/
theorem Boot.Inv.step {b : Boot} (h : b.Inv) : b.step.Inv := by
  have hg := h.guarded
  have hpiped := h.socketpair
  unfold Boot.step
  cases hcalls : b.calls with
  | nil => exact h
  | cons call calls =>
      rw [hcalls] at hg hpiped
      cases call with
      | socketpair => exact ⟨fun _ => rfl, hg, Or.inr rfl⟩
      | addsig x =>
          simp only [Stopping.guarded, Bool.and_eq_true, Bool.not_eq_true',
            List.contains_eq_mem, decide_eq_false_iff_not] at hg
          have hthere : b.piped = true := hpiped.resolve_left (by simpa using hg.1)
          exact ⟨fun _ => hthere, hg.2, Or.inr hthere⟩
      | _ => exact ⟨h.piped, hg, hpiped.imp_left fun hm => by simpa using hm⟩

/-- What holds of a child at all times. -/
structure Child.Inv (ch : Child) : Prop where
  boot : ch.toBoot.Inv
  loop : ch.loop.Inv stops .sigfd signalsSize

section Child

variable {ch : Child} {x : Signal}

/-- A child starts that way. -/
theorem Child.inv_forked : Child.forked.Inv :=
  ⟨Boot.inv_start (by decide) (by decide), Loop.inv_start⟩

/-- A step of the child's loop. -/
theorem Child.Inv.onLoop (h : ch.Inv) {f : Loop Signal Watched → Loop Signal Watched}
    (hf : (f ch.loop).Inv stops .sigfd signalsSize) : (ch.onLoop f).Inv :=
  ⟨h.boot, hf⟩

/-- Every statement of a child keeps it that way. -/
theorem Child.Inv.run (h : ch.Inv) : ch.run.Inv := by
  unfold Child.run
  split
  · exact ⟨h.boot.step, h.loop⟩
  · exact h.onLoop h.loop.run

/-- What a child was told does not depend on where it is. -/
theorem Child.told_run (ch : Child) : ch.run.loop.told = ch.loop.told := by
  unfold Child.run
  split
  · rfl
  · exact Loop.told_run

end Child

/-- What holds of the pool at all times. -/
structure Net.Inv (c : Setup) (s : Net) : Prop where
  parent : Pool.Inv c s.parent
  boot : s.boot.Inv
  hand : s.sigs.hand = bytes s.parent.ctl
  once : (todo s.parent.ctl).count c.sigfd ≤ 1
  covered : s.parent.mStop = false →
    s.sigs.inbox.Covered signalsSize ((todo s.parent.ctl).contains c.sigfd)
  stop : s.parent.ctl = .waiting → s.parent.mStop = false
  children : ∀ k, (s.children k).Inv
  /-- A caller that handled `SIGTERM` or `SIGINT` has passed it on. -/
  told : ∀ x ∈ s.sigs.handled, stops x = true →
    ∀ k, k < c.mProcessNumber → s.parent.life k = .running → (s.children k).loop.told = true

variable {c : Setup} {s t : Net}

/-- The pool starts that way. -/
theorem Net.inv_start (c : Setup) : (Net.start c).Inv c := by
  have hctl : (Parent.start c).ctl = .waiting := by rw [start_eq]; rfl
  have hstop : (Parent.start c).mStop = false := by rw [start_eq]; rfl
  refine ⟨Pool.inv_start c, Boot.inv_start ?_ ?_, ?_, ?_, fun _ => Inbox.covered_of_nil rfl,
    fun _ => hstop, fun _ => Child.inv_forked, fun x hx => (by cases hx)⟩
  · rw [runParent, guarded_forks]
    decide
  · exact List.mem_append_right _ (by decide)
  · simp [Net.start, hctl, bytes, SelfPipe.empty]
  · simp [Net.start, hctl, todo]

/-- A change to one child that keeps it in order and is no secret to it. -/
theorem Net.Inv.onChild (h : s.Inv c) {k : Nat} {f : Child → Child} (hf : (f (s.children k)).Inv)
    (ht : (s.children k).loop.told = true → (f (s.children k)).loop.told = true) :
    (s.onChild k f).Inv c := by
  refine { h with children := fun j => ?_, told := fun x hx hs j hj hl => ?_ }
  · by_cases hjk : j = k
    · subst j
      simpa [Net.onChild] using hf
    · simpa [Net.onChild, hjk] using h.children j
  · have hold := h.told x hx hs j hj hl
    by_cases hjk : j = k
    · subst j
      simpa [Net.onChild] using ht hold
    · simpa [Net.onChild, hjk] using hold

/-- What is sent to the caller is on its way, and nothing else is changed. -/
theorem post_cases (s : Net) (x : Signal) : s.post x = { s with sigs := s.sigs.post x } ∨
    (x ∉ s.boot.catches ∧ stops x = false) ∧ s.post x = s := by
  unfold Net.post
  split
  · exact Or.inl rfl
  · next hno =>
      push Not at hno
      exact Or.inr ⟨⟨hno.1, by simpa using hno.2⟩, rfl⟩

/-- A signal sent to the caller. -/
theorem Net.Inv.post (h : s.Inv c) (x : Signal) : (s.post x).Inv c := by
  rcases post_cases s x with he | ⟨-, he⟩
  · rw [he]
    exact { h with }
  · rwa [he]

/-- A child's exit is never a fault. -/
theorem exit_eq (c : Setup) (s : Net) (k : Nat) : exit c s k = .ok
    (({ s with parent := { s.parent with
      life := Function.update s.parent.life k .exited } } : Net).post .chld) := by
  have hstep : s.parent.step c (.die k) =
      .ok { s.parent with life := Function.update s.parent.life k .exited } := by
    simp [Parent.step]
  simp only [exit, hstep, ok_bind]

/-- A child that exits. -/
theorem Net.Inv.die (h : s.Inv c) {k : Nat} (hk : s.Live c k) :
    ({ s with parent := { s.parent with
      life := Function.update s.parent.life k .exited } } : Net).Inv c := by
  refine { h with
    parent := h.parent.move (.die hk.1 hk.2.1)
    told := fun x hx hstop j hj hl => h.told x hx hstop j hj ?_ }
  by_cases hjk : j = k
  · subst j
    simp at hl
  · simpa [hjk] using hl

/-- And the kernel's signal. -/
theorem Net.Inv.exit (h : s.Inv c) {k : Nat} (hk : s.Live c k)
    (hs : Stopping.exit c s k = .ok t) : t.Inv c := by
  rw [exit_eq] at hs
  obtain rfl := Except.ok.inj hs
  exact (h.die hk).post .chld

/-- A step of the loop that changes neither the signals nor the children's lives. -/
theorem Net.Inv.go (h : s.Inv c) {u : Parent} (hu : Pool.Inv c u)
    (hlife : u.life = s.parent.life) (hstop : u.mStop = s.parent.mStop)
    (hbytes : bytes u.ctl = bytes s.parent.ctl)
    (honce : (todo u.ctl).count c.sigfd ≤ (todo s.parent.ctl).count c.sigfd)
    (htodo : u.mStop = false →
      (todo u.ctl).contains c.sigfd = (todo s.parent.ctl).contains c.sigfd)
    (hwait : u.ctl = .waiting → u.mStop = false) : ({ s with parent := u } : Net).Inv c := by
  refine { h with
    parent := hu, hand := h.hand.trans hbytes.symm, once := honce.trans h.once
    covered := fun hs => ?_, stop := hwait, told := ?_ }
  · rw [htodo hs]
    exact h.covered (hstop ▸ hs)
  · rw [hlife]
    exact h.told

/-- `SIGTERM` sent to children keeps them in order. -/
theorem Net.Inv.tell (h : s.Inv c) {pids : List Int} (k : Nat) :
    (Stopping.tell c s.children pids k).Inv ∧
      ((s.children k).loop.told = true → (Stopping.tell c s.children pids k).loop.told = true) := by
  unfold Stopping.tell
  split
  · exact ⟨(h.children k).onLoop (h.children k).loop.post,
      fun ht => by simp [Child.onLoop, Loop.post, ht]⟩
  · exact ⟨h.children k, id⟩

/-- No child is sent anything. -/
theorem tell_nil {children : Nat → Child} : tell c children [] = children := by
  funext k
  simp [tell]

/-- A child that runs is among those `SIGTERM` is passed on to. -/
theorem tell_unreaped {children : Nat → Child} {k : Nat} (hk : k < c.mProcessNumber)
    (hl : s.parent.life k = .running) :
    (tell c children (unreaped c s.parent).reverse k).loop.told = true := by
  have hmem : ((c.forks k).pid : Int) ∈ (unreaped c s.parent).reverse := by
    rw [List.mem_reverse, unreaped]
    exact List.mem_map.mpr ⟨k, by simp [hk, hl], rfl⟩
  rw [tell, if_pos ⟨hk, hmem⟩]
  simp [Child.onLoop, Loop.post, stops]

/-- A descriptor that was passed over is not that of the signal pipe. -/
theorem skip_ne {p : Parent} {i fd : Nat} {rest : List Nat} (h : p.at c .skip = true)
    (hctl : p.ctl = .batch i (fd :: rest)) : fd ≠ c.sigfd := by
  simp only [Parent.at, hctl, decide_eq_true_eq] at h
  exact h.2

/-- The next event of the batch is not the signal pipe. -/
theorem contains_cons_of_ne {fd : Nat} {rest : List Nat} (h : fd ≠ c.sigfd) :
    (fd :: rest).contains c.sigfd = rest.contains c.sigfd := by
  simp [Ne.symm h]

/-- The signal bytes are read. -/
theorem Net.Inv.recv (h : s.Inv c) {i : Nat} {rest : List Nat}
    (hctl : s.parent.ctl = .batch i (c.sigfd :: rest))
    (hu : Pool.Inv c { s.parent with
      ctl := .signals (s.sigs.inbox.queue.take signalsSize) i rest }) :
    Net.Inv c { s with
      parent := { s.parent with ctl := .signals (s.sigs.inbox.queue.take signalsSize) i rest }
      sigs := s.sigs.recv signalsSize } := by
  have honce := h.once
  simp only [hctl, todo, List.count_cons_self] at honce
  have hno : rest.contains c.sigfd = false := by
    rw [← Bool.not_eq_true, List.contains_iff_mem, ← List.count_pos_iff]
    omega
  have hhand : s.sigs.hand = [] := by rw [h.hand, hctl]; rfl
  refine { h with
    parent := hu, hand := ?_, once := ?_, covered := fun hs => ?_, stop := fun hc => by cases hc }
  · simp [hhand, bytes]
  · simp only [todo]
    omega
  · have hcov := h.covered hs
    simp only [hctl, todo, List.contains_cons, beq_self_eq_true, Bool.true_or] at hcov
    simp only [todo, hno]
    exact hcov.serve

/-- A signal byte other than `SIGCHLD` is handled. -/
theorem Net.Inv.handle (h : s.Inv c) {x : Signal} {rest : List Signal} {i : Nat}
    {events : List Nat} {u : Parent} (hctl : s.parent.ctl = .signals (x :: rest) i events)
    (hu : Pool.Inv c u) (hctl' : u.ctl = .signals rest i events)
    (hlife : u.life = s.parent.life) (hstop : u.mStop = s.parent.mStop) {pids : List Int}
    (htold : stops x = true → pids = (unreaped c s.parent).reverse) :
    Net.Inv c { s with
      parent := u, sigs := s.sigs.handle, children := Stopping.tell c s.children pids } := by
  have hhand : s.sigs.hand = x :: rest := by rw [h.hand, hctl]; rfl
  refine ⟨hu, h.boot, ?_, ?_, fun hs => ?_, fun hc => ?_, fun k => (h.tell k).1,
    fun y hy hs k hk hl => ?_⟩
  · simp [hhand, hctl', bytes]
  · simpa [hctl', hctl, todo] using h.once
  · have := h.covered (hstop ▸ hs)
    simpa [hctl', hctl, todo] using this
  · rw [hctl'] at hc
    cases hc
  · simp only [SelfPipe.handled_handle, hhand, List.take_succ_cons, List.take_zero,
      List.mem_append, List.mem_singleton] at hy
    simp only [hlife] at hl
    rcases hy with hy | rfl
    · exact (h.tell k).2 (h.told y hy hs k hk hl)
    · rw [htold hs]
      exact tell_unreaped hk hl

/-- The loop's step behind its own part. -/
def Net.behind (c : Setup) (s : Net) (e : Event) (u : Parent) : Net :=
  { s with
    parent := u
    sigs := parentSigs c s.sigs e
    children :=
      Stopping.tell c s.children (u.killed.take (u.killed.length - s.parent.killed.length)) }

/-- A step that tells the children nothing. -/
theorem inv_behind {e : Event} {u : Parent} (hk : u.killed = s.parent.killed)
    (h : Net.Inv c { s with parent := u, sigs := parentSigs c s.sigs e }) :
    (s.behind c e u).Inv c := by
  rwa [Net.behind, hk, Nat.sub_self, List.take_zero, tell_nil]

/-- Every step of the loop keeps the pool in order. -/
theorem Net.Inv.move (h : s.Inv c) {e : Event} {u : Parent} (ha : s.parent.at c e = true)
    (hkernel : s.Kernel c e) (hm : Move c s.parent e u) : (s.behind c e u).Inv c := by
  have hu := h.parent.move hm
  cases hm with
  | @wake ready hctl =>
      have hhand : s.sigs.hand = [] := by rw [h.hand, hctl]; rfl
      have hs := h.stop hctl
      have hcov := h.covered hs
      simp only [hctl, todo, List.contains_nil] at hcov
      refine inv_behind rfl ?_
      refine ⟨hu, h.boot, ?_, ?_, fun _ => ?_, fun hc => (by cases hc), h.children, ?_⟩
      · by_cases hr : c.sigfd ∈ ready <;> simp [parentSigs, hr, hhand, bytes]
      · exact List.nodup_iff_count_le_one.mp hkernel.1 _
      · by_cases hr : c.sigfd ∈ ready
        · have hcontains : (todo (.batch 0 ready)).contains c.sigfd = true := by
            simpa [todo] using hr
          simp only [parentSigs, hr, ite_true, hcontains]
          exact hcov.report fun hf => (by cases hf)
        · have hcontains : (todo (.batch 0 ready)).contains c.sigfd = false := by
            simpa [todo] using hr
          simp only [parentSigs, hr, ite_false, hcontains]
          exact hcov
      · intro x hx
        refine h.told x ?_
        by_cases hr : c.sigfd ∈ ready <;> simpa [parentSigs, hr] using hx
  | fail hctl =>
      refine inv_behind rfl ?_
      exact h.go hu rfl rfl (by rw [hctl]; rfl) (by simp [hctl, todo, Parent.leave])
        (fun _ => by rw [hctl]; rfl) fun hc => (by cases hc)
  | @sent i j rest hctl =>
      refine inv_behind rfl ?_
      exact h.go hu rfl rfl (by rw [hctl]; rfl)
        (by simpa [hctl, todo] using (List.count_le_count_cons ..))
        (fun _ => by rw [hctl]; exact (contains_cons_of_ne c.listen_ne).symm)
        fun hc => (by cases hc)
  | deserted hctl hall =>
      refine inv_behind rfl ?_
      exact { h with
        parent := hu, hand := h.hand.trans (by rw [hctl]; rfl), once := by simp [todo]
        covered := fun hc => (by cases hc), stop := fun hc => (by cases hc) }
  | signals hctl =>
      obtain rfl : _ = s.sigs.inbox.queue.take signalsSize := hkernel
      refine inv_behind rfl ?_
      exact h.recv hctl hu
  | @chld rest i events hctl =>
      have hhand : s.sigs.hand = .chld :: rest := by rw [h.hand, hctl]; rfl
      refine inv_behind rfl ?_
      refine ⟨hu, h.boot, by simp [parentSigs, hhand, bytes], ?_, fun hs => ?_,
        fun hc => (by cases hc), h.children, fun x hx hs => ?_⟩
      · simpa [hctl, todo] using h.once
      · simpa [hctl, todo, parentSigs] using h.covered hs
      · simp only [parentSigs, SelfPipe.handled_handle, hhand, List.take_succ_cons, List.take_zero,
          List.mem_append, List.mem_singleton] at hx
        rcases hx with hx | rfl
        · exact h.told x hx hs
        · cases hs
  | @kill b rest i events hctl hb =>
      have hnew : ((killTargets c s.parent).reverse ++ s.parent.killed).take
          (((killTargets c s.parent).reverse ++ s.parent.killed).length - s.parent.killed.length) =
          (unreaped c s.parent).reverse := by
        rw [List.length_append, Nat.add_sub_cancel, List.take_left, killTargets_eq h.parent]
      rw [Net.behind]
      simp only [hnew]
      exact h.handle hctl hu rfl rfl rfl fun _ => rfl
  | ignored hctl =>
      rw [Net.behind]
      simp only [Nat.sub_self, List.take_zero]
      exact h.handle hctl hu rfl rfl rfl fun hs => (by cases hs)
  | bytesDone hctl =>
      have hhand : s.sigs.hand = [] := by rw [h.hand, hctl]; rfl
      refine inv_behind rfl ?_
      simp only [parentSigs, SelfPipe.handle_of_nil hhand]
      exact h.go hu rfl rfl (by rw [hctl]; rfl) (by simp [hctl, todo]) (fun _ => by rw [hctl]; rfl)
        fun hc => (by cases hc)
  | @joined k i rest events hctl hk hl =>
      refine inv_behind rfl ?_
      refine { h with
        parent := hu, told := fun x hx hs j hj hlive => h.told x hx hs j hj ?_ }
      by_cases hjk : j = k
      · subst j
        simp [Parent.joined] at hlive
      · simpa [Parent.joined, hjk] using hlive
  | stranger hctl =>
      refine inv_behind rfl ?_
      exact { h with }
  | @endReap rest i events stop hctl hstop =>
      refine inv_behind rfl ?_
      refine { h with
        parent := hu, hand := h.hand.trans (by rw [hctl]; rfl), once := ?_, covered := fun hs => ?_
        stop := fun hc => (by cases hc) }
      · simpa [hctl, todo] using h.once
      · have hold : s.parent.mStop = false := by
          by_contra hne
          have htrue : s.parent.mStop = true := by simpa using hne
          have : stop = true := hstop.mpr (h.parent.stop htrue)
          simp only at hs
          rw [hs] at this
          cases this
        simpa [hctl, todo, parentSigs] using h.covered hold
  | @skip i fd rest hctl =>
      refine inv_behind rfl ?_
      exact h.go hu rfl rfl (by rw [hctl]; rfl)
        (by simpa [hctl, todo] using (List.count_le_count_cons ..))
        (fun _ => by rw [hctl]; exact (contains_cons_of_ne (skip_ne ha hctl)).symm)
        fun hc => (by cases hc)
  | goOn hctl hs =>
      refine inv_behind rfl ?_
      exact h.go hu rfl rfl (by rw [hctl]; rfl) (by simp [hctl, todo]) (fun _ => by rw [hctl]; rfl)
        fun _ => hs
  | leave hctl hs =>
      refine inv_behind rfl ?_
      exact h.go hu rfl rfl (by rw [hctl]; rfl) (by simp [hctl, todo, Parent.leave])
        (fun _ => by rw [hctl]; rfl) fun hc => (by cases hc)
  | die => exact hkernel.elim

/-- What a step of the loop comes to. -/
theorem Net.Inv.parent_step (h : s.Inv c) {e : Event} (ha : s.Allowed c (.parent e)) :
    ∃ u, Move c s.parent e u ∧ s.step c (.parent e) = .ok (s.behind c e u) := by
  obtain ⟨u, hu, hm⟩ := h.parent.step_move ha.2.2.1
  refine ⟨u, hm, ?_⟩
  simp only [Net.step, hu, ok_bind]
  rfl

/-- Every step keeps the pool in order. -/
theorem Net.Inv.step (h : s.Inv c) {a : Act} (ha : s.Allowed c a) (hf : s.Fits c a)
    (hs : s.step c a = .ok t) : t.Inv c := by
  cases a with
  | post x =>
      obtain rfl := Except.ok.inj hs
      exact h.post x
  | deliver x =>
      simp only [Net.step, deliver] at hs
      split at hs
      · next hx =>
          split at hs
          · obtain rfl := Except.ok.inj hs
            exact { h with covered := fun _ => Inbox.covered_arrive_iff.mpr (hf hx) }
          · cases hs
      · split at hs
        · obtain rfl := Except.ok.inj hs
          exact { h with }
        · obtain rfl := Except.ok.inj hs
          exact { h with }
  | call =>
      obtain rfl := Except.ok.inj hs
      exact { h with boot := h.boot.step }
  | abort =>
      obtain rfl := Except.ok.inj hs
      exact { h with }
  | parent e =>
      obtain ⟨u, hm, hstep⟩ := h.parent_step ha
      obtain rfl := Except.ok.inj (hstep.symm.trans hs)
      exact h.move ha.2.2.1.1 ha.2.2.2 hm
  | postTo k x =>
      obtain rfl := Except.ok.inj hs
      exact h.onChild ((h.children k).onLoop (h.children k).loop.post)
        fun ht => by simp [Child.onLoop, Loop.post, ht]
  | deliverTo k x =>
      simp only [Net.step, deliverTo] at hs
      split at hs
      · split at hs
        · obtain rfl := Except.ok.inj hs
          exact h.onChild ((h.children k).onLoop ((h.children k).loop.deliver hf)) id
        · cases hs
      · split at hs
        · exact h.exit ha.1 hs
        · obtain rfl := Except.ok.inj hs
          exact h.onChild ((h.children k).onLoop
            ((h.children k).loop.ignore (by simpa using ‹¬stops x = true›))) id
  | run k =>
      obtain rfl := Except.ok.inj hs
      exact h.onChild (h.children k).run fun ht => by rwa [Child.told_run]
  | wake k ready =>
      obtain rfl := Except.ok.inj hs
      exact h.onChild ((h.children k).onLoop ((h.children k).loop.wake ha.2.1 ha.2.2.1)) id
  | fail k =>
      obtain rfl := Except.ok.inj hs
      exact h.onChild ((h.children k).onLoop ((h.children k).loop.fail ha.2)) id
  | exit k => exact h.exit ha hs

/-- The pool is in order in every run in which the signal pipes are read as fast as they are
written. -/
theorem net_inv_of_run {as : List Act} (h : (fitting c).Run as s) : s.Inv c := by
  apply h.invariant (Net.inv_start c)
  rintro s a t hi ⟨ha, hf⟩ hs
  exact hi.step ha hf hs

/-- No handler writes to a signal pipe that is not there. -/
theorem Net.Inv.no_fault (h : s.Inv c) {a : Act} (ha : s.Allowed c a) :
    ∃ t, s.step c a = .ok t := by
  cases a with
  | parent e =>
      obtain ⟨u, -, hstep⟩ := h.parent_step ha
      exact ⟨_, hstep⟩
  | deliver x =>
      simp only [Net.step, deliver]
      split
      · rw [if_pos (h.boot.piped (Finset.ne_empty_of_mem ‹_›))]
        exact ⟨_, rfl⟩
      · split <;> exact ⟨_, rfl⟩
  | deliverTo k x =>
      simp only [Net.step, deliverTo]
      split
      · rw [if_pos ((h.children k).boot.piped (Finset.ne_empty_of_mem ‹_›))]
        exact ⟨_, rfl⟩
      · split
        · exact ⟨_, exit_eq c s k⟩
        · exact ⟨_, rfl⟩
  | exit k => exact ⟨_, exit_eq c s k⟩
  | _ => exact ⟨_, rfl⟩

/-- In every run in which the signal pipes are read as fast as they are written, no child that
was sent `SIGTERM` or `SIGINT` at any time since its `fork` sleeps on, and no signal reaches a
process before the pipe its handler writes to. -/
theorem sigterm_wakes_child (c : Setup) {as : List Act} {s : Net} (h : (fitting c).Run as s) :
    (∀ k, (s.children k).loop.Asleep → (s.children k).loop.told = false) ∧
      ∀ a, s.Allowed c a → ∃ t, s.step c a = .ok t :=
  have hi := net_inv_of_run h
  ⟨fun k ha => (hi.children k).loop.asleep ha, fun _ ha => hi.no_fault ha⟩

/-- A child is set up and blocked in `epoll_wait`. -/
def sampleSettled (k : Nat) : List Act := List.replicate 10 (.run k)

/-- The caller makes all calls before its loop. -/
def sampleBoot : List Act := List.replicate 10 .call

/-- A signal is sent and delivered to the caller, which reads its byte. -/
def sampleSignal (x : Signal) : List Act :=
  [.post x, .deliver x, .parent (.wake [7]), .parent (.signals [x])]

/-- One child sleeps while the other one is sent `SIGTERM` and handles it. -/
def sampleWoken : List Act :=
  sampleBoot ++ sampleSettled 0 ++ sampleSettled 1 ++
    [.postTo 0 .term, .deliverTo 0 .term, .wake 0 [.sigfd], .run 0, .run 0]

/-- Only the child that was told is awake. -/
theorem sigterm_wakes_child_one :
    ∃ s, (fitting sampleSetup).Run sampleWoken s ∧
      ((s.children 0).loop.told = true ∧ (s.children 1).loop.Asleep) ∧
      (∀ k, (s.children k).loop.Asleep → (s.children k).loop.told = false) ∧
      ∀ a, s.Allowed sampleSetup a → ∃ t, s.step sampleSetup a = .ok t :=
  have ⟨s, hrun, hs⟩ := Machine.Run.of_exec_map (M := fitting sampleSetup)
    (f := fun s => ((s.children 0).loop.told, decide (s.children 1).loop.Asleep))
    (x := (true, true)) sampleWoken (by decide) (by decide)
  have hasleep : (s.children 1).loop.Asleep := of_decide_eq_true (congrArg Prod.snd hs)
  ⟨s, hrun, ⟨congrArg Prod.fst hs, hasleep⟩, sigterm_wakes_child _ hrun⟩

end Stopping

end Pool

end LinuxWebsocket
