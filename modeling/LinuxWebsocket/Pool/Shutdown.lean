import LinuxWebsocket.Pool.Stopping

/-!
# The pool comes to its end

A caller that was asked to stop waits for the `SIGCHLD` of its children. As long as one of them
runs when the handler is installed, the last exit is noticed: either its signal is still owed to
the loop, or the loop is about to reap, or `m_stop` is set. Exits before that are dropped, and
their processes are waited for with the others.
-/

namespace LinuxWebsocket

namespace Pool

namespace Stopping

open EdgeTriggered SignalLoop

/-- Not all children have exited when the caller's `addsig(SIGCHLD, sig_handler)` is made. -/
def Net.Watches (c : Setup) (s : Net) : Act → Prop
  | .call => s.boot.calls.head? = some (.addsig .chld) →
    ∃ k, k < c.mProcessNumber ∧ s.parent.life k = .running
  | _ => True

instance (c : Setup) (s : Net) : ∀ a, Decidable (s.Watches c a)
  | .call => inferInstanceAs (Decidable (s.boot.calls.head? = some (.addsig .chld) →
      ∃ k, k < c.mProcessNumber ∧ s.parent.life k = .running))
  | .post _ => inferInstanceAs (Decidable True)
  | .deliver _ => inferInstanceAs (Decidable True)
  | .abort => inferInstanceAs (Decidable True)
  | .parent _ => inferInstanceAs (Decidable True)
  | .postTo _ _ => inferInstanceAs (Decidable True)
  | .deliverTo _ _ => inferInstanceAs (Decidable True)
  | .run _ => inferInstanceAs (Decidable True)
  | .wake _ _ => inferInstanceAs (Decidable True)
  | .fail _ => inferInstanceAs (Decidable True)
  | .exit _ => inferInstanceAs (Decidable True)

/-- The pool where the caller's handler is there in time, besides. -/
def watching (c : Setup) : Machine Net Act Fault := (fitting c).restrict (Net.Watches c)

instance (c : Setup) (s : Net) (a : Act) : Decidable ((watching c).Allowed s a) :=
  inferInstanceAs (Decidable ((fitting c).Allowed s a ∧ s.Watches c a))

/-- A caller behind its `addsig(SIGCHLD, sig_handler)` learns that no child runs any more. -/
structure Net.Noticed (c : Setup) (s : Net) : Prop where
  installed : .addsig .chld ∈ s.boot.calls ∨ .chld ∈ s.boot.catches
  ended : .chld ∈ s.boot.catches →
    (∀ k, k < c.mProcessNumber → s.parent.life k ≠ .running) →
    s.sigs.Owed .chld ∨ isReaping s.parent.ctl = true ∨ s.parent.mStop = true
  /-- In front of the loop nothing is handled. -/
  handled : s.boot.calls = [] ∨ s.sigs.handled = []

variable {c : Setup} {s t : Net}

/-- The pool starts that way. -/
theorem noticed_start (c : Setup) : (Net.start c).Noticed c where
  installed := Or.inl (List.mem_append_right _ (by decide))
  ended h := by cases h
  handled := Or.inr rfl

/-- A step that leaves the caller's handlers and the children's lives alone, and settles no
`SIGCHLD`. -/
theorem Net.Noticed.go (h : s.Noticed c) {p : Parent} {sigs : SelfPipe Signal}
    {children : Nat → Child} (hlife : p.life = s.parent.life)
    (howed : s.sigs.Owed .chld → sigs.Owed .chld ∨ isReaping p.ctl = true)
    (hreap : isReaping s.parent.ctl = true → isReaping p.ctl = true)
    (hstop : s.parent.mStop = true → p.mStop = true)
    (hhandled : s.boot.calls = [] ∨ sigs.handled = s.sigs.handled) :
    Net.Noticed c { s with parent := p, sigs := sigs, children := children } where
  installed := h.installed
  ended hc hall := by
    rcases h.ended hc (hlife ▸ hall) with ho | hr | hs
    · exact (howed ho).imp_right Or.inl
    · exact Or.inr (Or.inl (hreap hr))
    · exact Or.inr (Or.inr (hstop hs))
  handled := hhandled.elim Or.inl fun he => h.handled.imp_right he.trans

/-- A signal sent to the caller settles nothing. -/
theorem Net.Noticed.post (h : s.Noticed c) (x : Signal) : (s.post x).Noticed c := by
  rcases post_cases s x with he | ⟨-, he⟩
  · rw [he]
    exact h.go rfl (fun ho => Or.inl (SelfPipe.owed_post.mpr (Or.inr ho))) id id (Or.inr rfl)
  · rwa [he]

/-- The last child's exit is owed to the caller, if it has its handler. -/
theorem Net.Noticed.exit (h : s.Noticed c) {k : Nat} (hs : Stopping.exit c s k = .ok t) :
    t.Noticed c := by
  rw [exit_eq] at hs
  obtain rfl := Except.ok.inj hs
  rcases post_cases ({ s with parent := { s.parent with
    life := Function.update s.parent.life k .exited } } : Net) .chld with he | ⟨⟨hno, -⟩, he⟩
  · rw [he]
    exact ⟨h.installed, fun _ _ => Or.inl (SelfPipe.owed_post.mpr (Or.inl rfl)), h.handled⟩
  · rw [he]
    exact ⟨h.installed, fun hc => absurd hc hno, h.handled⟩

/-- A call of the caller. -/
theorem Net.Noticed.call (h : s.Noticed c) (hcalls : s.boot.calls ≠ [])
    (hw : s.Watches c .call) : Net.Noticed c { s with boot := s.boot.step } := by
  have hhandled := h.handled.resolve_left hcalls
  have hin := h.installed
  obtain ⟨call, calls, he⟩ := List.exists_cons_of_ne_nil hcalls
  rw [he] at hin
  by_cases hx : call = .addsig .chld
  · subst hx
    obtain ⟨k, hk, hlive⟩ := hw (by rw [he]; rfl)
    have hstep : s.boot.step =
        { s.boot with calls := calls, catches := insert .chld s.boot.catches } := by
      simp [Boot.step, he]
    refine ⟨Or.inr (by simp [hstep]), fun _ hall => absurd hlive (hall k hk), Or.inr hhandled⟩
  · have hcatch : (.chld ∈ s.boot.step.catches ↔ .chld ∈ s.boot.catches) ∧
        s.boot.step.calls = calls := by
      cases call with
      | addsig x =>
          have hne : Signal.chld ≠ x := by
            rintro rfl
            exact hx rfl
          simp [Boot.step, he, hne]
      | _ => simp [Boot.step, he]
    refine ⟨?_, fun hc => h.ended (hcatch.1.mp hc), Or.inr hhandled⟩
    rw [hcatch.1, hcatch.2]
    exact hin.imp_left fun hm => (List.mem_cons.mp hm).resolve_left (Ne.symm hx)

/-- Every step of the loop. -/
theorem Net.Noticed.move (h : s.Noticed c) (hi : s.Inv c) (hcalls : s.boot.calls = [])
    {e : Event} {u : Parent} (hkernel : s.Kernel c e) (hm : Move c s.parent e u) :
    (s.behind c e u).Noticed c := by
  have hhand := hi.hand
  unfold Net.behind
  cases hm with
  | @wake ready hctl =>
      refine h.go rfl (fun ho => Or.inl ?_) (by simp [hctl, isReaping]) id (Or.inl hcalls)
      by_cases hr : c.sigfd ∈ ready <;> simpa [parentSigs, hr] using ho
  | fail hctl =>
      exact h.go rfl Or.inl (by simp [hctl, isReaping]) id (Or.inl hcalls)
  | sent hctl =>
      exact h.go rfl Or.inl (by simp [hctl, isReaping]) id (Or.inl hcalls)
  | deserted hctl =>
      exact h.go rfl Or.inl (by simp [hctl, isReaping]) (fun _ => rfl) (Or.inl hcalls)
  | signals hctl =>
      exact h.go rfl (fun ho => Or.inl (SelfPipe.owed_recv.mpr ho)) (by simp [hctl, isReaping]) id
        (Or.inl hcalls)
  | chld hctl =>
      exact h.go rfl (fun _ => Or.inr rfl) (fun _ => rfl) id (Or.inl hcalls)
  | @kill b rest i events hctl hb =>
      have hbytes : s.sigs.hand = b :: rest := by rw [hhand, hctl]; rfl
      refine h.go rfl (fun ho => Or.inl (ho.handle ?_)) (by simp [hctl, isReaping]) id
        (Or.inl hcalls)
      rcases hb with rfl | rfl <;> simp [hbytes]
  | @ignored rest i events hctl =>
      have hbytes : s.sigs.hand = .other :: rest := by rw [hhand, hctl]; rfl
      exact h.go rfl (fun ho => Or.inl (ho.handle (by simp [hbytes])))
        (by simp [hctl, isReaping]) id (Or.inl hcalls)
  | bytesDone hctl =>
      have hbytes : s.sigs.hand = [] := by rw [hhand, hctl]; rfl
      exact h.go rfl (fun ho => Or.inl (ho.handle (by simp [hbytes])))
        (by simp [hctl, isReaping]) id (Or.inl hcalls)
  | @joined k i rest events hctl hk hl =>
      exact ⟨h.installed, fun _ _ => Or.inr (Or.inl (by simp [Parent.joined, hctl, isReaping])),
        Or.inl hcalls⟩
  | stranger hctl => exact h.go rfl Or.inl id id (Or.inl hcalls)
  | @endReap rest i events stop hctl hstop =>
      refine ⟨h.installed, fun _ hall => Or.inr (Or.inr (hstop.mpr fun k hk => ?_)),
        Or.inl hcalls⟩
      -- `waitpid` has found nothing, so no exit is left to be waited for
      cases hl : s.parent.life k with
      | running => exact absurd hl (hall k hk)
      | exited => exact absurd hl (hkernel k hk)
      | reaped => rfl
  | skip hctl => exact h.go rfl Or.inl (by simp [hctl, isReaping]) id (Or.inl hcalls)
  | goOn hctl => exact h.go rfl Or.inl (by simp [hctl, isReaping]) id (Or.inl hcalls)
  | leave hctl => exact h.go rfl Or.inl (by simp [hctl, isReaping]) id (Or.inl hcalls)
  | die => exact hkernel.elim

/-- Every step. -/
theorem Net.Noticed.step (h : s.Noticed c) (hi : s.Inv c) {a : Act} (ha : s.Allowed c a)
    (hw : s.Watches c a) (hs : s.step c a = .ok t) : t.Noticed c := by
  cases a with
  | post x =>
      obtain rfl := Except.ok.inj hs
      exact h.post x
  | deliver x =>
      simp only [Net.step, deliver] at hs
      split at hs
      · split at hs
        · obtain rfl := Except.ok.inj hs
          exact h.go rfl (fun ho => Or.inl ho.deliver) id id (Or.inr rfl)
        · cases hs
      · next hx =>
          split at hs
          · obtain rfl := Except.ok.inj hs
            exact ⟨h.installed, h.ended, h.handled⟩
          · obtain rfl := Except.ok.inj hs
            refine ⟨h.installed, fun hc hall => ?_, h.handled⟩
            have hne : Signal.chld ≠ x := by
              rintro rfl
              exact hx hc
            exact (h.ended hc hall).imp_left fun ho =>
              ho.imp_left fun hm => Finset.mem_erase.mpr ⟨hne, hm⟩
  | call =>
      obtain rfl := Except.ok.inj hs
      exact h.call ha.2 hw
  | abort =>
      obtain rfl := Except.ok.inj hs
      exact ⟨h.installed, h.ended, h.handled⟩
  | parent e =>
      obtain ⟨u, hm, hstep⟩ := hi.parent_step ha
      obtain rfl := Except.ok.inj (hstep.symm.trans hs)
      exact h.move hi ha.2.1 ha.2.2.2 hm
  | deliverTo k x =>
      simp only [Net.step, deliverTo] at hs
      split at hs
      · split at hs
        · obtain rfl := Except.ok.inj hs
          exact ⟨h.installed, h.ended, h.handled⟩
        · cases hs
      · split at hs
        · exact h.exit hs
        · obtain rfl := Except.ok.inj hs
          exact ⟨h.installed, h.ended, h.handled⟩
  | exit k => exact h.exit hs
  | _ =>
      obtain rfl := Except.ok.inj hs
      exact ⟨h.installed, h.ended, h.handled⟩

/-- In every run in which the handler is there in time. -/
theorem noticed_of_run {as : List Act} (h : (watching c).Run as s) : s.Inv c ∧ s.Noticed c := by
  refine h.invariant (I := fun s => s.Inv c ∧ s.Noticed c) ⟨Net.inv_start c, noticed_start c⟩ ?_
  rintro s a t ⟨hi, hn⟩ ⟨⟨ha, hf⟩, hw⟩ hs
  exact ⟨hi.step ha hf hs, hn.step hi ha hw hs⟩

/-- Nothing happens any more unless a signal is sent, a client comes or somebody is killed: the
caller is blocked in `epoll_wait` with nothing to be reported or delivered to it, has left its
loop one way or the other, or has ended; the children forked have exited or are asleep. -/
structure Net.AtRest (c : Setup) (s : Net) : Prop where
  parent : s.ended = true ∨ s.parent.ctl = .left ∨ s.parent.ctl = .failed ∨
    s.boot.calls = [] ∧ s.parent.ctl = .waiting ∧ s.sigs.inbox.edge = false ∧ s.sigs.pending = ∅
  children : ∀ k, s.Live c k → (s.children k).loop.Asleep

/-- A caller that was asked to stop does not block with nothing on its way to it. -/
theorem Net.Inv.awake (h : s.Inv c) (hn : s.Noticed c) {x : Signal} (hx : x ∈ s.sigs.handled)
    (hs : stops x = true) (hr : ∀ k, s.Live c k → (s.children k).loop.Asleep)
    (hcalls : s.boot.calls = []) (hctl : s.parent.ctl = .waiting)
    (hedge : s.sigs.inbox.edge = false) : s.sigs.pending ≠ ∅ := by
  intro hpending
  have hstop := h.stop hctl
  have hcov := h.covered hstop
  have hhand : s.sigs.hand = [] := by rw [h.hand, hctl]; rfl
  simp only [hctl, todo, List.contains_nil] at hcov
  have hcaught : .chld ∈ s.boot.catches := hn.installed.resolve_left (by simp [hcalls])
  have hnone (k : Nat) (hk : k < c.mProcessNumber) : s.parent.life k ≠ .running := by
    intro hl
    have htold := h.told x hx hs k hk hl
    rw [(h.children k).loop.asleep (hr k ⟨hk, hl, by simp [hcalls]⟩)] at htold
    cases htold
  rcases hn.ended hcaught hnone with ho | hreap | hs'
  · exact SelfPipe.not_owed hpending hcov hedge hhand ho
  · rw [hctl] at hreap
    cases hreap
  · rw [hstop] at hs'
    cases hs'

/-- In every run from the constructor's first `fork` on in which the signal pipes are read as fast
as they are written and not all children have exited before the caller's handler for `SIGCHLD` is
installed: once the caller has handled `SIGTERM` or `SIGINT`, the pool comes to rest only when the
caller has left its loop and has waited for all its children, unless the caller was killed or its
`epoll_wait` failed. -/
theorem pool_stops (c : Setup) {as : List Act} {s : Net} (h : (watching c).Run as s)
    {x : Signal} (hx : x ∈ s.sigs.handled) (hs : stops x = true) (hr : s.AtRest c) :
    s.ended = true ∨ s.parent.ctl = .failed ∨
      s.parent.ctl = .left ∧ ∀ k, k < c.mProcessNumber → s.parent.life k = .reaped := by
  obtain ⟨hi, hn⟩ := noticed_of_run h
  rcases hr.parent with he | hl | hf | ⟨hcalls, hctl, hedge, hpending⟩
  · exact Or.inl he
  · exact Or.inr (Or.inr ⟨hl, hi.parent.stop (hi.parent.left hl)⟩)
  · exact Or.inr (Or.inl hf)
  · exact absurd hpending (hi.awake hn hx hs hr.children hcalls hctl hedge)

/-- The second of two children exits before the caller has a handler, `SIGTERM` reaches the first
one in its loop, and the caller waits for both behind a single `SIGCHLD`. -/
def sampleStop : List Act :=
  [.call, .call, .exit 1] ++ List.replicate 8 .call ++ sampleSettled 0 ++ sampleSignal .term ++
    [.parent .byte, .parent .byte, .parent .endBatch, .deliverTo 0 .term, .wake 0 [.sigfd]] ++
    List.replicate 5 (.run 0) ++ .exit 0 :: sampleSignal .chld ++
    [.parent .byte, .parent (.waitpid (some 101)), .parent (.waitpid (some 102)),
      .parent (.waitpid none), .parent .byte, .parent .endBatch]

/-- The pool is at its end then. -/
theorem pool_stops_both :
    ∃ s, (watching sampleSetup).Run sampleStop s ∧ s.sigs.handled = [.term, .chld] ∧
      s.parent.ctl = .left ∧ ∀ k, k < sampleSetup.mProcessNumber → s.parent.life k = .reaped := by
  obtain ⟨s, hrun, hs⟩ := Machine.Run.of_exec_map (M := watching sampleSetup)
    (f := fun s => (s.sigs.handled, s.ended, s.parent.ctl,
      decide (∀ k, k < sampleSetup.mProcessNumber → s.parent.life k ≠ .running)))
    (x := ([.term, .chld], false, .left, true)) sampleStop (by decide) (by decide)
  simp only [Prod.mk.injEq, decide_eq_true_eq] at hs
  obtain ⟨hhandled, hended, hleft, hdead⟩ := hs
  obtain he | hf | hquit := pool_stops _ hrun (x := .term) (by simp [hhandled]) rfl
    ⟨Or.inr (Or.inl hleft), fun k hk => absurd hk.2.1 (hdead k hk.1)⟩
  · cases hended.symm.trans he
  · cases hleft.symm.trans hf
  · exact ⟨s, hrun, hhandled, hquit⟩

end Stopping

end Pool

end LinuxWebsocket
