import LinuxWebsocket.Chat.Sigterm
import LinuxWebsocket.Chat.SigtermWindows
import LinuxWebsocket.Lib.EdgeTriggered

/-!
# What a child watches

A child watches its client's connection and its pipe. Whoever is at the other end of one of
them sends, and at last closes; the child reads once for each report, and finds the end of the
stream only behind all that was sent.
-/

namespace LinuxWebsocket

namespace Chat

open EdgeTriggered Sigterm

/-- The other end of a descriptor that a child watches. -/
structure Peer (μ : Type) where
  /-- Sent and not read yet. -/
  inbox : Inbox μ
  /-- The descriptor is among the events of the child's batch. -/
  reported : Bool
  /-- It was closed. -/
  left : Bool

namespace Peer

variable {μ : Type}

/-- Nothing was sent yet. -/
def connected : Peer μ := ⟨.empty, false, false⟩

/-- Something is sent. -/
def send (x : Peer μ) (ms : List μ) : Peer μ := { x with inbox := x.inbox.arrive ms }

/-- The other end is closed. -/
def leave (x : Peer μ) : Peer μ := { x with inbox := x.inbox.hangup, left := true }

/-- `epoll_wait` reports the descriptor if there was an edge. -/
def report (x : Peer μ) : Peer μ := { x with inbox := x.inbox.report, reported := x.inbox.edge }

/-- The batch is done: from a descriptor that was among its events, one `recv` took at most
`cap`. -/
def served (x : Peer μ) (cap : Nat) : Peer μ where
  inbox := if x.reported then x.inbox.serve cap else x.inbox
  reported := false
  left := x.left

end Peer

/-- The child's next statement makes `epoll_wait` return with events. -/
def wakes (kid : Child) : Bool := (kid.pc = .wait || kid.pc = .blocked) && kid.ready

/-- A child hears of what is done at the other end. -/
structure Peer.Heard {μ : Type} (x : Peer μ) (kid : Child) : Prop where
  edge : x.inbox.edge = true → kid.ready = true
  batch : x.reported = true → kid.pc = .batch
  /-- A child that was hung up on stops, or is told. -/
  left : x.left = true → kid.stopChild = true ∨ x.inbox.edge = true ∨ x.reported = true

namespace Peer.Heard

variable {μ : Type} {x : Peer μ} {kid : Child}

/-- Something arrives from elsewhere. -/
theorem arrive (h : x.Heard kid) : x.Heard { kid with ready := true } :=
  ⟨fun _ => rfl, h.batch, h.left⟩

/-- Something is sent. -/
theorem send (h : x.Heard kid) {ms : List μ} :
    (x.send ms).Heard { kid with ready := true } :=
  ⟨fun _ => rfl, h.batch, fun _ => Or.inr (Or.inl rfl)⟩

/-- The other end is closed. -/
theorem leave (h : x.Heard kid) : x.leave.Heard { kid with ready := true } :=
  ⟨fun _ => rfl, h.batch, fun _ => Or.inr (Or.inl rfl)⟩

/-- `epoll_wait` returns with events. -/
theorem report (h : x.Heard kid) (hw : wakes kid = true) : x.report.Heard kid.run := by
  have hpc : kid.pc ≠ .batch := by
    intro hb
    simp [wakes, hb] at hw
  have hrun : kid.run = { kid with ready := false, pc := .batch } := by
    cases hk : kid.pc <;> simp_all [wakes, Child.run]
  rw [hrun]
  refine ⟨by simp [Peer.report, Inbox.report], fun _ => rfl, fun hleft => ?_⟩
  rcases h.left hleft with hstop | hedge | hrep
  · exact Or.inl hstop
  · exact Or.inr (Or.inr hedge)
  · exact absurd (h.batch hrep) hpc

/-- The child executes another statement. -/
theorem run (h : x.Heard kid) (hw : wakes kid = false) (hb : kid.pc ≠ .batch) :
    x.Heard kid.run := by
  have hready : kid.run.ready = kid.ready := by
    cases hk : kid.pc <;> cases hr : kid.ready <;> simp_all [wakes, Child.run]
  refine ⟨fun he => hready.trans (h.edge he), fun hr => absurd (h.batch hr) hb, ?_⟩
  rw [kid.run_kept.2.1]
  exact h.left

/-- The child's batch is done. -/
theorem serve (h : x.Heard kid) {gone : Bool} {cap : Nat}
    (hg : x.reported = true → x.left = true → gone = true) :
    (x.served cap).Heard (kid.serve gone) := by
  refine ⟨fun he => h.edge ?_, fun hr => by simp [Peer.served] at hr, fun hleft => ?_⟩
  · simp only [Peer.served] at he
    split at he
    · exact he
    · exact he
  · have hx : x.left = true := hleft
    rcases h.left hx with hstop | hedge | hrep
    · left
      simp [Child.serve, hstop]
    · right; left
      simp only [Peer.served]
      split
      · exact hedge
      · exact hedge
    · left
      simp [Child.serve, hg hrep hx]

/-- A `SIGTERM` is delivered to the child. -/
theorem deliver (h : x.Heard kid) : x.Heard kid.deliver := by
  refine ⟨h.edge, fun hr => ?_, fun hleft => ?_⟩
  · have hb := h.batch hr
    simp [Child.deliver, hb]
  · refine (h.left hleft).imp_left fun hstop => ?_
    simp [Child.deliver, hstop]

/-- A child that sleeps with nothing to be reported was not hung up on, unless it stops. -/
theorem stays (h : x.Heard kid) (hb : kid.pc = .blocked) (hr : kid.ready = false)
    (hs : kid.stopChild = false) : x.left = false := by
  by_contra hleft
  rcases h.left (by simpa using hleft) with hstop | hedge | hrep
  · simp [hs] at hstop
  · simp [h.edge hedge] at hr
  · simp [h.batch hrep] at hb

end Peer.Heard

/-- The other ends of one descriptor of every child, by serial number. -/
abbrev Peers (μ : Type) := Nat → Peer μ

namespace Peers

variable {μ : Type}

/-- A change to one of them. -/
def on (ps : Peers μ) (c : Nat) (f : Peer μ → Peer μ) : Peers μ := Function.update ps c (f (ps c))

/-- What a step of the server makes of them. -/
def behind (ps : Peers μ) (s : State) (cap : Nat) : Act → Peers μ
  | .run c => if wakes (s.children c) then ps.on c Peer.report else ps
  | .serve c _ => ps.on c fun x => x.served cap
  | _ => ps

/-- A `recv` finds the end of the stream when there is nothing before it. -/
def Receives (ps : Peers μ) : Act → Prop
  | .serve c gone => (ps c).reported = true → (ps c).left = true → (ps c).inbox.queue = [] →
    gone = true
  | _ => True

/-- What was sent was read before the `recv` that the closing leads to. -/
def Clear (ps : Peers μ) : Act → Prop
  | .serve c _ => (ps c).reported = true → (ps c).left = true → (ps c).inbox.queue = []
  | _ => True

instance (ps : Peers μ) [DecidableEq μ] (a : Act) : Decidable (ps.Receives a) := by
  unfold Receives
  split <;> infer_instance

instance (ps : Peers μ) [DecidableEq μ] (a : Act) : Decidable (ps.Clear a) := by
  unfold Clear
  split <;> infer_instance

/-- The children hear of what is done at the other ends. -/
def Heard (ps : Peers μ) (s : State) : Prop := ∀ c, (ps c).Heard (s.children c)

variable {ps : Peers μ} {s t : State}

/-- Of nothing there is nothing to hear. -/
theorem heard_connected (s : State) : Heard (fun _ : Nat => (Peer.connected : Peer μ)) s :=
  fun _ => ⟨fun he => by simp [Peer.connected, Inbox.empty] at he,
    fun hr => by simp [Peer.connected] at hr, fun hl => by simp [Peer.connected] at hl⟩

/-- What happens at one child alone. -/
theorem Heard.on (h : ps.Heard s) {c : Nat} {f : Child → Child} {g : Peer μ → Peer μ}
    (hc : (g (ps c)).Heard (f (s.children c))) : (ps.on c g).Heard (s.onChild c f) := by
  intro d
  unfold Peers.on
  by_cases hd : d = c
  · rw [hd, Function.update_self, children_onChild_self]
    exact hc
  · rw [Function.update_of_ne hd, children_onChild_of_ne hd]
    exact h d

/-- What happens at one child, and not at the other end. -/
theorem Heard.alone (h : ps.Heard s) {c : Nat} {f : Child → Child}
    (hc : (ps c).Heard (f (s.children c))) : ps.Heard (s.onChild c f) := by
  have hsame : ps.on c id = ps := Function.update_eq_self c ps
  exact hsame ▸ h.on (g := id) hc

/-- A step of the parent is, to the children, a `SIGTERM` to some of them at most. -/
theorem Heard.parent {k : Setup} (h : ps.Heard s) {e : Event}
    (hs : s.step k (.parent e) = .ok t) : ps.Heard t := by
  cases hp : s.parent.step k e with
  | error x => simp [State.step, hp] at hs
  | ok u =>
      simp only [State.step, hp, ok_bind] at hs
      intro c
      have hc := h c
      cases e with
      | byte =>
          obtain rfl := Except.ok.inj hs
          rcases children_kill s (u.killed.take (u.killed.length - s.parent.killed.length)) c with
            ⟨_, _, _, he⟩ | he
          · exact he ▸ ⟨hc.edge, hc.batch, hc.left⟩
          · exact he ▸ hc
      | _ =>
          obtain rfl := Except.ok.inj hs
          exact hc

/-- A step of the server keeps the children hearing. -/
theorem Heard.step {k : Setup} (h : ps.Heard s) {a : Act} {cap : Nat} (ha : s.Allowed k a)
    (hr : ps.Receives a) (hc : ps.Clear a) (hs : s.step k a = .ok t) :
    (ps.behind s cap a).Heard t := by
  cases a with
  | parent e => exact h.parent hs
  | post x =>
      obtain rfl := Except.ok.inj hs
      exact h
  | arrive c =>
      obtain rfl := Except.ok.inj hs
      exact h.alone (f := fun kid => { kid with ready := true }) (h c).arrive
  | run c =>
      obtain ⟨-, hbatch, -⟩ := ha
      obtain rfl := Except.ok.inj hs
      cases hw : wakes (s.children c) with
      | false =>
          simp only [behind, hw, Bool.false_eq_true, if_false]
          exact h.alone ((h c).run hw hbatch)
      | true =>
          simp only [behind, hw, if_true]
          exact h.on ((h c).report hw)
  | serve c gone =>
      obtain rfl := Except.ok.inj hs
      have hgone (hrep : (ps c).reported = true) (hleft : (ps c).left = true) : gone = true :=
        hr hrep hleft (hc hrep hleft)
      exact h.on (f := fun kid => kid.serve gone) (g := fun x => x.served cap) ((h c).serve hgone)
  | deliver c sent =>
      obtain rfl := Except.ok.inj hs
      exact h.alone (h c).deliver

end Peers

end Chat

end LinuxWebsocket
