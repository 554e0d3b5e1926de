import Mathlib.Data.Finset.Basic
import Mathlib.Data.List.Basic
import Mathlib.Tactic.Common

/-!
# Edge-triggered channels

A channel carries whole messages in order to one reader whose descriptor is
registered edge-triggered. A write raises an edge, edges not yet reported merge,
and a reader woken by a report reads one message. Nothing is left behind as long
as every unread message is covered by an edge still to be reported or by a report
still to be served; a write keeps the channel covered if what was unread before
is covered by reports alone. An inbox is the same for a reader that takes up to so many
units for each report. A table of registered descriptors holds the edges of many
sources at once; a source that is not registered raises none.
-/

namespace EdgeTriggered

/-- A channel with everything ever sent and received over it. -/
structure Channel (μ : Type) where
  sent : List μ
  received : List μ
  /-- Sent and not received yet, oldest first. -/
  queue : List μ
  /-- An edge was raised and not reported yet. -/
  edge : Bool
  /-- Messages are neither lost nor reordered on the way. -/
  flow : sent = received ++ queue

namespace Channel

variable {μ : Type} {c : Channel μ} {m : μ} {pending : Bool}

/-- A channel nothing was sent over. -/
def empty : Channel μ := ⟨[], [], [], false, rfl⟩

/-- A message is sent. -/
def write (c : Channel μ) (m : μ) : Channel μ where
  sent := c.sent ++ [m]
  received := c.received
  queue := c.queue ++ [m]
  edge := true
  flow := by rw [c.flow, List.append_assoc]

/-- The other end is closed, which raises an edge too. -/
def hangup (c : Channel μ) : Channel μ := { c with edge := true }

/-- The edge is reported to the reader. -/
def report (c : Channel μ) : Channel μ := { c with edge := false }

/-- The reader takes the oldest message, if there is one. -/
def read (c : Channel μ) : Channel μ where
  sent := c.sent
  received := c.received ++ c.queue.take 1
  queue := c.queue.drop 1
  edge := c.edge
  flow := by rw [c.flow, List.append_assoc, List.take_append_drop]

@[simp] theorem queue_empty : (empty : Channel μ).queue = [] := rfl
@[simp] theorem queue_write : (c.write m).queue = c.queue ++ [m] := rfl
@[simp] theorem queue_hangup : c.hangup.queue = c.queue := rfl
@[simp] theorem queue_report : c.report.queue = c.queue := rfl
@[simp] theorem queue_read : c.read.queue = c.queue.drop 1 := rfl
@[simp] theorem edge_write : (c.write m).edge = true := rfl
@[simp] theorem edge_hangup : c.hangup.edge = true := rfl
@[simp] theorem edge_report : c.report.edge = false := rfl
@[simp] theorem edge_read : c.read.edge = c.edge := rfl

/-- Everything sent was received once nothing is queued. -/
theorem received_of_queue (h : c.queue = []) : c.received = c.sent := by
  rw [c.flow, h, List.append_nil]

/-- Every unread message has an edge or, if `pending`, a report to be read on. -/
def Covered (c : Channel μ) (pending : Bool) : Prop :=
  c.queue.length ≤ c.edge.toNat + pending.toNat

/-- What is unread is covered by a report alone, so that one more write is covered too. -/
def Spaced (c : Channel μ) (pending : Bool) : Prop := c.queue.length ≤ pending.toNat

instance (c : Channel μ) (pending : Bool) : Decidable (c.Spaced pending) :=
  inferInstanceAs (Decidable (_ ≤ _))

theorem covered_of_nil (h : c.queue = []) : c.Covered pending := by
  unfold Covered
  rw [h]
  exact Nat.zero_le _

/-- A write spaced from the one before stays covered. -/
theorem Spaced.write (h : c.Spaced pending) : (c.write m).Covered pending := by
  unfold Spaced at h
  unfold Covered
  rw [queue_write, edge_write, List.length_append, List.length_singleton, Bool.toNat_true]
  omega

/-- Closing the other end uncovers nothing. -/
theorem Covered.hangup (h : c.Covered pending) : c.hangup.Covered pending := by
  unfold Covered at h ⊢
  rw [queue_hangup, edge_hangup]
  cases he : c.edge <;> simp [he] at h ⊢ <;> omega

/-- A pending edge becomes a report. -/
theorem Covered.report (h : c.Covered false) (he : c.edge = true) : c.report.Covered true := by
  unfold Covered at h ⊢
  rw [queue_report, edge_report]
  rw [he] at h
  exact h

/-- Serving a report reads the message it covers. -/
theorem Covered.read {p : Bool} (h : c.Covered p) : c.read.Covered pending := by
  unfold Covered at h ⊢
  rw [queue_read, edge_read, List.length_drop]
  cases p <;> simp at h ⊢ <;> omega

/-- A covered channel without an edge or a report has nothing unread. -/
theorem Covered.drained (h : c.Covered false) (he : c.edge = false) : c.queue = [] := by
  unfold Covered at h
  rw [he] at h
  exact List.length_eq_zero_iff.mp (Nat.le_zero.mp h)

end Channel

/-- What arrived at a descriptor and was not read yet, oldest first. -/
structure Inbox (μ : Type) where
  queue : List μ
  /-- An edge was raised and not reported yet. -/
  edge : Bool
  deriving DecidableEq

namespace Inbox

variable {μ : Type} {c : Inbox μ} {ms : List μ} {cap : Nat} {pending : Bool}

/-- Nothing has arrived. -/
def empty : Inbox μ := ⟨[], false⟩

/-- A descriptor is registered when `ms` have arrived, which raises an edge at once. -/
def registered (ms : List μ) : Inbox μ := ⟨ms, !ms.isEmpty⟩

/-- More arrive. -/
def arrive (c : Inbox μ) (ms : List μ) : Inbox μ := ⟨c.queue ++ ms, true⟩

/-- The other end is closed, which raises an edge too. -/
def hangup (c : Inbox μ) : Inbox μ := { c with edge := true }

/-- The edge is reported to the reader. -/
def report (c : Inbox μ) : Inbox μ := { c with edge := false }

/-- The reader takes the oldest, at most `cap` of them. -/
def serve (c : Inbox μ) (cap : Nat) : Inbox μ := { c with queue := c.queue.drop cap }

/-- The edge and, if `pending`, a report have room for all that is unread. -/
def Covered (c : Inbox μ) (cap : Nat) (pending : Bool) : Prop :=
  c.queue.length ≤ cap * (c.edge.toNat + pending.toNat)

/-- With what is unread, `ms` do not exceed what a fresh edge and, if `pending`, a report have
room for. -/
def Fits (c : Inbox μ) (cap : Nat) (pending : Bool) (ms : List μ) : Prop :=
  c.queue.length + ms.length ≤ cap * (1 + pending.toNat)

instance (c : Inbox μ) (cap : Nat) (pending : Bool) (ms : List μ) :
    Decidable (c.Fits cap pending ms) :=
  inferInstanceAs (Decidable (_ ≤ _))

/-- An arrival is covered exactly when it fits. -/
theorem covered_arrive_iff : (c.arrive ms).Covered cap pending ↔ c.Fits cap pending ms := by
  simp [Covered, Fits, arrive]

theorem covered_of_nil (h : c.queue = []) : c.Covered cap pending := by
  unfold Covered
  rw [h]
  exact Nat.zero_le _

/-- One more report uncovers nothing. -/
theorem Covered.mono (h : c.Covered cap false) : c.Covered cap pending :=
  h.trans (Nat.mul_le_mul_left cap (Nat.add_le_add_left (Nat.zero_le _) _))

/-- What is there at the registration is covered if one report has room for it. -/
theorem covered_registered (h : ms.length ≤ cap) : (registered ms).Covered cap false := by
  cases ms with
  | nil => exact covered_of_nil rfl
  | cons m ms => simpa [Covered, registered] using h

/-- Closing the other end uncovers nothing. -/
theorem Covered.hangup (h : c.Covered cap pending) : c.hangup.Covered cap pending := by
  refine h.trans (Nat.mul_le_mul_left cap (Nat.add_le_add_right ?_ _))
  exact Bool.toNat_le _

/-- A pending edge becomes a report, which is not needed when there is nothing to read. -/
theorem Covered.report (h : c.Covered cap false) (hp : pending = false → c.queue = []) :
    c.report.Covered cap pending := by
  cases pending with
  | false => exact covered_of_nil (hp rfl)
  | true =>
      refine h.trans (Nat.mul_le_mul_left cap ?_)
      exact (Bool.toNat_le c.edge).trans (Nat.le_add_left _ _)

/-- If only some edges are reported, a report pending is one of them. -/
theorem Covered.report_if {r : Bool} (h : c.Covered cap false) (hp : pending = true → r = true)
    (hr : r = true → pending = false → c.queue = []) :
    (if r then c.report else c).Covered cap pending := by
  cases r with
  | false =>
      obtain rfl : pending = false := by simpa using hp
      exact h
  | true => exact h.report (hr rfl)

/-- Serving a report reads what it covers. -/
theorem Covered.serve (h : c.Covered cap true) : (c.serve cap).Covered cap false := by
  unfold Covered at h ⊢
  simp only [Inbox.serve, List.length_drop, Bool.toNat_true, Bool.toNat_false, Nat.mul_add] at h ⊢
  omega

/-- Covered, and with nothing to report, an inbox is empty. -/
theorem Covered.drained (h : c.Covered cap false) (he : c.edge = true → c.queue = []) :
    c.queue = [] := by
  cases hc : c.edge with
  | true => exact he hc
  | false =>
      unfold Covered at h
      rw [hc] at h
      simpa using h

end Inbox

/-- Registered descriptors and their edges not reported yet. -/
structure Epoll (α : Type) where
  interest : Finset α
  pending : Finset α
  registered : pending ⊆ interest

namespace Epoll

variable {α : Type} [DecidableEq α] {e : Epoll α} {fd : α} {ready : List α}

/-- A table without descriptors. -/
def create : Epoll α := ⟨∅, ∅, Finset.Subset.refl _⟩

/-- A descriptor with nothing to report yet is registered. -/
def add (e : Epoll α) (fd : α) : Epoll α where
  interest := insert fd e.interest
  pending := e.pending
  registered := e.registered.trans (Finset.subset_insert _ _)

/-- Something arrives at a descriptor. -/
def raise (e : Epoll α) (fd : α) : Epoll α where
  interest := e.interest
  pending := if fd ∈ e.interest then insert fd e.pending else e.pending
  registered := by
    split
    · exact Finset.insert_subset ‹_› e.registered
    · exact e.registered

/-- Edges are reported. -/
def report (e : Epoll α) (ready : List α) : Epoll α where
  interest := e.interest
  pending := e.pending.filter fun fd => fd ∉ ready
  registered := (Finset.filter_subset _ _).trans e.registered

@[simp] theorem interest_raise : (e.raise fd).interest = e.interest := rfl
@[simp] theorem interest_report : (e.report ready).interest = e.interest := rfl

end Epoll

end EdgeTriggered
