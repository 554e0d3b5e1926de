import LinuxWebsocket.Lib.EdgeTriggered

/-!
# The self-pipe

A process catches signals in a handler that does nothing but write the signal's number
to a pipe, and the other end of the pipe is watched by the process's own event loop,
which reads some bytes for each report and handles them one by one. A signal that was
sent is owed until the loop handles it: it is still pending, or its byte is in the pipe,
or it is in hand. A process at rest owes nothing.
-/

open EdgeTriggered

/-- The signals of one process, from the sender to the loop. -/
structure SelfPipe (σ : Type) where
  /-- Sent and not delivered yet; equal signals merge. -/
  pending : Finset σ
  /-- Delivered, oldest first. -/
  caught : List σ
  /-- The pipe, as the loop sees it. -/
  inbox : Inbox σ
  /-- Read and not handled yet. -/
  hand : List σ
  /-- Handled, oldest first. -/
  handled : List σ
  /-- Signals are handled in the order in which they were delivered, each once. -/
  flow : caught = handled ++ hand ++ inbox.queue

namespace SelfPipe

variable {σ : Type} {p : SelfPipe σ} {x y : σ} {cap : Nat}

theorem flow_empty : ([] : List σ) = [] ++ [] ++ (Inbox.empty : Inbox σ).queue := rfl

/-- Nothing was sent. -/
def empty : SelfPipe σ := ⟨∅, [], .empty, [], [], flow_empty⟩

/-- The loop is told that there is something to read. -/
def report (p : SelfPipe σ) : SelfPipe σ := { p with inbox := p.inbox.report }

/-- The loop reads at most `cap` bytes. -/
def recv (p : SelfPipe σ) (cap : Nat) : SelfPipe σ where
  pending := p.pending
  caught := p.caught
  inbox := p.inbox.serve cap
  hand := p.hand ++ p.inbox.queue.take cap
  handled := p.handled
  flow := by
    simp only [Inbox.serve, p.flow, List.append_assoc, List.take_append_drop]

/-- The loop handles the next byte in hand. -/
def handle (p : SelfPipe σ) : SelfPipe σ where
  pending := p.pending
  caught := p.caught
  inbox := p.inbox
  hand := p.hand.drop 1
  handled := p.handled ++ p.hand.take 1
  flow := by
    rw [p.flow, List.append_assoc p.handled (p.hand.take 1), List.take_append_drop]

/-- With nothing in hand there is nothing to handle. -/
theorem handle_of_nil (h : p.hand = []) : p.handle = p := by
  obtain ⟨pending, caught, inbox, hand, handled, flow⟩ := p
  obtain rfl : hand = [] := h
  simp [handle]

/-- The signal was sent and not handled yet. -/
def Owed (p : SelfPipe σ) (x : σ) : Prop := x ∈ p.pending ∨ x ∈ p.inbox.queue ∨ x ∈ p.hand

@[simp] theorem hand_report : p.report.hand = p.hand := rfl
@[simp] theorem hand_recv : (p.recv cap).hand = p.hand ++ p.inbox.queue.take cap := rfl
@[simp] theorem hand_handle : p.handle.hand = p.hand.drop 1 := rfl
@[simp] theorem handled_report : p.report.handled = p.handled := rfl
@[simp] theorem handled_recv : (p.recv cap).handled = p.handled := rfl
@[simp] theorem handled_handle : p.handle.handled = p.handled ++ p.hand.take 1 := rfl
@[simp] theorem inbox_report : p.report.inbox = p.inbox.report := rfl
@[simp] theorem inbox_recv : (p.recv cap).inbox = p.inbox.serve cap := rfl
@[simp] theorem inbox_handle : p.handle.inbox = p.inbox := rfl

/-- Being told of something to read settles nothing. -/
@[simp] theorem owed_report : p.report.Owed x ↔ p.Owed x := Iff.rfl

/-- Reading settles nothing. -/
@[simp] theorem owed_recv : (p.recv cap).Owed x ↔ p.Owed x := by
  have hqueue : x ∈ p.inbox.queue ↔ x ∈ p.inbox.queue.take cap ∨ x ∈ p.inbox.queue.drop cap := by
    rw [← List.mem_append, List.take_append_drop]
  simp only [Owed, recv, Inbox.serve, List.mem_append, hqueue]
  tauto

/-- Handling a byte settles at most that signal. -/
theorem Owed.handle (h : p.Owed x) (hx : p.hand.head? ≠ some x) : p.handle.Owed x := by
  rcases h with h | h | h
  · exact Or.inl h
  · exact Or.inr (Or.inl h)
  · right; right
    obtain ⟨y, rest, hy⟩ := List.exists_cons_of_ne_nil (List.ne_nil_of_mem h)
    rw [hy] at h hx
    simp only [SelfPipe.handle, hy, List.drop_one, List.tail_cons]
    refine (List.mem_cons.mp h).resolve_left fun he => hx ?_
    rw [he]
    rfl

/-- At rest nothing is owed: nothing is pending or in hand, and what is in the pipe would
have been reported. -/
theorem not_owed (hp : p.pending = ∅) (hc : p.inbox.Covered cap false) (he : p.inbox.edge = false)
    (hh : p.hand = []) : ¬p.Owed x := by
  have hq : p.inbox.queue = [] := hc.drained fun ht => by simp [he] at ht
  simp [Owed, hp, hq, hh]

variable [DecidableEq σ]

/-- A signal is sent. -/
def post (p : SelfPipe σ) (x : σ) : SelfPipe σ := { p with pending := insert x p.pending }

/-- A signal is delivered, and its handler writes to the pipe. -/
def deliver (p : SelfPipe σ) (x : σ) : SelfPipe σ where
  pending := p.pending.erase x
  caught := p.caught ++ [x]
  inbox := p.inbox.arrive [x]
  hand := p.hand
  handled := p.handled
  flow := by rw [p.flow, Inbox.arrive, List.append_assoc (p.handled ++ p.hand)]

@[simp] theorem hand_post : (p.post x).hand = p.hand := rfl
@[simp] theorem hand_deliver : (p.deliver x).hand = p.hand := rfl
@[simp] theorem handled_post : (p.post x).handled = p.handled := rfl
@[simp] theorem handled_deliver : (p.deliver x).handled = p.handled := rfl
@[simp] theorem inbox_post : (p.post x).inbox = p.inbox := rfl
@[simp] theorem inbox_deliver : (p.deliver x).inbox = p.inbox.arrive [x] := rfl

/-- Whatever is sent is owed, and all that was owed before. -/
theorem owed_post : (p.post y).Owed x ↔ x = y ∨ p.Owed x := by
  simp only [Owed, post, Finset.mem_insert, or_assoc]

/-- Delivery only moves a signal on. -/
theorem Owed.deliver (h : p.Owed x) : (p.deliver y).Owed x := by
  rcases h with h | h | h
  · by_cases hxy : x = y
    · exact Or.inr (Or.inl (by simp [SelfPipe.deliver, Inbox.arrive, hxy]))
    · exact Or.inl (Finset.mem_erase.mpr ⟨hxy, h⟩)
  · exact Or.inr (Or.inl (List.mem_append_left _ h))
  · exact Or.inr (Or.inr h)

end SelfPipe
