import LinuxWebsocket.Chat.Ordering
import LinuxWebsocket.Chat.Stranded

/-!
# Every client is served, once and in one order

When nothing is left behind, what a child has received is all that the log of the
broadcast holds for it. A message that any other client sent while a child was there
has then reached it exactly once. If moreover no slot is sent that was left different
since, the buffers sent to a client are these messages, one after the other.
-/

namespace LinuxWebsocket

namespace Chat

open EdgeTriggered TotalOrder

variable {k : Setup} {s t : System} {g : Group Nat Notice}

instance (s : System) : Decidable s.Quiescent :=
  decidable_of_iff (s.parent.ctl = .waiting ∧
      (∀ p ∈ s.parent.kernel.procs, (s.kids p.serial).up.edge = false) ∧
      (∀ p ∈ s.parent.kernel.procs, p.dead = false → (s.kids p.serial).ctl = .waiting) ∧
      ∀ p ∈ s.parent.kernel.procs, p.dead = false → (s.kids p.serial).down.edge = false)
    ⟨fun ⟨h, hu, hk, hd⟩ => ⟨h, hu, hk, hd⟩, fun h => ⟨h.parent, h.up, h.kids, h.down⟩⟩

/-- What was sent to the client of a child, in order. -/
def System.answersTo (s : System) (c : Nat) : List (List UInt8) :=
  ((s.answers.filter fun a => a.1 = c).map Prod.snd).reverse

/-- Clients were sent the messages announced to their children. -/
def System.Answered (s : System) : Prop :=
  ∀ c, s.answersTo c = (s.kids c).down.received.map fun n => zeroPadded n.text.bytes

/-- Nothing is sent to a client, and nothing received by its child. -/
theorem System.Answered.frame (h : s.Answered) (ha : t.answers = s.answers)
    (hk : ∀ c, (t.kids c).down.received = (s.kids c).down.received) : t.Answered := by
  intro c
  rw [hk, ← h c, System.answersTo, System.answersTo, ha]

/-- A slot left as it was holds the message that was announced. -/
theorem Delivery.shm_of_unchanged (h : Delivery k s) {p : Proc} {n : Notice}
    (hq : (s.kids p.serial).down.queue.head? = some n) (hu : s.Unchanged (.answer p.serial)) :
    s.shm n.idx = zeroPadded n.text.bytes := by
  rw [h.shm_eq ((h.routed p.serial).down n (List.mem_of_head? hq)).2]
  cases hf : (s.since n).find? fun w => w.1 = n.idx with
  | none => rfl
  | some w => exact hu n hq w hf

/-- Every turn that sends no slot left different since sends what was announced. -/
theorem System.Answered.turn (h : s.Answered) (hd : Delivery k s) {a : Act} (ht : Turn k s a t)
    (hu : s.Unchanged a) : t.Answered := by
  have honKid {c : Nat} {f : Kid → Kid}
      (hf : (f (s.kids c)).down.received = (s.kids c).down.received) :
      ∀ d, ((s.onKid c f).kids d).down.received = (s.kids d).down.received :=
    forall_onKid (P := fun d kid => kid.down.received = (s.kids d).down.received) (fun _ => rfl) hf
  have honKids {u : System} (hu : ∀ d, (u.kids d).down.received = (s.kids d).down.received)
      {sel : Proc → Bool} {f : Kid → Kid}
      (hf : ∀ kid, (f kid).down.received = kid.down.received) :
      ∀ d, ((u.onKids sel f).kids d).down.received = (s.kids d).down.received :=
    forall_onKids (P := fun d kid => kid.down.received = (s.kids d).down.received) hu
      fun p _ _ => (hf _).trans (hu _)
  cases ht with
  | quiet => exact h.frame rfl fun _ => rfl
  | reported =>
      exact h.frame rfl (honKids (f := fun kid => { kid with up := kid.up.report })
        (fun _ => rfl) fun _ => rfl)
  | died =>
      exact h.frame rfl (honKid (f := fun kid => { kid with up := kid.up.hangup }) rfl)
  | stray => exact h.frame rfl fun _ => rfl
  | unread => exact h.frame rfl (honKid (f := fun kid => { kid with up := kid.up.read }) rfl)
  | @passed p todo n =>
      exact h.frame rfl (honKids (f := fun kid => { kid with down := kid.down.write n })
        (honKid (c := p.serial) (f := fun kid => { kid with up := kid.up.read }) rfl)
        fun _ => rfl)
  | @woke p ready =>
      refine h.frame rfl (honKid ?_)
      by_cases hw : Source.pipe ∈ ready <;> simp [Channel.report, hw]
  | @cleared p todo =>
      exact h.frame rfl (honKid (f := fun kid => { kid with ctl := .batch todo }) rfl)
  | @received p m todo =>
      exact h.frame rfl (honKid (f := fun kid => { kid with
        up := kid.up.write ⟨p.idx, p.serial, m, s.writes.length + 1⟩
        ctl := .batch todo }) rfl)
  | @skipped p todo =>
      exact h.frame rfl (honKid (f := fun kid => { kid with ctl := .batch todo }) rfl)
  | @answered p todo n hp hdead hctl hq =>
      intro c
      have hshm := hd.shm_of_unchanged hq hu
      by_cases hc : c = p.serial
      · subst c
        rw [kids_onKid_self]
        simp only [received_read hq, List.map_append, ← h p.serial, List.map_cons, List.map_nil]
        simp [System.answersTo, System.onKid, hshm]
      · rw [kids_onKid_of_ne hc, ← h c]
        simp [System.answersTo, System.onKid, Ne.symm hc]
  | rested => exact h.frame rfl (honKid rfl)

/-- The server where writes are spaced and slots are sent before they change. -/
def orderly (k : Setup) (users : Nat → ClientData) : Machine System Act Fault :=
  ((edgeSystem k users).restrict System.Spaced).restrict System.Unchanged

instance (k : Setup) (users : Nat → ClientData) (s : System) (a : Act) :
    Decidable ((orderly k users).Allowed s a) :=
  inferInstanceAs (Decidable (((s.Allowed k a ∧ s.Timely a) ∧ s.Spaced a) ∧ s.Unchanged a))

end Chat

end LinuxWebsocket
