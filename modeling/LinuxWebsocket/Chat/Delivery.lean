import LinuxWebsocket.Chat.Turns

/-!
# What clients are sent

A pipe carries the number of a slot, and the slot is read only when the number has
come through two pipes. A client is therefore sent the announced message exactly
when nothing has changed its slot in between: not the sender with a later message
or an empty `recv`, and not another child that was given the same slot.
-/

namespace LinuxWebsocket

namespace Chat

open EdgeTriggered

variable {k : Setup} {s t : System}

/-- The writes since the message of a notice was in its slot, latest first. -/
def System.since (s : System) (n : Notice) : List (Nat × List UInt8) :=
  s.writes.take (s.writes.length - n.stamp)

/-- Whatever the step sends to a client is the announced message, zero-padded, and the
message came from another client. -/
def System.AnswersRight (k : Setup) (s : System) (a : Act) : Prop :=
  ∃ t, s.step k a = .ok t ∧ (t.answers = s.answers ∨ ∃ c n, a = .answer c ∧
    (s.kids c).down.queue.head? = some n ∧
    t.answers = (c, zeroPadded n.text.bytes) :: s.answers ∧ n.sender ≠ c)

/-- If the slot to be sent was written to since the message was in it, the last write left
the same bytes there. -/
def System.Unchanged (s : System) : Act → Prop
  | .answer c => ∀ n ∈ (s.kids c).down.queue.head?,
    ∀ w ∈ (s.since n).find? fun w => w.1 = n.idx, w.2 = zeroPadded n.text.bytes
  | _ => True

instance (s : System) : ∀ a, Decidable (s.Unchanged a)
  | .answer c => inferInstanceAs (Decidable (∀ n ∈ (s.kids c).down.queue.head?,
    ∀ w ∈ (s.since n).find? fun w => w.1 = n.idx, w.2 = zeroPadded n.text.bytes))
  | .parent _ => inferInstanceAs (Decidable True)
  | .notify => inferInstanceAs (Decidable True)
  | .wake .. => inferInstanceAs (Decidable True)
  | .receive .. => inferInstanceAs (Decidable True)
  | .endBatch _ => inferInstanceAs (Decidable True)

/-- The message of a notice is on record where its stamp says. -/
structure Logged (writes : List (Nat × List UInt8)) (n : Notice) : Prop where
  stamp : n.stamp ≤ writes.length
  own : ∃ rest, writes.drop (writes.length - n.stamp) = (n.idx, zeroPadded n.text.bytes) :: rest

/-- A notice stays on record. -/
theorem Logged.cons {writes : List (Nat × List UInt8)} {n : Notice} (h : Logged writes n)
    (w : Nat × List UInt8) : Logged (w :: writes) n := by
  have hlen : (w :: writes).length - n.stamp = writes.length - n.stamp + 1 := by
    have := h.stamp
    rw [List.length_cons]
    omega
  refine ⟨Nat.le_succ_of_le h.stamp, ?_⟩
  rw [hlen, List.drop_succ_cons]
  exact h.own

/-- A notice is put on record by the write it announces. -/
theorem logged_self {writes : List (Nat × List UInt8)} {n : Notice}
    (hn : n.stamp = writes.length + 1) :
    Logged ((n.idx, zeroPadded n.text.bytes) :: writes) n := by
  refine ⟨by rw [hn]; exact le_rfl, writes, ?_⟩
  rw [hn, List.length_cons, Nat.sub_self, List.drop_zero]

/-- The pipes of child `c`: its own notices on the way to the parent, those of others on
the way back. -/
structure Routed (writes : List (Nat × List UInt8)) (c : Nat) (kid : Kid) : Prop where
  up : ∀ n ∈ kid.up.queue, n.sender = c ∧ Logged writes n
  down : ∀ n ∈ kid.down.queue, n.sender ≠ c ∧ Logged writes n

/-- More writes leave the pipes routed. -/
theorem Routed.cons {writes : List (Nat × List UInt8)} {c : Nat} {kid : Kid}
    (h : Routed writes c kid) (w : Nat × List UInt8) : Routed (w :: writes) c kid :=
  ⟨fun n hn => ⟨(h.up n hn).1, (h.up n hn).2.cons w⟩,
    fun n hn => ⟨(h.down n hn).1, (h.down n hn).2.cons w⟩⟩

/-- What is true of slots and notices at all times. -/
structure Delivery (k : Setup) (s : System) : Prop extends SysInv k s where
  /-- A slot holds what was last written to it. -/
  slot : ∀ i, ∀ w ∈ s.writes.find? fun w => w.1 = i, s.shm i = w.2
  routed : ∀ c, Routed s.writes c (s.kids c)

/-- The server starts that way. -/
theorem delivery_start (k : Setup) (users : Nat → ClientData) : Delivery k (.start k users) :=
  ⟨sysInv_start k users, by simp [System.start], fun _ =>
    ⟨by simp [System.start, Kid.forked], by simp [System.start, Kid.forked]⟩⟩

/-- The slot of a notice on record holds the last write since, or the notice's message. -/
theorem Delivery.shm_eq (h : Delivery k s) {n : Notice} (hn : Logged s.writes n) :
    s.shm n.idx = (((s.since n).find? fun w => w.1 = n.idx).map Prod.snd).getD
      (zeroPadded n.text.bytes) := by
  obtain ⟨rest, hown⟩ := hn.own
  have hsplit : s.writes = s.since n ++ (n.idx, zeroPadded n.text.bytes) :: rest := by
    rw [← hown]
    exact (List.take_append_drop _ _).symm
  have hfind : (s.writes.find? fun w => w.1 = n.idx) =
      ((s.since n).find? fun w => w.1 = n.idx).or (some (n.idx, zeroPadded n.text.bytes)) := by
    rw [hsplit, List.find?_append, List.find?_cons_of_pos (by simp)]
  have hslot := h.slot n.idx
  rw [hfind] at hslot
  cases hs : (s.since n).find? fun w => w.1 = n.idx with
  | none =>
      rw [hs] at hslot
      exact hslot _ rfl
  | some w =>
      rw [hs] at hslot
      exact hslot _ rfl

/-- A change to one child that keeps its pipes routed. -/
theorem Delivery.onKid (h : Delivery k s) {p : Proc} (hp : p ∈ s.parent.kernel.procs)
    {f : Kid → Kid} (hc : (f (s.kids p.serial)).Carries)
    (hf : Routed s.writes p.serial (f (s.kids p.serial))) : Delivery k (s.onKid p.serial f) :=
  ⟨h.toSysInv.onKid hp hc, h.slot, forall_onKid (P := Routed s.writes) h.routed hf⟩

/-- A change to one child that does not touch its queues. -/
theorem Delivery.quiet (h : Delivery k s) {p : Proc} (hp : p ∈ s.parent.kernel.procs)
    {f : Kid → Kid} (hu : (f (s.kids p.serial)).up.queue = (s.kids p.serial).up.queue)
    (hd : (f (s.kids p.serial)).down.queue = (s.kids p.serial).down.queue) :
    Delivery k (s.onKid p.serial f) := by
  refine h.onKid hp ⟨?_, ?_⟩ ⟨?_, ?_⟩
  · rw [hu]
    exact (h.carries _).up
  · rw [hd]
    exact (h.carries _).down
  · rw [hu]
    exact (h.routed _).up
  · rw [hd]
    exact (h.routed _).down

/-- The parent's read of a pipe. -/
theorem Delivery.read (h : Delivery k s) {p : Proc} (hp : p ∈ s.parent.kernel.procs) :
    Delivery k (s.onKid p.serial fun kid => { kid with up := kid.up.read }) :=
  h.onKid hp ⟨fun n hn => (h.carries _).up n (List.mem_of_mem_drop hn), (h.carries _).down⟩
    ⟨fun n hn => (h.routed _).up n (List.mem_of_mem_drop hn), (h.routed _).down⟩

/-- A step of the parent beside the pipes. -/
theorem Delivery.move (h : Delivery k s) {e : Event} {u : Parent} (hm : Move k s.parent e u) :
    Delivery k { s with parent := u } :=
  ⟨h.toSysInv.move hm, h.slot, h.routed⟩

/-- Writing to a slot keeps slots and notices as they should be. -/
theorem Delivery.fill (h : Delivery k s) {i : Nat} {bytes : List UInt8} :
    Delivery k (s.fill i bytes) := by
  refine ⟨h.toSysInv.fill, ?_, fun c => (h.routed c).cons _⟩
  intro j w hw
  by_cases hij : i = j
  · subst j
    have hfirst : w = (i, zeroPadded bytes) := by simpa [System.fill, eq_comm] using hw
    rw [hfirst]
    exact Function.update_self ..
  · have hrest : (s.writes.find? fun w => w.1 = j) = some w := by
      simpa [System.fill, hij] using hw
    exact (Function.update_of_ne (fun he => hij he.symm) ..).trans (h.slot j w hrest)

/-- Every turn keeps slots and notices as they should be. -/
theorem Delivery.turn (h : Delivery k s) {a : Act} (ht : Turn k s a t) : Delivery k t := by
  have hinv := h.toSysInv.turn ht
  cases ht with
  | quiet hm => exact h.move hm
  | @reported ready u hm =>
      have hk : Delivery k (s.onKids (fun p => ready.contains p.pipe) fun kid =>
          { kid with up := kid.up.report }) :=
        ⟨h.toSysInv.onKids fun c => ⟨(h.carries c).up, (h.carries c).down⟩, h.slot,
          forall_onKids (P := Routed s.writes) h.routed fun p _ _ =>
            ⟨(h.routed p.serial).up, (h.routed p.serial).down⟩⟩
      exact hk.move hm
  | @died p hp hdead =>
      have hk : Delivery k (s.onKid p.serial fun kid => { kid with up := kid.up.hangup }) :=
        h.quiet hp rfl rfl
      exact hk.move (.die hp hdead)
  | stray _ _ hm => exact h.move hm
  | unread hp _ _ hm => exact (h.read hp).move hm
  | @passed p todo n u hp hctl hn hm =>
      obtain ⟨hsender, hlog⟩ := (h.routed p.serial).up n (List.mem_of_head? hn)
      have hsent : ∀ c, Routed s.writes c
          (((s.onKid p.serial fun kid => { kid with up := kid.up.read }).onKids
            (fun q => q.pipe != p.pipe) fun kid =>
              { kid with down := kid.down.write n }).kids c) := by
        apply forall_onKids (P := Routed s.writes) (h.read hp).routed
        intro q hq hsel
        refine ⟨((h.read hp).routed q.serial).up, ?_⟩
        intro m hmem
        rcases List.mem_append.mp hmem with hmem | hmem
        · exact ((h.read hp).routed q.serial).down m hmem
        · obtain rfl := List.mem_singleton.mp hmem
          refine ⟨fun he => ?_, hlog⟩
          -- a notice is not written to the pipe it came from
          have hqp := h.parent.serial_injective hq hp (he.symm.trans hsender)
          rw [hqp, bne_self_eq_false] at hsel
          cases hsel
      exact ⟨hinv, h.slot, hsent⟩
  | @woke p ready hp =>
      apply h.quiet hp rfl
      by_cases hw : Source.pipe ∈ ready <;> simp [hw]
  | @cleared p todo hp =>
      have hk : Delivery k (s.onKid p.serial fun kid => { kid with ctl := .batch todo }) :=
        h.quiet hp rfl rfl
      exact hk.fill
  | @received p m todo hp =>
      have hfill : Delivery k (s.fill p.idx m.bytes) := h.fill
      refine ⟨hinv, hfill.slot, forall_onKid (P := Routed (s.fill p.idx m.bytes).writes)
        hfill.routed ⟨?_, (hfill.routed p.serial).down⟩⟩
      intro n hn
      rcases List.mem_append.mp hn with hn | hn
      · exact (hfill.routed p.serial).up n hn
      · obtain rfl := List.mem_singleton.mp hn
        exact ⟨rfl, logged_self (n := ⟨p.idx, p.serial, m, s.writes.length + 1⟩) rfl⟩
  | @skipped p todo hp => exact h.quiet hp rfl rfl
  | @answered p todo n hp =>
      have hsent : Delivery k { s with answers := (p.serial, s.shm n.idx) :: s.answers } :=
        ⟨⟨h.parent, h.fresh, h.carries⟩, h.slot, h.routed⟩
      exact hsent.onKid hp
        ⟨(h.carries _).up, fun m hm => (h.carries _).down m (List.mem_of_mem_drop hm)⟩
        ⟨(h.routed _).up, fun m hm => (h.routed _).down m (List.mem_of_mem_drop hm)⟩
  | @rested p hp => exact h.quiet hp rfl rfl

/-- Slots and notices are as they should be in every run. -/
theorem delivery_of_run {users : Nat → ClientData} {as : List Act} (h : (system k users).Run as s) :
    Delivery k s := by
  apply h.invariant (delivery_start k users)
  intro s a t hi ha hs
  exact hi.turn (hi.toSysInv.turn_of_step ha hs)

/-- A step sends the right thing exactly when the slot it sends is unchanged. -/
theorem answersRight_iff (h : Delivery k s) {a : Act} (ha : s.Allowed k a) :
    s.AnswersRight k a ↔ s.Unchanged a := by
  obtain ⟨t, ht, hturn⟩ := h.toSysInv.step_turn ha
  have hiff : s.AnswersRight k a ↔ (t.answers = s.answers ∨ ∃ c n, a = .answer c ∧
      (s.kids c).down.queue.head? = some n ∧
      t.answers = (c, zeroPadded n.text.bytes) :: s.answers ∧ n.sender ≠ c) := by
    simp only [System.AnswersRight, ht, Except.ok.injEq, exists_eq_left']
  rw [hiff]
  cases hturn with
  | quiet => exact iff_of_true (Or.inl rfl) trivial
  | reported => exact iff_of_true (Or.inl rfl) trivial
  | died => exact iff_of_true (Or.inl rfl) trivial
  | stray => exact iff_of_true (Or.inl rfl) trivial
  | unread => exact iff_of_true (Or.inl rfl) trivial
  | passed => exact iff_of_true (Or.inl rfl) trivial
  | woke => exact iff_of_true (Or.inl rfl) trivial
  | cleared => exact iff_of_true (Or.inl rfl) trivial
  | received => exact iff_of_true (Or.inl rfl) trivial
  | skipped hp hdead hctl hq =>
      apply iff_of_true (Or.inl rfl)
      simp [System.Unchanged, hq]
  | @answered p todo n hp hdead hctl hq =>
      obtain ⟨hsender, hlog⟩ := (h.routed p.serial).down n (List.mem_of_head? hq)
      have hshm := h.shm_eq hlog
      have hun : s.Unchanged (.answer p.serial) ↔ s.shm n.idx = zeroPadded n.text.bytes := by
        simp only [System.Unchanged, hq, Option.mem_def, Option.some.injEq, forall_eq']
        rw [hshm]
        cases (s.since n).find? fun w => w.1 = n.idx <;> simp
      rw [hun]
      constructor
      · rintro (hsame | ⟨c, n', hc, hq', hans, -⟩)
        · exact absurd (congrArg List.length hsame) (by simp [System.onKid])
        · obtain rfl := Act.answer.inj hc
          obtain rfl := Option.some.inj (hq.symm.trans hq')
          exact congrArg Prod.snd (List.cons.inj hans).1
      · intro he
        exact Or.inr ⟨p.serial, n, rfl, hq, by rw [← he]; rfl, hsender⟩
  | rested => exact iff_of_true (Or.inl rfl) trivial

/-- In every run, whatever is sent to a client is the message whose receipt produced the
notification, zero-padded, and from another client, if and only if no slot is sent that
was left different since. -/
theorem deliveries_right_iff (k : Setup) (users : Nat → ClientData) (as : List Act)
    (ha : (system k users).Along (system k users).Allowed (.start k users) as) :
    (system k users).Along (System.AnswersRight k) (.start k users) as ↔
      (system k users).Along System.Unchanged (.start k users) as := by
  refine Machine.along_iff (M := system k users) (I := Delivery k)
    (fun s a hi hallowed => answersRight_iff hi hallowed) ?_ (delivery_start k users) ha
  intro s a t hi hallowed _ hs
  exact hi.turn (hi.toSysInv.turn_of_step hallowed hs)

/-- Two clients come, and the first one's message reaches the second one. -/
theorem deliveries_right_single :
    (system sampleSetup fun _ => ⟨0, 0, 0, 0⟩).Along (System.AnswersRight sampleSetup)
      (.start sampleSetup fun _ => ⟨0, 0, 0, 0⟩)
      (sampleArrival 8 9 101 ++ sampleArrival 9 10 102 ++ .endBatch 0 :: sampleMessage 0 8 97 ++
        [.endBatch 1, .wake 1 [.pipe], .answer 1, .endBatch 1]) :=
  (deliveries_right_iff _ _ _ (by decide)).mpr (by decide)

/-- The first of two clients sends a second message before the second one was sent the first. -/
theorem delivery_overwritten :
    ∃ s, (system sampleSetup fun _ => ⟨0, 0, 0, 0⟩).Run
      (sampleArrival 8 9 101 ++ sampleArrival 9 10 102 ++ .endBatch 0 :: sampleMessage 0 8 97 ++
        [.wake 0 [.conn], .receive 0 (some (sampleText 98)), .endBatch 1, .wake 1 [.pipe]]) s ∧
      s.Allowed sampleSetup (.answer 1) ∧ ¬s.AnswersRight sampleSetup (.answer 1) := by
  refine ⟨_, Machine.Run.of_exec _ (by decide) rfl, by decide, ?_⟩
  rintro ⟨t, ht, hsent⟩
  obtain rfl := Except.ok.inj ht
  rcases hsent with hnone | ⟨c, n, hc, hn, hans, -⟩
  · exact absurd (congrArg List.length hnone) (by decide)
  · obtain rfl := Act.answer.inj hc
    obtain rfl := Option.some.inj hn
    have hfirst := congrArg (fun l => l.head?.map fun w : Nat × List UInt8 => w.2.head?) hans
    exact absurd hfirst (by decide)

end Chat

end LinuxWebsocket
