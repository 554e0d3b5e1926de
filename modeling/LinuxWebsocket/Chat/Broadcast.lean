import LinuxWebsocket.Chat.Delivery

/-!
# The broadcast

The parent tells where a slot number came from by comparing descriptor numbers. The
pipes in the records in use are open and pairwise different at all times, so the
number goes to every other client once. A descriptor left over in a batch either is
no client's pipe any more or is that of a later client, and then what is read from it
is the later client's own.
-/

namespace LinuxWebsocket

namespace Chat

open EdgeTriggered CompactTable

variable {k : Setup} {s t : System}

/-- What was written, `ws`, when a number read from the pipe of the client in slot `i` went
to the others. -/
structure Parent.PassedOn (s : Parent) (i idx : Nat) (ws : List (Nat × Nat)) : Prop where
  index : ∀ w ∈ ws, w.2 = idx
  /-- Every other registered client's pipe is written to exactly once. -/
  others : ∀ j, j < s.userCount → j ≠ i → (ws.map Prod.fst).count (s.users j).pipefd0 = 1
  /-- The client's own pipe is not. -/
  origin : (s.users i).pipefd0 ∉ ws.map Prod.fst
  /-- No closed pipe is, nor any other descriptor. -/
  pipes : ∀ w ∈ ws, w.1 ∈ s.kernel.fds ∧ ∃ j, j < s.userCount ∧ (s.users j).pipefd0 = w.1

/-- The notice `n` read from the pipe of client `p` went to the pipes of the other clients. -/
structure System.PassedOn (s : System) (p : Proc) (n : Notice) (t : System) : Prop where
  /-- It is the client's own. -/
  sender : n.sender = p.serial
  origin : (t.kids p.serial).up = (s.kids p.serial).up.read ∧
    (t.kids p.serial).down = (s.kids p.serial).down
  others : ∀ q ∈ s.parent.kernel.procs, q ≠ p → (t.kids q.serial).up = (s.kids q.serial).up ∧
    (t.kids q.serial).down = (s.kids q.serial).down.write n

/-- The branch of the pipes for the descriptor `fd` made `t` of `s`. -/
structure System.Broadcast (s : System) (fd : Nat) (t : System) : Prop where
  /-- No entry of a table is changed, and no descriptor is opened or closed. -/
  tables : t.parent.users = s.parent.users ∧ t.parent.subProcess = s.parent.subProcess ∧
    t.parent.userCount = s.parent.userCount ∧ t.parent.kernel = s.parent.kernel
  /-- What is read from the pipe of a registered client goes to all the others. -/
  registered : ∀ i, i < s.parent.userCount → (s.parent.users i).pipefd0 = fd →
    ∃ p ∈ s.parent.kernel.procs, p.record = (s.parent.users i).record ∧
      ∀ n ∈ (s.kids p.serial).up.queue.head?, s.PassedOn p n t ∧
        ∃ ws, t.parent.sent = ws ++ s.parent.sent ∧ s.parent.PassedOn i n.idx ws
  /-- Nothing is forwarded from an empty pipe, or for a descriptor that is no client's. -/
  silent : (∀ p ∈ s.parent.kernel.procs, p.pipe = fd → (s.kids p.serial).up.queue = []) →
    t.parent.sent = s.parent.sent ∧ ∀ c, (t.kids c).down = (s.kids c).down
  /-- Nothing is forwarded on behalf of a client reaped earlier. -/
  reaped : ∀ c, s.proc c = none → ∀ d,
    (t.kids d).down.sent.filter (fun n => n.sender = c) =
      (s.kids d).down.sent.filter fun n => n.sender = c

/-- Registered clients are told apart by their pipes. -/
theorem Inv.pipefd0_injective {s : Parent} (h : Inv k s) {i j : Nat} (hi : i < s.userCount)
    (hj : j < s.userCount) (he : (s.users i).pipefd0 = (s.users j).pipefd0) : i = j := by
  obtain ⟨p, hp, hpr⟩ := h.proc_of_slot hi
  obtain ⟨q, hq, hqr⟩ := h.proc_of_slot hj
  have hpipe : p.pipe = q.pipe :=
    (congrArg Prod.snd hpr).trans (he.trans (congrArg Prod.snd hqr).symm)
  obtain rfl := h.pipe_injective hp hq hpipe
  exact h.index.injective hi hj ((congrArg Prod.fst hpr).symm.trans (congrArg Prod.fst hqr))

/-- The pipes in the records in use are pairwise different. -/
theorem Inv.nodup_pipes {s : Parent} (h : Inv k s) : (s.records.map Prod.snd).Nodup := by
  refine (h.table.map Prod.snd).nodup_iff.mpr ?_
  rw [List.map_map]
  exact h.pipes

/-- A number is written to every other client's pipe exactly once, and nowhere else. -/
theorem Inv.forwards_passedOn {s : Parent} (h : Inv k s) {i : Nat} (hi : i < s.userCount)
    (idx : Nat) : s.PassedOn i idx (s.forwards (s.users i).pipefd0 (some idx)) := by
  have hfst : (s.forwards (s.users i).pipefd0 (some idx)).map Prod.fst =
      ((s.records.map Prod.snd).filter fun x => x ≠ (s.users i).pipefd0).reverse := by
    simp [Parent.forwards, Function.comp_def]
  have hslot {fd : Nat} : fd ∈ s.records.map Prod.snd ↔
      ∃ j, j < s.userCount ∧ (s.users j).pipefd0 = fd := by
    simp [Parent.records, entries, ClientData.record]
  refine ⟨?_, ?_, ?_, ?_⟩
  · intro w hw
    simp only [Parent.forwards, List.mem_reverse, List.mem_map] at hw
    obtain ⟨fd, -, rfl⟩ := hw
    rfl
  · intro j hj hne
    rw [hfst]
    apply List.count_eq_one_of_mem
    · exact List.nodup_reverse.mpr (h.nodup_pipes.filter _)
    · rw [List.mem_reverse, List.mem_filter, decide_eq_true_eq]
      exact ⟨hslot.mpr ⟨j, hj, rfl⟩, fun he => hne (h.pipefd0_injective hj hi he)⟩
  · rw [hfst]
    simp
  · intro w hw
    have hmem : w.1 ∈ s.records.map Prod.snd := by
      have hw' := List.mem_map_of_mem (f := Prod.fst) hw
      rw [hfst, List.mem_reverse] at hw'
      exact (List.mem_filter.mp hw').1
    obtain ⟨j, hj, he⟩ := hslot.mp hmem
    obtain ⟨p, hp, hr⟩ := h.proc_of_slot hj
    have hpipe : p.pipe = w.1 := (congrArg Prod.snd hr).trans he
    exact ⟨hpipe ▸ (h.pipe_mem hp).2, j, hj, he⟩

/-- A turn that forwards nothing. -/
theorem broadcast_silent (h : Inv k s.parent) {fd : Nat}
    (htables : t.parent.users = s.parent.users ∧ t.parent.subProcess = s.parent.subProcess ∧
      t.parent.userCount = s.parent.userCount ∧ t.parent.kernel = s.parent.kernel)
    (hsent : t.parent.sent = s.parent.sent) (hdown : ∀ c, (t.kids c).down = (s.kids c).down)
    (hno : ∀ p ∈ s.parent.kernel.procs, p.pipe = fd → (s.kids p.serial).up.queue = []) :
    s.Broadcast fd t := by
  refine ⟨htables, ?_, fun _ => ⟨hsent, hdown⟩, fun c _ d => by rw [hdown d]⟩
  intro i hi he
  obtain ⟨p, hp, hr⟩ := h.proc_of_slot hi
  refine ⟨p, hp, hr, ?_⟩
  rw [hno p hp ((congrArg Prod.snd hr).trans he)]
  nofun

/-- The parent's read of a pipe leaves the pipes' other direction alone. -/
theorem down_read (c d : Nat) :
    ((s.onKid c fun kid => { kid with up := kid.up.read }).kids d).down = (s.kids d).down := by
  by_cases hd : d = c
  · rw [hd, kids_onKid_self]
  · rw [kids_onKid_of_ne hd]

/-- The children behind the turn that passes `n` on. -/
def System.passOn (s : System) (p : Proc) (n : Notice) : System :=
  (s.onKid p.serial fun kid => { kid with up := kid.up.read }).onKids
    (fun q => q.pipe != p.pipe) fun kid => { kid with down := kid.down.write n }

/-- The notice is read from one pipe and written to all the others. -/
theorem SysInv.passOn (h : SysInv k s) {p : Proc} (hp : p ∈ s.parent.kernel.procs) {n : Notice}
    (hsender : n.sender = p.serial) : s.PassedOn p n (s.passOn p n) := by
  have hread : Inv k (s.onKid p.serial fun kid => { kid with up := kid.up.read }).parent := h.parent
  have hkid (q : Proc) (hq : q ∈ s.parent.kernel.procs) := kids_onKids hread hq
    (fun q => q.pipe != p.pipe) fun kid => { kid with down := kid.down.write n }
  refine ⟨hsender, ?_, ?_⟩
  · have hself := hkid p hp
    rw [bne_self_eq_false, if_neg Bool.false_ne_true, kids_onKid_self] at hself
    rw [System.passOn, hself]
    exact ⟨rfl, rfl⟩
  · intro q hq hne
    have hpipe : q.pipe ≠ p.pipe := fun he => hne (h.parent.pipe_injective hq hp he)
    have hserial : q.serial ≠ p.serial := fun he => hne (h.parent.serial_injective hq hp he)
    have hother := hkid q hq
    rw [bne_iff_ne.mpr hpipe, if_pos rfl, kids_onKid_of_ne hserial] at hother
    rw [System.passOn, hother]
    exact ⟨rfl, rfl⟩

/-- A child is sent the notice that is passed on, or nothing. -/
theorem sent_passOn (p : Proc) (n : Notice) (c : Nat) :
    ((s.passOn p n).kids c).down.sent = (s.kids c).down.sent ++ [n] ∨
      ((s.passOn p n).kids c).down.sent = (s.kids c).down.sent := by
  have hdown := congrArg Channel.sent (down_read (s := s) p.serial c)
  rcases kids_onKids_cases (s := s.onKid p.serial fun kid => { kid with up := kid.up.read })
    (fun q => q.pipe != p.pipe) (fun kid => { kid with down := kid.down.write n }) c with
    ⟨_, _, _, _, he⟩ | he
  · left
    rw [System.passOn, he]
    exact congrArg (· ++ [n]) hdown
  · right
    rw [System.passOn, he]
    exact hdown

/-- Every turn of the branch of the pipes is a broadcast. -/
theorem Delivery.broadcast (h : Delivery k s) (ht : Turn k s .notify t) {fd : Nat}
    {todo : List Nat} (hctl : s.parent.ctl = .batch (fd :: todo)) : s.Broadcast fd t := by
  cases ht with
  | stray hctl' hno hm =>
      obtain ⟨rfl, rfl⟩ : _ ∧ _ := by simpa using hctl'.symm.trans hctl
      obtain rfl := hm.notify_eq hctl'
      refine broadcast_silent h.parent ⟨rfl, rfl, rfl, rfl⟩ ?_ ?_ ?_
      · rfl
      · exact fun _ => rfl
      · exact fun p hp he => absurd he (hno p hp)
  | unread hp hctl' hq hm =>
      obtain ⟨rfl, rfl⟩ : _ ∧ _ := by simpa using hctl'.symm.trans hctl
      obtain rfl := hm.notify_eq hctl'
      refine broadcast_silent h.parent ⟨rfl, rfl, rfl, rfl⟩ ?_ ?_ ?_
      · rfl
      · exact fun c => down_read _ c
      · intro q hq' he
        rw [h.parent.pipe_injective hq' hp he, hq]
  | @passed p _ n _ hp hctl' hn hm =>
      obtain ⟨rfl, rfl⟩ : _ ∧ _ := by simpa using hctl'.symm.trans hctl
      obtain rfl := hm.notify_eq hctl'
      have hsender : n.sender = p.serial := ((h.routed p.serial).up n (List.mem_of_head? hn)).1
      have hpass := h.toSysInv.passOn hp hsender
      refine ⟨⟨rfl, rfl, rfl, rfl⟩, ?_, ?_, ?_⟩
      · intro i hi he
        obtain ⟨q, hq, hr⟩ := h.parent.proc_of_slot hi
        obtain rfl := h.parent.pipe_injective hq hp ((congrArg Prod.snd hr).trans he)
        refine ⟨q, hp, hr, fun m hm' => ?_⟩
        obtain rfl := Option.some.inj (hn.symm.trans hm')
        refine ⟨⟨hpass.sender, hpass.origin, hpass.others⟩, _, rfl, ?_⟩
        rw [← he]
        exact h.parent.forwards_passedOn hi n.idx
      · intro hno
        rw [hno p hp rfl] at hn
        cases hn
      · intro c hc d
        have hne : n.sender ≠ c := by
          rintro rfl
          rw [hsender, proc_eq h.parent hp] at hc
          cases hc
        change ((s.passOn p n).kids d).down.sent.filter (fun n => n.sender = c) = _
        rcases sent_passOn (s := s) p n d with he | he
        · rw [he, List.filter_append, List.filter_singleton]
          simp [hne]
        · rw [he]

/-- In every run, when the parent handles a descriptor that is neither the listening socket
nor the signal pipe, it meets no fault and what it does is a broadcast. -/
theorem notify_broadcasts (k : Setup) (users : Nat → ClientData) {as : List Act} {s : System}
    (h : (system k users).Run as s) {fd : Nat} {todo : List Nat}
    (hctl : s.parent.ctl = .batch (fd :: todo)) (hl : fd ≠ k.listenfd) (hs : fd ≠ k.sigfd) :
    ∃ t, s.step k .notify = .ok t ∧ s.Broadcast fd t := by
  have hd := delivery_of_run h
  have ha : s.Allowed k .notify := ⟨by simp [Parent.at, hctl, hl, hs], trivial⟩
  obtain ⟨t, ht, hturn⟩ := hd.toSysInv.step_turn ha
  exact ⟨t, ht, hd.broadcast hturn hctl⟩

/-- Three clients come, the first one's child is reaped, and the second one says something. -/
def sampleMoved : List Act :=
  sampleArrival 8 9 101 ++ sampleArrival 9 10 102 ++ sampleArrival 10 11 103 ++
    [.parent (.die 101), .parent (.wake [5]), .parent (.signals [.chld]), .parent .byte,
      .parent (.waitpid (some 101)), .parent (.waitpid none), .parent .byte, .parent .endBatch,
      .endBatch 1, .wake 1 [.conn], .receive 1 (some (sampleText 97)), .parent (.wake [9])]

/-- What the second client said is announced to the third, whose record has moved. -/
theorem notify_broadcasts_moved :
    ∃ s, (system sampleSetup fun _ => ⟨0, 0, 0, 0⟩).Run sampleMoved s ∧
      s.parent.ctl = .batch [9] ∧ ∃ t, s.step sampleSetup .notify = .ok t ∧ s.Broadcast 9 t :=
  have ⟨s, hrun, hctl⟩ := Machine.Run.of_exec_map (M := system sampleSetup fun _ => ⟨0, 0, 0, 0⟩)
    (f := fun s => s.parent.ctl) (x := .batch [9]) sampleMoved (by decide) (by decide)
  ⟨s, hrun, hctl, notify_broadcasts _ _ hrun hctl (by decide) (by decide)⟩

end Chat

end LinuxWebsocket
