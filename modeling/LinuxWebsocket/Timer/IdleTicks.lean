import LinuxWebsocket.Timer.IdlePairing

/-!
# Which clients a tick closes

A client is idle once its last activity is three time slots back. With a clock
that never runs backwards every renewed timer expires last, so a list in order
stays in order and a tick closes exactly the idle clients. The list, however, has
no place for a second timer that expires no earlier than the first: with such a
clock a second simultaneous client is a null pointer.
-/

namespace LinuxWebsocket

namespace Idle

open SortTimerLst

variable {k : Setup} {s t : Server} {xs ys : List Ptr}

/-- The clock reading an event brings. -/
def Event.reading : Event → Option Int
  | .accept _ _ now => some now
  | .recv _ now => some now
  | .endBatch now => some now
  | _ => none

/-- The clock does not run backwards. -/
def Server.Forward (s : Server) (e : Event) : Prop := ∀ now ∈ e.reading, s.clock ≤ now

instance (s : Server) (e : Event) : Decidable (s.Forward e) :=
  inferInstanceAs (Decidable (∀ now ∈ e.reading, s.clock ≤ now))

/-- The server under a clock that does not run backwards. -/
def forwardMachine (k : Setup) (users : Nat → ClientData) (clock : Int) :
    Machine Server Event Fault :=
  (machine k users clock).restrict Server.Forward

instance (k : Setup) (users : Nat → ClientData) (clock : Int) (s : Server) (e : Event) :
    Decidable ((forwardMachine k users clock).Allowed s e) :=
  inferInstanceAs (Decidable (s.Allowed k e ∧ s.Forward e))

/-- From `s` to `t`, a tick at `cur` closed exactly the idle clients. -/
structure ClosesIdle (s t : Server) (cur : Int) : Prop where
  /-- The clients still open are those active after `cur - 3 * TIMESLOT`. -/
  kept : ∀ fd, fd ∈ t.fds.clients ↔ fd ∈ s.fds.clients ∧ cur - 3 * timeslot < s.active fd
  /-- `cb_func` was run once on the record of every other client, and on no other record. -/
  called : ∃ ran, t.fds.called = ran ++ s.fds.called ∧ ran.Nodup ∧
    ∀ fd, fd ∈ ran ↔ fd ∈ s.fds.clients ∧ s.active fd ≤ cur - 3 * timeslot
  /-- Every client still open has its timer listed. -/
  paired : t.Paired

/-- The step meets no memory error, and if it ticks it closes exactly the idle clients. -/
def Server.TicksRight (k : Setup) (s : Server) (e : Event) : Prop :=
  ∃ t, s.step k e = .ok t ∧ ∀ cur, e = .endBatch cur → s.timeout = true → ClosesIdle s t cur

/-- A client is accepted only with a record in `users`, and while no other is open. -/
def Server.Alone (s : Server) : Event → Prop
  | .accept connfd _ _ => s.fds.clients = ∅ ∧ 0 ≤ connfd ∧ connfd < fdLimit
  | _ => True

instance (s : Server) : ∀ e, Decidable (s.Alone e)
  | .accept connfd _ _ =>
    inferInstanceAs (Decidable (s.fds.clients = ∅ ∧ 0 ≤ connfd ∧ connfd < fdLimit))
  | .wake _ => inferInstanceAs (Decidable True)
  | .fail => inferInstanceAs (Decidable True)
  | .signals _ => inferInstanceAs (Decidable True)
  | .recv .. => inferInstanceAs (Decidable True)
  | .skip => inferInstanceAs (Decidable True)
  | .endBatch _ => inferInstanceAs (Decidable True)

/-- Every listed timer expires three time slots after its client was last active,
which was not in the future. -/
def Dated (s : Server) (xs : List Ptr) : Prop :=
  ∀ p ∈ xs, s.timerLst.expireOf p = s.active (s.timerLst.userDataOf p) + 3 * timeslot ∧
    s.active (s.timerLst.userDataOf p) ≤ s.clock

/-- In a list in order of expiry, cut at the first timer still to expire, the timers in
front of the cut are those of the idle clients. -/
theorem Dated.fired_iff {fired rest : List Ptr} (hd : Dated s (fired ++ rest))
    (hsort : (fired ++ rest).Pairwise fun p q => s.timerLst.expireOf p ≤ s.timerLst.expireOf q)
    {cur : Int} (hfired : ∀ p ∈ fired, s.timerLst.expireOf p ≤ cur)
    (hrest : ∀ p, rest.head? = some p → cur < s.timerLst.expireOf p) {p : Ptr}
    (hp : p ∈ fired ++ rest) :
    p ∈ fired ↔ s.active (s.timerLst.userDataOf p) ≤ cur - 3 * timeslot := by
  have hlate : ∀ p ∈ rest, cur < s.timerLst.expireOf p :=
    not_due_of_head (List.pairwise_append.mp hsort).2.1 hrest
  have hpd := (hd p hp).1
  constructor
  · intro hf
    have := hfired p hf
    omega
  · intro ha
    rcases List.mem_append.mp hp with hf | hr
    · exact hf
    · have := hlate p hr
      omega

/-- The timers cut off serve the idle clients. -/
theorem Pairs.served_iff {fired rest : List Ptr} (h : Pairs s (fired ++ rest)) {bound : Int}
    (hidle : ∀ p ∈ fired ++ rest,
      (p ∈ fired ↔ s.active (s.timerLst.userDataOf p) ≤ bound)) (fd : Nat) :
    fd ∈ fired.map s.timerLst.userDataOf ↔ fd ∈ s.fds.clients ∧ s.active fd ≤ bound := by
  rw [List.mem_map]
  constructor
  · rintro ⟨p, hp, rfl⟩
    have hpx : p ∈ fired ++ rest := List.mem_append_left _ hp
    obtain ⟨e, c, fd, hfd, hdata, -⟩ := h.timer p hpx
    have hpfd : s.timerLst.userDataOf p = fd := by simp [userDataOf, hdata]
    exact ⟨hpfd ▸ hfd, (hidle p hpx).mp hp⟩
  · rintro ⟨hfd, ha⟩
    obtain ⟨p, hp, e, c, hdata⟩ := h.client fd hfd
    have hpfd : s.timerLst.userDataOf p = fd := by simp [userDataOf, hdata]
    exact ⟨p, (hidle p hp).mpr (hpfd ▸ ha), hpfd⟩

/-- On a list in order of expiry a tick closes exactly the idle clients. -/
theorem timerHandler_closesIdle (h : Pairs s xs) (hd : Dated s xs)
    (hsort : xs.Pairwise fun p q => s.timerLst.expireOf p ≤ s.timerLst.expireOf q) {cur : Int}
    (hrun : timerHandler s cur = .ok t) (hp : t.Paired) : ClosesIdle s t cur := by
  obtain ⟨fired, rest, m, rfl, hfired, hrest, hrun', -, -⟩ := timerHandler_spec h cur
  obtain rfl := Except.ok.inj (hrun'.symm.trans hrun)
  have hmem := h.served_iff fun p hp => hd.fired_iff hsort hfired hrest hp
  refine ⟨?_, ⟨(fired.map s.timerLst.userDataOf).reverse, rfl, ?_, ?_⟩, hp⟩
  · intro fd
    simp only [Finset.mem_sdiff, List.mem_toFinset, hmem]
    constructor
    · rintro ⟨hfd, hno⟩
      exact ⟨hfd, by by_contra hle; exact hno ⟨hfd, by omega⟩⟩
    · rintro ⟨hfd, hlt⟩
      exact ⟨hfd, fun hle => by omega⟩
  · rw [List.nodup_reverse]
    refine List.Nodup.map_on ?_ (List.nodup_append.mp h.lists.nodup).1
    intro p hp q hq he
    exact h.injective (List.mem_append_left _ hp) (List.mem_append_left _ hq) he
  · intro fd
    rw [List.mem_reverse]
    exact hmem fd

/-- The invariant of the runs with one client at a time. -/
def Single (k : Setup) (s : Server) : Prop :=
  ∃ xs, Inv k s xs ∧ Dated s xs ∧ xs.length ≤ 1

/-- Without a client no timer is listed. -/
theorem Pairs.eq_nil (h : Pairs s xs) (hempty : s.fds.clients = ∅) : xs = [] := by
  apply List.eq_nil_iff_forall_not_mem.mpr
  intro q hq
  obtain ⟨-, -, fd, hfd, -⟩ := h.timer q hq
  simp [hempty] at hfd

/-- With a client open, the clock has the next timer expire no earlier than its timer. -/
theorem added_none_of_open (h : Pairs s xs) (hd : Dated s xs) (hlen : xs.length ≤ 1)
    (hopen : s.fds.clients ≠ ∅) {p : Ptr} (hp : ¬s.timerLst.Alloc p) {fd : Nat} {now : Int}
    (hnow : s.clock ≤ now) :
    (s.timerLst.new p (now + 3 * timeslot) 0 fd).added p xs = none := by
  obtain ⟨fd', hfd'⟩ := Finset.nonempty_iff_ne_empty.mpr hopen
  obtain ⟨q, hq, -⟩ := h.client fd' hfd'
  obtain ⟨x, rfl⟩ : ∃ x, xs = [x] := List.length_eq_one_iff.mp (by
    have := List.length_pos_of_mem hq
    omega)
  have hxp : x ≠ p := fun he => hp (he ▸ h.lists.alloc x (by simp))
  have hx := expireOf_update (m := s.timerLst)
    (data_new (e := now + 3 * timeslot) (c := 0) (u := fd))
    hxp
  have hdx := hd x (by simp)
  have hpe : (s.timerLst.new p (now + 3 * timeslot) 0 fd).expireOf p = now + 3 * timeslot := by
    simp [expireOf]
  have hnot : ¬now + 3 * timeslot <
      s.active (s.timerLst.userDataOf x) + 3 * timeslot := by omega
  simp [added, hx, hpe, hdx.1, hnot]

/-- An `accept` is right exactly when the record is in range and no client is open. -/
theorem Single.accept_iff (h : Single k s) {connfd now : Int} {p : Ptr}
    (ha : s.Allowed k (.accept connfd p now)) (hf : s.Forward (.accept connfd p now)) :
    s.TicksRight k (.accept connfd p now) ↔ s.Alone (.accept connfd p now) := by
  obtain ⟨xs, hi, hd, hlen⟩ := h
  obtain ⟨todo, hctl⟩ := Server.at_accept ha.1
  have hnext := (hi.next hctl).1
  have hp := ha.2.1
  have hnow : s.clock ≤ now := hf now rfl
  have hstep : s.step k (.accept connfd p now) =
      acceptBranch { s with ctl := .batch todo } connfd p now := by
    simp [Server.step, hctl]
  constructor
  · rintro ⟨t, ht, -⟩
    by_contra hno
    have hplace : connfd < 0 ∨ fdLimit ≤ connfd ∨
        (s.timerLst.new p (now + 3 * timeslot) 0 connfd.toNat).added p xs = none := by
      by_cases hr : connfd < 0 ∨ (fdLimit : Int) ≤ connfd
      · tauto
      · refine Or.inr (Or.inr (added_none_of_open hi.toPairs hd hlen ?_ hp hnow))
        intro hempty
        exact hno ⟨hempty, by omega, by omega⟩
    rw [hstep] at ht
    rcases acceptBranch_fault hnext.lists hplace hp with hx | hx <;> rw [hx] at ht <;> cases ht
  · rintro ⟨hempty, h0, hlim⟩
    obtain ⟨fd, rfl⟩ : ∃ fd : Nat, connfd = fd := ⟨connfd.toNat, by omega⟩
    obtain rfl := hi.toPairs.eq_nil hempty
    have hadd : (s.timerLst.new p (now + 3 * timeslot) 0 fd).added p [] = some [p] := rfl
    obtain ⟨t, ht, -⟩ := hnext.accept (by omega) hp
      (by simpa using ha.2.2.resolve_left (by omega)) hadd
    exact ⟨t, by rw [hstep, ht], by simp⟩

/-- With at most one client every tick is right. -/
theorem Single.endBatch (h : Single k s) {now : Int} (ha : s.Allowed k (.endBatch now)) :
    s.TicksRight k (.endBatch now) := by
  obtain ⟨xs, hi, hd, hlen⟩ := h
  have hctl := Server.at_endBatch ha.1
  rcases hi.step ha with ⟨t, ys, ht, hit⟩ | ⟨_, _, _, he, -⟩
  · refine ⟨t, ht, ?_⟩
    rintro _ ⟨rfl⟩ hto
    obtain ⟨t', ys', ht', -⟩ := hi.tick hctl now
    have hrun : s.step k (.endBatch now) = .ok { t' with
        timeout := false, ctl := if t'.stopServer then .left else .waiting } := by
      simp [Server.step, hctl, timeoutBranch, hto, ht']
    obtain rfl := Except.ok.inj (hrun.symm.trans ht)
    have hsort : xs.Pairwise fun p q => s.timerLst.expireOf p ≤ s.timerLst.expireOf q := by
      rcases xs with - | ⟨x, - | ⟨y, xs⟩⟩
      · exact List.Pairwise.nil
      · exact List.pairwise_singleton _ _
      · simp at hlen
    have hpaired : t'.Paired := hit.toPairs.paired
    have hc := timerHandler_closesIdle hi.toPairs hd hsort ht' hpaired
    exact ⟨hc.kept, hc.called, hc.paired⟩
  · cases he

/-- A step is right exactly when it accepts no second client. -/
theorem Single.ticksRight_iff (h : Single k s) {e : Event} (ha : s.Allowed k e)
    (hf : s.Forward e) : s.TicksRight k e ↔ s.Alone e := by
  obtain ⟨xs, hi, -⟩ := id h
  have hquiet (he : ∀ connfd p now, e ≠ .accept connfd p now) (hn : ∀ now, e ≠ .endBatch now) :
      s.TicksRight k e := by
    rcases hi.step ha with ⟨t, ys, ht, -⟩ | ⟨connfd, p, now, hc, -⟩
    · exact ⟨t, ht, fun cur hcur => absurd hcur (hn cur)⟩
    · exact absurd hc (he connfd p now)
  cases e with
  | accept connfd p now => exact h.accept_iff ha hf
  | endBatch now => exact iff_of_true (h.endBatch ha) trivial
  | wake ready => exact iff_of_true (hquiet (by simp) (by simp)) trivial
  | fail => exact iff_of_true (hquiet (by simp) (by simp)) trivial
  | signals bytes => exact iff_of_true (hquiet (by simp) (by simp)) trivial
  | recv r now => exact iff_of_true (hquiet (by simp) (by simp)) trivial
  | skip => exact iff_of_true (hquiet (by simp) (by simp)) trivial

/-- Timers that keep their data stay dated while the clock goes on. -/
theorem Dated.mono (h : Dated s xs) (hsub : ∀ p ∈ ys, p ∈ xs)
    (hd : ∀ p ∈ ys, t.timerLst.data p = s.timerLst.data p) (ha : t.active = s.active)
    (hc : s.clock ≤ t.clock) : Dated t ys := by
  intro p hp
  have hdp := h p (hsub p hp)
  simp only [expireOf, userDataOf, hd p hp, ha] at hdp ⊢
  exact ⟨hdp.1, hdp.2.trans hc⟩

/-- A renewed timer is dated by the clock that renewed it. -/
theorem Dated.renew (h : Dated s xs) (hp : Pairs s xs) {p : Ptr} {fd c : Nat} {e now : Int}
    (hpx : p ∈ xs) (hdata : s.timerLst.data p = some (e, c, fd)) (hperm : ys.Perm xs)
    (hd : t.timerLst.data = Function.update s.timerLst.data p (some (now + 3 * timeslot, c, fd)))
    (ha : t.active = Function.update s.active fd now) (hc : t.clock = now)
    (hnow : s.clock ≤ now) : Dated t ys := by
  have hpfd : s.timerLst.userDataOf p = fd := by simp [userDataOf, hdata]
  intro q hq
  rw [ha, hc]
  by_cases hqp : q = p
  · subst q
    have he : t.timerLst.expireOf p = now + 3 * timeslot := by simp [expireOf, hd]
    have hu : t.timerLst.userDataOf p = fd := by simp [userDataOf, hd]
    simp [he, hu]
  · have hqx := hperm.mem_iff.mp hq
    have hne : s.timerLst.userDataOf q ≠ fd := fun hu =>
      hqp (hp.injective hqx hpx (hu.trans hpfd.symm))
    obtain ⟨hqe, hqa⟩ := h q hqx
    rw [expireOf_update hd hqp, userDataOf_update hd hqp, Function.update_of_ne hne]
    exact ⟨hqe, hqa.trans hnow⟩

/-- A client accepted while no other is open has the only timer. -/
theorem Dated.accept (hp : Pairs s xs) (hempty : s.fds.clients = ∅) {connfd now : Int} {p : Ptr}
    (h0 : 0 ≤ connfd) (hlim : connfd < fdLimit) (hfree : ¬s.timerLst.Alloc p)
    (hs : acceptBranch s connfd p now = .ok t) (hys : t.timerLst.Lists ys) :
    Dated t ys ∧ ys.length ≤ 1 := by
  obtain ⟨fd, rfl⟩ : ∃ fd : Nat, connfd = fd := ⟨connfd.toNat, by omega⟩
  obtain rfl := hp.eq_nil hempty
  have hadd : (s.timerLst.new p (now + 3 * timeslot) 0 fd).added p [] = some [p] := rfl
  obtain ⟨m, hrun, hl, hdata⟩ := acceptBranch_spec hp.lists (by omega : fd < fdLimit) hfree hadd
  obtain rfl := Except.ok.inj (hrun.symm.trans hs)
  obtain rfl := hys.unique hl
  refine ⟨?_, by simp⟩
  intro q hq
  obtain rfl : q = p := by simpa using hq
  simp [expireOf, userDataOf, hdata]

/-- Closing a client keeps the others' timers dated. -/
theorem Dated.close (hd : Dated s xs) (hp : Pairs s xs) (hlen : xs.length ≤ 1) {fd : Nat}
    (hfd : fd ∈ s.fds.clients) (hs : closeClient s fd = .ok t) (hys : t.timerLst.Lists ys) :
    Dated t ys ∧ ys.length ≤ 1 := by
  obtain ⟨pre, p, rest, e, c, m, rfl, -, hrun, hl, hdata⟩ := closeClient_spec hp hfd
  obtain rfl := Except.ok.inj (hrun.symm.trans hs)
  obtain rfl := hys.unique hl
  have hnot := (List.nodup_cons.mp (List.perm_middle.nodup_iff.mp hp.lists.nodup)).1
  refine ⟨hd.mono (by simp; tauto) ?_ rfl le_rfl, by simp at hlen ⊢; omega⟩
  intro q hq
  have hqp : q ≠ p := fun he => hnot (he ▸ hq)
  simp only [hdata, Function.update_of_ne hqp]

/-- What `recv` returns for a client renews its timer, closes it or changes nothing. -/
theorem Dated.recv (hd : Dated s xs) (hp : Pairs s xs) (hlen : xs.length ≤ 1) {fd : Nat}
    (hfd : fd ∈ s.fds.clients) (hlim : fd < fdLimit) {r : Received} {now : Int}
    (hnow : s.clock ≤ now) (hs : recvBranch s fd r now = .ok t) (hys : t.timerLst.Lists ys) :
    Dated t ys ∧ ys.length ≤ 1 := by
  have hrange := Nat.not_le.mpr hlim
  cases r with
  | again =>
      obtain rfl : s = t := by simpa [recvBranch, hrange] using hs
      obtain rfl := hys.unique hp.lists
      exact ⟨hd, hlen⟩
  | eof => exact hd.close hp hlen hfd (by simpa [recvBranch, hrange] using hs) hys
  | error => exact hd.close hp hlen hfd (by simpa [recvBranch, hrange] using hs) hys
  | data =>
      obtain ⟨p, m, zs, hpx, hperm, ⟨e, c, hpd, hmd⟩, hrun, hl⟩ :=
        recvBranch_data_spec hp hfd hlim now
      obtain rfl := Except.ok.inj (hrun.symm.trans hs)
      obtain rfl := hys.unique hl
      exact ⟨hd.renew hp hpx hpd hperm hmd rfl rfl hnow, hperm.length_eq ▸ hlen⟩

/-- A tick keeps the timers it leaves dated. -/
theorem Dated.tick (hd : Dated s xs) (hp : Pairs s xs) (hlen : xs.length ≤ 1) {now : Int}
    (hnow : s.clock ≤ now) (hs : timeoutBranch s now = .ok t) (hys : t.timerLst.Lists ys) :
    Dated t ys ∧ ys.length ≤ 1 := by
  by_cases hto : s.timeout = true
  · obtain ⟨fired, rest, m, rfl, -, -, hrun, hl, hdata⟩ := timerHandler_spec hp now
    rw [timeoutBranch, if_pos hto, hrun] at hs
    obtain rfl := Except.ok.inj hs
    obtain rfl := hys.unique hl
    have hdisj := (List.nodup_append.mp hp.lists.nodup).2.2
    refine ⟨hd.mono (by simp; tauto) ?_ rfl hnow, by simp at hlen; omega⟩
    intro p hp
    exact (hdata p).trans (if_neg fun hfp => hdisj p hfp p hp rfl)
  · rw [timeoutBranch, if_neg hto] at hs
    obtain rfl := Except.ok.inj hs
    obtain rfl := hys.unique hp.lists
    exact ⟨hd, hlen⟩

/-- Steps that accept no second client keep at most one. -/
theorem Single.step (h : Single k s) {e : Event} (ha : s.Allowed k e) (hf : s.Forward e)
    (halone : s.Alone e) (hs : s.step k e = .ok t) : Single k t := by
  obtain ⟨xs, hi, hd, hlen⟩ := h
  obtain ⟨ys, hit⟩ := hi.of_step ha hs
  -- a step that leaves timers, activity and clock alone
  have hquiet (htl : t.timerLst = s.timerLst) (hac : t.active = s.active)
      (hcl : t.clock = s.clock) : Single k t := by
    obtain rfl := hit.lists.unique (htl ▸ hi.lists)
    exact ⟨ys, hit, hd.mono (fun _ hp => hp) (fun _ _ => by rw [htl]) hac hcl.ge, hlen⟩
  cases e with
  | wake ready =>
      have hctl := Server.at_waiting ha.1 (Or.inl ⟨ready, rfl⟩)
      obtain rfl : { s with ctl := .batch ready } = t := by simpa [Server.step, hctl] using hs
      exact hquiet rfl rfl rfl
  | fail =>
      have hctl := Server.at_waiting ha.1 (Or.inr rfl)
      obtain rfl : { s with ctl := .left } = t := by simpa [Server.step, hctl] using hs
      exact hquiet rfl rfl rfl
  | accept connfd p now =>
      obtain ⟨todo, hctl⟩ := Server.at_accept ha.1
      obtain ⟨hempty, h0, hlim⟩ := halone
      have hbranch : acceptBranch { s with ctl := .batch todo } connfd p now = .ok t := by
        simpa [Server.step, hctl] using hs
      exact ⟨ys, hit,
        Dated.accept (hi.next hctl).1.toPairs hempty h0 hlim ha.2.1 hbranch hit.lists⟩
  | signals bytes =>
      obtain ⟨todo, hctl⟩ := Server.at_signals ha.1
      obtain rfl : signalBranch { s with ctl := .batch todo } bytes = t := by
        simpa [Server.step, hctl] using hs
      exact hquiet rfl rfl rfl
  | recv r now =>
      obtain ⟨fd, todo, hctl, hne, hns⟩ := Server.at_recv ha.1
      obtain ⟨hnext, -, hmem⟩ := hi.next hctl
      have hfd : fd ∈ s.fds.clients := by tauto
      have hbranch : recvBranch { s with ctl := .batch todo } fd r now = .ok t := by
        simpa [Server.step, hctl, hne, hns] using hs
      have hdnext : Dated { s with ctl := .batch todo } xs := hd
      exact ⟨ys, hit,
        hdnext.recv hnext.toPairs hlen hfd (hi.limit fd hfd) (hf now rfl) hbranch hit.lists⟩
  | skip =>
      obtain ⟨fd, todo, hctl, hne⟩ := Server.at_skip ha.1
      obtain rfl : { s with ctl := .batch todo } = t := by simpa [Server.step, hctl, hne] using hs
      exact hquiet rfl rfl rfl
  | endBatch now =>
      have hctl := Server.at_endBatch ha.1
      obtain ⟨u, hu⟩ : ∃ u, timeoutBranch s now = .ok u := by
        cases hb : timeoutBranch s now with
        | ok u => exact ⟨u, rfl⟩
        | error x => simp [Server.step, hctl, hb] at hs
      simp only [Server.step, hctl, hu, ok_bind] at hs
      obtain rfl := Except.ok.inj hs
      have hticked : Dated u ys ∧ ys.length ≤ 1 :=
        hd.tick hi.toPairs hlen (hf now rfl) hu hit.lists
      exact ⟨ys, hit, hticked⟩

/-- Under a clock that never runs backwards, every step is right, meets no memory
error and closes exactly the idle clients at each tick, if and only if no client
is accepted while another is open. -/
theorem idle_ticks_right_iff (k : Setup) (users : Nat → ClientData) (clock : Int)
    (es : List Event)
    (ha : (forwardMachine k users clock).Along (forwardMachine k users clock).Allowed
      (forwardMachine k users clock).init es) :
    (forwardMachine k users clock).Along (Server.TicksRight k)
        (forwardMachine k users clock).init es ↔
      (forwardMachine k users clock).Along Server.Alone (forwardMachine k users clock).init es := by
  refine Machine.along_iff (M := forwardMachine k users clock) (I := Single k)
    (fun s e hi hallowed => hi.ticksRight_iff hallowed.1 hallowed.2)
    (fun s e t hi hallowed hc hs => hi.step hallowed.1 hallowed.2 hc hs) ?_ ha
  exact ⟨[], inv_start k users clock, by simp [Dated], by simp⟩

/-- A lone client that is renewed once and then left idle, and another after it. -/
theorem idle_ticks_right_twice :
    (forwardMachine sampleSetup (fun _ => ⟨0, none⟩) 0).Along (Server.TicksRight sampleSetup)
      (forwardMachine sampleSetup (fun _ => ⟨0, none⟩) 0).init
      [.wake [3], .accept 7 1 0, .endBatch 0, .wake [7, 4], .recv .data 4, .signals [.alrm],
        .endBatch 15, .wake [4], .signals [.alrm], .endBatch 20, .wake [3], .accept 7 1 20] :=
  (idle_ticks_right_iff _ _ _ _ (by decide)).mpr (by decide)

/-- Two clients come, under a clock that never runs backwards. -/
def sampleSecond : List Event := [.wake [3], .accept 7 1 0, .endBatch 0, .wake [3], .accept 8 2 1]

/-- The second one's timer is added through a null pointer. -/
theorem idle_second_client_null :
    (forwardMachine sampleSetup (fun _ => ⟨0, none⟩) 0).Along
        (forwardMachine sampleSetup (fun _ => ⟨0, none⟩) 0).Allowed
        (forwardMachine sampleSetup (fun _ => ⟨0, none⟩) 0).init sampleSecond ∧
      ¬(forwardMachine sampleSetup (fun _ => ⟨0, none⟩) 0).Along (Server.TicksRight sampleSetup)
        (forwardMachine sampleSetup (fun _ => ⟨0, none⟩) 0).init sampleSecond := by
  refine ⟨by decide, ?_⟩
  intro h
  obtain ⟨⟨t, ht, -⟩, -⟩ := (((h.2 _ rfl).2 _ rfl).2 _ rfl).2 _ rfl
  cases ht

end Idle

end LinuxWebsocket
