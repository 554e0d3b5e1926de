import LinuxWebsocket.Timer.IdlePairing
import Mathlib.Data.Finset.Card

/-!
# What becomes of the timers

The destructor of `sort_timer_lst` walks the list and deletes every timer; `timer_lst` is
a static object, so it runs when the server exits. No timer is allocated that is not
listed, so at the end none is left, and none is deleted twice.
-/

namespace LinuxWebsocket

namespace SortTimerLst

open DoublyLinked

variable {m : SortTimerLst} {p : Ptr} {xs ys : List Ptr}

/-- The `while (temp)` loop of the destructor. -/
def destroyLoop : Nat → Option Ptr → SortTimerLst → Except Fault SortTimerLst
  | 0, _, _ => .error .diverges
  | fuel + 1, temp, m =>
    match temp with
    | none => .ok m
    | some _ => do
      let m := m.setHead (← m.getNext temp)
      let m ← m.delete temp
      destroyLoop fuel m.head m

/-- `~sort_timer_lst()` -/
def destroy (m : SortTimerLst) : Except Fault SortTimerLst := destroyLoop (m.news + 1) m.head m

/-- The loop deletes each timer of a chain. What the backward links say does not matter. -/
theorem destroyLoop_spec {b : Option Ptr} (hn : xs.Nodup) (ha : ∀ p ∈ xs, m.Alloc p)
    (hl : Linked m.nextOf m.prevOf b xs none) {fuel : Nat} (hf : xs.length < fuel) :
    ∃ m', destroyLoop fuel xs.head? m = .ok m' ∧
      ∀ p, m'.data p = if p ∈ xs then none else m.data p := by
  induction xs generalizing m b fuel with
  | nil =>
      obtain ⟨fuel, rfl⟩ := Nat.exists_eq_add_of_lt hf
      exact ⟨m, by simp [destroyLoop], by simp⟩
  | cons x xs ih =>
      obtain ⟨fuel, rfl⟩ : ∃ n, fuel = n + 1 := ⟨fuel - 1, by omega⟩
      obtain ⟨hx, hn⟩ := List.nodup_cons.mp hn
      obtain ⟨hax, ha⟩ := List.forall_mem_cons.mp ha
      obtain ⟨-, hnext, hl⟩ := hl
      have hax' : (m.setHead (m.nextOf x)).Alloc x := by simpa using hax
      have hstep : destroyLoop (fuel + 1) (some x) m =
          destroyLoop fuel xs.head? ((m.setHead (m.nextOf x)).free x) := by
        have hhead : (m.setHead (m.nextOf x)).head = xs.head? := by simp [hnext]
        simp only [destroyLoop, getNext_some hax, ok_bind, delete_some hax', head_free, hhead]
      obtain ⟨m', hrun, hdata⟩ := ih (m := (m.setHead (m.nextOf x)).free x) (b := some x) hn
        (fun p hp => alloc_free.mpr ⟨fun he => hx (he ▸ hp), by simpa using ha p hp⟩)
        (by
          rw [nextOf_free, prevOf_free, nextOf_setHead, prevOf_setHead]
          exact (hl.update_next hx none).update_prev hx none)
        (by simpa using hf)
      refine ⟨m', hstep.trans hrun, fun p => ?_⟩
      rw [hdata]
      by_cases hpx : p = x
      · simp [hpx, hx, data_free]
      · simp [hpx, data_free]

/-- The destructor deletes each listed timer once, and no other. -/
theorem destroy_spec (h : m.Lists xs) :
    ∃ m', m.destroy = .ok m' ∧ ∀ p, m'.data p = if p ∈ xs then none else m.data p := by
  unfold destroy
  rw [h.head]
  exact destroyLoop_spec h.nodup h.alloc h.linked (Nat.lt_succ_of_le h.length_le)

end SortTimerLst

namespace Idle

open SortTimerLst

variable {k : Setup} {s t : Server} {xs ys : List Ptr}

/-- Every allocated timer is among these. -/
def Server.Unleaked (s : Server) (xs : List Ptr) : Prop := ∀ p, s.timerLst.Alloc p → p ∈ xs

/-- A new timer is listed with the others. -/
theorem Server.Unleaked.accept (h : s.Unleaked xs) (hi : Pairs s xs) {connfd now : Int} {p : Ptr}
    (hp : ¬s.timerLst.Alloc p) (hs : acceptBranch s connfd p now = .ok t)
    (hys : t.timerLst.Lists ys) : t.Unleaked ys := by
  have hplace : 0 ≤ connfd ∧ connfd < fdLimit ∧
      (s.timerLst.new p (now + 3 * timeslot) 0 connfd.toNat).added p xs ≠ none := by
    by_contra hno
    have hfault : connfd < 0 ∨ fdLimit ≤ connfd ∨
        (s.timerLst.new p (now + 3 * timeslot) 0 connfd.toNat).added p xs = none := by
      by_contra hall
      simp only [not_or] at hall
      exact hno ⟨by omega, by omega, hall.2.2⟩
    rcases acceptBranch_fault hi.lists hfault hp with hx | hx <;> rw [hx] at hs <;> cases hs
  obtain ⟨h0, hlim, hadd⟩ := hplace
  obtain ⟨fd, rfl⟩ : ∃ fd : Nat, connfd = fd := ⟨connfd.toNat, by omega⟩
  obtain ⟨zs, hzs⟩ := Option.ne_none_iff_exists'.mp hadd
  obtain ⟨m, hrun, hl, hdata⟩ := acceptBranch_spec hi.lists (by omega) hp hzs
  obtain rfl := Except.ok.inj (hrun.symm.trans hs)
  obtain rfl := hys.unique hl
  intro q hq
  rw [(added_perm hzs).mem_iff]
  by_cases hqp : q = p
  · exact hqp ▸ List.mem_cons_self
  · refine List.mem_cons_of_mem _ (h q ?_)
    simpa [Alloc, hdata, hqp] using hq

/-- A client that is closed takes its timer along. -/
theorem Server.Unleaked.close (h : s.Unleaked xs) (hi : Pairs s xs) {fd : Nat}
    (hfd : fd ∈ s.fds.clients) (hs : closeClient s fd = .ok t) (hys : t.timerLst.Lists ys) :
    t.Unleaked ys := by
  obtain ⟨pre, p, rest, e, c, m, rfl, -, hrun, hl, hdata⟩ := closeClient_spec hi hfd
  obtain rfl := Except.ok.inj (hrun.symm.trans hs)
  obtain rfl := hys.unique hl
  intro q hq
  by_cases hqp : q = p
  · simp [Alloc, hdata, hqp] at hq
  · have := h q (by simpa [Alloc, hdata, hqp] using hq)
    simpa [hqp] using this

/-- Whatever `recv` returns, no timer is forgotten. -/
theorem Server.Unleaked.recv (h : s.Unleaked xs) (hi : Pairs s xs) {fd : Nat}
    (hfd : fd ∈ s.fds.clients) (hlim : fd < fdLimit) {r : Received} {now : Int}
    (hs : recvBranch s fd r now = .ok t) (hys : t.timerLst.Lists ys) : t.Unleaked ys := by
  have hrange := Nat.not_le.mpr hlim
  cases r with
  | again =>
      obtain rfl : s = t := by simpa [recvBranch, hrange] using hs
      obtain rfl := hys.unique hi.lists
      exact h
  | eof => exact h.close hi hfd (by simpa [recvBranch, hrange] using hs) hys
  | error => exact h.close hi hfd (by simpa [recvBranch, hrange] using hs) hys
  | data =>
      obtain ⟨p, m, zs, hpx, hperm, ⟨e, c, -, hdata⟩, hrun, hl⟩ :=
        recvBranch_data_spec hi hfd hlim now
      obtain rfl := Except.ok.inj (hrun.symm.trans hs)
      obtain rfl := hys.unique hl
      intro q hq
      rw [hperm.mem_iff]
      by_cases hqp : q = p
      · exact hqp ▸ hpx
      · exact h q (by simpa [Alloc, hdata, hqp] using hq)

/-- A timer that fires is deleted. -/
theorem Server.Unleaked.tick (h : s.Unleaked xs) (hi : Pairs s xs) {now : Int}
    (hs : timeoutBranch s now = .ok t) (hys : t.timerLst.Lists ys) : t.Unleaked ys := by
  by_cases hto : s.timeout = true
  · obtain ⟨fired, rest, m, rfl, -, -, hrun, hl, hdata⟩ := timerHandler_spec hi now
    rw [timeoutBranch, if_pos hto, hrun] at hs
    obtain rfl := Except.ok.inj hs
    obtain rfl := hys.unique hl
    intro q hq
    by_cases hqf : q ∈ fired
    · simp [Alloc, hdata, hqf] at hq
    · have hmem := h q (by simpa [Alloc, hdata, hqf] using hq)
      exact (List.mem_append.mp hmem).resolve_left hqf
  · rw [timeoutBranch, if_neg hto] at hs
    obtain rfl := Except.ok.inj hs
    obtain rfl := hys.unique hi.lists
    exact h

/-- No step forgets a timer. -/
theorem Server.Unleaked.step (h : s.Unleaked xs) (hi : Inv k s xs) {e : Event}
    (ha : s.Allowed k e) (hs : s.step k e = .ok t) (hy : Inv k t ys) : t.Unleaked ys := by
  have hquiet (htl : t.timerLst = s.timerLst) : t.Unleaked ys := by
    obtain rfl := hy.lists.unique (htl ▸ hi.lists)
    intro p hp
    exact h p (by rwa [htl] at hp)
  cases e with
  | wake ready =>
      have hctl := Server.at_waiting ha.1 (Or.inl ⟨ready, rfl⟩)
      obtain rfl : { s with ctl := .batch ready } = t := by simpa [Server.step, hctl] using hs
      exact hquiet rfl
  | fail =>
      have hctl := Server.at_waiting ha.1 (Or.inr rfl)
      obtain rfl : { s with ctl := .left } = t := by simpa [Server.step, hctl] using hs
      exact hquiet rfl
  | accept connfd p now =>
      obtain ⟨todo, hctl⟩ := Server.at_accept ha.1
      have hb : acceptBranch { s with ctl := .batch todo } connfd p now = .ok t := by
        simpa [Server.step, hctl] using hs
      have hn : ({ s with ctl := .batch todo } : Server).Unleaked xs := h
      exact hn.accept (hi.next hctl).1.toPairs ha.2.1 hb hy.lists
  | signals bytes =>
      obtain ⟨todo, hctl⟩ := Server.at_signals ha.1
      obtain rfl : signalBranch { s with ctl := .batch todo } bytes = t := by
        simpa [Server.step, hctl] using hs
      exact hquiet rfl
  | recv r now =>
      obtain ⟨fd, todo, hctl, hl, hg⟩ := Server.at_recv ha.1
      obtain ⟨hnext, -, hmem⟩ := hi.next hctl
      have hfd : fd ∈ s.fds.clients := by tauto
      have hb : recvBranch { s with ctl := .batch todo } fd r now = .ok t := by
        simpa [Server.step, hctl, hl, hg] using hs
      have hn : ({ s with ctl := .batch todo } : Server).Unleaked xs := h
      exact hn.recv hnext.toPairs hfd (hi.limit fd hfd) hb hy.lists
  | skip =>
      obtain ⟨fd, todo, hctl, hl⟩ := Server.at_skip ha.1
      obtain rfl : { s with ctl := .batch todo } = t := by simpa [Server.step, hctl, hl] using hs
      exact hquiet rfl
  | endBatch now =>
      have hctl := Server.at_endBatch ha.1
      obtain ⟨u, hu⟩ : ∃ u, timeoutBranch s now = .ok u := by
        cases hb : timeoutBranch s now with
        | ok u => exact ⟨u, rfl⟩
        | error x => simp [Server.step, hctl, hb] at hs
      simp only [Server.step, hctl, hu, ok_bind] at hs
      obtain rfl := Except.ok.inj hs
      have hticked : u.Unleaked ys := h.tick hi.toPairs hu hy.lists
      exact hticked

/-- In every run the timers listed are those allocated. -/
theorem unleaked_of_run {users : Nat → ClientData} {clock : Int} {es : List Event}
    (h : (machine k users clock).Run es s) : ∃ xs, Inv k s xs ∧ s.Unleaked xs := by
  refine h.invariant (I := fun s => ∃ xs, Inv k s xs ∧ s.Unleaked xs) ?_ ?_
  · refine ⟨[], inv_start k users clock, fun p hp => ?_⟩
    simp [machine, Server.start, SortTimerLst.empty, Alloc, data] at hp
  · rintro s e t ⟨xs, hi, hu⟩ ha hs
    obtain ⟨ys, hy⟩ := hi.of_step ha hs
    exact ⟨ys, hy, hu.step hi ha hs hy⟩

/-- There are as many timers as clients. -/
theorem Pairs.length_eq (h : Pairs s xs) : xs.length = s.fds.clients.card := by
  have hnodup : (xs.map s.timerLst.userDataOf).Nodup :=
    List.Nodup.map_on (fun p hp q hq he => h.injective hp hq he) h.lists.nodup
  have hset : (xs.map s.timerLst.userDataOf).toFinset = s.fds.clients := by
    ext fd
    rw [List.mem_toFinset, List.mem_map]
    constructor
    · rintro ⟨p, hp, rfl⟩
      obtain ⟨e, c, fd, hfd, hd, -⟩ := h.timer p hp
      simpa [userDataOf, hd] using hfd
    · intro hfd
      obtain ⟨p, hp, e, c, hd⟩ := h.client fd hfd
      exact ⟨p, hp, by simp [userDataOf, hd]⟩
  rw [← hset, List.toFinset_card_of_nodup hnodup, List.length_map]

/-- In every run without a memory error the allocated timers are those of the open clients, one
each. Whenever the server exits, the destructor of `timer_lst` meets no memory error, so that it
deletes no timer twice, and leaves no timer allocated. -/
theorem timers_deleted (k : Setup) (users : Nat → ClientData) (clock : Int) {es : List Event}
    {s : Server} (h : (machine k users clock).Run es s) :
    (∃ xs : List Ptr, xs.Nodup ∧ xs.length = s.fds.clients.card ∧
        (∀ p, s.timerLst.Alloc p ↔ p ∈ xs) ∧
        ∀ fd ∈ s.fds.clients, ∃ p ∈ xs, s.timerLst.userDataOf p = fd) ∧
      ∃ m, s.timerLst.destroy = .ok m ∧ ∀ p, ¬m.Alloc p := by
  obtain ⟨xs, hi, hu⟩ := unleaked_of_run h
  refine ⟨⟨xs, hi.lists.nodup, hi.toPairs.length_eq, fun p => ⟨hu p, hi.lists.alloc p⟩, ?_⟩, ?_⟩
  · intro fd hfd
    obtain ⟨p, hp, e, c, hd⟩ := hi.client fd hfd
    exact ⟨p, hp, by simp [userDataOf, hd]⟩
  · obtain ⟨m, hm, hdata⟩ := destroy_spec hi.lists
    refine ⟨m, hm, fun p hp => ?_⟩
    rw [Alloc, hdata] at hp
    split at hp
    · cases hp
    · next hpx => exact hpx (hu p hp)

/-- A client is closed and another one comes, which is still there when `epoll_wait` fails. -/
def sampleFailing : List Event :=
  [.wake [3], .accept 7 1 0, .endBatch 0, .wake [7], .recv .eof 4, .endBatch 4, .wake [3],
    .accept 8 2 6, .endBatch 6, .fail]

/-- The other one's timer is deleted at last. -/
theorem timers_deleted_one :
    ∃ s, (machine sampleSetup (fun _ => ⟨0, none⟩) 0).Run sampleFailing s ∧
      s.ctl = .left ∧ s.timerLst.Alloc 2 ∧
      ∃ m, s.timerLst.destroy = .ok m ∧ ∀ p, ¬m.Alloc p :=
  have ⟨s, hrun, hs⟩ := Machine.Run.of_exec_map (M := machine sampleSetup (fun _ => ⟨0, none⟩) 0)
    (f := fun s => (s.ctl, decide (s.timerLst.Alloc 2))) (x := (.left, true))
    sampleFailing (by decide) (by decide)
  ⟨s, hrun, congrArg Prod.fst hs, of_decide_eq_true (congrArg Prod.snd hs),
    (timers_deleted _ _ _ hrun).2⟩

end Idle

end LinuxWebsocket
