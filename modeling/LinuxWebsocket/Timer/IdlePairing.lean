import LinuxWebsocket.Timer.IdleServer
import Mathlib.Data.Set.Function

/-!
# Timers and open clients

Every open client has one listed timer and every listed timer an open client,
through the user data of the timer and the `timer` field of the client's record.
Records are never cleared, so this rests on each handler that closes a descriptor
unlisting its timer before the batch goes on, and on a batch reporting a
descriptor only once.
-/

namespace LinuxWebsocket

namespace Idle

open SortTimerLst

variable {k : Setup} {s t : Server} {xs ys : List Ptr}

theorem Server.at_accept {connfd now : Int} {p : Ptr} (h : s.at k (.accept connfd p now) = true) :
    ∃ todo, s.ctl = .batch (k.listenfd :: todo) := by
  unfold Server.at at h
  split at h <;> simp_all

theorem Server.at_signals {bytes : List Signal} (h : s.at k (.signals bytes) = true) :
    ∃ todo, s.ctl = .batch (k.sigfd :: todo) := by
  unfold Server.at at h
  split at h <;> simp_all

theorem Server.at_recv {r : Received} {now : Int} (h : s.at k (.recv r now) = true) :
    ∃ fd todo, s.ctl = .batch (fd :: todo) ∧ fd ≠ k.listenfd ∧ fd ≠ k.sigfd := by
  unfold Server.at at h
  split at h <;> simp_all

theorem Server.at_skip (h : s.at k .skip = true) :
    ∃ fd todo, s.ctl = .batch (fd :: todo) ∧ fd ≠ k.listenfd := by
  unfold Server.at at h
  split at h <;> simp_all

theorem Server.at_endBatch {now : Int} (h : s.at k (.endBatch now) = true) : s.ctl = .batch [] := by
  unfold Server.at at h
  split at h <;> simp_all

theorem Server.at_waiting {e : Event} (h : s.at k e = true)
    (he : (∃ ready, e = .wake ready) ∨ e = .fail) :
    s.ctl = .waiting := by
  unfold Server.at at h
  split at h <;> simp_all

/-- The timers `xs` are listed, one for each open client. -/
structure Pairs (s : Server) (xs : List Ptr) : Prop where
  lists : s.timerLst.Lists xs
  /-- A listed timer belongs to an open client, whose record points back. -/
  timer : ∀ p ∈ xs, ∃ e c, ∃ fd ∈ s.fds.clients,
    s.timerLst.data p = some (e, c, fd) ∧ s.users fd = ⟨fd, some p⟩
  /-- An open client has a listed timer. -/
  client : ∀ fd ∈ s.fds.clients, ∃ p ∈ xs, ∃ e c, s.timerLst.data p = some (e, c, fd)

/-- What the kernel and the batch add to the pairing. -/
structure Inv (k : Setup) (s : Server) (xs : List Ptr) : Prop extends Pairs s xs where
  /-- `users` has a record for every open client. -/
  limit : ∀ fd ∈ s.fds.clients, fd < fdLimit
  /-- Clients are not among the server's own descriptors. -/
  base : ∀ fd ∈ s.fds.clients, fd ∉ k.base
  /-- Only the clients, the listening socket and the signal pipe are registered. -/
  interest : ∀ fd ∈ s.fds.interest, fd = k.listenfd ∨ fd = k.sigfd ∨ fd ∈ s.fds.clients
  /-- Every event left in the batch is of a registered descriptor, each once. -/
  todo : ∀ todo, s.ctl = .batch todo → todo.Nodup ∧
    ∀ fd ∈ todo, fd = k.listenfd ∨ fd = k.sigfd ∨ fd ∈ s.fds.clients

/-- The timer of an open client, as its record has it. -/
theorem Pairs.record (h : Pairs s xs) {fd : Nat} (hfd : fd ∈ s.fds.clients) :
    ∃ p ∈ xs, ∃ e c, s.timerLst.data p = some (e, c, fd) ∧ s.users fd = ⟨fd, some p⟩ := by
  obtain ⟨p, hp, e, c, hd⟩ := h.client fd hfd
  obtain ⟨e', c', fd', -, hd', hu⟩ := h.timer p hp
  obtain ⟨rfl, rfl, rfl⟩ : e = e' ∧ c = c' ∧ fd = fd' := by simpa using hd.symm.trans hd'
  exact ⟨p, hp, e, c, hd, hu⟩

/-- Two listed timers of one client are the same timer. -/
theorem Pairs.injective (h : Pairs s xs) {p q : Ptr} (hp : p ∈ xs) (hq : q ∈ xs)
    (he : s.timerLst.userDataOf p = s.timerLst.userDataOf q) : p = q := by
  obtain ⟨e, c, fd, -, hd, hu⟩ := h.timer p hp
  obtain ⟨e', c', fd', -, hd', hu'⟩ := h.timer q hq
  obtain rfl : fd = fd' := by simpa [userDataOf, hd, hd'] using he
  simpa using congrArg ClientData.timer (hu.symm.trans hu')

/-- A new client is listed wherever the list finds a place for its timer. -/
theorem acceptBranch_spec (hl : s.timerLst.Lists xs) {fd : Nat} {p : Ptr} {now : Int}
    (hfd : fd < fdLimit) (hp : ¬s.timerLst.Alloc p)
    (hadd : (s.timerLst.new p (now + 3 * timeslot) 0 fd).added p xs = some ys) :
    ∃ m, acceptBranch s fd p now = .ok { s with
        timerLst := m
        users := Function.update s.users fd ⟨fd, some p⟩
        fds := { s.fds with
          clients := insert fd s.fds.clients
          interest := insert fd s.fds.interest }
        active := Function.update s.active fd now
        clock := now } ∧
      m.Lists ys ∧
      m.data = Function.update s.timerLst.data p (some (now + 3 * timeslot, 0, fd)) := by
  have hnot : p ∉ xs := fun hx => hp (hl.alloc p hx)
  obtain ⟨m, hm, hl', hd', -⟩ := addTimer_spec (hl.new hp _ _ _) hnot (by simp [Alloc])
    (by simp [prevOf_new]) (by simp [nextOf_new]) hadd
  exact ⟨m, by simp [acceptBranch, Nat.not_le.mpr hfd, hm], hl', hd'.trans data_new⟩

/-- Where the list finds no place, or the record is outside `users`, the server faults. -/
theorem acceptBranch_fault {connfd now : Int} {p : Ptr} (hl : s.timerLst.Lists xs)
    (h : connfd < 0 ∨ fdLimit ≤ connfd ∨
      (s.timerLst.new p (now + 3 * timeslot) 0 connfd.toNat).added p xs = none)
    (hp : ¬s.timerLst.Alloc p) :
    acceptBranch s connfd p now = .error .outOfRange ∨
      acceptBranch s connfd p now = .error .null := by
  by_cases hr : connfd < 0 ∨ (fdLimit : Int) ≤ connfd
  · exact Or.inl (by simp [acceptBranch, hr])
  · have hadd := h.resolve_left (fun hn => hr (Or.inl hn)) |>.resolve_left fun hn => hr (Or.inr hn)
    have hnull := addTimer_null (hl.new hp (now + 3 * timeslot) 0 connfd.toNat) (by simp [Alloc])
      hadd
    exact Or.inr (by simp [acceptBranch, hr, hnull])

/-- Closing an open client releases its timer and no other. -/
theorem closeClient_spec (h : Pairs s xs) {fd : Nat} (hfd : fd ∈ s.fds.clients) :
    ∃ pre p rest e c m, xs = pre ++ p :: rest ∧ s.timerLst.data p = some (e, c, fd) ∧
      closeClient s fd = .ok { s with
        timerLst := m
        fds := ⟨s.fds.clients.erase fd, s.fds.interest.erase fd, fd :: s.fds.called⟩ } ∧
      m.Lists (pre ++ rest) ∧ m.data = Function.update s.timerLst.data p none := by
  obtain ⟨p, hp, e, c, hd, hu⟩ := h.record hfd
  obtain ⟨pre, rest, rfl⟩ := List.append_of_mem hp
  obtain ⟨m, hm, hl, hd', -⟩ := delTimer_spec h.lists
  exact ⟨pre, p, rest, e, c, m, rfl, hd, by simp [closeClient, cbFunc, hu, hm], hl, hd'⟩

/-- Data from an open client renews its timer and no other. -/
theorem recvBranch_data_spec (h : Pairs s xs) {fd : Nat} (hfd : fd ∈ s.fds.clients)
    (hlim : fd < fdLimit) (now : Int) :
    ∃ p m ys, p ∈ xs ∧ ys.Perm xs ∧ (∃ e c, s.timerLst.data p = some (e, c, fd) ∧
      m.data = Function.update s.timerLst.data p (some (now + 3 * timeslot, c, fd))) ∧
      recvBranch s fd .data now = .ok { s with
        timerLst := m, active := Function.update s.active fd now, clock := now } ∧
      m.Lists ys := by
  obtain ⟨p, hp, e, c, hd, hu⟩ := h.record hfd
  obtain ⟨m₁, hm₁, hl₁, hd₁, -⟩ := setExpire_spec h.lists (e := now + 3 * timeslot) hd
  obtain ⟨pre, rest, rfl⟩ := List.append_of_mem hp
  obtain ⟨m, hm, hl, hd', -⟩ := adjustTimer_spec hl₁
  refine ⟨p, m, _, hp, adjusted_perm.append_left pre, ⟨e, c, hd, hd'.trans hd₁⟩, ?_, hl⟩
  simp [recvBranch, Nat.not_le.mpr hlim, hu, hm₁, hm]

/-- The callbacks of a tick close the clients of the fired timers. -/
theorem foldl_cbFunc {m : SortTimerLst} {users : Nat → ClientData} {fired : List Ptr}
    (hf : ∀ p ∈ fired, ∃ e c fd, m.data p = some (e, c, fd) ∧ (users fd).socketFd = fd)
    (d : Descriptors) :
    fired.foldl (runCallback (fun _ _ u => cbFunc users u) m) d =
      ⟨d.clients \ (fired.map m.userDataOf).toFinset,
        d.interest \ (fired.map m.userDataOf).toFinset,
        (fired.map m.userDataOf).reverse ++ d.called⟩ := by
  induction fired generalizing d with
  | nil => simp
  | cons p fired ih =>
      obtain ⟨e, c, fd, hd, hu⟩ := hf p (List.mem_cons_self ..)
      have hfd : m.userDataOf p = fd := by simp [userDataOf, hd]
      have hrun : runCallback (fun _ _ u => cbFunc users u) m d p =
          ⟨d.clients.erase fd, d.interest.erase fd, fd :: d.called⟩ := by
        simp [runCallback, hd, cbFunc, hu]
      have hset (a b : Finset Nat) : a.erase fd \ b = a \ insert fd b := by
        ext x
        simp only [Finset.mem_sdiff, Finset.mem_erase, Finset.mem_insert]
        tauto
      rw [List.foldl_cons, hrun, ih fun q hq => hf q (List.mem_cons_of_mem _ hq)]
      simp [hfd, hset]

/-- A tick fires the timers before the first still to expire, and closes their clients. -/
theorem timerHandler_spec (h : Pairs s xs) (now : Int) :
    ∃ fired rest m, xs = fired ++ rest ∧ (∀ p ∈ fired, s.timerLst.expireOf p ≤ now) ∧
      (∀ p, rest.head? = some p → now < s.timerLst.expireOf p) ∧
      timerHandler s now = .ok { s with
        timerLst := m
        fds := ⟨s.fds.clients \ (fired.map s.timerLst.userDataOf).toFinset,
          s.fds.interest \ (fired.map s.timerLst.userDataOf).toFinset,
          (fired.map s.timerLst.userDataOf).reverse ++ s.fds.called⟩
        clock := now } ∧
      m.Lists rest ∧ ∀ p, m.data p = if p ∈ fired then none else s.timerLst.data p := by
  obtain ⟨fired, rest, m, hxs, hfired, hrest, hrun, hl, hd, -⟩ :=
    tick_spec (fun _ _ u => cbFunc s.users u) now s.fds h.lists
  refine ⟨fired, rest, m, hxs, hfired, hrest, ?_, hl, hd⟩
  rw [timerHandler, hrun, ok_bind, foldl_cbFunc]
  intro p hp
  obtain ⟨e, c, fd, -, hdp, hu⟩ := h.timer p (by simp [hxs, hp])
  exact ⟨e, c, fd, hdp, by rw [hu]⟩

/-- Accepting a client pairs it with its new timer. -/
theorem Pairs.accept (h : Pairs s xs) {fd : Nat} {p : Ptr} {e : Int} {c : Nat} {m : SortTimerLst}
    (hfd : fd ∉ s.fds.clients) (hp : ¬s.timerLst.Alloc p) (hperm : ys.Perm (p :: xs))
    (hl : m.Lists ys) (hd : m.data = Function.update s.timerLst.data p (some (e, c, fd)))
    (ht : t.timerLst = m) (hu : t.users = Function.update s.users fd ⟨fd, some p⟩)
    (hc : t.fds.clients = insert fd s.fds.clients) : Pairs t ys := by
  refine ⟨ht ▸ hl, ?_, ?_⟩
  · intro q hq
    rw [ht, hd, hu, hc]
    rcases List.mem_cons.mp (hperm.mem_iff.mp hq) with rfl | hq
    · exact ⟨e, c, fd, by simp, by simp, by simp⟩
    · obtain ⟨e', c', fd', hfd', hd', hu'⟩ := h.timer q hq
      have hqp : q ≠ p := fun he => hp (he ▸ h.lists.alloc q hq)
      have hne : fd' ≠ fd := fun he => hfd (he ▸ hfd')
      exact ⟨e', c', fd', by simp [hfd'], by simp [hqp, hd'], by simp [hne, hu']⟩
  · intro fd' hfd'
    rw [ht, hd]
    rw [hc] at hfd'
    rcases Finset.mem_insert.mp hfd' with rfl | hfd'
    · exact ⟨p, hperm.mem_iff.mpr (List.mem_cons_self ..), e, c, by simp⟩
    · obtain ⟨q, hq, e', c', hd'⟩ := h.client fd' hfd'
      have hqp : q ≠ p := fun he => hp (he ▸ h.lists.alloc q hq)
      exact ⟨q, hperm.mem_iff.mpr (List.mem_cons_of_mem _ hq), e', c', by simp [hqp, hd']⟩

/-- Renewing a timer keeps the pairing. -/
theorem Pairs.renew (h : Pairs s xs) {fd : Nat} {p : Ptr} {e e' : Int} {c : Nat}
    {m : SortTimerLst} (hperm : ys.Perm xs) (hp : s.timerLst.data p = some (e, c, fd))
    (hl : m.Lists ys) (hd : m.data = Function.update s.timerLst.data p (some (e', c, fd)))
    (ht : t.timerLst = m) (hu : t.users = s.users) (hc : t.fds.clients = s.fds.clients) :
    Pairs t ys := by
  refine ⟨ht ▸ hl, ?_, ?_⟩
  · intro q hq
    rw [ht, hd, hu, hc]
    obtain ⟨e₁, c₁, fd₁, hfd₁, hd₁, hu₁⟩ := h.timer q (hperm.mem_iff.mp hq)
    by_cases hqp : q = p
    · subst q
      obtain ⟨-, rfl, rfl⟩ : e = e₁ ∧ c = c₁ ∧ fd = fd₁ := by simpa using hp.symm.trans hd₁
      exact ⟨e', c, fd, hfd₁, by simp, hu₁⟩
    · exact ⟨e₁, c₁, fd₁, hfd₁, by simp [hqp, hd₁], hu₁⟩
  · intro fd₁ hfd₁
    rw [ht, hd]
    rw [hc] at hfd₁
    obtain ⟨q, hq, e₁, c₁, hd₁⟩ := h.client fd₁ hfd₁
    refine ⟨q, hperm.mem_iff.mpr hq, ?_⟩
    by_cases hqp : q = p
    · subst q
      obtain ⟨-, rfl, rfl⟩ : e = e₁ ∧ c = c₁ ∧ fd = fd₁ := by simpa using hp.symm.trans hd₁
      exact ⟨e', c, by simp⟩
    · exact ⟨e₁, c₁, by simp [hqp, hd₁]⟩

/-- Closing the clients of some timers and unlisting those timers keeps the pairing. -/
theorem Pairs.unlist (h : Pairs s xs) (out : List Ptr) {m : SortTimerLst}
    (hout : ∀ p ∈ out, p ∈ xs) (hys : ∀ p, p ∈ ys ↔ p ∈ xs ∧ p ∉ out) (hl : m.Lists ys)
    (hd : ∀ p ∈ ys, m.data p = s.timerLst.data p) (ht : t.timerLst = m) (hu : t.users = s.users)
    (hc : ∀ fd, fd ∈ t.fds.clients ↔ fd ∈ s.fds.clients ∧ ∀ p ∈ out, s.timerLst.userDataOf p ≠ fd) :
    Pairs t ys := by
  refine ⟨ht ▸ hl, ?_, ?_⟩
  · intro q hq
    obtain ⟨hqx, hqo⟩ := (hys q).mp hq
    obtain ⟨e, c, fd, hfd, hdq, huq⟩ := h.timer q hqx
    refine ⟨e, c, fd, (hc fd).mpr ⟨hfd, ?_⟩, by rw [ht, hd q hq, hdq], by rw [hu, huq]⟩
    intro p hp he
    have hqd : s.timerLst.userDataOf q = fd := by simp [userDataOf, hdq]
    exact hqo (h.injective hqx (hout p hp) (hqd.trans he.symm) ▸ hp)
  · intro fd hfd
    obtain ⟨hfd, hno⟩ := (hc fd).mp hfd
    obtain ⟨q, hq, e, c, hdq⟩ := h.client fd hfd
    have hqd : s.timerLst.userDataOf q = fd := by simp [userDataOf, hdq]
    have hqy : q ∈ ys := (hys q).mpr ⟨hq, fun hqo => hno q hqo hqd⟩
    exact ⟨q, hqy, e, c, by rw [ht, hd q hqy, hdq]⟩

/-- Handling the next event of a batch shortens what is left of it. -/
theorem Inv.next (h : Inv k s xs) {fd : Nat} {todo : List Nat}
    (hctl : s.ctl = .batch (fd :: todo)) :
    Inv k { s with ctl := .batch todo } xs ∧ fd ∉ todo ∧
      (fd = k.listenfd ∨ fd = k.sigfd ∨ fd ∈ s.fds.clients) := by
  obtain ⟨hn, hmem⟩ := h.todo _ hctl
  obtain ⟨hfd, hn⟩ := List.nodup_cons.mp hn
  refine ⟨⟨⟨h.lists, h.timer, h.client⟩, h.limit, h.base, h.interest, ?_⟩, hfd,
    hmem fd (List.mem_cons_self ..)⟩
  intro todo' ht
  obtain rfl : todo = todo' := by simpa using ht
  exact ⟨hn, fun x hx => hmem x (List.mem_cons_of_mem _ hx)⟩

/-- Closing an open client outside the rest of the batch keeps the invariant. -/
theorem Inv.close (h : Inv k s xs) {fd : Nat} (hfd : fd ∈ s.fds.clients)
    (hnot : ∀ todo, s.ctl = .batch todo → fd ∉ todo) :
    ∃ t ys, closeClient s fd = .ok t ∧ Inv k t ys := by
  obtain ⟨pre, p, rest, e, c, m, rfl, hd, hrun, hl, hd'⟩ := closeClient_spec h.toPairs hfd
  have hp := (List.nodup_cons.mp (List.perm_middle.nodup_iff.mp h.lists.nodup)).1
  refine ⟨_, pre ++ rest, hrun, ?_, ?_, ?_, ?_, ?_⟩
  · refine h.toPairs.unlist [p] (by simp) ?_ hl ?_ rfl rfl ?_
    · intro q
      simp only [List.mem_append, List.mem_cons, List.not_mem_nil, or_false] at hp ⊢
      constructor
      · intro hq
        exact ⟨by tauto, fun he => hp (he ▸ hq)⟩
      · rintro ⟨hq, hqp⟩
        tauto
    · intro q hq
      rw [hd', Function.update_of_ne fun he => hp (by rwa [he] at hq)]
    · intro x
      have hpd : s.timerLst.userDataOf p = fd := by simp [userDataOf, hd]
      simp only [Finset.mem_erase, List.mem_singleton, forall_eq, hpd]
      tauto
  · exact fun x hx => h.limit x (Finset.mem_of_mem_erase hx)
  · exact fun x hx => h.base x (Finset.mem_of_mem_erase hx)
  · intro x hx
    obtain ⟨hne, hx⟩ := Finset.mem_erase.mp hx
    have := h.interest x hx
    simp only [Finset.mem_erase]
    tauto
  · intro todo ht
    obtain ⟨hn, hmem⟩ := h.todo todo ht
    refine ⟨hn, fun x hx => ?_⟩
    have hne : x ≠ fd := fun he => hnot todo ht (he ▸ hx)
    have := hmem x hx
    simp only [Finset.mem_erase]
    tauto

/-- Data from an open client keeps the invariant. -/
theorem Inv.renew (h : Inv k s xs) {fd : Nat} (hfd : fd ∈ s.fds.clients) (now : Int) :
    ∃ t ys, recvBranch s fd .data now = .ok t ∧ Inv k t ys := by
  obtain ⟨p, m, ys, -, hperm, ⟨e, c, hd, hd'⟩, hrun, hl⟩ :=
    recvBranch_data_spec h.toPairs hfd (h.limit fd hfd) now
  exact ⟨_, ys, hrun, h.toPairs.renew hperm hd hl hd' rfl rfl rfl, h.limit, h.base, h.interest,
    h.todo⟩

/-- Between two batches a tick keeps the invariant. -/
theorem Inv.tick (h : Inv k s xs) (hctl : s.ctl = .batch []) (now : Int) :
    ∃ t ys, timerHandler s now = .ok t ∧ Inv k t ys := by
  obtain ⟨fired, rest, m, rfl, -, -, hrun, hl, hd⟩ := timerHandler_spec h.toPairs now
  obtain ⟨-, -, hdisj⟩ := List.nodup_append.mp h.lists.nodup
  have hkept : ∀ p ∈ rest, p ∉ fired := fun p hp hf => hdisj p hf p hp rfl
  refine ⟨_, rest, hrun, ?_, ?_, ?_, ?_, ?_⟩
  · refine h.toPairs.unlist fired (fun p hp => by simp [hp]) ?_ hl ?_ rfl rfl ?_
    · intro q
      have := hkept q
      simp only [List.mem_append]
      tauto
    · intro q hq
      rw [hd, if_neg (hkept q hq)]
    · intro x
      simp only [Finset.mem_sdiff, List.mem_toFinset, List.mem_map, not_exists, not_and, ne_eq]
  · exact fun x hx => h.limit x (Finset.mem_sdiff.mp hx).1
  · exact fun x hx => h.base x (Finset.mem_sdiff.mp hx).1
  · intro x hx
    obtain ⟨hx, hnot⟩ := Finset.mem_sdiff.mp hx
    have := h.interest x hx
    simp only [Finset.mem_sdiff]
    tauto
  · intro todo ht
    obtain rfl : [] = todo := by simpa [hctl] using ht
    simp

/-- Accepting a client whose timer finds a place keeps the invariant. -/
theorem Inv.accept (h : Inv k s xs) {fd : Nat} {p : Ptr} {now : Int} (hfd : fd < fdLimit)
    (hp : ¬s.timerLst.Alloc p) (hfresh : fd ∉ k.base ∪ s.fds.clients)
    (hadd : (s.timerLst.new p (now + 3 * timeslot) 0 fd).added p xs = some ys) :
    ∃ t, acceptBranch s fd p now = .ok t ∧ Inv k t ys := by
  obtain ⟨m, hrun, hl, hd⟩ := acceptBranch_spec h.lists hfd hp hadd
  obtain ⟨hbase, hclient⟩ : fd ∉ k.base ∧ fd ∉ s.fds.clients := by simpa using hfresh
  refine ⟨_, hrun, h.toPairs.accept hclient hp (added_perm hadd) hl hd rfl rfl rfl, ?_, ?_, ?_, ?_⟩
  · intro x hx
    rcases Finset.mem_insert.mp hx with rfl | hx
    · exact hfd
    · exact h.limit x hx
  · intro x hx
    rcases Finset.mem_insert.mp hx with rfl | hx
    · exact hbase
    · exact h.base x hx
  · intro x hx
    simp only [Finset.mem_insert] at hx ⊢
    rcases hx with rfl | hx
    · tauto
    · have := h.interest x hx
      tauto
  · intro todo ht
    obtain ⟨hn, hmem⟩ := h.todo todo ht
    refine ⟨hn, fun x hx => ?_⟩
    have := hmem x hx
    simp only [Finset.mem_insert]
    tauto

/-- One step from a state with the invariant either keeps it or is an `accept`
whose record or timer has no place. -/
theorem Inv.step (h : Inv k s xs) {e : Event} (ha : s.Allowed k e) :
    (∃ t ys, s.step k e = .ok t ∧ Inv k t ys) ∨
      ∃ connfd p now, e = .accept connfd p now ∧
        (s.step k e = .error .outOfRange ∨ s.step k e = .error .null) := by
  obtain ⟨hat, hkernel⟩ := ha
  cases e with
  | wake ready =>
      have hctl := Server.at_waiting hat (Or.inl ⟨ready, rfl⟩)
      refine Or.inl ⟨{ s with ctl := .batch ready }, xs, by simp [Server.step, hctl],
        ⟨h.lists, h.timer, h.client⟩, h.limit, h.base, h.interest, ?_⟩
      intro todo ht
      obtain rfl : ready = todo := by simpa using ht
      exact ⟨hkernel.1, fun fd hfd => h.interest fd (hkernel.2 fd hfd)⟩
  | fail =>
      have hctl := Server.at_waiting hat (Or.inr rfl)
      exact Or.inl ⟨{ s with ctl := .left }, xs, by simp [Server.step, hctl],
        ⟨h.lists, h.timer, h.client⟩, h.limit, h.base, h.interest, by simp⟩
  | accept connfd p now =>
      obtain ⟨todo, hctl⟩ := Server.at_accept hat
      have hnext := (h.next hctl).1
      obtain ⟨hp, hfresh⟩ := hkernel
      have hstep : s.step k (.accept connfd p now) =
          acceptBranch { s with ctl := .batch todo } connfd p now := by
        simp [Server.step, hctl]
      rw [hstep]
      by_cases hr : connfd < 0 ∨ (fdLimit : Int) ≤ connfd
      · exact Or.inr ⟨connfd, p, now, rfl,
          acceptBranch_fault hnext.lists (by tauto) hp⟩
      · obtain ⟨fd, rfl⟩ : ∃ fd : Nat, connfd = fd := ⟨connfd.toNat, by omega⟩
        cases hadd : (s.timerLst.new p (now + 3 * timeslot) 0 fd).added p xs with
        | none =>
            exact Or.inr ⟨fd, p, now, rfl,
              acceptBranch_fault hnext.lists (Or.inr (Or.inr (by simpa using hadd))) hp⟩
        | some ys =>
            obtain ⟨t, hrun, ht⟩ := hnext.accept (by omega) hp
              (by simpa using hfresh.resolve_left (by omega)) hadd
            exact Or.inl ⟨t, ys, hrun, ht⟩
  | signals bytes =>
      obtain ⟨todo, hctl⟩ := Server.at_signals hat
      have hnext := (h.next hctl).1
      exact Or.inl ⟨signalBranch { s with ctl := .batch todo } bytes, xs,
        by simp [Server.step, hctl], ⟨hnext.lists, hnext.timer, hnext.client⟩, hnext.limit,
        hnext.base, hnext.interest, hnext.todo⟩
  | recv r now =>
      obtain ⟨fd, todo, hctl, hl, hs⟩ := Server.at_recv hat
      obtain ⟨hnext, hnot, hmem⟩ := h.next hctl
      have hfd : fd ∈ s.fds.clients := by tauto
      have hlim := Nat.not_le.mpr (h.limit fd hfd)
      have hstep : s.step k (.recv r now) = recvBranch { s with ctl := .batch todo } fd r now := by
        simp [Server.step, hctl, hl, hs]
      have hnot' : ∀ todo', ({ s with ctl := .batch todo } : Server).ctl = .batch todo' →
          fd ∉ todo' := by
        intro todo' ht
        obtain rfl : todo = todo' := by simpa using ht
        exact hnot
      rw [hstep]
      apply Or.inl
      cases r with
      | data => exact hnext.renew hfd now
      | eof => simpa [recvBranch, hlim] using hnext.close hfd hnot'
      | again => exact ⟨_, xs, by simp [recvBranch, hlim], hnext⟩
      | error => simpa [recvBranch, hlim] using hnext.close hfd hnot'
  | skip =>
      obtain ⟨fd, todo, hctl, hl⟩ := Server.at_skip hat
      exact Or.inl ⟨_, xs, by simp [Server.step, hctl, hl], (h.next hctl).1⟩
  | endBatch now =>
      have hctl := Server.at_endBatch hat
      obtain ⟨t, ys, hrun, ht⟩ : ∃ t ys, timeoutBranch s now = .ok t ∧ Inv k t ys := by
        by_cases hto : s.timeout = true
        · simpa [timeoutBranch, hto] using h.tick hctl now
        · exact ⟨s, xs, by simp [timeoutBranch, hto], h⟩
      refine Or.inl ⟨{ t with timeout := false, ctl := if t.stopServer then .left else .waiting },
        ys, by simp [Server.step, hctl, hrun], ⟨ht.lists, ht.timer, ht.client⟩, ht.limit, ht.base,
        ht.interest, ?_⟩
      intro todo htodo
      cases hst : t.stopServer <;> simp [hst] at htodo

/-- A step that meets no fault keeps the invariant. -/
theorem Inv.of_step (h : Inv k s xs) {e : Event} (ha : s.Allowed k e) (hs : s.step k e = .ok t) :
    ∃ ys, Inv k t ys := by
  rcases h.step ha with ⟨t', ys, ht', hi'⟩ | ⟨_, _, _, -, hf | hf⟩
  · obtain rfl : t' = t := Except.ok.inj (ht'.symm.trans hs)
    exact ⟨ys, hi'⟩
  · cases hf.symm.trans hs
  · cases hf.symm.trans hs

/-- The server starts with no client and no timer. -/
theorem inv_start (k : Setup) (users : Nat → ClientData) (clock : Int) :
    Inv k (Server.start k users clock) [] := by
  refine ⟨⟨lists_empty, by simp, by simp [Server.start]⟩, by simp [Server.start],
    by simp [Server.start], ?_, by simp [Server.start]⟩
  intro fd hfd
  simp only [Server.start, Finset.mem_insert, Finset.mem_singleton] at hfd ⊢
  tauto

/-- The invariant holds in every state reached without a memory error. -/
theorem inv_of_run {users : Nat → ClientData} {clock : Int} {es : List Event}
    (h : (machine k users clock).Run es s) : ∃ xs, Inv k s xs := by
  refine h.invariant (I := fun s => ∃ xs, Inv k s xs) ⟨[], inv_start k users clock⟩ ?_
  rintro s e t ⟨xs, hi⟩ ha hs
  exact hi.of_step ha hs

/-- The user data of the listed timers is a bijection onto the open clients, and
the record of each open client points back to its timer. -/
def Server.Paired (s : Server) : Prop :=
  ∃ xs, s.timerLst.Lists xs ∧
    Set.BijOn s.timerLst.userDataOf {p | p ∈ xs} {fd | fd ∈ s.fds.clients} ∧
    ∀ p ∈ xs, s.users (s.timerLst.userDataOf p) = ⟨s.timerLst.userDataOf p, some p⟩

theorem Pairs.paired (h : Pairs s xs) : s.Paired := by
  have hdata : ∀ p ∈ xs, ∃ fd ∈ s.fds.clients, s.timerLst.userDataOf p = fd ∧
      s.users fd = ⟨fd, some p⟩ := by
    intro p hp
    obtain ⟨e, c, fd, hfd, hd, hu⟩ := h.timer p hp
    exact ⟨fd, hfd, by simp [userDataOf, hd], hu⟩
  refine ⟨xs, h.lists, ⟨?_, ?_, ?_⟩, ?_⟩
  · intro p hp
    obtain ⟨fd, hfd, he, -⟩ := hdata p hp
    simpa [he] using hfd
  · exact fun p hp q hq he => h.injective hp hq he
  · intro fd hfd
    obtain ⟨p, hp, e, c, hd⟩ := h.client fd hfd
    exact ⟨p, hp, by simp [userDataOf, hd]⟩
  · intro p hp
    obtain ⟨fd, -, he, hu⟩ := hdata p hp
    rw [he, hu]

/-- In every state reached without a memory error timers and open clients are in
bijection, and the only step that can fault is an `accept`, outside `users` or at
a null pointer: no handler touches a released timer. -/
theorem idle_timers_paired (k : Setup) (users : Nat → ClientData) (clock : Int)
    {es : List Event} {s : Server} (h : (machine k users clock).Run es s) :
    s.Paired ∧ ∀ e x, s.Allowed k e → s.step k e = .error x →
      (∃ connfd p now, e = .accept connfd p now) ∧ (x = .outOfRange ∨ x = .null) := by
  obtain ⟨xs, hi⟩ := inv_of_run h
  refine ⟨hi.toPairs.paired, ?_⟩
  intro e x ha hx
  rcases hi.step ha with ⟨t, ys, ht, -⟩ | ⟨connfd, p, now, he, hf | hf⟩
  · cases ht.symm.trans hx
  · exact ⟨⟨connfd, p, now, he⟩, Or.inl (Except.error.inj (hx.symm.trans hf))⟩
  · exact ⟨⟨connfd, p, now, he⟩, Or.inr (Except.error.inj (hx.symm.trans hf))⟩

theorem sample_listenfd_mem : 3 ∈ ({0, 1, 2, 3, 4, 5, 6} : Finset Nat) := by decide

/-- A server whose own descriptors are 0 to 6, listening on 3. -/
def sampleSetup : Setup := ⟨3, 4, {0, 1, 2, 3, 4, 5, 6}, sample_listenfd_mem, by decide, by decide⟩

/-- A client is accepted, sends data and leaves; in the same batch another gets its
descriptor and its timer's address. -/
def sampleReuse : List Event :=
  [.wake [3], .accept 7 1 0, .endBatch 0, .wake [7], .recv .data 2, .endBatch 2,
    .wake [7, 3], .recv .eof 4, .accept 7 1 4]

/-- Client and timer are paired then. -/
theorem idle_timers_paired_reuse :
    ∃ s, (machine sampleSetup (fun _ => ⟨0, none⟩) 0).Run sampleReuse s ∧ s.Paired :=
  have hrun := Machine.Run.of_exec (M := machine sampleSetup (fun _ => ⟨0, none⟩) 0)
    sampleReuse (by decide) rfl
  ⟨_, hrun, (idle_timers_paired _ _ _ hrun).1⟩

end Idle

end LinuxWebsocket
