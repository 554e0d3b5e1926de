import LinuxWebsocket.Chat.Registry
import Mathlib.Data.Finset.Lattice.Lemmas

/-!
# The parent's descriptors

What `main` opens before the loop and what the loop opens and closes. Between two
events the parent holds its own four descriptors and one end of each client's pipe,
until a `fork` fails: that path closes the connection but neither end of the pipe.
-/

namespace LinuxWebsocket

namespace Chat

open CompactTable

variable {k : Setup} {s t : Parent}

/-- The descriptors `main` opens before the loop, in this order; each is new when it is
opened. -/
structure Startup where
  /-- Open when `main` is entered. -/
  inherited : Finset Nat
  listenfd : Nat
  listen_new : listenfd ∉ inherited
  epollfd : Nat
  epoll_new : epollfd ∉ insert listenfd inherited
  sigfd0 : Nat
  sig0_new : sigfd0 ∉ insert epollfd (insert listenfd inherited)
  sigfd1 : Nat
  sig1_new : sigfd1 ∉ insert sigfd0 (insert epollfd (insert listenfd inherited))
  shmfd : Nat
  shm_new : shmfd ∉ insert sigfd1 (insert sigfd0 (insert epollfd (insert listenfd inherited)))

/-- What is open before `shm_open`. -/
def Startup.opened (u : Startup) : Finset Nat :=
  insert u.sigfd1 (insert u.sigfd0 (insert u.epollfd (insert u.listenfd u.inherited)))

/-- What is open when the loop is entered: `shmfd` is closed again. -/
def Startup.base (u : Startup) : Finset Nat := (insert u.shmfd u.opened).erase u.shmfd

@[simp] theorem Startup.base_eq (u : Startup) : u.base = u.opened :=
  Finset.erase_insert u.shm_new

/-- The loop behind the setup. -/
def Startup.setup (u : Startup) : Setup where
  listenfd := u.listenfd
  sigfd := u.sigfd0
  base := u.base
  listen_mem := by simp [Startup.opened]
  sig_mem := by simp [Startup.opened]
  ne := fun he => u.sig0_new (he ▸ Finset.mem_insert_of_mem (Finset.mem_insert_self ..))

/-- Opened by the parent and still open are its own four descriptors and
`users[i].pipefd[0]` for each `i` below `user_count`. -/
def Startup.Owned (u : Startup) (s : Parent) : Prop :=
  s.kernel.fds \ u.inherited = {u.listenfd, u.epollfd, u.sigfd0, u.sigfd1} ∪
    ((entries s.users s.userCount).map ClientData.pipefd0).toFinset

instance (u : Startup) (s : Parent) : Decidable (u.Owned s) :=
  inferInstanceAs (Decidable (_ = _))

/-- The step meets no fault; back in `epoll_wait` the parent holds what it should; and a
connection that makes no client leaves no descriptor behind, unless an assertion ended
the process. -/
def Startup.Accounts (u : Startup) (s : Parent) (e : Event) : Prop :=
  ∃ t, s.step u.setup e = .ok t ∧ (t.ctl = .waiting → u.Owned t) ∧
    ∀ a, e = .accept a → ¬s.admits e → t.ctl ≠ .aborted → t.kernel.fds = s.kernel.fds

/-- No `fork` fails behind an `accept` and a `socketpair` that succeeded. -/
def Parent.Forks (s : Parent) : Event → Prop
  | .accept ⟨some _, some _, none⟩ => userLimit ≤ s.userCount
  | _ => True

instance (s : Parent) (e : Event) : Decidable (s.Forks e) := by
  unfold Parent.Forks
  split <;> infer_instance

/-- Every open descriptor was open before the loop or is registered. -/
def Parent.Held (k : Setup) (s : Parent) : Prop :=
  s.ctl ≠ .aborted → s.kernel.fds = k.base ∪ s.kernel.interest

theorem held_start (k : Setup) (users : Nat → ClientData) : (Parent.start k users).Held k := by
  intro _
  have hsub : {k.listenfd, k.sigfd} ⊆ k.base := by
    simp [Finset.insert_subset_iff, k.listen_mem, k.sig_mem]
  exact (Finset.union_eq_left.mpr hsub).symm

/-- The pipes in the records in use are those of the children. -/
theorem Inv.mem_pipes_iff (h : Inv k s) {fd : Nat} :
    fd ∈ (entries s.users s.userCount).map ClientData.pipefd0 ↔
      ∃ p ∈ s.kernel.procs, p.pipe = fd := by
  have hmap : (entries s.users s.userCount).map ClientData.pipefd0 = s.records.map Prod.snd := by
    simp [Parent.records, entries, ClientData.record]
  rw [hmap, (h.table.map Prod.snd).mem_iff, List.map_map]
  exact List.mem_map

/-- Own descriptors and registered ones are those the parent should hold. -/
theorem Inv.owned {u : Startup} (h : Inv u.setup s) (hs : s.Held u.setup)
    (hctl : s.ctl ≠ .aborted) : u.Owned s := by
  have hpipe : ∀ fd, (∃ p ∈ s.kernel.procs, p.pipe = fd) → fd ∉ u.inherited := by
    rintro fd ⟨p, hp, rfl⟩ hin
    apply h.base.2 p hp
    simp [Startup.setup, Startup.opened, hin]
  have h1 := u.listen_new
  have h2 := u.epoll_new
  have h3 := u.sig0_new
  have h4 := u.sig1_new
  simp only [Finset.mem_insert, not_or] at h2 h3 h4
  unfold Startup.Owned
  ext fd
  rw [hs hctl]
  simp only [Finset.mem_sdiff, Finset.mem_union, h.interest, Startup.setup, Startup.base_eq,
    Startup.opened, Finset.mem_insert, Finset.mem_singleton, List.mem_toFinset, h.mem_pipes_iff]
  constructor
  · rintro ⟨(rfl | rfl | rfl | rfl | hin) | (rfl | rfl | hp), hnot⟩
    all_goals tauto
  · rintro ((rfl | rfl | rfl | rfl) | hp)
    · exact ⟨by tauto, h1⟩
    · exact ⟨by tauto, h2.2⟩
    · exact ⟨by tauto, h3.2.2⟩
    · exact ⟨by tauto, h4.2.2.2⟩
    · exact ⟨Or.inr (Or.inr (Or.inr hp)), hpipe fd hp⟩

/-- Registering a new child's pipe accounts for the one descriptor that is kept. -/
theorem Parent.Held.admitted (h : s.Held k) (hctl : s.ctl ≠ .aborted)
    (connfd pid fd0 fd1 : Nat) : (s.admitted connfd pid fd0 fd1).Held k := by
  intro _
  rw [Parent.admitted, h hctl]
  exact (Finset.union_insert ..).symm

/-- Reaping a child closes the one descriptor whose registration ends. -/
theorem Inv.held_reaped (hi : Inv k s) (h : s.Held k) {i : Nat} {p : Proc}
    (hp : p ∈ s.kernel.procs) : (s.reaped i p).Held k := by
  intro hctl
  have hbase : k.base.erase p.pipe = k.base := Finset.erase_eq_of_notMem (hi.base.2 p hp)
  rw [Parent.reaped, h hctl, Finset.erase_union_distrib, hbase]

/-- Every move but a failed `fork` keeps the parent's descriptors held. -/
theorem Inv.held_move (hi : Inv k s) (h : s.Held k) {e : Event} (hm : Move k s e t)
    (hf : s.Forks e) : t.Held k := by
  have hquiet {u : Parent} (hctl : s.ctl ≠ .aborted) (hk : u.kernel = s.kernel) : u.Held k := by
    intro _
    rw [hk]
    exact h hctl
  cases hm with
  | wake hctl => exact hquiet (by simp [hctl]) rfl
  | fail hctl => exact hquiet (by simp [hctl]) rfl
  | refused hctl => exact hquiet (by simp [hctl]) rfl
  | aborted => exact fun hno => absurd rfl hno
  | unforked _ hn => exact absurd hf (Nat.not_le.mpr hn)
  | @admitted connfd fd0 fd1 pid todo hctl =>
      have hb : ({ s with ctl := .batch todo } : Parent).Held k :=
        hquiet (by simp [hctl]) rfl
      exact hb.admitted (by simp) connfd pid fd0 fd1
  | signals hctl => exact hquiet (by simp [hctl]) rfl
  | chld hctl => exact hquiet (by simp [hctl]) rfl
  | ignored hctl => exact hquiet (by simp [hctl]) rfl
  | stop hctl => exact hquiet (by simp [hctl]) rfl
  | kill hctl => exact hquiet (by simp [hctl]) rfl
  | bytesDone hctl => exact hquiet (by simp [hctl]) rfl
  | reaped _ hp => exact hi.held_reaped h hp
  | endReap hctl => exact hquiet (by simp [hctl]) rfl
  | notify hctl => exact hquiet (by simp [hctl]) rfl
  | endBatch hctl => exact hquiet (by simp [hctl]) rfl
  | die => exact h

/-- A connection that makes no client leaves nothing open, unless a `fork` fails. -/
theorem Move.fds_eq {a : Accepted} (hm : Move k s (.accept a) t) (hf : s.Forks (.accept a))
    (hno : ¬s.admits (.accept a)) (hctl : t.ctl ≠ .aborted) : t.kernel.fds = s.kernel.fds := by
  cases hm with
  | refused => rfl
  | aborted => exact absurd rfl hctl
  | unforked _ hn => exact absurd hf (Nat.not_le.mpr hn)
  | admitted _ hn => exact absurd hn hno

/-- A step accounts for the descriptors exactly when no `fork` fails in it. -/
theorem accounts_iff {u : Startup} (hi : Inv u.setup s) (h : s.Held u.setup) {e : Event}
    (ha : s.Allowed u.setup e) : u.Accounts s e ↔ s.Forks e := by
  obtain ⟨t, ht, hm⟩ := hi.step_move ha
  constructor
  · rintro ⟨t', ht', -, hsame⟩
    obtain rfl := Except.ok.inj (ht'.symm.trans ht)
    cases hm with
    | @refused a todo _ hno =>
        obtain ⟨_ | connfd, _ | fds, _ | pid⟩ := a <;> simp_all [Parent.Forks]
    | @unforked connfd fd0 fd1 todo hctl hn =>
        have hfds := hsame _ rfl nofun (by simp [Parent.unforked])
        have hnew : fd0 ∉ s.kernel.fds := (ha.2.2.1 (fd0, fd1) rfl).1
        exact absurd (hfds ▸ Finset.mem_insert_self fd0 _) hnew
    | _ => trivial
  · intro hf
    refine ⟨t, ht, fun hctl => ?_, ?_⟩
    · exact (hi.move hm).owned (hi.held_move h hm hf) (by simp [hctl])
    · rintro a rfl hno hctl
      exact hm.fds_eq hf hno hctl

/-- The loop is entered with the descriptors the parent should hold; and in every run it
accounts for its descriptors throughout if and only if no `fork` fails behind an
`accept` and a `socketpair` that succeeded. -/
theorem descriptors_iff (u : Startup) (users : Nat → ClientData) (es : List Event)
    (ha : (parentMachine u.setup users).Along (parentMachine u.setup users).Allowed
      (.start u.setup users) es) :
    u.Owned (.start u.setup users) ∧
      ((parentMachine u.setup users).Along u.Accounts (.start u.setup users) es ↔
        (parentMachine u.setup users).Along Parent.Forks (.start u.setup users) es) := by
  have hi := inv_start u.setup users
  have hs := held_start u.setup users
  refine ⟨hi.owned hs (by simp [Parent.start]), ?_⟩
  refine Machine.along_iff (M := parentMachine u.setup users)
    (I := fun s => Inv u.setup s ∧ s.Held u.setup)
    (fun s e h hallowed => accounts_iff h.1 h.2 hallowed) ?_ ⟨hi, hs⟩ ha
  rintro s e t ⟨hi, h⟩ hallowed hf hs
  have hm := hi.move_of_step hallowed hs
  exact ⟨hi.move hm, hi.held_move h hm hf⟩

/-- A parent that inherits 0 to 2 and opens 3 to 7, the last of them for `shm_open`. -/
def sampleStartup : Startup :=
  ⟨{0, 1, 2}, 3, by decide, 4, by decide, 5, by decide, 6, by decide, 7, by decide⟩

/-- A client is admitted, the next `accept` fails, and the client is reaped. -/
theorem descriptors_reaped :
    (parentMachine sampleStartup.setup fun _ => ⟨0, 0, 0, 0⟩).Along sampleStartup.Accounts
      (.start sampleStartup.setup fun _ => ⟨0, 0, 0, 0⟩)
      [.wake [3], .accept ⟨some 7, some (8, 9), some 101⟩, .endBatch,
        .wake [3], .accept ⟨none, none, none⟩, .endBatch, .die 101,
        .wake [5], .signals [.chld], .byte, .waitpid (some 101), .waitpid none, .byte,
        .endBatch] :=
  ((descriptors_iff _ _ _ (by decide)).2).mpr (by decide)

/-- A `fork` fails, and back in `epoll_wait` both ends of the pipe are still open. -/
theorem descriptors_leaked :
    ∃ s, (parentMachine sampleStartup.setup fun _ => ⟨0, 0, 0, 0⟩).Run
      [.wake [3], .accept ⟨some 7, some (8, 9), none⟩, .endBatch] s ∧
      s.ctl = .waiting ∧ s.userCount = 0 ∧ 8 ∈ s.kernel.fds ∧ 9 ∈ s.kernel.fds ∧
      ¬sampleStartup.Owned s :=
  ⟨_, Machine.Run.of_exec _ (by decide) rfl, rfl, rfl, by decide, by decide, by decide⟩

end Chat

end LinuxWebsocket
