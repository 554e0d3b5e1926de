import LinuxWebsocket.Chat.Parent
import Mathlib.Data.Finset.Insert

/-!
# The clients' records and the children

`users[0..user_count)` holds the number and the pipe of every child not yet waited
for, and `sub_process` maps each of these numbers back to its slot. A reaped child's
record is overwritten by the last one, so the two tables are rewritten together.
What one step can do is said once, in `Move`; the invariants of the parent are
read off it.
-/

namespace LinuxWebsocket

namespace Chat

open CompactTable

variable {k : Setup} {s t : Parent}

/-- What identifies a client's child: its number and the parent's end of its pipe. -/
def ClientData.record (c : ClientData) : Nat × Nat := (c.pid, c.pipefd0)

/-- The record a child should have. -/
def Proc.record (p : Proc) : Nat × Nat := (p.pid, p.pipe)

/-- The records in `users[0..user_count)`. -/
def Parent.records (s : Parent) : List (Nat × Nat) :=
  entries (fun i => (s.users i).record) s.userCount

/-- The two tables and the kernel agree. -/
structure Inv (k : Setup) (s : Parent) : Prop where
  count : s.userCount ≤ userLimit
  /-- The records are those of the children, in some order. -/
  table : s.records.Perm (s.kernel.procs.map Proc.record)
  pids : (s.kernel.procs.map Proc.pid).Nodup
  pipes : (s.kernel.procs.map Proc.pipe).Nodup
  limit : ∀ p ∈ s.kernel.procs, p.pid < processLimit
  /-- Slots are handed out below `USER_LIMIT`. -/
  slots : ∀ p ∈ s.kernel.procs, p.idx < userLimit
  /-- `sub_process` maps the number of a client's child to its slot. -/
  index : Indexed (fun i => (s.users i).pid) s.userCount s.subProcess
  /-- Registered are the listening socket, the signal pipe and the children's pipes. -/
  interest : ∀ fd, fd ∈ s.kernel.interest ↔
    fd = k.listenfd ∨ fd = k.sigfd ∨ ∃ p ∈ s.kernel.procs, p.pipe = fd
  /-- A registered descriptor is open. -/
  opened : s.kernel.interest ⊆ s.kernel.fds
  /-- The descriptors opened before the loop stay open, and are not pipes. -/
  base : k.base ⊆ s.kernel.fds ∧ ∀ p ∈ s.kernel.procs, p.pipe ∉ k.base
  /-- Serial numbers tell the children apart. -/
  serials : (s.kernel.procs.map Proc.serial).Nodup ∧
    ∀ p ∈ s.kernel.procs, p.serial < s.kernel.forks

/-- A state that differs only in slots out of use, in descriptors opened and in
what the tables do not depend on. -/
theorem Inv.frame (h : Inv k s) (hn : t.userCount = s.userCount)
    (hu : ∀ i, i < s.userCount → t.users i = s.users i) (hx : t.subProcess = s.subProcess)
    (hp : t.kernel.procs = s.kernel.procs) (hw : t.kernel.forks = s.kernel.forks)
    (hi : t.kernel.interest = s.kernel.interest) (hf : s.kernel.fds ⊆ t.kernel.fds) : Inv k t := by
  have hr : t.records = s.records := by
    unfold Parent.records
    rw [hn]
    exact entries_congr fun i hi => by rw [hu i hi]
  refine ⟨hn ▸ h.count, by rw [hr, hp]; exact h.table, hp ▸ h.pids, hp ▸ h.pipes, hp ▸ h.limit,
    hp ▸ h.slots, ?_,
    by rw [hi, hp]; exact h.interest, hi ▸ h.opened.trans hf,
    ⟨h.base.1.trans hf, hp ▸ h.base.2⟩, by rw [hp, hw]; exact h.serials⟩
  intro i hin
  rw [hn] at hin
  simp only [hx, hu i hin]
  exact h.index i hin

/-- The child of a slot in use. -/
theorem Inv.proc_of_slot (h : Inv k s) {i : Nat} (hi : i < s.userCount) :
    ∃ p ∈ s.kernel.procs, p.record = (s.users i).record := by
  have hm : (s.users i).record ∈ s.records := mem_entries.mpr ⟨i, hi, rfl⟩
  exact List.mem_map.mp (h.table.mem_iff.mp hm)

/-- The slot of a child. -/
theorem Inv.slot_of_proc (h : Inv k s) {p : Proc} (hp : p ∈ s.kernel.procs) :
    ∃ i, i < s.userCount ∧ (s.users i).record = p.record := by
  have hm : p.record ∈ s.records := h.table.mem_iff.mpr (List.mem_map_of_mem hp)
  exact mem_entries.mp hm

/-- Registered clients are as many as children. -/
theorem Inv.length_procs (h : Inv k s) : s.kernel.procs.length = s.userCount := by
  have hl := h.table.length_eq
  rw [List.length_map, Parent.records, length_entries] at hl
  exact hl.symm

/-- Each record is there once. -/
theorem Inv.records_nodup (h : Inv k s) : s.records.Nodup := by
  refine h.table.nodup_iff.mpr (List.Nodup.of_map Prod.fst ?_)
  rw [List.map_map]
  exact h.pids

/-- Children are told apart by their numbers. -/
theorem Inv.pid_injective (h : Inv k s) {p q : Proc} (hp : p ∈ s.kernel.procs)
    (hq : q ∈ s.kernel.procs) (he : p.pid = q.pid) : p = q :=
  List.inj_on_of_nodup_map h.pids hp hq he

/-- Children are told apart by their pipes. -/
theorem Inv.pipe_injective (h : Inv k s) {p q : Proc} (hp : p ∈ s.kernel.procs)
    (hq : q ∈ s.kernel.procs) (he : p.pipe = q.pipe) : p = q :=
  List.inj_on_of_nodup_map h.pipes hp hq he

/-- A child's pipe is open and registered. -/
theorem Inv.pipe_mem (h : Inv k s) {p : Proc} (hp : p ∈ s.kernel.procs) :
    p.pipe ∈ s.kernel.interest ∧ p.pipe ∈ s.kernel.fds := by
  have hi := (h.interest p.pipe).mpr (Or.inr (Or.inr ⟨p, hp, rfl⟩))
  exact ⟨hi, h.opened hi⟩

/-- The parent starts with no client. -/
theorem inv_start (k : Setup) (users : Nat → ClientData) : Inv k (.start k users) := by
  refine ⟨Nat.zero_le _, List.Perm.refl _, List.nodup_nil, List.nodup_nil, by simp [Parent.start],
    by simp [Parent.start], ?_, ?_, ?_, ⟨Finset.Subset.refl _, by simp [Parent.start]⟩,
    List.nodup_nil, by simp [Parent.start]⟩
  · intro i hi
    exact absurd hi (Nat.not_lt_zero i)
  · simp [Parent.start]
  · intro fd hfd
    rcases Finset.mem_insert.mp hfd with rfl | hfd
    · exact k.listen_mem
    · exact Finset.mem_singleton.mp hfd ▸ k.sig_mem

/-- The loops over the clients read the slots in use. -/
theorem clients_eq (h : s.userCount ≤ userLimit) :
    s.clients = .ok (entries s.users s.userCount) := by
  have hread (is : List Nat) (hi : ∀ i ∈ is, i ≤ userLimit) :
      is.mapM s.user = .ok (is.map s.users) := by
    induction is with
    | nil => rfl
    | cons i is ih =>
        rw [List.mapM_cons, Parent.user, if_pos (hi i (List.mem_cons_self ..)),
          ih fun j hj => hi j (List.mem_cons_of_mem _ hj)]
        rfl
  refine hread _ fun i hi => ?_
  have := List.mem_range.mp hi
  omega

/-- The parent with one more child, in the first free slot. -/
def Parent.admitted (s : Parent) (connfd pid fd0 fd1 : Nat) : Parent :=
  { s with
    users := Function.update s.users s.userCount ⟨connfd, pid, fd0, fd1⟩
    subProcess := Function.update s.subProcess pid s.userCount
    userCount := s.userCount + 1
    kernel :=
      { fds := insert fd0 s.kernel.fds
        interest := insert fd0 s.kernel.interest
        procs := s.kernel.procs ++ [⟨pid, s.userCount, fd0, s.kernel.forks, false⟩]
        forks := s.kernel.forks + 1 } }

/-- The parent behind a failed `fork`: both ends of the pipe stay open. -/
def Parent.unforked (s : Parent) (connfd fd0 fd1 : Nat) : Parent :=
  { s with
    users := Function.update s.users s.userCount
      ⟨connfd, (s.users s.userCount).pid, fd0, fd1⟩
    kernel := { s.kernel with fds := insert fd0 (insert fd1 s.kernel.fds) } }

/-- The parent without the child of slot `i`, whose place the last record takes. -/
def Parent.reaped (s : Parent) (i : Nat) (p : Proc) : Parent :=
  { s with
    users := Function.update s.users i (s.users (s.userCount - 1))
    subProcess := Function.update (Function.update s.subProcess p.pid (-1))
      (s.users (s.userCount - 1)).pid i
    userCount := s.userCount - 1
    kernel :=
      { s.kernel with
        fds := s.kernel.fds.erase p.pipe
        interest := s.kernel.interest.erase p.pipe
        procs := s.kernel.procs.filter fun q => q.pid ≠ p.pid } }

/-- What handling an index read from `fd` writes, latest write first. -/
def Parent.forwards (s : Parent) (fd : Nat) : Option Nat → List (Nat × Nat)
  | none => []
  | some idx => (((s.records.map Prod.snd).filter fun x => x ≠ fd).map fun x => (x, idx)).reverse

/-- Everything one step can do. -/
inductive Move (k : Setup) (s : Parent) : Event → Parent → Prop
  | wake {ready : List Nat} : s.ctl = .waiting → ready.Nodup →
      (∀ fd ∈ ready, fd ∈ s.kernel.interest) → Move k s (.wake ready) { s with ctl := .batch ready }
  | fail : s.ctl = .waiting → Move k s .fail { s with ctl := .failed }
  /-- `accept` failed, or the client was turned away. -/
  | refused {a : Accepted} {todo : List Nat} : s.ctl = .batch (k.listenfd :: todo) →
      (a.connfd = none ∨ userLimit ≤ s.userCount) →
        Move k s (.accept a) { s with ctl := .batch todo }
  | aborted {connfd : Nat} {pid : Option Nat} {todo : List Nat} :
      s.ctl = .batch (k.listenfd :: todo) → s.userCount < userLimit →
      Move k s (.accept ⟨some connfd, none, pid⟩) { s.opened [connfd] with ctl := .aborted }
  | unforked {connfd fd0 fd1 : Nat} {todo : List Nat} :
      s.ctl = .batch (k.listenfd :: todo) → s.userCount < userLimit →
      Move k s (.accept ⟨some connfd, some (fd0, fd1), none⟩)
        (({ s with ctl := .batch todo } : Parent).unforked connfd fd0 fd1)
  | admitted {connfd fd0 fd1 pid : Nat} {todo : List Nat} :
      s.ctl = .batch (k.listenfd :: todo) → s.userCount < userLimit → fd0 ∉ s.kernel.fds →
      pid < processLimit → (∀ p ∈ s.kernel.procs, p.pid ≠ pid) →
      Move k s (.accept ⟨some connfd, some (fd0, fd1), some pid⟩)
        (({ s with ctl := .batch todo } : Parent).admitted connfd pid fd0 fd1)
  | signals {bytes : List Signal} {todo : List Nat} : s.ctl = .batch (k.sigfd :: todo) →
      Move k s (.signals bytes) { s with ctl := .signals bytes todo }
  | chld {bytes : List Signal} {todo : List Nat} : s.ctl = .signals (.chld :: bytes) todo →
      Move k s .byte { s with ctl := .reaping bytes todo }
  | ignored {bytes : List Signal} {todo : List Nat} : s.ctl = .signals (.other :: bytes) todo →
      Move k s .byte { s with ctl := .signals bytes todo }
  /-- `SIGTERM` or `SIGINT` without a client. -/
  | stop {b : Signal} {bytes : List Signal} {todo : List Nat} : s.ctl = .signals (b :: bytes) todo →
      (b = .term ∨ b = .int) → s.userCount = 0 →
      Move k s .byte { s with ctl := .signals bytes todo, asked := true, stopServer := true }
  /-- `SIGTERM` or `SIGINT` with clients. -/
  | kill {b : Signal} {bytes : List Signal} {todo : List Nat} : s.ctl = .signals (b :: bytes) todo →
      (b = .term ∨ b = .int) → s.userCount ≠ 0 →
      Move k s .byte { s with
        ctl := .signals bytes todo, asked := true, terminate := true
        killed := (s.records.map Prod.fst).reverse ++ s.killed }
  | bytesDone {todo : List Nat} : s.ctl = .signals [] todo →
      Move k s .byte { s with ctl := .batch todo }
  | reaped {bytes : List Signal} {todo : List Nat} {i : Nat} {p : Proc} :
      s.ctl = .reaping bytes todo → p ∈ s.kernel.procs → p.dead = true → i < s.userCount →
      (s.users i).record = p.record → Move k s (.waitpid (some p.pid)) (s.reaped i p)
  | endReap {bytes : List Signal} {todo : List Nat} : s.ctl = .reaping bytes todo →
      Move k s (.waitpid none) { s with
        ctl := .signals bytes todo
        stopServer := s.stopServer || (s.terminate && s.userCount == 0) }
  | notify {fd : Nat} {todo : List Nat} {idx : Option Nat} : s.ctl = .batch (fd :: todo) →
      fd ≠ k.listenfd → fd ≠ k.sigfd →
      Move k s (.notify idx) { s with ctl := .batch todo, sent := s.forwards fd idx ++ s.sent }
  | endBatch : s.ctl = .batch [] →
      Move k s .endBatch { s with ctl := if s.stopServer then .left else .waiting }
  | die {p : Proc} : p ∈ s.kernel.procs → p.dead = false → Move k s (.die p.pid) (s.died p.pid)

/-- The branch of the pipes changes nothing in the parent but what it has written. -/
theorem Move.notify_eq {idx : Option Nat} {fd : Nat} {todo : List Nat}
    (hm : Move k s (.notify idx) t) (hctl : s.ctl = .batch (fd :: todo)) :
    t = { s with ctl := .batch todo, sent := s.forwards fd idx ++ s.sent } := by
  cases hm with
  | notify hctl' =>
      obtain ⟨rfl, rfl⟩ : _ ∧ _ := by simpa using hctl'.symm.trans hctl
      rfl

private theorem erase_union_fresh {fds : Finset Nat} {fd : Nat} (h : fd ∉ fds) :
    (fds ∪ [fd].toFinset).erase fd = fds := by
  ext x
  by_cases hx : x = fd <;> simp [hx, h]

/-- Turning a client away leaves the kernel as it was. -/
theorem close_opened {fd : Nat} (hi : s.kernel.interest ⊆ s.kernel.fds) (hfd : fd ∉ s.kernel.fds) :
    (s.opened [fd]).close fd = s := by
  have hint : s.kernel.interest.erase fd = s.kernel.interest :=
    Finset.erase_eq_of_notMem fun hm => hfd (hi hm)
  simp only [Parent.opened, Parent.close, erase_union_fresh hfd, hint]

/-- Behind a successful `fork` the parent has the new child in its first free slot. -/
theorem acceptBranch_admitted {connfd fd0 fd1 pid : Nat} (hi : s.kernel.interest ⊆ s.kernel.fds)
    (hn : s.userCount < userLimit) (hpid : pid < processLimit) (hc : connfd ∉ s.kernel.fds)
    (h1 : fd1 ∉ s.kernel.fds) (h01 : fd0 ≠ fd1) (h0c : fd0 ≠ connfd) :
    acceptBranch s ⟨some connfd, some (fd0, fd1), some pid⟩ =
      .ok (s.admitted connfd pid fd0 fd1) := by
  have hle : s.userCount ≤ userLimit := hn.le
  have hfds : ((s.kernel.fds ∪ [connfd, fd0, fd1].toFinset).erase connfd).erase fd1 =
      insert fd0 s.kernel.fds := by
    ext x
    simp only [Finset.mem_erase, Finset.mem_union, List.mem_toFinset, List.mem_cons,
      List.not_mem_nil, or_false, Finset.mem_insert]
    constructor
    · rintro ⟨hx1, hxc, hx⟩
      tauto
    · rintro (rfl | hx)
      · tauto
      · exact ⟨fun he => h1 (he ▸ hx), fun he => hc (he ▸ hx), Or.inl hx⟩
  have hint : (s.kernel.interest.erase connfd).erase fd1 = s.kernel.interest := by
    rw [Finset.erase_eq_of_notMem fun hm => hc (hi hm),
      Finset.erase_eq_of_notMem fun hm => h1 (hi hm)]
  simp only [acceptBranch, Nat.not_le.mpr hn, Parent.user, Parent.setUser, Parent.setIdx, hle, hpid,
    ite_true, ite_false, ok_bind, register, Parent.opened, Parent.close, Parent.addfd,
    Parent.forked, Parent.admitted, Function.update_idem, hfds, hint]

/-- A failed `fork` leaves both ends of the pipe open. -/
theorem acceptBranch_unforked {connfd fd0 fd1 : Nat} (hi : s.kernel.interest ⊆ s.kernel.fds)
    (hn : s.userCount < userLimit) (hc : connfd ∉ s.kernel.fds) (h0c : fd0 ≠ connfd)
    (h1c : fd1 ≠ connfd) :
    acceptBranch s ⟨some connfd, some (fd0, fd1), none⟩ = .ok (s.unforked connfd fd0 fd1) := by
  have hle : s.userCount ≤ userLimit := hn.le
  have hfds : (s.kernel.fds ∪ [connfd, fd0, fd1].toFinset).erase connfd =
      insert fd0 (insert fd1 s.kernel.fds) := by
    ext x
    simp only [Finset.mem_erase, Finset.mem_union, List.mem_toFinset, List.mem_cons,
      List.not_mem_nil, or_false, Finset.mem_insert]
    constructor
    · rintro ⟨hxc, hx⟩
      tauto
    · rintro (rfl | rfl | hx)
      · exact ⟨h0c, by tauto⟩
      · exact ⟨h1c, by tauto⟩
      · exact ⟨fun he => hc (he ▸ hx), Or.inl hx⟩
  have hint : s.kernel.interest.erase connfd = s.kernel.interest :=
    Finset.erase_eq_of_notMem fun hm => hc (hi hm)
  simp only [acceptBranch, Nat.not_le.mpr hn, Parent.user, Parent.setUser, hle, ite_true, ite_false,
    ok_bind, Parent.opened, Parent.close, Parent.unforked, hfds, hint]

/-- Reaping finds the child's slot and fills it with the last record. -/
theorem reap_eq (h : Inv k s) {p : Proc} (hp : p ∈ s.kernel.procs) {i : Nat}
    (hi : i < s.userCount) (hr : (s.users i).record = p.record) :
    reap s p.pid = .ok (s.reaped i p) := by
  obtain ⟨hpid, hpipe⟩ : (s.users i).pid = p.pid ∧ (s.users i).pipefd0 = p.pipe := by
    simpa [ClientData.record, Proc.record] using hr
  have hn := h.count
  have hx : s.subProcess p.pid = i := hpid ▸ h.index i hi
  have hlast : (s.users (s.userCount - 1)).pid < processLimit := by
    obtain ⟨q, hq, he⟩ := h.proc_of_slot (i := s.userCount - 1) (by omega)
    have hqp : q.pid = (s.users (s.userCount - 1)).pid := congrArg Prod.fst he
    exact hqp ▸ h.limit q hq
  have h0 : ¬(i : Int) < 0 := by omega
  have h1 : i ≤ userLimit := by omega
  have h2 : s.userCount ≠ 0 := by omega
  have h3 : s.userCount ≤ userLimit + 1 := by omega
  simp [reap, Parent.waited, Parent.idxOf, Parent.setIdx, h.limit p hp, hx, h0, Nat.not_lt.mpr h1,
    Parent.user, h1, Parent.close, h2, h3, Parent.setUser, hlast, hpipe, Parent.reaped]

/-- Admitting a client appends its record. -/
theorem records_admitted {connfd pid fd0 fd1 : Nat} :
    (s.admitted connfd pid fd0 fd1).records = s.records ++ [(pid, fd0)] := by
  have hf : (fun i => ((s.admitted connfd pid fd0 fd1).users i).record) =
      Function.update (fun i => (s.users i).record) s.userCount (pid, fd0) :=
    Function.comp_update ClientData.record s.users s.userCount _
  rw [Parent.records, hf]
  exact entries_push

/-- Reaping a child removes its record, up to order. -/
theorem records_reaped {i : Nat} {p : Proc} (hi : i < s.userCount)
    (hr : (s.users i).record = p.record) :
    (p.record :: (s.reaped i p).records).Perm s.records := by
  have hf : (fun j => ((s.reaped i p).users j).record) =
      Function.update (fun j => (s.users j).record) i (s.users (s.userCount - 1)).record :=
    Function.comp_update ClientData.record s.users i _
  have hn : s.records = entries (fun j => (s.users j).record) (s.userCount - 1 + 1) := by
    rw [Nat.sub_add_cancel (by omega)]
    rfl
  have hle : i ≤ s.userCount - 1 := by omega
  rw [hn, Parent.records, hf, ← hr]
  exact entries_remove (f := fun j => (s.users j).record) hle

/-- Reaping a child takes it off the process table. -/
theorem procs_reaped (h : Inv k s) {i : Nat} {p : Proc} (hp : p ∈ s.kernel.procs) :
    (p :: (s.reaped i p).kernel.procs).Perm s.kernel.procs :=
  perm_filter_key h.pids hp

/-- Admitting a client keeps the tables and the kernel in agreement. -/
theorem Inv.admitted (h : Inv k s) {connfd pid fd0 fd1 : Nat} (hn : s.userCount < userLimit)
    (hfd : fd0 ∉ s.kernel.fds) (hpid : pid < processLimit)
    (hfresh : ∀ p ∈ s.kernel.procs, p.pid ≠ pid) : Inv k (s.admitted connfd pid fd0 fd1) := by
  have hpipe : ∀ p ∈ s.kernel.procs, p.pipe ≠ fd0 := fun p hp he => hfd (he ▸ (h.pipe_mem hp).2)
  have hkey : ∀ i, i < s.userCount → (s.users i).pid ≠ pid := by
    intro i hi he
    obtain ⟨p, hp, hr⟩ := h.proc_of_slot hi
    exact hfresh p hp ((congrArg Prod.fst hr).trans he)
  refine ⟨Nat.succ_le_of_lt hn, ?_, ?_, ?_, ?_, ?_, ?_, ?_, ?_, ?_, ?_⟩
  · rw [records_admitted]
    simpa [Parent.admitted, Proc.record] using h.table.append_right [(pid, fd0)]
  · simpa [Parent.admitted, List.nodup_append] using ⟨h.pids, fun p hp => hfresh p hp⟩
  · simpa [Parent.admitted, List.nodup_append] using ⟨h.pipes, fun p hp => hpipe p hp⟩
  · intro p hp
    rcases List.mem_append.mp hp with hp | hp
    · exact h.limit p hp
    · obtain rfl := List.mem_singleton.mp hp
      exact hpid
  · intro p hp
    rcases List.mem_append.mp hp with hp | hp
    · exact h.slots p hp
    · obtain rfl := List.mem_singleton.mp hp
      exact hn
  · have hf : (fun i => ((s.admitted connfd pid fd0 fd1).users i).pid) =
        Function.update (fun i => (s.users i).pid) s.userCount pid :=
      Function.comp_update ClientData.pid s.users s.userCount _
    rw [hf]
    exact h.index.push hkey
  · intro fd
    simp only [Parent.admitted, Finset.mem_insert, h.interest, List.mem_append, List.mem_singleton]
    constructor
    · rintro (rfl | h | h | ⟨p, hp, rfl⟩)
      · exact Or.inr (Or.inr ⟨_, Or.inr rfl, rfl⟩)
      · exact Or.inl h
      · exact Or.inr (Or.inl h)
      · exact Or.inr (Or.inr ⟨p, Or.inl hp, rfl⟩)
    · rintro (h | h | ⟨p, hp | rfl, rfl⟩)
      · exact Or.inr (Or.inl h)
      · exact Or.inr (Or.inr (Or.inl h))
      · exact Or.inr (Or.inr (Or.inr ⟨p, hp, rfl⟩))
      · exact Or.inl rfl
  · exact Finset.insert_subset_insert _ h.opened
  · refine ⟨h.base.1.trans (Finset.subset_insert _ _), ?_⟩
    intro p hp
    rcases List.mem_append.mp hp with hp | hp
    · exact h.base.2 p hp
    · obtain rfl := List.mem_singleton.mp hp
      exact fun hb => hfd (h.base.1 hb)
  · refine ⟨?_, ?_⟩
    · have hne : ∀ p ∈ s.kernel.procs, p.serial ≠ s.kernel.forks := fun p hp =>
        (h.serials.2 p hp).ne
      simpa [Parent.admitted, List.nodup_append] using ⟨h.serials.1, fun p hp => hne p hp⟩
    · intro p hp
      rcases List.mem_append.mp hp with hp | hp
      · exact Nat.lt_succ_of_lt (h.serials.2 p hp)
      · obtain rfl := List.mem_singleton.mp hp
        exact Nat.lt_succ_self _

/-- Reaping a child keeps the tables and the kernel in agreement. -/
theorem Inv.reaped (h : Inv k s) {i : Nat} {p : Proc} (hp : p ∈ s.kernel.procs)
    (hi : i < s.userCount) (hr : (s.users i).record = p.record) : Inv k (s.reaped i p) := by
  have hperm := procs_reaped (i := i) h hp
  have hsub : ∀ q ∈ (s.reaped i p).kernel.procs, q ∈ s.kernel.procs ∧ q.pid ≠ p.pid := by
    intro q hq
    simpa [Parent.reaped] using hq
  have hnotbase : p.pipe ∉ k.base := h.base.2 p hp
  refine ⟨(Nat.sub_le _ _).trans h.count, ?_, ?_, ?_, ?_, ?_, ?_, ?_, ?_, ?_, ?_⟩
  · have hrec : (p.record :: (s.reaped i p).records).Perm
        (p.record :: (s.reaped i p).kernel.procs.map Proc.record) :=
      calc p.record :: (s.reaped i p).records
        _ |>.Perm s.records := records_reaped hi hr
        _ |>.Perm (s.kernel.procs.map Proc.record) := h.table
        _ |>.Perm (p.record :: (s.reaped i p).kernel.procs.map Proc.record) := by
          simpa using (hperm.map Proc.record).symm
    exact hrec.cons_inv
  · exact (List.nodup_cons.mp ((hperm.map Proc.pid).nodup_iff.mpr h.pids)).2
  · exact (List.nodup_cons.mp ((hperm.map Proc.pipe).nodup_iff.mpr h.pipes)).2
  · exact fun q hq => h.limit q (hsub q hq).1
  · exact fun q hq => h.slots q (hsub q hq).1
  · have hpid : (s.users i).pid = p.pid := congrArg Prod.fst hr
    have hf : (fun j => ((s.reaped i p).users j).pid) =
        Function.update (fun j => (s.users j).pid) i (s.users (s.userCount - 1)).pid :=
      Function.comp_update ClientData.pid s.users i _
    have hidx : Indexed (fun j => (s.users j).pid) (s.userCount - 1 + 1) s.subProcess := by
      rw [Nat.sub_add_cancel (by omega)]
      exact h.index
    rw [hf]
    simpa [Parent.reaped, hpid] using hidx.remove (d := i) (z := -1) (by omega)
  · intro fd
    simp only [Parent.reaped, Finset.mem_erase, h.interest]
    constructor
    · rintro ⟨hne, h | h | ⟨q, hq, rfl⟩⟩
      · exact Or.inl h
      · exact Or.inr (Or.inl h)
      · refine Or.inr (Or.inr ⟨q, ?_, rfl⟩)
        have hqp : q.pid ≠ p.pid := fun he => hne (congrArg Proc.pipe (h.pid_injective hq hp he))
        simpa [hqp] using hq
    · rintro (rfl | rfl | ⟨q, hq, rfl⟩)
      · exact ⟨fun he => hnotbase (he ▸ k.listen_mem), Or.inl rfl⟩
      · exact ⟨fun he => hnotbase (he ▸ k.sig_mem), Or.inr (Or.inl rfl)⟩
      · obtain ⟨hq, hne⟩ := hsub q hq
        exact ⟨fun he => hne (congrArg Proc.pid (h.pipe_injective hq hp he)),
          Or.inr (Or.inr ⟨q, hq, rfl⟩)⟩
  · exact Finset.erase_subset_erase _ h.opened
  · refine ⟨fun fd hfd => ?_, fun q hq => h.base.2 q (hsub q hq).1⟩
    exact Finset.mem_erase.mpr ⟨fun he => hnotbase (he ▸ hfd), h.base.1 hfd⟩
  · exact ⟨(List.nodup_cons.mp ((hperm.map Proc.serial).nodup_iff.mpr h.serials.1)).2,
      fun q hq => h.serials.2 q (hsub q hq).1⟩

theorem Parent.at_waiting {e : Event} (h : s.at k e = true)
    (he : (∃ ready, e = .wake ready) ∨ e = .fail) : s.ctl = .waiting := by
  unfold Parent.at at h
  split at h <;> simp_all

theorem Parent.at_accept {a : Accepted} (h : s.at k (.accept a) = true) :
    ∃ todo, s.ctl = .batch (k.listenfd :: todo) := by
  unfold Parent.at at h
  split at h <;> simp_all

theorem Parent.at_signals {bytes : List Signal} (h : s.at k (.signals bytes) = true) :
    ∃ todo, s.ctl = .batch (k.sigfd :: todo) := by
  unfold Parent.at at h
  split at h <;> simp_all

theorem Parent.at_byte (h : s.at k .byte = true) : ∃ bytes todo, s.ctl = .signals bytes todo := by
  unfold Parent.at at h
  split at h <;> simp_all

theorem Parent.at_waitpid {pid : Option Nat} (h : s.at k (.waitpid pid) = true) :
    ∃ bytes todo, s.ctl = .reaping bytes todo := by
  unfold Parent.at at h
  split at h <;> simp_all

theorem Parent.at_notify {idx : Option Nat} (h : s.at k (.notify idx) = true) :
    ∃ fd todo, s.ctl = .batch (fd :: todo) ∧ fd ≠ k.listenfd ∧ fd ≠ k.sigfd := by
  unfold Parent.at at h
  split at h <;> simp_all

theorem Parent.at_endBatch (h : s.at k .endBatch = true) : s.ctl = .batch [] := by
  unfold Parent.at at h
  split at h <;> simp_all

/-- The branch of the listening socket does one of five things. -/
theorem Inv.accept_move (h : Inv k s) {a : Accepted} (ha : s.Allowed k (.accept a)) :
    ∃ t, s.step k (.accept a) = .ok t ∧ Move k s (.accept a) t := by
  obtain ⟨todo, hctl⟩ := Parent.at_accept ha.1
  obtain ⟨hconn, hpair, hpid⟩ := ha.2
  have hstep : s.step k (.accept a) = acceptBranch { s with ctl := .batch todo } a := by
    simp [Parent.step, hctl]
  rw [hstep]
  obtain ⟨connfd, pipefd, pid⟩ := a
  cases connfd with
  | none => exact ⟨_, rfl, .refused hctl (Or.inl rfl)⟩
  | some connfd =>
      have hc : connfd ∉ s.kernel.fds := hconn connfd rfl
      by_cases hn : s.userCount < userLimit
      · cases pipefd with
        | none =>
            exact ⟨_, by simp [acceptBranch, Nat.not_le.mpr hn, Parent.opened], .aborted hctl hn⟩
        | some fds =>
            obtain ⟨fd0, fd1⟩ := fds
            obtain ⟨h0, h1, h01, hne0, hne1⟩ := hpair (fd0, fd1) rfl
            have h0c : fd0 ≠ connfd := fun he => hne0 (congrArg some he)
            have h1c : fd1 ≠ connfd := fun he => hne1 (congrArg some he)
            cases pid with
            | none => exact ⟨_, acceptBranch_unforked h.opened hn hc h0c h1c, .unforked hctl hn⟩
            | some pid =>
                obtain ⟨-, hlt, hfresh⟩ := hpid pid rfl
                exact ⟨_, acceptBranch_admitted h.opened hn hlt hc h1 h01 h0c,
                  .admitted hctl hn h0 hlt hfresh⟩
      · have hle := Nat.not_lt.mp hn
        have hsame := close_opened (s := { s with ctl := .batch todo }) h.opened hc
        exact ⟨_, by simp [acceptBranch, hle, hsame], .refused hctl (Or.inr hle)⟩

/-- A `SIGTERM` or `SIGINT` byte stops the server or signals the clients' children. -/
theorem Inv.terminate_move (h : Inv k s) {b : Signal} {bytes : List Signal} {todo : List Nat}
    (hctl : s.ctl = .signals (b :: bytes) todo) (hb : b = .term ∨ b = .int) :
    ∃ t, terminateBranch { s with ctl := .signals bytes todo } = .ok t ∧ Move k s .byte t := by
  by_cases hn : s.userCount = 0
  · exact ⟨_, by simp [terminateBranch, hn], .stop hctl hb hn⟩
  · have hread : ({ s with ctl := .signals bytes todo, asked := true } : Parent).clients =
        .ok (entries s.users s.userCount) := clients_eq h.count
    have hkill : (entries s.users s.userCount).map ClientData.pid = s.records.map Prod.fst := by
      simp [Parent.records, entries, ClientData.record]
    refine ⟨_, ?_, .kill hctl hb hn⟩
    simp [terminateBranch, hn, hread, hkill]

/-- From tables that agree with the kernel, every step the environment allows
meets no fault and is one of the moves. -/
theorem Inv.step_move (h : Inv k s) {e : Event} (ha : s.Allowed k e) :
    ∃ t, s.step k e = .ok t ∧ Move k s e t := by
  cases e with
  | wake ready =>
      have hctl := Parent.at_waiting ha.1 (Or.inl ⟨ready, rfl⟩)
      exact ⟨_, by simp [Parent.step, hctl], .wake hctl ha.2.1 ha.2.2⟩
  | fail =>
      have hctl := Parent.at_waiting ha.1 (Or.inr rfl)
      exact ⟨_, by simp [Parent.step, hctl], .fail hctl⟩
  | accept a => exact h.accept_move ha
  | signals bytes =>
      obtain ⟨todo, hctl⟩ := Parent.at_signals ha.1
      exact ⟨_, by simp [Parent.step, hctl], .signals hctl⟩
  | byte =>
      obtain ⟨bytes, todo, hctl⟩ := Parent.at_byte ha.1
      cases bytes with
      | nil => exact ⟨_, by simp [Parent.step, hctl], .bytesDone hctl⟩
      | cons b bytes =>
          have hstep : s.step k .byte = signalByte s bytes todo b := by simp [Parent.step, hctl]
          rw [hstep]
          cases b with
          | chld => exact ⟨_, rfl, .chld hctl⟩
          | term => exact h.terminate_move hctl (Or.inl rfl)
          | int => exact h.terminate_move hctl (Or.inr rfl)
          | other => exact ⟨_, rfl, .ignored hctl⟩
  | waitpid pid =>
      obtain ⟨bytes, todo, hctl⟩ := Parent.at_waitpid ha.1
      cases pid with
      | none =>
          refine ⟨_, ?_, .endReap hctl⟩
          by_cases hn : s.userCount = 0 <;> cases ht : s.terminate <;>
            simp [Parent.step, hctl, endReap, hn, ht]
      | some pid =>
          obtain ⟨p, hp, rfl, hdead⟩ := ha.2 pid rfl
          obtain ⟨i, hi, hr⟩ := h.slot_of_proc hp
          exact ⟨_, by simp [Parent.step, hctl, reap_eq h hp hi hr], .reaped hctl hp hdead hi hr⟩
  | notify idx =>
      obtain ⟨fd, todo, hctl, hl, hs⟩ := Parent.at_notify ha.1
      have hread : ({ s with ctl := .batch todo } : Parent).clients =
          .ok (entries s.users s.userCount) := clients_eq h.count
      have hpipes :
          (entries s.users s.userCount).map ClientData.pipefd0 = s.records.map Prod.snd := by
        simp [Parent.records, entries, ClientData.record]
      refine ⟨_, ?_, .notify hctl hl hs⟩
      cases idx <;>
        simp [Parent.step, hctl, hl, hs, broadcastBranch, broadcastTargets, hread, hpipes,
          Parent.forwards]
  | endBatch =>
      have hctl := Parent.at_endBatch ha.1
      exact ⟨_, by simp [Parent.step, hctl], .endBatch hctl⟩
  | die pid =>
      obtain ⟨p, hp, rfl, hdead⟩ := ha.2
      exact ⟨_, by simp [Parent.step], .die hp hdead⟩

/-- Every step the environment allows is one of the moves. -/
theorem Inv.move_of_step (h : Inv k s) {e : Event} (ha : s.Allowed k e)
    (hs : s.step k e = .ok t) : Move k s e t := by
  obtain ⟨u, hu, hm⟩ := h.step_move ha
  obtain rfl := Except.ok.inj (hu.symm.trans hs)
  exact hm

/-- A child's exit changes nothing of it but that it has exited. -/
theorem mem_died {pid : Nat} {p : Proc} (hp : p ∈ (s.died pid).kernel.procs) :
    ∃ q ∈ s.kernel.procs, p = { q with dead := p.dead } ∧ (q.dead = true → p.dead = true) := by
  obtain ⟨q, hq, rfl⟩ := List.mem_map.mp hp
  refine ⟨q, hq, ?_⟩
  by_cases hpid : q.pid = pid <;> simp [hpid]

/-- A child's exit is nowhere in the other data of the children. -/
theorem map_died {β : Type*} {pid : Nat} (g : Proc → β)
    (hg : ∀ p, g { p with dead := true } = g p) :
    (s.died pid).kernel.procs.map g = s.kernel.procs.map g := by
  simp only [Parent.died, List.map_map]
  refine List.map_congr_left fun p _ => ?_
  rw [Function.comp_apply]
  by_cases hpid : p.pid = pid
  · rw [if_pos hpid, hg]
  · rw [if_neg hpid]

/-- Forked children are never unforked. -/
theorem forks_le {e : Event} (hm : Move k s e t) :
    s.kernel.forks ≤ t.kernel.forks := by
  cases hm with
  | admitted => exact Nat.le_succ _
  | _ => exact le_rfl

/-- A child there is behind a move was there before, or has just been forked. -/
theorem serials_move {e : Event} (hm : Move k s e t) {p : Proc} (hp : p ∈ t.kernel.procs) :
    (∃ q ∈ s.kernel.procs, q.serial = p.serial) ∨ p.serial = s.kernel.forks := by
  cases hm with
  | admitted =>
      rcases List.mem_append.mp hp with hp | hp
      · exact Or.inl ⟨p, hp, rfl⟩
      · obtain rfl := List.mem_singleton.mp hp
        exact Or.inr rfl
  | reaped => exact Or.inl ⟨p, (List.mem_filter.mp hp).1, rfl⟩
  | die =>
      obtain ⟨q, hq, he, -⟩ := mem_died hp
      exact Or.inl ⟨q, hq, by rw [he]⟩
  | _ => exact Or.inl ⟨p, hp, rfl⟩

/-- A child's exit keeps the tables and the kernel in agreement. -/
theorem Inv.died (h : Inv k s) (pid : Nat) : Inv k (s.died pid) := by
  refine ⟨h.count, ?_, ?_, ?_, ?_, ?_, h.index, ?_, h.opened, ⟨h.base.1, ?_⟩, ?_, ?_⟩
  · rw [map_died _ fun _ => rfl]
    exact h.table
  · rw [map_died _ fun _ => rfl]
    exact h.pids
  · rw [map_died _ fun _ => rfl]
    exact h.pipes
  · intro p hp
    obtain ⟨q, hq, he, -⟩ := mem_died hp
    rw [he]
    exact h.limit q hq
  · intro p hp
    obtain ⟨q, hq, he, -⟩ := mem_died hp
    rw [he]
    exact h.slots q hq
  · intro fd
    have hmem (ps : List Proc) : (∃ p ∈ ps, p.pipe = fd) ↔ fd ∈ ps.map Proc.pipe :=
      List.mem_map.symm
    rw [hmem, map_died _ fun _ => rfl, ← hmem]
    exact h.interest fd
  · intro p hp
    obtain ⟨q, hq, he, -⟩ := mem_died hp
    rw [he]
    exact h.base.2 q hq
  · rw [map_died _ fun _ => rfl]
    exact h.serials.1
  · intro p hp
    obtain ⟨q, hq, he, -⟩ := mem_died hp
    rw [he]
    exact h.serials.2 q hq

/-- Every move keeps the tables and the kernel in agreement. -/
theorem Inv.move (h : Inv k s) {e : Event} (hm : Move k s e t) : Inv k t := by
  have hquiet {u : Parent} (hn : u.userCount = s.userCount) (hu : u.users = s.users)
      (hx : u.subProcess = s.subProcess) (hk : u.kernel = s.kernel) : Inv k u :=
    h.frame hn (fun _ _ => by rw [hu]) hx (by rw [hk]) (by rw [hk]) (by rw [hk]) (by rw [hk])
  cases hm with
  | wake => exact hquiet rfl rfl rfl rfl
  | fail => exact hquiet rfl rfl rfl rfl
  | refused => exact hquiet rfl rfl rfl rfl
  | aborted => exact h.frame rfl (fun _ _ => rfl) rfl rfl rfl rfl Finset.subset_union_left
  | unforked =>
      exact h.frame rfl (fun i hi => Function.update_of_ne (Nat.ne_of_lt hi) ..) rfl rfl rfl rfl
        ((Finset.subset_insert _ _).trans (Finset.subset_insert _ _))
  | @admitted connfd fd0 fd1 pid todo _ hn hfd hpid hfresh =>
      have hu : Inv k { s with ctl := .batch todo } := hquiet rfl rfl rfl rfl
      exact hu.admitted hn hfd hpid hfresh
  | signals => exact hquiet rfl rfl rfl rfl
  | chld => exact hquiet rfl rfl rfl rfl
  | ignored => exact hquiet rfl rfl rfl rfl
  | stop => exact hquiet rfl rfl rfl rfl
  | kill => exact hquiet rfl rfl rfl rfl
  | bytesDone => exact hquiet rfl rfl rfl rfl
  | reaped _ hp _ hi hr => exact h.reaped hp hi hr
  | endReap => exact hquiet rfl rfl rfl rfl
  | notify => exact hquiet rfl rfl rfl rfl
  | endBatch => exact hquiet rfl rfl rfl rfl
  | die => exact h.died _

/-- What the parent's code does in a run is one of the moves, and the tables agree with
the kernel throughout. -/
theorem inv_of_run {users : Nat → ClientData} {es : List Event}
    (h : (parentMachine k users).Run es s) : Inv k s := by
  apply h.invariant (inv_start k users)
  intro s e t hi ha hs
  exact hi.move (hi.move_of_step ha hs)

/-- The branch of the listening socket gets as far as a `fork` that makes a child. -/
def Parent.admits (s : Parent) : Event → Prop
  | .accept ⟨some _, some _, some _⟩ => s.userCount < userLimit
  | _ => False

/-- The next signal byte is `SIGTERM` or `SIGINT`. -/
def Parent.terminating (s : Parent) : Event → Prop
  | .byte => ∃ b bytes todo, s.ctl = .signals (b :: bytes) todo ∧ (b = .term ∨ b = .int)
  | _ => False

/-- What a step makes of the clients' records and their children. -/
structure Effect (s : Parent) (e : Event) (t : Parent) : Prop where
  /-- A `fork` that makes a child appends its record and registers its pipe. -/
  admitted : s.admits e → ∃ p, t.kernel.procs = s.kernel.procs ++ [p] ∧
    t.records = s.records ++ [p.record] ∧ t.kernel.interest = insert p.pipe s.kernel.interest
  /-- Reaping a child removes its record, and ends and closes its pipe alone. -/
  reaped : ∀ pid, e = .waitpid (some pid) → ∃ p ∈ s.kernel.procs, p.pid = pid ∧
    (p :: t.kernel.procs).Perm s.kernel.procs ∧ (p.record :: t.records).Perm s.records ∧
    p.pipe ∈ s.kernel.interest ∧ t.kernel.interest = s.kernel.interest.erase p.pipe ∧
    p.pipe ∈ s.kernel.fds ∧ t.kernel.fds = s.kernel.fds.erase p.pipe
  /-- Nothing else changes a record, a registration, or closes a descriptor. -/
  others : ¬s.admits e → (∀ pid, e ≠ .waitpid (some pid)) → t.records = s.records ∧
    t.kernel.interest = s.kernel.interest ∧ s.kernel.fds ⊆ t.kernel.fds
  /-- `SIGTERM` and `SIGINT` signal every child once. -/
  signalled : s.terminating e → ∃ pids, t.killed = pids ++ s.killed ∧
    pids.Perm (s.kernel.procs.map Proc.pid)
  /-- Nothing else signals a child. -/
  unsignalled : ¬s.terminating e → t.killed = s.killed

private theorem effect_quiet {e : Event} (hna : ¬s.admits e) (hnr : ∀ pid, e ≠ .waitpid (some pid))
    (hr : t.records = s.records) (hi : t.kernel.interest = s.kernel.interest)
    (hf : s.kernel.fds ⊆ t.kernel.fds) (hs : s.terminating e → ∃ pids, t.killed = pids ++ s.killed ∧
      pids.Perm (s.kernel.procs.map Proc.pid))
    (hu : ¬s.terminating e → t.killed = s.killed) : Effect s e t :=
  ⟨fun ha => absurd ha hna, fun pid he => absurd he (hnr pid), fun _ _ => ⟨hr, hi, hf⟩, hs, hu⟩

/-- Every move has its effect. -/
theorem Inv.effect (h : Inv k s) {e : Event} (hm : Move k s e t) : Effect s e t := by
  have hrefl := Finset.Subset.refl s.kernel.fds
  cases hm with
  | wake => exact effect_quiet nofun nofun rfl rfl hrefl nofun fun _ => rfl
  | fail => exact effect_quiet nofun nofun rfl rfl hrefl nofun fun _ => rfl
  | @refused a todo _ hno =>
      refine effect_quiet ?_ nofun rfl rfl hrefl nofun fun _ => rfl
      obtain ⟨_ | connfd, _ | fds, _ | pid⟩ := a <;> simp_all [Parent.admits]
  | aborted => exact effect_quiet nofun nofun rfl rfl Finset.subset_union_left nofun fun _ => rfl
  | unforked _ hn =>
      refine effect_quiet nofun nofun ?_ rfl ?_ nofun fun _ => rfl
      · exact entries_congr fun i hi =>
          congrArg ClientData.record (Function.update_of_ne (Nat.ne_of_lt hi) ..)
      · exact (Finset.subset_insert _ _).trans (Finset.subset_insert _ _)
  | admitted _ hn =>
      refine ⟨fun _ => ⟨_, rfl, records_admitted, rfl⟩, nofun, fun hna => absurd hn hna, nofun,
        fun _ => rfl⟩
  | signals => exact effect_quiet nofun nofun rfl rfl hrefl nofun fun _ => rfl
  | chld hctl =>
      refine effect_quiet nofun nofun rfl rfl hrefl ?_ fun _ => rfl
      rintro ⟨b, bytes, todo, hb, hterm⟩
      simp_all
  | ignored hctl =>
      refine effect_quiet nofun nofun rfl rfl hrefl ?_ fun _ => rfl
      rintro ⟨b, bytes, todo, hb, hterm⟩
      simp_all
  | stop hctl hb hn =>
      refine effect_quiet nofun nofun rfl rfl hrefl (fun _ => ⟨[], rfl, ?_⟩) fun _ => rfl
      have hl := h.length_procs
      rw [hn, List.length_eq_zero_iff] at hl
      rw [hl]
      exact List.Perm.refl _
  | kill hctl hb hn =>
      refine effect_quiet nofun nofun rfl rfl hrefl (fun _ => ⟨_, rfl, ?_⟩) fun hno => ?_
      · apply (List.reverse_perm _).trans
        simpa [Function.comp_def, Proc.record] using h.table.map Prod.fst
      · exact absurd ⟨_, _, _, hctl, hb⟩ hno
  | bytesDone hctl =>
      refine effect_quiet nofun nofun rfl rfl hrefl ?_ fun _ => rfl
      rintro ⟨b, bytes, todo, hb, hterm⟩
      simp_all
  | @reaped bytes todo i p _ hp _ hi hr =>
      obtain ⟨hint, hfds⟩ := h.pipe_mem hp
      refine ⟨nofun, ?_, fun _ hno => absurd rfl (hno _), nofun, fun _ => rfl⟩
      rintro pid ⟨rfl⟩
      exact ⟨p, hp, rfl, procs_reaped h hp, records_reaped hi hr, hint, rfl, hfds, rfl⟩
  | endReap => exact effect_quiet nofun nofun rfl rfl hrefl nofun fun _ => rfl
  | notify => exact effect_quiet nofun nofun rfl rfl hrefl nofun fun _ => rfl
  | endBatch => exact effect_quiet nofun nofun rfl rfl hrefl nofun fun _ => rfl
  | die => exact effect_quiet nofun nofun rfl rfl hrefl nofun fun _ => rfl

/-- In every run the records in use are those of the children forked and not yet reaped,
each once, and every step has exactly its effect on them. -/
theorem clients_are_children (k : Setup) (users : Nat → ClientData) {es : List Event} {s : Parent}
    (h : (parentMachine k users).Run es s) :
    s.records.Perm (s.kernel.procs.map Proc.record) ∧ s.records.Nodup ∧
      ∀ e, s.Allowed k e → ∃ t, s.step k e = .ok t ∧ Effect s e t := by
  have hi := inv_of_run h
  refine ⟨hi.table, hi.records_nodup, ?_⟩
  intro e ha
  obtain ⟨t, ht, hm⟩ := hi.step_move ha
  exact ⟨t, ht, hi.effect hm⟩

/-- A parent whose own descriptors are 0 to 6, listening on 3. -/
def sampleSetup : Setup := ⟨3, 5, {0, 1, 2, 3, 4, 5, 6}, by decide, by decide, by decide⟩

/-- Two clients come, the first one's child exits, and the second one's record takes its
slot before `SIGTERM` is handled. -/
def sampleReplaced : List Event :=
  [.wake [3], .accept ⟨some 7, some (8, 9), some 101⟩, .endBatch,
    .wake [3], .accept ⟨some 7, some (9, 10), some 102⟩, .endBatch, .die 101,
    .wake [5, 8], .signals [.chld, .term], .byte, .waitpid (some 101), .waitpid none, .byte,
    .byte, .notify none, .endBatch]

/-- Its record is the only one left. -/
theorem clients_are_children_moved :
    ∃ s, (parentMachine sampleSetup fun _ => ⟨0, 0, 0, 0⟩).Run sampleReplaced s ∧
      s.records = [(102, 9)] ∧ s.killed = [102] ∧
      s.records.Perm (s.kernel.procs.map Proc.record) :=
  have hrun := Machine.Run.of_exec (M := parentMachine sampleSetup fun _ => ⟨0, 0, 0, 0⟩)
    sampleReplaced (by decide) rfl
  ⟨_, hrun, rfl, rfl, (clients_are_children _ _ hrun).1⟩

end Chat

end LinuxWebsocket
