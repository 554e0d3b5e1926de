import LinuxWebsocket.Chat.System

/-!
# What one step of the chat server does

The counterpart of `Move` for the whole system. From a state in which the parent's
tables agree with the kernel and every slot number in a pipe is one of a slot, each
step the environment allows meets no fault and is one of the turns listed here. On the
parent's side a run of the system is a run of the parent, so that what is known of the
parent's runs holds in the system.
-/

namespace LinuxWebsocket

namespace Chat

open EdgeTriggered CompactTable

variable {k : Setup} {s t : System}

@[simp] theorem parent_onKid {c : Nat} {f : Kid → Kid} : (s.onKid c f).parent = s.parent := rfl
@[simp] theorem parent_onKids {sel : Proc → Bool} {f : Kid → Kid} :
    (s.onKids sel f).parent = s.parent := rfl
@[simp] theorem parent_fill {i : Nat} {bytes : List UInt8} :
    (s.fill i bytes).parent = s.parent := rfl
@[simp] theorem kids_fill {i : Nat} {bytes : List UInt8} : (s.fill i bytes).kids = s.kids := rfl

@[simp] theorem kids_onKid_self {c : Nat} {f : Kid → Kid} :
    (s.onKid c f).kids c = f (s.kids c) := Function.update_self ..

theorem kids_onKid_of_ne {c d : Nat} {f : Kid → Kid} (h : d ≠ c) :
    (s.onKid c f).kids d = s.kids d := Function.update_of_ne h ..

/-- A selective change either reaches a child not waited for, or leaves it alone. -/
theorem kids_onKids_cases (sel : Proc → Bool) (f : Kid → Kid) (c : Nat) :
    (∃ p ∈ s.parent.kernel.procs, p.serial = c ∧ sel p = true ∧
      (s.onKids sel f).kids c = f (s.kids c)) ∨ (s.onKids sel f).kids c = s.kids c := by
  by_cases h : (s.parent.kernel.procs.any fun p => p.serial == c && sel p) = true
  · obtain ⟨p, hp, hc⟩ := List.any_eq_true.mp h
    obtain ⟨hser, hsel⟩ : p.serial = c ∧ sel p = true := by simpa using hc
    exact Or.inl ⟨p, hp, hser, hsel, if_pos h⟩
  · exact Or.inr (if_neg h)

/-- Children are told apart by their serial numbers. -/
theorem Inv.serial_injective {s : Parent} (h : Inv k s) {p q : Proc} (hp : p ∈ s.kernel.procs)
    (hq : q ∈ s.kernel.procs) (he : p.serial = q.serial) : p = q :=
  List.inj_on_of_nodup_map h.serials.1 hp hq he

/-- A selective change at a child not waited for. -/
theorem kids_onKids (h : Inv k s.parent) {p : Proc} (hp : p ∈ s.parent.kernel.procs)
    (sel : Proc → Bool) (f : Kid → Kid) :
    (s.onKids sel f).kids p.serial = if sel p then f (s.kids p.serial) else s.kids p.serial := by
  have hiff : (s.parent.kernel.procs.any fun q => q.serial == p.serial && sel q) = sel p := by
    rw [Bool.eq_iff_iff, List.any_eq_true]
    constructor
    · rintro ⟨q, hq, hc⟩
      obtain ⟨hser, hsel⟩ : q.serial = p.serial ∧ sel q = true := by simpa using hc
      rwa [← h.serial_injective hq hp hser]
    · intro hsel
      exact ⟨p, hp, by simpa using hsel⟩
  simp only [System.onKids, hiff]

/-- Selections that agree on the children not waited for make the same change. -/
theorem onKids_congr (sel sel' : Proc → Bool) (f : Kid → Kid)
    (h : ∀ p ∈ s.parent.kernel.procs, sel p = sel' p) : s.onKids sel f = s.onKids sel' f := by
  have hany (c : Nat) : (s.parent.kernel.procs.any fun p => p.serial == c && sel p) =
      s.parent.kernel.procs.any fun p => p.serial == c && sel' p := by
    rw [Bool.eq_iff_iff, List.any_eq_true, List.any_eq_true]
    exact exists_congr fun p => and_congr_right fun hp => by rw [h p hp]
  simp only [System.onKids, hany]

/-- Selecting a single child. -/
theorem onKids_single (h : Inv k s.parent) {p : Proc} (hp : p ∈ s.parent.kernel.procs)
    (sel : Proc → Bool) (f : Kid → Kid)
    (hsel : ∀ q ∈ s.parent.kernel.procs, sel q = true ↔ q = p) :
    s.onKids sel f = s.onKid p.serial f := by
  have hkids : (s.onKids sel f).kids = (s.onKid p.serial f).kids := by
    funext c
    by_cases hc : c = p.serial
    · subst c
      rw [kids_onKids h hp, if_pos ((hsel p hp).mpr rfl), kids_onKid_self]
    · rw [kids_onKid_of_ne hc]
      rcases kids_onKids_cases sel f c with ⟨q, hq, rfl, hq', -⟩ | he
      · exact absurd (congrArg Proc.serial ((hsel q hq).mp hq')) hc
      · exact he
  exact congrArg (fun kids => ({ s with kids := kids } : System)) hkids

/-- A property of every child survives a change to one that keeps it. -/
theorem forall_onKid {P : Nat → Kid → Prop} (h : ∀ c, P c (s.kids c)) {c : Nat} {f : Kid → Kid}
    (hc : P c (f (s.kids c))) : ∀ d, P d ((s.onKid c f).kids d) := by
  intro d
  by_cases hd : d = c
  · subst d
    rwa [kids_onKid_self]
  · rw [kids_onKid_of_ne hd]
    exact h d

/-- A property of every child survives a selective change that keeps it. -/
theorem forall_onKids {P : Nat → Kid → Prop} (h : ∀ c, P c (s.kids c)) {sel : Proc → Bool}
    {f : Kid → Kid}
    (hf : ∀ p ∈ s.parent.kernel.procs, sel p = true → P p.serial (f (s.kids p.serial))) :
    ∀ c, P c ((s.onKids sel f).kids c) := by
  intro c
  rcases kids_onKids_cases sel f c with ⟨p, hp, rfl, hsel, he⟩ | he
  · rw [he]
    exact hf p hp hsel
  · rw [he]
    exact h c

/-- The pipes of a child carry numbers of slots only. -/
structure Kid.Carries (kid : Kid) : Prop where
  up : ∀ n ∈ kid.up.queue, n.idx < userLimit
  down : ∀ n ∈ kid.down.queue, n.idx < userLimit

/-- What holds of the system at all times. -/
structure SysInv (k : Setup) (s : System) : Prop where
  parent : Inv k s.parent
  /-- Nothing has happened to a child that was not forked yet. -/
  fresh : ∀ c, s.parent.kernel.forks ≤ c → s.kids c = .forked
  carries : ∀ c, (s.kids c).Carries

/-- The server starts that way. -/
theorem sysInv_start (k : Setup) (users : Nat → ClientData) : SysInv k (.start k users) :=
  ⟨inv_start k users, fun _ _ => rfl, fun _ =>
    ⟨by simp [System.start, Kid.forked], by simp [System.start, Kid.forked]⟩⟩

/-- Everything one step can do. -/
inductive Turn (k : Setup) (s : System) : Act → System → Prop
  /-- A step of the parent that concerns no pipe. -/
  | quiet {e : Event} {t : Parent} : Move k s.parent e t → (∀ ready, e ≠ .wake ready) →
      (∀ pid, e ≠ .die pid) → (∀ idx, e ≠ .notify idx) → Turn k s (.parent e) { s with parent := t }
  /-- Pending edges are reported to the parent. -/
  | reported {ready : List Nat} {t : Parent} : Move k s.parent (.wake ready) t →
      Turn k s (.parent (.wake ready))
        { s.onKids (fun p => ready.contains p.pipe) fun kid =>
            { kid with up := kid.up.report } with parent := t }
  | died {p : Proc} : p ∈ s.parent.kernel.procs → p.dead = false →
      Turn k s (.parent (.die p.pid))
        { s.onKid p.serial fun kid => { kid with up := kid.up.hangup } with
          parent := s.parent.died p.pid }
  /-- The pipe was closed earlier in the batch. -/
  | stray {fd : Nat} {todo : List Nat} {t : Parent} : s.parent.ctl = .batch (fd :: todo) →
      (∀ p ∈ s.parent.kernel.procs, p.pipe ≠ fd) → Move k s.parent (.notify none) t →
      Turn k s .notify { s with parent := t }
  /-- The parent finds nothing in a pipe. -/
  | unread {p : Proc} {todo : List Nat} {t : Parent} : p ∈ s.parent.kernel.procs →
      s.parent.ctl = .batch (p.pipe :: todo) → (s.kids p.serial).up.queue = [] →
      Move k s.parent (.notify none) t →
      Turn k s .notify
        { s.onKid p.serial fun kid => { kid with up := kid.up.read } with parent := t }
  /-- The parent passes a slot number on to all other children. -/
  | passed {p : Proc} {todo : List Nat} {n : Notice} {t : Parent} : p ∈ s.parent.kernel.procs →
      s.parent.ctl = .batch (p.pipe :: todo) → (s.kids p.serial).up.queue.head? = some n →
      Move k s.parent (.notify (some n.idx)) t →
      Turn k s .notify
        { (s.onKid p.serial fun kid => { kid with up := kid.up.read }).onKids
            (fun q => q.pipe != p.pipe) fun kid => { kid with down := kid.down.write n } with
          parent := t }
  /-- A child's `epoll_wait` returns. -/
  | woke {p : Proc} {ready : List Source} : p ∈ s.parent.kernel.procs → p.dead = false →
      (s.kids p.serial).ctl = .waiting → ready.Nodup →
      Turn k s (.wake p.serial ready) (s.onKid p.serial fun kid =>
        { kid with
          down := if ready.contains .pipe then kid.down.report else kid.down
          ctl := .batch ready })
  /-- A child finds nothing to read on its client, and has cleared its slot. -/
  | cleared {p : Proc} {todo : List Source} : p ∈ s.parent.kernel.procs → p.dead = false →
      (s.kids p.serial).ctl = .batch (.conn :: todo) →
      Turn k s (.receive p.serial none)
        ((s.onKid p.serial fun kid => { kid with ctl := .batch todo }).fill p.idx [])
  /-- A child receives a message and announces it. -/
  | received {p : Proc} {m : Message} {todo : List Source} : p ∈ s.parent.kernel.procs →
      p.dead = false → (s.kids p.serial).ctl = .batch (.conn :: todo) →
      Turn k s (.receive p.serial (some m))
        ((s.fill p.idx m.bytes).onKid p.serial fun kid =>
          { kid with
            up := kid.up.write ⟨p.idx, p.serial, m, s.writes.length + 1⟩
            ctl := .batch todo })
  /-- A child finds nothing in its pipe. -/
  | skipped {p : Proc} {todo : List Source} : p ∈ s.parent.kernel.procs → p.dead = false →
      (s.kids p.serial).ctl = .batch (.pipe :: todo) → (s.kids p.serial).down.queue = [] →
      Turn k s (.answer p.serial) (s.onKid p.serial fun kid => { kid with ctl := .batch todo })
  /-- A child sends the slot named in its pipe to its client. -/
  | answered {p : Proc} {todo : List Source} {n : Notice} : p ∈ s.parent.kernel.procs →
      p.dead = false → (s.kids p.serial).ctl = .batch (.pipe :: todo) →
      (s.kids p.serial).down.queue.head? = some n →
      Turn k s (.answer p.serial)
        (({ s with answers := (p.serial, s.shm n.idx) :: s.answers } : System).onKid p.serial
          fun kid => { kid with down := kid.down.read, ctl := .batch todo })
  | rested {p : Proc} : p ∈ s.parent.kernel.procs → p.dead = false →
      (s.kids p.serial).ctl = .batch [] →
      Turn k s (.endBatch p.serial) (s.onKid p.serial fun kid => { kid with ctl := .waiting })

/-- Looking a child up finds it. -/
theorem proc_eq (h : Inv k s.parent) {p : Proc} (hp : p ∈ s.parent.kernel.procs) :
    s.proc p.serial = some p := find?_key h.serials.1 hp

/-- Looking a pipe up finds its child. -/
theorem find_pipe (h : Inv k s.parent) {p : Proc} (hp : p ∈ s.parent.kernel.procs) :
    (s.parent.kernel.procs.find? fun q => q.pipe = p.pipe) = some p := find?_key h.pipes hp

/-- A number is passed on to the pipes of all other children. -/
theorem broadcastTargets_eq (h : Inv k s.parent) (fd : Nat) :
    ∃ fds, broadcastTargets s.parent fd = .ok fds ∧
      ∀ p ∈ s.parent.kernel.procs, p.pipe ∈ fds ↔ p.pipe ≠ fd := by
  have hread : broadcastTargets s.parent fd =
      .ok (((entries s.parent.users s.parent.userCount).map ClientData.pipefd0).filter
        fun x => x ≠ fd) := by
    simp only [broadcastTargets, clients_eq h.count, ok_bind]
  refine ⟨_, hread, ?_⟩
  intro p hp
  have hmem : p.pipe ∈ (entries s.parent.users s.parent.userCount).map ClientData.pipefd0 := by
    obtain ⟨i, hi, hr⟩ := h.slot_of_proc hp
    exact List.mem_map.mpr ⟨_, mem_entries.mpr ⟨i, hi, rfl⟩, congrArg Prod.snd hr⟩
  simp only [List.mem_filter, hmem, true_and, decide_eq_true_eq]

/-- The parent's branch of the pipes takes one of three turns. -/
theorem SysInv.notify_turn (h : SysInv k s) (ha : s.parent.Allowed k (.notify none)) :
    ∃ t, s.step k .notify = .ok t ∧ Turn k s .notify t := by
  obtain ⟨fd, todo, hctl, hl, hs⟩ := Parent.at_notify ha.1
  have hallowed (idx : Option Nat) : s.parent.Allowed k (.notify idx) := by
    refine ⟨?_, trivial⟩
    simp [Parent.at, hctl, hl, hs]
  have hstep : s.step k .notify = notifyBranch k s fd := by simp only [System.step, hctl]
  rw [hstep, notifyBranch]
  by_cases hex : ∃ p ∈ s.parent.kernel.procs, p.pipe = fd
  · obtain ⟨p, hp, rfl⟩ := hex
    have hsingle := onKids_single h.parent hp (fun q => q.pipe == p.pipe)
      (fun kid => { kid with up := kid.up.read }) fun q hq => by
        rw [beq_iff_eq]
        exact ⟨fun he => h.parent.pipe_injective hq hp he, fun he => by rw [he]⟩
    obtain ⟨fds, hfds, hmem⟩ := broadcastTargets_eq h.parent p.pipe
    rw [find_pipe h.parent hp]
    cases hn : (s.kids p.serial).up.queue.head? with
    | none =>
        obtain ⟨t, ht, hm⟩ := h.parent.step_move (hallowed none)
        refine ⟨_, ?_, .unread hp hctl (List.head?_eq_none_iff.mp hn) hm⟩
        simp only [hn, Option.map_none, ht, ok_bind, hfds, hsingle]
    | some n =>
        obtain ⟨t, ht, hm⟩ := h.parent.step_move (hallowed (some n.idx))
        refine ⟨_, ?_, .passed hp hctl hn hm⟩
        have hcongr := onKids_congr
          (s := s.onKid p.serial fun kid => { kid with up := kid.up.read })
          (fun q => fds.contains q.pipe) (fun q => q.pipe != p.pipe)
          (fun kid => { kid with down := kid.down.write n }) ?_
        · simp only [hn, Option.map_some, ht, ok_bind, hfds, hsingle, hcongr]
        · intro q hq
          rw [Bool.eq_iff_iff, List.contains_iff_mem, hmem q hq, bne_iff_ne]
  · have hno : ∀ p ∈ s.parent.kernel.procs, p.pipe ≠ fd := fun p hp he => hex ⟨p, hp, he⟩
    have hfind : (s.parent.kernel.procs.find? fun q => q.pipe = fd) = none :=
      List.find?_eq_none.mpr fun p hp => by simpa using hno p hp
    obtain ⟨t, ht, hm⟩ := h.parent.step_move (hallowed none)
    exact ⟨_, by simp only [hfind, ht, ok_bind], .stray hctl hno hm⟩

/-- Every step the environment allows meets no fault and is one of the turns. -/
theorem SysInv.step_turn (h : SysInv k s) {a : Act} (ha : s.Allowed k a) :
    ∃ t, s.step k a = .ok t ∧ Turn k s a t := by
  have hhead {c : Nat} {x : Source} (hx : (s.kids c).ctl.todo.head? = some x) :
      ∃ todo, (s.kids c).ctl = .batch (x :: todo) := by
    cases hctl : (s.kids c).ctl with
    | waiting => simp [hctl, KidCtl.todo] at hx
    | batch todo =>
        rw [hctl] at hx
        obtain ⟨rest, rfl⟩ := List.head?_eq_some_iff.mp hx
        exact ⟨rest, rfl⟩
  cases a with
  | parent e =>
      obtain ⟨hof, hallowed⟩ := ha
      obtain ⟨t, ht, hm⟩ := h.parent.step_move hallowed
      by_cases hw : ∃ ready, e = .wake ready
      · obtain ⟨ready, rfl⟩ := hw
        exact ⟨_, by simp only [System.step, ht, ok_bind], .reported hm⟩
      · by_cases hd : ∃ pid, e = .die pid
        · obtain ⟨pid, rfl⟩ := hd
          obtain ⟨p, hp, rfl, hdead⟩ := hallowed.2
          have hpt : t = s.parent.died p.pid := by
            simpa [Parent.step] using (Except.ok.inj (ht.symm.trans (by simp [Parent.step])))
          subst hpt
          refine ⟨_, ?_, .died hp hdead⟩
          have hsingle := onKids_single h.parent hp (fun q => q.pid == p.pid)
            (fun kid => { kid with up := kid.up.hangup }) fun q hq => by
              rw [beq_iff_eq]
              exact ⟨fun he => h.parent.pid_injective hq hp he, fun he => by rw [he]⟩
          simp only [System.step, ht, ok_bind, hsingle]
        · have hw' : ∀ ready, e ≠ .wake ready := fun ready he => hw ⟨ready, he⟩
          have hd' : ∀ pid, e ≠ .die pid := fun pid he => hd ⟨pid, he⟩
          refine ⟨_, ?_, .quiet hm hw' hd' fun idx he => by simp [he, Event.ofParent] at hof⟩
          simp only [System.step, ht, ok_bind]
  | notify => exact h.notify_turn ha
  | wake c ready =>
      obtain ⟨⟨p, hp, rfl, hdead⟩, hctl, hn⟩ := ha
      exact ⟨_, rfl, .woke hp hdead hctl hn⟩
  | receive c m =>
      obtain ⟨⟨p, hp, rfl, hdead⟩, hx⟩ := ha
      obtain ⟨todo, hctl⟩ := hhead hx
      have hlim := Nat.not_le.mpr (h.parent.slots p hp)
      cases m with
      | none =>
          refine ⟨_, ?_, .cleared hp hdead hctl⟩
          simp only [System.step, proc_eq h.parent hp, hctl, clientBranch, hlim, ite_false]
      | some m =>
          refine ⟨_, ?_, .received hp hdead hctl⟩
          simp only [System.step, proc_eq h.parent hp, hctl, clientBranch, hlim, ite_false]
          simp [System.onKid, System.fill]
  | answer c =>
      obtain ⟨⟨p, hp, rfl, hdead⟩, hx⟩ := ha
      obtain ⟨todo, hctl⟩ := hhead hx
      cases hq : (s.kids p.serial).down.queue.head? with
      | none =>
          refine ⟨_, ?_, .skipped hp hdead hctl (List.head?_eq_none_iff.mp hq)⟩
          simp only [System.step, proc_eq h.parent hp, hctl, pipeBranch, kids_onKid_self, hq]
      | some n =>
          have hlim := Nat.not_le.mpr ((h.carries _).down n (List.mem_of_head? hq))
          refine ⟨_, ?_, .answered hp hdead hctl hq⟩
          simp only [System.step, proc_eq h.parent hp, hctl, pipeBranch, kids_onKid_self, hq, hlim,
            ite_false]
          simp [System.onKid]
  | endBatch c =>
      obtain ⟨⟨p, hp, rfl, hdead⟩, hctl⟩ := ha
      exact ⟨_, rfl, .rested hp hdead hctl⟩

/-- Every step the environment allows is one of the turns. -/
theorem SysInv.turn_of_step (h : SysInv k s) {a : Act} (ha : s.Allowed k a)
    (hs : s.step k a = .ok t) : Turn k s a t := by
  obtain ⟨u, hu, hturn⟩ := h.step_turn ha
  obtain rfl := Except.ok.inj (hu.symm.trans hs)
  exact hturn

/-- A change to one child that puts nothing else into its pipes. -/
theorem SysInv.onKid (h : SysInv k s) {p : Proc} (hp : p ∈ s.parent.kernel.procs) {f : Kid → Kid}
    (hf : (f (s.kids p.serial)).Carries) : SysInv k (s.onKid p.serial f) := by
  refine ⟨h.parent, ?_, forall_onKid (P := fun _ kid => kid.Carries) h.carries hf⟩
  intro c hc
  have hlt := h.parent.serials.2 p hp
  have hle : s.parent.kernel.forks ≤ c := hc
  rw [kids_onKid_of_ne (by omega)]
  exact h.fresh c hc

/-- The same for a selective change. -/
theorem SysInv.onKids (h : SysInv k s) {sel : Proc → Bool} {f : Kid → Kid}
    (hf : ∀ c, (f (s.kids c)).Carries) : SysInv k (s.onKids sel f) := by
  refine ⟨h.parent, ?_, forall_onKids (P := fun _ kid => kid.Carries) h.carries fun p _ _ => hf _⟩
  intro c hc
  rcases kids_onKids_cases sel f c with ⟨p, hp, rfl, -⟩ | he
  · have hlt := h.parent.serials.2 p hp
    have hle : s.parent.kernel.forks ≤ p.serial := hc
    omega
  · rw [he]
    exact h.fresh c hc

/-- Slots may hold anything. -/
theorem SysInv.fill (h : SysInv k s) {i : Nat} {bytes : List UInt8} : SysInv k (s.fill i bytes) :=
  ⟨h.parent, h.fresh, h.carries⟩

/-- A step of the parent beside the pipes. -/
theorem SysInv.move (h : SysInv k s) {e : Event} {u : Parent} (hm : Move k s.parent e u) :
    SysInv k { s with parent := u } :=
  ⟨h.parent.move hm, fun c hc => h.fresh c ((forks_le hm).trans hc), h.carries⟩

/-- Every turn keeps the system that way. -/
theorem SysInv.turn (h : SysInv k s) {a : Act} (ht : Turn k s a t) : SysInv k t := by
  have hsame (c : Nat) := (h.carries c)
  have hread (c : Nat) : ({ s.kids c with up := (s.kids c).up.read } : Kid).Carries :=
    ⟨fun n hn => (hsame c).up n (List.mem_of_mem_drop hn), (hsame c).down⟩
  cases ht with
  | quiet hm => exact h.move hm
  | reported hm => exact (h.onKids fun c => ⟨(hsame c).up, (hsame c).down⟩).move hm
  | @died p hp hdead =>
      exact (h.onKid hp ⟨(hsame p.serial).up, (hsame p.serial).down⟩).move (.die hp hdead)
  | stray _ _ hm => exact h.move hm
  | unread hp _ _ hm => exact (h.onKid hp (hread _)).move hm
  | @passed p todo n u hp hctl hn hm =>
      have hidx := (hsame _).up n (List.mem_of_head? hn)
      have hk : SysInv k (s.onKid p.serial fun kid => { kid with up := kid.up.read }) :=
        h.onKid hp (hread _)
      refine (hk.onKids fun c => ⟨(hk.carries c).up, ?_⟩).move hm
      intro m hmem
      rcases List.mem_append.mp hmem with hmem | hmem
      · exact (hk.carries c).down m hmem
      · obtain rfl := List.mem_singleton.mp hmem
        exact hidx
  | @woke p ready hp =>
      refine h.onKid hp ⟨(hsame p.serial).up, ?_⟩
      intro n hn
      apply (hsame p.serial).down n
      by_cases hr : Source.pipe ∈ ready <;> simpa [hr] using hn
  | @cleared p todo hp =>
      have hgone : SysInv k (s.onKid p.serial fun kid => { kid with ctl := .batch todo }) :=
        h.onKid hp ⟨(hsame p.serial).up, (hsame p.serial).down⟩
      exact hgone.fill
  | @received p m todo hp =>
      have hfill : SysInv k (s.fill p.idx m.bytes) := h.fill
      refine hfill.onKid hp ⟨?_, (hsame p.serial).down⟩
      intro n hn
      rcases List.mem_append.mp hn with hn | hn
      · exact (hsame p.serial).up n hn
      · obtain rfl := List.mem_singleton.mp hn
        exact h.parent.slots p hp
  | @skipped p todo hp => exact h.onKid hp ⟨(hsame p.serial).up, (hsame p.serial).down⟩
  | @answered p todo n hp =>
      have hsent : SysInv k { s with answers := (p.serial, s.shm n.idx) :: s.answers } :=
        ⟨h.parent, h.fresh, h.carries⟩
      exact hsent.onKid hp ⟨(hsame p.serial).up,
        fun m hm => (hsame p.serial).down m (List.mem_of_mem_drop hm)⟩
  | @rested p hp => exact h.onKid hp ⟨(hsame p.serial).up, (hsame p.serial).down⟩

/-- The tables and the numbers in the pipes are as they should be in every run. -/
theorem sysInv_of_run {users : Nat → ClientData} {as : List Act} (h : (system k users).Run as s) :
    SysInv k s := by
  apply h.invariant (sysInv_start k users)
  intro s a t hi ha hs
  exact hi.turn (hi.turn_of_step ha hs)

/-- The parent's branch of the pipes is its step with the number that was read, if any. -/
theorem notifyBranch_parent {fd : Nat} (h : notifyBranch k s fd = .ok t) :
    ∃ idx, s.parent.step k (.notify idx) = .ok t.parent := by
  unfold notifyBranch at h
  cases hp : s.parent.kernel.procs.find? fun p => p.pipe = fd with
  | none =>
      rw [hp] at h
      cases ht : s.parent.step k (.notify none) with
      | error x => simp [ht] at h
      | ok u =>
          simp only [ht, ok_bind, Except.ok.injEq] at h
          exact ⟨none, by rw [ht, ← h]⟩
  | some p =>
      rw [hp] at h
      refine ⟨(s.kids p.serial).up.queue.head?.map Notice.idx, ?_⟩
      cases ht : s.parent.step k (.notify ((s.kids p.serial).up.queue.head?.map Notice.idx)) with
      | error x => simp [ht] at h
      | ok u =>
          cases hf : broadcastTargets s.parent fd with
          | error x => simp [ht, hf] at h
          | ok fds =>
              simp only [ht, hf, ok_bind, Except.ok.injEq] at h
              rw [← h]

private theorem clientBranch_parent {p : Proc} {m : Option Message}
    (h : clientBranch s p m = .ok t) : t.parent = s.parent := by
  unfold clientBranch at h
  split at h
  · cases h
  · split at h <;> exact (congrArg System.parent (Except.ok.inj h)).symm

private theorem pipeBranch_parent {p : Proc} (h : pipeBranch s p = .ok t) :
    t.parent = s.parent := by
  unfold pipeBranch at h
  split at h
  · exact (congrArg System.parent (Except.ok.inj h)).symm
  · split at h
    · cases h
    · exact (congrArg System.parent (Except.ok.inj h)).symm

/-- On the parent's side, a run of the server is a run of the parent. -/
theorem parent_of_run {users : Nat → ClientData} {as : List Act} (h : (system k users).Run as s) :
    ∃ es, (parentMachine k users).Run es s.parent := by
  apply h.project System.parent rfl
  intro s a t ha hs
  change s.step k a = .ok t at hs
  cases a with
  | parent e =>
      refine Or.inr ⟨e, ha.2, ?_⟩
      cases ht : s.parent.step k e with
      | error x => simp [System.step, ht] at hs
      | ok u =>
          simp only [System.step, ht, ok_bind, Except.ok.injEq] at hs
          rw [← hs]
          exact ht
  | notify =>
      obtain ⟨fd, todo, hctl, hl, hfd⟩ := Parent.at_notify ha.1
      simp only [System.step, hctl] at hs
      obtain ⟨idx, hidx⟩ := notifyBranch_parent hs
      refine Or.inr ⟨.notify idx, ⟨?_, trivial⟩, hidx⟩
      simp [Parent.at, hctl, hl, hfd]
  | wake c ready =>
      obtain rfl := Except.ok.inj hs
      exact Or.inl rfl
  | receive c m =>
      left
      simp only [System.step] at hs
      split at hs
      · exact (clientBranch_parent hs).trans parent_onKid
      · exact (congrArg System.parent (Except.ok.inj hs)).symm
  | answer c =>
      left
      simp only [System.step] at hs
      split at hs
      · exact (pipeBranch_parent hs).trans parent_onKid
      · exact (congrArg System.parent (Except.ok.inj hs)).symm
  | endBatch c =>
      obtain rfl := Except.ok.inj hs
      exact Or.inl rfl

theorem sampleText_fits (b : UInt8) : [b].length < bufferSize := by simp [bufferSize]

/-- A message of a single byte. -/
def sampleText (b : UInt8) : Message := ⟨[b], List.cons_ne_nil b [], sampleText_fits b⟩

/-- A client comes and is admitted. -/
def sampleArrival (fd0 fd1 pid : Nat) : List Act :=
  [.parent (.wake [3]), .parent (.accept ⟨some 7, some (fd0, fd1), some pid⟩), .parent .endBatch]

/-- Child `c` receives a byte, and the parent reads of it in pipe `fd` and passes it on. -/
def sampleMessage (c fd : Nat) (b : UInt8) : List Act :=
  [.wake c [.conn], .receive c (some (sampleText b)), .endBatch c, .parent (.wake [fd]), .notify,
    .parent .endBatch]

end Chat

end LinuxWebsocket
