import LinuxWebsocket.Chat.Delivery
import LinuxWebsocket.Lib.TotalOrder

/-!
# One order of all messages

The parent reads one notification at a time and writes it to all other pipes before it
reads the next one. What the children are passed is therefore a total-order broadcast:
the log is the order in which the parent reads, a child joins when it is registered and
leaves when it is reaped.
-/

namespace LinuxWebsocket

namespace Chat

open EdgeTriggered TotalOrder

variable {k : Setup} {s t : System} {g : Group Nat Notice}

/-- What the parent has read from a child and written to it. -/
def Kid.exchanged (kid : Kid) : List Notice × List Notice := (kid.up.received, kid.down.sent)

/-- The server has passed on what the log says, and to whom it says. -/
structure Broadcasts (k : Setup) (s : System) (g : Group Nat Notice) : Prop
    extends Delivery k s where
  marked : g.Marked
  /-- Children join in the order in which they are forked. -/
  forked : ∀ c, (g.joined c).isSome ↔ c < s.parent.kernel.forks
  order : ∀ c d a b, c ≤ d → g.joined c = some a → g.joined d = some b → a ≤ b
  present : ∀ c, g.Present c ↔ ∃ p ∈ s.parent.kernel.procs, p.serial = c
  exchanged : ∀ c, (s.kids c).exchanged = (g.posts Notice.sender c, g.view Notice.sender c)

/-- A step that passes nothing on and leaves the children as they are. -/
theorem Broadcasts.frame (h : Broadcasts k s g) (ht : Delivery k t)
    (hf : t.parent.kernel.forks = s.parent.kernel.forks)
    (hp : t.parent.kernel.procs.map Proc.serial = s.parent.kernel.procs.map Proc.serial)
    (hx : ∀ c, (t.kids c).exchanged = (s.kids c).exchanged) : Broadcasts k t g := by
  refine ⟨ht, h.marked, fun c => hf ▸ h.forked c, h.order, fun c => ?_, fun c => ?_⟩
  · rw [h.present, ← List.mem_map, ← hp, List.mem_map]
  · rw [hx, h.exchanged]

/-- A forked child joins. -/
theorem Broadcasts.join (h : Broadcasts k s g) (ht : Delivery k t) {p : Proc}
    (hserial : p.serial = s.parent.kernel.forks)
    (hf : t.parent.kernel.forks = s.parent.kernel.forks + 1)
    (hp : t.parent.kernel.procs = s.parent.kernel.procs ++ [p]) (hk : t.kids = s.kids) :
    g.Permits Notice.sender (.join p.serial) ∧ Broadcasts k t (g.apply (.join p.serial)) := by
  have hnew : g.joined p.serial = none := by
    have hno := (h.forked p.serial).not.mpr (by omega)
    simpa using hno
  have hop : g.Permits Notice.sender (.join p.serial) := hnew
  have hmarked := h.marked.apply hop
  have hjoined (c : Nat) (hc : c ≠ p.serial) :
      (g.apply (.join p.serial)).joined c = g.joined c := Function.update_of_ne hc ..
  have hself : (g.apply (.join p.serial)).joined p.serial = some g.log.length :=
    Function.update_self ..
  have hlast {c a : Nat} (ha : g.joined c = some a) : c < p.serial := by
    rw [hserial]
    exact (h.forked c).mp (by simp [ha])
  refine ⟨hop, ht, hmarked, ?_, ?_, ?_, ?_⟩
  · intro c
    by_cases hc : c = p.serial
    · subst c
      simp [Group.apply, hf, hserial]
    · rw [hjoined c hc, h.forked, hf]
      omega
  · intro c d a b hcd ha hb
    by_cases hd : d = p.serial
    · subst d
      obtain rfl := Option.some.inj (hself.symm.trans hb)
      exact hmarked.joined c a ha
    · rw [hjoined d hd] at hb
      have hc : c ≠ p.serial := fun he => by
        have := hlast hb
        omega
      exact h.order c d a b hcd (by rwa [hjoined c hc] at ha) hb
  · intro c
    by_cases hc : c = p.serial
    · subst c
      have hleft : g.left p.serial = none := h.marked.left_eq_none hnew
      simp [Group.Present, hp, Group.apply, hleft]
    · have hsame : (g.apply (.join p.serial)).Present c ↔ g.Present c := by
        unfold Group.Present
        rw [hjoined c hc]
        rfl
      rw [hsame, h.present, hp]
      simp [Ne.symm hc]
  · intro c
    rw [hk, h.exchanged, Group.view_join h.marked hnew]
    rfl

/-- A reaped child leaves. -/
theorem Broadcasts.leave (h : Broadcasts k s g) (ht : Delivery k t) {p : Proc}
    (hp : p ∈ s.parent.kernel.procs)
    (hf : t.parent.kernel.forks = s.parent.kernel.forks)
    (hps : t.parent.kernel.procs = s.parent.kernel.procs.filter fun q => q.pid ≠ p.pid)
    (hk : t.kids = s.kids) :
    g.Permits Notice.sender (.leave p.serial) ∧ Broadcasts k t (g.apply (.leave p.serial)) := by
  have hin : g.Present p.serial := (h.present _).mpr ⟨p, hp, rfl⟩
  have hop : g.Permits Notice.sender (.leave p.serial) := hin
  refine ⟨hop, ht, h.marked.apply hop, ?_, h.order, ?_, ?_⟩
  · intro c
    rw [hf]
    exact h.forked c
  · intro c
    by_cases hc : c = p.serial
    · subst c
      have hgone : ¬(g.apply (.leave p.serial)).Present p.serial := by
        simp [Group.Present, Group.apply]
      refine iff_of_false hgone ?_
      rintro ⟨q, hq, he⟩
      rw [hps] at hq
      obtain ⟨hq, hpid⟩ := List.mem_filter.mp hq
      exact absurd (congrArg Proc.pid (h.parent.serial_injective hq hp he)) (by simpa using hpid)
    · have hsame : (g.apply (.leave p.serial)).Present c ↔ g.Present c := by
        simp [Group.Present, Group.apply, hc]
      rw [hsame, h.present, hps]
      constructor
      · rintro ⟨q, hq, rfl⟩
        refine ⟨q, List.mem_filter.mpr ⟨hq, ?_⟩, rfl⟩
        have hne : q.pid ≠ p.pid := fun he => hc (by rw [h.parent.pid_injective hq hp he])
        simpa using hne
      · rintro ⟨q, hq, rfl⟩
        exact ⟨q, (List.mem_filter.mp hq).1, rfl⟩
  · intro c
    rw [hk, h.exchanged, Group.view_leave hin]
    rfl

/-- Reading a pipe takes what was written first. -/
theorem received_read {c : Channel Notice} {n : Notice} (hn : c.queue.head? = some n) :
    c.read.received = c.received ++ [n] := by
  obtain ⟨rest, hrest⟩ := List.head?_eq_some_iff.mp hn
  simp [Channel.read, hrest]

/-- Reading a child's pipe. -/
theorem exchanged_read {p : Proc} {n : Notice}
    (hn : (s.kids p.serial).up.queue.head? = some n) (c : Nat) :
    ((s.onKid p.serial fun kid => { kid with up := kid.up.read }).kids c).exchanged =
      ((s.kids c).up.received ++ (if p.serial = c then [n] else []), (s.kids c).down.sent) := by
  by_cases hc : c = p.serial
  · subst c
    rw [kids_onKid_self, if_pos rfl, ← received_read hn]
    rfl
  · rw [kids_onKid_of_ne hc, if_neg (Ne.symm hc), List.append_nil]
    rfl

/-- Writing to the pipes of all other children. -/
theorem exchanged_written (h : Inv k s.parent) {p : Proc} (hp : p ∈ s.parent.kernel.procs)
    (n : Notice) (c : Nat) :
    ((s.onKids (fun q => q.pipe != p.pipe) fun kid =>
      { kid with down := kid.down.write n }).kids c).exchanged =
      ((s.kids c).up.received, (s.kids c).down.sent ++
        if (∃ q ∈ s.parent.kernel.procs, q.serial = c) ∧ p.serial ≠ c then [n] else []) := by
  by_cases hex : ∃ q ∈ s.parent.kernel.procs, q.serial = c
  · obtain ⟨q, hq, rfl⟩ := hex
    have hsel : (q.pipe != p.pipe) = true ↔ p.serial ≠ q.serial := by
      rw [bne_iff_ne]
      exact not_congr ⟨fun he => by rw [h.pipe_injective hq hp he],
        fun he => by rw [h.serial_injective hp hq he]⟩
    have hone : (∃ r ∈ s.parent.kernel.procs, r.serial = q.serial) ∧ p.serial ≠ q.serial ↔
        (q.pipe != p.pipe) = true := by
      rw [hsel, and_iff_right ⟨q, hq, rfl⟩]
    rw [kids_onKids h hq]
    simp only [hone]
    split
    · rfl
    · rw [List.append_nil]
      rfl
  · rw [if_neg fun hc => hex hc.1, List.append_nil]
    rcases kids_onKids_cases (s := s) (fun q => q.pipe != p.pipe)
      (fun kid => { kid with down := kid.down.write n }) c with ⟨q, hq, he, -⟩ | he
    · exact absurd ⟨q, hq, he⟩ hex
    · rw [he]
      rfl

/-- A notification passed on is a post of the child it came from. -/
theorem Broadcasts.post (h : Broadcasts k s g) {p : Proc} {n : Notice}
    (hp : p ∈ s.parent.kernel.procs) (hn : (s.kids p.serial).up.queue.head? = some n)
    (ht : Delivery k t) (hkernel : t.parent.kernel = s.parent.kernel)
    (hk : t.kids = ((s.onKid p.serial fun kid => { kid with up := kid.up.read }).onKids
      (fun q => q.pipe != p.pipe) fun kid => { kid with down := kid.down.write n }).kids) :
    g.Permits Notice.sender (.post n) ∧ Broadcasts k t (g.apply (.post n)) := by
  have hsender : n.sender = p.serial := ((h.routed p.serial).up n (List.mem_of_head? hn)).1
  have hop : g.Permits Notice.sender (.post n) := (h.present _).mpr ⟨p, hp, hsender.symm⟩
  refine ⟨hop, ht, h.marked.apply hop, ?_, h.order, ?_, ?_⟩
  · intro c
    rw [hkernel]
    exact h.forked c
  · intro c
    rw [hkernel]
    exact h.present c
  · intro c
    obtain ⟨hread, hsent⟩ := Prod.mk.inj (exchanged_read hn c)
    obtain ⟨hposts, hview⟩ := Prod.mk.inj (h.exchanged c)
    rw [hk, exchanged_written (s := s.onKid p.serial fun kid => { kid with up := kid.up.read })
      h.parent hp, hread, hsent, hposts, hview, Group.posts_post, ← hsender, Prod.mk.injEq]
    have hpresent := h.present c
    refine ⟨?_, ?_⟩
    · by_cases hc : n.sender = c <;> simp [hc]
    · by_cases hc : g.Present c
      · rw [Group.view_post h.marked hc]
        have hex := hpresent.mp hc
        by_cases hs : n.sender = c <;> simp only [parent_onKid, hs, hex, List.filter_cons] <;> simp
      · rw [Group.view_post_of_not h.marked hc]
        have hno := hpresent.not.mp hc
        simp only [parent_onKid, hno, false_and, ite_false, List.append_nil]

/-- A step of the parent beside the pipes: a child joins or leaves, or nothing is seen of it. -/
theorem Broadcasts.quiet (h : Broadcasts k s g) {e : Event} {u : Parent}
    (hm : Move k s.parent e u) (ht : Delivery k { s with parent := u }) :
    Broadcasts k { s with parent := u } g ∨ ∃ op, g.Permits Notice.sender op ∧
      Broadcasts k { s with parent := u } (g.apply op) := by
  cases hm with
  | @admitted connfd fd0 fd1 pid =>
      exact Or.inr ⟨_, h.join ht (p := ⟨pid, s.parent.userCount, fd0, s.parent.kernel.forks, false⟩)
        rfl rfl rfl rfl⟩
  | reaped _ hp => exact Or.inr ⟨_, h.leave ht hp rfl rfl rfl⟩
  | die => exact Or.inl (h.frame ht rfl (map_died _ fun _ => rfl) fun _ => rfl)
  | _ => exact Or.inl (h.frame ht rfl rfl fun _ => rfl)

/-- A turn that touches nothing of the children but what does not show. -/
theorem Broadcasts.unseen (h : Broadcasts k s g) (ht : Delivery k t)
    (hkernel : t.parent.kernel = s.parent.kernel)
    (hx : ∀ c, (t.kids c).exchanged = (s.kids c).exchanged) : Broadcasts k t g :=
  h.frame ht (by rw [hkernel]) (by rw [hkernel]) hx

/-- Every turn is one operation on the group, or none. -/
theorem Broadcasts.turn (h : Broadcasts k s g) {a : Act} (ht : Turn k s a t) :
    Broadcasts k t g ∨ ∃ op, g.Permits Notice.sender op ∧ Broadcasts k t (g.apply op) := by
  have hdel := h.toDelivery.turn ht
  have honKid {c : Nat} {f : Kid → Kid} (hf : (f (s.kids c)).exchanged = (s.kids c).exchanged) :
      ∀ d, ((s.onKid c f).kids d).exchanged = (s.kids d).exchanged :=
    forall_onKid (P := fun d kid => kid.exchanged = (s.kids d).exchanged) (fun _ => rfl) hf
  cases ht with
  | quiet hm => exact h.quiet hm hdel
  | reported hm =>
      cases hm with
      | wake =>
          exact Or.inl (h.unseen hdel rfl (forall_onKids (f := fun kid =>
            { kid with up := kid.up.report }) (P := fun d kid =>
            kid.exchanged = (s.kids d).exchanged) (fun _ => rfl) fun p _ _ => rfl))
  | @died p hp hdead =>
      exact Or.inl (h.frame hdel rfl (map_died _ fun _ => rfl)
        (honKid (f := fun kid => { kid with up := kid.up.hangup }) rfl))
  | stray hctl _ hm => exact Or.inl (h.unseen hdel (by rw [hm.notify_eq hctl]) fun _ => rfl)
  | @unread p todo u hp hctl hq hm =>
      refine Or.inl (h.unseen hdel (by rw [hm.notify_eq hctl])
        (honKid (f := fun kid => { kid with up := kid.up.read }) ?_))
      simp [Kid.exchanged, Channel.read, hq]
  | @passed p todo n u hp hctl hn hm =>
      exact Or.inr ⟨_, h.post hp hn hdel (by rw [hm.notify_eq hctl]) rfl⟩
  | @woke p ready hp =>
      refine Or.inl (h.unseen hdel rfl (honKid ?_))
      by_cases hw : Source.pipe ∈ ready <;> simp [Kid.exchanged, Channel.report, hw]
  | @cleared p todo =>
      exact Or.inl
        (h.unseen hdel rfl (honKid (f := fun kid => { kid with ctl := .batch todo }) rfl))
  | @received p m todo =>
      exact Or.inl (h.unseen hdel rfl (honKid (f := fun kid => { kid with
        up := kid.up.write ⟨p.idx, p.serial, m, s.writes.length + 1⟩
        ctl := .batch todo }) rfl))
  | skipped => exact Or.inl (h.unseen hdel rfl (honKid rfl))
  | @answered p todo =>
      exact Or.inl (h.unseen hdel rfl
        (honKid (f := fun kid => { kid with down := kid.down.read, ctl := .batch todo }) rfl))
  | rested => exact Or.inl (h.unseen hdel rfl (honKid rfl))

/-- From a state in which the server agrees with a group, every run has one of the group
alongside it. -/
theorem Broadcasts.alongside (h : Broadcasts k s g) {users : Nat → ClientData} {as : List Act}
    (hr : ((system k users).startAt s).Run as t) :
    ∃ ops g', ((system k users).startAt s).Alongside ((group Notice.sender).startAt g)
      (Broadcasts k) as t ops g' := by
  apply hr.simulate (N := (group Notice.sender).startAt g) (Broadcasts k) h
  intro u g a v hu ha hs
  rcases hu.turn (hu.toSysInv.turn_of_step ha hs) with hv | ⟨op, hop, hv⟩
  · exact Or.inl hv
  · exact Or.inr ⟨op, _, hop, rfl, hv⟩

/-- In particular it ends where one of the group ends. -/
theorem Broadcasts.run (h : Broadcasts k s g) {users : Nat → ClientData} {as : List Act}
    (hr : ((system k users).startAt s).Run as t) :
    ∃ ops g', ((group Notice.sender).startAt g).Run ops g' ∧ Broadcasts k t g' := by
  obtain ⟨ops, g', ha⟩ := h.alongside hr
  exact ⟨ops, g', ha.run, ha.related⟩

/-- What children write to their pipes is told apart by its stamps. -/
structure Stamped (s : System) : Prop where
  stamp : ∀ c, ∀ n ∈ (s.kids c).up.sent, n.stamp ≤ s.writes.length
  nodup : ∀ c, (s.kids c).up.sent.Nodup

/-- Nothing is written to a pipe, and no write to a slot is taken back. -/
theorem Stamped.frame (h : Stamped s) (hw : s.writes.length ≤ t.writes.length)
    (hk : ∀ c, (t.kids c).up.sent = (s.kids c).up.sent) : Stamped t :=
  ⟨fun c n hn => (h.stamp c n (hk c ▸ hn)).trans hw, fun c => (hk c).symm ▸ h.nodup c⟩

/-- A notice is stamped with the number of its write to a slot. -/
theorem Stamped.turn (h : Stamped s) {a : Act} (ht : Turn k s a t) : Stamped t := by
  have honKid {c : Nat} {f : Kid → Kid} (hf : (f (s.kids c)).up.sent = (s.kids c).up.sent) :
      ∀ d, ((s.onKid c f).kids d).up.sent = (s.kids d).up.sent :=
    forall_onKid (P := fun d kid => kid.up.sent = (s.kids d).up.sent) (fun _ => rfl) hf
  have honKids {u : System} (hu : ∀ d, (u.kids d).up.sent = (s.kids d).up.sent) {sel : Proc → Bool}
      {f : Kid → Kid} (hf : ∀ kid, (f kid).up.sent = kid.up.sent) :
      ∀ d, ((u.onKids sel f).kids d).up.sent = (s.kids d).up.sent :=
    forall_onKids (P := fun d kid => kid.up.sent = (s.kids d).up.sent) hu
      fun p _ _ => (hf _).trans (hu _)
  cases ht with
  | quiet => exact h.frame le_rfl fun _ => rfl
  | reported =>
      exact h.frame le_rfl (honKids (f := fun kid => { kid with up := kid.up.report })
        (fun _ => rfl) fun _ => rfl)
  | died =>
      exact h.frame le_rfl (honKid (f := fun kid => { kid with up := kid.up.hangup }) rfl)
  | stray => exact h.frame le_rfl fun _ => rfl
  | unread => exact h.frame le_rfl (honKid (f := fun kid => { kid with up := kid.up.read }) rfl)
  | @passed p todo n =>
      exact h.frame le_rfl (honKids (f := fun kid => { kid with down := kid.down.write n })
        (honKid (c := p.serial) (f := fun kid => { kid with up := kid.up.read }) rfl)
        fun _ => rfl)
  | woke => exact h.frame le_rfl (honKid rfl)
  | @cleared p todo =>
      exact h.frame (Nat.le_succ _) (honKid (f := fun kid => { kid with ctl := .batch todo }) rfl)
  | @received p m todo =>
      have hlater (c : Nat) : ∀ n ∈ (s.kids c).up.sent, n.stamp ≤ s.writes.length + 1 :=
        fun n hn => (h.stamp c n hn).trans (Nat.le_succ _)
      refine ⟨forall_onKid (s := s.fill p.idx m.bytes)
        (P := fun _ kid => ∀ n ∈ kid.up.sent, n.stamp ≤ s.writes.length + 1) hlater ?_,
        forall_onKid (s := s.fill p.idx m.bytes) (P := fun _ kid => kid.up.sent.Nodup) h.nodup ?_⟩
      · intro n hn
        rcases List.mem_append.mp hn with hn | hn
        · exact hlater _ n hn
        · obtain rfl := List.mem_singleton.mp hn
          exact le_rfl
      · refine List.nodup_append.mpr ⟨h.nodup _, List.nodup_singleton _, ?_⟩
        intro n hn n' hn'
        obtain rfl := List.mem_singleton.mp hn'
        rintro rfl
        exact absurd (h.stamp _ _ hn) (Nat.not_le.mpr (Nat.lt_succ_self _))
  | skipped => exact h.frame le_rfl (honKid rfl)
  | @answered p todo =>
      exact h.frame le_rfl
        (honKid (f := fun kid => { kid with down := kid.down.read, ctl := .batch todo }) rfl)
  | rested => exact h.frame le_rfl (honKid rfl)

end Chat

end LinuxWebsocket
