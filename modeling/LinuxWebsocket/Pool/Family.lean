import LinuxWebsocket.Pool.Images
import LinuxWebsocket.Pool.Reaping

/-!
# The processes of the pool together

Every step of a process, in whatever order, keeps what holds of all of them. So the
children come to their places, a pipe's ends are where they should be, which is not where
a hang-up would be noticed, and the parent comes to its loop with what its model asks for.
-/

namespace LinuxWebsocket

namespace Pool

namespace Forking

variable (c : Creation)

/-- What holds of all processes at all times. -/
structure Family.Inv (s : Family) : Prop where
  kernel : s.kernel.Inv c (s.images 0).pc
  caller : (s.images 0).pc ≠ .gone → Caller c s.kernel (s.images 0)
  child : ∀ i, i + 1 < s.kernel.made → (s.images (i + 1)).pc ≠ .gone →
    Child c s.kernel i (s.images (i + 1))
  gone : ∀ p fd, (s.images p).pc = .gone → (s.images p).fds fd = none
  waited : ∀ p, s.kernel.waited p = true → (s.images p).pc = .gone

section Steps

variable {c : Creation} {t : Kernel} {s : Family} {i p : Nat}

/-- The caller goes on, and the kernel's numbers stay. -/
theorem Kernel.Inv.move {pc pc' : Pc} (h : t.Inv c pc) (hcounts : t.Counts c pc')
    (hin : pc'.inConstructor = true → pc.inConstructor = true) : t.Inv c pc' :=
  { h with counts := hcounts, waited := fun hc => h.waited (hin hc) }

/-- The caller may die anywhere. -/
theorem Kernel.Inv.gone {pc : Pc} (h : t.Inv c pc) : t.Inv c .gone := by
  have hcounts := h.counts
  refine h.move ?_ (by simp [Pc.inConstructor])
  cases pc <;> simp only [Kernel.Counts] at hcounts ⊢ <;> omega

/-- A process does something that the kernel's numbers do not show. -/
theorem Family.Inv.on (h : s.Inv c) {f : Image → Image}
    (hkernel : p = 0 → s.kernel.Inv c (f (s.images 0)).pc)
    (hcaller : p = 0 → (f (s.images 0)).pc ≠ .gone → Caller c s.kernel (f (s.images 0)))
    (hchild : ∀ i, p = i + 1 → p < s.kernel.made → (f (s.images p)).pc ≠ .gone →
      Child c s.kernel i (f (s.images p)))
    (hgone : (f (s.images p)).pc = .gone → ∀ fd, (f (s.images p)).fds fd = none)
    (hwaited : s.kernel.waited p = true → (f (s.images p)).pc = .gone) : (s.on p f).Inv c := by
  have hsame : (s.on p f).images p = f (s.images p) := Function.update_self _ _ _
  have hother {q : Nat} (hq : q ≠ p) : (s.on p f).images q = s.images q :=
    Function.update_of_ne hq _ _
  refine ⟨?_, ?_, fun i hi => ?_, fun q => ?_, fun q => ?_⟩
  · by_cases hp : p = 0
    · subst hp
      rw [hsame]
      exact hkernel rfl
    · rw [hother (Ne.symm hp)]
      exact h.kernel
  · by_cases hp : p = 0
    · subst hp
      rw [hsame]
      exact hcaller rfl
    · rw [hother (Ne.symm hp)]
      exact h.caller
  · by_cases hp : i + 1 = p
    · subst hp
      rw [hsame]
      exact hchild i rfl hi
    · rw [hother hp]
      exact h.child i hi
  · by_cases hp : q = p
    · subst hp
      rw [hsame]
      exact fun fd hq => hgone hq fd
    · rw [hother hp]
      exact fun fd => h.gone q fd
  · by_cases hp : q = p
    · subst hp
      rw [hsame]
      exact hwaited
    · rw [hother hp]
      exact h.waited q

/-- The caller does something that the kernel's numbers do not show. -/
theorem Family.Inv.onCaller (h : s.Inv c) {f : Image → Image} (hne : (s.images 0).pc ≠ .gone)
    (hlive : (f (s.images 0)).pc ≠ .gone) (hkernel : s.kernel.Inv c (f (s.images 0)).pc)
    (hcaller : Caller c s.kernel (f (s.images 0))) : (s.on 0 f).Inv c :=
  h.on (fun _ => hkernel) (fun _ _ => hcaller) (fun i hi => absurd hi (Nat.succ_ne_zero i).symm)
    (fun hg => absurd hg hlive) fun hw => absurd (h.waited 0 hw) hne

/-- A child does something that the kernel's numbers do not show. -/
theorem Family.Inv.onChild (h : s.Inv c) {f : Image → Image} (hne : (s.images (i + 1)).pc ≠ .gone)
    (hlive : (f (s.images (i + 1))).pc ≠ .gone)
    (hchild : Child c s.kernel i (f (s.images (i + 1)))) : (s.on (i + 1) f).Inv c := by
  refine h.on (absurd · (Nat.succ_ne_zero i)) (absurd · (Nat.succ_ne_zero i)) (fun j hj _ _ => ?_)
    (fun hg => absurd hg hlive) (fun hw => absurd (h.waited _ hw) hne)
  obtain rfl : i = j := Nat.succ.inj hj
  exact hchild

/-- A process dies. -/
theorem Family.Inv.die (h : s.Inv c) : (s.on p Image.die).Inv c :=
  h.on (fun _ => h.kernel.gone) (fun _ hp => absurd rfl hp) (fun _ _ _ hp => absurd rfl hp)
    (fun _ _ => rfl) fun _ => rfl

/-- Only the caller makes pipes and processes. -/
theorem Family.Inv.eq_zero (h : s.Inv c) (hp : p < s.kernel.made)
    (hpc : (s.images p).pc.inConstructor = true) (hf : (s.images p).pc.atBehind = false) :
    p = 0 := by
  cases p with
  | zero => rfl
  | succ i =>
      have hne : (s.images (i + 1)).pc ≠ .gone := fun he => by simp [he, Pc.inConstructor] at hpc
      rcases (h.child i hp hne).place with ⟨hforked, -⟩ | ⟨hnot, -⟩
      · simp [hforked, Pc.atBehind] at hf
      · simp [hnot] at hpc

/-- Whoever comes to `fork` is in a round of the loop. -/
theorem Family.Inv.lt_of_paired (h : s.Inv c) (hp : p < s.kernel.made)
    (hpc : (s.images p).pc = .paired i) : i < c.processNumber := by
  obtain rfl : p = 0 := h.eq_zero hp (by simp [hpc, Pc.inConstructor]) (by simp [hpc, Pc.atBehind])
  have hcounts : s.kernel.Counts c (.paired i) := hpc ▸ h.kernel.counts
  exact hcounts.1

/-- A child comes from `fork` in the round of its own place. -/
theorem Child.eq_of_forked {j : Nat} {m : Image} (h : Child c t j m) (hpc : m.pc = .forked i) :
    i = j := by
  rcases h.place with ⟨hforked, -⟩ | ⟨hnot, -⟩
  · exact Pc.forked.inj (hpc.symm.trans hforked)
  · simp [hpc, Pc.inConstructor] at hnot

/-- Whoever comes from `fork` is in a round of the loop. -/
theorem Family.Inv.lt_of_forked (h : s.Inv c) (hp : p < s.kernel.made)
    (hpc : (s.images p).pc = .forked i) : i < c.processNumber := by
  cases p with
  | zero =>
      have hcounts : s.kernel.Counts c (.forked i) := hpc ▸ h.kernel.counts
      exact hcounts.1
  | succ k =>
      have hmade := h.kernel.made_le
      have hpaired := h.kernel.paired_le
      have hplace := (h.child k hp (by simp [hpc])).eq_of_forked hpc
      omega

/-- A process behind the constructor does something that does not concern the pipes. -/
theorem Family.Inv.quiet (h : s.Inv c) (hp : p < s.kernel.made) {f : Image → Image}
    (hends : (s.images p).SameEnds (f (s.images p)))
    (hidx : (f (s.images p)).mIdx = (s.images p).mIdx)
    (harray : (f (s.images p)).mSubProcess = (s.images p).mSubProcess)
    (hpc : (s.images p).pc = .constructed ∨ (s.images p).pc = .epolled)
    (hpc' : (f (s.images p)).pc = .epolled ∨ (f (s.images p)).pc = .running)
    (ho : (s.images p).Others c → (f (s.images p)).Others c) : (s.on p f).Inv c := by
  have hne : (s.images p).pc ≠ .gone := fun he => by simp [he] at hpc
  have hne' : (f (s.images p)).pc ≠ .gone := fun he => by simp [he] at hpc'
  refine h.on ?_ ?_ ?_ (fun he => absurd he hne') (fun hw => absurd (h.waited p hw) hne)
  · rintro rfl
    refine h.kernel.move ?_ ?_
    · have hcounts := h.kernel.counts
      rcases hpc with hpc | hpc <;> rcases hpc' with hpc' | hpc' <;> rw [hpc] at hcounts <;>
        rw [hpc'] <;> exact hcounts
    · rcases hpc' with hpc' | hpc' <;> simp [hpc', Pc.inConstructor]
  · rintro rfl -
    have hc := h.caller hne
    refine hc.quiet hends hidx harray ?_ (ho hc.others)
    rcases hpc with hpc | hpc <;> rcases hpc' with hpc' | hpc' <;> simp [hpc, hpc', Pc.inRound]
  · rintro i rfl hi -
    have hc := h.child i hi hne
    refine hc.quiet hends hidx harray ?_ ?_ ?_ ?_ (ho hc.others)
    · rcases hpc with hpc | hpc <;> simp [hpc, Pc.inConstructor]
    · rcases hpc' with hpc' | hpc' <;> simp [hpc', Pc.inConstructor]
    · rcases hpc with hpc | hpc <;> simp [hpc]
    · rcases hpc' with hpc' | hpc' <;> simp [hpc']

/-- A pipe is made. -/
theorem Family.Inv.pair (h : s.Inv c) (hp : p < s.kernel.made) (hpc : (s.images p).pc = .loop i)
    (hi : i < c.processNumber) {ab : Nat × Nat} (hab : (s.images p).Free ab) :
    (s.pair p i (some ab)).Inv c := by
  obtain rfl : p = 0 := h.eq_zero hp (by simp [hpc, Pc.inConstructor]) (by simp [hpc, Pc.atBehind])
  have hcounts : s.kernel.Counts c (.loop i) := hpc ▸ h.kernel.counts
  obtain ⟨-, hpaired, hmade⟩ := hcounts
  have hwait := h.kernel.waited (by simp [hpc, Pc.inConstructor])
  have hcaller := (h.caller (by simp [hpc])).pair h.kernel hpc hi hab
  refine ⟨⟨?_, h.kernel.pids_pos, h.kernel.pids_inj, h.kernel.parent, h.kernel.waited_pos,
    h.kernel.waited_lt, fun _ => hwait⟩, fun _ => ?_, fun k hk => ?_, fun q fd => ?_, fun q => ?_⟩
  · simp only [Family.pair, Family.on, Function.update_self, Image.pair, Kernel.Counts, Kernel.pair]
    omega
  · simpa only [Family.pair, Family.on, Function.update_self] using hcaller
  · have hk' : k + 1 < s.kernel.made := hk
    simp only [Family.pair, Family.on, Function.update_of_ne (Nat.succ_ne_zero k)]
    refine fun hne => (h.child k hk hne).congr (fun _ _ => rfl) fun j hj => ?_
    exact Function.update_of_ne (by omega) _ _
  · by_cases hq : q = 0
    · simp [hq, Family.pair, Family.on, Image.pair]
    · simpa [Family.pair, Family.on, hq] using h.gone q fd
  · by_cases hq : q = 0
    · simp [hq, Family.pair, Kernel.pair, hwait]
    · simpa [Family.pair, Family.on, Kernel.pair, hq] using h.waited q

/-- A process is forked. -/
theorem Family.Inv.fork (h : s.Inv c) (hp : p < s.kernel.made) (hpc : (s.images p).pc = .paired i)
    {pid : Nat} (hpos : 0 < pid)
    (hnew : ∀ q < s.kernel.made, s.kernel.waited q = false → s.kernel.pids q ≠ pid) :
    (s.fork p i (some pid)).Inv c := by
  obtain rfl : p = 0 := h.eq_zero hp (by simp [hpc, Pc.inConstructor]) (by simp [hpc, Pc.atBehind])
  have hcounts : s.kernel.Counts c (.paired i) := hpc ▸ h.kernel.counts
  obtain ⟨hi, hpaired, hmade⟩ := hcounts
  have hwait := h.kernel.waited (by simp [hpc, Pc.inConstructor])
  have hcaller := h.caller (by simp [hpc])
  have h0 : (s.fork 0 i (some pid)).images 0 = (s.images 0).fork i pid := by
    simp [Family.fork, Function.update_of_ne (show (0 : Nat) ≠ s.kernel.made by omega)]
  have hnewborn : (s.fork 0 i (some pid)).images s.kernel.made = (s.images 0).fork i 0 := by
    simp [Family.fork]
  have hother {q : Nat} (hq : q ≠ 0) (hq' : q ≠ s.kernel.made) :
      (s.fork 0 i (some pid)).images q = s.images q := by
    simp [Family.fork, hq, hq']
  refine ⟨⟨?_, ?_, ?_, ?_, h.kernel.waited_pos, ?_, fun _ => hwait⟩, ?_, fun k hk => ?_,
    fun q fd => ?_, fun q hq => ?_⟩
  · rw [h0]
    simp only [Image.fork, Kernel.Counts, Family.fork, Kernel.fork]
    omega
  · intro q hq
    have := h.kernel.pids_pos q
    simp only [Family.fork, Kernel.fork, Function.update_apply] at hq ⊢
    grind
  · intro q hq r hr
    have hinj := h.kernel.pids_inj q
    have hq' := hnew q
    have hr' := hnew r
    simp only [Family.fork, Kernel.fork, Function.update_apply] at hq hr ⊢
    grind
  · intro q hq
    have := h.kernel.parent q
    simp only [Family.fork, Kernel.fork, Function.update_apply] at hq ⊢
    grind
  · intro q hq
    simp [Family.fork, Kernel.fork, hwait] at hq
  · rw [h0]
    exact fun _ => hcaller.fork h.kernel hpc pid
  · have hk' : k + 1 < s.kernel.made + 1 := hk
    by_cases hlast : k + 1 = s.kernel.made
    · obtain rfl : k = i := by omega
      rw [hlast, hnewborn]
      exact fun _ => Child.fork hcaller h.kernel hpc pid
    · rw [hother (by omega) hlast]
      refine fun hne => (h.child k (by omega) hne).congr (fun j hj => ?_) fun _ _ => rfl
      exact Function.update_of_ne (by omega) _ _
  · by_cases hq : q = 0
    · rw [hq, h0]
      simp [Image.fork]
    · by_cases hq' : q = s.kernel.made
      · rw [hq', hnewborn]
        simp [Image.fork]
      · rw [hother hq hq']
        exact h.gone q fd
  · simp [Family.fork, Kernel.fork, hwait] at hq

/-- A process goes on behind its `fork`. -/
theorem Family.Inv.behind (h : s.Inv c) (hp : p < s.kernel.made)
    (hpc : (s.images p).pc = .forked i) : (s.on p fun m => m.behind i).Inv c := by
  have hne : (s.images p).pc ≠ .gone := by simp [hpc]
  cases p with
  | zero =>
      obtain ⟨hcaller, hplace⟩ := (h.caller hne).behind h.kernel hpc
      have hcounts : s.kernel.Counts c (.forked i) := hpc ▸ h.kernel.counts
      refine h.onCaller hne (by simp [hplace]) (h.kernel.move ?_ ?_) hcaller
      · rw [hplace]
        simp only [Kernel.Counts] at hcounts ⊢
        omega
      · simp [hpc, Pc.inConstructor]
  | succ k =>
      have hc := h.child k hp hne
      obtain rfl := hc.eq_of_forked hpc
      obtain ⟨hchild, hplace⟩ := hc.behind hpc
      exact h.onChild hne (by simp [hplace]) hchild

/-- The caller leaves the constructor. -/
theorem Family.Inv.construct (h : s.Inv c) (hp : p < s.kernel.made)
    (hpc : (s.images p).pc = .loop i) (hi : ¬i < c.processNumber) :
    (s.on p fun m => { m with pc := .constructed }).Inv c := by
  obtain rfl : p = 0 := h.eq_zero hp (by simp [hpc, Pc.inConstructor]) (by simp [hpc, Pc.atBehind])
  have hne : (s.images 0).pc ≠ .gone := by simp [hpc]
  have hcounts : s.kernel.Counts c (.loop i) := hpc ▸ h.kernel.counts
  have hc := h.caller hne
  refine h.onCaller hne (by simp) (h.kernel.move ?_ (by simp [Pc.inConstructor])) ?_
  · simp only [Kernel.Counts] at hcounts ⊢
    omega
  · exact hc.quiet (fun _ _ _ => Iff.rfl) rfl rfl (by simp [hpc, Pc.inRound])
      ⟨fun _ => hc.others.listen (by simp [hpc]), by simp, by simp⟩

/-- A process leaves `run`. -/
theorem Family.Inv.leave (h : s.Inv c) (hp : p < s.kernel.made) (hpc : (s.images p).pc = .running) :
    ∃ m, (s.images p).leave c = .ok m ∧ (s.on p fun _ => m).Inv c := by
  have hne : (s.images p).pc ≠ .gone := by simp [hpc]
  cases p with
  | zero =>
      obtain ⟨m, hm, hcaller, hplace⟩ := (h.caller hne).leave hpc
      have hcounts : s.kernel.Counts c .running := hpc ▸ h.kernel.counts
      refine ⟨m, hm, h.onCaller hne (by simp [hplace]) (h.kernel.move ?_ ?_) hcaller⟩
      · rwa [hplace]
      · simp [hplace, Pc.inConstructor]
  | succ k =>
      have hmade := h.kernel.made_le
      have hpaired := h.kernel.paired_le
      obtain ⟨m, hm, hchild, hplace⟩ := (h.child k hp hne).leave (by omega) hpc
      exact ⟨m, hm, h.onChild hne (by simp [hplace]) hchild⟩

/-- The caller gets a child from `waitpid`. -/
theorem Family.Inv.reap (h : s.Inv c) {j : Nat} (hp : p < s.kernel.made)
    (hpc : (s.images p).pc = .running) (hidx : (s.images p).mIdx = -1) (hpos : 0 < j)
    (hj : j < s.kernel.made) (hgone : (s.images j).pc = .gone) (hwait : s.kernel.waited j = false) :
    Family.Inv c ⟨(s.on p fun m => m.reap c (s.kernel.pids j)).images, s.kernel.wait j⟩ := by
  have hne : (s.images p).pc ≠ .gone := by simp [hpc]
  obtain rfl : p = 0 := by
    cases p with
    | zero => rfl
    | succ k =>
        rcases (h.child k hp hne).place with ⟨hforked, -⟩ | ⟨-, hk⟩
        · simp [hpc] at hforked
        · omega
  obtain ⟨hcaller, hplace⟩ := (h.caller hne).reap h.kernel hpc hpos hj hwait
  have hcounts : s.kernel.Counts c .running := hpc ▸ h.kernel.counts
  refine ⟨⟨?_, h.kernel.pids_pos, h.kernel.pids_inj, h.kernel.parent, ?_, fun q hq => ?_, ?_⟩,
    fun _ => ?_, fun k hk => ?_, fun q fd => ?_, fun q hq => ?_⟩
  · rw [show ((s.on 0 _).images 0).pc = .running by simp [Family.on, hplace, hpc]]
    exact hcounts
  · simpa [Kernel.wait, Nat.ne_of_lt hpos] using h.kernel.waited_pos
  · by_cases hqj : q = j
    · exact hqj ▸ hj
    · exact h.kernel.waited_lt q (by simpa [Kernel.wait, hqj] using hq)
  · simp [Family.on, hplace, hpc, Pc.inConstructor]
  · simpa only [Family.on, Function.update_self] using hcaller
  · simp only [Family.on, Function.update_of_ne (Nat.succ_ne_zero k)]
    exact fun hk' => (h.child k hk hk').congr (fun _ _ => rfl) fun _ _ => rfl
  · by_cases hq : q = 0
    · simp [hq, Family.on, hplace, hpc]
    · simpa [Family.on, hq] using h.gone q fd
  · by_cases hqj : q = j
    · simpa [Family.on, hqj, Nat.ne_of_gt hpos] using hgone
    · have hq' := h.waited q (by simpa [Kernel.wait, hqj] using hq)
      have hq0 : q ≠ 0 := fun he => hne (he ▸ hq')
      simpa [Family.on, hq0] using hq'

/-- The caller before its first step. -/
theorem Family.inv_start (c : Creation) : (Family.start c).Inv c := by
  have hkernel : (Family.start c).kernel.Inv c (.loop 0) :=
    ⟨⟨Nat.zero_le _, rfl, rfl⟩, fun _ _ => c.pid_pos, fun p hp q hq _ => by
      simp only [Family.start] at hp hq
      omega, fun _ _ => rfl, rfl, fun _ hp => absurd hp (by simp [Family.start]), fun _ _ => rfl⟩
  by_cases hn : 0 < c.processNumber ∧ c.processNumber < maxProcessNumber
  · have himage (p : Nat) : (Family.start c).images p = Image.start c := rfl
    refine ⟨?_, fun _ => ?_, fun k hk => ?_, fun p fd hp => ?_, fun p hp => ?_⟩
    · simpa [himage, Image.start, hn] using hkernel
    · rw [himage, Image.start, if_pos hn]
      refine ⟨rfl, ?_, fun fd k => ?_, fun fd k => ?_, ?_⟩
      · ext1 k
        simp [Kernel.callerArray, Family.start]
      · simp only [Family.start]
        grind
      · simp only [Family.start]
        grind
      · exact ⟨by simp [c.listenfd_opened], by simp, by simp⟩
    · simp [Family.start] at hk
    · simp [himage, Image.start, hn] at hp
    · simp [Family.start] at hp
  · have himage (p : Nat) : (Family.start c).images p = (Image.start c) := rfl
    have hgone : (Image.start c).pc = .gone := by simp [Image.start, hn, Image.die]
    refine ⟨?_, fun h => ?_, fun k hk => ?_, fun p fd _ => ?_, fun p hp => ?_⟩
    · rw [himage, hgone]
      exact hkernel.gone
    · exact absurd hgone h
    · simp [Family.start] at hk
    · simp [himage, Image.start, hn, Image.die]
    · simp [Family.start] at hp

/-- No step of a process goes wrong, and each keeps the invariant. -/
theorem Family.Inv.step (h : s.Inv c) {a : Act} (ha : s.Allowed c a) :
    ∃ s', s.step c a = .ok s' ∧ s'.Inv c := by
  cases a with
  | pair p fds =>
      obtain ⟨hp, hpc, hfree⟩ := ha
      obtain ⟨i, hloop, hi⟩ : ∃ i, (s.images p).pc = .loop i ∧ i < c.processNumber := by
        cases hx : (s.images p).pc <;> simp_all [Pc.atPair]
      refine ⟨s.pair p i fds, by simp [Family.step, hloop, Creation.access_of_lt hi], ?_⟩
      cases fds with
      | none => exact h.die
      | some ab => exact h.pair hp hloop hi (hfree ab rfl)
  | fork p pid =>
      obtain ⟨hp, hpc, hpid⟩ := ha
      obtain ⟨i, hpaired⟩ : ∃ i, (s.images p).pc = .paired i := by
        cases hx : (s.images p).pc <;> simp_all [Pc.atFork]
      have hi := h.lt_of_paired hp hpaired
      refine ⟨s.fork p i pid, by simp [Family.step, hpaired, Creation.access_of_lt hi], ?_⟩
      cases pid with
      | none => exact h.die
      | some pid => exact h.fork hp hpaired (hpid pid rfl).1 (hpid pid rfl).2
  | behind p =>
      obtain ⟨hp, hpc⟩ := ha
      obtain ⟨i, hforked⟩ : ∃ i, (s.images p).pc = .forked i := by
        cases hx : (s.images p).pc <;> simp_all [Pc.atBehind]
      have hi := h.lt_of_forked hp hforked
      exact ⟨_, by simp [Family.step, hforked, Creation.access_of_lt hi], h.behind hp hforked⟩
  | construct p =>
      obtain ⟨hp, hpc⟩ := ha
      obtain ⟨i, hloop, hi⟩ : ∃ i, (s.images p).pc = .loop i ∧ ¬i < c.processNumber := by
        cases hx : (s.images p).pc <;> simp_all [Pc.atEnd]
      exact ⟨_, rfl, h.construct hp hloop hi⟩
  | epollCreate p fd =>
      obtain ⟨hp, hpc, hfree⟩ := ha
      cases fd with
      | none => exact ⟨_, rfl, h.die⟩
      | some fd =>
          have hfd := hfree fd rfl
          exact ⟨_, rfl, h.quiet hp (Image.sameEnds_install hfd) rfl rfl (Or.inl hpc) (Or.inl rfl)
            fun ho => ho.epollCreate hpc hfd⟩
  | sigPair p fds =>
      obtain ⟨hp, hpc, hfree⟩ := ha
      cases fds with
      | none => exact ⟨_, rfl, h.die⟩
      | some ab =>
          obtain ⟨ha, hb, hne⟩ := hfree ab rfl
          have hb' : ((s.images p).install ab.1 .other).fds ab.2 = none := by
            rw [Image.fds_install, if_neg hne.symm, hb]
          have hends := (Image.sameEnds_install ha).trans (Image.sameEnds_install hb')
          exact ⟨_, rfl, h.quiet hp hends rfl rfl (Or.inr hpc) (Or.inr rfl)
            fun ho => ho.sigPair hpc ⟨ha, hb, hne⟩⟩
  | reap p j =>
      obtain ⟨hp, hpc, hidx, hpos, hj, -, hgone, hwait⟩ := ha
      exact ⟨_, rfl, h.reap hp hpc hidx hpos hj hgone hwait⟩
  | leave p =>
      obtain ⟨hp, hpc⟩ := ha
      obtain ⟨m, hm, hinv⟩ := h.leave hp hpc
      exact ⟨_, by simp [Family.step, hm], hinv⟩
  | die p => exact ⟨_, rfl, h.die⟩

/-- In every run. -/
theorem inv_of_run {as : List Act} (h : (machine c).Run as s) : s.Inv c := by
  refine h.invariant (Family.inv_start c) fun s a t hi ha hs => ?_
  obtain ⟨s', hs', hi'⟩ := hi.step ha
  obtain rfl := Except.ok.inj (hs'.symm.trans hs)
  exact hi'

end Steps

/-- Behind the constructor. -/
def Pc.built : Pc → Bool
  | .constructed | .epolled | .running | .left => true
  | _ => false

variable {as : List Act} {s : Family}

/-- Where the caller is past the constructor, all pipes and processes are there. -/
theorem Kernel.Inv.built {t : Kernel} {c : Creation} {pc : Pc} (h : t.Inv c pc)
    (hpc : pc.built = true) : t.paired = c.processNumber ∧ t.made = c.processNumber + 1 := by
  have hcounts := h.counts
  cases pc <;> first | exact hcounts | simp [Pc.built] at hpc

/-- A child behind the constructor knows its place. -/
theorem Child.mIdx_eq {c : Creation} {t : Kernel} {i : Nat} {m : Image} (h : Child c t i m)
    (hpc : m.pc.built = true) : m.mIdx = i ∧ m.pc.inRound = false ∧ m.pc ≠ .gone := by
  rcases h.place with ⟨hforked, -⟩ | ⟨-, hidx⟩
  · simp [hforked, Pc.built] at hpc
  · refine ⟨hidx, ?_, ?_⟩
    · cases hx : m.pc <;> simp_all [Pc.built, Pc.inRound]
    · cases hx : m.pc <;> simp_all [Pc.built]

/-- In every run, whatever fails and whoever dies, only the caller of the constructor forks, and
no more children than were asked for. Behind the constructor all of them were forked, the caller
has `m_idx` -1 and the number and the pipe of each child not waited for yet, and child `k` has
`m_idx` `k`, the numbers of the children before it and none of the others. No `m_sub_process` is
indexed outside its bounds. -/
theorem children_forked (c : Creation) (h : (machine c).Run as s) :
    (∀ a, s.Allowed c a → ∃ t, s.step c a = .ok t) ∧
      s.kernel.made ≤ c.processNumber + 1 ∧ (∀ p < s.kernel.made, s.kernel.parent p = 0) ∧
      ((s.images 0).pc.built = true → s.kernel.made = c.processNumber + 1 ∧
        (s.images 0).mIdx = -1 ∧ ∀ k < c.processNumber, (s.images 0).mSubProcess k =
          ⟨if s.kernel.waited (k + 1) then -1 else s.kernel.pids (k + 1), s.kernel.pairs k⟩) ∧
      ∀ k, k + 1 < s.kernel.made → (s.images (k + 1)).pc.built = true →
        (s.images (k + 1)).mIdx = k ∧ ∀ j < c.processNumber,
          ((s.images (k + 1)).mSubProcess j).mPid =
            if j < k then (s.kernel.pids (j + 1) : Int) else if j = k then 0 else -1 := by
  have hi := inv_of_run h
  have hmade := hi.kernel.made_le
  have hpaired := hi.kernel.paired_le
  refine ⟨fun a ha => ?_, by omega, hi.kernel.parent, fun hpc => ?_, fun k hk hpc => ?_⟩
  · obtain ⟨t, ht, -⟩ := hi.step ha
    exact ⟨t, ht⟩
  · have hne : (s.images 0).pc ≠ .gone := fun he => by simp [he, Pc.built] at hpc
    have hall := (hi.kernel.built hpc).2
    refine ⟨hall, (hi.caller hne).mIdx, fun k hk => ?_⟩
    rw [(hi.caller hne).array, Kernel.callerArray, if_pos (by omega)]
  · have hne : (s.images (k + 1)).pc ≠ .gone := fun he => by simp [he, Pc.built] at hpc
    have hc := hi.child k hk hne
    refine ⟨(hc.mIdx_eq hpc).1, fun j hj => ?_⟩
    rw [hc.array, Kernel.childArray]
    split
    · rfl
    · split
      · rfl
      · exact blank_mPid hj

/-- A pool of two children, for a caller that has opened the descriptors up to 3. -/
def sample : Creation where
  listenfd := 3
  processNumber := 2
  memory := fun _ => ⟨7, (0, 0)⟩
  opened := fun fd => fd ≤ 3
  pid := 100
  listenfd_opened := by decide
  pid_pos := by decide

/-- How it is forked; the first child is ahead of the caller. -/
def sampleActs : List Act :=
  [.pair 0 (some (4, 5)), .fork 0 (some 101), .behind 1, .epollCreate 1 (some 4),
    .sigPair 1 (some (6, 7)), .behind 0, .pair 0 (some (5, 6)), .fork 0 (some 102), .behind 0,
    .behind 2, .construct 0, .epollCreate 0 (some 6), .sigPair 0 (some (7, 8)),
    .epollCreate 2 (some 5), .sigPair 2 (some (7, 8))]

/-- The second child knows the first one, and the caller both. -/
theorem children_forked_two : ∃ s, (machine sample).Run sampleActs s ∧
    s.kernel.pids 1 = 101 ∧ s.kernel.pids 2 = 102 ∧ (s.images 2).mIdx = 1 ∧
      ((s.images 2).mSubProcess 0).mPid = 101 ∧ ((s.images 2).mSubProcess 1).mPid = 0 ∧
      (s.images 0).mSubProcess 1 = ⟨102, (5, 6)⟩ := by
  obtain ⟨s, hrun, hs⟩ := Machine.Run.of_exec_map (M := machine sample)
    (f := fun s => (((s.images 0).pc, (s.images 2).pc), (s.kernel.made, s.kernel.waited 2),
      (s.kernel.pids 1, s.kernel.pids 2), s.kernel.pairs 1))
    (x := ((.running, .running), (3, false), (101, 102), (5, 6))) sampleActs (by decide) (by decide)
  simp only [Prod.mk.injEq] at hs
  obtain ⟨⟨h0, h2⟩, ⟨hmade, hwait⟩, ⟨h101, h102⟩, hpair⟩ := hs
  obtain ⟨-, -, -, hcaller, hchild⟩ := children_forked sample hrun
  obtain ⟨hidx, harray⟩ := hchild 1 (by omega) (by simp [h2, Pc.built])
  refine ⟨s, hrun, h101, h102, hidx, ?_, ?_, ?_⟩
  · simpa [h101] using harray 0 (by decide)
  · simpa using harray 1 (by decide)
  · simpa [hwait, h102, hpair] using (hcaller (by simp [h0, Pc.built])).2.2 1 (by decide)

/-- In every run a child behind the constructor finds its pipe closed exactly if the caller and
all later children are gone, the earlier ones do not matter; and it alone reads from its pipe,
once the caller has closed that end in the round of its `fork`. -/
theorem hangup_iff (c : Creation) (h : (machine c).Run as s) {k : Nat}
    (hk : k + 1 < s.kernel.made) (hpc : (s.images (k + 1)).pc.built = true) :
    ((∀ p < s.kernel.made, ∀ fd, (s.images p).fds fd ≠ some (.pipe0 k)) ↔
      (s.images 0).pc = .gone ∧ ∀ p < s.kernel.made, k + 1 < p → (s.images p).pc = .gone) ∧
    ∀ p < s.kernel.made, ∀ fd, (s.images p).fds fd = some (.pipe1 k) →
      p = k + 1 ∨ p = 0 ∧ (s.images 0).pc.inRound = true ∧ s.kernel.paired = k + 1 := by
  have hi := inv_of_run h
  have hmade := hi.kernel.made_le
  have hne : (s.images (k + 1)).pc ≠ .gone := fun he => by simp [he, Pc.built] at hpc
  have hwait : s.kernel.waited (k + 1) = false := by
    cases hw : s.kernel.waited (k + 1) with
    | false => rfl
    | true => exact absurd (hi.waited _ hw) hne
  have hround := ((hi.child k hk hne).mIdx_eq hpc).2.1
  refine ⟨⟨fun hclosed => ⟨?_, fun p hp hlt => ?_⟩, fun ⟨h0, hlater⟩ p hp fd he => ?_⟩, ?_⟩
  · by_contra h0
    exact hclosed 0 (by omega) _ (((hi.caller h0).ends0 _ k).mpr ⟨rfl, by omega, hwait⟩)
  · by_contra hlive
    obtain ⟨i, rfl⟩ : ∃ i, p = i + 1 := ⟨p - 1, by omega⟩
    exact hclosed (i + 1) hp _ (((hi.child i hp hlive).ends0 _ k).mpr ⟨rfl, Or.inl (by omega)⟩)
  · have hlive : (s.images p).pc ≠ .gone := fun hg => by simp [hi.gone p fd hg] at he
    cases p with
    | zero => exact hlive h0
    | succ i =>
        rcases (((hi.child i hp hlive).ends0 fd k).mp he).2 with hlt | ⟨rfl, hin⟩
        · exact hlive (hlater _ hp (by omega))
        · simp [hround] at hin
  · intro p hp fd he
    have hlive : (s.images p).pc ≠ .gone := fun hg => by simp [hi.gone p fd hg] at he
    cases p with
    | zero =>
        obtain ⟨-, hlast, hin⟩ := ((hi.caller hlive).ends1 fd k).mp he
        exact Or.inr ⟨rfl, hin, hlast.symm⟩
    | succ i =>
        obtain ⟨-, rfl, -⟩ := ((hi.child i hp hlive).ends1 fd k).mp he
        exact Or.inl rfl

/-- The caller is killed: the second child's pipe is closed, the first one's is not. -/
theorem hangup_iff_last : ∃ s, (machine sample).Run (sampleActs ++ [.die 0]) s ∧
    (∀ p < s.kernel.made, ∀ fd, (s.images p).fds fd ≠ some (.pipe0 1)) ∧
      ¬∀ p < s.kernel.made, ∀ fd, (s.images p).fds fd ≠ some (.pipe0 0) := by
  obtain ⟨s, hrun, hs⟩ := Machine.Run.of_exec_map (M := machine sample)
    (f := fun s => ((s.images 0).pc, (s.images 1).pc, (s.images 2).pc, s.kernel.made))
    (x := (.gone, .running, .running, 3)) (sampleActs ++ [.die 0]) (by decide) (by decide)
  simp only [Prod.mk.injEq] at hs
  obtain ⟨h0, h1, h2, hmade⟩ := hs
  have hfirst := (hangup_iff sample hrun (k := 0) (by omega) (by simp [h1, Pc.built])).1
  have hsecond := (hangup_iff sample hrun (k := 1) (by omega) (by simp [h2, Pc.built])).1
  refine ⟨s, hrun, hsecond.mpr ⟨h0, fun p hp hlt => by omega⟩, fun hclosed => ?_⟩
  have hgone := (hfirst.mp hclosed).2 2 (by omega) (by omega)
  simp [h2] at hgone

/-- Unless the assertion on the number of processes holds, nothing happens. -/
theorem admitted_of_run (c : Creation) (h : (machine c).Run as s) (hne : (s.images 0).pc ≠ .gone) :
    0 < c.processNumber ∧ c.processNumber < maxProcessNumber := by
  have hstuck : (0 < c.processNumber ∧ c.processNumber < maxProcessNumber) ∨ s = .start c := by
    refine h.invariant (I := fun s => _ ∨ s = Family.start c) (Or.inr rfl) fun s a t hi ha _ => ?_
    refine Or.inl (hi.elim id ?_)
    rintro rfl
    by_contra hn
    have hgone (p : Nat) : ((Family.start c).images p).pc = .gone := by
      simp [Family.start, Image.start, hn, Image.die]
    cases a <;> simp only [machine, Family.Allowed, hgone] at ha <;>
      simp [Pc.atPair, Pc.atFork, Pc.atBehind, Pc.atEnd] at ha
  rcases hstuck with hn | rfl
  · exact hn
  · by_contra hn
    exact hne (by simp [Family.start, Image.start, hn, Image.die])

/-- What the constructor leaves behind is what the pool goes on with: when the caller comes to its
loop, its array, its descriptors and the numbers of its children are those of a `Setup`, and the
other end of the descriptor of child `k` is that child's pipe. -/
theorem setup_of_run (c : Creation) (h : (machine c).Run as s)
    (hpc : (s.images 0).pc = .running) (hwait : ∀ p, s.kernel.waited p = false) :
    ∃ d : Setup, d.mListenfd = c.listenfd ∧ d.mProcessNumber = c.processNumber ∧
      d.mEpollfd = (s.images 0).mEpollfd ∧ d.sigfd = (s.images 0).sigPipefd.1 ∧
      (Parent.start d).mSubProcess = (s.images 0).mSubProcess ∧
      (∀ k < c.processNumber, (d.forks k).pid = s.kernel.pids (k + 1)) ∧
      ∀ fd k, (s.images 0).fds fd = some (.pipe0 k) ↔
        k < c.processNumber ∧ (d.forks k).pipefd.1 = fd := by
  have hi := inv_of_run h
  have hcaller := hi.caller (by simp [hpc])
  obtain ⟨hpaired, hmade⟩ := hi.kernel.built (by simp [hpc, Pc.built])
  have hends (fd k : Nat) : (s.images 0).fds fd = some (.pipe0 k) ↔
      k < c.processNumber ∧ (s.kernel.pairs k).1 = fd := by
    rw [hcaller.ends0, hpaired, eq_comm]
    simp [hwait, and_comm]
  have hopen {k : Nat} (hk : k < c.processNumber) :
      (s.images 0).fds (s.kernel.pairs k).1 = some (.pipe0 k) := (hends _ _).mpr ⟨hk, rfl⟩
  have hne {k fd : Nat} (hk : k < c.processNumber) (hfd : (s.images 0).fds fd = some .other) :
      (s.kernel.pairs k).1 ≠ fd := fun he => by simp [← he, hopen hk] at hfd
  have hlisten := hcaller.others.listen (by simp [hpc])
  obtain ⟨hsig, hsigne⟩ := hcaller.others.sig hpc
  refine ⟨{
    mListenfd := c.listenfd
    mEpollfd := (s.images 0).mEpollfd
    sigfd := (s.images 0).sigPipefd.1
    mProcessNumber := c.processNumber
    forks := fun k => ⟨s.kernel.pids (k + 1), s.kernel.pairs k⟩
    behind := c.memory
    admitted := admitted_of_run c h (by simp [hpc])
    pid_pos := fun k hk => hi.kernel.pids_pos (k + 1) (by omega)
    pid_inj := fun j k hj hk he =>
      Nat.succ.inj (hi.kernel.pids_inj (j + 1) (by omega) (k + 1) (by omega) he)
    pipe_inj := fun j k hj hk he => by
      have hj' := hopen hj
      rw [he, hopen hk] at hj'
      exact (File.pipe0.inj (Option.some.inj hj')).symm
    pipe_ne := fun k hk =>
      ⟨hne hk hlisten, hne hk (hcaller.others.epoll (Or.inr hpc)), hne hk hsig⟩
    listen_ne := hsigne.symm }, rfl, rfl, rfl, rfl, ?_, fun _ _ => rfl, hends⟩
  rw [start_eq, hcaller.array]
  ext1 k
  simp only [Kernel.callerArray, Parent.blank, Creation.blank, hwait, hmade, hpaired]
  grind

/-- The two children's. -/
theorem setup_of_run_two : ∃ s, (machine sample).Run sampleActs s ∧ ∃ d : Setup,
    d.mProcessNumber = 2 ∧ (d.forks 1).pid = 102 ∧
      (Parent.start d).mSubProcess = (s.images 0).mSubProcess := by
  obtain ⟨s, hrun, hs⟩ := Machine.Run.of_exec_map (M := machine sample)
    (f := fun s => ((s.images 0).pc, (s.kernel.waited 1, s.kernel.waited 2), s.kernel.pids 2,
      s.kernel.made)) (x := (.running, (false, false), 102, 3)) sampleActs (by decide) (by decide)
  simp only [Prod.mk.injEq] at hs
  obtain ⟨h0, ⟨h1, h2⟩, hpid, hmade⟩ := hs
  have hi := inv_of_run hrun
  have hwait (p : Nat) : s.kernel.waited p = false := by
    cases hw : s.kernel.waited p with
    | false => rfl
    | true =>
        have hlt := hi.kernel.waited_lt p hw
        have hpos : p ≠ 0 := fun he => by simp [he, hi.kernel.waited_pos] at hw
        obtain rfl | rfl : p = 1 ∨ p = 2 := by omega
        · exact hw.symm.trans h1
        · exact hw.symm.trans h2
  obtain ⟨d, -, hn, -, -, harray, hpids, -⟩ := setup_of_run sample hrun h0 hwait
  exact ⟨s, hrun, d, hn, (hpids 1 (by decide)).trans hpid, harray⟩

end Forking

end Pool

end LinuxWebsocket
