import LinuxWebsocket.Pool.Forking

/-!
# What each process of the pool holds

What the caller of the constructor and its children have in their arrays and open as their
descriptors is a function of where they are and of what the kernel handed out. Each call
keeps it that way.
-/

namespace LinuxWebsocket

namespace Pool

namespace Forking

variable (c : Creation)

/-- What the caller's array holds: an entry for each child, and perhaps that of a pipe whose
`fork` is still to come. -/
def Kernel.callerArray (t : Kernel) (k : Nat) : Process :=
  if k + 1 < t.made then ⟨if t.waited (k + 1) then -1 else t.pids (k + 1), t.pairs k⟩
  else if k < t.paired then ⟨-1, t.pairs k⟩
  else c.blank k

/-- What the array of child `i` holds: an entry for each earlier child and its own. -/
def Kernel.childArray (t : Kernel) (i k : Nat) : Process :=
  if k < i then ⟨t.pids (k + 1), t.pairs k⟩
  else if k = i then ⟨0, t.pairs k⟩
  else c.blank k

/-- In a round of the constructor's loop. -/
def Pc.inRound : Pc → Bool
  | .paired _ | .forked _ => true
  | _ => false

/-- In the constructor. -/
def Pc.inConstructor : Pc → Bool
  | .loop _ | .paired _ | .forked _ => true
  | _ => false

/-- How many processes and pipes there are when the caller is somewhere. -/
def Kernel.Counts (t : Kernel) : Pc → Prop
  | .loop i => i ≤ c.processNumber ∧ t.paired = i ∧ t.made = i + 1
  | .paired i => i < c.processNumber ∧ t.paired = i + 1 ∧ t.made = i + 1
  | .forked i => i < c.processNumber ∧ t.paired = i + 1 ∧ t.made = i + 2
  | .gone => t.paired ≤ c.processNumber ∧ t.paired ≤ t.made ∧ t.made ≤ t.paired + 1
  | _ => t.paired = c.processNumber ∧ t.made = c.processNumber + 1

/-- The descriptors of a process that have nothing to do with the pipes. -/
structure Image.Others (m : Image) : Prop where
  listen : m.pc ≠ .left → m.fds c.listenfd = some .other
  epoll : m.pc = .epolled ∨ m.pc = .running → m.fds m.mEpollfd = some .other
  sig : m.pc = .running → m.fds m.sigPipefd.1 = some .other ∧ m.sigPipefd.1 ≠ c.listenfd

/-- The caller. -/
structure Caller (t : Kernel) (m : Image) : Prop where
  mIdx : m.mIdx = -1
  array : m.mSubProcess = t.callerArray c
  ends0 : ∀ fd k, m.fds fd = some (.pipe0 k) ↔
    fd = (t.pairs k).1 ∧ k < t.paired ∧ t.waited (k + 1) = false
  ends1 : ∀ fd k, m.fds fd = some (.pipe1 k) ↔
    fd = (t.pairs k).2 ∧ k + 1 = t.paired ∧ m.pc.inRound = true
  others : m.Others c

/-- Child `i`. -/
structure Child (t : Kernel) (i : Nat) (m : Image) : Prop where
  place : m.pc = .forked i ∧ m.mIdx = -1 ∨ m.pc.inConstructor = false ∧ m.mIdx = i
  array : m.mSubProcess = t.childArray c i
  ends0 : ∀ fd k, m.fds fd = some (.pipe0 k) ↔
    fd = (t.pairs k).1 ∧ (k < i ∨ k = i ∧ m.pc.inRound = true)
  ends1 : ∀ fd k, m.fds fd = some (.pipe1 k) ↔ fd = (t.pairs k).2 ∧ k = i ∧ m.pc ≠ .left
  others : m.Others c

/-- What holds of the kernel's numbers when the caller is somewhere. -/
structure Kernel.Inv (t : Kernel) (pc : Pc) : Prop where
  counts : t.Counts c pc
  pids_pos : ∀ p < t.made, 0 < t.pids p
  pids_inj : ∀ p < t.made, ∀ q < t.made, t.pids p = t.pids q → p = q
  parent : ∀ p < t.made, t.parent p = 0
  waited_pos : t.waited 0 = false
  waited_lt : ∀ p, t.waited p = true → p < t.made
  /-- Nobody is waited for in the constructor. -/
  waited : pc.inConstructor = true → ∀ p, t.waited p = false

section Steps

variable {c : Creation} {t : Kernel} {m : Image} {s : Family} {i p : Nat}

/-- There is a pipe for each child. -/
theorem Kernel.Inv.made_le {pc : Pc} (h : t.Inv c pc) : t.made ≤ t.paired + 1 := by
  have := h.counts
  cases pc <;> simp only [Kernel.Counts] at this <;> omega

/-- There are no more pipes than children are wanted. -/
theorem Kernel.Inv.paired_le {pc : Pc} (h : t.Inv c pc) : t.paired ≤ c.processNumber := by
  have := h.counts
  cases pc <;> simp only [Kernel.Counts] at this <;> omega

/-- A new descriptor shows up in its place only. -/
theorem Image.fds_install (fd fd' : Nat) (f : File) :
    (m.install fd f).fds fd' = if fd' = fd then some f else m.fds fd' := by
  simp [Image.install, Function.update_apply]

/-- A descriptor that is closed vanishes, and no other. -/
theorem Image.fds_close (fd fd' : Nat) :
    (m.close fd).fds fd' = if fd' = fd then none else m.fds fd' := by
  simp [Image.close, Function.update_apply]

/-- The same pipes are open as the same descriptors. -/
def Image.SameEnds (m m' : Image) : Prop :=
  ∀ fd f, f ≠ .other → (m'.fds fd = some f ↔ m.fds fd = some f)

/-- A new descriptor that is not one of a pipe. -/
theorem Image.sameEnds_install {fd : Nat} (h : m.fds fd = none) :
    m.SameEnds (m.install fd .other) := by
  intro fd' f hf
  rw [fds_install]
  split
  · next he => simp [he, h, Ne.symm hf]
  · rfl

/-- Two changes one after the other. -/
theorem Image.SameEnds.trans {m₁ m₂ m₃ : Image} (h : m₁.SameEnds m₂) (h' : m₂.SameEnds m₃) :
    m₁.SameEnds m₃ := fun fd f hf => (h' fd f hf).trans (h fd f hf)

private theorem Image.SameEnds.pipe0 {m' : Image} (h : m.SameEnds m') (fd k : Nat) :
    m'.fds fd = some (.pipe0 k) ↔ m.fds fd = some (.pipe0 k) := h fd _ (by simp)

private theorem Image.SameEnds.pipe1 {m' : Image} (h : m.SameEnds m') (fd k : Nat) :
    m'.fds fd = some (.pipe1 k) ↔ m.fds fd = some (.pipe1 k) := h fd _ (by simp)

/-- The caller does something that does not concern the pipes. -/
theorem Caller.quiet {m' : Image} (h : Caller c t m) (hends : m.SameEnds m')
    (hidx : m'.mIdx = m.mIdx) (harray : m'.mSubProcess = m.mSubProcess)
    (hround : m'.pc.inRound = m.pc.inRound) (ho : m'.Others c) : Caller c t m' where
  mIdx := hidx.trans h.mIdx
  array := harray.trans h.array
  ends0 fd k := (hends.pipe0 fd k).trans (h.ends0 fd k)
  ends1 fd k := by rw [hends.pipe1, hround, h.ends1]
  others := ho

/-- A child behind the constructor does something that does not concern the pipes. -/
theorem Child.quiet {m' : Image} (h : Child c t i m) (hends : m.SameEnds m')
    (hidx : m'.mIdx = m.mIdx) (harray : m'.mSubProcess = m.mSubProcess)
    (hpc : m.pc.inConstructor = false) (hpc' : m'.pc.inConstructor = false)
    (hleft : m.pc ≠ .left) (hleft' : m'.pc ≠ .left) (ho : m'.Others c) : Child c t i m' where
  place := by
    refine Or.inr ⟨hpc', ?_⟩
    rcases h.place with ⟨hforked, -⟩ | ⟨-, hi⟩
    · simp [hforked, Pc.inConstructor] at hpc
    · rw [hidx, hi]
  array := harray.trans h.array
  ends0 fd k := by
    have hround {pc : Pc} (hp : pc.inConstructor = false) : pc.inRound = false := by
      cases pc <;> simp_all [Pc.inConstructor, Pc.inRound]
    rw [hends.pipe0, h.ends0, hround hpc, hround hpc']
  ends1 fd k := by simp [hends.pipe1, h.ends1, hleft, hleft']
  others := ho

/-- Behind `epoll_create`. -/
theorem Image.Others.epollCreate {fd : Nat} (h : m.Others c) (hpc : m.pc = .constructed)
    (hfd : m.fds fd = none) : (m.epollCreate fd).Others c where
  listen _ := by
    have hl := h.listen (by simp [hpc])
    have hne : c.listenfd ≠ fd := fun he => by simp [he, hfd] at hl
    simpa [Image.epollCreate, fds_install, hne] using hl
  epoll _ := by simp [Image.epollCreate, fds_install]
  sig hr := by simp [Image.epollCreate] at hr

/-- Behind `socketpair` in `setup_sig_pipe`. -/
theorem Image.Others.sigPair {ab : Nat × Nat} (h : m.Others c) (hpc : m.pc = .epolled)
    (hab : m.Free ab) : (m.sigPair ab).Others c where
  listen _ := by
    have hl := h.listen (by simp [hpc])
    simp only [Image.sigPair, fds_install]
    split
    · rfl
    · split
      · rfl
      · exact hl
  epoll _ := by
    have he := h.epoll (Or.inl hpc)
    simp only [Image.sigPair, fds_install]
    split
    · rfl
    · split
      · rfl
      · exact he
  sig _ := by
    have hl := h.listen (by simp [hpc])
    refine ⟨by simp [Image.sigPair, fds_install], fun he => ?_⟩
    have hne : m.fds c.listenfd = none := by simpa [Image.sigPair, ← he] using hab.1
    simp [hl] at hne

/-- `process()` -/
theorem blank_mPid (hi : i < c.processNumber) : (c.blank i).mPid = -1 := by
  simp [Creation.blank, hi]

/-- Another pipe is made. -/
theorem Caller.pair (h : Caller c t m) (hk : t.Inv c m.pc) (hpc : m.pc = .loop i)
    (hi : i < c.processNumber) {ab : Nat × Nat} (hab : m.Free ab) :
    Caller c (t.pair ab) (m.pair i t.paired ab) := by
  obtain ⟨-, hpaired, hmade⟩ : t.Counts c (.loop i) := hpc ▸ hk.counts
  have hwait := hk.waited (by simp [hpc, Pc.inConstructor])
  obtain ⟨ha, hb, hne⟩ := hab
  refine ⟨h.mIdx, ?_, ?_, ?_, ?_⟩
  · ext1 k
    simp only [Image.pair, Image.install, Function.update_apply, h.array, Kernel.callerArray,
      Kernel.pair]
    by_cases hk : k = i
    · simp [hk, hpaired, hmade, blank_mPid hi]
    · grind
  · intro fd k
    simp only [Image.pair, Image.fds_install, Kernel.pair, Function.update_apply]
    have h0 := h.ends0 fd k
    grind
  · intro fd k
    simp only [Image.pair, Image.fds_install, Kernel.pair, Function.update_apply, Pc.inRound]
    have h1 := h.ends1 fd k
    simp only [hpc, Pc.inRound] at h1
    grind
  · constructor
    · intro _
      have hl := h.others.listen (by simp [hpc])
      simp only [Image.pair, Image.fds_install]
      grind
    · simp [Image.pair]
    · simp [Image.pair]

/-- A process is forked: the caller's part. -/
theorem Caller.fork (h : Caller c t m) (hk : t.Inv c m.pc) (hpc : m.pc = .paired i) (pid : Nat) :
    Caller c (t.fork 0 pid) (m.fork i pid) := by
  obtain ⟨-, hpaired, hmade⟩ : t.Counts c (.paired i) := hpc ▸ hk.counts
  have hwait := hk.waited (by simp [hpc, Pc.inConstructor])
  refine ⟨h.mIdx, ?_, h.ends0, ?_, ?_⟩
  · ext1 k
    simp only [Image.fork, Function.update_apply, h.array, Kernel.callerArray, Kernel.fork, hwait]
    grind
  · intro fd k
    exact (h.ends1 fd k).trans (by simp [Image.fork, Kernel.fork, hpc, Pc.inRound])
  · exact ⟨fun _ => h.others.listen (by simp [hpc]), by simp [Image.fork], by simp [Image.fork]⟩

/-- A process is forked: the child's part. -/
theorem Child.fork (h : Caller c t m) (hk : t.Inv c m.pc) (hpc : m.pc = .paired i) (pid : Nat) :
    Child c (t.fork 0 pid) i (m.fork i 0) := by
  obtain ⟨-, hpaired, hmade⟩ : t.Counts c (.paired i) := hpc ▸ hk.counts
  have hwait := hk.waited (by simp [hpc, Pc.inConstructor])
  refine ⟨Or.inl ⟨rfl, h.mIdx⟩, ?_, ?_, ?_, ?_⟩
  · ext1 k
    simp only [Image.fork, Function.update_apply, h.array, Kernel.callerArray, Kernel.childArray,
      Kernel.fork, hwait]
    grind
  · intro fd k
    refine (h.ends0 fd k).trans (and_congr_right fun _ => ?_)
    simp [Image.fork, Pc.inRound, hwait, hpaired]
    omega
  · intro fd k
    refine (h.ends1 fd k).trans (and_congr_right fun _ => ?_)
    simp [Image.fork, hpc, Pc.inRound, hpaired]
  · exact ⟨fun _ => h.others.listen (by simp [hpc]), by simp [Image.fork], by simp [Image.fork]⟩

/-- A process goes on in the constructor or leaves it, `listenfd` being open as before. -/
theorem Image.Others.close {fd : Nat} {pc : Pc} {idx : Int} (h : m.Others c) (hpc : m.pc ≠ .left)
    (hfd : m.fds fd ≠ some .other) (hne : pc ≠ .epolled ∧ pc ≠ .running) :
    ({ m.close fd with mIdx := idx, pc := pc } : Image).Others c where
  listen _ := by
    have hl := h.listen hpc
    have hx : c.listenfd ≠ fd := fun he => hfd (he ▸ hl)
    simpa [fds_close, hx] using hl
  epoll hr := by simp [hne] at hr
  sig hr := absurd hr hne.2

/-- The caller goes on to the next round. -/
theorem Caller.behind (h : Caller c t m) (hk : t.Inv c m.pc) (hpc : m.pc = .forked i) :
    Caller c t (m.behind i) ∧ (m.behind i).pc = .loop (i + 1) := by
  obtain ⟨-, hpaired, hmade⟩ : t.Counts c (.forked i) := hpc ▸ hk.counts
  have hwait := hk.waited (by simp [hpc, Pc.inConstructor])
  have hentry : m.mSubProcess i = ⟨t.pids (i + 1), t.pairs i⟩ := by
    simp [h.array, Kernel.callerArray, hmade, hwait]
  have hpos : 0 < t.pids (i + 1) := hk.pids_pos (i + 1) (by omega)
  have hopen : m.fds (t.pairs i).2 = some (.pipe1 i) :=
    (h.ends1 _ i).mpr ⟨rfl, hpaired.symm, by simp [hpc, Pc.inRound]⟩
  rw [Image.behind, if_pos (by simpa [hentry] using hpos), hentry]
  refine ⟨⟨h.mIdx, h.array, fun fd k => ?_, fun fd k => ?_, ?_⟩, rfl⟩
  · have h0 := h.ends0 fd k
    simp only [Image.fds_close]
    grind
  · have h1 := h.ends1 fd k
    simp only [Image.fds_close, Pc.inRound]
    grind
  · exact h.others.close (by simp [hpc]) (by simp [hopen]) (by simp)

/-- A child leaves the constructor. -/
theorem Child.behind (h : Child c t i m) (hpc : m.pc = .forked i) :
    Child c t i (m.behind i) ∧ (m.behind i).pc = .constructed := by
  have hentry : m.mSubProcess i = ⟨0, t.pairs i⟩ := by simp [h.array, Kernel.childArray]
  have hopen : m.fds (t.pairs i).1 = some (.pipe0 i) :=
    (h.ends0 _ i).mpr ⟨rfl, Or.inr ⟨rfl, by simp [hpc, Pc.inRound]⟩⟩
  rw [Image.behind, if_neg (by simp [hentry]), hentry]
  refine ⟨⟨Or.inr ⟨rfl, rfl⟩, h.array, fun fd k => ?_, fun fd k => ?_, ?_⟩, rfl⟩
  · have h0 := h.ends0 fd k
    simp only [Image.fds_close, Pc.inRound]
    grind
  · have h1 := h.ends1 fd k
    simp only [Image.fds_close]
    grind
  · exact h.others.close (by simp [hpc]) (by simp [hopen]) (by simp)

/-- The caller is behind `run`. -/
theorem Caller.leave (h : Caller c t m) (hpc : m.pc = .running) :
    ∃ m', m.leave c = .ok m' ∧ Caller c t m' ∧ m'.pc = .left := by
  have hlisten := h.others.listen (by simp [hpc])
  have hepoll := h.others.epoll (Or.inr hpc)
  refine ⟨_, by rw [Image.leave, if_pos h.mIdx], ?_, rfl⟩
  refine h.quiet (fun fd f hf => ?_) rfl rfl (by simp [hpc, Pc.inRound])
    ⟨by simp, by simp, by simp⟩
  simp only [Image.fds_close]
  grind

/-- A child is behind `run`. -/
theorem Child.leave (h : Child c t i m) (hi : i < c.processNumber) (hpc : m.pc = .running) :
    ∃ m', m.leave c = .ok m' ∧ Child c t i m' ∧ m'.pc = .left := by
  have hidx : m.mIdx = i := by
    rcases h.place with ⟨hforked, -⟩ | ⟨-, hidx⟩
    · simp [hpc] at hforked
    · exact hidx
  have hentry : m.mSubProcess m.mIdx.toNat = ⟨0, t.pairs i⟩ := by
    simp [hidx, h.array, Kernel.childArray]
  have hopen : m.fds (t.pairs i).2 = some (.pipe1 i) := (h.ends1 _ i).mpr ⟨rfl, rfl, by simp [hpc]⟩
  have hepoll := h.others.epoll (Or.inr hpc)
  refine ⟨_, by rw [Image.leave, if_neg (by omega), if_pos (by omega), hentry], ?_, rfl⟩
  refine ⟨Or.inr ⟨rfl, hidx⟩, h.array, fun fd k => ?_, fun fd k => ?_,
    ⟨by simp, by simp, by simp⟩⟩
  · have h0 := h.ends0 fd k
    simp only [hpc, Pc.inRound] at h0
    simp only [Image.fds_close, Pc.inRound]
    grind
  · have h1 := h.ends1 fd k
    simp only [Image.fds_close]
    grind

/-- If one entry has the number that `waitpid` returned, the loop changes that entry. -/
theorem Image.reap_eq {k : Nat} {pid : Nat} (hk : k < c.processNumber)
    (hu : ∀ j < c.processNumber, (m.mSubProcess j).mPid = pid ↔ j = k) :
    m.reap c pid = { m.close (m.mSubProcess k).mPipefd.1 with
      mSubProcess := Function.update m.mSubProcess k ⟨-1, (m.mSubProcess k).mPipefd⟩ } := by
  have hjoin : Image.join pid m k = { m.close (m.mSubProcess k).mPipefd.1 with
      mSubProcess := Function.update m.mSubProcess k ⟨-1, (m.mSubProcess k).mPipefd⟩ } := by
    rw [Image.join, if_pos ((hu k hk).mpr rfl)]
  have hfold : ∀ n ≤ c.processNumber, (List.range n).foldl (Image.join pid) m =
      if k < n then Image.join pid m k else m := by
    intro n hn
    induction n with
    | zero => simp
    | succ n ih =>
        rw [List.range_succ, List.foldl_append, ih (by omega)]
        simp only [List.foldl_cons, List.foldl_nil]
        rcases Nat.lt_trichotomy k n with hlt | rfl | hgt
        · have hne : (m.mSubProcess n).mPid ≠ pid := fun he => by
            have := (hu n (by omega)).mp he
            omega
          rw [if_pos hlt, if_pos (by omega), hjoin, Image.join, if_neg]
          simpa [Function.update_apply, Nat.ne_of_gt hlt] using hne
        · rw [if_neg (by omega), if_pos (by omega)]
        · have hne : (m.mSubProcess n).mPid ≠ pid := fun he => by
            have := (hu n (by omega)).mp he
            omega
          rw [if_neg (by omega), if_neg (by omega), Image.join, if_neg hne]
  exact (hfold _ (Nat.le_refl _)).trans ((if_pos hk).trans hjoin)

/-- The caller gets a child from `waitpid`. -/
theorem Caller.reap (h : Caller c t m) (hk : t.Inv c m.pc) (hpc : m.pc = .running) {j : Nat}
    (hpos : 0 < j) (hj : j < t.made) (hwait : t.waited j = false) :
    Caller c (t.wait j) (m.reap c (t.pids j)) ∧ (m.reap c (t.pids j)).pc = m.pc := by
  obtain ⟨k, rfl⟩ : ∃ k, j = k + 1 := ⟨j - 1, by omega⟩
  obtain ⟨hpaired, hmade⟩ : t.Counts c .running := hpc ▸ hk.counts
  have hk' : k < c.processNumber := by omega
  have hentry {i : Nat} (hi : i < c.processNumber) :
      m.mSubProcess i = ⟨if t.waited (i + 1) then -1 else t.pids (i + 1), t.pairs i⟩ := by
    rw [h.array, Kernel.callerArray, if_pos (by omega)]
  have hu : ∀ i < c.processNumber, (m.mSubProcess i).mPid = t.pids (k + 1) ↔ i = k := by
    intro i hi
    have hpid := hk.pids_pos (k + 1) hj
    rw [hentry hi]
    constructor
    · intro he
      by_cases hw : t.waited (i + 1) = true
      · simp only [hw, if_true] at he
        omega
      · have := hk.pids_inj (i + 1) (by omega) (k + 1) hj
          (Int.ofNat_inj.mp (by simpa [hw] using he))
        omega
    · rintro rfl
      simp [hwait]
  have hopen : m.fds (t.pairs k).1 = some (.pipe0 k) :=
    (h.ends0 _ k).mpr ⟨rfl, by omega, hwait⟩
  rw [Image.reap_eq hk' hu, hentry hk']
  refine ⟨⟨h.mIdx, ?_, fun fd i => ?_, fun fd i => ?_, ?_⟩, rfl⟩
  · ext1 i
    simp only [Function.update_apply, h.array, Kernel.callerArray, Kernel.wait]
    grind
  · have h0 := h.ends0 fd i
    simp only [Image.fds_close, Kernel.wait, Function.update_apply]
    grind
  · have h1 := h.ends1 fd i
    simp only [hpc, Pc.inRound] at h1
    simp only [Kernel.wait, Image.close, hpc, Pc.inRound]
    grind
  · have hkeep {fd : Nat} (hfd : m.fds fd = some .other) :
        (m.close (t.pairs k).1).fds fd = some .other := by
      rw [Image.fds_close, if_neg (fun he => by simp [he, hopen] at hfd)]
      exact hfd
    exact ⟨fun hl => hkeep (h.others.listen hl), fun he => hkeep (h.others.epoll he),
      fun hr => ⟨hkeep (h.others.sig hr).1, (h.others.sig hr).2⟩⟩

/-- A child does not notice what the others do. -/
theorem Child.congr {t' : Kernel} (h : Child c t i m)
    (hpids : ∀ k < i, t'.pids (k + 1) = t.pids (k + 1))
    (hpairs : ∀ k ≤ i, t'.pairs k = t.pairs k) : Child c t' i m where
  place := h.place
  array := by
    ext1 k
    rw [h.array]
    simp only [Kernel.childArray]
    grind
  ends0 fd k := by
    have h0 := h.ends0 fd k
    grind
  ends1 fd k := by
    have h1 := h.ends1 fd k
    grind
  others := h.others

end Steps

end Forking

end Pool

end LinuxWebsocket
