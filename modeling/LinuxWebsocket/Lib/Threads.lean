import LinuxWebsocket.Lib.Permits

/-!
# Threads that take and give permits

Each thread runs its own code over a common memory. At each place of the code it is known what a
thread holds there; a thread that is killed leaves nothing behind. No thread gives back what it
does not hold, two threads are never both where only one can be, and where whoever is waited for
comes later in some order than whoever waits, no state is stuck before all threads have ended.
-/

namespace Threads

/-- What a thread does next, and where it is then. -/
inductive Instr (θ ρ σ χ : Type*)
  | take (r : ρ) (next : χ)
  | give (r : ρ) (next : χ)
  | act (f : σ → σ) (next : χ)
  /-- Waits until a thread has ended. -/
  | join (t : θ) (next : χ)
  /-- The thread ends. -/
  | exit

/-- Where the thread is behind it. -/
def Instr.next {θ ρ σ χ : Type*} : Instr θ ρ σ χ → Option χ
  | .take _ k | .give _ k | .act _ k | .join _ k => some k
  | .exit => none

/-- What it does to the memory. -/
def Instr.effect {θ ρ σ χ : Type*} : Instr θ ρ σ χ → σ → σ
  | .act f _ => f
  | _ => id

/-- The threads, their permits and their memory. -/
structure State (θ ρ σ χ : Type*) [Fintype θ] (cap : ρ → Nat) where
  /-- Where each thread is, unless it has ended. -/
  pc : θ → Option χ
  permits : Permits θ ρ cap
  mem : σ

/-- What happens next. -/
inductive Event (θ : Type*)
  | run (t : θ)
  /-- A thread ends where it is, and what it holds is given back for it. -/
  | kill (t : θ)
  deriving DecidableEq

/-- No thread is killed. -/
def Event.isRun {θ : Type*} : Event θ → Bool
  | .run _ => true
  | .kill _ => false

/-- A thread gives back what it does not hold. -/
inductive Fault
  | unheld
  deriving DecidableEq, Repr

variable {θ ρ σ χ : Type*} [Fintype θ] {cap : ρ → Nat}

/-- A thread goes on to a place in its code. -/
def State.goto [DecidableEq θ] (s : State θ ρ σ χ cap) (t : θ) (c : Option χ) :
    State θ ρ σ χ cap :=
  { s with pc := Function.update s.pc t c }

@[simp] theorem permits_goto [DecidableEq θ] (s : State θ ρ σ χ cap) (t : θ) (c : Option χ) :
    (s.goto t c).permits = s.permits := rfl

/-- A thread can go on. -/
def State.Ready (code : θ → χ → Instr θ ρ σ χ) (s : State θ ρ σ χ cap) (t : θ) : Prop :=
  match s.pc t with
  | none => False
  | some c => match code t c with
    | .take r _ => 0 < s.permits.free r
    | .join u _ => s.pc u = none
    | _ => True

/-- What can happen next. -/
def State.Allowed (code : θ → χ → Instr θ ρ σ χ) (s : State θ ρ σ χ cap) : Event θ → Prop
  | .run t => s.Ready code t
  | .kill t => s.pc t ≠ none

/-- The code, and what a thread holds at each place of it. -/
structure Program (θ ρ σ χ : Type*) [DecidableEq ρ] where
  code : θ → χ → Instr θ ρ σ χ
  holds : θ → χ → ρ → Nat
  take {t c r k} : code t c = .take r k → ∀ q, holds t k q = holds t c q + if q = r then 1 else 0
  give {t c r k} : code t c = .give r k →
    0 < holds t c r ∧ ∀ q, holds t k q = holds t c q - if q = r then 1 else 0
  act {t c f k} : code t c = .act f k → ∀ q, holds t k q = holds t c q
  join {t c u k} : code t c = .join u k → ∀ q, holds t k q = holds t c q
  exit {t c} : code t c = .exit → ∀ q, holds t c q = 0

instance (code : θ → χ → Instr θ ρ σ χ) (s : State θ ρ σ χ cap) (t : θ) [DecidableEq χ] :
    Decidable (s.Ready code t) := by
  unfold State.Ready
  split
  · infer_instance
  · split <;> infer_instance

instance (code : θ → χ → Instr θ ρ σ χ) (s : State θ ρ σ χ cap) [DecidableEq χ] :
    ∀ e, Decidable (s.Allowed code e)
  | .run t => inferInstanceAs (Decidable (s.Ready code t))
  | .kill t => inferInstanceAs (Decidable (s.pc t ≠ none))

variable [DecidableEq ρ]

/-- Each thread holds what it should where it is. -/
def State.Holds (P : Program θ ρ σ χ) (s : State θ ρ σ χ cap) : Prop :=
  ∀ t q, s.permits.held t q = (s.pc t).elim 0 fun c => P.holds t c q

section Holds

variable {P : Program θ ρ σ χ} {s : State θ ρ σ χ cap} {t t' : θ} {c d : χ} {r : ρ}

/-- What a thread holds at its place. -/
theorem State.Holds.held (h : s.Holds P) (hc : s.pc t = some c) (q : ρ) :
    s.permits.held t q = P.holds t c q := by
  rw [h t q, hc, Option.elim_some]

/-- Two threads are not both where the only permit is held. -/
theorem State.Holds.exclusive (h : s.Holds P) (hcap : cap r = 1) (ht : s.pc t = some c)
    (ht' : s.pc t' = some d) (hc : 0 < P.holds t c r) (hd : 0 < P.holds t' d r) : t = t' := by
  rw [← h.held ht] at hc
  rw [← h.held ht'] at hd
  exact Permits.exclusive hcap hc hd

/-- Whoever cannot go on waits for a thread that holds the permit, or has still to end. -/
theorem State.Holds.blocked (h : s.Holds P) (hcap : ∀ r, 0 < cap r) (ht : s.pc t = some c)
    (hb : ¬s.Ready P.code t) :
    (∃ r k v d, P.code t c = .take r k ∧ s.pc v = some d ∧ 0 < P.holds v d r) ∨
      ∃ v k d, P.code t c = .join v k ∧ s.pc v = some d := by
  cases hcode : P.code t c with
  | take r k =>
      left
      have hfree : s.permits.free r = 0 := by
        simpa [State.Ready, ht, hcode] using hb
      obtain ⟨v, hv⟩ := Permits.exists_holder (hcap r) hfree
      cases hpc : s.pc v with
      | none => simp [h v r, hpc] at hv
      | some d => exact ⟨r, k, v, d, rfl, hpc, h.held hpc r ▸ hv⟩
  | join v k =>
      right
      cases hpc : s.pc v with
      | none => simp [State.Ready, ht, hcode, hpc] at hb
      | some d => exact ⟨v, k, d, rfl, hpc⟩
  | _ => simp [State.Ready, ht, hcode] at hb

/-- If whoever is waited for comes later in some order, threads that cannot go on have ended. -/
theorem State.Holds.ended (h : s.Holds P) (hcap : ∀ r, 0 < cap r) (rank : θ → χ → Nat)
    (htake : ∀ {t v c d k r}, P.code t c = .take r k → 0 < P.holds v d r → rank t c < rank v d)
    (hjoin : ∀ {t v c k}, P.code t c = .join v k → ∀ d, rank t c < rank v d)
    (hstuck : ∀ t, ¬s.Ready P.code t) (t : θ) : s.pc t = none := by
  by_contra hne
  obtain ⟨c, hc⟩ := Option.ne_none_iff_exists'.mp hne
  let level (t : θ) : Nat := (s.pc t).elim 0 (rank t)
  obtain ⟨v, hv, hmax⟩ := Finset.exists_max_image (Finset.univ.filter fun t => (s.pc t).isSome)
    level ⟨t, by simp [hc]⟩
  obtain ⟨d, hd⟩ := Option.isSome_iff_exists.mp (Finset.mem_filter.mp hv).2
  have hlater {w : θ} {e : χ} (hw : s.pc w = some e) (hlt : rank v d < rank w e) : False := by
    have hle := hmax w (by simp [hw])
    simp only [level, hd, hw, Option.elim_some] at hle
    omega
  rcases h.blocked hcap hd (hstuck v) with ⟨r, k, w, e, hcode, hw, hpos⟩ | ⟨w, k, e, hcode, hw⟩
  · exact hlater hw (htake hcode hpos)
  · exact hlater hw (hjoin hcode e)

end Holds

variable [DecidableEq θ]

/-- One step. -/
def State.step (code : θ → χ → Instr θ ρ σ χ) (s : State θ ρ σ χ cap) :
    Event θ → Except Fault (State θ ρ σ χ cap)
  | .run t => match s.pc t with
    | none => .ok s
    | some c => match code t c with
      | .take r k =>
        if h : 0 < s.permits.free r then
          .ok { s.goto t (some k) with permits := s.permits.take t r h }
        else .ok s
      | .give r k =>
        if h : 0 < s.permits.held t r then
          .ok { s.goto t (some k) with permits := s.permits.give t r h }
        else .error .unheld
      | .act f k => .ok { s.goto t (some k) with mem := f s.mem }
      | .join _ k => .ok (s.goto t (some k))
      | .exit => .ok (s.goto t none)
  | .kill t => .ok { s.goto t none with permits := s.permits.drop t }

/-- The threads from a place each, with all permits free. -/
def machine (cap : ρ → Nat) (code : θ → χ → Instr θ ρ σ χ) (pc : θ → χ) (mem : σ) :
    Machine (State θ ρ σ χ cap) (Event θ) Fault where
  init := ⟨fun t => some (pc t), .full, mem⟩
  Allowed := State.Allowed code
  step := State.step code

section Steps

variable {P : Program θ ρ σ χ} {s : State θ ρ σ χ cap} {t : θ}

/-- A thread that moves, and takes or gives what the place it moves to asks for. -/
theorem State.Holds.goto (h : s.Holds P) {p : Permits θ ρ cap} {k : Option χ} {mem : σ}
    (ht : ∀ q, p.held t q = k.elim 0 fun c => P.holds t c q)
    (hother : ∀ v, v ≠ t → p.held v = s.permits.held v) :
    State.Holds P { s.goto t k with permits := p, mem := mem } := by
  intro v q
  by_cases hv : v = t
  · subst hv
    simp only [State.goto, Function.update_self]
    exact ht q
  · simp only [State.goto, Function.update_of_ne hv, hother v hv]
    exact h v q

/-- No step gives back what is not held. -/
theorem State.Holds.step (h : s.Holds P) {e : Event θ} (ha : s.Allowed P.code e) :
    ∃ u, s.step P.code e = .ok u ∧ u.Holds P := by
  cases e with
  | kill v =>
      refine ⟨_, rfl, h.goto (fun q => ?_) fun w hw => ?_⟩
      · simp [Permits.drop]
      · simp [Permits.drop, Function.update_of_ne hw]
  | run v =>
      cases hpc : s.pc v with
      | none => simp [State.Allowed, State.Ready, hpc] at ha
      | some c =>
          have hheld := h.held hpc
          cases hcode : P.code v c with
          | take r k =>
              have hfree : 0 < s.permits.free r := by
                simpa [State.Allowed, State.Ready, hpc, hcode] using ha
              refine ⟨{ s.goto v (some k) with permits := s.permits.take v r hfree },
                by simp [State.step, hpc, hcode, hfree], h.goto (fun q => ?_) fun w hw => ?_⟩
              · simp [Permits.take, Permits.one, hheld, P.take hcode]
              · ext q
                simp [Permits.take, Permits.one, hw]
          | give r k =>
              obtain ⟨hpos, hnext⟩ := P.give hcode
              have hpos : 0 < s.permits.held v r := by rwa [hheld]
              refine ⟨{ s.goto v (some k) with permits := s.permits.give v r hpos },
                by simp [State.step, hpc, hcode, hpos], h.goto (fun q => ?_) fun w hw => ?_⟩
              · simp [Permits.give, Permits.one, hheld, hnext]
              · ext q
                simp [Permits.give, Permits.one, hw]
          | act f k =>
              refine ⟨{ s.goto v (some k) with mem := f s.mem },
                by simp [State.step, hpc, hcode], h.goto (fun q => ?_) fun _ _ => rfl⟩
              simp [hheld, P.act hcode]
          | join w k =>
              refine ⟨s.goto v (some k), by simp [State.step, hpc, hcode],
                h.goto (fun q => ?_) fun _ _ => rfl⟩
              simp [hheld, P.join hcode]
          | exit =>
              refine ⟨s.goto v none, by simp [State.step, hpc, hcode],
                h.goto (fun q => ?_) fun _ _ => rfl⟩
              simp [hheld, P.exit hcode]

/-- Every step leaves each thread with what it should hold. -/
theorem State.Holds.of_step (h : s.Holds P) {e : Event θ} {u : State θ ρ σ χ cap}
    (ha : s.Allowed P.code e) (hs : s.step P.code e = .ok u) : u.Holds P := by
  obtain ⟨v, hv, hholds⟩ := h.step ha
  obtain rfl := Except.ok.inj (hv.symm.trans hs)
  exact hholds

/-- What a thread that goes on does. -/
theorem step_run {code : θ → χ → Instr θ ρ σ χ} {u : State θ ρ σ χ cap} {c : χ}
    (hc : s.pc t = some c) (hr : s.Ready code t) (hs : s.step code (.run t) = .ok u) :
    u.pc = Function.update s.pc t (code t c).next ∧ u.mem = (code t c).effect s.mem := by
  cases hcode : code t c with
  | take r k =>
      have hfree : 0 < s.permits.free r := by simpa [State.Ready, hc, hcode] using hr
      simp only [State.step, hc, hcode, hfree, dif_pos, Except.ok.injEq] at hs
      rw [← hs]
      exact ⟨rfl, rfl⟩
  | give r k =>
      simp only [State.step, hc, hcode] at hs
      split at hs
      · obtain rfl := Except.ok.inj hs
        exact ⟨rfl, rfl⟩
      · cases hs
  | _ =>
      simp only [State.step, hc, hcode, Except.ok.injEq] at hs
      rw [← hs]
      exact ⟨rfl, rfl⟩

/-- At the start nothing is held. -/
theorem holds_init {pc : θ → χ} {mem : σ} (hpc : ∀ t q, P.holds t (pc t) q = 0) :
    (machine cap P.code pc mem).init.Holds P := by
  intro t q
  simp [machine, Permits.full, hpc]

end Steps

end Threads
