import LinuxWebsocket.Lib.Threads

/-!
# Two threads and two mutexes

The threads of `deadLockDemo.cpp`, from `pthread_create` on. Each locks a mutex, increments the
variable of that mutex, locks the other mutex too, and adds the other variable to its own; but
what is the first mutex to one thread is the second to the other.
-/

namespace LinuxWebsocket

namespace DeadLockDemo

open Threads

/-- The threads. -/
inductive Thread
  | main
  | another
  deriving DecidableEq, Repr

theorem mem_threads (t : Thread) : t ∈ ({.main, .another} : Finset Thread) := by
  cases t <;> simp

instance : Fintype Thread := ⟨{.main, .another}, mem_threads⟩

/-- A mutex, and the variable that is used under it. -/
inductive Mutex
  | a
  | b
  deriving DecidableEq, Repr

/-- Where a thread is. -/
inductive Pc
  | lockFirst
  | increment
  | lockSecond
  | add
  | unlockSecond
  | unlockFirst
  /-- `pthread_join(id, NULL)` or `pthread_exit( NULL )` -/
  | leave
  /-- Both mutexes are destroyed. -/
  | destroy
  deriving DecidableEq, Repr

/-- The code of a thread that locks these mutexes, with this behind it. -/
def crossing (first second : Mutex) (leave : Instr Thread Mutex (Mutex → Int) Pc) :
    Pc → Instr Thread Mutex (Mutex → Int) Pc
  | .lockFirst => .take first .increment
  | .increment => .act (fun m => Function.update m first (m first + 1)) .lockSecond
  | .lockSecond => .take second .add
  | .add => .act (fun m =>
      Function.update (Function.update m first (m first + m second)) second (m second + 1))
      .unlockSecond
  | .unlockSecond => .give second .unlockFirst
  | .unlockFirst => .give first .leave
  | .leave => leave
  | .destroy => .exit

/-- `another` -/
def another : Pc → Instr Thread Mutex (Mutex → Int) Pc := crossing .b .a .exit

/-- `main` behind `pthread_create`. -/
def main : Pc → Instr Thread Mutex (Mutex → Int) Pc := crossing .a .b (.join .another .destroy)

/-- The code of both. -/
def code : Thread → Pc → Instr Thread Mutex (Mutex → Int) Pc
  | .main => main
  | .another => another

/-- The mutex a thread locks first. -/
def first : Thread → Mutex
  | .main => .a
  | .another => .b

/-- The other thread. -/
def peer : Thread → Thread
  | .main => .another
  | .another => .main

/-- The first mutex is held. -/
def holdsFirst : Pc → Bool
  | .increment | .lockSecond | .add | .unlockSecond | .unlockFirst => true
  | _ => false

/-- The second mutex is held. -/
def holdsSecond : Pc → Bool
  | .add | .unlockSecond => true
  | _ => false

/-- What a thread holds. -/
def holds (t : Thread) (c : Pc) (r : Mutex) : Nat :=
  if r = first t then (holdsFirst c).toNat else (holdsSecond c).toNat

section Holds

variable {t : Thread} {c k : Pc} {r : Mutex}

theorem holds_take (h : code t c = .take r k) (q : Mutex) :
    holds t k q = holds t c q + if q = r then 1 else 0 := by
  cases t <;> cases c <;> simp only [code, main, another, crossing, reduceCtorEq] at h
  all_goals
    obtain ⟨rfl, rfl⟩ := Instr.take.inj h
    cases q <;> decide

theorem holds_give (h : code t c = .give r k) :
    0 < holds t c r ∧ ∀ q, holds t k q = holds t c q - if q = r then 1 else 0 := by
  cases t <;> cases c <;> simp only [code, main, another, crossing, reduceCtorEq] at h
  all_goals
    obtain ⟨rfl, rfl⟩ := Instr.give.inj h
    exact ⟨by decide, fun q => by cases q <;> decide⟩

theorem holds_act {f : (Mutex → Int) → Mutex → Int} (h : code t c = .act f k) (q : Mutex) :
    holds t k q = holds t c q := by
  cases t <;> cases c <;> simp only [code, main, another, crossing, reduceCtorEq] at h
  all_goals
    obtain ⟨-, rfl⟩ := Instr.act.inj h
    cases q <;> decide

theorem holds_join {u : Thread} (h : code t c = .join u k) (q : Mutex) :
    holds t k q = holds t c q := by
  cases t <;> cases c <;> simp only [code, main, another, crossing, reduceCtorEq] at h
  all_goals
    obtain ⟨-, rfl⟩ := Instr.join.inj h
    cases q <;> decide

theorem holds_exit (h : code t c = .exit) (q : Mutex) : holds t c q = 0 := by
  cases t <;> cases c <;> simp only [code, main, another, crossing, reduceCtorEq] at h
  all_goals cases q <;> decide

end Holds

/-- The code keeps to it. -/
def program : Program Thread Mutex (Mutex → Int) Pc :=
  ⟨code, holds, holds_take, holds_give, holds_act, holds_join, holds_exit⟩

/-- Both threads before their first statement, with `a` and `b` 0; none of them is killed. -/
def demo : Machine (State Thread Mutex (Mutex → Int) Pc fun _ => 1) (Event Thread) Threads.Fault :=
  (machine (fun _ => 1) code (fun _ => .lockFirst) fun _ => 0).restrict fun _ e => e.isRun = true

instance (s : State Thread Mutex (Mutex → Int) Pc fun _ => 1) (e : Event Thread) :
    Decidable (demo.Allowed s e) :=
  inferInstanceAs (Decidable (s.Allowed code e ∧ e.isRun = true))

/-- The thread has incremented its own variable. -/
def incremented : Option Pc → Bool
  | some .lockFirst | some .increment => false
  | _ => true

/-- The thread has added the other variable to its own. -/
def added : Option Pc → Bool
  | some .lockFirst | some .increment | some .lockSecond | some .add => false
  | _ => true

/-- What the variables are, by what the threads have done: whoever adds first finds the other
variable as it was, and the other one finds it as the first has left it. -/
structure Values (pc : Thread → Option Pc) (m : Mutex → Int) : Prop where
  neither : ∀ t, added (pc t) = false → added (pc (peer t)) = false →
    m (first t) = (incremented (pc t)).toNat
  one : ∀ t, added (pc t) = true → added (pc (peer t)) = false →
    m (first t) = 1 ∧ m (first (peer t)) = 1 + (incremented (pc (peer t))).toNat
  both : (∀ t, added (pc t) = true) → ∃ t, m (first t) = 2 ∧ m (first (peer t)) = 3

@[simp] theorem peer_peer (t : Thread) : peer (peer t) = t := by
  cases t <;> rfl

theorem peer_ne (t : Thread) : peer t ≠ t := by
  cases t <;> decide

theorem first_peer_ne (t : Thread) : first (peer t) ≠ first t := by
  cases t <;> decide

/-- There is no third thread. -/
theorem eq_or_peer_eq (t u : Thread) : t = u ∨ peer t = u := by
  cases t <;> cases u <;> simp [peer]

section Values

variable {pc pc' : Thread → Option Pc} {m : Mutex → Int} {t : Thread}

/-- Other steps change nothing about it. -/
theorem Values.congr (h : Values pc m) (hi : ∀ u, incremented (pc' u) = incremented (pc u))
    (ha : ∀ u, added (pc' u) = added (pc u)) : Values pc' m := by
  refine ⟨fun u h1 h2 => ?_, fun u h1 h2 => ?_, fun hall => h.both fun u => ha u ▸ hall u⟩
  · rw [hi]
    exact h.neither u (ha _ ▸ h1) (ha _ ▸ h2)
  · rw [hi]
    exact h.one u (ha _ ▸ h1) (ha _ ▸ h2)

/-- A thread increments its variable. -/
theorem Values.increment (h : Values pc m) (ht : pc t = some .increment) :
    Values (Function.update pc t (some .lockSecond))
      (Function.update m (first t) (m (first t) + 1)) := by
  have hnot : added (pc t) = false := by rw [ht]; rfl
  have hold : incremented (pc t) = false := by rw [ht]; rfl
  have hself : Function.update pc t (some .lockSecond) t = some .lockSecond :=
    Function.update_self ..
  have hother : Function.update pc t (some .lockSecond) (peer t) = pc (peer t) :=
    Function.update_of_ne (peer_ne t) ..
  have hvar (x : Int) : Function.update m (first t) x (first (peer t)) = m (first (peer t)) :=
    Function.update_of_ne (first_peer_ne t) ..
  refine ⟨fun u h1 h2 => ?_, fun u h1 h2 => ?_, fun hall => ?_⟩
  · rcases eq_or_peer_eq t u with rfl | rfl
    · rw [hother] at h2
      have hm := h.neither t hnot h2
      rw [hold] at hm
      rw [Function.update_self, hself, hm]
      rfl
    · rw [hother] at h1 ⊢
      rw [hvar]
      exact h.neither (peer t) h1 (by rwa [peer_peer])
  · rcases eq_or_peer_eq t u with rfl | rfl
    · rw [hself] at h1
      cases h1
    · rw [hother] at h1
      obtain ⟨hm, hmt⟩ := h.one (peer t) h1 (by rwa [peer_peer])
      rw [peer_peer, hold] at hmt
      refine ⟨(hvar _).trans hm, ?_⟩
      rw [peer_peer, Function.update_self, hself, hmt]
      rfl
  · have hself' := hall t
    rw [hself] at hself'
    cases hself'

/-- A thread adds the other variable to its own, which the other thread is not about. -/
theorem Values.add (h : Values pc m) (ht : pc t = some .add)
    (hu : added (pc (peer t)) = false → incremented (pc (peer t)) = false) :
    Values (Function.update pc t (some .unlockSecond))
      (Function.update (Function.update m (first t) (m (first t) + m (first (peer t))))
        (first (peer t)) (m (first (peer t)) + 1)) := by
  have hnot : added (pc t) = false := by rw [ht]; rfl
  have hold : incremented (pc t) = true := by rw [ht]; rfl
  have hself : Function.update pc t (some .unlockSecond) t = some .unlockSecond :=
    Function.update_self ..
  have hother : Function.update pc t (some .unlockSecond) (peer t) = pc (peer t) :=
    Function.update_of_ne (peer_ne t) ..
  have hfirst (x y : Int) : Function.update (Function.update m (first t) x) (first (peer t)) y
      (first t) = x := by
    rw [Function.update_of_ne (first_peer_ne t).symm, Function.update_self]
  refine ⟨fun u h1 h2 => ?_, fun u h1 h2 => ?_, fun hall => ⟨peer t, ?_⟩⟩
  · rcases eq_or_peer_eq t u with rfl | rfl
    · rw [hself] at h1
      cases h1
    · rw [peer_peer, hself] at h2
      cases h2
  · rcases eq_or_peer_eq t u with rfl | rfl
    · rw [hother] at h2
      have hzero := hu h2
      have hmt := h.neither t hnot h2
      have hmu := h.neither (peer t) h2 (by rwa [peer_peer])
      rw [hold] at hmt
      rw [hzero] at hmu
      rw [hfirst, Function.update_self, hother, hzero, hmt, hmu]
      decide
    · rw [peer_peer, hself] at h2
      cases h2
  · have hdone : added (pc (peer t)) = true := hother ▸ hall (peer t)
    obtain ⟨hmu, hmt⟩ := h.one (peer t) hdone (by rwa [peer_peer])
    rw [peer_peer, hold] at hmt
    rw [peer_peer, hfirst, Function.update_self, hmt, hmu]
    decide

/-- A step that is not about the variables. -/
theorem Values.goto (h : Values pc m) {k : Option Pc} (hi : incremented k = incremented (pc t))
    (ha : added k = added (pc t)) : Values (Function.update pc t k) m := by
  have hflag (f : Option Pc → Bool) (hf : f k = f (pc t)) (u : Thread) :
      f (Function.update pc t k u) = f (pc u) := by
    rcases eq_or_peer_eq t u with rfl | rfl
    · rw [Function.update_self, hf]
    · rw [Function.update_of_ne (peer_ne t)]
  exact h.congr (hflag incremented hi) (hflag added ha)

end Values

section Runs

variable {s u : State Thread Mutex (Mutex → Int) Pc fun _ => 1} {t : Thread}

/-- A thread that adds is not met by one between its increment and its own addition. -/
theorem apart (h : s.Holds program) (ht : s.pc t = some .add)
    (hu : added (s.pc (peer t)) = false) : incremented (s.pc (peer t)) = false := by
  cases hpc : s.pc (peer t) with
  | none => simp [hpc, added] at hu
  | some d =>
      have hheld : 0 < program.holds t .add (first (peer t)) := by cases t <;> decide
      have hno (hd : 0 < program.holds (peer t) d (first (peer t))) : False :=
        peer_ne t (h.exclusive rfl hpc ht hd hheld)
      cases d with
      | lockFirst => rfl
      | increment => rfl
      | lockSecond => exact absurd (by cases t <;> decide) hno
      | add => exact absurd (by cases t <;> decide) hno
      | _ => simp [hpc, added] at hu

/-- The other statements are not about the variables. -/
theorem next_flags {c : Pc} (hi : c ≠ .increment) (ha : c ≠ .add) (m : Mutex → Int) :
    incremented (code t c).next = incremented (some c) ∧
      added (code t c).next = added (some c) ∧ (code t c).effect m = m := by
  cases t <;> cases c <;> first | contradiction | exact ⟨rfl, rfl, rfl⟩

/-- Every step keeps the variables what they should be. -/
theorem Values.step (h : Values s.pc s.mem) (hh : s.Holds program) (hr : s.Ready code t)
    (hs : s.step code (.run t) = .ok u) : Values u.pc u.mem := by
  cases hc : s.pc t with
  | none => simp [State.Ready, hc] at hr
  | some c =>
      obtain ⟨hpc, hmem⟩ := step_run hc hr hs
      rw [hpc, hmem]
      by_cases hi : c = .increment
      · subst hi
        have hnext := h.increment hc
        cases t with
        | main => exact hnext
        | another => exact hnext
      · by_cases ha : c = .add
        · subst ha
          have hnext := h.add hc (apart hh hc)
          cases t with
          | main => exact hnext
          | another => exact hnext
        · obtain ⟨hinc, hadd, heff⟩ := next_flags (t := t) hi ha s.mem
          rw [heff]
          exact h.goto (hc ▸ hinc) (hc ▸ hadd)

/-- In every run. -/
theorem values_of_run {es : List (Event Thread)} (h : demo.Run es s) :
    s.Holds program ∧ Values s.pc s.mem := by
  refine h.invariant (I := fun s => s.Holds program ∧ Values s.pc s.mem) ⟨?_, ?_⟩ ?_
  · exact holds_init (P := program) fun t q => by cases t <;> cases q <;> rfl
  · exact ⟨fun t _ _ => rfl, fun t h => (by cases h), fun h => (by cases h .main)⟩
  · rintro s e u ⟨hh, hv⟩ ⟨ha, hrun⟩ hs
    have hholds := State.Holds.of_step (P := program) hh ha hs
    cases e with
    | run t => exact ⟨hholds, hv.step hh ha hs⟩
    | kill t => cases hrun

/-- A thread that cannot go on is at a mutex, or waits for the other thread. -/
theorem unready {c : Pc} (ht : s.pc t = some c) (hb : ¬s.Ready code t) :
    c = .lockFirst ∨ c = .lockSecond ∨ c = .leave ∧ t = .main := by
  by_contra hno
  refine hb ?_
  cases t <;> cases c <;> simp_all [State.Ready, code, main, another, crossing]

/-- The mutexes a thread can be at. -/
theorem code_take {c k : Pc} {r : Mutex} (h : code t c = .take r k) :
    (c = .lockFirst ∧ r = first t) ∨ (c = .lockSecond ∧ r = first (peer t)) := by
  cases t <;> cases c <;> simp only [code, main, another, crossing, reduceCtorEq] at h
  all_goals
    obtain ⟨rfl, rfl⟩ := Instr.take.inj h
    simp [first, peer]

/-- Only `pthread_join` waits for a thread, and that is `another`. -/
theorem code_join {c k : Pc} {v : Thread} (h : code t c = .join v k) :
    c = .leave ∧ v = peer t := by
  cases t <;> cases c <;> simp only [code, main, another, crossing, reduceCtorEq] at h
  all_goals exact ⟨rfl, (Instr.join.inj h).1.symm⟩

theorem holds_first (t : Thread) (c : Pc) : holds t c (first t) = (holdsFirst c).toNat :=
  if_pos rfl

theorem holds_second (t : Thread) (c : Pc) : holds t c (first (peer t)) = (holdsSecond c).toNat :=
  if_neg (first_peer_ne t)

/-- In a stuck state, a thread at a mutex is at its second one, and so is the other thread. -/
theorem crossed (hh : s.Holds program) (hstuck : ∀ t, ¬s.Ready code t) {c : Pc}
    (ht : s.pc t = some c) (hj : c ≠ .leave) :
    s.pc t = some .lockSecond ∧ s.pc (peer t) = some .lockSecond := by
  rcases hh.blocked (fun _ => Nat.one_pos) ht (hstuck t) with
    ⟨r, k, v, d, hcode, hv, hpos⟩ | ⟨v, k, d, hcode, -⟩
  · have hd := unready hv (hstuck v)
    change 0 < holds v d r at hpos
    rcases code_take hcode with ⟨rfl, rfl⟩ | ⟨rfl, rfl⟩
    · -- the holder has both mutexes, and could go on
      exfalso
      rcases eq_or_peer_eq t v with rfl | rfl
      · obtain rfl := Option.some.inj (ht.symm.trans hv)
        simp [holds_first, holdsFirst] at hpos
      · have hsecond := holds_second (peer t) d
        rw [peer_peer] at hsecond
        rw [hsecond] at hpos
        rcases hd with rfl | rfl | ⟨rfl, -⟩ <;> simp [holdsSecond] at hpos
    · rcases eq_or_peer_eq t v with rfl | rfl
      · obtain rfl := Option.some.inj (ht.symm.trans hv)
        simp [holds_second, holdsSecond] at hpos
      · rw [holds_first] at hpos
        rcases hd with rfl | rfl | ⟨rfl, -⟩
        · simp [holdsFirst] at hpos
        · exact ⟨ht, hv⟩
        · simp [holdsFirst] at hpos
  · exact absurd (code_join hcode).1 hj

/-- A stuck state is a deadlock, unless both threads have ended. -/
theorem stuck_iff (hh : s.Holds program) :
    (∀ t, ¬s.Ready code t) ↔ (∀ t, s.pc t = none) ∨ ∀ t, s.pc t = some .lockSecond := by
  constructor
  · intro hstuck
    have hboth {t : Thread} {c : Pc} (ht : s.pc t = some c) (hj : c ≠ .leave) (u : Thread) :
        s.pc u = some .lockSecond := by
      obtain ⟨hself, hpeer⟩ := crossed hh hstuck ht hj
      rcases eq_or_peer_eq t u with rfl | rfl
      · exact hself
      · exact hpeer
    by_contra! hno
    obtain ⟨⟨t, ht⟩, u, hu⟩ := hno
    obtain ⟨c, hc⟩ := Option.ne_none_iff_exists'.mp ht
    obtain rfl : c = .leave := by_contra fun hj => hu (hboth hc hj u)
    -- only `main` waits there, and only for a thread at a mutex
    rcases hh.blocked (fun _ => Nat.one_pos) hc (hstuck t) with
      ⟨r, k, v, d, hcode, -⟩ | ⟨v, k, d, hcode, hv⟩
    · rcases code_take hcode with ⟨hl, -⟩ | ⟨hl, -⟩ <;> cases hl
    · obtain rfl := (code_join hcode).2
      refine hu (hboth hv (fun hd => ?_) u)
      subst hd
      rcases unready hc (hstuck t) with hl | hl | ⟨-, rfl⟩
      · cases hl
      · cases hl
      · rcases unready hv (hstuck _) with hl | hl | ⟨-, hm⟩
        · cases hl
        · cases hl
        · cases hm
  · rintro (hend | hlock) t
    · simp [State.Ready, hend t]
    · have hheld : s.permits.held (peer t) (first (peer t)) = 1 := by
        rw [hh.held (hlock (peer t))]
        exact holds_first (peer t) .lockSecond
      have hfree : s.permits.free (first (peer t)) = 0 :=
        Permits.free_of_held rfl (by rw [hheld]; exact Nat.one_pos)
      have hcode : code t .lockSecond = .take (first (peer t)) .add := by cases t <;> rfl
      simp [State.Ready, hlock t, hcode, hfree]

/-- In every run: two threads are never both about to use the same variable; no thread can go on
exactly if both have ended or each is about to lock the mutex the other has locked; in a deadlock
`a` and `b` are 1, and at the end one of them is 2 and the other 3. -/
theorem deadlocks_iff {es : List (Event Thread)} (h : demo.Run es s) :
    (∀ t, s.pc t = some .add → s.pc (peer t) ≠ some .increment ∧ s.pc (peer t) ≠ some .add) ∧
    ((∀ t, ¬s.Ready code t) ↔ (∀ t, s.pc t = none) ∨ ∀ t, s.pc t = some .lockSecond) ∧
    ((∀ t, s.pc t = some .lockSecond) → s.mem .a = 1 ∧ s.mem .b = 1) ∧
    ((∀ t, s.pc t = none) → (s.mem .a, s.mem .b) ∈ [((2 : Int), (3 : Int)), (3, 2)]) := by
  obtain ⟨hh, hv⟩ := values_of_run h
  refine ⟨fun t ht => ?_, stuck_iff hh, fun hlock => ?_, fun hend => ?_⟩
  · have happly (d : Pc) (hd : 0 < holds (peer t) d (first (peer t))) : s.pc (peer t) ≠ some d := by
      intro hpc
      have hadd : 0 < program.holds t .add (first (peer t)) := by cases t <;> decide
      exact peer_ne t (hh.exclusive rfl hpc ht hd hadd)
    exact ⟨happly _ (by cases t <;> decide), happly _ (by cases t <;> decide)⟩
  · have hone (t : Thread) : s.mem (first t) = 1 := by
      have hm := hv.neither t (by rw [hlock t]; rfl) (by rw [hlock]; rfl)
      rwa [hlock t] at hm
    exact ⟨hone .main, hone .another⟩
  · obtain ⟨t, htwo, hthree⟩ := hv.both fun t => by rw [hend t]; rfl
    cases t with
    | main =>
        have ha : s.mem .a = 2 := htwo
        have hb : s.mem .b = 3 := hthree
        simp [ha, hb]
    | another =>
        have hb : s.mem .b = 2 := htwo
        have ha : s.mem .a = 3 := hthree
        simp [ha, hb]

/-- Each thread locks its first mutex before the other one comes to its second. -/
def sampleCross : List (Event Thread) := [.run .main, .run .another, .run .main, .run .another]

/-- One thread is done before the other one starts. -/
def sampleTurns : List (Event Thread) :=
  List.replicate 7 (.run .another) ++ List.replicate 8 (.run .main)

/-- The first ends in a deadlock, the second does not. -/
theorem deadlocks_iff_cross :
    (∃ s, demo.Run sampleCross s ∧
      (∀ t, ¬s.Ready code t) ∧ s.mem .a = 1 ∧ s.mem .b = 1) ∧
    ∃ s, demo.Run sampleTurns s ∧
      (s.mem .a, s.mem .b) ∈ [((2 : Int), (3 : Int)), (3, 2)] := by
  constructor
  · obtain ⟨s, hrun, hs⟩ := Machine.Run.of_exec_map (M := demo)
      (f := fun s => (s.pc .main, s.pc .another)) (x := (some .lockSecond, some .lockSecond))
      sampleCross (by decide) (by decide)
    simp only [Prod.mk.injEq] at hs
    obtain ⟨-, hiff, hvars, -⟩ := deadlocks_iff hrun
    have hlock (t : Thread) : s.pc t = some .lockSecond := by
      cases t with
      | main => exact hs.1
      | another => exact hs.2
    exact ⟨s, hrun, hiff.mpr (Or.inr hlock), hvars hlock⟩
  · obtain ⟨s, hrun, hs⟩ := Machine.Run.of_exec_map (M := demo)
      (f := fun s => (s.pc .main, s.pc .another)) (x := (none, none))
      sampleTurns (by decide) (by decide)
    simp only [Prod.mk.injEq] at hs
    refine ⟨s, hrun, (deadlocks_iff hrun).2.2.2 fun t => ?_⟩
    cases t with
    | main => exact hs.1
    | another => exact hs.2

end Runs

end DeadLockDemo

end LinuxWebsocket
