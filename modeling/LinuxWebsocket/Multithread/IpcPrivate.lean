import LinuxWebsocket.Lib.Threads

/-!
# Two processes and a semaphore

The processes of `IPC_PRIVATE.cpp`, from `fork` on. Both call `pv` around a critical section, and
the parent removes the semaphore at last. `SEM_UNDO` makes the kernel give back what a process
holds that exits or is killed, so that either of them may be killed anywhere.
-/

namespace LinuxWebsocket

namespace IpcPrivate

open Threads

/-- The processes. -/
inductive Process
  | parent
  | child
  deriving DecidableEq, Repr

theorem mem_processes (t : Process) : t ∈ ({.parent, .child} : Finset Process) := by
  cases t <;> simp

instance : Fintype Process := ⟨{.parent, .child}, mem_processes⟩

/-- Where a process is. -/
inductive Pc
  /-- `pv(sem_id, -1)` -/
  | enter
  /-- Between the calls of `pv`. -/
  | critical
  /-- `pv(sem_id, 1)` -/
  | leave
  /-- `waitpid(id, NULL, 0)` in the parent, `exit(0)` in the child. -/
  | finish
  /-- `semctl(sem_id, 0, IPC_RMID, sem_un)` -/
  | remove
  /-- `return 0` -/
  | done
  deriving DecidableEq, Repr

/-- `pv(sem_id, op)`; the memory is whether the semaphore was removed. -/
def pv (op : Int) (next : Pc) : Instr Process Unit Bool Pc :=
  if op < 0 then .take () next else .give () next

theorem pv_take (next : Pc) : pv (-1) next = .take () next := rfl

theorem pv_give (next : Pc) : pv 1 next = .give () next := rfl

/-- The branch of the child behind `fork`. -/
def childBranch : Pc → Instr Process Unit Bool Pc
  | .enter => pv (-1) .critical
  | .critical => .act id .leave
  | .leave => pv 1 .finish
  | _ => .exit

/-- The branch of the parent, and what is behind it. -/
def parentBranch : Pc → Instr Process Unit Bool Pc
  | .enter => pv (-1) .critical
  | .critical => .act id .leave
  | .leave => pv 1 .finish
  | .finish => .join .child .remove
  | .remove => .act (fun _ => true) .done
  | .done => .exit

/-- The code of both. -/
def code : Process → Pc → Instr Process Unit Bool Pc
  | .parent => parentBranch
  | .child => childBranch

/-- What a process holds. -/
def holds (_ : Process) (c : Pc) (_ : Unit) : Nat :=
  match c with
  | .critical | .leave => 1
  | _ => 0

section Holds

variable {t : Process} {c k : Pc} {r : Unit}

theorem holds_take (h : code t c = .take r k) (q : Unit) :
    holds t k q = holds t c q + if q = r then 1 else 0 := by
  cases t <;> cases c <;>
    simp only [code, parentBranch, childBranch, pv_take, pv_give, reduceCtorEq,
      Instr.take.injEq] at h
  all_goals
    obtain ⟨-, rfl⟩ := h
    rfl

theorem holds_give (h : code t c = .give r k) :
    0 < holds t c r ∧ ∀ q, holds t k q = holds t c q - if q = r then 1 else 0 := by
  cases t <;> cases c <;>
    simp only [code, parentBranch, childBranch, pv_take, pv_give, reduceCtorEq,
      Instr.give.injEq] at h
  all_goals
    obtain ⟨-, rfl⟩ := h
    exact ⟨Nat.one_pos, fun _ => rfl⟩

theorem holds_act {f : Bool → Bool} (h : code t c = .act f k) (q : Unit) :
    holds t k q = holds t c q := by
  cases t <;> cases c <;>
    simp only [code, parentBranch, childBranch, pv_take, pv_give, reduceCtorEq,
      Instr.act.injEq] at h
  all_goals
    obtain ⟨-, rfl⟩ := h
    rfl

theorem holds_join {u : Process} (h : code t c = .join u k) (q : Unit) :
    holds t k q = holds t c q := by
  cases t <;> cases c <;>
    simp only [code, parentBranch, childBranch, pv_take, pv_give, reduceCtorEq,
      Instr.join.injEq] at h
  all_goals
    obtain ⟨-, rfl⟩ := h
    rfl

theorem holds_exit (h : code t c = .exit) (q : Unit) : holds t c q = 0 := by
  cases t <;> cases c <;>
    simp only [code, parentBranch, childBranch, pv_take, pv_give, reduceCtorEq] at h
  all_goals rfl

end Holds

/-- The code keeps to it. -/
def program : Program Process Unit Bool Pc :=
  ⟨code, holds, holds_take, holds_give, holds_act, holds_join, holds_exit⟩

/-- Both processes behind `fork`; they may be killed. -/
def demo : Machine (State Process Unit Bool Pc fun _ => 1) (Event Process) Threads.Fault :=
  machine (fun _ => 1) code (fun _ => .enter) false

instance (s : State Process Unit Bool Pc fun _ => 1) (e : Event Process) :
    Decidable (demo.Allowed s e) :=
  inferInstanceAs (Decidable (s.Allowed code e))

/-- Whoever waits is behind whoever it waits for. -/
def rank : Process → Pc → Nat
  | .parent, .finish => 0
  | _, .enter => 1
  | _, _ => 2

variable {s u : State Process Unit Bool Pc fun _ => 1}

/-- The semaphore is removed behind `waitpid`. -/
structure Removal (s : State Process Unit Bool Pc fun _ => 1) : Prop where
  waited : s.pc .parent = some .remove ∨ s.mem = true → s.pc .child = none
  unremoved : ∀ c, s.pc .parent = some c → c ≠ .done → s.mem = false

/-- Nothing but the parent removes the semaphore. -/
theorem Removal.step (h : Removal s) {e : Event Process} (ha : s.Allowed code e)
    (hs : s.step code e = .ok u) : Removal u := by
  cases e with
  | kill t =>
      obtain rfl := Except.ok.inj hs
      cases t with
      | parent =>
          refine ⟨fun hr => ?_, fun c hc => by simp [State.goto] at hc⟩
          have hr : s.mem = true := by simpa [State.goto] using hr
          simpa [State.goto] using h.waited (Or.inr hr)
      | child => exact ⟨fun _ => by simp [State.goto], fun c hc => h.unremoved c hc⟩
  | run t =>
      cases hc : s.pc t with
      | none => simp [State.Allowed, State.Ready, hc] at ha
      | some c =>
          obtain ⟨hpc, hmem⟩ := step_run hc ha hs
          have hother {v : Process} (hv : v ≠ t) : u.pc v = s.pc v := by
            rw [hpc, Function.update_of_ne hv]
          have hself : u.pc t = (code t c).next := by rw [hpc, Function.update_self]
          cases t with
          | child =>
              have heffect : u.mem = s.mem := by
                rw [hmem]
                cases c <;> rfl
              have hparent := hother (v := .parent) (by simp)
              refine ⟨fun hr => ?_, fun d hd => ?_⟩
              · rw [hparent, heffect] at hr
                rw [h.waited hr] at hc
                cases hc
              · rw [heffect]
                exact h.unremoved d (hparent ▸ hd)
          | parent =>
              have hchild := hother (v := .child) (by simp)
              refine ⟨fun hr => ?_, fun d hd hne => ?_⟩
              · rw [hchild]
                cases c with
                | finish => simpa [State.Allowed, State.Ready, hc, code, parentBranch] using ha
                | remove => exact h.waited (Or.inl hc)
                | _ =>
                    rw [hself, hmem] at hr
                    exact h.waited (Or.inr (hr.resolve_left (by
                      simp [code, parentBranch, pv_take, pv_give, Instr.next])))
              · rw [hmem]
                cases c with
                | remove =>
                    rw [hself] at hd
                    exact absurd (Option.some.inj hd).symm hne
                | done =>
                    rw [hself] at hd
                    cases hd
                | _ => exact h.unremoved _ hc (by simp)

end IpcPrivate

end LinuxWebsocket
