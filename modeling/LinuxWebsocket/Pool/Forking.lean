import LinuxWebsocket.Pool.Parent

/-!
# How the pool is forked

The constructor of `processpool`, `setup_sig_pipe` and the ends of `run_parent` and
`run_child`, in every process that comes to them, with the descriptors each has open. The
processes run in any order; a call may fail, which ends the process by its assertion, and a
process may die at any time.
-/

namespace LinuxWebsocket

namespace Pool

namespace Forking

/-- An open file. -/
inductive File
  /-- `m_pipefd[0]` of the pipe that was made as number `k`. -/
  | pipe0 (k : Nat)
  /-- `m_pipefd[1]` of it. -/
  | pipe1 (k : Nat)
  | other
  deriving DecidableEq, Repr

/-- Where a process is. -/
inductive Pc
  /-- At the test of the `for` loop. -/
  | loop (i : Nat)
  /-- Before its `fork`. -/
  | paired (i : Nat)
  /-- Behind its `fork`. -/
  | forked (i : Nat)
  /-- Behind the constructor. -/
  | constructed
  /-- In `setup_sig_pipe`, behind `epoll_create`. -/
  | epolled
  /-- In the loop of `run_parent` or `run_child`. -/
  | running
  /-- Behind `run`. -/
  | left
  /-- It does not exist any more. -/
  | gone
  deriving DecidableEq, Repr

/-- A process. -/
structure Image where
  mSubProcess : Nat → Process
  mIdx : Int
  mEpollfd : Nat
  sigPipefd : Nat × Nat
  /-- What its descriptors refer to. -/
  fds : Nat → Option File
  pc : Pc

/-- What the kernel knows. The processes are numbered as they are forked, the one that calls the
constructor first, and so are the pipes. -/
structure Kernel where
  pids : Nat → Nat
  /-- Who forked a process. -/
  parent : Nat → Nat
  /-- `waitpid` returned the process. -/
  waited : Nat → Bool
  /-- How many processes there are. -/
  made : Nat
  /-- What `socketpair` returned. -/
  pairs : Nat → Nat × Nat
  /-- How many pipes were made. -/
  paired : Nat

/-- All processes. -/
structure Family where
  images : Nat → Image
  kernel : Kernel

/-- How the constructor is called. -/
structure Creation where
  listenfd : Nat
  processNumber : Nat
  /-- What lies in memory where `m_sub_process` is allocated. -/
  memory : Nat → Process
  /-- The descriptors that are open. -/
  opened : Nat → Bool
  /-- The caller. -/
  pid : Nat
  listenfd_opened : opened listenfd = true
  pid_pos : 0 < pid

/-- What happens next: a process makes its next call, which yields these descriptors or this
number unless it fails. -/
inductive Act
  /-- `socketpair(.., m_sub_process[i].m_pipefd)` -/
  | pair (p : Nat) (fds : Option (Nat × Nat))
  | fork (p : Nat) (pid : Option Nat)
  /-- The rest of the body of the loop. -/
  | behind (p : Nat)
  /-- The `for` loop ends. -/
  | construct (p : Nat)
  | epollCreate (p : Nat) (fd : Option Nat)
  /-- `socketpair(.., sig_pipefd)` -/
  | sigPair (p : Nat) (fds : Option (Nat × Nat))
  /-- `waitpid` returns process `j` in `run_parent`. -/
  | reap (p j : Nat)
  /-- The loop of `run_parent` or `run_child` was left. -/
  | leave (p : Nat)
  /-- The process exits or is killed. -/
  | die (p : Nat)
  deriving DecidableEq, Repr

variable (c : Creation)

/-- `new process[process_number]` -/
def Creation.blank (k : Nat) : Process :=
  if k < c.processNumber then { c.memory k with mPid := -1 } else c.memory k

/-- A new descriptor. -/
def Image.install (m : Image) (fd : Nat) (f : File) : Image :=
  { m with fds := Function.update m.fds fd (some f) }

/-- `close(fd)` -/
def Image.close (m : Image) (fd : Nat) : Image := { m with fds := Function.update m.fds fd none }

/-- The end of a process. -/
def Image.die (m : Image) : Image := { m with fds := fun _ => none, pc := .gone }

/-- The descriptors of pipe `k` are put into `m_sub_process[i]`. -/
def Image.pair (m : Image) (i k : Nat) (ab : Nat × Nat) : Image :=
  { (m.install ab.1 (.pipe0 k)).install ab.2 (.pipe1 k) with
    mSubProcess := Function.update m.mSubProcess i { m.mSubProcess i with mPipefd := ab }
    pc := .paired i }

/-- `m_sub_process[i].m_pid = fork()`, where `fork` returned. -/
def Image.fork (m : Image) (i : Nat) (pid : Int) : Image :=
  { m with
    mSubProcess := Function.update m.mSubProcess i { m.mSubProcess i with mPid := pid }
    pc := .forked i }

/-- The constructor's loop behind the `fork`. -/
def Image.behind (m : Image) (i : Nat) : Image :=
  if 0 < (m.mSubProcess i).mPid then
    { m.close (m.mSubProcess i).mPipefd.2 with pc := .loop (i + 1) }
  else { m.close (m.mSubProcess i).mPipefd.1 with mIdx := i, pc := .constructed }

/-- `epoll_create` in `setup_sig_pipe`. -/
def Image.epollCreate (m : Image) (fd : Nat) : Image :=
  { m.install fd .other with mEpollfd := fd, pc := .epolled }

/-- `socketpair` in `setup_sig_pipe`. -/
def Image.sigPair (m : Image) (ab : Nat × Nat) : Image :=
  { (m.install ab.1 .other).install ab.2 .other with sigPipefd := ab, pc := .running }

/-- The body of the `for` loop behind `waitpid`. -/
def Image.join (pid : Int) (m : Image) (k : Nat) : Image :=
  if (m.mSubProcess k).mPid = pid then
    { m.close (m.mSubProcess k).mPipefd.1 with
      mSubProcess := Function.update m.mSubProcess k { m.mSubProcess k with mPid := -1 } }
  else m

/-- The body of the `waitpid` loop. -/
def Image.reap (m : Image) (pid : Nat) : Image :=
  (List.range c.processNumber).foldl (Image.join pid) m

/-- What `run_parent` and `run_child` do behind their loops; `run_child` closes the `pipefd` it
looked up by `m_idx`. -/
def Image.leave (m : Image) : Except Fault Image :=
  if m.mIdx = -1 then .ok { (m.close c.listenfd).close m.mEpollfd with pc := .left }
  else if 0 ≤ m.mIdx ∧ m.mIdx < c.processNumber then
    .ok { (m.close (m.mSubProcess m.mIdx.toNat).mPipefd.2).close m.mEpollfd with pc := .left }
  else .error .outOfRange

/-- A change to one process. -/
def Family.on (s : Family) (p : Nat) (f : Image → Image) : Family :=
  { s with images := Function.update s.images p (f (s.images p)) }

/-- A new pipe. -/
def Kernel.pair (t : Kernel) (ab : Nat × Nat) : Kernel :=
  { t with pairs := Function.update t.pairs t.paired ab, paired := t.paired + 1 }

/-- A new process. -/
def Kernel.fork (t : Kernel) (p pid : Nat) : Kernel :=
  { t with
    pids := Function.update t.pids t.made pid
    parent := Function.update t.parent t.made p
    made := t.made + 1 }

/-- `waitpid` returns a process. -/
def Kernel.wait (t : Kernel) (j : Nat) : Kernel :=
  { t with waited := Function.update t.waited j true }

/-- `fork` in the round `i`: parent and child go on with a copy each, unless the assertion ends
the process. -/
def Family.fork (s : Family) (p i : Nat) : Option Nat → Family
  | none => s.on p Image.die
  | some pid =>
    { images := Function.update (Function.update s.images p ((s.images p).fork i pid))
        s.kernel.made ((s.images p).fork i 0)
      kernel := s.kernel.fork p pid }

/-- `socketpair` in the round `i`; the assertion ends the process unless there is a pipe. -/
def Family.pair (s : Family) (p i : Nat) : Option (Nat × Nat) → Family
  | none => s.on p Image.die
  | some ab => ⟨(s.on p fun m => m.pair i s.kernel.paired ab).images, s.kernel.pair ab⟩

/-- What comes of an access to `m_sub_process[i]`. -/
def Creation.access (i : Nat) (s : Family) : Except Fault Family :=
  if i < c.processNumber then .ok s else .error .outOfRange

/-- An access to an entry of the array. -/
theorem Creation.access_of_lt {c : Creation} {i : Nat} (hi : i < c.processNumber) (s : Family) :
    c.access i s = .ok s := if_pos hi

/-- One step of a process. -/
def Family.step (s : Family) : Act → Except Fault Family
  | .pair p fds => match (s.images p).pc with
    | .loop i => c.access i (s.pair p i fds)
    | _ => .ok s
  | .fork p pid => match (s.images p).pc with
    | .paired i => c.access i (s.fork p i pid)
    | _ => .ok s
  | .behind p => match (s.images p).pc with
    | .forked i => c.access i (s.on p fun m => m.behind i)
    | _ => .ok s
  | .construct p => .ok (s.on p fun m => { m with pc := .constructed })
  | .epollCreate p none => .ok (s.on p Image.die)
  | .epollCreate p (some fd) => .ok (s.on p fun m => m.epollCreate fd)
  | .sigPair p none => .ok (s.on p Image.die)
  | .sigPair p (some ab) => .ok (s.on p fun m => m.sigPair ab)
  | .reap p j => .ok ⟨(s.on p fun m => m.reap c (s.kernel.pids j)).images, s.kernel.wait j⟩
  | .leave p => do
    let m ← (s.images p).leave c
    .ok (s.on p fun _ => m)
  | .die p => .ok (s.on p Image.die)

/-- The process is at the call of `socketpair` in the loop. -/
def Pc.atPair : Pc → Bool
  | .loop i => i < c.processNumber
  | _ => false

/-- The process is at the call of `fork`. -/
def Pc.atFork : Pc → Bool
  | .paired _ => true
  | _ => false

/-- The process is behind the call of `fork`. -/
def Pc.atBehind : Pc → Bool
  | .forked _ => true
  | _ => false

/-- The test of the `for` loop fails. -/
def Pc.atEnd : Pc → Bool
  | .loop i => ¬i < c.processNumber
  | _ => false

/-- The kernel may hand out these descriptors. -/
def Image.Free (m : Image) (ab : Nat × Nat) : Prop :=
  m.fds ab.1 = none ∧ m.fds ab.2 = none ∧ ab.1 ≠ ab.2

instance (m : Image) (ab : Nat × Nat) : Decidable (m.Free ab) :=
  inferInstanceAs (Decidable (_ ∧ _ ∧ _))

/-- The next call of a process; the number of a process not yet waited for is not given to
another one. -/
def Family.Allowed (s : Family) : Act → Prop
  | .pair p fds => p < s.kernel.made ∧ (s.images p).pc.atPair c = true ∧
    ∀ ab ∈ fds, (s.images p).Free ab
  | .fork p pid => p < s.kernel.made ∧ (s.images p).pc.atFork = true ∧
    ∀ x ∈ pid, 0 < x ∧ ∀ q < s.kernel.made, s.kernel.waited q = false → s.kernel.pids q ≠ x
  | .behind p => p < s.kernel.made ∧ (s.images p).pc.atBehind = true
  | .construct p => p < s.kernel.made ∧ (s.images p).pc.atEnd c = true
  | .epollCreate p fd => p < s.kernel.made ∧ (s.images p).pc = .constructed ∧
    ∀ x ∈ fd, (s.images p).fds x = none
  | .sigPair p fds => p < s.kernel.made ∧ (s.images p).pc = .epolled ∧
    ∀ ab ∈ fds, (s.images p).Free ab
  | .reap p j => p < s.kernel.made ∧ (s.images p).pc = .running ∧ (s.images p).mIdx = -1 ∧
    0 < j ∧ j < s.kernel.made ∧ s.kernel.parent j = p ∧ (s.images j).pc = .gone ∧
      s.kernel.waited j = false
  | .leave p => p < s.kernel.made ∧ (s.images p).pc = .running
  | .die p => p < s.kernel.made ∧ (s.images p).pc ≠ .gone

instance (s : Family) : ∀ a, Decidable (s.Allowed c a)
  | .pair _ _ => inferInstanceAs (Decidable (_ ∧ _ ∧ _))
  | .fork _ _ => inferInstanceAs (Decidable (_ ∧ _ ∧ ∀ x ∈ _, _ ∧ _))
  | .behind _ => inferInstanceAs (Decidable (_ ∧ _))
  | .construct _ => inferInstanceAs (Decidable (_ ∧ _))
  | .epollCreate _ _ => inferInstanceAs (Decidable (_ ∧ _ ∧ _))
  | .sigPair _ _ => inferInstanceAs (Decidable (_ ∧ _ ∧ _))
  | .reap _ _ => inferInstanceAs (Decidable (_ ∧ _ ∧ _ ∧ _ ∧ _ ∧ _ ∧ _ ∧ _))
  | .leave _ => inferInstanceAs (Decidable (_ ∧ _))
  | .die _ => inferInstanceAs (Decidable (_ ∧ _))

/-- The caller behind the assertion of the constructor. -/
def Image.start : Image :=
  let m : Image :=
    { mSubProcess := c.blank
      mIdx := -1
      -- nothing is read from the next two before it is set
      mEpollfd := 0
      sigPipefd := (0, 0)
      fds := fun fd => if c.opened fd then some .other else none
      pc := .loop 0 }
  if 0 < c.processNumber ∧ c.processNumber < maxProcessNumber then m else m.die

/-- The caller alone. -/
def Family.start : Family where
  images := fun _ => .start c
  kernel :=
    { pids := fun _ => c.pid
      parent := fun _ => 0
      waited := fun _ => false
      made := 1
      pairs := fun _ => (0, 0)
      paired := 0 }

/-- The processes and their kernel. -/
def machine : Machine Family Act Fault where
  init := .start c
  Allowed := Family.Allowed c
  step := Family.step c

instance (s : Family) (a : Act) : Decidable ((machine c).Allowed s a) :=
  inferInstanceAs (Decidable (s.Allowed c a))

end Forking

end Pool

end LinuxWebsocket
