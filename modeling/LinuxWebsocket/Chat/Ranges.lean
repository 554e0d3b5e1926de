import LinuxWebsocket.Chat.Turns

/-!
# Indices in range

The number of a slot travels from a child through two pipes and the parent to another
child, and nobody looks at it on the way. Slots are handed out below `USER_LIMIT`, so
every number in a pipe is one, and every block of the shared memory that is read or
written lies inside the mapping. The accesses to `users` and `sub_process` are checked
by the model: one out of range is a fault.
-/

namespace LinuxWebsocket

namespace Chat

variable {k : Setup} {s : System}

/-- The length of the mapping. -/
def mappingLength : Nat := userLimit * bufferSize

/-- The slot numbers a step of a child uses. -/
def System.slots (s : System) : Act → List Nat
  | .receive c _ => (s.proc c).toList.map Proc.idx
  | .answer c => (s.kids c).down.queue.head?.toList.map Notice.idx
  | _ => []

/-- Every count and every slot number there is lies in its range. -/
structure System.InRange (s : System) : Prop where
  count : s.parent.userCount ≤ userLimit
  /-- A child's own slot. -/
  own : ∀ p ∈ s.parent.kernel.procs, p.idx < userLimit
  /-- Numbers on the way to the parent. -/
  up : ∀ c, ∀ n ∈ (s.kids c).up.queue, n.idx < userLimit
  /-- Numbers on the way to a child. -/
  down : ∀ c, ∀ n ∈ (s.kids c).down.queue, n.idx < userLimit

theorem SysInv.inRange (h : SysInv k s) : s.InRange :=
  ⟨h.parent.count, h.parent.slots, fun c => (h.carries c).up, fun c => (h.carries c).down⟩

/-- The slots a step uses are among those in range. -/
theorem System.InRange.slots_lt (h : s.InRange) {a : Act} {i : Nat} (hi : i ∈ s.slots a) :
    i < userLimit := by
  cases a with
  | receive c m =>
      obtain ⟨p, hp, rfl⟩ := List.mem_map.mp hi
      exact h.own p (List.mem_of_find?_eq_some (Option.mem_toList.mp hp))
  | answer c =>
      obtain ⟨n, hn, rfl⟩ := List.mem_map.mp hi
      exact h.down c n (List.mem_of_head? (Option.mem_toList.mp hn))
  | _ => exact absurd hi List.not_mem_nil

/-- The block of a slot lies inside the mapping. -/
theorem block_lt {i b : Nat} (hi : i < userLimit) (hb : b < bufferSize) :
    i * bufferSize + b < mappingLength :=
  calc i * bufferSize + b
    _ < i * bufferSize + bufferSize := Nat.add_lt_add_left hb _
    _ = (i + 1) * bufferSize := (Nat.succ_mul i bufferSize).symm
    _ ≤ mappingLength := Nat.mul_le_mul_right bufferSize hi

/-- In every run counts and slot numbers are in range, no step indexes a table out of
range, and every byte of a block that a child reads or writes lies inside the mapping. -/
theorem accesses_in_range (k : Setup) (users : Nat → ClientData) {as : List Act}
    (h : (system k users).Run as s) : s.InRange ∧
      ∀ a, s.Allowed k a → (∃ t, s.step k a = .ok t) ∧
        ∀ i ∈ s.slots a, i < userLimit ∧
          ∀ b, b < bufferSize → i * bufferSize + b < mappingLength := by
  have hi := sysInv_of_run h
  refine ⟨hi.inRange, fun a ha => ⟨?_, fun i hslot => ?_⟩⟩
  · obtain ⟨t, ht, -⟩ := hi.step_turn ha
    exact ⟨t, ht⟩
  · have hlt := hi.inRange.slots_lt hslot
    exact ⟨hlt, fun b hb => block_lt hlt hb⟩

/-- Two clients come, and the second one's child is about to send a slot to its client. -/
def sampleAnswering : List Act :=
  sampleArrival 8 9 101 ++ sampleArrival 9 10 102 ++
    [.endBatch 0, .wake 0 [.conn], .receive 0 (some (sampleText 97)), .endBatch 0,
      .parent (.wake [8]), .notify, .endBatch 1, .wake 1 [.pipe]]

/-- All is in range then. -/
theorem accesses_in_range_answer :
    ∃ s, (system sampleSetup fun _ => ⟨0, 0, 0, 0⟩).Run sampleAnswering s ∧ s.InRange :=
  have hrun := Machine.Run.of_exec (M := system sampleSetup fun _ => ⟨0, 0, 0, 0⟩)
    sampleAnswering (by decide) rfl
  ⟨_, hrun, (accesses_in_range _ _ hrun).1⟩

end Chat

end LinuxWebsocket
