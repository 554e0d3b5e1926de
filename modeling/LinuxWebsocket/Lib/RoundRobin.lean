import Mathlib.Data.List.Basic
import Mathlib.Data.List.Range
import Mathlib.Data.List.Rotate
import Mathlib.Tactic.Common

/-!
# Round-robin selection

Among `n` places arranged in a circle, some of them live, the one to serve next is
the first live one at or behind the place where the turn is. The turn then moves on
behind it, so the live places are served one after the other, over and over.
-/

namespace RoundRobin

variable {live : Nat → Bool} {n start k : Nat}

/-- The places in the order in which a turn at `start` visits them, from the `d`-th on. -/
def visits (n start d len : Nat) : List Nat := (List.range' d len).map fun e => (start + e) % n

/-- The first live place at or behind `start`. -/
def next (live : Nat → Bool) (n start : Nat) : Option Nat := (visits n start 0 n).find? live

/-- A whole turn visits every place. -/
theorem mem_visits (h : start < n) : k ∈ visits n start 0 n ↔ k < n := by
  simp only [visits, List.mem_map, List.mem_range'_1, Nat.zero_le, Nat.zero_add, true_and]
  constructor
  · rintro ⟨e, _, rfl⟩
    exact Nat.mod_lt _ (by omega)
  · intro hk
    by_cases hle : start ≤ k
    · exact ⟨k - start, by omega, by rw [Nat.add_sub_of_le hle, Nat.mod_eq_of_lt hk]⟩
    · refine ⟨n - start + k, by omega, ?_⟩
      have he : start + (n - start + k) = k + n := by omega
      rw [he, Nat.add_mod_right, Nat.mod_eq_of_lt hk]

/-- Nothing is selected exactly when no place is live. -/
theorem next_eq_none (h : start < n) : next live n start = none ↔ ∀ k, k < n → live k = false := by
  simp only [next, List.find?_eq_none, mem_visits h, Bool.not_eq_true]

/-- A selected place is one of the live ones. -/
theorem next_eq_some (h : start < n) (hk : next live n start = some k) : k < n ∧ live k = true :=
  ⟨(mem_visits h).mp (List.mem_of_find?_eq_some hk), List.find?_some hk⟩

/-- The turn comes back to its start with the last of the places, not before. -/
theorem turn_over {d : Nat} (h : start < n) (hd : d < n) :
    (start + (d + 1)) % n = start ↔ d + 1 = n := by
  constructor
  · intro he
    by_contra hne
    have hlt : d + 1 < n := by omega
    by_cases hw : start + (d + 1) < n
    · rw [Nat.mod_eq_of_lt hw] at he
      omega
    · rw [Nat.mod_eq_sub_mod (by omega), Nat.mod_eq_of_lt (by omega)] at he
      omega
  · rintro rfl
    rw [Nat.add_mod_right, Nat.mod_eq_of_lt h]

/-- The first live place is found after as many steps as there are dead ones before it. -/
theorem next_eq_some_iff : next live n start = some k ↔
    ∃ d, d < n ∧ k = (start + d) % n ∧ live k = true ∧
      ∀ e, e < d → live ((start + e) % n) = false := by
  simp only [next, visits, List.find?_eq_some_iff_getElem, List.getElem_map, List.getElem_range',
    List.length_map, List.length_range', Nat.zero_add, Nat.one_mul, Bool.not_eq_true']
  constructor
  · rintro ⟨hk, d, hd, rfl, hbefore⟩
    exact ⟨d, hd, rfl, hk, hbefore⟩
  · rintro ⟨d, hd, rfl, hk, hbefore⟩
    exact ⟨hk, d, hd, rfl, hbefore⟩

/-! ## Whole turns -/

/-- The visits of a turn are the places, rotated. -/
theorem visits_eq_rotate : visits n start 0 n = (List.range n).rotate start := by
  apply List.ext_getElem
  · simp [visits]
  · intro i _ _
    simp [visits, List.getElem_rotate, Nat.add_comm]

/-- The live places in the order in which a turn at `start` meets them. -/
def turns (live : Nat → Bool) (n start : Nat) : List Nat := (visits n start 0 n).filter live

theorem next_eq_head : next live n start = (turns live n start).head? := by
  rw [next, turns, List.head?_filter]

/-- The selection looks at the places of the circle only. -/
theorem next_congr {live' : Nat → Bool} (h : ∀ k, k < n → live' k = live k) :
    next live' n start = next live n start := by
  have hturns : turns live' n start = turns live n start := by
    rw [turns, turns, visits_eq_rotate]
    exact List.filter_congr fun k hk => h k (by simpa using hk)
  rw [next_eq_head, hturns, next_eq_head]

/-- A turn meets every live place once. -/
theorem turns_perm : (turns live n start).Perm ((List.range n).filter live) := by
  rw [turns, visits_eq_rotate]
  exact (List.rotate_perm _ _).filter _

/-- Behind a selected place, the turn meets that place last. -/
theorem turns_behind {rest : List Nat} (h : turns live n start = k :: rest) :
    turns live n ((k + 1) % n) = rest ++ [k] := by
  rw [turns, visits_eq_rotate] at h ⊢
  obtain ⟨dead, tail, hsplit, hdead, hk, htail⟩ := List.filter_eq_cons_iff.mp h
  have hplace : k = (dead.length + start) % n := by
    have hlen : dead.length < ((List.range n).rotate start).length := by simp [hsplit]
    have hget : ((List.range n).rotate start)[dead.length] = k := by simp [hsplit]
    rw [← hget, List.getElem_rotate, List.getElem_range, List.length_range]
  have hrot : (List.range n).rotate ((k + 1) % n) = tail ++ (dead ++ [k]) := by
    have hmod : (k + 1) % n = (start + (dead ++ [k]).length) % (List.range n).length := by
      rw [List.length_range, hplace, List.length_append, List.length_singleton, Nat.mod_add_mod,
        Nat.add_comm dead.length, Nat.add_assoc]
    rw [hmod, List.rotate_mod, ← List.rotate_rotate, hsplit,
      show dead ++ k :: tail = (dead ++ [k]) ++ tail by simp, List.rotate_append_length_eq]
  rw [hrot, List.filter_append, htail, List.filter_append,
    List.filter_eq_nil_iff.mpr hdead, List.nil_append, List.filter_singleton, hk]
  rfl

/-- Successive selections, the turn moving behind each of them. -/
def picks (live : Nat → Bool) (n : Nat) : Nat → Nat → List Nat
  | _, 0 => []
  | start, m + 1 =>
    match next live n start with
    | none => []
    | some k => k :: picks live n ((k + 1) % n) m

theorem picks_length_le (m : Nat) : (picks live n start m).length ≤ m := by
  induction m generalizing start with
  | zero => exact Nat.le_refl 0
  | succ m ih =>
      rw [picks]
      split
      · exact Nat.zero_le _
      · exact Nat.succ_le_succ ih

/-- Selections go through the turn in order. -/
theorem picks_turns {xs ys : List Nat} (h : turns live n start = xs ++ ys) (m : Nat) :
    ∃ start', picks live n start (xs.length + m) = xs ++ picks live n start' m ∧
      turns live n start' = ys ++ xs := by
  induction xs generalizing start ys with
  | nil => exact ⟨start, by simp, by simpa using h⟩
  | cons k xs ih =>
      have hnext : next live n start = some k := by rw [next_eq_head, h]; rfl
      have hbehind : turns live n ((k + 1) % n) = xs ++ ys ++ [k] := turns_behind h
      rw [List.append_assoc] at hbehind
      obtain ⟨start', hp, ht⟩ := ih hbehind
      refine ⟨start', ?_, by simpa using ht⟩
      rw [List.length_cons, Nat.add_right_comm, picks, hnext, List.cons_append]
      exact congrArg (k :: ·) hp

/-- As many successive selections as there are live places choose each of them once,
wherever one begins to count. -/
theorem picks_fair {m d : Nat}
    (h : d + ((List.range n).filter live).length ≤ (picks live n start m).length) :
    (((picks live n start m).drop d).take ((List.range n).filter live).length).Perm
      ((List.range n).filter live) := by
  induction d generalizing start m with
  | zero =>
      have hle := h.trans (picks_length_le m)
      have hperm : (turns live n start).Perm ((List.range n).filter live) := turns_perm
      obtain ⟨m, rfl⟩ := Nat.exists_eq_add_of_le hle
      have hwhole : turns live n start = turns live n start ++ [] := (List.append_nil _).symm
      obtain ⟨start', hp, -⟩ := picks_turns hwhole m
      rw [Nat.zero_add, ← hperm.length_eq, hp, List.drop_zero, List.take_left]
      exact hperm
  | succ d ih =>
      cases m with
      | zero => simp [picks] at h
      | succ m =>
          rw [picks] at h ⊢
          cases hn : next live n start with
          | none => simp [hn] at h
          | some k =>
              simp only [hn, List.length_cons, List.drop_succ_cons] at h ⊢
              exact ih (by omega)

end RoundRobin
