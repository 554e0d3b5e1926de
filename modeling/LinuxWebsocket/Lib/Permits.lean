import LinuxWebsocket.Lib.Machine
import Mathlib.Algebra.BigOperators.Group.Finset.Basic
import Mathlib.Algebra.BigOperators.Group.Finset.Piecewise
import Mathlib.Algebra.Order.BigOperators.Group.Finset
import Mathlib.Data.Finset.Max
import Mathlib.Data.Fintype.BigOperators

/-!
# Permits

Mutexes and semaphores as permits, of which there is a fixed number of each kind. A thread takes
a permit when one is free, and gives it back. What is free and what is held always add up. A
thread that waits, waits for one that holds a permit or has still to end; if these are ordered
by what the threads do next, no state is stuck.
-/

/-- The permits of each kind: free, or held by a thread. -/
structure Permits (θ ρ : Type*) [Fintype θ] (cap : ρ → Nat) where
  free : ρ → Nat
  held : θ → ρ → Nat
  /-- Permits are neither made nor lost. -/
  account : ∀ r, free r + ∑ t, held t r = cap r

namespace Permits

variable {θ ρ : Type*} [Fintype θ] {cap : ρ → Nat}

/-- All are free. -/
def full : Permits θ ρ cap where
  free := cap
  held := fun _ _ => 0
  account _ := by simp

variable {p : Permits θ ρ cap} {t u : θ} {r : ρ}

/-- Of the only permit there is one holder. -/
theorem exclusive (hcap : cap r = 1) (ht : 0 < p.held t r) (hu : 0 < p.held u r) : t = u := by
  classical
  by_contra hne
  have hsum := Finset.add_le_sum (fun v _ => Nat.zero_le (p.held v r)) (Finset.mem_univ t)
    (Finset.mem_univ u) hne
  have haccount := p.account r
  omega

/-- A permit that is not free is held by someone. -/
theorem exists_holder (hcap : 0 < cap r) (hfree : p.free r = 0) : ∃ t, 0 < p.held t r := by
  by_contra hno
  push Not at hno
  have haccount := p.account r
  rw [Finset.sum_eq_zero fun t _ => Nat.le_zero.mp (hno t)] at haccount
  omega

/-- The only permit is not free while it is held. -/
theorem free_of_held (hcap : cap r = 1) (ht : 0 < p.held t r) : p.free r = 0 := by
  have hsum := Finset.single_le_sum (fun u _ => Nat.zero_le (p.held u r)) (Finset.mem_univ t)
  have haccount := p.account r
  omega

variable [DecidableEq θ] [DecidableEq ρ]

/-- One permit in one thread's hand. -/
def one (t : θ) (r : ρ) (u : θ) (q : ρ) : Nat := if u = t ∧ q = r then 1 else 0

theorem sum_one (t : θ) (r q : ρ) : ∑ u, one t r u q = if q = r then 1 else 0 := by
  by_cases hq : q = r <;> simp [one, hq]

/-- A thread takes a free permit. -/
def take (p : Permits θ ρ cap) (t : θ) (r : ρ) (h : 0 < p.free r) : Permits θ ρ cap where
  free q := p.free q - if q = r then 1 else 0
  held u q := p.held u q + one t r u q
  account q := by
    have haccount := p.account q
    rw [Finset.sum_add_distrib, sum_one]
    by_cases hq : q = r
    · subst hq
      simp only [if_true]
      omega
    · simp only [hq, if_false]
      omega

/-- A thread gives a permit back. -/
def give (p : Permits θ ρ cap) (t : θ) (r : ρ) (h : 0 < p.held t r) : Permits θ ρ cap where
  free q := p.free q + if q = r then 1 else 0
  held u q := p.held u q - one t r u q
  account q := by
    have hle (u : θ) : one t r u q ≤ p.held u q := by
      unfold one
      split
      · rename_i hu
        obtain ⟨rfl, rfl⟩ := hu
        exact h
      · exact Nat.zero_le _
    have hsum : ∑ u, (p.held u q - one t r u q) + ∑ u, one t r u q = ∑ u, p.held u q := by
      rw [← Finset.sum_add_distrib]
      exact Finset.sum_congr rfl fun u _ => Nat.sub_add_cancel (hle u)
    have haccount := p.account q
    rw [sum_one] at hsum
    omega

/-- A thread ends, and what it holds is given back for it. -/
def drop (p : Permits θ ρ cap) (t : θ) : Permits θ ρ cap where
  free q := p.free q + p.held t q
  held := Function.update p.held t fun _ => 0
  account q := by
    have haccount := p.account q
    have hall := Finset.add_sum_erase Finset.univ (fun u => p.held u q) (Finset.mem_univ t)
    have hrest := Finset.add_sum_erase Finset.univ
      (fun u => Function.update p.held t (fun _ => 0) u q) (Finset.mem_univ t)
    have hsame : ∑ u ∈ Finset.univ.erase t, Function.update p.held t (fun _ => 0) u q =
        ∑ u ∈ Finset.univ.erase t, p.held u q :=
      Finset.sum_congr rfl fun u hu => by rw [Function.update_of_ne (Finset.ne_of_mem_erase hu)]
    simp only [Function.update_self] at hrest
    omega

end Permits
