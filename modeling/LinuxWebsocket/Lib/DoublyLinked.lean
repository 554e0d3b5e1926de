import Mathlib.Data.List.Nodup
import Mathlib.Logic.Function.Basic
import Mathlib.Tactic.Common

/-!
# Doubly linked segments

A segment is a list of nodes threaded both ways by two link functions, entered
from the node `b` before it and left into the node `a` after it; `none` is the
null link. Every pointer surgery is a cut at a seam, a redirection of one outer
link on each side of it, and a join.
-/

namespace DoublyLinked

variable {α : Type*}

/-- The nodes `xs` are threaded in this order between `b` and `a`. -/
def Linked (next prev : α → Option α) : Option α → List α → Option α → Prop
  | _, [], _ => True
  | b, x :: xs, a => prev x = b ∧ next x = xs.head?.or a ∧ Linked next prev (some x) xs a

variable {next prev next' prev' : α → Option α} {b a : Option α} {xs ys : List α} {x y p : α}

@[simp] theorem linked_nil : Linked next prev b [] a := trivial

@[simp] theorem linked_cons : Linked next prev b (x :: xs) a ↔
    prev x = b ∧ next x = xs.head?.or a ∧ Linked next prev (some x) xs a :=
  Iff.rfl

/-- A segment cut at a seam: each part is bounded by the other's nearest node. -/
theorem linked_append : Linked next prev b (xs ++ ys) a ↔
    Linked next prev b xs (ys.head?.or a) ∧ Linked next prev (xs.getLast?.or b) ys a := by
  induction xs generalizing b with
  | nil => simp
  | cons x xs ih =>
      have hl : (x :: xs).getLast?.or b = xs.getLast?.or (some x) := by
        cases xs.eq_nil_or_concat with
        | inl h => simp [h]
        | inr h =>
            obtain ⟨zs, z, rfl⟩ := h
            simp [List.getLast?_cons]
      rw [List.cons_append, linked_cons, ih, linked_cons, hl, List.head?_append, Option.or_assoc]
      tauto

/-- A segment seen at the seam after one of its nodes. -/
theorem linked_seam : Linked next prev b (xs ++ x :: y :: ys) a ↔
    Linked next prev b (xs ++ [x]) (some y) ∧ Linked next prev (some x) (y :: ys) a := by
  rw [show xs ++ x :: y :: ys = (xs ++ [x]) ++ y :: ys by simp, linked_append]
  simp

/-- Threading reads only the links of the segment's own nodes. -/
theorem Linked.congr (hn : ∀ x ∈ xs, next' x = next x) (hp : ∀ x ∈ xs, prev' x = prev x)
    (h : Linked next prev b xs a) : Linked next' prev' b xs a := by
  induction xs generalizing b with
  | nil => trivial
  | cons x xs ih =>
      obtain ⟨h1, h2, h3⟩ := h
      refine ⟨(hp x (List.mem_cons_self ..)).trans h1, (hn x (List.mem_cons_self ..)).trans h2,
        ih (fun y hy => hn y (List.mem_cons_of_mem _ hy))
          (fun y hy => hp y (List.mem_cons_of_mem _ hy)) h3⟩

/-- The forward link of a node with a successor in the segment. -/
theorem Linked.next_eq (h : Linked next prev b (xs ++ x :: ys) a) :
    next x = ys.head?.or a :=
  (linked_append.mp h).2.2.1

/-- The backward link of a node is its predecessor, or the node before the segment. -/
theorem Linked.prev_eq (h : Linked next prev b (xs ++ x :: ys) a) :
    prev x = xs.getLast?.or b :=
  (linked_append.mp h).2.1

section Surgery

variable [DecidableEq α]

/-- Redirecting the forward link of a foreign node leaves the segment threaded. -/
theorem Linked.update_next (hp : p ∉ xs) (q : Option α) (h : Linked next prev b xs a) :
    Linked (Function.update next p q) prev b xs a :=
  h.congr (fun x hx => Function.update_of_ne (fun he => hp (by rwa [he] at hx)) ..) fun _ _ => rfl

/-- Redirecting the backward link of a foreign node leaves the segment threaded. -/
theorem Linked.update_prev (hp : p ∉ xs) (q : Option α) (h : Linked next prev b xs a) :
    Linked next (Function.update prev p q) b xs a :=
  h.congr (fun _ _ => rfl) fun x hx => Function.update_of_ne (fun he => hp (by rwa [he] at hx)) ..

/-- The forward link of the last node decides what follows the segment. -/
theorem Linked.set_after (hn : (xs ++ [x]).Nodup) (h : Linked next prev b (xs ++ [x]) a)
    (q : Option α) : Linked (Function.update next x q) prev b (xs ++ [x]) q := by
  have hx : x ∉ xs := fun hx => (List.nodup_append.mp hn).2.2 x hx x (List.mem_singleton_self x) rfl
  obtain ⟨h1, h2⟩ := linked_append.mp h
  refine linked_append.mpr ⟨?_, h2.1, ?_, trivial⟩
  · exact (h1.update_next hx q)
  · simp

/-- The backward link of the first node decides what precedes the segment. -/
theorem Linked.set_before (hn : (x :: xs).Nodup) (h : Linked next prev b (x :: xs) a)
    (q : Option α) : Linked next (Function.update prev x q) q (x :: xs) a := by
  obtain ⟨-, h2, h3⟩ := h
  exact ⟨Function.update_self .., h2, h3.update_prev (List.nodup_cons.mp hn).1 q⟩

/-- A foreign node is threaded in before the first node of a list. -/
theorem Linked.insert_first (hn : (p :: x :: xs).Nodup) (hb : prev p = none)
    (h : Linked next prev none (x :: xs) none) :
    Linked (Function.update next p (some x)) (Function.update prev x (some p)) none
      (p :: x :: xs) none := by
  obtain ⟨hp, hx⟩ := List.nodup_cons.mp hn
  have hne : p ≠ x := fun he => hp (by simp [he])
  refine ⟨?_, by simp, (h.set_before hx (some p)).update_next hp _⟩
  rw [Function.update_of_ne hne]
  exact hb

/-- A foreign node is threaded in between two neighbours. -/
theorem Linked.insert_between (hn : (xs ++ x :: y :: ys).Nodup) (hp : p ∉ xs ++ x :: y :: ys)
    (h : Linked next prev b (xs ++ x :: y :: ys) a) :
    Linked (Function.update (Function.update next p (some y)) x (some p))
      (Function.update (Function.update prev p (some x)) y (some p)) b
      (xs ++ x :: p :: y :: ys) a := by
  rw [show xs ++ x :: y :: ys = (xs ++ [x]) ++ y :: ys by simp] at hn
  obtain ⟨hl, hr, hd⟩ := List.nodup_append.mp hn
  obtain ⟨h1, h2⟩ := linked_seam.mp h
  have hpl : p ∉ xs ++ [x] := fun hm => hp (by simp at hm ⊢; tauto)
  have hpr : p ∉ y :: ys := fun hm => hp (by simp at hm ⊢; tauto)
  have hyl : y ∉ xs ++ [x] := fun hm => hd y hm y (List.mem_cons_self ..) rfl
  have hxr : x ∉ y :: ys := fun hm => hd x (by simp) x hm rfl
  have hpx : p ≠ x := fun he => hpl (by simp [he])
  have hpy : p ≠ y := fun he => hpr (by simp [he])
  refine linked_seam.mpr ⟨?_, ?_, ?_, ?_⟩
  · exact (((h1.update_next hpl _).set_after hl _).update_prev hpl _).update_prev hyl _
  · simp [Function.update_of_ne hpy]
  · simp [Function.update_of_ne hpx]
  · exact (((h2.update_prev hpr _).set_before hr _).update_next hpr _).update_next hxr _

/-- A foreign node is threaded in after the last node of a list. -/
theorem Linked.insert_last (hn : (xs ++ [x]).Nodup) (hp : p ∉ xs ++ [x])
    (h : Linked next prev b (xs ++ [x]) a) :
    Linked (Function.update (Function.update next x (some p)) p none)
      (Function.update prev p (some x)) b (xs ++ [x, p]) none := by
  have hpx : p ≠ x := fun he => hp (by simp [he])
  refine linked_seam.mpr ⟨?_, ?_, ?_, trivial⟩
  · exact ((h.set_after hn _).update_next hp _).update_prev hp _
  · simp
  · simp

/-- The first node of a list is threaded out. -/
theorem Linked.unlink_first (hn : (x :: xs).Nodup) (h : Linked next prev b (p :: x :: xs) a) :
    Linked next (Function.update prev x none) none (x :: xs) a :=
  h.2.2.set_before hn none

/-- The last node of a list is threaded out. -/
theorem Linked.unlink_last (hn : (xs ++ [x]).Nodup) (h : Linked next prev b (xs ++ [x, p]) a) :
    Linked (Function.update next x none) prev b (xs ++ [x]) none :=
  (linked_seam.mp h).1.set_after hn none

/-- A node is threaded out from between its two neighbours. -/
theorem Linked.unlink_between (hn : (xs ++ x :: y :: ys).Nodup)
    (h : Linked next prev b (xs ++ x :: p :: y :: ys) a) :
    Linked (Function.update next x (some y)) (Function.update prev y (some x)) b
      (xs ++ x :: y :: ys) a := by
  rw [show xs ++ x :: y :: ys = (xs ++ [x]) ++ y :: ys by simp] at hn
  obtain ⟨hl, hr, hd⟩ := List.nodup_append.mp hn
  obtain ⟨h1, h2⟩ := linked_seam.mp h
  have hyl : y ∉ xs ++ [x] := fun hm => hd y hm y (List.mem_cons_self ..) rfl
  have hxr : x ∉ y :: ys := fun hm => hd x (by simp) x hm rfl
  exact linked_seam.mpr ⟨(h1.set_after hl _).update_prev hyl _,
    (h2.2.2.set_before hr _).update_next hxr _⟩

end Surgery

end DoublyLinked
