import LinuxWebsocket.Lib.Machine
import Mathlib.Data.List.Infix
import Mathlib.Data.List.Nodup

/-!
# Total-order broadcast

Members of a group come and go. Whatever one of them posts is put at the end of one
log, and each member is shown what the others posted between its coming and its going,
in the order of the log. Two members therefore agree on the order of all that both are
shown, and a member is shown the posts of another one without gaps.
-/

namespace TotalOrder

variable {ι μ : Type}

/-- The log of a group, and where in it the members came and went. -/
structure Group (ι μ : Type) where
  log : List μ
  joined : ι → Option Nat
  left : ι → Option Nat

/-- What can happen to a group. -/
inductive Op (ι μ : Type)
  | join (i : ι)
  | leave (i : ι)
  | post (m : μ)

namespace Group

/-- A group that nobody has joined. -/
def empty : Group ι μ := ⟨[], fun _ => none, fun _ => none⟩

/-- The member has come and not gone. -/
def Present (g : Group ι μ) (i : ι) : Prop := (g.joined i).isSome ∧ g.left i = none

/-- The part of the log between a member's coming and its going. -/
def span (g : Group ι μ) (i : ι) : List μ :=
  match g.joined i, g.left i with
  | none, _ => []
  | some a, none => g.log.drop a
  | some a, some b => (g.log.take b).drop a

variable {g : Group ι μ} {i : ι}

/-- Marks lie in the log, and nobody goes before it has come. -/
structure Marked (g : Group ι μ) : Prop where
  joined : ∀ i, ∀ a ∈ g.joined i, a ≤ g.log.length
  left : ∀ i, ∀ b ∈ g.left i, b ≤ g.log.length ∧ ∃ a ∈ g.joined i, a ≤ b

/-- Nobody has gone that has not come. -/
theorem Marked.left_eq_none (h : g.Marked) (hi : g.joined i = none) : g.left i = none := by
  cases hl : g.left i with
  | none => rfl
  | some b =>
      obtain ⟨-, a, ha, -⟩ := h.left i b hl
      rw [hi] at ha
      cases ha

/-- Who is present, has the end of the log from its coming on. -/
theorem span_of_present {a : Nat} (hi : g.Present i) (ha : g.joined i = some a) :
    g.span i = g.log.drop a := by
  simp only [span, ha, hi.2]

variable [DecidableEq ι]

/-- What a member is shown. -/
def view (author : μ → ι) (g : Group ι μ) (i : ι) : List μ :=
  (g.span i).filter fun m => author m ≠ i

/-- What a member has posted. -/
def posts (author : μ → ι) (g : Group ι μ) (i : ι) : List μ :=
  g.log.filter fun m => author m = i

/-- What an operation makes of a group. -/
def apply (g : Group ι μ) : Op ι μ → Group ι μ
  | .join i => { g with joined := Function.update g.joined i (some g.log.length) }
  | .leave i => { g with left := Function.update g.left i (some g.log.length) }
  | .post m => { g with log := g.log ++ [m] }

/-- Members come once, go once, and post while they are there. -/
def Permits (author : μ → ι) (g : Group ι μ) : Op ι μ → Prop
  | .join i => g.joined i = none
  | .leave i => g.Present i
  | .post m => g.Present (author m)

end Group

variable [DecidableEq ι]

/-- Groups, started empty. -/
def group (author : μ → ι) : Machine (Group ι μ) (Op ι μ) Empty where
  init := .empty
  Allowed := Group.Permits author
  step g op := .ok (g.apply op)

namespace Group

variable {author : μ → ι} {g : Group ι μ} {i j : ι} {m : μ}

/-- Operations keep the marks in the log. -/
theorem Marked.apply (h : g.Marked) {op : Op ι μ} (hop : g.Permits author op) :
    (g.apply op).Marked := by
  cases op with
  | join i =>
      have hnew : g.joined i = none := hop
      refine ⟨fun d a ha => ?_, fun d b hb => ?_⟩
      · by_cases hd : d = i
        · subst d
          obtain rfl : g.log.length = a := by simpa [Group.apply] using ha
          exact le_rfl
        · exact h.joined d a (by simpa [Group.apply, hd] using ha)
      · obtain ⟨hlen, a, ha, hab⟩ := h.left d b hb
        have hd : d ≠ i := by
          rintro rfl
          rw [hnew] at ha
          cases ha
        exact ⟨hlen, a, by simpa [Group.apply, hd] using ha, hab⟩
  | leave i =>
      have hi : g.Present i := hop
      refine ⟨h.joined, fun d b hb => ?_⟩
      by_cases hd : d = i
      · subst d
        obtain rfl : g.log.length = b := by simpa [Group.apply] using hb
        obtain ⟨a, ha⟩ := Option.isSome_iff_exists.mp hi.1
        exact ⟨le_rfl, a, ha, h.joined _ a ha⟩
      · exact h.left d b (by simpa [Group.apply, hd] using hb)
  | post m =>
      have hlen : g.log.length ≤ (g.log ++ [m]).length := by simp
      exact ⟨fun d a ha => (h.joined d a ha).trans hlen,
        fun d b hb => ⟨(h.left d b hb).1.trans hlen, (h.left d b hb).2⟩⟩

/-- Somebody's coming shows nobody anything, the newcomer included. -/
theorem view_join (hm : g.Marked) (hi : g.joined i = none) (d : ι) :
    (g.apply (.join i)).view author d = g.view author d := by
  by_cases hd : d = i
  · subst d
    simp [view, span, Group.apply, hi, hm.left_eq_none hi]
  · simp [view, span, Group.apply, hd]

/-- Somebody's going leaves everything shown as it is. -/
theorem view_leave (hi : g.Present i) (d : ι) :
    (g.apply (.leave i)).view author d = g.view author d := by
  by_cases hd : d = i
  · subst d
    obtain ⟨a, ha⟩ := Option.isSome_iff_exists.mp hi.1
    simp [view, span, Group.apply, ha, hi.2]
  · simp [view, span, Group.apply, hd]

/-- A post is shown to the members present, but for its author. -/
theorem view_post (hm : g.Marked) (hi : g.Present i) :
    (g.apply (.post m)).view author i = g.view author i ++ [m].filter fun m => author m ≠ i := by
  obtain ⟨a, ha⟩ := Option.isSome_iff_exists.mp hi.1
  have hspan : (g.apply (.post m)).span i = g.span i ++ [m] := by
    rw [span_of_present hi ha, span_of_present (g := g.apply (.post m)) hi ha]
    exact List.drop_append_of_le_length (hm.joined i a ha)
  rw [view, hspan, List.filter_append]
  rfl

/-- It is not shown to anybody else. -/
theorem view_post_of_not (hm : g.Marked) (hi : ¬g.Present i) :
    (g.apply (.post m)).view author i = g.view author i := by
  cases ha : g.joined i with
  | none => simp [view, span, Group.apply, ha]
  | some a =>
      cases hb : g.left i with
      | none => exact absurd ⟨by simp [ha], hb⟩ hi
      | some b =>
          simp [view, span, Group.apply, ha, hb,
            List.take_append_of_le_length (hm.left i b hb).1]

/-- A post is added to those of its author. -/
theorem posts_post (d : ι) : (g.apply (.post m)).posts author d =
    g.posts author d ++ [m].filter fun m => author m = d :=
  List.filter_append ..

end Group

end TotalOrder
