import Mathlib.Data.List.Basic
import Mathlib.Data.List.Induction
import Mathlib.Tactic.Common

/-!
# Machines driven by their environment

A machine is a program together with what its environment may do to it next. A
step either yields the next state or stops in a fault of the program. Invariants
are proved on one step and carried along whole runs by the rules below; a
condition on steps is exact when it decides, at every step, whether the wanted
property survives.
-/

/-- A program whose next step is chosen by its environment. -/
structure Machine (σ ε φ : Type*) where
  /-- The state before the first step. -/
  init : σ
  /-- What the environment may do in a state. -/
  Allowed : σ → ε → Prop
  /-- What the program does about it; an error is a fault of the program. -/
  step : σ → ε → Except φ σ

namespace Machine

variable {σ ε φ τ δ ψ : Type*}

/-- The states reached without a fault, with the events so far, oldest first. -/
inductive Run (M : Machine σ ε φ) : List ε → σ → Prop
  | nil : Run M [] M.init
  | snoc {es : List ε} {s t : σ} {e : ε} : Run M es s → M.Allowed s e → M.step s e = .ok t →
      Run M (es ++ [e]) t

/-- What holds at first and survives every allowed step holds in every run. -/
theorem Run.invariant {M : Machine σ ε φ} {I : σ → Prop} (hinit : I M.init)
    (hstep : ∀ s e t, I s → M.Allowed s e → M.step s e = .ok t → I t)
    {es : List ε} {s : σ} (h : M.Run es s) : I s := by
  induction h with
  | nil => exact hinit
  | snoc _ ha hs ih => exact hstep _ _ _ ih ha hs

/-- The same program in an environment that also keeps to the condition `C`. -/
def restrict (M : Machine σ ε φ) (C : σ → ε → Prop) : Machine σ ε φ where
  init := M.init
  Allowed s e := M.Allowed s e ∧ C s e
  step := M.step

/-- `P` holds of every step that executing `es` from a state attempts. -/
def Along (M : Machine σ ε φ) (P : σ → ε → Prop) : σ → List ε → Prop
  | _, [] => True
  | s, e :: es => P s e ∧ ∀ t, M.step s e = .ok t → Along M P t es

@[simp] theorem along_nil (M : Machine σ ε φ) (P : σ → ε → Prop) (s : σ) : M.Along P s [] :=
  trivial

@[simp] theorem along_cons (M : Machine σ ε φ) (P : σ → ε → Prop) (s : σ) (e : ε) (es : List ε) :
    M.Along P s (e :: es) ↔ P s e ∧ ∀ t, M.step s e = .ok t → M.Along P t es :=
  Iff.rfl

/-- Executing events in order from a state. -/
def exec (M : Machine σ ε φ) : σ → List ε → Except φ σ
  | s, [] => .ok s
  | s, e :: es => match M.step s e with
    | .error x => .error x
    | .ok t => M.exec t es

private theorem Run.append {M : Machine σ ε φ} {es fs : List ε} {s t : σ} (h : M.Run es s)
    (ha : M.Along M.Allowed s fs) (ht : M.exec s fs = .ok t) : M.Run (es ++ fs) t := by
  induction fs generalizing es s with
  | nil =>
      obtain rfl : s = t := by simpa [exec] using ht
      simpa using h
  | cons f fs ih =>
      rw [exec] at ht
      cases hf : M.step s f with
      | error x => simp [hf] at ht
      | ok u =>
          have hr := ih (h.snoc ha.1 hf) (ha.2 u hf) (by simpa [hf] using ht)
          simpa using hr

/-- An execution the environment allows throughout is a run. -/
theorem Run.of_exec {M : Machine σ ε φ} (es : List ε) {s : σ}
    (ha : M.Along M.Allowed M.init es) (hs : M.exec M.init es = .ok s) : M.Run es s :=
  Run.nil.append ha hs

/-- The same, for an execution of which only a part of the last state is known. -/
theorem Run.of_exec_map {M : Machine σ ε φ} {f : σ → τ} {x : τ} (es : List ε)
    (ha : M.Along M.Allowed M.init es) (hs : (M.exec M.init es).map f = .ok x) :
    ∃ s, M.Run es s ∧ f s = x := by
  cases he : M.exec M.init es with
  | error y => simp [he, Except.map] at hs
  | ok s =>
      rw [he] at hs
      exact ⟨s, Run.of_exec es ha he, Except.ok.inj hs⟩

/-- A property that can be checked at each step can be checked along an execution. -/
instance decidableAlong (M : Machine σ ε φ) (P : σ → ε → Prop) [∀ s e, Decidable (P s e)] :
    ∀ s es, Decidable (M.Along P s es)
  | _, [] => isTrue trivial
  | s, e :: es =>
    match h : M.step s e with
    | .error _ => decidable_of_iff (P s e) (by simp [h])
    | .ok t =>
      have := decidableAlong M P t es
      decidable_of_iff (P s e ∧ M.Along P t es) (by simp [h])

/-- A step condition `C` that decides, under an invariant it preserves, whether
a step has the property `Q` decides it for all the steps of an execution. -/
theorem along_iff {M : Machine σ ε φ} {I : σ → Prop} {Q C : σ → ε → Prop}
    (hexact : ∀ s e, I s → M.Allowed s e → (Q s e ↔ C s e))
    (hstep : ∀ s e t, I s → M.Allowed s e → C s e → M.step s e = .ok t → I t)
    {s : σ} (hs : I s) {es : List ε} (ha : M.Along M.Allowed s es) :
    M.Along Q s es ↔ M.Along C s es := by
  induction es generalizing s with
  | nil => simp only [along_nil]
  | cons e es ih =>
      obtain ⟨hallowed, hrest⟩ := ha
      rw [along_cons, along_cons, hexact s e hs hallowed]
      constructor
      · rintro ⟨hc, ht⟩
        exact ⟨hc, fun t he => (ih (hstep s e t hs hallowed hc he) (hrest t he)).mp (ht t he)⟩
      · rintro ⟨hc, ht⟩
        exact ⟨hc, fun t he => (ih (hstep s e t hs hallowed hc he) (hrest t he)).mpr (ht t he)⟩

/-- Runs project along a view under which every step is a step or a stutter. -/
theorem Run.project {M : Machine σ ε φ} {N : Machine τ δ ψ} (view : σ → τ)
    (hinit : view M.init = N.init)
    (hstep : ∀ s e t, M.Allowed s e → M.step s e = .ok t →
      view t = view s ∨ ∃ d, N.Allowed (view s) d ∧ N.step (view s) d = .ok (view t))
    {es : List ε} {s : σ} (h : M.Run es s) : ∃ ds, N.Run ds (view s) := by
  induction h with
  | nil => exact ⟨[], hinit ▸ Run.nil⟩
  | snoc _ ha hs ih =>
      obtain ⟨ds, hd⟩ := ih
      rcases hstep _ _ _ ha hs with he | ⟨d, hda, hds⟩
      · exact ⟨ds, he ▸ hd⟩
      · exact ⟨ds ++ [d], hd.snoc hda hds⟩

/-- The same program and environment, from another state on. -/
def startAt (M : Machine σ ε φ) (s : σ) : Machine σ ε φ where
  init := s
  Allowed := M.Allowed
  step := M.step

/-- A run in a narrower environment is a run. -/
theorem Run.of_restrict {M : Machine σ ε φ} {C : σ → ε → Prop} {es : List ε} {s : σ}
    (h : (M.restrict C).Run es s) : M.Run es s := by
  induction h with
  | nil => exact Run.nil
  | snoc _ ha hs ih => exact ih.snoc ha.1 hs

/-- A run from the last state of a run continues it. -/
theorem Run.trans {M : Machine σ ε φ} {es fs : List ε} {s t : σ} (h : M.Run es s)
    (h' : (M.startAt s).Run fs t) : M.Run (es ++ fs) t := by
  induction h' with
  | nil =>
      rw [List.append_nil]
      exact h
  | snoc _ ha hs ih =>
      rw [← List.append_assoc]
      exact ih.snoc ha hs

private theorem exec_append {M : Machine σ ε φ} {es fs : List ε} {s t : σ}
    (h : M.exec s es = .ok t) : M.exec s (es ++ fs) = M.exec t fs := by
  induction es generalizing s with
  | nil =>
      obtain rfl : s = t := by simpa [exec] using h
      rfl
  | cons e es ih =>
      rw [List.cons_append, exec]
      rw [exec] at h
      cases he : M.step s e with
      | error x => simp [he] at h
      | ok u =>
          rw [he] at h
          exact ih h

/-- Executing the events of a run ends where the run does. -/
theorem Run.exec_eq {M : Machine σ ε φ} {es : List ε} {s : σ} (h : M.Run es s) :
    M.exec M.init es = .ok s := by
  induction h with
  | nil => rfl
  | snoc _ _ hs ih =>
      rw [exec_append ih]
      simp only [exec, hs]

/-- The same events lead to the same state. -/
theorem Run.unique {M : Machine σ ε φ} {es : List ε} {s t : σ} (h : M.Run es s)
    (h' : M.Run es t) : s = t :=
  Except.ok.inj (h.exec_eq.symm.trans h'.exec_eq)

/-- Runs of two machines side by side: each step of the first one is a step of the second one
or none, and at every moment the two states are related. -/
inductive Alongside (M : Machine σ ε φ) (N : Machine τ δ ψ) (R : σ → τ → Prop) :
    List ε → σ → List δ → τ → Prop
  | nil : R M.init N.init → Alongside M N R [] M.init [] N.init
  | stutter {es : List ε} {s t : σ} {e : ε} {ds : List δ} {a : τ} :
    Alongside M N R es s ds a → M.Allowed s e → M.step s e = .ok t → R t a →
      Alongside M N R (es ++ [e]) t ds a
  | snoc {es : List ε} {s t : σ} {e : ε} {ds : List δ} {a b : τ} {d : δ} :
    Alongside M N R es s ds a → M.Allowed s e → M.step s e = .ok t → N.Allowed a d →
      N.step a d = .ok b → R t b → Alongside M N R (es ++ [e]) t (ds ++ [d]) b

/-- At the end, too. -/
theorem Alongside.related {M : Machine σ ε φ} {N : Machine τ δ ψ} {R : σ → τ → Prop}
    {es : List ε} {s : σ} {ds : List δ} {a : τ} (h : M.Alongside N R es s ds a) : R s a := by
  cases h with
  | nil hR => exact hR
  | stutter _ _ _ hR => exact hR
  | snoc _ _ _ _ _ hR => exact hR

/-- The second one is a run by itself. -/
theorem Alongside.run {M : Machine σ ε φ} {N : Machine τ δ ψ} {R : σ → τ → Prop}
    {es : List ε} {s : σ} {ds : List δ} {a : τ} (h : M.Alongside N R es s ds a) : N.Run ds a := by
  induction h with
  | nil => exact Run.nil
  | stutter _ _ _ _ ih => exact ih
  | snoc _ _ _ ha hs _ ih => exact ih.snoc ha hs

/-- The runs are side by side up to any moment, and the second one goes on from there. -/
theorem Alongside.split {M : Machine σ ε φ} {N : Machine τ δ ψ} {R : σ → τ → Prop}
    {es fs : List ε} {t : σ} {ds : List δ} {b : τ} (h : M.Alongside N R (es ++ fs) t ds b) :
    ∃ s ds₁ a ds₂, M.Alongside N R es s ds₁ a ∧ (N.startAt a).Run ds₂ b := by
  induction fs using List.reverseRecOn generalizing t ds b with
  | nil => exact ⟨t, ds, b, [], by simpa using h, Run.nil⟩
  | append_singleton fs e ih =>
      rw [← List.append_assoc] at h
      generalize hx : es ++ fs ++ [e] = xs at h
      cases h with
      | nil => simp at hx
      | stutter hbefore =>
          obtain ⟨rfl, -⟩ := List.append_inj' hx rfl
          exact ih hbefore
      | snoc hbefore _ _ hb hd =>
          obtain ⟨rfl, -⟩ := List.append_inj' hx rfl
          obtain ⟨s, ds₁, a, ds₂, hs, hrun⟩ := ih hbefore
          exact ⟨s, ds₁, a, _, hs, hrun.snoc hb hd⟩

/-- Less may be said of the two states. -/
theorem Alongside.mono {M : Machine σ ε φ} {N : Machine τ δ ψ} {R R' : σ → τ → Prop}
    (hR : ∀ s a, R s a → R' s a) {es : List ε} {s : σ} {ds : List δ} {a : τ}
    (h : M.Alongside N R es s ds a) : M.Alongside N R' es s ds a := by
  induction h with
  | nil h0 => exact .nil (hR _ _ h0)
  | stutter _ ha hs h' ih => exact ih.stutter ha hs (hR _ _ h')
  | snoc _ ha hs hb hd h' ih => exact ih.snoc ha hs hb hd (hR _ _ h')

/-- Forward simulation: where every step from related states is matched by a step or a
stutter, a run has another one alongside it. -/
theorem Run.simulate {M : Machine σ ε φ} {N : Machine τ δ ψ} (R : σ → τ → Prop)
    (hinit : R M.init N.init)
    (hstep : ∀ s a e t, R s a → M.Allowed s e → M.step s e = .ok t →
      R t a ∨ ∃ d b, N.Allowed a d ∧ N.step a d = .ok b ∧ R t b)
    {es : List ε} {s : σ} (h : M.Run es s) : ∃ ds a, M.Alongside N R es s ds a := by
  induction h with
  | nil => exact ⟨[], N.init, .nil hinit⟩
  | snoc _ ha hs ih =>
      obtain ⟨ds, a, hr⟩ := ih
      rcases hstep _ _ _ _ hr.related ha hs with hR | ⟨d, b, hb, hd, hR⟩
      · exact ⟨ds, a, hr.stutter ha hs hR⟩
      · exact ⟨ds ++ [d], b, hr.snoc ha hs hb hd hR⟩

end Machine
