import Mathlib.Logic.Function.Basic

/-!
# Faults of the modelled programs

The programs are C++: a step that follows a bad pointer, indexes past an array
or never ends has no defined result. Each of these is an error of the step.
-/

namespace LinuxWebsocket

/-- The ways a step can leave defined behaviour. -/
inductive Fault
  /-- A null pointer is followed. -/
  | null
  /-- A pointer to released memory is followed. -/
  | freed
  /-- An array is indexed outside its bounds. -/
  | outOfRange
  /-- A loop never ends. -/
  | diverges
  deriving DecidableEq, Repr

/-- A computation goes on with the result of a part that did not fault. -/
@[simp] theorem ok_bind {α β : Type} (a : α) (f : α → Except Fault β) :
    (Except.ok a >>= f) = f a := rfl

/-- A fault ends the computation. -/
@[simp] theorem error_bind {α β : Type} (x : Fault) (f : α → Except Fault β) :
    ((Except.error x : Except Fault α) >>= f) = .error x := rfl

end LinuxWebsocket
