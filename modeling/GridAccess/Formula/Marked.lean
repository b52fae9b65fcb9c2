import GridAccess.Evolution.Stride
import GridAccess.Grid.Axis

set_option autoImplicit false

/-!
# Formulas with marks

Writing a formula marks the grid axes of the index registers it meets. The marks made before a
failure stay.
-/

namespace GridAccess

/-- A result or the reason there is none, and the axes marked on the way. -/
structure Marked (α : Type) where
  result : Except (Failure AnalysisError) α
  axes : AxisSet := AxisSet.empty

namespace Marked

variable {α β : Type}

/-- A result that marks nothing. -/
protected def pure (a : α) : Marked α := { result := .ok a }

/-- The second computation with the result of the first, and the marks of both. -/
protected def bind (m : Marked α) (f : α → Marked β) : Marked β :=
  match m.result with
  | .ok a =>
    let n := f a
    { result := n.result, axes := m.axes.union n.axes }
  | .error e => { result := .error e, axes := m.axes }

instance : Monad Marked where
  pure := Marked.pure
  bind := Marked.bind

/-- A failure that is reported. -/
def refuse (e : AnalysisError) : Marked α := { result := .error (.reported e) }

/-- An expression of a kind that has no formula. -/
def unsupported (kind detail : String) : Marked α := refuse (.unsupported kind detail)

/-- A computation that can only be stopped by faults. -/
def lift (r : Except Fault α) : Marked α := { result := Failure.lift r }

/-- A result that marks axes. -/
def marking (s : AxisSet) (a : α) : Marked α := { result := .ok a, axes := s }

end Marked

end GridAccess
