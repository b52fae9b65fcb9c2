import GridAccess.Formula.Marked

set_option autoImplicit false

/-!
# Sheets

A sheet collects the axes that are marked while the formula of one dimension is written, perhaps
in several attempts. Taking the dimension off clears the sheet.
-/

namespace GridAccess

/-- What is known of one index of an access: its formula and the axes it depends on. -/
structure Dimension where
  formula : String
  axes : AxisSet
deriving DecidableEq, Repr

/-- The axes marked since the last dimension was taken off. -/
structure Sheet where
  axes : AxisSet := AxisSet.empty
deriving DecidableEq, Repr

namespace Sheet

/-- The sheet after a formula has been written on it, or given up. -/
def write {α : Type} (s : Sheet) (w : Marked α) : Sheet := { axes := s.axes.union w.axes }

/-- The dimension with this formula and the marks on the sheet. -/
def dimension (s : Sheet) (formula : String) : Dimension := { formula := formula, axes := s.axes }

/-- That dimension, and the sheet cleared for the next one. -/
def take (s : Sheet) (formula : String) : Dimension × Sheet := (s.dimension formula, {})

end Sheet

end GridAccess
