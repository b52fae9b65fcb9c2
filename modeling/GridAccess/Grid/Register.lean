import GridAccess.Grid.Axis

set_option autoImplicit false

/-!
# Index registers

A kernel learns its place in the launch grid from special registers. A policy says which of them
mark an axis as one that an index depends on.
-/

namespace GridAccess

/-- What an index register holds. -/
inductive RegisterKind where
  | threadIndex | blockIndex | blockSize
deriving DecidableEq, Repr, Inhabited

/-- A register with one coordinate of the launch geometry. -/
structure Register where
  kind : RegisterKind
  axis : Axis
deriving DecidableEq, Repr, Inhabited

/-- The letters a register is written with in formulas. -/
def RegisterKind.text : RegisterKind → String
  | threadIndex => "t"
  | blockIndex => "b"
  | blockSize => "bsize"

/-- A register in a formula. -/
def Register.text (r : Register) : String := r.kind.text ++ "." ++ r.axis.text

/-- Which registers mark their axis. -/
inductive MarkPolicy where
  /-- Block indices only. -/
  | blockIndex
  /-- Block and thread indices. -/
  | anyIndex
deriving DecidableEq, Repr, Inhabited

/-- The axes a use of a register marks. -/
def MarkPolicy.marks (p : MarkPolicy) (r : Register) : AxisSet :=
  match p, r.kind with
  | _, .blockIndex => AxisSet.single r.axis
  | .anyIndex, .threadIndex => AxisSet.single r.axis
  | _, _ => AxisSet.empty

end GridAccess
