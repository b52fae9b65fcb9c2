set_option autoImplicit false

/-!
# Axes of the launch grid
-/

namespace GridAccess

/-- An axis of the launch grid. -/
inductive Axis where
  | x | y | z
deriving DecidableEq, Repr, Inhabited

namespace Axis

/-- All axes, in order. -/
def all : List Axis := [x, y, z]

/-- The number of an axis. -/
def index : Axis → Nat
  | x => 0
  | y => 1
  | z => 2

/-- The axis of a number. -/
def ofIndex? : Nat → Option Axis
  | 0 => some x
  | 1 => some y
  | 2 => some z
  | _ => none

/-- The name of an axis. -/
def text : Axis → String
  | x => "x"
  | y => "y"
  | z => "z"

/-- The name of an axis in capitals. -/
def title : Axis → String
  | x => "X"
  | y => "Y"
  | z => "Z"

end Axis

/-- A set of axes. -/
structure AxisSet where
  x : Bool := false
  y : Bool := false
  z : Bool := false
deriving DecidableEq, Repr, Inhabited

namespace AxisSet

/-- The set without axes. -/
def empty : AxisSet := {}

/-- The set of one axis. -/
def single : Axis → AxisSet
  | .x => { x := true }
  | .y => { y := true }
  | .z => { z := true }

/-- The axes of either set. -/
def union (s t : AxisSet) : AxisSet := ⟨s.x || t.x, s.y || t.y, s.z || t.z⟩

/-- The axis is in the set. -/
def contains (s : AxisSet) : Axis → Bool
  | .x => s.x
  | .y => s.y
  | .z => s.z

/-- Every axis of `s` is in `t`. -/
def subset (s t : AxisSet) : Bool := Axis.all.all fun a => !s.contains a || t.contains a

/-- The axes of the set, in order. -/
def axes (s : AxisSet) : List Axis := Axis.all.filter s.contains

/-- The text of a set. -/
def text (s : AxisSet) : String :=
  "\x7b" ++ String.intercalate "," (s.axes.map Axis.title) ++ "\x7d"

@[simp]
theorem empty_union (s : AxisSet) : union empty s = s := by
  cases s; simp [union, empty]

@[simp]
theorem union_empty (s : AxisSet) : union s empty = s := by
  cases s; simp [union, empty]

theorem union_assoc (s t u : AxisSet) : union (union s t) u = union s (union t u) := by
  simp [union, Bool.or_assoc]

@[simp]
theorem contains_empty (a : Axis) : empty.contains a = false := by
  cases a <;> rfl

@[simp]
theorem contains_union (s t : AxisSet) (a : Axis) :
    (union s t).contains a = (s.contains a || t.contains a) := by
  cases a <;> rfl

end AxisSet

end GridAccess
