set_option autoImplicit false

/-!
# Depth-first walks

A walk over the vertices of a graph, given by the neighbours of each vertex. A vertex is entered
once; when all its neighbours have been entered it is left. The neighbours of a vertex are tried
from the last to the first.

The depth of a walk is bounded by a number given with it. No walk enters more vertices than the
graph has, so that number is a bound that is never reached if it exceeds the number of vertices.
-/

namespace GridAccess

/-- The vertices entered and the vertices left so far, each with the latest first. -/
structure Walk where
  entered : List Nat := []
  left : List Nat := []
deriving DecidableEq, Repr, Inhabited

namespace Walk

/-- The walk after a visit to vertex `u`. -/
def visit (next : Nat → List Nat) : (depth : Nat) → Walk → Nat → Walk
  | 0, w, _ => w
  | depth + 1, w, u =>
    if w.entered.contains u then w
    else
      let below := (next u).foldr (fun v w => visit next depth w v)
        { w with entered := u :: w.entered }
      { below with left := u :: below.left }

/-- The walk from some vertices of a graph with `size` vertices, the last of them first. -/
def fromAll (next : Nat → List Nat) (size : Nat) (sources : List Nat) : Walk :=
  sources.foldr (fun v w => visit next (size + 1) w v) {}

/-- The vertices of the walk in the order in which they were left. -/
def postOrder (w : Walk) : List Nat := w.left.reverse

end Walk

end GridAccess
