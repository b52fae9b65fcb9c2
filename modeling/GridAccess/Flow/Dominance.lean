import GridAccess.Flow.Cfg

set_option autoImplicit false

/-!
# Dominance

A block dominates another if control cannot reach the other without passing it. Among the blocks
that dominate a reachable block and differ from it there is one that all the others dominate: its
immediate dominator. A block that control never reaches is dominated by itself alone.
-/

namespace GridAccess

/-- The dominators of each block, in ascending order, and its immediate dominator. -/
structure DomTree where
  reachable : List Nat
  dominators : Array (List Nat)
  parents : Array (Option Nat)
deriving DecidableEq, Repr, Inhabited

namespace DomTree

/-- The dominators of a block. -/
def dominatorsOf (t : DomTree) (b : Nat) : List Nat := t.dominators[b]?.getD []

/-- `a` dominates `b`. -/
def dominates (t : DomTree) (a b : Nat) : Bool := (t.dominatorsOf b).contains a

/-- `a` dominates `b` and is another block. -/
def properlyDominates (t : DomTree) (a b : Nat) : Bool := a != b && t.dominates a b

/-- Control can reach the block. -/
def isReachable (t : DomTree) (b : Nat) : Bool := t.reachable.contains b

/-- The immediate dominator of a block. -/
def parent? (t : DomTree) (b : Nat) : Option Nat := t.parents[b]?.getD none

/-- The blocks whose immediate dominator is `b`, in ascending order. -/
def children (t : DomTree) (b : Nat) : List Nat :=
  (List.range t.parents.size).filter fun c => t.parent? c == some b

/-- The tree of the reachable blocks in depth-first postorder: a block comes after all that it
dominates. -/
def postOrder (t : DomTree) : List Nat :=
  (Walk.fromAll t.children t.parents.size (if t.parents.isEmpty then [] else [0])).postOrder

end DomTree

namespace Cfg

/-- The blocks that dominate `b`, of all `blocks`: those without which control does not reach
it. `avoiding` gives for each block what control reaches without it. -/
def dominatorsFrom (reachable : List Nat) (avoiding : Array (List Nat)) (blocks : List Nat)
    (b : Nat) : List Nat :=
  if reachable.contains b then
    blocks.filter fun a => a == b || !(avoiding[a]?.getD []).contains b
  else [b]

/-- The one among the proper dominators of `b` that all of them dominate. -/
def nearest (dominators : Array (List Nat)) (b : Nat) : Option Nat :=
  let proper := (dominators[b]?.getD []).filter (· != b)
  proper.find? fun d => proper.all fun a => (dominators[d]?.getD []).contains a

/-- The dominator tree of a graph. -/
def domTree (g : Cfg) : DomTree :=
  let reachable := g.reachable
  let avoiding := (g.blocks.map g.reachableAvoiding).toArray
  let dominators := (g.blocks.map (dominatorsFrom reachable avoiding g.blocks)).toArray
  { reachable := reachable
    dominators := dominators
    parents := (g.blocks.map (nearest dominators)).toArray }

end Cfg

end GridAccess
