import GridAccess.Flow.Walk
import GridAccess.IR.Function

set_option autoImplicit false

/-!
# Control flow

The blocks of a function as a graph, entered at block 0. An edge goes from a block to each
target of the branch that ends it.
-/

namespace GridAccess

/-- A control-flow graph: the successors and the predecessors of each block. -/
structure Cfg where
  succs : Array (List Nat)
  preds : Array (List Nat)
deriving DecidableEq, Repr, Inhabited

namespace Cfg

/-- The graph of `size` blocks with edges to the given targets. Successors keep the order of the
targets, each once; predecessors are in ascending order. A target that is no block gives no
edge. -/
def ofTargets (size : Nat) (targets : Nat → List Nat) : Cfg :=
  let succ (b : Nat) : List Nat := ((targets b).filter (· < size)).eraseDups
  let blocks := List.range size
  { succs := (blocks.map succ).toArray
    preds := (blocks.map fun t => blocks.filter fun b => (succ b).contains t).toArray }

/-- The number of blocks. -/
def size (g : Cfg) : Nat := g.succs.size

/-- The blocks, in ascending order. -/
def blocks (g : Cfg) : List Nat := List.range g.size

/-- The blocks control may go to from a block. -/
def successors (g : Cfg) (b : Nat) : List Nat := g.succs[b]?.getD []

/-- The blocks control may come from to a block. -/
def predecessors (g : Cfg) (b : Nat) : List Nat := g.preds[b]?.getD []

/-- The block control enters at, if there are blocks. -/
def entry (g : Cfg) : List Nat := if g.size = 0 then [] else [0]

/-- The walk over all blocks that control can reach. -/
def walk (g : Cfg) : Walk := Walk.fromAll g.successors g.size g.entry

/-- The blocks that control can reach. -/
def reachable (g : Cfg) : List Nat := g.walk.entered

/-- The blocks that control can reach without entering block `a`. -/
def reachableAvoiding (g : Cfg) (a : Nat) : List Nat :=
  (Walk.fromAll (fun b => (g.successors b).filter (· != a)) g.size
    (g.entry.filter (· != a))).entered

/-- The reachable blocks in depth-first postorder. -/
def postOrder (g : Cfg) : List Nat := g.walk.postOrder

end Cfg

/-- The control-flow graph of a function. -/
def Function.cfg (f : Function) : Cfg := Cfg.ofTargets f.blocks.size f.targetsOf

end GridAccess
