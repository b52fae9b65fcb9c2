import GridAccess.Flow.Dominance

set_option autoImplicit false

/-!
# Natural loops

A block is the header of a loop if it dominates one of its predecessors; the edge from there
closes the loop. The loop consists of its header and of all reachable blocks from which a closing
edge can be reached without passing the header.

Two loops are disjoint or one lies inside the other. Loops are numbered so that inner loops come
before the loops around them, which makes the first loop that contains a block its innermost.
-/

namespace GridAccess

/-- A loop: its blocks with the header first, the loops around it from the inside out, and the
loops directly inside it. -/
structure Loop where
  header : Nat
  blocks : List Nat
  enclosing : List Nat
  children : List Nat
deriving DecidableEq, Repr, Inhabited

/-- The loops of a graph, by their numbers. -/
structure LoopForest where
  loops : Array Loop
deriving DecidableEq, Repr, Inhabited

namespace Loop

/-- The block belongs to the loop. -/
def contains (l : Loop) (b : Nat) : Bool := l.blocks.contains b

/-- The loop directly around this one. -/
def parent? (l : Loop) : Option Nat := l.enclosing.head?

/-- The number of loops a block of the loop is in at least; 1 for an outermost loop. -/
def depth (l : Loop) : Nat := l.enclosing.length + 1

/-- The only block of the loop that has an edge to the header. -/
def latch? (g : Cfg) (l : Loop) : Option Nat :=
  match (g.predecessors l.header).filter l.contains with
  | [b] => some b
  | _ => none

/-- The value is not computed inside the loop. -/
def isInvariant (f : Function) (l : Loop) : Value → Except Fault Bool
  | .constant _ | .argument _ => .ok true
  | .instruction i => (fun inst => !l.contains inst.parent) <$> f.instruction i

end Loop

namespace LoopForest

/-- A loop, by its number. -/
def loop (F : LoopForest) (id : Nat) : Except Fault Loop := fetch F.loops id

/-- The numbers of the loops that contain a block, from the inside out. -/
def around (F : LoopForest) (b : Nat) : List Nat :=
  (List.range F.loops.size).filter fun i => (F.loops[i]?.map (·.contains b)).getD false

/-- The innermost loop that contains a block. -/
def innermost? (F : LoopForest) (b : Nat) : Option Nat := (F.around b).head?

/-- The number of loops that contain a block. -/
def depthOf (F : LoopForest) (b : Nat) : Nat := (F.around b).length

/-- Loop `inner` is loop `outer` or lies inside it. -/
def contains (F : LoopForest) (outer inner : Nat) : Except Fault Bool :=
  if inner = outer then .ok true
  else (fun l => l.enclosing.contains outer) <$> F.loop inner

end LoopForest

namespace Cfg

/-- The reachable predecessors of a block that it dominates: where its loop closes. -/
def backSources (g : Cfg) (t : DomTree) (h : Nat) : List Nat :=
  (g.predecessors h).filter fun p => t.dominates h p && t.isReachable p

/-- The blocks from which a closing edge of `h` can be reached, going backwards over reachable
blocks and no further than `h`. -/
def loopRegion (g : Cfg) (t : DomTree) (h : Nat) : List Nat :=
  let next (b : Nat) : List Nat :=
    if b = h then [] else (g.predecessors b).filter t.isReachable
  (Walk.fromAll next g.size (g.backSources t h)).entered

/-- The headers of loops and the blocks of their loops, inner loops first. The blocks after the
header stand in reverse postorder. -/
def loopBlocks (g : Cfg) (t : DomTree) : List (Nat × List Nat) :=
  let order := g.postOrder.reverse
  (t.postOrder.filter fun h => !(g.backSources t h).isEmpty).map fun h =>
    let region := g.loopRegion t h
    (h, h :: order.filter fun b => b != h && region.contains b)

/-- The loops of a graph. -/
def loops (g : Cfg) (t : DomTree) : LoopForest :=
  let found := (g.loopBlocks t).zipIdx
  let around (b : Nat) : List Nat :=
    (found.filter fun ((_, blocks), _) => blocks.contains b).map (·.2)
  let parentOf (h i : Nat) : Option Nat := ((around h).filter (· != i)).head?
  let order := g.postOrder.reverse
  -- loop numbers in reverse postorder of the headers
  let byHeader := order.flatMap fun b => (found.filter fun ((h, _), _) => h == b).map fun
    ((h, _), i) => (h, i)
  ⟨(found.map fun ((h, blocks), i) =>
    { header := h
      blocks := blocks
      enclosing := (around h).filter (· != i)
      children := (byHeader.filter fun (h', j) => parentOf h' j == some i).map (·.2) : Loop }
    ).toArray⟩

end Cfg

end GridAccess
