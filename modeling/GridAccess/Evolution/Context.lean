import GridAccess.Evolution.Basic
import GridAccess.Flow.Loops
import GridAccess.IR.Module

set_option autoImplicit false

/-!
# The context of an evolution

Evolutions speak about the values and the loops of one function of a module. An evolution is
invariant in a loop if no round of the loop changes it: every value in it is computed outside the
loop, and every recurrence in it belongs to a loop around the loop.
-/

namespace GridAccess

/-- A function of a module, with its control flow and its loops. -/
structure Context where
  module : Module
  function : Function
  cfg : Cfg
  forest : LoopForest

namespace Context

/-- The context of a function. -/
def ofFunction (m : Module) (f : Function) : Context :=
  let g := f.cfg
  { module := m, function := f, cfg := g, forest := g.loops g.domTree }

mutual

/-- The evolution has the same value in every round of loop `l`. -/
def isInvariant (C : Context) (l : Nat) : Evolution → Except Fault Bool
  | .constant _ | .sizeOf _ | .alignOf _ | .indeterminate => .ok true
  | .unknown v =>
    match C.forest.loop l with
    | .ok loop => loop.isInvariant C.function v
    | .error e => .error e
  | .sum es | .product es | .smax es | .umax es => C.allInvariant l es
  | .quotient a b =>
    match C.isInvariant l a with
    | .ok true => C.isInvariant l b
    | r => r
  | .zext e | .sext e | .trunc e => C.isInvariant l e
  | .recurrence a es k =>
    if k = l then .ok false
    else
      match C.forest.contains k l with
      | .ok true =>
        match C.isInvariant l a with
        | .ok true => C.allInvariant l es
        | r => r
      | r => r

/-- All the evolutions have the same value in every round of loop `l`. -/
def allInvariant (C : Context) (l : Nat) : List Evolution → Except Fault Bool
  | [] => .ok true
  | e :: es =>
    match C.isInvariant l e with
    | .ok true => C.allInvariant l es
    | r => r

end

/-! ## The end of a loop -/

/-- The operation that ends the only block that closes a loop. -/
def latchBranch? (C : Context) (l : Loop) : Option Operation := do
  let b ← l.latch? C.cfg
  C.function.terminator? b

/-- A comparison, as an instruction makes it. -/
structure Comparison where
  pred : Predicate
  lhs : Value
  rhs : Value
deriving DecidableEq, Repr

/-- The comparison that defines a value, if one does. -/
def comparison? (C : Context) (v : Value) : Except Fault (Option Comparison) :=
  match C.function.definition v with
  | .error e => .error e
  | .ok none => .ok none
  | .ok (some inst) =>
    match inst.operation with
    | .compare pred lhs rhs => .ok (some ⟨pred, lhs, rhs⟩)
    | _ => .ok none

/-- The comparison on which a loop goes on: the one its closing branch depends on, inverted if the
loop goes on when it fails. Exactly one side of the branch must stay in the loop. -/
def continuation? (C : Context) (l : Loop) : Except Fault (Option Comparison) :=
  match C.latchBranch? l with
  | some (.branchIf cond onTrue onFalse) =>
    match l.contains onTrue, l.contains onFalse with
    | true, false => C.comparison? cond
    | false, true =>
      (fun c => c.map fun c => { c with pred := c.pred.inverse }) <$> C.comparison? cond
    | _, _ => .ok none
  | _ => .ok none

end Context

end GridAccess
