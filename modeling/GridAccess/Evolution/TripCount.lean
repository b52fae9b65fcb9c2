import GridAccess.Evolution.OfValue

set_option autoImplicit false

/-!
# How often a loop goes round

The number of times the closing edge of a loop is taken, found from the comparison on which the
loop goes on. One side of it must be a recurrence of the loop with step one and the other side
must be invariant in the loop.
-/

namespace GridAccess

/-- The start of a recurrence of loop `l` that goes up by one in every round. -/
def Evolution.counterStart? (l : Nat) : Evolution → Option Evolution
  | .recurrence a [.constant 1] k => if k = l then some a else none
  | _ => none

namespace Scope

/-- The comparison of a counter with a bound, on which a loop goes on. -/
structure CountedExit where
  pred : Predicate
  start : Evolution
  bound : Evolution

/-- The comparison of loop `l` with the counter on the left, if one side is a counter and the
other is invariant. -/
def countedExit? (S : Scope) (l : Nat) (pred : Predicate) (lhs rhs : Evolution) :
    Except Fault (Option CountedExit) := do
  let left ← match lhs.counterStart? l with
    | some start =>
      if ← S.isInvariant l rhs then pure (some ⟨pred, start, rhs⟩) else pure none
    | none => pure none
  match left with
  | some exit => return some exit
  | none =>
    match rhs.counterStart? l with
    | some start =>
      if ← S.isInvariant l lhs then return some ⟨pred.swapped, start, lhs⟩ else return none
    | none => return none

/-- The number of rounds between the start of a counter and its bound. -/
def roundsUntil (S : Scope) (exit : CountedExit) : Except Fault Evolution := do
  match exit.pred with
  | .slt | .ult | .ne => S.difference exit.bound exit.start
  | .sle | .ule => S.sum [← S.difference exit.bound exit.start, .constant 1]
  | _ => return .indeterminate

/-- How often the closing edge of loop `l` is taken. -/
def tripCount (S : Scope) (l : Nat) : Except Fault Evolution := do
  match ← S.continuation? (← S.forest.loop l) with
  | none => return .indeterminate
  | some c =>
    let lhs ← S.evolution c.lhs
    let rhs ← S.evolution c.rhs
    match ← S.countedExit? l c.pred lhs rhs with
    | none => return .indeterminate
    | some exit => S.roundsUntil exit

/-- A constant that bounds how often the closing edge of loop `l` is taken. -/
def maxTripCount (S : Scope) (l : Nat) : Except Fault Evolution := do
  match ← S.tripCount l with
  | .constant w => return .constant w
  | _ => return .indeterminate

/-- How often the closing edge of loop `l` is taken is known, and the same in every round. -/
def hasInvariantTripCount (S : Scope) (l : Nat) : Except Fault Bool := do
  let count ← S.tripCount l
  if count.isIndeterminate then return false else S.isInvariant l count

end Scope

end GridAccess
