import GridAccess.IR.Function

set_option autoImplicit false

/-!
# Trails

A pointer is traced back to where it comes from by following operands, one after another, until
a step stops with an answer. A trail that meets no instruction twice has at most one step for each
instruction, and one more for the value behind the last.
-/

namespace GridAccess

/-- What a step of a trail says: where to go on, or the answer. -/
inductive Move (α : Type) where
  | next (v : Value)
  | stop (a : α)

/-- The answer of a trail of at most `steps` steps. -/
def trailWithin {α : Type} (step : Value → Except Fault (Move α)) :
    (steps : Nat) → Value → Except Fault α
  | 0, _ => .error .endless
  | steps + 1, v =>
    match step v with
    | .error e => .error e
    | .ok (.stop a) => .ok a
    | .ok (.next w) => trailWithin step steps w

namespace Function

/-- The answer of a trail in a function. -/
def trail {α : Type} (f : Function) (step : Value → Except Fault (Move α)) (v : Value) :
    Except Fault α :=
  trailWithin step (f.instructions.size + 1) v

/-- The step from an address to the address it is derived from by a cast that keeps pointers or by
address arithmetic. -/
def addressStep (f : Function) (v : Value) : Except Fault (Move Value) := do
  match ← f.definition v with
  | none => return .stop v
  | some inst =>
    match inst.operation with
    | .element base _ => return .next base
    | .cast op operand => return if op.keepsPointer then .next operand else .stop v
    | _ => return .stop v

/-- The value an address is derived from. -/
def addressRoot (f : Function) (v : Value) : Except Fault Value := f.trail f.addressStep v

end Function

end GridAccess
