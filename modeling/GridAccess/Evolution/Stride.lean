import GridAccess.Evolution.OfValue
import GridAccess.Report.Error

set_option autoImplicit false

/-!
# Strides

How far a pointer moves in one round of its loop, in bytes.
-/

namespace GridAccess

namespace Evolution

mutual

/-- The number of bytes a step stands for. What is not looked into counts as zero. -/
def bytes (l : Layout) : Evolution → Except (Failure AnalysisError) Word
  | constant w => .ok w
  | sizeOf t => BitVec.ofNat 64 <$> Failure.lift (l.sizeOf t)
  | alignOf t => BitVec.ofNat 64 <$> Failure.lift (l.alignOf t)
  | unknown _ => .ok 0
  | product es => bytesOfProduct l 1 es
  | zext e => bytes l e
  | e => .error (.reported (.unsupported "stride" e.text))

/-- The number of bytes of a product, `acc` being the product so far. -/
def bytesOfProduct (l : Layout) (acc : Word) :
    List Evolution → Except (Failure AnalysisError) Word
  | [] => .ok acc
  | e :: es =>
    match bytes l e with
    | .ok w => bytesOfProduct l (acc * w) es
    | .error err => .error err

end

end Evolution

namespace Scope

/-- How far the value moves in one round of its loop; zero if it is no affine recurrence. -/
def stride (S : Scope) (v : Value) : Except (Failure AnalysisError) Word :=
  match S.evolution v with
  | .error f => .error (.fault f)
  | .ok (.recurrence _ [step] _) => step.bytes S.module.layout
  | .ok _ => .ok 0

/-- The size of what the value points to; zero if it is no pointer. -/
def unitStride (S : Scope) (v : Value) : Except Fault Word := do
  let t ← S.module.typeOf S.function v
  match t.pointee? with
  | some element => BitVec.ofNat 64 <$> S.module.layout.sizeOf element
  | none => return 0

/-- The value moves, and not from each element to the next. -/
def hasNonUnitStride (S : Scope) (v : Value) : Except (Failure AnalysisError) Bool := do
  let s ← S.stride v
  if s = 0 then return false
  else
    let u ← Failure.lift (S.unitStride v)
    return s ≠ u

end Scope

end GridAccess
