import GridAccess.Formula.Marked
import GridAccess.Grid.Builtins
import GridAccess.IR.Module

set_option autoImplicit false

/-!
# Formulas of values

The formula of a value is written from the instructions that compute it. A phi is written out as
its alternatives once; met again inside itself it is written as a marker.
-/

namespace GridAccess

/-- What formulas are written with: a function of a module, the builtins, and the policy for
marks. -/
structure Writer where
  module : Module
  function : Function
  builtins : Builtins
  policy : MarkPolicy

/-- An element of an array, in a formula. -/
def Writer.memory : String := "#MEM"

/-- A phi met inside itself, in a formula. -/
def Writer.phiAgain : String := "#PHIRECURSION"

/-- The sign of an operator in a formula; some operators have none. -/
def BinaryOp.symbol? : BinaryOp → Option String
  | .udiv | .sdiv => some " / "
  | .urem | .srem => some " % "
  | .shl => some " << "
  | .mul => some " * "
  | .add => some " + "
  | .sub => some " - "
  | .and => some " ^ "
  | .lshr | .ashr | .or | .xor => none

namespace Writer

/-- The name of an instruction in a message. -/
def place (i : Nat) : String := "%" ++ toString i

/-- How the formula of an operand is written. -/
abbrev Recur := Value → Bool → Marked String

/-- The register an instruction reads, if it is a call that reads one. -/
def register? (W : Writer) (inst : Instruction) : Except Fault (Option Register) := do
  match ← W.module.callee inst with
  | some f => return Register.ofReader? f.name
  | none => return none

/-- What a query for a dimension asks for: a number, or the name of a value. -/
def dimName (W : Writer) : Option Value → Marked String
  | some (.constant (.int w)) => return toString w.toNat
  | some v => Marked.lift (W.function.valueName v)
  | none => return ""

/-- The formula of a call that reads no register. -/
def ofCall (W : Writer) (callee : Nat) (args : List Value) : Marked String := do
  let f ← Marked.lift (fetch W.module.functions callee)
  if W.builtins.isArrayAccess f then return memory
  else if W.builtins.isDimAccessor f then
    let dim ← W.dimName args[1]?
    return "dim(" ++ dim ++ ")"
  else return f.displayName

/-- The formula of two operands with a sign between them. -/
def ofPair (recur : Recur) (inPhi : Bool) (lhs : Value) (sign : String) (rhs : Value) :
    Marked String := do
  let l ← recur lhs inPhi
  let r ← recur rhs inPhi
  return "(" ++ l ++ sign ++ r ++ ")"

/-- The value is a parameter that holds block offsets. -/
def isOffsetParam (W : Writer) : Value → Except Fault Bool
  | .argument a => W.builtins.isOffsetParam <$> fetch W.function.params a
  | _ => .ok false

/-- The formula of instruction `i`, if it reads no register. -/
def ofOperation (W : Writer) (recur : Recur) (i : Nat) (inPhi : Bool) :
    Operation → Marked String
  | .extractValue aggregate indices => do
    if ← Marked.lift (W.isOffsetParam aggregate) then
      match indices.head?.bind Axis.ofIndex? with
      | some a => return "b_off." ++ a.text
      | none => Marked.unsupported "extractvalue" (place i)
    else recur aggregate inPhi
  | .extractElement _ _ => Marked.unsupported "extractelement" (place i)
  | .element base _ => recur base inPhi
  | .call callee args => W.ofCall callee args
  | .cast _ operand => recur operand inPhi
  | .load ptr => recur ptr inPhi
  | .alloca _ => return ""
  | .binary op lhs rhs =>
    match op.symbol? with
    | some sign => ofPair recur inPhi lhs sign rhs
    | none => Marked.unsupported "operator" (place i ++ " = " ++ op.mnemonic)
  | .compare pred lhs rhs => ofPair recur inPhi lhs pred.symbol rhs
  | .phi incoming =>
    if inPhi then return phiAgain
    else do
      let alternatives ← incoming.mapM fun (_, v) => recur v true
      return "(" ++ String.intercalate " | " alternatives ++ ")"
  | .select _ _ _ => Marked.unsupported "select" (place i)
  | .store _ _ | .branch _ | .branchIf _ _ _ | .ret _ | .unreachable =>
    Marked.unsupported "instruction" (place i)

/-- The formula of instruction `i`. -/
def ofInstruction (W : Writer) (recur : Recur) (i : Nat) (inPhi : Bool) : Marked String := do
  let inst ← Marked.lift (W.function.instruction i)
  match ← Marked.lift (W.register? inst) with
  | some r => Marked.marking (W.policy.marks r) r.text
  | none => W.ofOperation recur i inPhi inst.operation

/-- The constant expression starts from a global that holds block offsets. -/
def hasOffsetRoot (W : Writer) (e : ConstantExpr) : Except Fault Bool :=
  match e.operands with
  | .constant (.global g) :: _ =>
    (fun g => W.builtins.isOffsetGlobal g.name) <$> fetch W.module.globals g
  | _ => .ok false

/-- The formula of a constant expression: the offsets of one axis, or the formulas of the operands
one after another. -/
def ofConstantExpr (W : Writer) (recur : Recur) (inPhi : Bool) (e : ConstantExpr) :
    Marked String := do
  if ← Marked.lift (W.hasOffsetRoot e) then
    match e.operands with
    | [_, _, index] =>
      match index.int?.bind fun w => Axis.ofIndex? w.toNat with
      | some a => return "off." ++ a.text
      | none => Marked.unsupported "constant" e.text
    | _ => return "off"
  else
    let parts ← e.operands.mapM fun v => recur v inPhi
    return String.join parts

/-- The formula of a constant. -/
def ofConstant (W : Writer) (recur : Recur) (inPhi : Bool) : Constant → Marked String
  | .int w => return w.text
  | .global g => do
    let g ← Marked.lift (fetch W.module.globals g)
    if W.builtins.isOffsetGlobal g.name then return "off" else return "#GLOBAL:" ++ g.name
  | .expr k => do
    let e ← Marked.lift (fetch W.module.constantExprs k)
    W.ofConstantExpr recur inPhi e
  | c => Marked.unsupported "constant" c.text

/-- The formula of a value, following operands at most `depth` deep. -/
def ofValueWithin (W : Writer) : (depth : Nat) → Value → (inPhi : Bool) → Marked String
  | 0, _, _ => Marked.lift (.error .endless)
  | depth + 1, v, inPhi =>
    match v with
    | .argument i => do
      let p ← Marked.lift (fetch W.function.params i)
      return "#PARAM:" ++ p.name
    | .constant c => W.ofConstant (W.ofValueWithin depth) inPhi c
    | .instruction i => W.ofInstruction (W.ofValueWithin depth) i inPhi

/-- How deep operands can be followed without meeting a value twice on the way to a phi, or twice
from there on. -/
def operandDepth (W : Writer) : Nat :=
  2 * (W.function.instructions.size + W.module.constantExprs.size) + 2

/-- The formula of a value. `inPhi` says that a phi has been written out already. -/
def ofValue (W : Writer) (v : Value) (inPhi : Bool) : Marked String :=
  W.ofValueWithin W.operandDepth v inPhi

end Writer

end GridAccess
