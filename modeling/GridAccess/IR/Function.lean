import GridAccess.Fault
import GridAccess.IR.Opcode
import GridAccess.IR.Ty
import GridAccess.IR.Value

set_option autoImplicit false

/-!
# Functions

A function holds all its instructions in one table; its blocks list them by their places in it.
A function without blocks is a declaration.
-/

namespace GridAccess

/-- What an instruction does, with its operands. Blocks and callees are given by their places. -/
inductive Operation where
  | binary (op : BinaryOp) (lhs rhs : Value)
  | compare (pred : Predicate) (lhs rhs : Value)
  | cast (op : CastOp) (operand : Value)
  | load (ptr : Value)
  | store (value ptr : Value)
  /-- The address of an element, reached from a base pointer by indices. -/
  | element (base : Value) (indices : List Value)
  | extractValue (aggregate : Value) (indices : List Nat)
  | extractElement (vector index : Value)
  | call (callee : Nat) (args : List Value)
  /-- One value for each block control may come from. -/
  | phi (incoming : List (Nat × Value))
  | select (cond onTrue onFalse : Value)
  | alloca (allocated : Ty)
  | branch (target : Nat)
  | branchIf (cond : Value) (onTrue onFalse : Nat)
  | ret (value : Option Value)
  | unreachable
deriving DecidableEq, Repr, Inhabited

namespace Operation

/-- The operation ends a block. -/
def isTerminator : Operation → Bool
  | branch _ | branchIf .. | ret _ | unreachable => true
  | _ => false

/-- The blocks a branch may go to, the true one first. -/
def targets : Operation → List Nat
  | branch t => [t]
  | branchIf _ t f => [t, f]
  | _ => []

/-- The values an operation refers to, in the order in which they are checked. -/
def operands : Operation → List Value
  | binary _ l r | compare _ l r => [l, r]
  | cast _ v | load v | extractValue v _ => [v]
  | store v p => [v, p]
  | element base indices => indices ++ [base]
  | extractElement v i => [v, i]
  | call _ args => args
  | phi incoming => incoming.map (·.2)
  | select c t f => [c, t, f]
  | ret v => v.toList
  | branchIf c _ _ => [c]
  | branch _ | alloca _ | unreachable => []

/-- The blocks an operation refers to. -/
def blocks : Operation → List Nat
  | phi incoming => incoming.map (·.1)
  | op => op.targets

end Operation

/-- An instruction: the block that lists it, its type, its name in the text if it has one, and
what it does. -/
structure Instruction where
  parent : Nat
  type : Ty
  name : Option String
  operation : Operation
deriving DecidableEq, Repr, Inhabited

/-- A formal parameter. -/
structure Param where
  name : String
  type : Ty
deriving DecidableEq, Repr, Inhabited

/-- A basic block: the places of its instructions. -/
structure Block where
  name : String
  instructions : List Nat := []
deriving DecidableEq, Repr, Inhabited

/-- A function. Its name is the one it is linked by; `demangled` is the one for readers. -/
structure Function where
  name : String
  demangled : Option String := none
  params : Array Param := #[]
  ret : Ty := .void
  noReturn : Bool := false
  blocks : Array Block := #[]
  instructions : Array Instruction := #[]
deriving DecidableEq, Repr, Inhabited

namespace Function

/-- The function has no body. -/
def isDeclaration (f : Function) : Bool := f.blocks.isEmpty

/-- The name for readers, or the link name if none was recorded. -/
def displayName (f : Function) : String := f.demangled.getD f.name

/-- The instruction at a place. -/
def instruction (f : Function) (i : Nat) : Except Fault Instruction := fetch f.instructions i

/-- The instruction that defines a value; none if the value is no instruction's. -/
def definition (f : Function) (v : Value) : Except Fault (Option Instruction) :=
  match v with
  | .instruction i => some <$> f.instruction i
  | _ => .ok none

/-- The name of a value in the text, empty if it has none. -/
def valueName (f : Function) : Value → Except Fault String
  | .argument i => (·.name) <$> fetch f.params i
  | .instruction i => (fun inst => inst.name.getD "") <$> f.instruction i
  | .constant _ => .ok ""

/-- The last instruction of a block, if it ends the block. -/
def terminator? (f : Function) (b : Nat) : Option Operation := do
  let block ← f.blocks[b]?
  let last ← block.instructions.getLast?
  let inst ← f.instructions[last]?
  if inst.operation.isTerminator then some inst.operation else none

/-- The blocks control may go to from the end of a block, the true target first. -/
def targetsOf (f : Function) (b : Nat) : List Nat :=
  match f.terminator? b with
  | some op => op.targets
  | none => []

/-- The parameters and then the instructions of a function, as values. -/
def values (f : Function) : List Value :=
  (List.range f.params.size).map .argument ++ (List.range f.instructions.size).map .instruction

end Function

end GridAccess
