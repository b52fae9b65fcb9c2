import GridAccess.IR.Function
import GridAccess.IR.Layout

set_option autoImplicit false

/-!
# Modules

A module gathers functions, globals and constant expressions, and the layout of its data.
-/

namespace GridAccess

/-- A global variable. -/
structure Global where
  name : String
  type : Ty
deriving DecidableEq, Repr, Inhabited

/-- What a constant expression computes. -/
inductive ConstantOp where
  | element
  | cast (op : CastOp)
deriving DecidableEq, Repr, Inhabited

/-- A constant expression over globals and earlier constant expressions. -/
structure ConstantExpr where
  op : ConstantOp
  operands : List Value
deriving DecidableEq, Repr, Inhabited

/-- The text of a constant operation. -/
def ConstantOp.text : ConstantOp → String
  | element => "GetElementPtr"
  | cast op => "Cast(" ++ op.title ++ ")"

/-- The text of a constant expression. -/
def ConstantExpr.text (e : ConstantExpr) : String :=
  e.op.text ++ " [" ++ String.join (e.operands.map fun v => v.text ++ ", ") ++ "]"

/-- A module. -/
structure Module where
  name : String
  functions : Array Function := #[]
  globals : Array Global := #[]
  constantExprs : Array ConstantExpr := #[]
  layout : Layout := {}
deriving DecidableEq, Repr, Inhabited

namespace Module

/-- Adds a global. The answer is its value. -/
def addGlobal (m : Module) (g : Global) : Value × Module :=
  (.constant (.global m.globals.size), { m with globals := m.globals.push g })

/-- Adds a constant expression. The answer is its value. -/
def addConstantExpr (m : Module) (e : ConstantExpr) : Value × Module :=
  (.constant (.expr m.constantExprs.size), { m with constantExprs := m.constantExprs.push e })

/-- Adds a function. The answer is its place. -/
def addFunction (m : Module) (f : Function) : Nat × Module :=
  (m.functions.size, { m with functions := m.functions.push f })

/-- Adds a struct. -/
def defineStruct (m : Module) (name : String) (fields : List Ty) : Module :=
  { m with layout := m.layout.define name fields }

/-- The place of the first function of a name. -/
def functionIndex? (m : Module) (name : String) : Option Nat :=
  m.functions.findIdx? (·.name == name)

/-- The function an instruction calls; none if it is no call. -/
def callee (m : Module) (inst : Instruction) : Except Fault (Option Function) :=
  match inst.operation with
  | .call callee _ => some <$> fetch m.functions callee
  | _ => .ok none

/-- The field of a struct an index selects. -/
def fieldIndex? (index : Value) : Option Nat := index.int?.map BitVec.toNat

/-- The offset and the type of the field of a struct that an index selects. -/
def fieldAt? (m : Module) (name : String) (index : Value) : Except Fault (Option (Nat × Ty)) :=
  match fieldIndex? index with
  | none => .ok none
  | some i => do
    match ← m.layout.fieldOffset? name i with
    | none => return none
    | some offset =>
      return ((m.layout.fields? name).bind (·[i]?)).map fun field => (offset, field)

/-- The type reached from a type by indices after the first. -/
def descend (m : Module) (t : Ty) : List Value → Option Ty
  | [] => some t
  | index :: rest =>
    match t with
    | .struct name => do
      let i ← fieldIndex? index
      let fields ← m.layout.fields? name
      let field ← fields[i]?
      m.descend field rest
    | .array element _ => m.descend element rest
    | _ => none

/-- The type of the element that indices reach from a pointer of type `ptr`. The first index
moves over whole elements and keeps the type. -/
def indexedType (m : Module) (ptr : Ty) (indices : List Value) : Option Ty := do
  let t ← ptr.pointee?
  m.descend t (indices.drop 1)

/-- The type of a value inside a function, following constant expressions at most `depth` deep. -/
def typeOfWithin (m : Module) (f : Function) : (depth : Nat) → Value → Except Fault Ty
  | _, .argument i => (·.type) <$> fetch f.params i
  | _, .instruction i => (·.type) <$> f.instruction i
  | _, .constant (.int _) => .ok .word
  | _, .constant (.float _) => .ok .double
  | _, .constant (.global i) => (fun g => g.type.pointerTo) <$> fetch m.globals i
  | _, .constant .null | _, .constant .undef | _, .constant .aggregate => .ok .void
  | 0, .constant (.expr _) => .error .endless
  | depth + 1, .constant (.expr i) => do
    let e ← fetch m.constantExprs i
    match e.op, e.operands with
    | .element, base :: indices =>
      let t ← m.typeOfWithin f depth base
      return ((m.indexedType t indices).map Ty.pointerTo).getD t
    | _, _ => return .word

/-- The type of a value inside a function. -/
def typeOf (m : Module) (f : Function) (v : Value) : Except Fault Ty :=
  m.typeOfWithin f (m.constantExprs.size + 1) v

end Module

end GridAccess
