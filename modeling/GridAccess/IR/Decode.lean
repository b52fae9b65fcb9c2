import GridAccess.IR.Draft
import GridAccess.IR.Module
import GridAccess.Json.Printer
import GridAccess.Json.Reader
import GridAccess.Report.Error

set_option autoImplicit false

/-!
# Reading a module

A module is read from its JSON description: structs, globals and constant expressions first, then
the heads of all functions, then the bodies, so that a call may name any function. Each reference
is checked against the table it points into as soon as it is read.
-/

namespace GridAccess

namespace Json

/-- A field that must be there. -/
def field (v : Json) (name : String) : Except FormatError Json :=
  match v.get name with
  | .null => .error (.missingField name)
  | w => .ok w

/-- A field that must be there and be a string. -/
def stringField (v : Json) (name : String) : Except FormatError String := do
  match (← v.field name).string? with
  | some s => return s
  | none => throw (.missingField name)

/-- A field that must be there and be an index. -/
def indexField (v : Json) (name : String) : Except FormatError Nat := do
  match (← v.field name).nat? with
  | some n => return n
  | none => throw (.missingField name)

end Json

/-! ## Types and values -/

/-- A decimal number, with an optional plus sign, below `bound`. -/
def decimalBelow? (bound : Nat) (digits : List Char) : Option Nat :=
  let digits := match digits with
    | '+' :: rest => rest
    | _ => digits
  if digits.isEmpty || digits.any (fun c => !c.isDigit) then none
  else
    let n := digits.foldl (fun n c => n * 10 + (c.toNat - '0'.toNat)) 0
    if n < bound then some n else none

/-- A type that is written as a word. -/
def Ty.ofWord (s : String) : Except FormatError Ty :=
  match s with
  | "void" => .ok .void
  | "float" => .ok .float
  | "double" => .ok .double
  | s =>
    match s.toList with
    | 'i' :: digits =>
      match decimalBelow? (Nat.pow 2 32) digits with
      | some bits => .ok (.int bits)
      | none => .error (.unknownType s)
    | _ => .error (.unknownType s)

mutual

/-- The type a JSON value describes. -/
def Ty.ofJson : Json → Except FormatError Ty
  | .string s => Ty.ofWord s
  | .object fields =>
    match Ty.ofField "ptr" fields with
    | some pointee => do
      let t ← pointee
      return .pointer t (((Json.object fields).get "addrspace").nat32?.getD 0)
    | none =>
      match ((Json.object fields).get "struct").string? with
      | some name => .ok (.struct name)
      | none =>
        match Ty.ofField "array" fields with
        | some element => do
          let t ← element
          match ((Json.object fields).get "len").nat? with
          | some n => return .array t n
          | none => throw (.missingField "len")
        | none => .error (.unknownType (Json.object fields).compact)
  | v => .error (.unknownType v.compact)

/-- The type the first field of a name describes, if there is one. -/
def Ty.ofField (name : String) : List (String × Json) → Option (Except FormatError Ty)
  | [] => none
  | (k, v) :: rest => if k == name then some (Ty.ofJson v) else Ty.ofField name rest

end

/-- The type of a thing that may leave it out. -/
def Ty.ofOptional (v : Json) : Except FormatError Ty :=
  if v.isNull then .ok .void else Ty.ofJson v

/-- The value a JSON value refers to. Of several keys the first in this order decides. -/
def Value.ofJson (v : Json) : Except FormatError Value :=
  match v.string? with
  | some "null" => .ok (.constant .null)
  | some "undef" => .ok (.constant .undef)
  | some "aggregate" => .ok (.constant .aggregate)
  | some s => .error (.invalidValue s)
  | none =>
    let found :=
      ((v.get "arg").nat?.map Value.argument) <|>
      ((v.get "inst").nat?.map Value.instruction) <|>
      ((v.get "int").word?.map Value.int) <|>
      ((v.get "float").binary64?.map fun bits => Value.constant (.float bits)) <|>
      ((v.get "global").nat?.map fun i => Value.constant (.global i)) <|>
      ((v.get "expr").nat?.map fun i => Value.constant (.expr i))
    match found with
    | some w => .ok w
    | none => .error (.invalidValue v.compact)

/-- A list of values. -/
def Value.listOfJson (v : Json) : Except FormatError (List Value) := v.items.mapM Value.ofJson

/-! ## Globals and constant expressions -/

/-- A global. -/
def Global.ofJson (v : Json) : Except FormatError Global := do
  let name ← v.stringField "name"
  let type ← Ty.ofJson (← v.field "type")
  return ⟨name, type⟩

/-- Whether a value may stand in constant expression number `defined` of a module with `globals`
globals: constants only, and of the expressions only earlier ones. -/
def Value.fitsConstant (globals defined : Nat) : Value → Bool
  | .constant (.global i) => i < globals
  | .constant (.expr i) => i < defined
  | .constant _ => true
  | .argument _ | .instruction _ => false

/-- What a constant expression computes, by its opcode. -/
def ConstantOp.ofOpcode (op : String) : Except FormatError ConstantOp :=
  if op == "getelementptr" then .ok .element
  else match CastOp.ofMnemonic? op with
    | some c => .ok (.cast c)
    | none => .error (.unknownOpcode op)

/-- Constant expression number `defined`. -/
def ConstantExpr.ofJson (globals defined : Nat) (v : Json) : Except FormatError ConstantExpr := do
  let op ← ConstantOp.ofOpcode (← v.stringField "op")
  let operands ← Value.listOfJson (v.get "operands")
  match operands.find? (fun w => !w.fitsConstant globals defined) with
  | some w => throw (.invalidValue (w.text ++ " in constant expression " ++ toString defined))
  | none => return ⟨op, operands⟩

/-! ## Instructions -/

/-- What surrounds an instruction while it is read: the names of the functions of the module, the
sizes of the tables of the module and of the function, and the name of the function. -/
structure Surroundings where
  functionNames : List String
  globals : Nat
  constantExprs : Nat
  params : Nat
  blocks : Nat
  instructions : Nat
  functionName : String

/-- The function a call names: the last one of that name. -/
def Surroundings.function? (s : Surroundings) (name : String) : Option Nat :=
  let count := s.functionNames.length
  (s.functionNames.reverse.idxOf? name).map fun i => count - 1 - i

/-- The value points into a table of its surroundings. -/
def Surroundings.holds (s : Surroundings) : Value → Bool
  | .argument i => i < s.params
  | .instruction i => i < s.instructions
  | .constant (.global i) => i < s.globals
  | .constant (.expr i) => i < s.constantExprs
  | .constant _ => true

/-- Every reference of instruction number `i` points somewhere. -/
def Surroundings.check (s : Surroundings) (i : Nat) (op : Operation) : Except FormatError Unit :=
  let place := " in %" ++ toString i ++ " of " ++ s.functionName
  match op.operands.find? (fun v => !s.holds v) with
  | some v => .error (.invalidValue (v.text ++ place))
  | none =>
    match op.blocks.find? (fun b => !(b < s.blocks)) with
    | some b => .error (.invalidValue ("block " ++ toString b ++ place))
    | none => .ok ()

namespace Operation

/-- A field that is a value. -/
def valueField (v : Json) (name : String) : Except FormatError Value := do
  Value.ofJson (← v.field name)

/-- One way into a phi. -/
def incomingOfJson (v : Json) : Except FormatError (Nat × Value) := do
  let b ← v.indexField "block"
  let w ← valueField v "value"
  return (b, w)

/-- One index of an `extractvalue`. -/
def memberOfJson (v : Json) : Except FormatError Nat :=
  match v.nat32? with
  | some n => .ok n
  | none => .error (.invalidValue v.compact)

/-- A branch: with a condition if it has one. -/
def branchOfJson (v : Json) : Except FormatError Operation := do
  if v.hasKey "cond" then
    let cond ← valueField v "cond"
    let onTrue ← v.indexField "on_true"
    let onFalse ← v.indexField "on_false"
    return .branchIf cond onTrue onFalse
  else
    return .branch (← v.indexField "target")

/-- A binary operation or a cast, by its mnemonic. -/
def arithmeticOfJson (op : String) (v : Json) : Except FormatError Operation := do
  match BinaryOp.ofMnemonic? op with
  | some b =>
    let lhs ← valueField v "lhs"
    let rhs ← valueField v "rhs"
    return .binary b lhs rhs
  | none =>
    match CastOp.ofMnemonic? op with
    | some c => return .cast c (← valueField v "operand")
    | none => throw (.unknownOpcode op)

/-- A comparison. -/
def compareOfJson (v : Json) : Except FormatError Operation := do
  let name ← v.stringField "pred"
  match Predicate.ofMnemonic? name with
  | some pred =>
    let lhs ← valueField v "lhs"
    let rhs ← valueField v "rhs"
    return .compare pred lhs rhs
  | none => throw (.unknownOpcode name)

/-- A call. -/
def callOfJson (s : Surroundings) (v : Json) : Except FormatError Operation := do
  let name ← v.stringField "callee"
  match s.function? name with
  | some callee => return .call callee (← Value.listOfJson (v.get "args"))
  | none => throw (.unknownFunction name)

/-- What an instruction does. -/
def ofJson (s : Surroundings) (v : Json) : Except FormatError Operation := do
  match ← v.stringField "op" with
  | "icmp" => compareOfJson v
  | "load" => return .load (← valueField v "ptr")
  | "store" =>
    let value ← valueField v "value"
    let ptr ← valueField v "ptr"
    return .store value ptr
  | "getelementptr" =>
    let base ← valueField v "base"
    let indices ← Value.listOfJson (v.get "indices")
    return .element base indices
  | "extractvalue" =>
    let aggregate ← valueField v "aggregate"
    let indices ← (v.get "indices").items.mapM memberOfJson
    return .extractValue aggregate indices
  | "extractelement" =>
    let vector ← valueField v "vector"
    let index ← valueField v "index"
    return .extractElement vector index
  | "call" => callOfJson s v
  | "phi" => return .phi (← (v.get "incoming").items.mapM incomingOfJson)
  | "select" =>
    let cond ← valueField v "cond"
    let onTrue ← valueField v "on_true"
    let onFalse ← valueField v "on_false"
    return .select cond onTrue onFalse
  | "alloca" => return .alloca (← Ty.ofJson (← v.field "allocated"))
  | "br" => branchOfJson v
  | "ret" =>
    let value := v.get "value"
    if value.isNull then return .ret none else return .ret (some (← Value.ofJson value))
  | "unreachable" => return .unreachable
  | op => arithmeticOfJson op v

end Operation

/-- Instruction number `i`, in block `b`. -/
def Instruction.ofJson (s : Surroundings) (b i : Nat) (v : Json) :
    Except FormatError Instruction := do
  let type ← Ty.ofOptional (v.get "type")
  let op ← Operation.ofJson s v
  s.check i op
  return { parent := b, type := type, name := (v.get "name").string?, operation := op }

/-! ## Functions -/

/-- A parameter. -/
def Param.ofJson (v : Json) : Except FormatError Param := do
  let type ← Ty.ofJson (← v.field "type")
  return ⟨(v.get "name").string?.getD "", type⟩

/-- The head of a function: a declaration. -/
def Function.headOfJson (v : Json) : Except FormatError Function := do
  let name ← v.stringField "name"
  let params ← (v.get "params").items.mapM Param.ofJson
  let ret ← Ty.ofOptional (v.get "ret")
  return { name := name
           demangled := (v.get "demangled").string?
           params := params.toArray
           ret := ret
           noReturn := (v.get "noreturn").bool?.getD false }

/-- The instructions of block `b`, of which the first has number `first`. -/
def Instruction.listOfJson (s : Surroundings) (b : Nat) :
    (first : Nat) → List Json → Except FormatError (List Instruction)
  | _, [] => .ok []
  | i, v :: rest => do
    let inst ← Instruction.ofJson s b i v
    let more ← Instruction.listOfJson s b (i + 1) rest
    return inst :: more

/-- Adds the blocks of a body to a function, the first of them being block `b`. The instructions
of a block are numbered on from those before it. -/
def Function.addBlocks (s : Surroundings) (f : Function) :
    (b : Nat) → List Json → Except FormatError Function
  | _, [] => .ok f
  | b, v :: rest => do
    let first := f.instructions.size
    let insts ← Instruction.listOfJson s b first (v.get "instructions").items
    let block : Block :=
      { name := (v.get "name").string?.getD ""
        instructions := (List.range insts.length).map (first + ·) }
    Function.addBlocks s
      { f with blocks := f.blocks.push block, instructions := f.instructions ++ insts.toArray }
      (b + 1) rest

/-! ## The module -/

/-- Adds the structs of a module to its layout, in the order in which they are written. -/
def Layout.ofJson (pointerSize : Nat) (structs : List (String × Json)) :
    Except FormatError Layout :=
  structs.foldlM
    (fun l (name, fields) => do
      let types ← fields.items.mapM Ty.ofJson
      return l.define name types)
    { pointerSize := pointerSize }

/-- The constant expressions of a module, `done` being those already read. -/
def ConstantExpr.listOfJson (globals : Nat) :
    (done : List ConstantExpr) → List Json → Except FormatError (List ConstantExpr)
  | done, [] => .ok done
  | done, v :: rest => do
    let e ← ConstantExpr.ofJson globals done.length v
    ConstantExpr.listOfJson globals (done ++ [e]) rest

/-- The body of a function, added to its head if the description has one. -/
def Function.ofJson (names : List String) (globals constantExprs : Nat) (head : Function)
    (v : Json) : Except FormatError Function :=
  let blocks := v.get "blocks"
  if blocks.isArray then
    let s : Surroundings :=
      { functionNames := names
        globals := globals
        constantExprs := constantExprs
        params := head.params.size
        blocks := blocks.items.length
        instructions := blocks.items.foldl (fun n b => n + (b.get "instructions").size) 0
        functionName := head.name }
    Function.addBlocks s head 0 blocks.items
  else .ok head

/-- The module a JSON value describes. -/
def Module.ofJson (v : Json) : Except FormatError Module := do
  let layout ← Layout.ofJson ((v.get "pointer_size").nat?.getD 8) (v.get "structs").fields
  let globals ← (v.get "globals").items.mapM Global.ofJson
  let exprs ← ConstantExpr.listOfJson globals.length [] (v.get "constant_exprs").items
  let functions := (v.get "functions").items
  let heads ← functions.mapM Function.headOfJson
  let names := heads.map (·.name)
  let bodies ← (heads.zip functions).mapM fun (head, f) =>
    Function.ofJson names globals.length exprs.length head f
  return { name := (v.get "name").string?.getD "module"
           functions := bodies.toArray
           globals := globals.toArray
           constantExprs := exprs.toArray
           layout := layout }

/-- The module a text describes. -/
def Module.read (text : String) : Except FormatError Module :=
  match Json.parse text with
  | .error e => .error (.invalidJson e.message)
  | .ok v => Module.ofJson v

end GridAccess
