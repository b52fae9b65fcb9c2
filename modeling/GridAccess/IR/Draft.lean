import GridAccess.IR.Function

set_option autoImplicit false

/-!
# Functions under construction

A draft appends instructions to the block that is selected. When it is finished, every branch
that ends a block must go to a block of the function.
-/

namespace GridAccess

/-- The type of the result, if the operation determines it. -/
def Operation.type? : Operation → Option Ty
  | compare .. => some .truth
  | alloca allocated => some allocated.pointerTo
  | store .. | branch _ | branchIf .. | ret _ | unreachable => some .void
  | _ => none

/-- A function under construction, and the block that takes the next instruction. -/
structure Draft where
  function : Function
  current : Option Nat := none
deriving Repr, Inhabited

namespace Draft

/-- Records the name of the function for readers. -/
def demangled (d : Draft) (name : String) : Draft :=
  { d with function := { d.function with demangled := some name } }

/-- Records whether control never comes back from the function. -/
def noReturn (d : Draft) (never : Bool) : Draft :=
  { d with function := { d.function with noReturn := never } }

/-- Appends an empty block and selects it. The answer is its place. -/
def block (d : Draft) (name : String) : Nat × Draft :=
  let b := d.function.blocks.size
  (b, { function := { d.function with blocks := d.function.blocks.push { name := name } }
        current := some b })

/-- Selects a block. -/
def switchTo (d : Draft) (b : Nat) : Except Fault Draft :=
  if b < d.function.blocks.size then .ok { d with current := some b } else .error .dangling

/-- Appends an instruction to the selected block. The answer is its value. -/
def push (d : Draft) (name : Option String) (type : Ty) (op : Operation) :
    Except Fault (Value × Draft) :=
  match d.current with
  | none => .error .dangling
  | some b =>
    let i := d.function.instructions.size
    let inst : Instruction := { parent := b, type := type, name := name, operation := op }
    let blocks := d.function.blocks.modify b
      fun blk => { blk with instructions := blk.instructions ++ [i] }
    .ok (.instruction i,
      { d with function :=
          { d.function with instructions := d.function.instructions.push inst, blocks := blocks } })

/-- Appends an instruction whose type is given if the operation leaves it open. -/
def append (d : Draft) (op : Operation) (type : Ty := .void) (name : Option String := none) :
    Except Fault (Value × Draft) :=
  d.push name (op.type?.getD type) op

/-- Adds to a phi the value it has when control comes from block `b`. -/
def addIncoming (d : Draft) (phi : Value) (b : Nat) (v : Value) : Except Fault Draft := do
  match phi with
  | .instruction i =>
    let inst ← d.function.instruction i
    match inst.operation with
    | .phi incoming =>
      let inst := { inst with operation := .phi (incoming ++ [(b, v)]) }
      let instructions := d.function.instructions.setIfInBounds i inst
      return { d with function := { d.function with instructions := instructions } }
    | _ => throw .dangling
  | _ => throw .dangling

/-- The finished function. -/
def finish (d : Draft) : Except Fault Function :=
  let f := d.function
  if (List.range f.blocks.size).all fun b => (f.targetsOf b).all (· < f.blocks.size) then .ok f
  else .error .dangling

end Draft

end GridAccess
