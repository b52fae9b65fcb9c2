import GridAccess.Access.Trail

set_option autoImplicit false

/-!
# Handles

An array reaches a kernel as a parameter, or as the copy of one in a stack slot. The handle of an
array says which.
-/

namespace GridAccess

/-- The storage an array is accessed through. -/
inductive Handle where
  /-- A stack slot, by the instruction that allocates it. -/
  | slot (i : Nat)
  /-- A parameter of the kernel. -/
  | param (i : Nat)
deriving DecidableEq, Repr, Inhabited

namespace Handle

/-- The order of handles: slots before parameters. -/
protected def lt : Handle → Handle → Bool
  | slot i, slot j => i < j
  | slot _, param _ => true
  | param _, slot _ => false
  | param i, param j => i < j

instance : LT Handle where
  lt a b := a.lt b = true

instance : DecidableLT Handle := fun a b => inferInstanceAs (Decidable (a.lt b = true))

/-- The name of the storage in the text of the function. -/
def name (f : Function) : Handle → Except Fault String
  | slot i => f.valueName (.instruction i)
  | param i => (·.name) <$> fetch f.params i

/-- The step from a pointer to the pointer it is a copy of: through casts that keep pointers and
addresses with offset zero, up to a stack slot or a parameter. -/
def step (f : Function) : Value → Except Fault (Move (Option Handle))
  | .argument i => .ok (.stop (some (param i)))
  | .constant _ => .ok (.stop none)
  | .instruction i => do
    let inst ← f.instruction i
    match inst.operation with
    | .alloca _ => return .stop (some (slot i))
    | .cast op operand => return if op.keepsPointer then .next operand else .stop none
    | .element base indices =>
      return if indices.all (fun v => v.int? == some 0) then .next base else .stop none
    | _ => return .stop none

/-- The storage a pointer points to, if it is a copy of a pointer to a slot or of a parameter. -/
def resolve (f : Function) (v : Value) : Except Fault (Option Handle) := f.trail (step f) v

end Handle

end GridAccess
