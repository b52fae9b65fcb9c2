import GridAccess.Access.Handle
import GridAccess.Grid.Builtins
import GridAccess.IR.Module
import GridAccess.Sorted

set_option autoImplicit false

/-!
# Provenance

Which arrays a function loads from and stores to, and which parameter each stack slot is a copy
of. Elements of an array are reached through calls that return pointers into its storage.
-/

namespace GridAccess

/-- Where the arrays of a function come from and how they are used. -/
structure Provenance where
  /-- The arrays loaded from, in order. -/
  reads : List Handle := []
  /-- The arrays stored to, in order. -/
  writes : List Handle := []
  /-- The parameter that was last stored to each slot, in the order of slots. -/
  args : List (Nat × Nat) := []
deriving DecidableEq, Repr

namespace Provenance

/-- The parameter that a handle stands for. -/
def paramOf? (p : Provenance) : Handle → Option Nat
  | .param i => some i
  | .slot i => Sorted.find? i p.args

/-- An array is loaded from. -/
def read (p : Provenance) (h : Handle) : Provenance := { p with reads := Sorted.insert h p.reads }

/-- An array is stored to. -/
def write (p : Provenance) (h : Handle) : Provenance :=
  { p with writes := Sorted.insert h p.writes }

/-- A parameter is stored to a slot. -/
def hold (p : Provenance) (slot param : Nat) : Provenance :=
  { p with args := Sorted.alter slot (fun _ => param) p.args }

/-- The step from a pointer to the pointer it is a copy of: through bit casts and conversions
between address spaces, up to a stack slot or a parameter. -/
def slotStep (m : Module) (t : Builtins) (f : Function) :
    Value → Except Fault (Move (Option Handle))
  | .argument i => .ok (.stop (some (.param i)))
  | .constant _ => .ok (.stop none)
  | .instruction i => do
    let inst ← f.instruction i
    match inst.operation with
    | .alloca _ => return .stop (some (.slot i))
    | .cast .bitcast operand => return .next operand
    | .call callee args =>
      let g ← fetch m.functions callee
      match t.isConversion g, args with
      | true, operand :: _ => return .next operand
      | _, _ => return .stop none
    | _ => return .stop none

/-- The slot or parameter a pointer is a copy of. -/
def slotSource (m : Module) (t : Builtins) (f : Function) (v : Value) :
    Except Fault (Option Handle) :=
  f.trail (slotStep m t f) v

/-- The array whose storage an address points into: the first argument of the call that the address
is derived from. -/
def storageSource (m : Module) (t : Builtins) (f : Function) (ptr : Value) :
    Except Fault (Option Handle) := do
  let root ← f.addressRoot ptr
  match ← f.definition root with
  | none => return none
  | some inst =>
    match inst.operation with
    | .call callee args =>
      let g ← fetch m.functions callee
      match t.isStorageCall g, args with
      | true, array :: _ => slotSource m t f array
      | _, _ => return none
    | _ => return none

/-- What an instruction adds. -/
def observe (m : Module) (t : Builtins) (f : Function) (p : Provenance) (inst : Instruction) :
    Except Fault Provenance :=
  match inst.operation with
  | .load ptr => do
    match ← storageSource m t f ptr with
    | some h => return p.read h
    | none => return p
  | .store value ptr => do
    let p := match ← storageSource m t f ptr with
      | some h => p.write h
      | none => p
    let target ← slotSource m t f ptr
    match value, target with
    | .argument i, some (.slot slot) => return p.hold slot i
    | _, _ => return p
  | _ => .ok p

/-- The provenance of the arrays of a function. -/
def ofFunction (m : Module) (t : Builtins) (f : Function) : Except Fault Provenance :=
  f.instructions.toList.foldlM (observe m t f) {}

end Provenance

end GridAccess
