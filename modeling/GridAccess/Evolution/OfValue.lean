import GridAccess.Evolution.Fold

set_option autoImplicit false

/-!
# Evolutions of values

The evolution of each instruction of a function, from the evolutions of its operands. The phi of
a loop header is a recurrence if the value it gets from inside the loop is the phi itself moved by
something invariant.

An evolution may need others, which may need others again. All of them are found together, in
rounds: in each round every instruction looks its operands up in the result of the round before.
After as many rounds as there are instructions only those are left open whose operands run in a
circle.
-/

namespace GridAccess

namespace Context

/-- How the evolution of a value is looked up. -/
abbrev Lookup := Value → Except Fault Evolution

/-! ## Addresses of elements -/

/-- The byte offsets that indices after the first add within a type, one term for each; none if
the type has no such elements. -/
def offsetsWithin (C : Context) (find : Lookup) (t : Ty) :
    List Value → Except Fault (Option (List Evolution))
  | [] => .ok (some [])
  | index :: rest =>
    match t with
    | .struct name => do
      match ← C.module.fieldAt? name index with
      | some (offset, field) => do
        let more ← C.offsetsWithin find field rest
        return more.map (Evolution.constant (BitVec.ofNat 64 offset) :: ·)
      | none => return none
    | .array element _ => do
      let scaled ← C.product (← find index) (.sizeOf element)
      let more ← C.offsetsWithin find element rest
      return more.map (scaled :: ·)
    | _ => .ok none

/-- The byte offsets that indices add to a base pointer, one term for each index. -/
def elementOffsets (C : Context) (find : Lookup) (base : Value) (indices : List Value) :
    Except Fault (Option (List Evolution)) := do
  match (← C.module.typeOf C.function base).pointee? with
  | none => return none
  | some t =>
    match indices with
    | [] => return some []
    | index :: rest =>
      let scaled ← C.product (← find index) (.sizeOf t)
      let more ← C.offsetsWithin find t rest
      return more.map (scaled :: ·)

/-- The address of an element. -/
def ofElement (C : Context) (find : Lookup) (base : Value) (indices : List Value) :
    Except Fault (Option Evolution) := do
  let start ← find base
  match ← C.elementOffsets find base indices with
  | none => return none
  | some offsets => some <$> C.sum (start :: offsets)

/-! ## Arithmetic -/

/-- The factor a shift to the left by a constant multiplies by. -/
def shiftFactor? (amount : Value) : Option Word :=
  match amount.int? with
  | some w => if w.toNat < 63 then some ((1 : Word) <<< w.toNat) else none
  | none => none

/-- A binary operation. -/
def ofBinary (C : Context) (find : Lookup) (op : BinaryOp) (lhs rhs : Value) :
    Except Fault (Option Evolution) := do
  let l ← find lhs
  match op with
  | .add => some <$> C.sum [l, ← find rhs]
  | .sub => some <$> C.difference l (← find rhs)
  | .mul => some <$> C.product l (← find rhs)
  | .udiv => return some (l.divide (← find rhs))
  | .shl =>
    match shiftFactor? rhs with
    | some w => some <$> C.product l (.constant w)
    | none => return none
  | _ => return none

/-- A cast. -/
def ofCast (find : Lookup) (op : CastOp) (operand : Value) : Except Fault (Option Evolution) := do
  let e ← find operand
  match op with
  | .zext => return some (e.extend false)
  | .sext => return some (e.extend true)
  | .trunc => return some e.truncate
  | .bitcast | .addrspacecast => return some e
  | .ptrtoint | .inttoptr => return none

/-- A choice of the greater of the two values that were compared. -/
def ofSelect (C : Context) (find : Lookup) (cond onTrue onFalse : Value) :
    Except Fault (Option Evolution) := do
  match ← C.comparison? cond with
  | none => return none
  | some c =>
    let pred? :=
      if onTrue = c.lhs ∧ onFalse = c.rhs then some c.pred
      else if onTrue = c.rhs ∧ onFalse = c.lhs then some c.pred.swapped
      else none
    match pred? with
    | none => return none
    | some pred =>
      let a ← find onTrue
      let b ← find onFalse
      match pred with
      | .sgt | .sge => return some (Evolution.maximum true [a, b])
      | .ugt | .uge => return some (Evolution.maximum false [a, b])
      | _ => return none

/-! ## Recurrences -/

/-- The value a phi of a loop header has on entry to the loop and the one it gets from inside the
loop, if there is one of each. -/
def entryAndBack? (l : Loop) : List (Nat × Value) → Option (Value × Value)
  | [(b, v), (c, w)] =>
    match l.contains b, l.contains c with
    | false, true => some (v, w)
    | true, false => some (w, v)
    | _, _ => none
  | _ => none

/-- All the values are computed outside the loop. -/
def allOutside (C : Context) (l : Loop) : List Value → Except Fault Bool
  | [] => .ok true
  | v :: vs =>
    match l.isInvariant C.function v with
    | .ok true => C.allOutside l vs
    | r => r

/-- What each round of a loop adds to the phi `phi`, if `back` is the phi plus or minus something
invariant or an element reached from it by invariant indices. -/
def increment? (C : Context) (find : Lookup) (l : Loop) (phi back : Value) :
    Except Fault (Option Evolution) := do
  match ← C.function.definition back with
  | none => return none
  | some inst =>
    match inst.operation with
    | .binary .add lhs rhs =>
      if ← (if lhs = phi then l.isInvariant C.function rhs else .ok false) then
        some <$> find rhs
      else if ← (if rhs = phi then l.isInvariant C.function lhs else .ok false) then
        some <$> find lhs
      else return none
    | .binary .sub lhs rhs =>
      if ← (if lhs = phi then l.isInvariant C.function rhs else .ok false) then
        some <$> C.negate (← find rhs)
      else return none
    | .element base indices =>
      if ← (if base = phi then C.allOutside l indices else .ok false) then
        match ← C.elementOffsets find base indices with
        | none => return none
        | some [] => return some .zero
        | some offsets => some <$> C.sum offsets
      else return none
    | _ => return none

/-- The recurrence of a phi in block `b`. -/
def ofPhi (C : Context) (find : Lookup) (phi : Value) (b : Nat) (incoming : List (Nat × Value)) :
    Except Fault (Option Evolution) := do
  match C.forest.innermost? b with
  | none => return none
  | some id =>
    let l ← C.forest.loop id
    if l.header ≠ b then return none
    else
      match entryAndBack? l incoming with
      | none => return none
      | some (entry, back) =>
        match ← C.increment? find l phi back with
        | none => return none
        | some step =>
          let start ← find entry
          return some (.recurrence start [step] id)

/-! ## All instructions -/

/-- The evolution of instruction number `i`. One without a rule is not looked into. -/
def ofInstruction (C : Context) (find : Lookup) (i : Nat) (inst : Instruction) :
    Except Fault Evolution := do
  let found ← match inst.operation with
    | .binary op lhs rhs => C.ofBinary find op lhs rhs
    | .cast op operand => ofCast find op operand
    | .element base indices => C.ofElement find base indices
    | .select cond onTrue onFalse => C.ofSelect find cond onTrue onFalse
    | .phi incoming => C.ofPhi find (.instruction i) inst.parent incoming
    | _ => pure none
  return found.getD (.unknown (.instruction i))

/-- The evolution of each instruction, as far as it is known. -/
abbrev Table := Array (Except Fault Evolution)

/-- The evolution of a value by a table. -/
def lookup (t : Table) : Lookup
  | .instruction i =>
    match t[i]? with
    | some r => r
    | none => .error .dangling
  | .constant (.int w) => .ok (.constant w)
  | v => .ok (.unknown v)

/-- Every instruction once more, by the results so far. -/
def round (C : Context) (t : Table) : Table :=
  C.function.instructions.mapIdx fun i inst => C.ofInstruction (lookup t) i inst

/-- The result is not open any more. -/
def isSettled : Except Fault Evolution → Bool
  | .error .endless => false
  | _ => true

/-- Rounds until nothing is open, at most `rounds` of them. -/
def settle (C : Context) : (rounds : Nat) → Table → Table
  | 0, t => t
  | rounds + 1, t => if t.all isSettled then t else C.settle rounds (C.round t)

/-- The evolutions of all instructions. -/
def evolutions (C : Context) : Table :=
  let n := C.function.instructions.size
  C.settle (n + 1) (Array.replicate n (.error .endless))

end Context

/-- A context together with the evolutions of its instructions. -/
structure Scope extends Context where
  evolutions : Context.Table

namespace Scope

/-- The scope of a context. -/
def ofContext (C : Context) : Scope := { toContext := C, evolutions := C.evolutions }

/-- The scope of a function of a module. -/
def ofFunction (m : Module) (f : Function) : Scope := ofContext (Context.ofFunction m f)

/-- The evolution of a value. -/
def evolution (S : Scope) (v : Value) : Except Fault Evolution := Context.lookup S.evolutions v

end Scope

end GridAccess
