set_option autoImplicit false

/-!
# Faults

An analysis follows references between the parts of a module. Two things can keep it from
giving an answer at all: a reference that names nothing, and references that run in a circle.
Both are outcomes of their own here, apart from the failures an analysis reports.
-/

namespace GridAccess

/-- Why a walk over references has no answer. -/
inductive Fault where
  /-- A reference names no parameter, instruction, block, global, expression, function or loop,
  or a building step was asked for where none is possible. -/
  | dangling
  /-- The references followed lead back to where they started. -/
  | endless
deriving DecidableEq, Repr, Inhabited

/-- The entry of a table at an index, or a dangling reference. -/
def fetch {α : Type} (table : Array α) (i : Nat) : Except Fault α :=
  match table[i]? with
  | some a => .ok a
  | none => .error .dangling

/-- Why a computation has no result: a fault, or a failure that it reports. -/
inductive Failure (ε : Type) where
  | fault (f : Fault)
  | reported (e : ε)
deriving DecidableEq, Repr

namespace Failure

variable {α ε δ : Type}

/-- A computation that can only be stopped by faults, among those that report failures. -/
def lift : Except Fault α → Except (Failure ε) α
  | .ok a => .ok a
  | .error f => .error (.fault f)

/-- What is reported, put in other words. -/
def map (g : ε → δ) : Failure ε → Failure δ
  | fault f => fault f
  | reported e => reported (g e)

/-- A result or what is reported in its place, with faults kept apart. -/
def report : Except (Failure ε) α → Except Fault (Except ε α)
  | .ok a => .ok (.ok a)
  | .error (fault f) => .error f
  | .error (reported e) => .ok (.error e)

end Failure

end GridAccess
