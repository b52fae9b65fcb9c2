import GridAccess.Text.Binary64

set_option autoImplicit false

/-!
# Values

A value names where it is defined: a parameter, an instruction or a constant. Integers are 64-bit
words and floating point constants are kept by their bit patterns, so values compare exactly.
-/

namespace GridAccess

/-- A 64-bit machine word. -/
abbrev Word := BitVec 64

/-- The decimal text of a word read as a signed integer. -/
def Word.text (w : Word) : String := toString w.toInt

/-- A constant. Arrays, structs and vectors are all `aggregate`. -/
inductive Constant where
  | int (w : Word)
  | float (bits : Word)
  | null
  | undef
  | aggregate
  /-- A global, by its place in the module. -/
  | global (i : Nat)
  /-- A constant expression, by its place in the module. -/
  | expr (i : Nat)
deriving DecidableEq, Repr, Inhabited

/-- A value, by where it is defined. -/
inductive Value where
  | argument (i : Nat)
  | instruction (i : Nat)
  | constant (c : Constant)
deriving DecidableEq, Repr, Inhabited

namespace Constant

/-- The place of a constant in the order of constants: its kind, then its payload. -/
def rank : Constant → Nat × Nat
  | int w => (0, w.toNat)
  | float bits => (1, bits.toNat)
  | null => (2, 0)
  | undef => (3, 0)
  | aggregate => (4, 0)
  | global i => (5, i)
  | expr i => (6, i)

/-- The text of a constant. -/
def text : Constant → String
  | int w => "Int(" ++ w.text ++ ")"
  | float bits => "Float(" ++ Text.Binary64.text bits ++ ")"
  | null => "Null"
  | undef => "Undef"
  | aggregate => "Aggregate"
  | global i => "Global(" ++ toString i ++ ")"
  | expr i => "Expr(" ++ toString i ++ ")"

end Constant

namespace Value

/-- An integer constant. -/
def int (w : Word) : Value := constant (.int w)

/-- The word of an integer constant. -/
def int? : Value → Option Word
  | constant (.int w) => some w
  | _ => none

/-- The instruction that defines the value. -/
def instruction? : Value → Option Nat
  | instruction i => some i
  | _ => none

/-- The text of a value. -/
def text : Value → String
  | argument i => "Argument(" ++ toString i ++ ")"
  | instruction i => "Instruction(" ++ toString i ++ ")"
  | constant c => "Constant(" ++ c.text ++ ")"

/-- The place of a value in the order of values: parameters, instructions, constants. -/
def rank : Value → Nat × Nat × Nat
  | argument i => (0, i, 0)
  | instruction i => (1, i, 0)
  | constant c => (2, c.rank)

/-- The order of values. -/
def le (v w : Value) : Bool :=
  let (a, b, c) := v.rank
  let (x, y, z) := w.rank
  a < x || (a == x && (b < y || (b == y && c ≤ z)))

/-- Values in order, equal ones as they stood. -/
def sorted (vs : List Value) : List Value := vs.mergeSort le

end Value

end GridAccess
