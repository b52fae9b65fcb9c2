set_option autoImplicit false

/-!
# Operation codes

Binary operators, comparison predicates and casts, with the mnemonics module texts use for them.
-/

namespace GridAccess

/-- A binary operator. -/
inductive BinaryOp where
  | add | sub | mul | udiv | sdiv | urem | srem | shl | lshr | ashr | and | or | xor
deriving DecidableEq, Repr, Inhabited

/-- A comparison of integers or pointers. -/
inductive Predicate where
  | eq | ne | ugt | uge | ult | ule | sgt | sge | slt | sle
deriving DecidableEq, Repr, Inhabited

/-- A conversion between types. -/
inductive CastOp where
  | trunc | zext | sext | bitcast | ptrtoint | inttoptr | addrspacecast
deriving DecidableEq, Repr, Inhabited

namespace BinaryOp

/-- All binary operators. -/
def all : List BinaryOp :=
  [add, sub, mul, udiv, sdiv, urem, srem, shl, lshr, ashr, and, or, xor]

/-- The mnemonic of an operator. -/
def mnemonic : BinaryOp → String
  | add => "add"
  | sub => "sub"
  | mul => "mul"
  | udiv => "udiv"
  | sdiv => "sdiv"
  | urem => "urem"
  | srem => "srem"
  | shl => "shl"
  | lshr => "lshr"
  | ashr => "ashr"
  | and => "and"
  | or => "or"
  | xor => "xor"

/-- The name of an operator in capitals, one for each word it is made of. -/
def title : BinaryOp → String
  | add => "Add"
  | sub => "Sub"
  | mul => "Mul"
  | udiv => "UDiv"
  | sdiv => "SDiv"
  | urem => "URem"
  | srem => "SRem"
  | shl => "Shl"
  | lshr => "LShr"
  | ashr => "AShr"
  | and => "And"
  | or => "Or"
  | xor => "Xor"

/-- The operator with a mnemonic. -/
def ofMnemonic? (s : String) : Option BinaryOp := all.find? (·.mnemonic == s)

end BinaryOp

namespace Predicate

/-- All predicates. -/
def all : List Predicate := [eq, ne, ugt, uge, ult, ule, sgt, sge, slt, sle]

/-- The mnemonic of a predicate. -/
def mnemonic : Predicate → String
  | eq => "eq"
  | ne => "ne"
  | ugt => "ugt"
  | uge => "uge"
  | ult => "ult"
  | ule => "ule"
  | sgt => "sgt"
  | sge => "sge"
  | slt => "slt"
  | sle => "sle"

/-- The predicate with a mnemonic. -/
def ofMnemonic? (s : String) : Option Predicate := all.find? (·.mnemonic == s)

/-- The predicate that holds exactly when this one does not. -/
def inverse : Predicate → Predicate
  | eq => ne
  | ne => eq
  | ugt => ule
  | uge => ult
  | ult => uge
  | ule => ugt
  | sgt => sle
  | sge => slt
  | slt => sge
  | sle => sgt

/-- The predicate that holds of two operands when this one holds of them exchanged. -/
def swapped : Predicate → Predicate
  | eq => eq
  | ne => ne
  | ugt => ult
  | uge => ule
  | ult => ugt
  | ule => uge
  | sgt => slt
  | sge => sle
  | slt => sgt
  | sle => sge

/-- The sign of a comparison between two formulas. -/
def symbol : Predicate → String
  | eq => " == "
  | ne => " != "
  | ugt | sgt => " > "
  | uge | sge => " >= "
  | ult | slt => " < "
  | ule | sle => " <= "

end Predicate

namespace CastOp

/-- All casts. -/
def all : List CastOp := [trunc, zext, sext, bitcast, ptrtoint, inttoptr, addrspacecast]

/-- The mnemonic of a cast. -/
def mnemonic : CastOp → String
  | trunc => "trunc"
  | zext => "zext"
  | sext => "sext"
  | bitcast => "bitcast"
  | ptrtoint => "ptrtoint"
  | inttoptr => "inttoptr"
  | addrspacecast => "addrspacecast"

/-- The name of a cast in capitals, one for each word it is made of. -/
def title : CastOp → String
  | trunc => "Trunc"
  | zext => "ZExt"
  | sext => "SExt"
  | bitcast => "BitCast"
  | ptrtoint => "PtrToInt"
  | inttoptr => "IntToPtr"
  | addrspacecast => "AddrSpaceCast"

/-- The cast with a mnemonic. -/
def ofMnemonic? (s : String) : Option CastOp := all.find? (·.mnemonic == s)

/-- The cast only reads a pointer as another pointer type; its value stays. -/
def keepsPointer : CastOp → Bool
  | bitcast | addrspacecast => true
  | _ => false

end CastOp

end GridAccess
