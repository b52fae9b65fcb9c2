set_option autoImplicit false

/-!
# Types

The first-class types of the intermediate representation. A struct is named; its fields are in
the data layout of the module.
-/

namespace GridAccess

/-- A first-class type. -/
inductive Ty where
  | void
  | int (bits : Nat)
  | float
  | double
  | pointer (pointee : Ty) (space : Nat)
  | struct (name : String)
  | array (element : Ty) (length : Nat)
deriving DecidableEq, Repr, Inhabited

namespace Ty

/-- A pointer into the default address space. -/
def pointerTo (t : Ty) : Ty := pointer t 0

/-- The type of truth values. -/
def truth : Ty := int 1

/-- The type of integer constants. -/
def word : Ty := int 64

/-- The type is an integer type. -/
def isInteger : Ty → Bool
  | int _ => true
  | _ => false

/-- The type is a pointer type. -/
def isPointer : Ty → Bool
  | pointer _ _ => true
  | _ => false

/-- What a pointer type points to. -/
def pointee? : Ty → Option Ty
  | pointer t _ => some t
  | _ => none

/-- The name of a struct type. -/
def structName? : Ty → Option String
  | struct name => some name
  | _ => none

/-- The text of a type. -/
def text : Ty → String
  | void => "void"
  | int bits => "i" ++ toString bits
  | float => "float"
  | double => "double"
  | pointer t space =>
    if space = 0 then t.text ++ "*" else t.text ++ " addrspace(" ++ toString space ++ ")*"
  | struct name => "%" ++ name
  | array t n => "[" ++ toString n ++ " x " ++ t.text ++ "]"

end Ty

end GridAccess
