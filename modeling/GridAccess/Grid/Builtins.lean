import GridAccess.Grid.Register
import GridAccess.IR.Function
import GridAccess.Text.Find

set_option autoImplicit false

/-!
# Builtins

The names by which index registers and the entry points of the array library are recognised.
-/

namespace GridAccess

/-- The names of the builtins. -/
structure Builtins where
  /-- What the readable name of every method of the array class starts with. -/
  arrayClass : String := "cudarrays::dynarray"
  /-- What the readable name of an element access contains. -/
  accessOperator : String := "operator()"
  /-- What the readable name of a query for a dimension contains. -/
  dimAccessor : String := "get_dim"
  /-- What the link name of every function of the array library contains. -/
  runtimeNamespace : String := "cudarrays"
  /-- Of these, the link name of a function that returns array storage contains one. -/
  storageMarkers : List String := ["array_storage", "dynarray"]
  /-- What the link name of a conversion between address spaces starts with. -/
  conversionStart : String := "llvm.nvvm.ptr.gen.to."
  /-- What the name of a global with block offsets starts with. -/
  offsetStart : String := "offset"
  /-- What the name of a struct of block offsets contains. -/
  offsetStruct : String := "dim3"
deriving DecidableEq, Repr, Inhabited

/-- The word for a kind of register in the names of the functions that read it. -/
def RegisterKind.source : RegisterKind → String
  | threadIndex => "tid"
  | blockIndex => "ctaid"
  | blockSize => "ntid"

/-- The link name of the function that reads a register. -/
def Register.reader (r : Register) : String :=
  "llvm.nvvm.read.ptx.sreg." ++ r.kind.source ++ "." ++ r.axis.text

/-- All index registers. -/
def Register.all : List Register :=
  [RegisterKind.threadIndex, .blockIndex, .blockSize].flatMap fun k => Axis.all.map fun a => ⟨k, a⟩

/-- The register a function reads, by the function's link name. -/
def Register.ofReader? (name : String) : Option Register :=
  Register.all.find? fun r => r.reader == name

namespace Builtins

/-- The function is an element access that returns, not the failing branch of a bounds check. -/
def isArrayAccess (t : Builtins) (f : Function) : Bool :=
  Text.startsWith f.displayName t.arrayClass && Text.contains f.displayName t.accessOperator &&
    !f.noReturn

/-- The function returns the length of a dimension. -/
def isDimAccessor (t : Builtins) (f : Function) : Bool :=
  Text.startsWith f.displayName t.arrayClass && Text.contains f.displayName t.dimAccessor

/-- The function returns a pointer into the storage of an array. -/
def isStorageCall (t : Builtins) (f : Function) : Bool :=
  Text.contains f.name t.runtimeNamespace && t.storageMarkers.any (Text.contains f.name)

/-- The function converts a pointer between address spaces. -/
def isConversion (t : Builtins) (f : Function) : Bool :=
  Text.startsWith f.name t.conversionStart && f.params.size == 1

/-- The global of this name holds block offsets. -/
def isOffsetGlobal (t : Builtins) (name : String) : Bool := Text.startsWith name t.offsetStart

/-- The parameter holds block offsets: its type is a struct of them, and the first `off` in its
name ends the name. -/
def isOffsetParam (t : Builtins) (p : Param) : Bool :=
  (match p.type.structName? with
    | some name => Text.contains name t.offsetStruct
    | none => false) && Text.firstEndsWith p.name "off"

end Builtins

end GridAccess
