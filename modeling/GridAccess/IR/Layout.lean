import GridAccess.Fault
import GridAccess.IR.Ty

set_option autoImplicit false

/-!
# Data layout

Sizes and alignments of types in bytes, for one pointer size and one table of structs. The size
of a type is the distance between two neighbours in an array of it, tail padding included. A
struct that contains itself has neither size nor alignment.
-/

namespace GridAccess

/-- The size and the alignment of a type, in bytes. -/
structure Extent where
  size : Nat
  align : Nat
deriving DecidableEq, Repr, Inhabited

/-- The pointer size and the structs of a module. A struct defined again hides its earlier
definition. -/
structure Layout where
  pointerSize : Nat := 8
  structs : List (String × List Ty) := []
deriving DecidableEq, Repr, Inhabited

/-- The least multiple of `align` that is at least `n`. Alignments zero and one ask for nothing. -/
def alignTo (n align : Nat) : Nat :=
  if align ≤ 1 then n else (n + align - 1) / align * align

namespace Extent

/-- An extent of at least `size` bytes, with tail padding. -/
def padded (size align : Nat) : Extent := ⟨alignTo size align, align⟩

/-- The alignment of an integer of `bytes` bytes: the next power of two, at most eight. -/
def integerAlign (bytes : Nat) : Nat :=
  if bytes ≤ 1 then 1 else if bytes ≤ 2 then 2 else if bytes ≤ 4 then 4 else 8

/-- The end of a run of fields that begins at `offset`, each field at its alignment. -/
def fieldsEnd (offset : Nat) (fields : List Extent) : Nat :=
  fields.foldl (fun off f => alignTo off f.align + f.size) offset

/-- The alignment of a struct: the greatest of its fields, or one if it has none. -/
def fieldsAlign : List Extent → Nat
  | [] => 1
  | f :: rest => rest.foldl (fun a g => max a g.align) f.align

/-- The extent of a struct with these fields. -/
def ofFields (fields : List Extent) : Extent :=
  padded (fieldsEnd 0 fields) (fieldsAlign fields)

end Extent

namespace Layout

/-- The layout with one more struct. -/
def define (l : Layout) (name : String) (fields : List Ty) : Layout :=
  { l with structs := (name, fields) :: l.structs }

/-- The fields of a struct. -/
def fields? (l : Layout) (name : String) : Option (List Ty) := l.structs.lookup name

/-- The extent of a type, given those of the structs. -/
def extentWith (pointerSize : Nat) (struct : String → Except Fault Extent) :
    Ty → Except Fault Extent
  | .void => .ok ⟨0, 1⟩
  | .int bits =>
    let bytes := (bits + 7) / 8
    .ok (Extent.padded bytes (Extent.integerAlign bytes))
  | .float => .ok ⟨4, 4⟩
  | .double => .ok ⟨8, 8⟩
  | .pointer _ _ => .ok (Extent.padded pointerSize pointerSize)
  | .struct name => struct name
  | .array t n =>
    (fun e => Extent.padded (e.size * n) e.align) <$> extentWith pointerSize struct t

/-- The extent of a struct, unfolding at most `depth` structs inside one another. One that is not
defined has no fields. -/
def structExtent (l : Layout) : (depth : Nat) → String → Except Fault Extent
  | 0, _ => .error .endless
  | depth + 1, name =>
    Extent.ofFields <$>
      ((l.fields? name).getD []).mapM (extentWith l.pointerSize (l.structExtent depth))

/-- The extent of a type. Structs nest deeper than there are structs only if one of them contains
itself; then there is no extent. -/
def extent (l : Layout) (t : Ty) : Except Fault Extent :=
  extentWith l.pointerSize (l.structExtent (l.structs.length + 1)) t

/-- The size of a type in bytes. -/
def sizeOf (l : Layout) (t : Ty) : Except Fault Nat := Extent.size <$> l.extent t

/-- The alignment of a type in bytes. -/
def alignOf (l : Layout) (t : Ty) : Except Fault Nat := Extent.align <$> l.extent t

/-- The byte offset of a field inside a struct. The fields after it are not looked at. -/
def fieldOffset? (l : Layout) (name : String) (i : Nat) : Except Fault (Option Nat) :=
  match (l.fields? name).bind fun fields => (fields[i]?).map fun t => (fields.take i, t) with
  | none => .ok none
  | some (before, field) => do
    let before ← before.mapM l.extent
    let align ← l.alignOf field
    return some (alignTo (Extent.fieldsEnd 0 before) align)

end Layout

end GridAccess
