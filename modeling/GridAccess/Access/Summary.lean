import GridAccess.Access.Provenance
import GridAccess.Access.Site

set_option autoImplicit false

/-!
# Summaries

The accesses of a function, grouped by array, and the record that is made of each group.
-/

namespace GridAccess

/-- The accesses of a function by array, the arrays in the order of their handles. -/
structure AccessSummary where
  name : String
  arrays : List (Handle × List Access) := []
deriving DecidableEq, Repr

/-- Everything known about one array of a kernel. -/
structure ArrayRecord where
  handle : Handle
  array : String
  /-- The parameter of the kernel that the array stands for. -/
  arg : Nat
  dims : Nat
  /-- For each dimension the axes that some access depends on there. -/
  axes : List AxisSet
  isRead : Bool
  isWritten : Bool
deriving DecidableEq, Repr

namespace AccessSummary

/-- The summary with one more access. -/
def add (s : AccessSummary) (a : Access) : AccessSummary :=
  { s with arrays := Sorted.alter a.handle (fun group => group.getD [] ++ [a]) s.arrays }

/-- The summary with a group for an array: the one it has, else one without accesses. -/
def declare (s : AccessSummary) (h : Handle) : AccessSummary :=
  { s with arrays := Sorted.alter h (fun group => group.getD []) s.arrays }

/-- All accesses, array by array. -/
def accesses (s : AccessSummary) : List Access := s.arrays.flatMap (·.2)

/-- The text of a summary: the function and a line for each access. -/
def text (s : AccessSummary) : String :=
  s.name ++ "\n" ++ String.join (s.accesses.map fun a => "\t" ++ a.text ++ "\n")

/-- The axes that some access depends on in a dimension. -/
def axesAt (group : List Access) (dim : Nat) : AxisSet :=
  group.foldl (fun s a => s.union ((a.dims[dim]?.map (·.axes)).getD AxisSet.empty)) AxisSet.empty

/-- The record of an array from its accesses. They must agree on the number of dimensions, and a
parameter must stand for the array. -/
def record (p : Provenance) (h : Handle) (group : List Access) :
    Except AnalysisError ArrayRecord :=
  match group with
  | [] => .error (.unsupported "array" "array without access sites")
  | first :: _ =>
    let dims := first.dims.length
    match group.find? fun a => a.dims.length ≠ dims with
    | some other =>
      .error (.inconsistentDimensions first.array first.site dims other.site other.dims.length)
    | none =>
      match p.paramOf? h with
      | none => .error (.unmappedArray first.array)
      | some arg =>
        .ok {
          handle := h
          array := first.array
          arg := arg
          dims := dims
          axes := (List.range dims).map (axesAt group)
          isRead := p.reads.contains h
          isWritten := p.writes.contains h }

/-- The records of all arrays, in the order of their handles. -/
def aggregate (s : AccessSummary) (p : Provenance) : Except AnalysisError (List ArrayRecord) :=
  s.arrays.mapM fun (h, group) => record p h group

end AccessSummary

end GridAccess
