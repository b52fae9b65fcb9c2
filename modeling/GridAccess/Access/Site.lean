import GridAccess.Access.Handle
import GridAccess.Formula.OfEvolution
import GridAccess.Formula.Sheet

set_option autoImplicit false

/-!
# Access sites

An element of an array is accessed by a call with the array and one index for each dimension. The
last index belongs to the outermost dimension, which is dimension zero.
-/

namespace GridAccess

/-- One access to an element of an array. -/
structure Access where
  /-- The call, by its place in the function. -/
  site : Nat
  handle : Handle
  /-- The name of the array's storage. -/
  array : String
  /-- The innermost loop around the call. -/
  loop : Option Nat
  /-- The dimensions, the outermost first. -/
  dims : List Dimension
  /-- Something is stored to the element. -/
  isWrite : Bool
deriving DecidableEq, Repr

/-- The text of an access: the array and its indices in the order of the call. -/
def Access.text (a : Access) : String :=
  a.array ++ ": " ++ String.join (a.dims.reverse.map fun d => "[ " ++ d.formula ++ " ]")

/-- An access that could not be described, with the formulas of the indices before the one that
failed. -/
structure SiteFailure where
  site : Nat
  error : AnalysisError
  built : List String := []
deriving DecidableEq, Repr

/-- The text of what was described before the failure. -/
def SiteFailure.text (e : SiteFailure) : String :=
  match e.built with
  | [] => "after no dimension"
  | built => "after" ++ String.join (built.map fun formula => " [ " ++ formula ++ " ]")

/-- What accesses are described with. -/
structure Extractor where
  scope : Scope
  writer : Writer
  /-- The instructions that addresses stored to are derived from. -/
  stored : List Nat

namespace Extractor

/-- The instruction that the address of a store is derived from. -/
def storeRoot? (f : Function) (inst : Instruction) : Except Fault (Option Nat) :=
  match inst.operation with
  | .store _ ptr => Value.instruction? <$> f.addressRoot ptr
  | _ => .ok none

/-- The extractor for the function of a scope. -/
def ofScope (S : Scope) (builtins : Builtins) (policy : MarkPolicy) : Except Fault Extractor := do
  let roots ← S.function.instructions.toList.mapM (storeRoot? S.function)
  return { scope := S, writer := Writer.ofScope S builtins policy, stored := roots.filterMap id }

/-- What is known of an index. -/
def dimension (X : Extractor) (index : Value) : Except (Failure AnalysisError) Dimension := do
  let e ← Failure.lift (X.scope.evolution index)
  let written := X.writer.ofEvolution X.scope e false
  let formula ← written.result
  return (Sheet.write {} written).dimension formula

/-- The dimensions of a call, the outermost first, from the remaining indices and those `built`
already. -/
def dimensions (X : Extractor) (site : Nat) (built : List Dimension) :
    List Value → Except (Failure SiteFailure) (List Dimension)
  | [] => .ok built
  | index :: rest =>
    match X.dimension index with
    | .ok d => X.dimensions site (d :: built) rest
    | .error e =>
      .error (e.map fun error => { site, error, built := built.reverse.map (·.formula) })

/-- The access that a call makes, in the loop given for it. -/
def extract (X : Extractor) (site : Nat) (loop : Option Nat) :
    Except (Failure SiteFailure) Access := do
  let f := X.scope.function
  let inst ← Failure.lift (f.instruction site)
  match inst.operation with
  | .call _ (array :: indices) =>
    match ← Failure.lift (Handle.resolve f array) with
    | none => .error (.reported { site, error := .unmappedArray array.text })
    | some handle =>
      let name ← Failure.lift (handle.name f)
      let dims ← X.dimensions site [] indices
      return { site, handle, array := name, loop, dims, isWrite := X.stored.contains site }
  | _ => .error (.reported { site, error := .unsupported "access" (Writer.place site) })

end Extractor

end GridAccess
