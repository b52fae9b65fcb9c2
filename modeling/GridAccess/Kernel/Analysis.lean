import GridAccess.Access.Succession
import GridAccess.Access.Summary
import GridAccess.Kernel.Event
import GridAccess.Report.Remark

set_option autoImplicit false

/-!
# The analysis of a kernel

The accesses of a kernel are described site by site, block by block, all on one sheet. The first
site that cannot be described ends the analysis. Then the accesses to each array are put together.
-/

namespace GridAccess

/-- What an analysis is set up with. -/
structure Config where
  builtins : Builtins := {}
  policy : MarkPolicy := .blockIndex
  /-- A run ends at the first kernel that fails. -/
  failFast : Bool := false
deriving DecidableEq, Repr

/-- The result of the analysis of a kernel. -/
structure Kernel where
  index : Nat
  /-- The link name. -/
  name : String
  accesses : AccessSummary
  arrays : List ArrayRecord
deriving DecidableEq, Repr

/-- A kernel that could not be analysed. -/
structure KernelFailure where
  kernel : String
  site : Option Nat
  error : AnalysisError
  /-- What was described before the failure. -/
  context : Option String
deriving DecidableEq, Repr

/-- The remark about a kernel that failed. -/
def KernelFailure.remark (e : KernelFailure) : Remark :=
  { location := .kernel e.kernel e.site, error := .analysis e.error, note := e.context }

namespace ArrayRecord

/-- The events for one dimension. -/
def axisEvents (kernel : String) (arg dim : Nat) (s : AxisSet) : List Event :=
  s.axes.map (.axis kernel arg dim)

/-- The events for an array: first what it is, then what its indices depend on. -/
def events (kernel : String) (r : ArrayRecord) : List Event :=
  .array kernel r.arg r.dims r.isRead r.isWritten ::
    (r.axes.zipIdx.flatMap fun (s, dim) => axisEvents kernel r.arg dim s)

end ArrayRecord

namespace Kernel

/-- The events for a kernel. -/
def events (k : Kernel) : List Event :=
  .reset k.name :: k.arrays.flatMap (ArrayRecord.events k.name)

/-- The text of a kernel: the listing of its accesses. -/
def text (k : Kernel) : String := k.accesses.text

end Kernel

namespace Config

/-- The instruction is an access to an element of an array. -/
def isAccess (c : Config) (m : Module) (inst : Instruction) : Except Fault Bool := do
  match ← m.callee inst with
  | some g => return c.builtins.isArrayAccess g
  | none => return false

/-- The places of the instructions of a function, block by block, each with its block. -/
def sites (f : Function) : List (Nat × Nat) :=
  f.blocks.toList.zipIdx.flatMap fun (block, b) => block.instructions.map fun i => (b, i)

/-- The accesses at some sites, described on a sheet one after another and added to a summary, and
the sheet after that. -/
def collectOn (c : Config) (X : Extractor) (sheet : Sheet) (s : AccessSummary) :
    List (Nat × Nat) → Except (Failure SiteFailure) AccessSummary × Sheet
  | [] => (.ok s, sheet)
  | (b, i) :: rest =>
    match X.scope.function.instruction i >>= c.isAccess X.scope.module with
    | .error e => (.error (.fault e), sheet)
    | .ok false => c.collectOn X sheet s rest
    | .ok true =>
      match X.extractOn sheet i (X.scope.forest.innermost? b) with
      | (.error e, sheet) => (.error e, sheet)
      | (.ok a, sheet) => c.collectOn X sheet (s.add a) rest

/-- The site that an aggregation fails at. -/
def blamed : AnalysisError → Option Nat
  | .inconsistentDimensions _ _ _ siteB _ => some siteB
  | _ => none

/-- The analysis of the function at a place, whatever its name. -/
def analyze (c : Config) (m : Module) (index : Nat) :
    Except (Failure KernelFailure) Kernel := do
  let f ← Failure.lift (fetch m.functions index)
  let S := Scope.ofFunction m f
  let X ← Failure.lift (Extractor.ofScope S c.builtins c.policy)
  match (c.collectOn X {} { name := f.displayName } (sites f)).1 with
  | .error e =>
    .error (e.map fun e =>
      { kernel := f.displayName, site := some e.site, error := e.error, context := some e.text })
  | .ok summary =>
    let p ← Failure.lift (Provenance.ofFunction m c.builtins f)
    match summary.aggregate p with
    | .error e =>
      .error (.reported
        { kernel := f.displayName, site := blamed e, error := e, context := none })
    | .ok arrays => return { index, name := f.name, accesses := summary, arrays }

end Config

end GridAccess
