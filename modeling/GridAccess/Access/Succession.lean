import GridAccess.Access.Site

set_option autoImplicit false

/-!
# One access after another

An extractor has one sheet for all the dimensions of all the accesses it describes. The formula of
an index is written on it, and the dimension is taken off. The sheet is cleared as well after a
formula that could not be written to its end.
-/

namespace GridAccess

namespace Extractor

/-- What is known of an index, written on a sheet, and the sheet after that. -/
def dimensionOn (X : Extractor) (sheet : Sheet) (index : Value) :
    Except (Failure AnalysisError) Dimension × Sheet :=
  match X.scope.evolution index with
  | .error f => (.error (.fault f), sheet)
  | .ok e =>
    let written := X.writer.ofEvolution X.scope e false
    let sheet := sheet.write written
    match written.result with
    | .ok formula =>
      let (d, sheet) := sheet.take formula
      (.ok d, sheet)
    | .error error =>
      let (_, sheet) := sheet.take ""
      (.error error, sheet)

/-- The dimensions of a call, written on a sheet one after another: the outermost first, from the
remaining indices and those `built` already. -/
def dimensionsOn (X : Extractor) (site : Nat) (sheet : Sheet) (built : List Dimension) :
    List Value → Except (Failure SiteFailure) (List Dimension) × Sheet
  | [] => (.ok built, sheet)
  | index :: rest =>
    match X.dimensionOn sheet index with
    | (.ok d, sheet) => X.dimensionsOn site sheet (d :: built) rest
    | (.error e, sheet) =>
      (.error (e.map fun error => { site, error, built := built.reverse.map (·.formula) }), sheet)

/-- The access that a call makes, in the loop given for it, described on a sheet. -/
def extractOn (X : Extractor) (sheet : Sheet) (site : Nat) (loop : Option Nat) :
    Except (Failure SiteFailure) Access × Sheet :=
  let f := X.scope.function
  match f.instruction site with
  | .error e => (.error (.fault e), sheet)
  | .ok inst =>
    match inst.operation with
    | .call _ (array :: indices) =>
      match Handle.resolve f array with
      | .error e => (.error (.fault e), sheet)
      | .ok none => (.error (.reported { site, error := .unmappedArray array.text }), sheet)
      | .ok (some handle) =>
        match handle.name f with
        | .error e => (.error (.fault e), sheet)
        | .ok name =>
          let (dims, sheet) := X.dimensionsOn site sheet [] indices
          ((fun dims => { site, handle, array := name, loop, dims,
                          isWrite := X.stored.contains site }) <$> dims, sheet)
    | _ => (.error (.reported { site, error := .unsupported "access" (Writer.place site) }), sheet)

end Extractor

end GridAccess
