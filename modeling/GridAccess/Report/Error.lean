set_option autoImplicit false

/-!
# Errors

The causes for which a module text is refused and an analysis fails, with their wording.
-/

namespace GridAccess

/-- Why a text describes no module. -/
inductive FormatError where
  /-- The text is no JSON value. -/
  | invalidJson (problem : String)
  /-- A field that must be there is not, or is not of the kind it must be. -/
  | missingField (name : String)
  | unknownOpcode (op : String)
  | unknownType (t : String)
  | unknownFunction (name : String)
  /-- A value that cannot be read, or that refers to nothing. -/
  | invalidValue (v : String)
deriving DecidableEq, Repr

/-- Why an analysis fails. -/
inductive AnalysisError where
  /-- An expression of a kind that has no formula. -/
  | unsupported (kind detail : String)
  /-- Two accesses to one array with different numbers of indices. -/
  | inconsistentDimensions (array : String) (siteA dimsA siteB dimsB : Nat)
  /-- A loop without a single block that closes it. -/
  | missingLatch (depth : Nat)
  /-- A loop that its closing block never leaves. -/
  | missingExit (depth : Nat)
  /-- An array that no kernel argument stands for. -/
  | unmappedArray (array : String)
deriving DecidableEq, Repr, Inhabited

/-- Why a run over a module file fails. -/
inductive Error where
  /-- The file cannot be read. -/
  | file (cause : String)
  | format (e : FormatError)
  | analysis (e : AnalysisError)
deriving DecidableEq, Repr

/-- The wording of a format error. -/
def FormatError.message : FormatError → String
  | invalidJson problem => "invalid JSON: " ++ problem
  | missingField name => "missing field `" ++ name ++ "`"
  | unknownOpcode op => "unknown opcode `" ++ op ++ "`"
  | unknownType t => "unknown type `" ++ t ++ "`"
  | unknownFunction name => "unknown function `" ++ name ++ "`"
  | invalidValue v => "invalid value reference " ++ v

/-- The wording of an analysis error. -/
def AnalysisError.message : AnalysisError → String
  | unsupported kind detail => "unsupported " ++ kind ++ " expression: " ++ detail
  | inconsistentDimensions array siteA dimsA siteB dimsB =>
    "array " ++ array ++ " accessed with " ++ toString dimsA ++ " dimensions at site " ++
      toString siteA ++ " but " ++ toString dimsB ++ " dimensions at site " ++ toString siteB
  | missingLatch depth => "loop at depth " ++ toString depth ++ " has no latch"
  | missingExit depth =>
    "loop at depth " ++ toString depth ++ " has no conditional exit at its latch"
  | unmappedArray array => "array " ++ array ++ " is not initialized from a kernel argument"

/-- The wording of an error. -/
def Error.message : Error → String
  | file cause => "IO error: " ++ cause
  | format e => "Format error: " ++ e.message
  | analysis e => "Analysis error: " ++ e.message

end GridAccess
