import GridAccess.Report.Error

set_option autoImplicit false

/-!
# Remarks

A remark records an error with the place it belongs to. What concerns one kernel is a warning, as
the other kernels are still analysed; what concerns the whole module is an error.
-/

namespace GridAccess

/-- What a remark is about. -/
inductive Location where
  /-- A kernel, and in it perhaps an access site. -/
  | kernel (name : String) (site : Option Nat)
  | module
deriving DecidableEq, Repr

/-- How grave a remark is. -/
inductive Severity where
  | warning | error
deriving DecidableEq, Repr

/-- The text of a location. -/
def Location.text : Location → String
  | kernel name (some site) => name ++ ":%" ++ toString site
  | kernel name none => name
  | module => "<module>"

/-- The severity of what is remarked about a location. -/
def Location.severity : Location → Severity
  | kernel _ _ => .warning
  | module => .error

/-- The text of a severity. -/
def Severity.text : Severity → String
  | warning => "warning"
  | error => "error"

/-- An error with its location and perhaps a note. -/
structure Remark where
  location : Location
  error : Error
  note : Option String := none
deriving DecidableEq, Repr

/-- The text of a remark. -/
def Remark.text (r : Remark) : String :=
  r.location.text ++ ": [" ++ r.location.severity.text ++ "] " ++ r.error.message ++
    match r.note with
    | some note => " " ++ note
    | none => ""

end GridAccess
