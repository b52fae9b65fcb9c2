import GridAccess.Kernel.Analysis
import GridAccess.Kernel.Name

set_option autoImplicit false

/-!
# Runs

A run analyses the kernels of a module one after another. A kernel that succeeds is sent to every
sink, one that fails leaves a remark. With `failFast` the first failure ends the run.
-/

namespace GridAccess

/-- What a run writes to: the sinks and the remarks made so far. -/
structure Session where
  sinks : List Sink := []
  remarks : List Remark := []
deriving DecidableEq, Repr

namespace Session

/-- The session after a kernel has been sent to every sink. -/
def publish (s : Session) (k : Kernel) : Session :=
  { s with sinks := s.sinks.map (·.send k.events) }

/-- The session after a remark. -/
def note (s : Session) (r : Remark) : Session := { s with remarks := s.remarks ++ [r] }

/-- The remarks, and the session without them. -/
def takeRemarks (s : Session) : List Remark × Session := (s.remarks, { s with remarks := [] })

end Session

/-- How a run ended: the session after it, and the kernels or the error that ended it. -/
structure Outcome where
  session : Session
  result : Except AnalysisError (List Kernel)

namespace Config

/-- The rest of a run, after the kernels in `done`. -/
def runFrom (c : Config) (m : Module) (s : Session) (done : List Kernel) :
    List Nat → Except Fault Outcome
  | [] => .ok { session := s, result := .ok done }
  | index :: rest =>
    match c.analyze m index with
    | .ok k => c.runFrom m (s.publish k) (done ++ [k]) rest
    | .error (.fault f) => .error f
    | .error (.reported e) =>
      let s := s.note e.remark
      if c.failFast then .ok { session := s, result := .error e.error }
      else c.runFrom m s done rest

/-- A run over the kernels of a module. -/
def run (c : Config) (m : Module) (s : Session) : Except Fault Outcome :=
  c.runFrom m s [] m.kernels

end Config

end GridAccess
