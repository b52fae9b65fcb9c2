import GridAccess.CommandLine

set_option autoImplicit false

/-!
# The program
-/

namespace GridAccess.Main

/-- The cause of a failure to read a file, as the system words it. -/
def cause : IO.Error → String
  | .noFileOrDirectory _ code details => s!"{details} (os error {code})"
  | .permissionDenied _ code details => s!"{details} (os error {code})"
  | .inappropriateType _ code details => s!"{details} (os error {code})"
  | e => toString e

/-- The contents of a file, or why it cannot be read. -/
def contents (file : String) : IO (Except String String) := do
  try
    let bytes ← IO.FS.readBinFile file
    match String.fromUTF8? bytes with
    | some text => return .ok text
    | none => return .error "stream did not contain valid UTF-8"
  catch e => return .error (cause e)

end GridAccess.Main

/-- Reads the module file that the arguments name, and prints what is found in it. -/
def main (args : List String) : IO UInt32 := do
  match GridAccess.CommandLine.parse args with
  | .help =>
    IO.print GridAccess.CommandLine.usage
    return 0
  | .invalid =>
    IO.eprint GridAccess.CommandLine.usage
    return 2
  | .run file o =>
    let response := o.respond file (← GridAccess.Main.contents file)
    IO.print response.output
    return response.exit.toUInt32
