import GridAccess.IR.Decode
import GridAccess.Kernel.Run

set_option autoImplicit false

/-!
# The command line

The arguments name one module file and set flags, in any order. What is printed, and the exit code,
follow from the arguments and from the contents of the file.
-/

namespace GridAccess.CommandLine

/-- What the arguments ask for. -/
structure Options where
  file : Option String := none
  anyIndex : Bool := false
  failFast : Bool := false
  quiet : Bool := false
deriving DecidableEq, Repr

/-- What a command line means. -/
inductive Request where
  | run (file : String) (o : Options)
  | help
  /-- An argument is not understood, or the file is not named exactly once. -/
  | invalid
deriving DecidableEq, Repr

/-- What is asked for once all arguments are read. -/
def Options.request (o : Options) : Request :=
  match o.file with
  | some file => .run file o
  | none => .invalid

/-- The rest of the arguments, none of which is a flag any more. -/
def parseFiles (o : Options) : List String → Request
  | [] => o.request
  | a :: rest =>
    match o.file with
    | some _ => .invalid
    | none => parseFiles { o with file := some a } rest

/-- The rest of the arguments. After `--` no argument is a flag; a single `-` never is. -/
def parseFrom (o : Options) : List String → Request
  | [] => o.request
  | a :: rest =>
    if a = "--" then parseFiles o rest
    else if a = "--any-index-mask" then parseFrom { o with anyIndex := true } rest
    else if a = "--fail-fast" then parseFrom { o with failFast := true } rest
    else if a = "--quiet" then parseFrom { o with quiet := true } rest
    else if a = "--help" || Text.startsWith a "-h" then .help
    else if Text.startsWith a "-" && a ≠ "-" then .invalid
    else
      match o.file with
      | some _ => .invalid
      | none => parseFrom { o with file := some a } rest

/-- What a list of arguments means. -/
def parse (args : List String) : Request := parseFrom {} args

/-- How arguments are to be given. -/
def usage : String :=
  "USAGE: [--any-index-mask] [--fail-fast] [--quiet] <module>\n" ++
    "    <module>            The JSON description of the kernel module\n" ++
    "    --any-index-mask    Mark dimensions indexed by any grid register, not only blockIdx\n" ++
    "    --fail-fast         Stop at the first kernel that fails\n" ++
    "    --quiet             Do not print the access listings\n"

/-- The configuration that options ask for. -/
def Options.config (o : Options) : Config :=
  { policy := if o.anyIndex then .anyIndex else .blockIndex, failFast := o.failFast }

/-- What the program answers with. -/
structure Response where
  exit : Nat
  output : String
deriving DecidableEq, Repr

/-- The exit code of a run that failed. -/
def failed : Nat := 255

/-- The exit code of a run that was stopped by a fault. -/
def stopped : Nat := 101

/-- The remarks, one on each line, and how many there are. -/
def remarksText (rs : List Remark) : String :=
  String.join (rs.map fun r => r.text ++ "\n") ++
    "Generates " ++ toString rs.length ++ " remarks\n"

/-- The answer when a module cannot be had from a file. -/
def refusal (file : String) (e : Error) : Response :=
  { exit := failed
    output := remarksText [{ location := .module, error := e, note := some ("in " ++ file) }] }

/-- The answer to a run over a module. An analysis error has left its remark already. -/
def Options.analyze (o : Options) (m : Module) : Response :=
  match o.config.run m { sinks := [{}] } with
  | .error _ => { exit := stopped, output := "" }
  | .ok { session, result := .error _ } =>
    { exit := failed, output := remarksText session.remarks }
  | .ok { session, result := .ok kernels } =>
    let listing := if o.quiet then "" else String.join (kernels.map Kernel.text)
    { exit := 0
      output := listing ++ String.join (session.sinks.map Sink.text) ++
        remarksText session.remarks }

/-- The answer for a file, from its contents or the reason why there are none. -/
def Options.respond (o : Options) (file : String) (contents : Except String String) : Response :=
  match contents with
  | .error cause => refusal file (.file cause)
  | .ok text =>
    match Module.read text with
    | .error e => refusal file (.format e)
    | .ok m => o.analyze m

end GridAccess.CommandLine
