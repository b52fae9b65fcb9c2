import GridAccess.Grid.Axis

set_option autoImplicit false

/-!
# Events

What is reported about kernels, one fact at a time. A sink keeps the events it was sent.
-/

namespace GridAccess

/-- A fact about a kernel, which is given by its link name. -/
inductive Event where
  /-- What was known of the kernel is void. -/
  | reset (kernel : String)
  /-- An argument of the kernel is an array of this many dimensions. -/
  | array (kernel : String) (arg dims : Nat) (isRead isWritten : Bool)
  /-- The index of an array in a dimension depends on an axis. -/
  | axis (kernel : String) (arg dim : Nat) (axis : Axis)
deriving DecidableEq, Repr

namespace Event

/-- A truth value as a digit. -/
def flag (b : Bool) : String := if b then "1" else "0"

/-- A call of a function of the array library, as text. -/
def call (name : String) (args : List String) : String :=
  name ++ "(" ++ String.intercalate ", " args ++ ");"

/-- The text of an event. -/
def text : Event → String
  | reset k => call "reset_info" [k]
  | array k arg dims r w =>
    call "set_array_info" [k, toString arg, toString dims, flag r, flag w]
  | axis k arg dim a =>
    call "set_array_dim_info" [k, toString arg, toString dim, toString a.index]

/-- The event says that an argument is an array. -/
def isArray : Event → Bool
  | array .. => true
  | _ => false

/-- The event says that an index depends on an axis. -/
def isAxis : Event → Bool
  | axis .. => true
  | _ => false

end Event

/-- The events sent so far, in order. -/
structure Sink where
  events : List Event := []
deriving DecidableEq, Repr

namespace Sink

/-- The sink after more events. -/
def send (s : Sink) (es : List Event) : Sink := { events := s.events ++ es }

/-- How many events say that an argument is an array. -/
def arrayCount (s : Sink) : Nat := s.events.countP Event.isArray

/-- How many events say that an index depends on an axis. -/
def axisCount (s : Sink) : Nat := s.events.countP Event.isAxis

/-- The text of a sink: a line for each event. -/
def text (s : Sink) : String := String.join (s.events.map fun e => e.text ++ "\n")

end Sink

end GridAccess
