import GridAccess.Evolution.TripCount
import GridAccess.Formula.OfValue

set_option autoImplicit false

/-!
# Formulas of evolutions

The formula of a recurrence names the depth of its loop and gives the start, a bound and the
step. The bound is the number of rounds of the loop if that is known and the same in every round,
else the right side of the comparison that ends the loop.

The number of rounds of a loop is an evolution that is no part of the recurrence. The recurrences
in it belong to loops around the loop, so bounds nest no deeper than loops do.
-/

namespace GridAccess

/-- An evolution that is not known, in a formula. -/
def Writer.anyExpression : String := "#EXPR"

/-- A recurrence in a loop at this depth. -/
def Writer.recurrenceText (depth : Nat) (start bound step : String) : String :=
  "\x7b" ++ toString depth ++ "\x7d<" ++ start ++ " : " ++ bound ++ " , " ++ step ++ ">"

/-- A loop as the formula of a recurrence shows it: with the number of its rounds, if that is
known and the same in every round. -/
structure LoopHead where
  loop : Loop
  rounds : Option Evolution

/-- The head of a loop, by its number. -/
def Scope.loopHead (S : Scope) (l : Nat) : Except Fault LoopHead := do
  let loop ← S.forest.loop l
  if ← S.hasInvariantTripCount l then
    let count ← S.tripCount l
    return ⟨loop, some count⟩
  else return ⟨loop, none⟩

namespace Writer

/-- The order in which the terms of a sum are written: those that are not constants, the constants
from zero up, the negative ones. -/
def termOrder (e : Evolution) : Nat :=
  match e.constant? with
  | none => 0
  | some w => if 0 ≤ w.toInt then 1 else 2

mutual

/-- The formula of an evolution, given the heads of loops and how their bounds are written. -/
def ofEvolutionWith (W : Writer) (head : Nat → Except Fault LoopHead)
    (bound : LoopHead → Marked String) (inPhi : Bool) : Evolution → Marked String
  | .unknown v => W.ofValue v inPhi
  | .constant w => return w.text
  | .indeterminate => return anyExpression
  | .sizeOf t => Marked.unsupported "evolution" (Evolution.sizeOf t).text
  | .alignOf t => Marked.unsupported "evolution" (Evolution.alignOf t).text
  | .quotient a b => do
    let l ← W.ofEvolutionWith head bound inPhi a
    let r ← W.ofEvolutionWith head bound inPhi b
    return "(" ++ l ++ "/" ++ r ++ ")"
  | .product es => do
    let parts ← W.ofEvolutionsWith head bound inPhi (fun _ => true) es
    return "(" ++ String.intercalate " * " parts ++ ")"
  | .sum es => do
    let symbolic ← W.ofEvolutionsWith head bound inPhi (termOrder · == 0) es
    let positive ← W.ofEvolutionsWith head bound inPhi (termOrder · == 1) es
    let negative ← W.ofEvolutionsWith head bound inPhi (termOrder · == 2) es
    return "(" ++ String.intercalate " + " (symbolic ++ positive ++ negative) ++ ")"
  | .smax es => do
    let parts ← W.ofEvolutionsWith head bound inPhi (fun _ => true) es
    return "smax(" ++ String.intercalate ", " parts ++ ")"
  | .umax es => do
    let parts ← W.ofEvolutionsWith head bound inPhi (fun _ => true) es
    return "umax(" ++ String.intercalate ", " parts ++ ")"
  | .zext e | .sext e | .trunc e => W.ofEvolutionWith head bound inPhi e
  | .recurrence a es l => do
    let h ← Marked.lift (head l)
    let start ← W.ofEvolutionWith head bound inPhi a
    let limit ← bound h
    let step ← W.ofStepsWith head bound inPhi l es
    return recurrenceText h.loop.depth start limit step

/-- The formulas of those evolutions of a list that are wanted, in order. -/
def ofEvolutionsWith (W : Writer) (head : Nat → Except Fault LoopHead)
    (bound : LoopHead → Marked String) (inPhi : Bool) (wanted : Evolution → Bool) :
    List Evolution → Marked (List String)
  | [] => return []
  | e :: es =>
    if wanted e then do
      let first ← W.ofEvolutionWith head bound inPhi e
      let rest ← W.ofEvolutionsWith head bound inPhi wanted es
      return first :: rest
    else W.ofEvolutionsWith head bound inPhi wanted es

/-- The formula of the step of a recurrence of loop `l`: the only step there is, else a recurrence
again. -/
def ofStepsWith (W : Writer) (head : Nat → Except Fault LoopHead)
    (bound : LoopHead → Marked String) (inPhi : Bool) (l : Nat) : List Evolution → Marked String
  | [] => return Evolution.zero.text
  | e :: es =>
    match es with
    | [] => W.ofEvolutionWith head bound inPhi e
    | _ :: _ => do
      let h ← Marked.lift (head l)
      let start ← W.ofEvolutionWith head bound inPhi e
      let limit ← bound h
      let step ← W.ofStepsWith head bound inPhi l es
      return recurrenceText h.loop.depth start limit step

end

/-- The right side of the comparison that ends a loop. -/
def latchBound (W : Writer) (S : Scope) (inPhi : Bool) (l : Loop) : Marked String :=
  match l.latch? S.cfg with
  | none => Marked.refuse (.missingLatch l.depth)
  | some _ =>
    match S.latchBranch? l with
    | some (.branchIf cond _ _) => do
      match ← Marked.lift (S.comparison? cond) with
      | some c => W.ofValue c.rhs inPhi
      | none =>
        Marked.unsupported "loop condition"
          (cond.text ++ " in latch of loop at depth " ++ toString l.depth)
    | _ => Marked.refuse (.missingExit l.depth)

/-- The bound of a loop, writing bounds at most `depth` deep inside one another. -/
def boundWithin (W : Writer) (S : Scope) (inPhi : Bool) : (depth : Nat) → LoopHead → Marked String
  | 0, _ => Marked.lift (.error .endless)
  | depth + 1, h =>
    match h.rounds with
    | some count => W.ofEvolutionWith S.loopHead (W.boundWithin S inPhi depth) inPhi count
    | none => W.latchBound S inPhi h.loop

/-- The formula of an evolution. -/
def ofEvolution (W : Writer) (S : Scope) (e : Evolution) (inPhi : Bool) : Marked String :=
  W.ofEvolutionWith S.loopHead (W.boundWithin S inPhi (S.forest.loops.size + 1)) inPhi e

/-- The writer for the function of a scope. -/
def ofScope (S : Scope) (builtins : Builtins) (policy : MarkPolicy) : Writer :=
  { module := S.module, function := S.function, builtins := builtins, policy := policy }

end Writer

end GridAccess
