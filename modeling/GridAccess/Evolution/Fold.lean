import GridAccess.Evolution.Context

set_option autoImplicit false

/-!
# Folding

Sums, products, quotients and maxima of evolutions, built so that equal things look alike. Each
construction brings its operands into one list, nested operands of the same kind dissolved,
sorted by kind; adds up or multiplies the constants; and then lets recurrences absorb what they
can:

* two recurrences of one loop are added step by step;
* what does not change in a recurrence's loop goes into the start of the recurrence if it is
  added, and into its start and all its steps if it is a factor.

The constructions call themselves on what they found, each time on operands of less weight. The
number of calls inside one another is therefore bounded by the weight of the operands.
-/

namespace GridAccess

namespace Evolution

/-! ## Operands -/

/-- Puts an evolution before the first one of the same or a higher rank. -/
def insertByRank (e : Evolution) : List Evolution → List Evolution
  | [] => [e]
  | f :: fs => if e.rank ≤ f.rank then e :: f :: fs else f :: insertByRank e fs

/-- The evolutions by rank, those of one rank as they stood. -/
def sortByRank (es : List Evolution) : List Evolution := es.foldr insertByRank []

/-- The terms of a sum; anything else is one term. -/
def terms : Evolution → List Evolution
  | sum es => es
  | e => [e]

/-- The factors of a product; anything else is one factor. -/
def factors : Evolution → List Evolution
  | product es => es
  | e => [e]

/-- The operands of a maximum of this signedness; anything else is one operand. -/
def maxOperands (signed : Bool) : Evolution → List Evolution
  | smax es => if signed then es else [smax es]
  | umax es => if signed then [umax es] else es
  | e => [e]

/-- The constants among operands. -/
def constantsOf (es : List Evolution) : List Word := es.filterMap constant?

/-- The operands that are not constants. -/
def othersOf (es : List Evolution) : List Evolution := es.filter fun e => e.constant?.isNone

/-- The terms of a sum of these evolutions: the sum of their constants, unless it is zero, before
everything else in order of rank. -/
def sumTerms (es : List Evolution) : List Evolution :=
  let ops := es.flatMap terms
  let total := (constantsOf ops).foldl (· + ·) 0
  let others := sortByRank (othersOf ops)
  if total = 0 then others else constant total :: others

/-- The factors of a product of these evolutions: the product of their constants, unless it is
one, before everything else in order of rank. -/
def productFactors (es : List Evolution) : List Evolution :=
  let ops := es.flatMap factors
  let total := (constantsOf ops).foldl (· * ·) 1
  let others := sortByRank (othersOf ops)
  if total = 1 then others else constant total :: others

/-- A sum of terms that have been brought together. -/
def ofTerms : List Evolution → Evolution
  | [] => zero
  | [e] => e
  | es => sum es

/-- A product of factors that have been brought together. -/
def ofFactors : List Evolution → Evolution
  | [] => constant 1
  | [e] => e
  | es => product es

/-! ## Recurrences among operands -/

/-- A recurrence among operands, with the operands before and after it. -/
structure Pivot where
  before : List Evolution
  start : Evolution
  steps : List Evolution
  loop : Nat
  after : List Evolution

/-- The operands besides the recurrence. -/
def Pivot.others (p : Pivot) : List Evolution := p.before ++ p.after

/-- The recurrences among operands, `before` standing before them all. -/
def pivotsAfter (before : List Evolution) : List Evolution → List Pivot
  | [] => []
  | e :: rest =>
    let more := pivotsAfter (before ++ [e]) rest
    match e with
    | recurrence a es l => ⟨before, a, es, l, rest⟩ :: more
    | _ => more

/-- The recurrences among operands. -/
def pivots (es : List Evolution) : List Pivot := pivotsAfter [] es

/-- The first recurrence that has another one of its loop after it, and that other one with
what stands around it after the first. -/
def samePair? (es : List Evolution) : Option (Pivot × Pivot) :=
  (pivots es).findSome? fun p =>
    ((pivots p.after).find? fun q => q.loop == p.loop).map fun q => (p, q)

/-- The steps of two recurrences side by side; a missing step is zero. -/
def pairSteps : List Evolution → List Evolution → List (Evolution × Evolution)
  | [], bs => bs.map fun b => (zero, b)
  | a :: as, [] => (a, zero) :: pairSteps as []
  | a :: as, b :: bs => (a, b) :: pairSteps as bs

end Evolution

open Evolution

namespace Context

/-- The first of the recurrences in whose loop all the other operands are invariant. -/
def absorbing? (C : Context) : List Pivot → Except Fault (Option Pivot)
  | [] => .ok none
  | p :: ps =>
    match C.allInvariant p.loop p.others with
    | .ok true => .ok (some p)
    | .ok false => C.absorbing? ps
    | .error e => .error e

/-! ## Sums -/

/-- The steps of two recurrences added one by one; a missing step is zero. -/
def addSteps (add : List Evolution → Except Fault Evolution) (as bs : List Evolution) :
    Except Fault (List Evolution) :=
  (pairSteps as bs).mapM fun (a, b) => add [a, b]

/-- The sum of evolutions, with at most `depth` sums inside one another. -/
def sumWithin (C : Context) : (depth : Nat) → List Evolution → Except Fault Evolution
  | 0, _ => .error .endless
  | depth + 1, es =>
    if (es.flatMap terms).any isIndeterminate then .ok .indeterminate
    else
      let ops := sumTerms es
      if ops.length ≤ 1 then .ok (ofTerms ops)
      else
        match samePair? ops with
        | some (p, q) => do
          let start ← C.sumWithin depth [p.start, q.start]
          let steps ← addSteps (C.sumWithin depth) p.steps q.steps
          C.sumWithin depth (p.before ++ .recurrence start steps p.loop :: q.others)
        | none => do
          match ← C.absorbing? (pivots ops) with
          | some p =>
            let start ← C.sumWithin depth (p.before ++ p.start :: p.after)
            return .recurrence start p.steps p.loop
          | none => return ofTerms ops

/-- The sum of evolutions. -/
def sum (C : Context) (es : List Evolution) : Except Fault Evolution :=
  C.sumWithin (weights es + 1) es

/-! ## Products -/

/-- The product of two evolutions, with at most `depth` products inside one another. -/
def productWithin (C : Context) : (depth : Nat) → Evolution → Evolution → Except Fault Evolution
  | 0, _, _ => .error .endless
  | depth + 1, a, b =>
    let flat := [a, b].flatMap factors
    if flat.any isIndeterminate then .ok .indeterminate
    else if (constantsOf flat).contains 0 then .ok zero
    else
      let ops := productFactors [a, b]
      if ops.length ≤ 1 then .ok (ofFactors ops)
      else do
        match ← C.absorbing? (pivots ops) with
        | some p =>
          let scale (e : Evolution) : Except Fault Evolution :=
            p.others.foldlM (C.productWithin depth) e
          let start ← scale p.start
          let steps ← p.steps.mapM scale
          return .recurrence start steps p.loop
        | none => return ofFactors ops

/-- The product of two evolutions. -/
def product (C : Context) (a b : Evolution) : Except Fault Evolution :=
  C.productWithin (weights [a, b] + 1) a b

/-- The negative of an evolution. -/
def negate (C : Context) (e : Evolution) : Except Fault Evolution := C.product (.constant (-1)) e

/-- The difference of two evolutions. -/
def difference (C : Context) (a b : Evolution) : Except Fault Evolution := do
  C.sum [a, ← C.negate b]

end Context

namespace Evolution

/-! ## Quotients, maxima and casts -/

/-- The unsigned quotient of two evolutions. -/
def divide (a b : Evolution) : Evolution :=
  match a.constant?, b.constant? with
  | some x, some y => if y = 0 then quotient a b else constant (x / y)
  | _, some 1 => a
  | _, _ => quotient a b

/-- The greater of two words. -/
def maxWord (signed : Bool) (x y : Word) : Word :=
  if signed then (if x.slt y then y else x) else (if x < y then y else x)

/-- Drops every operand that equals the one before it. -/
def dropRepeats : List Evolution → List Evolution
  | [] => []
  | [e] => [e]
  | e :: f :: rest => if e = f then dropRepeats (f :: rest) else e :: dropRepeats (f :: rest)

/-- The operands of a maximum: the greatest constant before everything else in order of rank. -/
def maximumOperands (signed : Bool) (es : List Evolution) : List Evolution :=
  let ops := es.flatMap (maxOperands signed)
  let others := sortByRank (othersOf ops)
  match constantsOf ops with
  | [] => others
  | w :: ws => constant (ws.foldl (maxWord signed) w) :: others

/-- The maximum of evolutions. -/
def maximum (signed : Bool) (es : List Evolution) : Evolution :=
  match dropRepeats (maximumOperands signed es) with
  | [e] => e
  | ops => if signed then smax ops else umax ops

mutual

/-- The extension of an evolution to a wider integer. A recurrence is extended part by part. -/
def extend (signed : Bool) : Evolution → Evolution
  | constant w => constant w
  | indeterminate => indeterminate
  | recurrence a es l => recurrence (a.extend signed) (extendList signed es) l
  | e => if signed then sext e else zext e

/-- The extensions of the steps of a recurrence. -/
def extendList (signed : Bool) : List Evolution → List Evolution
  | [] => []
  | e :: es => e.extend signed :: extendList signed es

end

/-- The truncation of an evolution to a narrower integer. -/
def truncate : Evolution → Evolution
  | constant w => constant w
  | indeterminate => indeterminate
  | e => trunc e

end Evolution

end GridAccess
