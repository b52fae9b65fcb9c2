set_option autoImplicit false

/-!
# Decimal text of binary floating point

A binary64 is given by its bit pattern. Its text has the fewest decimal digits that read back
as the same number, the nearest such digits to the number, and the upper ones on a tie. All
arithmetic is exact, on natural numbers.
-/

namespace GridAccess.Text.Binary64

/-- The fraction field of a bit pattern. -/
def fraction (bits : BitVec 64) : Nat := bits.toNat % Nat.pow 2 52

/-- The biased exponent field of a bit pattern. -/
def exponent (bits : BitVec 64) : Nat := bits.toNat / Nat.pow 2 52 % Nat.pow 2 11

/-- The sign bit is set. -/
def isNegative (bits : BitVec 64) : Bool := bits.toNat / Nat.pow 2 63 == 1

/-- A finite number `significand * 2 ^ scale`, the scale given by its two parts, of which one is
zero: `2 ^ up / 2 ^ down`. -/
structure Scaled where
  significand : Nat
  up : Nat
  down : Nat
deriving Repr

/-- The absolute value of a finite bit pattern. -/
def magnitude (bits : BitVec 64) : Scaled :=
  let e := exponent bits
  if e = 0 then ⟨fraction bits, 0, 1074⟩
  else ⟨fraction bits + Nat.pow 2 52, e - 1075, 1075 - e⟩

/-- Whether the next smaller number is only half as far away as the next larger one. -/
def narrowBelow (bits : BitVec 64) : Bool := fraction bits == 0 && exponent bits > 1

/-- The numbers of a scale that read back as one number, as fractions over `den`: those between
`low` and `high`, the ends included if `closed`. The number itself is `value`. -/
structure Interval where
  low : Nat
  value : Nat
  high : Nat
  den : Nat
  closed : Bool
deriving Repr

/-- The numbers that read back as a finite bit pattern. -/
def roundingInterval (bits : BitVec 64) : Interval :=
  let s := magnitude bits
  let unit := Nat.pow 2 s.up
  { low := (4 * s.significand - if narrowBelow bits then 1 else 2) * unit
    value := 4 * s.significand * unit
    high := (4 * s.significand + 2) * unit
    den := 4 * Nat.pow 2 s.down
    closed := s.significand % 2 == 0 }

/-- Whether `num / scale` lies in the interval, both read over the interval's denominator. -/
def Interval.holds (i : Interval) (num scale : Nat) : Bool :=
  let x := num * i.den
  if i.closed then i.low * scale ≤ x && x ≤ i.high * scale
  else i.low * scale < x && x < i.high * scale

/-- The least `j` up to `bound` with `den ≤ num * 10 ^ j`. -/
def leadingZeros (num den : Nat) : (bound : Nat) → Nat
  | 0 => 0
  | bound + 1 => if den ≤ num then 0 else leadingZeros (num * 10) den bound + 1

/-- The place of the first digit of `num / den`: the least `k` with `num / den < 10 ^ k`. -/
def leadingPlace (num den : Nat) : Int :=
  if den ≤ num then ((Nat.toDigits 10 (num / den)).length : Int)
  else 1 - (leadingZeros num den 400 : Nat)

/-- Decimal digits `digits * 10 ^ place`. -/
structure Decimal where
  digits : Nat
  place : Int
deriving Repr

/-- The better of the two neighbours of the number among the multiples of `10 ^ place`, if one
of them reads back. -/
def atPlace (i : Interval) (place : Int) : Option Decimal :=
  -- a candidate `d` stands for `d * grow / shrink`
  let grow := Nat.pow 10 place.toNat
  let shrink := Nat.pow 10 (-place).toNat
  let d := i.value * shrink / (i.den * grow)
  let below := i.holds (d * grow) shrink
  let above := i.holds ((d + 1) * grow) shrink
  -- twice the number against the two neighbours' sum decides which is nearer
  let nearerBelow := 2 * i.value * shrink < (2 * d + 1) * grow * i.den
  match below, above with
  | true, true => some ⟨if nearerBelow then d else d + 1, place⟩
  | true, false => some ⟨d, place⟩
  | false, true => some ⟨d + 1, place⟩
  | false, false => none

/-- The first hit among finer and finer places. -/
def search (i : Interval) (place : Int) : (bound : Nat) → Option Decimal
  | 0 => none
  | bound + 1 =>
    match atPlace i place with
    | some d => some d
    | none => search i (place - 1) bound

/-- The fewest digits that read back as a finite number that is not zero. Seventeen are enough. -/
def shortest (bits : BitVec 64) : Decimal :=
  let i := roundingInterval bits
  (search i (leadingPlace i.value i.den - 1) 17).getD ⟨0, 0⟩

/-- Digits without the zeros at their end, and the place of the last one left. -/
def trim (d : Decimal) : (bound : Nat) → Decimal
  | 0 => d
  | bound + 1 =>
    if d.digits % 10 = 0 then trim ⟨d.digits / 10, d.place + 1⟩ bound else d

/-- The text of digits: positional from `0.0001` up to below ten to the sixteenth, with at least
one digit after the point, and with an exponent elsewhere. -/
def Decimal.text (d : Decimal) : String :=
  let d := trim d 20
  let digits := Nat.toDigits 10 d.digits
  let n := digits.length
  -- the number is `0.digits * 10 ^ point`
  let point : Int := n + d.place
  if point < -3 || 16 < point then
    let tail := digits.drop 1
    let mantissa := String.ofList (digits.take 1) ++
      (if tail.isEmpty then "" else "." ++ String.ofList tail)
    mantissa ++ "e" ++ toString (point - 1)
  else if point ≤ 0 then
    "0." ++ String.ofList (List.replicate (-point).toNat '0' ++ digits)
  else if n ≤ point.toNat then
    String.ofList (digits ++ List.replicate (point.toNat - n) '0') ++ ".0"
  else
    String.ofList (digits.take point.toNat) ++ "." ++ String.ofList (digits.drop point.toNat)

/-- The text of a bit pattern. -/
def text (bits : BitVec 64) : String :=
  let sign := if isNegative bits then "-" else ""
  if exponent bits = 2047 then
    if fraction bits = 0 then sign ++ "inf" else "NaN"
  else if exponent bits = 0 && fraction bits = 0 then sign ++ "0.0"
  else sign ++ (shortest bits).text

end GridAccess.Text.Binary64
