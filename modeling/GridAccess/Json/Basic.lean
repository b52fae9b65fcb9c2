set_option autoImplicit false

/-!
# JSON values

A value of a JSON text. Numbers keep the digits they were written with, and the fields of an
object keep the order in which their keys first appeared.
-/

namespace GridAccess

/-- A number as written: `mantissa * 10 ^ exponent`, with the sign kept apart so that a minus
zero stays one. Nothing is normalised: `1.50` has mantissa 150 and exponent -2. -/
structure Json.Number where
  negative : Bool
  mantissa : Nat
  exponent : Int
deriving DecidableEq, Repr, Inhabited

/-- A JSON value. -/
inductive Json where
  | null
  | bool (b : Bool)
  | number (n : Json.Number)
  | string (s : String)
  | array (items : List Json)
  | object (fields : List (String × Json))
deriving Repr, Inhabited

namespace Json

/-! ## Looking into a value

A key that is missing, or looked up in something that is not an object, reads as `null`, and
what is not an array has no items. -/

/-- The fields of an object. -/
def fields : Json → List (String × Json)
  | object fs => fs
  | _ => []

/-- The items of an array. -/
def items : Json → List Json
  | array xs => xs
  | _ => []

/-- The number of items of an array or of fields of an object. -/
def size : Json → Nat
  | array xs => xs.length
  | object fs => fs.length
  | _ => 0

/-- The value of a key. -/
def get (v : Json) (key : String) : Json := (v.fields.lookup key).getD null

/-- The value is an object with this key. -/
def hasKey (v : Json) (key : String) : Bool := (v.fields.lookup key).isSome

/-- The value is `null`. -/
def isNull : Json → Bool
  | null => true
  | _ => false

/-- The value is an array. -/
def isArray : Json → Bool
  | array _ => true
  | _ => false

/-- The text of a string. -/
def string? : Json → Option String
  | string s => some s
  | _ => none

/-- The truth value of a boolean. -/
def bool? : Json → Option Bool
  | bool b => some b
  | _ => none

/-- The number of a numeric value. -/
def number? : Json → Option Number
  | number n => some n
  | _ => none

/-! ## Reading numbers

Only a number whose exponent came out as zero is an integer: `15e-1` is none, `1.5e1` is one. -/

/-- The number as a natural number: no minus sign and exponent zero. -/
def Number.nat? (n : Number) : Option Nat :=
  if !n.negative && n.exponent == 0 then some n.mantissa else none

/-- The number as a 64-bit word, wrapping around: exponent zero. -/
def Number.word? (n : Number) : Option (BitVec 64) :=
  if n.exponent == 0 then
    let w := BitVec.ofNat 64 n.mantissa
    some (if n.negative then -w else w)
  else none

/-- A power of ten in binary floating point. -/
def tenToThe (e : Nat) : Float :=
  if e < 23 then Float.ofScientific (Nat.pow 10 e) false 0 else Float.pow 10.0 (Float.ofNat e)

/-- `x * 10 ^ e`, by one multiplication or division in binary floating point. -/
def scaleByTen (x : Float) (e : Int) : Float :=
  if 0 ≤ e then x * tenToThe e.toNat else x / tenToThe (-e).toNat

/-- The bit pattern of the result of an operation without one, such as zero times infinity. -/
def invalidResult : BitVec 64 := 0xFFF8000000000000#64

/-- The bit pattern with the other sign. -/
def flipSign (bits : BitVec 64) : BitVec 64 := bits ^^^ 0x8000000000000000#64

/-- The bit pattern of the number in binary floating point: the mantissa is rounded first, then
scaled, then given its sign. A scale too small for one power of ten is applied in two steps. Zero
times a power beyond all finite numbers has no result, and what stands for it has a sign too. -/
def Number.binary64 (n : Number) : BitVec 64 :=
  let m := (UInt64.ofNat n.mantissa).toFloat
  let x := if n.exponent < -308 then scaleByTen (scaleByTen m (n.exponent + 308)) (-308)
    else scaleByTen m n.exponent
  let bits := if x.isNaN then invalidResult else x.toBits.toBitVec
  if n.negative then flipSign bits else bits

/-- A value that is a natural number of at most 64 bits. -/
def nat? (v : Json) : Option Nat := v.number?.bind Number.nat?

/-- A value that is a natural number of at most 32 bits. -/
def nat32? (v : Json) : Option Nat := v.nat?.filter (· < Nat.pow 2 32)

/-- A value that is a 64-bit word. -/
def word? (v : Json) : Option (BitVec 64) := v.number?.bind Number.word?

/-- A numeric value as a binary64 bit pattern. -/
def binary64? (v : Json) : Option (BitVec 64) := v.number?.map Number.binary64

/-- Sets a key: the last value of a key wins, at the place of the first. -/
def setField (key : String) (v : Json) : List (String × Json) → List (String × Json)
  | [] => [(key, v)]
  | (k, w) :: rest => if k = key then (k, v) :: rest else (k, w) :: setField key v rest

end Json

end GridAccess
