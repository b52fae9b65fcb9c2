import GridAccess.Json.Basic

set_option autoImplicit false

/-!
# Compact JSON text

A value on one line, without blanks, its fields in order. Strings keep every character but the
quote, the backslash and the control characters; numbers are written from the digits they keep.
-/

namespace GridAccess.Json

/-- A hexadecimal digit in lower case. -/
def hexDigit (n : Nat) : Char := (Nat.digitChar n)

/-- One character inside a quoted string. -/
def escapeChar (c : Char) : List Char :=
  if c = '"' then ['\\', '"']
  else if c = '\\' then ['\\', '\\']
  else if c.toNat < 0x20 then
    match c.toNat with
    | 8 => ['\\', 'b']
    | 9 => ['\\', 't']
    | 10 => ['\\', 'n']
    | 12 => ['\\', 'f']
    | 13 => ['\\', 'r']
    | n => ['\\', 'u', '0', '0', hexDigit (n / 16), hexDigit (n % 16)]
  else [c]

/-- A string in quotes. -/
def quote (s : String) : String :=
  String.ofList ('"' :: s.toList.flatMap escapeChar ++ ['"'])

/-- The digits of a mantissa as one digit, a point and the rest; a single digit has no point. -/
def leadingDigit (digits : List Char) : List Char :=
  match digits with
  | d :: e :: rest => d :: '.' :: e :: rest
  | _ => digits

/-- The absolute value of a number. Small exponents place the point, the others are written
after an `e`. -/
def Number.absText (n : Number) : List Char :=
  let digits := Nat.toDigits 10 n.mantissa
  let len := digits.length
  if n.mantissa = 0 then ['0']
  else if n.exponent = 0 then digits
  else if 0 < n.exponent then
    let zeros := n.exponent.toNat
    if len + zeros ≤ 20 then digits ++ List.replicate zeros '0'
    else leadingDigit digits ++ 'e' :: Nat.toDigits 10 (zeros + len - 1)
  else
    let places := (-n.exponent).toNat
    if places < 18 then
      let padded := List.replicate (places + 1 - len) '0' ++ digits
      let whole := padded.length - places
      padded.take whole ++ '.' :: padded.drop whole
    else
      let d : Int := places - (len - 1 : Nat)
      leadingDigit digits ++
        (if 0 < d then 'e' :: '-' :: Nat.toDigits 10 d.toNat
         else if d < 0 then 'e' :: '+' :: Nat.toDigits 10 (-d).toNat
         else [])

/-- The text of a number. -/
def Number.text (n : Number) : String :=
  String.ofList ((if n.negative then ['-'] else []) ++ n.absText)

mutual

/-- The compact text of a value. -/
def compact : Json → String
  | null => "null"
  | bool true => "true"
  | bool false => "false"
  | number n => n.text
  | string s => quote s
  | array items => "[" ++ compactItems items ++ "]"
  | object fields => "\x7b" ++ compactFields fields ++ "\x7d"

/-- Items with commas between them. -/
def compactItems : List Json → String
  | [] => ""
  | [v] => v.compact
  | v :: rest => v.compact ++ "," ++ compactItems rest

/-- Fields with commas between them. -/
def compactFields : List (String × Json) → String
  | [] => ""
  | [(k, v)] => quote k ++ ":" ++ v.compact
  | (k, v) :: rest => quote k ++ ":" ++ v.compact ++ "," ++ compactFields rest

end

end GridAccess.Json
