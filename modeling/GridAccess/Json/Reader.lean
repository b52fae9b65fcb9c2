import GridAccess.Json.Basic

set_option autoImplicit false

/-!
# Reading JSON text

The reader is a machine that takes one character per step. Its state is the stack of arrays and
objects that are open and a `Mode` that says what may stand next. A character that fits no rule
of its mode is an error at its position.

Blanks are the characters 9 to 13 and the space. At most `depthLimit` containers that hold
something may be open at once.
-/

namespace GridAccess.Json

/-! ## Errors -/

/-- Why a text is not a JSON value. -/
inductive SyntaxError where
  /-- The text ends inside a value. -/
  | ended
  /-- Too many containers are open at once. -/
  | tooDeep
  /-- A pair of `\u` escapes is no character. -/
  | badCodePoint
  /-- A character that cannot continue the text, with its line and column. -/
  | unexpected (c : Char) (line column : Nat)
deriving DecidableEq, Repr

/-- The wording of an error. -/
def SyntaxError.message : SyntaxError → String
  | ended => "Unexpected end of JSON"
  | tooDeep => "Exceeded depth limit"
  | badCodePoint => "Failed to parse UTF-8 bytes"
  | unexpected c line column =>
    "Unexpected character: " ++ c.toString ++ " at (" ++ toString line ++ ":" ++
      toString column ++ ")"

/-! ## Positions -/

/-- Where a stretch of text ends, in lines: the number of lines begun, and the characters on the
last of them. A line end does not begin a line until something follows it, and a carriage return
right before a line feed belongs to the line end. -/
structure Cursor where
  line : Nat
  column : Nat
  /-- The last character was a line feed. -/
  atLineEnd : Bool
  /-- The last character was a carriage return. -/
  afterReturn : Bool

/-- The start of a text. -/
def Cursor.start : Cursor := ⟨1, 0, false, false⟩

/-- The cursor after one more character. -/
def Cursor.step (p : Cursor) (c : Char) : Cursor :=
  let line := if p.atLineEnd then p.line + 1 else p.line
  let column := if p.atLineEnd then 0 else p.column
  if c = '\n' then ⟨line, if p.afterReturn then column - 1 else column, true, false⟩
  else ⟨line, column + 1, false, c = '\r'⟩

/-- A character that stands at the cursor and may not. -/
def Cursor.unexpected (p : Cursor) (c : Char) : SyntaxError :=
  .unexpected c p.line (p.column + 1)

/-! ## The machine -/

/-- What a number has been read up to. -/
inductive NumberPart where
  /-- After a minus sign: a digit must follow. -/
  | sign
  /-- After a leading zero: no further digit of the whole part. -/
  | zero
  | whole
  /-- After the point: a digit must follow. -/
  | point
  | decimals
  /-- After the `e`: a sign or a digit must follow. -/
  | exponent
  /-- After the sign of the exponent: a digit must follow. -/
  | exponentSign (negative : Bool)
  | exponentDigits (negative : Bool) (value : Nat)

/-- What a string has been read up to. -/
inductive StringPart where
  | plain
  /-- After a backslash. -/
  | escape
  /-- Inside a `\u` escape with `left` digits to come; `first` is the escape before it if that
  one asks for a second. -/
  | hex (first : Option Nat) (value left : Nat)
  /-- A backslash must follow to begin the second escape of a pair. -/
  | pairBackslash (first : Nat)
  /-- A `u` must follow to begin the second escape of a pair. -/
  | pairU (first : Nat)

/-- What a string is read for. -/
inductive StringRole where
  | value
  /-- The key of the next field of an object that has these fields so far. -/
  | key (fields : List (String × Json))

/-- A container that is open. -/
inductive Frame where
  /-- The items so far, the last one first. -/
  | array (items : List Json)
  /-- The fields so far, and the key whose value is being read. -/
  | object (fields : List (String × Json)) (key : String)

/-- What may stand next. -/
inductive Mode where
  /-- A value. -/
  | value
  /-- The first item of an array, or its end. -/
  | firstItem
  /-- The first key of an object, or its end. -/
  | firstKey
  /-- A further key of an object with these fields. -/
  | key (fields : List (String × Json))
  /-- The colon after a key. -/
  | colon (fields : List (String × Json)) (key : String)
  /-- A comma or the end of the innermost container. -/
  | separator
  /-- The rest of a word that stands for a value. -/
  | word (rest : List Char) (v : Json)
  /-- A string, with its characters so far, the last one first. -/
  | string (role : StringRole) (read : List Char) (part : StringPart)
  /-- A number. -/
  | number (n : Number) (part : NumberPart)
  /-- Only blanks: the whole value has been read. -/
  | finished (v : Json)

/-- The state of the reader. -/
structure State where
  frames : List Frame
  mode : Mode

/-- How many containers with something in them may be open at once. -/
def depthLimit : Nat := 512

/-- Characters that may stand between the parts of a value. -/
def isBlank (c : Char) : Bool := (9 ≤ c.toNat && c.toNat ≤ 13) || c = ' '

/-- A value is complete: it goes to the innermost open container. -/
def State.complete (frames : List Frame) (v : Json) : State :=
  match frames with
  | [] => ⟨[], .finished v⟩
  | .array items :: rest => ⟨.array (v :: items) :: rest, .separator⟩
  | .object fields key :: rest => ⟨.object (setField key v fields) key :: rest, .separator⟩

/-- A decimal digit's value. -/
def digit? (c : Char) : Option Nat := if c.isDigit then some (c.toNat - '0'.toNat) else none

/-- A hexadecimal digit's value. -/
def hexValue? (c : Char) : Option Nat :=
  if c.isDigit then some (c.toNat - '0'.toNat)
  else if 'a' ≤ c && c ≤ 'f' then some (c.toNat - 'a'.toNat + 10)
  else if 'A' ≤ c && c ≤ 'F' then some (c.toNat - 'A'.toNat + 10)
  else none

/-! ### Numbers -/

/-- A further digit of the whole part. One that no longer fits the 64-bit mantissa is dropped and
raises the exponent. -/
def Number.pushWhole (n : Number) (d : Nat) : Number :=
  let m := n.mantissa * 10 + d
  if m < Nat.pow 2 64 then { n with mantissa := m } else { n with exponent := n.exponent + 1 }

/-- A further digit after the point. One that no longer fits the mantissa is dropped. -/
def Number.pushDecimal (n : Number) (d : Nat) : Number :=
  let m := n.mantissa * 10 + d
  if m < Nat.pow 2 64 then { n with mantissa := m, exponent := n.exponent - 1 } else n

/-- The exponents a number can have. -/
def clampExponent (e : Int) : Int := max (-32768) (min 32767 e)

/-- The number with a written exponent added; both the written one and the sum stay within the
exponents a number can have. -/
def Number.raise (n : Number) (negative : Bool) (e : Nat) : Number :=
  let e : Int := min e 32767
  { n with exponent := clampExponent (n.exponent + if negative then -e else e) }

/-- What a number does with a character: it takes it, it refuses it, or it ended before it. -/
inductive NumberStep where
  | more (n : Number) (part : NumberPart)
  | refuse
  | stop (n : Number)

/-- After the digits of the whole part or of the decimals: a point (if allowed), an `e`, or the
end. -/
def Number.extend (n : Number) (pointAllowed : Bool) (c : Char) : NumberStep :=
  if c = '.' && pointAllowed then .more n .point
  else if c = 'e' || c = 'E' then .more n .exponent
  else .stop n

/-- One character of a number. -/
def Number.step (n : Number) (part : NumberPart) (c : Char) : NumberStep :=
  match part, digit? c with
  | .sign, some 0 => .more n .zero
  | .sign, some d => .more (n.pushWhole d) .whole
  | .sign, none => .refuse
  | .zero, _ => n.extend true c
  | .whole, some d => .more (n.pushWhole d) .whole
  | .whole, none => n.extend true c
  | .point, some d => .more (n.pushDecimal d) .decimals
  | .point, none => .refuse
  | .decimals, some d => .more (n.pushDecimal d) .decimals
  | .decimals, none => n.extend false c
  | .exponent, some d => .more n (.exponentDigits false d)
  | .exponent, none =>
    if c = '-' then .more n (.exponentSign true)
    else if c = '+' then .more n (.exponentSign false)
    else .refuse
  | .exponentSign neg, some d => .more n (.exponentDigits neg d)
  | .exponentSign _, none => .refuse
  | .exponentDigits neg e, some d => .more n (.exponentDigits neg (e * 10 + d))
  | .exponentDigits neg e, none => .stop (n.raise neg e)

/-- The number at the end of the text, if it may end there. -/
def Number.atEnd (n : Number) : NumberPart → Option Number
  | .zero | .whole | .decimals => some n
  | .exponentDigits neg e => some (n.raise neg e)
  | .sign | .point | .exponent | .exponentSign _ => none

/-! ### Strings -/

/-- The character of an escape of one letter. -/
def escapeLetter? : Char → Option Char
  | '"' => some '"'
  | '\\' => some '\\'
  | '/' => some '/'
  | 'b' => some '\x08'
  | 'f' => some '\x0c'
  | 'n' => some '\n'
  | 'r' => some '\r'
  | 't' => some '\t'
  | _ => none

/-- A code unit of the range that only stands in pairs. -/
def isSurrogate (n : Nat) : Bool := 0xD800 ≤ n && n ≤ 0xDFFF

/-- The character of a pair of `\u` escapes. -/
def pairChar? (high low : Nat) : Option Char :=
  if 0xD800 ≤ high && high ≤ 0xDBFF && 0xDC00 ≤ low && low ≤ 0xDFFF then
    some (Char.ofNat ((high - 0xD800) * 1024 + (low - 0xDC00) + 0x10000))
  else none

/-- What a string does with a character: it goes on, it ends, or it refuses. -/
inductive StringStep where
  | more (read : List Char) (part : StringPart)
  | close
  | refuse
  | badCodePoint

/-- The last digit of a `\u` escape has been read. -/
def finishEscape (read : List Char) (first : Option Nat) (code : Nat) : StringStep :=
  match first with
  | some high =>
    match pairChar? high code with
    | some c => .more (c :: read) .plain
    | none => .badCodePoint
  | none =>
    if isSurrogate code then .more read (.pairBackslash code)
    else .more (Char.ofNat code :: read) .plain

/-- One character of a string. -/
def stringStep (read : List Char) (part : StringPart) (c : Char) : StringStep :=
  match part with
  | .plain =>
    if c = '"' then .close
    else if c = '\\' then .more read .escape
    else if c.toNat < 0x20 then .refuse
    else .more (c :: read) .plain
  | .escape =>
    if c = 'u' then .more read (.hex none 0 4)
    else match escapeLetter? c with
      | some d => .more (d :: read) .plain
      | none => .refuse
  | .hex first value left =>
    match hexValue? c with
    | none => .refuse
    | some d =>
      if left ≤ 1 then finishEscape read first (value * 16 + d)
      else .more read (.hex first (value * 16 + d) (left - 1))
  | .pairBackslash first => if c = '\\' then .more read (.pairU first) else .refuse
  | .pairU first => if c = 'u' then .more read (.hex (some first) 0 4) else .refuse

/-! ### Values and containers -/

/-- The first character of a value. -/
def valueStep (frames : List Frame) (c : Char) : Option State :=
  match c with
  | '"' => some ⟨frames, .string .value [] .plain⟩
  | '[' => some ⟨frames, .firstItem⟩
  | '\x7b' => some ⟨frames, .firstKey⟩
  | 'n' => some ⟨frames, .word ['u', 'l', 'l'] .null⟩
  | 't' => some ⟨frames, .word ['r', 'u', 'e'] (.bool true)⟩
  | 'f' => some ⟨frames, .word ['a', 'l', 's', 'e'] (.bool false)⟩
  | '-' => some ⟨frames, .number ⟨true, 0, 0⟩ .sign⟩
  | '0' => some ⟨frames, .number ⟨false, 0, 0⟩ .zero⟩
  | c => (digit? c).map fun d => ⟨frames, .number ⟨false, d, 0⟩ .whole⟩

/-- A character between values: a comma, the end of a container, or a blank. -/
def separatorStep (s : State) (c : Char) : Option State :=
  match s.mode with
  | .finished _ => if isBlank c then some s else none
  | _ =>
    match s.frames with
    | .array items :: rest =>
      if c = ',' then some ⟨s.frames, .value⟩
      else if c = ']' then some (State.complete rest (.array items.reverse))
      else if isBlank c then some s
      else none
    | .object fields _ :: rest =>
      if c = ',' then some ⟨rest, .key fields⟩
      else if c = '\x7d' then some (State.complete rest (.object fields))
      else if isBlank c then some s
      else none
    | [] => none

/-- One step of the reader, or the error a character causes where it stands. -/
def State.step (p : Cursor) (s : State) (c : Char) : Except SyntaxError State :=
  let orUnexpected : Option State → Except SyntaxError State
    | some t => .ok t
    | none => .error (p.unexpected c)
  match s.mode with
  | .value => if isBlank c then .ok s else orUnexpected (valueStep s.frames c)
  | .firstItem =>
    if isBlank c then .ok s
    else if c = ']' then .ok (State.complete s.frames (.array []))
    else if depthLimit ≤ s.frames.length then .error .tooDeep
    else orUnexpected (valueStep (.array [] :: s.frames) c)
  | .firstKey =>
    if isBlank c then .ok s
    else if c = '\x7d' then .ok (State.complete s.frames (.object []))
    else if depthLimit ≤ s.frames.length then .error .tooDeep
    else if c = '"' then .ok ⟨s.frames, .string (.key []) [] .plain⟩
    else .error (p.unexpected c)
  | .key fields =>
    if isBlank c then .ok s
    else if c = '"' then .ok ⟨s.frames, .string (.key fields) [] .plain⟩
    else .error (p.unexpected c)
  | .colon fields key =>
    if isBlank c then .ok s
    else if c = ':' then .ok ⟨.object fields key :: s.frames, .value⟩
    else .error (p.unexpected c)
  | .word rest v =>
    match rest with
    | d :: rest =>
      if c = d then
        .ok (if rest.isEmpty then State.complete s.frames v else ⟨s.frames, .word rest v⟩)
      else .error (p.unexpected c)
    | [] => .error (p.unexpected c)
  | .string role read part =>
    match stringStep read part c with
    | .more read part => .ok ⟨s.frames, .string role read part⟩
    | .refuse => .error (p.unexpected c)
    | .badCodePoint => .error .badCodePoint
    | .close =>
      let text := String.ofList read.reverse
      match role with
      | .value => .ok (State.complete s.frames (.string text))
      | .key fields => .ok ⟨s.frames, .colon fields text⟩
  | .number n part =>
    match n.step part c with
    | .more n part => .ok ⟨s.frames, .number n part⟩
    | .refuse => .error (p.unexpected c)
    | .stop n => orUnexpected (separatorStep (State.complete s.frames (.number n)) c)
  | .separator | .finished _ => orUnexpected (separatorStep s c)

/-- The value at the end of the text. -/
def State.atEnd (s : State) : Except SyntaxError Json :=
  match s.mode with
  | .finished v => .ok v
  | .number n part =>
    match n.atEnd part, s.frames with
    | some n, [] => .ok (.number n)
    | _, _ => .error .ended
  | _ => .error .ended

/-- The machine on the rest of a text. -/
def State.run (p : Cursor) (s : State) : List Char → Except SyntaxError Json
  | [] => s.atEnd
  | c :: rest =>
    match s.step p c with
    | .ok t => State.run (p.step c) t rest
    | .error e => .error e

/-- The value a text stands for. -/
def parse (text : String) : Except SyntaxError Json :=
  State.run .start ⟨[], .value⟩ text.toList

end GridAccess.Json
