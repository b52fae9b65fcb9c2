set_option autoImplicit false

/-!
# Searching in text

Names are recognised by what they start with and what they contain.
-/

namespace GridAccess.Text

/-- The number of characters before the first occurrence of `needle`. -/
def find? (needle : List Char) : List Char → Option Nat
  | [] => if needle.isEmpty then some 0 else none
  | c :: rest =>
    if needle.isPrefixOf (c :: rest) then some 0 else (find? needle rest).map (· + 1)

/-- `needle` occurs somewhere in `text`. -/
def contains (text needle : String) : Bool := (find? needle.toList text.toList).isSome

/-- `text` begins with `start`. -/
def startsWith (text start : String) : Bool := start.toList.isPrefixOf text.toList

/-- `text` ends with `needle`, and this is the first place where `needle` occurs. -/
def firstEndsWith (text needle : String) : Bool :=
  find? needle.toList text.toList == some (text.toList.length - needle.toList.length)

/-- `text` with blanks added on the right up to `width` characters. -/
def padRight (width : Nat) (text : String) : String :=
  text ++ String.ofList (List.replicate (width - text.length) ' ')

/-- `text` with blanks added on the left up to `width` characters. -/
def padLeft (width : Nat) (text : String) : String :=
  String.ofList (List.replicate (width - text.length) ' ') ++ text

/-- The first `n` characters of `text`. -/
def clip (n : Nat) (text : String) : String := String.ofList (text.toList.take n)

end GridAccess.Text
