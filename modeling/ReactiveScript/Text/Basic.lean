/-!
# Text as bytes

Source text, names and messages are finite sequences of bytes. A source need not be valid UTF-8,
and a decoded literal may hold an unpaired surrogate, so a text is a list of bytes and not a
string. Every scanning function of the library is a recursion on such a list.
-/

namespace ReactiveScript

/-- A text: a finite sequence of bytes. -/
abbrev Text := List UInt8

/-- The bytes of a string in UTF-8. -/
def txt (s : String) : Text := s.toByteArray.data.toList

namespace Byte

/-! ## 1. Bytes with a name -/

def tab : UInt8 := 0x09
def newline : UInt8 := 0x0A
def carriageReturn : UInt8 := 0x0D
def space : UInt8 := 0x20
def doubleQuote : UInt8 := 0x22
def dollar : UInt8 := 0x24
def ampersand : UInt8 := 0x26
def singleQuote : UInt8 := 0x27
def star : UInt8 := 0x2A
def plus : UInt8 := 0x2B
def minus : UInt8 := 0x2D
def dot : UInt8 := 0x2E
def slash : UInt8 := 0x2F
def zero : UInt8 := 0x30
def semicolon : UInt8 := 0x3B
def less : UInt8 := 0x3C
def greater : UInt8 := 0x3E
def question : UInt8 := 0x3F
def atSign : UInt8 := 0x40
def backslash : UInt8 := 0x5C
def underscore : UInt8 := 0x5F
def backtick : UInt8 := 0x60
def openBrace : UInt8 := 0x7B
def closeBrace : UInt8 := 0x7D

/-! ## 2. Classes of bytes -/

/-- A decimal digit. -/
def isDigit (b : UInt8) : Bool := 0x30 ≤ b && b ≤ 0x39

/-- An octal digit. -/
def isOctal (b : UInt8) : Bool := 0x30 ≤ b && b ≤ 0x37

/-- A binary digit. -/
def isBinary (b : UInt8) : Bool := b == 0x30 || b == 0x31

/-- A lower-case ASCII letter. -/
def isLower (b : UInt8) : Bool := 0x61 ≤ b && b ≤ 0x7A

/-- An upper-case ASCII letter. -/
def isUpper (b : UInt8) : Bool := 0x41 ≤ b && b ≤ 0x5A

/-- A hexadecimal digit, of either case. -/
def isHex (b : UInt8) : Bool :=
  isDigit b || (0x61 ≤ b && b ≤ 0x66) || (0x41 ≤ b && b ≤ 0x46)

/-- A byte that may start a name. -/
def isNameStart (b : UInt8) : Bool := isLower b || isUpper b || b == underscore || b == dollar

/-- A byte that may continue a name. -/
def isNamePart (b : UInt8) : Bool := isNameStart b || isDigit b

/-- White space inside markup and interpolations: blank, tab, line feed, vertical tab, form feed
    and carriage return. -/
def isBlank (b : UInt8) : Bool := b == space || (0x09 ≤ b && b ≤ 0x0D)

/-- A continuation byte of a UTF-8 sequence. -/
def isContinuation (b : UInt8) : Bool := 0x80 ≤ b && b ≤ 0xBF

/-- The value of a digit in a base up to 36; letters count from ten, case ignored. -/
def digitValue? (b : UInt8) : Option Nat :=
  if isDigit b then some (b.toNat - 0x30)
  else if isLower b then some (b.toNat - 0x61 + 10)
  else if isUpper b then some (b.toNat - 0x41 + 10)
  else none

end Byte

namespace Text

/-! ## 3. Building texts -/

/-- A number in decimal. -/
def ofNat (n : Nat) : Text := txt (toString n)

/-- The pieces in order, with `sep` between neighbours. -/
def join (sep : Text) : List Text → Text
  | [] => []
  | [t] => t
  | t :: u :: ts => t ++ sep ++ join sep (u :: ts)

/-- The text between single quotes. -/
def quoted (t : Text) : Text := Byte.singleQuote :: t ++ [Byte.singleQuote]

/-- A text at least `n` bytes wide, filled with blanks on the left. -/
def padLeft (n : Nat) (t : Text) : Text := List.replicate (n - t.length) Byte.space ++ t

/-- A text at least `n` bytes wide, filled with blanks on the right. -/
def padRight (n : Nat) (t : Text) : Text := t ++ List.replicate (n - t.length) Byte.space

/-- One byte as two upper-case hexadecimal digits. -/
def hexByte (b : UInt8) : Text :=
  let digit (n : Nat) : UInt8 := if n < 10 then (0x30 + n).toUInt8 else (0x37 + n).toUInt8
  [digit (b.toNat / 16), digit (b.toNat % 16)]

/-! ## 4. Blank ends -/

/-- The number of blank bytes at the start. -/
def leadingBlanks (t : Text) : Nat := (t.takeWhile Byte.isBlank).length

/-- Does the text hold white space only? -/
def isBlank (t : Text) : Bool := t.all Byte.isBlank

/-- Where the text without blanks at either end begins and ends; `none` for a blank text. -/
def trimBounds (t : Text) : Option (Nat × Nat) :=
  if t.isBlank then none
  else some (t.leadingBlanks, t.length - Text.leadingBlanks t.reverse)

/-! ## 5. Searching -/

/-- The index of the first occurrence of a byte. -/
def indexOf? (b : UInt8) (t : Text) : Option Nat := t.findIdx? (· == b)

/-- The order of texts by their bytes, a proper start before what it starts. -/
def le : Text → Text → Bool
  | [], _ => true
  | _ :: _, [] => false
  | a :: s, b :: t => a < b || (a == b && le s t)

end Text

end ReactiveScript
