import ReactiveScript.Text.Basic

/-!
# UTF-8

* `Utf8.encode` : the bytes of a code point. It follows the bit layout for every number below
  2^21, so a surrogate gets its three-byte form, which is not valid UTF-8.
* `Utf8.valid` : strict validity of a text: no surrogate, no overlong form, nothing above
  U+10FFFF.
-/

namespace ReactiveScript.Utf8

/-- The greatest code point. -/
def lastCodePoint : Nat := 0x10FFFF

/-- The UTF-8 bit layout of a code point. -/
def encode (c : Nat) : Text :=
  if c < 0x80 then [c.toUInt8]
  else if c < 0x800 then [(0xC0 + c / 0x40).toUInt8, (0x80 + c % 0x40).toUInt8]
  else if c < 0x10000 then
    [(0xE0 + c / 0x1000).toUInt8, (0x80 + c / 0x40 % 0x40).toUInt8, (0x80 + c % 0x40).toUInt8]
  else
    [(0xF0 + c / 0x40000).toUInt8, (0x80 + c / 0x1000 % 0x40).toUInt8,
      (0x80 + c / 0x40 % 0x40).toUInt8, (0x80 + c % 0x40).toUInt8]

/-- The first half of a surrogate pair. -/
def isHighSurrogate (c : Nat) : Bool := 0xD800 ≤ c && c ≤ 0xDBFF

/-- The second half of a surrogate pair. -/
def isLowSurrogate (c : Nat) : Bool := 0xDC00 ≤ c && c ≤ 0xDFFF

/-- The code point that a surrogate pair stands for. -/
def pair (high low : Nat) : Nat := 0x10000 + (high - 0xD800) * 0x400 + (low - 0xDC00)

/-- What a decoder of UTF-8 still owes: the number of continuation bytes, and the range of the
    next one. -/
structure Owed where
  count : Nat
  low : UInt8 := 0x80
  high : UInt8 := 0xBF

/-- Between two characters. -/
def Owed.nothing : Owed := { count := 0 }

/-- The debt after the first byte of a character, or `none` for a byte that starts none. -/
def Owed.after? (b : UInt8) : Option Owed :=
  if b ≤ 0x7F then some .nothing
  else if 0xC2 ≤ b && b ≤ 0xDF then some { count := 1 }
  else if b == 0xE0 then some { count := 2, low := 0xA0 }
  else if b == 0xED then some { count := 2, high := 0x9F }
  else if 0xE1 ≤ b && b ≤ 0xEF then some { count := 2 }
  else if b == 0xF0 then some { count := 3, low := 0x90 }
  else if 0xF1 ≤ b && b ≤ 0xF3 then some { count := 3 }
  else if b == 0xF4 then some { count := 3, high := 0x8F }
  else none

/-- Validity of the rest of a text when `o` is still owed. -/
def validFrom (o : Owed) : Text → Bool
  | [] => o.count == 0
  | b :: rest =>
    match o.count with
    | 0 =>
      match Owed.after? b with
      | some o' => validFrom o' rest
      | none => false
    | n + 1 => o.low ≤ b && b ≤ o.high && validFrom { count := n } rest

/-- Is the text valid UTF-8? -/
def valid (t : Text) : Bool := validFrom .nothing t

end ReactiveScript.Utf8
