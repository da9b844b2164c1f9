import ReactiveScript.Text.Escape

/-!
# Character references in markup

`Entity.decode` reads `&name;`, `&#123;` and `&#x7b;`; `Entity.escape` writes a text so that it can
stand between tags. A reference that names nothing is kept as it is written.
-/

namespace ReactiveScript.Entity

/-! ## 1. The names -/

/-- The named characters and their code points. -/
def names : List (Text × Nat) :=
  [ (txt "nbsp", 160), (txt "lt", 60), (txt "gt", 62), (txt "amp", 38), (txt "quot", 34),
    (txt "apos", 39), (txt "cent", 162), (txt "pound", 163), (txt "yen", 165), (txt "euro", 8364),
    (txt "copy", 169), (txt "reg", 174), (txt "trade", 8482), (txt "mdash", 8212),
    (txt "ndash", 8211), (txt "hellip", 8230), (txt "laquo", 171), (txt "raquo", 187),
    (txt "ldquo", 8220), (txt "rdquo", 8221), (txt "lsquo", 8216), (txt "rsquo", 8217),
    (txt "bull", 8226), (txt "deg", 176), (txt "plusmn", 177), (txt "times", 215),
    (txt "divide", 247), (txt "ne", 8800), (txt "le", 8804), (txt "ge", 8805),
    (txt "infin", 8734), (txt "sum", 8721), (txt "prod", 8719), (txt "larr", 8592),
    (txt "uarr", 8593), (txt "rarr", 8594), (txt "darr", 8595), (txt "harr", 8596) ]

/-! ## 2. Reading -/

/-- A number reference is a code point other than zero. -/
def codePoint? (n : Option Nat) : Option Nat :=
  match n with
  | some c => if 0 < c ∧ c ≤ Utf8.lastCodePoint then some c else none
  | none => none

/-- The code point that a reference names; `t` is what stands between `&` and `;`. -/
def lookup? (t : Text) : Option Nat :=
  match t with
  | 0x23 :: x :: digits =>
    if x = 0x78 ∨ x = 0x58 then codePoint? (Escape.number? 16 digits)
    else codePoint? (Escape.number? 10 (x :: digits))
  | _ => names.lookup t

/-- The longest reference in bytes, from `&` up to and without `;`. -/
def maxWidth : Nat := 10

/-- The reference at the start of a text that follows `&`: the code point it names and the number
    of bytes up to and with its `;`. -/
def reference? (rest : Text) : Option (Nat × Nat) :=
  match Text.indexOf? Byte.semicolon (rest.take maxWidth) with
  | some semi => (lookup? (rest.take semi)).map (·, semi + 1)
  | none => none

/-- Read a text byte by byte, the first `skip` bytes being part of a reference already read; the
    bytes read so far are kept in reverse. -/
def decodeFrom (skip : Nat) (done : Text) : Text → Text
  | [] => done.reverse
  | b :: rest =>
    match skip with
    | n + 1 => decodeFrom n done rest
    | 0 =>
      if b = Byte.ampersand then
        match reference? rest with
        | some (c, width) => decodeFrom width ((Utf8.encode c).reverse ++ done) rest
        | none => decodeFrom 0 (b :: done) rest
      else decodeFrom 0 (b :: done) rest

/-- Replace every character reference by the character it names. -/
def decode (t : Text) : Text := decodeFrom 0 [] t

/-! ## 3. Writing -/

/-- How one byte is written between tags. -/
def escapeByte (b : UInt8) : Text :=
  if b = Byte.ampersand then txt "&amp;"
  else if b = Byte.less then txt "&lt;"
  else if b = Byte.greater then txt "&gt;"
  else if b = Byte.openBrace then txt "&#123;"
  else if b = Byte.closeBrace then txt "&#125;"
  else [b]

/-- A text as it is written between tags. -/
def escape (t : Text) : Text := t.flatMap escapeByte

end ReactiveScript.Entity
