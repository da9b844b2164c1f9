import ReactiveScript.Text.Utf8

/-!
# Backslash escapes and quoted strings

`Escape.cook` reads the escapes of a string or template body; `Escape.quote` writes a text as a
double-quoted literal. An escape that is malformed loses its backslash and is kept otherwise, and
a backslash at the very end is kept.
-/

namespace ReactiveScript.Escape

/-! ## 1. Numbers in escapes -/

/-- The number that all bytes of a text spell in a base; `none` for an empty text, a foreign byte
    or a number that needs more than 32 bits. -/
def number? (base : Nat) (t : Text) : Option Nat :=
  let step (acc : Option Nat) (b : UInt8) : Option Nat :=
    match acc, Byte.digitValue? b with
    | some n, some d => if d < base && n * base + d < 0x100000000 then some (n * base + d) else none
    | _, _ => none
  if t.isEmpty then none else t.foldl step (some 0)

/-- The number spelt by exactly `n` hexadecimal digits at the start of a text. -/
def fixedHex? (n : Nat) (t : Text) : Option Nat :=
  let digits := t.take n
  if digits.length = n then number? 16 digits else none

/-! ## 2. Reading -/

/-- What one escape stands for, and how many bytes after the backslash it takes. -/
structure Decoded where
  text : Text
  width : Nat

/-- The one-letter escapes. -/
def letter? (e : UInt8) : Option UInt8 :=
  if e = 0x6E then some 0x0A
  else if e = 0x74 then some 0x09
  else if e = 0x72 then some 0x0D
  else if e = 0x62 then some 0x08
  else if e = 0x66 then some 0x0C
  else if e = 0x76 then some 0x0B
  else if e = 0x30 then some 0x00
  else none

/-- The escape whose text after `\x` is `rest`. -/
def byteEscape (rest : Text) : Decoded :=
  match fixedHex? 2 rest with
  | some c => ⟨Utf8.encode c, 3⟩
  | none => ⟨[0x78], 1⟩

/-- The second half of a surrogate pair, spelt `\uHHHH`, at the start of a text. -/
def lowHalf? : Text → Option Nat
  | b :: u :: rest =>
    if b = Byte.backslash ∧ u = 0x75 then
      match fixedHex? 4 rest with
      | some c => if Utf8.isLowSurrogate c then some c else none
      | none => none
    else none
  | _ => none

/-- The escape whose text after `\u` is `rest`: a number in braces, or four digits, which pair with
    a following `\uHHHH` when the two are the halves of a surrogate pair. -/
def unicodeEscape (rest : Text) : Decoded :=
  if rest.head? = some Byte.openBrace then
    match Text.indexOf? Byte.closeBrace rest with
    | some close =>
      match number? 16 ((rest.take close).drop 1) with
      | some c => if c ≤ Utf8.lastCodePoint then ⟨Utf8.encode c, close + 2⟩ else ⟨[0x75], 1⟩
      | none => ⟨[0x75], 1⟩
    | none => ⟨[0x75], 1⟩
  else
    match fixedHex? 4 rest with
    | some c =>
      match lowHalf? (rest.drop 4) with
      | some low =>
        if Utf8.isHighSurrogate c then ⟨Utf8.encode (Utf8.pair c low), 11⟩
        else ⟨Utf8.encode c, 5⟩
      | none => ⟨Utf8.encode c, 5⟩
    | none => ⟨[0x75], 1⟩

/-- The escape whose text after the backslash is `e :: rest`. An escaped line end stands for
    nothing, and CR LF is one line end. -/
def decode (e : UInt8) (rest : Text) : Decoded :=
  match letter? e with
  | some b => ⟨[b], 1⟩
  | none =>
    if e = Byte.carriageReturn then
      ⟨[], if rest.head? = some Byte.newline then 2 else 1⟩
    else if e = Byte.newline then ⟨[], 1⟩
    else if e = 0x78 then byteEscape rest
    else if e = 0x75 then unicodeEscape rest
    else ⟨[e], 1⟩

/-- The escape that follows a backslash; a backslash at the end stands for itself. -/
def escape : Text → Decoded
  | [] => ⟨[Byte.backslash], 0⟩
  | e :: rest => decode e rest

/-- Read a text byte by byte, the first `skip` bytes being part of an escape already read; the
    bytes read so far are kept in reverse. -/
def cookFrom (skip : Nat) (done : Text) : Text → Text
  | [] => done.reverse
  | b :: rest =>
    match skip with
    | n + 1 => cookFrom n done rest
    | 0 =>
      if b = Byte.backslash then
        let d := escape rest
        cookFrom d.width (d.text.reverse ++ done) rest
      else cookFrom 0 (b :: done) rest

/-- Replace every escape by what it stands for. -/
def cook (raw : Text) : Text := cookFrom 0 [] raw

/-! ## 3. Writing -/

/-- How one byte is written inside a double-quoted literal. -/
def quoteByte (b : UInt8) : Text :=
  if b = Byte.doubleQuote then [Byte.backslash, Byte.doubleQuote]
  else if b = Byte.backslash then [Byte.backslash, Byte.backslash]
  else if b = Byte.newline then [Byte.backslash, 0x6E]
  else if b = Byte.carriageReturn then [Byte.backslash, 0x72]
  else if b = Byte.tab then [Byte.backslash, 0x74]
  else [b]

/-- A text as a double-quoted literal. -/
def quote (t : Text) : Text :=
  Byte.doubleQuote :: (t.flatMap quoteByte ++ [Byte.doubleQuote])

/-- The text between the quotes of a string literal. A literal that lacks its closing quote keeps
    all that follows the opening one. -/
def unquoted : Text → Text
  | [] => []
  | q :: body => if body.getLast? = some q then body.dropLast else body

/-- The value of a string literal: its body with the escapes read. -/
def stringValue (literal : Text) : Text := cook (unquoted literal)

end ReactiveScript.Escape
