import ReactiveScript.Fault
import ReactiveScript.Token.Nesting

/-!
# Lexemes

A lexeme is the stretch of bytes at the start of a text that makes up one token: its kind, its
width in bytes, and the faults found in it, each with the number of bytes in front of it. Every
class of tokens has a scanner of its own, and `Lexeme.scan` picks the one that the first byte asks
for.

Operators are read by tests in a fixed order (`Punct.tests`), each for the bytes behind the first
one. The first test that succeeds decides, whatever the others would give. One test looks further:
`?.` before a digit is `?` and the start of a number.
-/

namespace ReactiveScript

/-- One token's worth of bytes at the start of a text. -/
structure Lexeme where
  kind : Kind
  width : Nat
  faults : List (Nat × LexFault) := []
  deriving DecidableEq, Repr

/-! ## 1. Operators and punctuation -/

namespace Punct

/-- A test for a token whose first byte has been read: the bytes that must follow, and the token. -/
structure Test where
  more : Text
  punct : Punct
  deriving DecidableEq, Repr

/-- Does the test succeed on what follows the first byte? -/
def Test.succeeds (rest : Text) (t : Test) : Bool :=
  t.more.isPrefixOf rest &&
    !(t.punct = .optional && ((rest.drop 1).head?.map Byte.isDigit).getD false)

/-- The tests behind a first byte, in the order in which they are made. -/
def tests : UInt8 → List Test
  | 0x28 => [⟨[], .openParen⟩]
  | 0x29 => [⟨[], .closeParen⟩]
  | 0x5B => [⟨[], .openBracket⟩]
  | 0x5D => [⟨[], .closeBracket⟩]
  | 0x7B => [⟨[], .openBrace⟩]
  | 0x7D => [⟨[], .closeBrace⟩]
  | 0x2C => [⟨[], .comma⟩]
  | 0x3B => [⟨[], .semicolon⟩]
  | 0x7E => [⟨[], .tilde⟩]
  | 0x2E => [⟨txt "..", .ellipsis⟩, ⟨[], .dot⟩]
  | 0x2B => [⟨txt "+", .increment⟩, ⟨txt ":=", .setPlus⟩, ⟨[], .plus⟩]
  | 0x2D => [⟨txt "-", .decrement⟩, ⟨txt ":=", .setMinus⟩, ⟨[], .minus⟩]
  | 0x2A => [⟨txt "*:=", .setStarStar⟩, ⟨txt "*", .starStar⟩, ⟨txt ":=", .setStar⟩, ⟨[], .star⟩]
  | 0x2F => [⟨txt ":=", .setSlash⟩, ⟨txt ">", .selfClose⟩, ⟨[], .slash⟩]
  | 0x25 => [⟨txt ":=", .setPercent⟩, ⟨[], .percent⟩]
  | 0x5E => [⟨txt ":=", .setCaret⟩, ⟨[], .caret⟩]
  | 0x26 =>
    [⟨txt "&:=", .setAndAnd⟩, ⟨txt "&", .andAnd⟩, ⟨txt ":=", .setAmpersand⟩, ⟨[], .ampersand⟩]
  | 0x7C =>
    [⟨txt "|:=", .setOrOr⟩, ⟨txt "|", .orOr⟩, ⟨txt ":=", .setBar⟩, ⟨txt ">", .pipe⟩, ⟨[], .bar⟩]
  | 0x3F => [⟨txt "?:=", .setNullish⟩, ⟨txt "?", .nullish⟩, ⟨txt ".", .optional⟩, ⟨[], .question⟩]
  | 0x3C =>
    [⟨txt "<:=", .setShiftLeft⟩, ⟨txt "<", .shiftLeft⟩, ⟨txt "=", .lessEqual⟩, ⟨txt "|", .compose⟩,
      ⟨txt "/", .closeTag⟩, ⟨[], .less⟩]
  | 0x3E =>
    [⟨txt ">>:=", .setShiftRightZero⟩, ⟨txt ">>", .shiftRightZero⟩, ⟨txt ">:=", .setShiftRight⟩,
      ⟨txt ">", .shiftRight⟩, ⟨txt "=", .greaterEqual⟩, ⟨[], .greater⟩]
  | 0x3D => [⟨txt "=", .equal⟩, ⟨txt ">", .arrow⟩, ⟨[], .declare⟩]
  | 0x21 => [⟨txt "=", .notEqual⟩, ⟨[], .bang⟩]
  | 0x3A => [⟨txt "=", .set⟩, ⟨[], .colon⟩]
  | _ => []

/-- The first test that succeeds; no other is made then. -/
def firstAt? (b : UInt8) (rest : Text) : Option Test := (tests b).find? (·.succeeds rest)

theorem spelling_ne_nil (p : Punct) : p.spelling ≠ [] := by cases p <;> decide

/-- A token is tested for behind its first byte, with the bytes that make up its spelling. -/
theorem mem_tests {b : UInt8} {w : Text} {p : Punct} : ⟨w, p⟩ ∈ tests b ↔ p.spelling = b :: w := by
  constructor
  · intro h
    have hall : ∀ t ∈ tests b, t.punct.spelling = b :: t.more := by
      unfold tests
      split <;> first | exact List.forall_mem_nil _ | decide
    exact hall _ h
  · intro h
    cases p <;> cases h <;> decide

theorem spelling_of_firstAt? {b : UInt8} {rest : Text} {t : Test} (h : firstAt? b rest = some t) :
    t.punct.spelling = b :: t.more ∧ t.more <+: rest := by
  have hsucceeds := List.find?_some h
  rw [Test.succeeds, Bool.and_eq_true] at hsucceeds
  exact ⟨mem_tests.mp (List.mem_of_find?_eq_some h), List.isPrefixOf_iff_prefix.mp hsucceeds.1⟩

end Punct

namespace Lexeme

/-! ## 2. Words and modifiers -/

/-- The number of bytes at the start of a text that can continue a name. -/
def nameLength (t : Text) : Nat := (t.takeWhile Byte.isNamePart).length

/-- A name or a keyword. -/
def word (t : Text) : Lexeme :=
  let width := nameLength t
  { kind := Kind.ofWord (t.take width), width := width }

/-- What follows `@`: a name, or else the sign stands alone and is faulty. -/
def modifier (rest : Text) : Lexeme :=
  if (rest.head?.map Byte.isNameStart).getD false then
    { kind := .modifier, width := 1 + nameLength rest }
  else { kind := .invalid, width := 1, faults := [(0, .modifierName)] }

/-! ## 3. Numbers -/

/-- The number of digits of a class at the start of a text. -/
def digitCount (isDigit : UInt8 → Bool) (t : Text) : Nat := (t.takeWhile isDigit).length

/-- The fault of a name that starts right after a number of the given width. -/
def nameAfter (t : Text) (width : Nat) : List (Nat × LexFault) :=
  if ((t.drop width).head?.map Byte.isNamePart).getD false then [(width, .nameAfterNumber)] else []

/-- A number with a mark for its base: `0x`, `0b` or `0o` and digits of that base. -/
def radixNumber (r : Radix) (t : Text) : Lexeme :=
  let digits := digitCount r.isDigit (t.drop 2)
  let width := 2 + digits
  { kind := .number
    width := width
    faults := (if digits = 0 then [(0, .noDigits r)] else []) ++ nameAfter t width }

/-- The width of a fraction at the start of a text: a dot that a digit follows, and its digits. -/
def fractionWidth : Text → Nat
  | d :: rest =>
    if d = Byte.dot ∧ 0 < digitCount Byte.isDigit rest then 1 + digitCount Byte.isDigit rest
    else 0
  | [] => 0

/-- The width of an exponent at the start of a text, and whether it has digits. A text without an
    exponent mark has an exponent of width zero with nothing amiss. -/
def exponent : Text → Nat × Bool
  | e :: rest =>
    if e = 0x65 ∨ e = 0x45 then
      let sign := match rest with
        | s :: _ => if s = Byte.plus ∨ s = Byte.minus then 1 else 0
        | [] => 0
      let digits := digitCount Byte.isDigit (rest.drop sign)
      (1 + sign + digits, 0 < digits)
    else (0, true)
  | [] => (0, true)

/-- A decimal number. Its first byte is a digit or the dot of a fraction. -/
def decimalNumber (t : Text) : Lexeme :=
  let whole := 1 + digitCount Byte.isDigit (t.drop 1)
  let mantissa := whole + fractionWidth (t.drop whole)
  let exp := exponent (t.drop mantissa)
  let width := mantissa + exp.1
  { kind := .number
    width := width
    faults := (if exp.2 then [] else [(0, .noExponent)]) ++ nameAfter t width }

/-- A number in any base. -/
def number (t : Text) : Lexeme :=
  match t with
  | z :: m :: _ =>
    if z = Byte.zero then
      match Radix.ofMark? m with
      | some r => radixNumber r t
      | none => decimalNumber t
    else decimalNumber t
  | _ => decimalNumber t

/-! ## 4. Strings -/

/-- The fault of an escape `\x`, found at `n`, whose two digits should start the text. -/
def hexFault (n : Nat) (t : Text) : List (Nat × LexFault) :=
  let digits := digitCount Byte.isHex (t.take 2)
  if digits < 2 then [(n + digits, .hexEscape)] else []

/-- The rest of a string after `n` bytes. It ends with the quote that opened it, and before a line
    feed that no backslash escapes. Faults are collected last first. -/
def stringFrom (quote : UInt8) (n : Nat) (faults : List (Nat × LexFault)) : Text → Lexeme
  | [] => { kind := .string, width := n, faults := ((0, .openString) :: faults).reverse }
  | b :: rest =>
    if b = quote then { kind := .string, width := n + 1, faults := faults.reverse }
    else if b = Byte.newline then
      { kind := .string, width := n, faults := ((n, .lineInString) :: faults).reverse }
    else if b = Byte.backslash then
      match rest with
      | [] =>
        { kind := .string
          width := n + 1
          faults := ((0, .openString) :: (n + 1, .openEscape) :: faults).reverse }
      | e :: rest =>
        let found := if e = 0x78 then hexFault (n + 2) rest else []
        stringFrom quote (n + 2) (found ++ faults) rest
    else stringFrom quote (n + 1) faults rest

/-! ## 5. Templates -/

/-- A template, whose backtick stands before the text. -/
def template (rest : Text) : Lexeme :=
  let (width, closed) := Nesting.closeFrom [.body] 1 rest
  { kind := .template
    width := width
    faults := if closed then [] else [(0, .openTemplate)] }

/-! ## 6. Bytes that start no token -/

/-- A byte that starts no token. A UTF-8 sequence is taken as a whole. -/
def stray (b : UInt8) (rest : Text) : Lexeme :=
  if b < 0x80 then { kind := .invalid, width := 1, faults := [(0, .strayCharacter [b])] }
  else if b < 0xC2 ∨ 0xF4 < b then { kind := .invalid, width := 1, faults := [(0, .strayByte b)] }
  else
    let tail := rest.takeWhile Byte.isContinuation
    { kind := .invalid, width := 1 + tail.length, faults := [(0, .strayCharacter (b :: tail))] }

/-! ## 7. All tokens -/

/-- The lexeme at the start of the text `b :: rest`, which starts with no trivia. -/
def scan (b : UInt8) (rest : Text) : Lexeme :=
  if Byte.isNameStart b then word (b :: rest)
  else if Byte.isDigit b || (b == Byte.dot && (rest.head?.map Byte.isDigit).getD false) then
    number (b :: rest)
  else if b = Byte.doubleQuote ∨ b = Byte.singleQuote then stringFrom b 1 [] rest
  else if b = Byte.backtick then template rest
  else if b = Byte.atSign then modifier rest
  else
    match Punct.firstAt? b rest with
    | some t => { kind := .punct t.punct, width := 1 + t.more.length }
    | none => stray b rest

end Lexeme

end ReactiveScript
