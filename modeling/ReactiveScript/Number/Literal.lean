import ReactiveScript.Number.Binary64
import ReactiveScript.Fault

/-!
# Number literals

The value of a number as it is spelt. Only the longest start of the spelling that is a number
counts, so a malformed spelling has a value as well: that of its well-formed start, or zero. A
decimal value that no finite number other than zero can stand for is infinite, whether it is too
large or too small.
-/

namespace ReactiveScript

/-- A number of the source: its value, and its spelling where output keeps that. -/
structure NumberLiteral where
  value : Binary64
  raw : Text
  deriving DecidableEq, Repr, Inhabited

namespace NumberLiteral

/-! ## 1. Numbers with a mark for their base -/

/-- The number that digits spell, ten standing for `a`. -/
def digitsValue (base : Nat) (digits : Text) : Nat :=
  digits.foldl (fun n b => n * base + (Byte.digitValue? b).getD 0) 0

/-- What one byte adds when a spelling is taken byte by byte: its digit, or its distance from `a`
    and ten, the byte being a signed one. -/
def foldDigit (b : UInt8) : Int :=
  if Byte.isDigit b then (b.toNat : Int) - 0x30
  else
    let letter : Int := ((b ||| 0x20).toNat : Int) - (if 0x80 ≤ b then 256 else 0)
    letter - 0x61 + 10

/-- A spelling taken byte by byte, rounded after each. -/
def fold (base : Nat) (t : Text) : Binary64 :=
  t.foldl (fun x b => (x.scale base).add (Binary64.ofInt (foldDigit b))) (Binary64.ofInt 0)

/-- The value of what follows the mark. Up to 64 bits it is rounded once; a longer spelling, or one
    without digits, is taken byte by byte. -/
def radixValue (r : Radix) (t : Text) : Binary64 :=
  let digits := t.takeWhile r.isDigit
  let n := digitsValue r.base digits
  if digits.isEmpty ∨ Nat.pow 2 64 ≤ n then fold r.base t else Binary64.ofInt n

/-! ## 2. Decimal numbers -/

/-- What reading a decimal number finds. -/
inductive Reading where
  | none
  | outOfRange
  | value (x : Binary64)
  deriving DecidableEq, Repr

/-- An exponent at the start of a text; zero without one. -/
def exponentOf : Text → Int
  | e :: rest =>
    if e = 0x65 ∨ e = 0x45 then
      let (negative, digits) := match rest with
        | s :: more =>
          if s = Byte.minus then (true, more.takeWhile Byte.isDigit)
          else if s = Byte.plus then (false, more.takeWhile Byte.isDigit)
          else (false, rest.takeWhile Byte.isDigit)
        | [] => (false, [])
      let n : Int := digitsValue 10 digits
      if negative then -n else n
    else 0
  | [] => 0

/-- A bound on the size of decimal exponents that a finite number can have. -/
def exponentBound : Int := 400

/-- The number `± digits · 10 ^ exponent`, where `digits` has the given count of significant
ones. -/
def ofDecimal (negative : Bool) (digits count : Nat) (exponent : Int) : Reading :=
  if digits = 0 then .value (Binary64.nearest negative 0 1)
  else if exponentBound < exponent + count ∨ exponent + count < -exponentBound then .outOfRange
  else
    let x := Binary64.nearest negative (digits * Nat.pow 10 exponent.toNat)
      (Nat.pow 10 (-exponent).toNat)
    if x.isExtreme then .outOfRange else .value x

/-- Does a text start with a word, case ignored? -/
def startsWithWord (word t : Text) : Bool := word.isPrefixOf (t.map (· ||| 0x20))

/-- The number at the start of a text without a sign. -/
def unsigned (negative : Bool) (t : Text) : Reading :=
  let whole := t.takeWhile Byte.isDigit
  let after := t.drop whole.length
  let fraction :=
    if after.head? = some Byte.dot then (after.drop 1).takeWhile Byte.isDigit else []
  let digits := whole ++ fraction
  if digits.isEmpty then
    if startsWithWord (txt "nan") t then .value (Binary64.nan negative)
    else if startsWithWord (txt "inf") t then .value (Binary64.infinity negative)
    else .none
  else
    let rest := if after.head? = some Byte.dot then after.drop (1 + fraction.length) else after
    let significant := digits.dropWhile (· == Byte.zero)
    ofDecimal negative (digitsValue 10 digits) significant.length
      (exponentOf rest - fraction.length)

/-- The number at the start of a text. -/
def decimal (t : Text) : Reading :=
  match t with
  | s :: rest => if s = Byte.minus then unsigned true rest else unsigned false t
  | [] => .none

/-- Bytes that make output keep the spelling. -/
def keepsSpelling (b : UInt8) : Bool := b == Byte.dot || b == 0x65 || b == 0x45

/-- A decimal literal. Output keeps the spelling of what has a fraction or an exponent or is no
    number in range. -/
def ofDecimalText (t : Text) : NumberLiteral :=
  match decimal t with
  | .value x => { value := x, raw := if t.any keepsSpelling then t else [] }
  | .outOfRange => { value := Binary64.infinity false, raw := t }
  | .none => { value := Binary64.ofInt 0, raw := t }

/-- The number that a spelling stands for. -/
def ofText (t : Text) : NumberLiteral :=
  match t with
  | z :: m :: d :: rest =>
    if z = Byte.zero then
      match Radix.ofMark? m with
      | some r => { value := radixValue r (d :: rest), raw := t }
      | none => ofDecimalText t
    else ofDecimalText t
  | _ => ofDecimalText t

end NumberLiteral

end ReactiveScript
