import ReactiveScript.Number.Binary64

/-!
# Decimal text of numbers

`Decimal.shortest` gives the fewest decimal digits that read back as the same number, and of those
the nearest to it. `Decimal.render` lays them out: positional while the exponent of the first digit
is from -4 to 15, and with an exponent of at least two digits otherwise.
-/

namespace ReactiveScript.Decimal

/-! ## 1. The shortest digits -/

/-- A positive number between two bounds, all three over one denominator. -/
structure Bracket where
  low : Nat
  num : Nat
  high : Nat
  den : Nat
  /-- Do the bounds themselves count? -/
  closed : Bool

/-- The reals that round to `mantissa · 2 ^ exponent`. The distance to the next smaller number is
    half as great at a power of two. -/
def Bracket.of (mantissa : Nat) (exponent : Int) : Bracket :=
  let below :=
    if mantissa = Binary64.hidden ∧ Binary64.minExponent < exponent then 1 else 2
  let up := Nat.pow 2 (exponent - 2).toNat
  { low := (4 * mantissa - below) * up
    num := 4 * mantissa * up
    high := (4 * mantissa + 2) * up
    den := Nat.pow 2 (2 - exponent).toNat
    closed := mantissa % 2 = 0 }

/-- `10 ^ e` as a quotient. -/
def powerOfTen (e : Int) : Nat × Nat := (Nat.pow 10 e.toNat, Nat.pow 10 (-e).toNat)

/-- Is `10 ^ e ≤ num / den`? -/
def reaches (num den : Nat) (e : Int) : Bool :=
  let (p, q) := powerOfTen e
  p * den ≤ num * q

/-- The exponent of the first digit of `num / den`, sought from a guess that is off by at most
    `fuel`. -/
def firstExponentFrom (num den : Nat) : Nat → Int → Int
  | 0, e => e
  | fuel + 1, e =>
    if reaches num den (e + 1) then firstExponentFrom num den fuel (e + 1)
    else if reaches num den e then e
    else firstExponentFrom num den fuel (e - 1)

/-- The exponent of the first digit of `num / den`. -/
def firstExponent (num den : Nat) : Int :=
  firstExponentFrom num den 4 (((num.log2 : Int) - den.log2) * 30103 / 100000)

/-- Does `digits · 10 ^ e` lie between the bounds? -/
def Bracket.holds (b : Bracket) (digits : Nat) (e : Int) : Bool :=
  let (p, q) := powerOfTen e
  let x := digits * p * b.den
  if b.closed then b.low * q ≤ x && x ≤ b.high * q else b.low * q < x && x < b.high * q

/-- The multiple of `10 ^ e` between the bounds that is nearest to the number, an even one of two
    that are equally near. -/
def Bracket.onGrid? (b : Bracket) (e : Int) : Option Nat :=
  let (p, q) := powerOfTen e
  let below := b.num * q / (b.den * p)
  match b.holds below e, b.holds (below + 1) e with
  | true, true =>
    let twice := 2 * b.num * q
    let middle := (2 * below + 1) * p * b.den
    if twice < middle then some below
    else if middle < twice then some (below + 1)
    else if below % 2 = 0 then some below
    else some (below + 1)
  | true, false => some below
  | false, true => some (below + 1)
  | false, false => none

/-- The first hit on the grids from `10 ^ e` downwards. -/
def Bracket.searchFrom (b : Bracket) : Nat → Int → Nat × Int
  | 0, e => (b.num / b.den, e)
  | fuel + 1, e =>
    match b.onGrid? e with
    | some digits => (digits, e)
    | none => searchFrom b fuel (e - 1)

/-- The digits, and the exponent of the last one, of `mantissa · 2 ^ exponent` written with the
    fewest digits that read back. Seventeen always suffice. -/
def shortest (mantissa : Nat) (exponent : Int) : Nat × Int :=
  let b := Bracket.of mantissa exponent
  b.searchFrom 18 (firstExponent b.num b.den)

/-! ## 2. Layout -/

/-- How numbers are laid out. -/
structure Layout where
  /-- The least and the greatest exponent of the first digit that is written positionally. -/
  lowest : Int
  highest : Int
  /-- The least number of digits of an exponent. -/
  exponentWidth : Nat

/-- The layout of numbers in output. -/
def layout : Layout := { lowest := -4, highest := 15, exponentWidth := 2 }

/-- The digits without zeros at the end. -/
def trimZeros (t : Text) : Text := (t.reverse.dropWhile (· == Byte.zero)).reverse

/-- So many zeros. -/
def zeros (n : Nat) : Text := List.replicate n Byte.zero

/-- Digits whose first one has the exponent `e`, written positionally. -/
def positional (digits : Text) (e : Int) : Text :=
  if e < 0 then txt "0." ++ zeros (-e - 1).toNat ++ digits
  else
    let whole := e.toNat + 1
    if digits.length ≤ whole then digits ++ zeros (whole - digits.length)
    else digits.take whole ++ [Byte.dot] ++ digits.drop whole

/-- Digits whose first one has the exponent `e`, written with an exponent. -/
def scientific (l : Layout) (digits : Text) (e : Int) : Text :=
  let mantissa :=
    if digits.length ≤ 1 then digits else digits.take 1 ++ [Byte.dot] ++ digits.drop 1
  let size := Text.ofNat e.natAbs
  mantissa ++ txt "e" ++ [if e < 0 then Byte.minus else Byte.plus] ++
    zeros (l.exponentWidth - size.length) ++ size

/-- The text of a positive number. -/
def renderPositive (l : Layout) (mantissa : Nat) (exponent : Int) : Text :=
  let (n, last) := shortest mantissa exponent
  let written := Text.ofNat n
  let first := last + (written.length : Int) - 1
  let digits := trimZeros written
  if l.lowest ≤ first ∧ first ≤ l.highest then positional digits first
  else scientific l digits first

/-- The text of a number. -/
def render (x : Binary64) : Text :=
  let sign : Text := if x.isNegative then [Byte.minus] else []
  match x.value with
  | .nan => sign ++ txt "nan"
  | .infinite _ => sign ++ txt "inf"
  | .finite _ m e => if m = 0 then sign ++ txt "0" else sign ++ renderPositive layout m e

end ReactiveScript.Decimal
