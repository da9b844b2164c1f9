import ReactiveScript.Text.Basic

/-!
# Numbers of 64 bits

A `Binary64` is a floating-point number in the 64-bit binary interchange format, held as its bits.
Its value is a sign, a whole number and a power of two, or an infinity, or no number. All
arithmetic is exact on whole numbers and ends in one rounding to nearest, ties to even
(`Binary64.nearest`).
-/

namespace ReactiveScript

/-- The bits of a floating-point number. -/
structure Binary64 where
  bits : UInt64
  deriving DecidableEq, Repr, Inhabited

namespace Binary64

/-! ## 1. Decoding -/

/-- What the bits stand for. -/
inductive Value where
  /-- `± mantissa · 2 ^ exponent` -/
  | finite (negative : Bool) (mantissa : Nat) (exponent : Int)
  | infinite (negative : Bool)
  | nan
  deriving DecidableEq, Repr

/-- The least exponent, that of the numbers next to zero. -/
def minExponent : Int := -1074

/-- The mantissa of the least normal number. -/
def hidden : Nat := Nat.pow 2 52

def isNegative (x : Binary64) : Bool := Nat.pow 2 63 ≤ x.bits.toNat

/-- The value of a number. -/
def value (x : Binary64) : Value :=
  let exponent : Nat := x.bits.toNat / hidden % 2048
  let fraction : Nat := x.bits.toNat % hidden
  if exponent = 2047 then
    if fraction = 0 then .infinite x.isNegative else .nan
  else if exponent = 0 then .finite x.isNegative fraction minExponent
  else .finite x.isNegative (hidden + fraction) ((exponent : Int) - 1075)

/-! ## 2. Encoding -/

/-- The word with a sign. -/
def signed (negative : Bool) (word : Nat) : Binary64 :=
  ⟨(if negative then Nat.pow 2 63 + word else word).toUInt64⟩

def infinity (negative : Bool) : Binary64 := signed negative (2047 * hidden)

def nan (negative : Bool) : Binary64 := signed negative (2047 * hidden + Nat.pow 2 51)

/-- The number `± mantissa · 2 ^ exponent`, where the mantissa has at most 53 bits, or is 2^53 after
    rounding up, and fewer than 53 only at the least exponent. What is too large is infinite. -/
def pack (negative : Bool) (mantissa : Nat) (exponent : Int) : Binary64 :=
  if mantissa < hidden then signed negative mantissa
  else
    let word := (exponent - minExponent + 1).toNat * hidden + (mantissa - hidden)
    if 2047 * hidden ≤ word then infinity negative else signed negative word

/-- The whole number nearest to a quotient, the even one of two that are equally near. -/
def roundDiv (num den : Nat) : Nat :=
  let quotient := num / den
  let twice := 2 * (num % den)
  if den < twice ∨ (twice = den ∧ quotient % 2 = 1) then quotient + 1 else quotient

/-- The greatest `e` with `2 ^ e ≤ num / den`, both positive. -/
def leadingExponent (num den : Nat) : Int :=
  let e : Int := (num.log2 : Int) - den.log2
  if den * Nat.pow 2 e.toNat ≤ num * Nat.pow 2 (-e).toNat then e else e - 1

/-- The number nearest to `± num / den`, ties to even. -/
def nearest (negative : Bool) (num den : Nat) : Binary64 :=
  if num = 0 then signed negative 0
  else
    let exponent := max (leadingExponent num den - 52) minExponent
    let mantissa := roundDiv (num * Nat.pow 2 (-exponent).toNat) (den * Nat.pow 2 exponent.toNat)
    pack negative mantissa exponent

/-! ## 3. Arithmetic -/

/-- The number nearest to `n · 2 ^ exponent`; zero takes the given sign. -/
def ofScaled (zeroSign : Bool) (n : Int) (exponent : Int) : Binary64 :=
  nearest (if n = 0 then zeroSign else n < 0) (n.natAbs * Nat.pow 2 exponent.toNat)
    (Nat.pow 2 (-exponent).toNat)

/-- The number nearest to a whole number. -/
def ofInt (n : Int) : Binary64 := ofScaled false n 0

/-- A mantissa with its sign. -/
def signedMantissa (negative : Bool) (mantissa : Nat) : Int :=
  if negative then -(mantissa : Int) else mantissa

/-- The sum, rounded. -/
def add (x y : Binary64) : Binary64 :=
  match x.value, y.value with
  | .nan, _ | _, .nan => nan false
  | .infinite s, .infinite t => if s = t then infinity s else nan false
  | .infinite s, _ => infinity s
  | _, .infinite t => infinity t
  | .finite s m e, .finite t n f =>
    let low := min e f
    ofScaled (s && t)
      (signedMantissa s (m * Nat.pow 2 (e - low).toNat) +
        signedMantissa t (n * Nat.pow 2 (f - low).toNat)) low

/-- The number with the other sign. -/
def neg (x : Binary64) : Binary64 := ⟨x.bits ^^^ 0x8000000000000000⟩

/-- The difference, rounded. -/
def sub (x y : Binary64) : Binary64 := x.add y.neg

/-- The product with a positive whole number, rounded. -/
def scale (x : Binary64) (k : Nat) : Binary64 :=
  match x.value with
  | .nan => nan false
  | .infinite s => infinity s
  | .finite s m e => ofScaled s (signedMantissa s m * k) e

/-- Is it zero or infinite? -/
def isExtreme (x : Binary64) : Bool :=
  match x.value with
  | .finite _ m _ => m = 0
  | _ => true

end Binary64

end ReactiveScript
