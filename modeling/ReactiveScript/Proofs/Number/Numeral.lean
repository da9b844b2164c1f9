import ReactiveScript.Number.Literal

/-!
# How numbers are written

The grammar of numbers: a mark for the base and digits of it, or a decimal number, which has digits
and may have a fraction, or is a fraction alone, and may have an exponent. A numeral is such a
spelling taken apart; that its parts are what they should be is part of them.
-/

namespace ReactiveScript

open Byte

/-! ## 1. The grammar -/

/-- The letters that mark a base. -/
def Radix.marks : Radix → List UInt8
  | .hexadecimal => [0x78, 0x58]
  | .binary => [0x62, 0x42]
  | .octal => [0x6F, 0x4F]

namespace Numeral

/-- One or more digits of a class. -/
structure Digits (isDigit : UInt8 → Bool) where
  text : Text
  ne_nil : text ≠ []
  all : text.all isDigit = true

/-- The sign of an exponent. -/
inductive Sign where
  | missing | plus | minus
  deriving DecidableEq, Repr

def Sign.text : Sign → Text
  | .missing => []
  | .plus => [Byte.plus]
  | .minus => [Byte.minus]

/-- An exponent: a mark, a sign and digits. -/
structure Exponent where
  mark : UInt8
  sign : Sign
  digits : Digits isDigit
  isMark : mark = 0x65 ∨ mark = 0x45

/-- The exponent as it is written; a missing one is not. -/
def exponentText : Option Exponent → Text
  | none => []
  | some e => e.mark :: (e.sign.text ++ e.digits.text)

/-- The power of ten that an exponent stands for. -/
def power : Option Exponent → Int
  | none => 0
  | some e =>
    let n : Int := NumberLiteral.digitsValue 10 e.digits.text
    if e.sign = .minus then -n else n

/-- A fraction as it is written; a missing one is not. -/
def fractionText : Option (Digits isDigit) → Text
  | none => []
  | some f => dot :: f.text

/-- The digits of a decimal number: whole ones and perhaps a fraction, or a fraction alone. -/
inductive Mantissa where
  | whole (digits : Digits isDigit) (fraction : Option (Digits isDigit))
  | pointed (fraction : Digits isDigit)

namespace Mantissa

def spelling : Mantissa → Text
  | whole digits fraction => digits.text ++ fractionText fraction
  | pointed fraction => fractionText (some fraction)

/-- The digits in front of the dot. -/
def integer : Mantissa → Text
  | whole digits _ => digits.text
  | pointed _ => []

/-- The digits behind the dot. -/
def decimals : Mantissa → Text
  | whole _ (some fraction) => fraction.text
  | whole _ none => []
  | pointed fraction => fraction.text

/-- The number that the digits and a power of ten stand for. -/
def reading (m : Mantissa) (power : Int) : NumberLiteral.Reading :=
  let digits := m.integer ++ m.decimals
  NumberLiteral.ofDecimal false (NumberLiteral.digitsValue 10 digits)
    (digits.dropWhile (· == zero)).length (power - m.decimals.length)

end Mantissa

end Numeral

open Numeral

/-- A number as the grammar has it. -/
inductive Numeral where
  | radix (r : Radix) (mark : UInt8) (isMark : mark ∈ r.marks) (digits : Digits r.isDigit)
  | decimal (mantissa : Mantissa) (exponent : Option Exponent)

/-- A fraction alone with a second one behind it. This is no number of the grammar. -/
structure Numeral.TwicePointed where
  first : Digits isDigit
  second : Digits isDigit
  exponent : Option Exponent

namespace Numeral

def spelling : Numeral → Text
  | radix _ mark _ digits => zero :: mark :: digits.text
  | decimal mantissa exponent => mantissa.spelling ++ exponentText exponent

def TwicePointed.spelling (d : TwicePointed) : Text :=
  (Mantissa.pointed d.first).spelling ++ (fractionText (some d.second) ++ exponentText d.exponent)

/-- Is it written with digits only? -/
def isPlain : Numeral → Bool
  | decimal (.whole _ none) none => true
  | _ => false

/-- Could a fraction right behind it still belong to it? -/
def takesFraction : Numeral → Bool
  | decimal (.whole _ none) none => true
  | decimal (.pointed _) none => true
  | _ => false

/-- **The number that a numeral stands for**, all its digits and its exponent taken together. Output
    keeps the spelling, unless it has digits only and is a number in range. -/
def literal (n : Numeral) : NumberLiteral :=
  match n with
  | radix r _ _ digits =>
    let value := NumberLiteral.digitsValue r.base digits.text
    { value :=
        if Nat.pow 2 64 ≤ value then NumberLiteral.fold r.base digits.text
        else Binary64.ofInt value
      raw := n.spelling }
  | decimal mantissa exponent =>
    match mantissa.reading (power exponent) with
    | .value x => { value := x, raw := if n.isPlain then [] else n.spelling }
    | _ => { value := Binary64.infinity false, raw := n.spelling }

theorem Digits.count_dot {p : UInt8 → Bool} (d : Digits p) (hp : p dot = false) :
    d.text.count dot = 0 := by
  refine List.count_eq_zero.mpr fun h => ?_
  rw [List.all_eq_true.mp d.all _ h] at hp
  cases hp

theorem count_dot_fractionText (f : Option (Digits isDigit)) :
    (fractionText f).count dot ≤ 1 := by
  cases f with
  | none => exact Nat.zero_le 1
  | some f => simp [fractionText, f.count_dot rfl]

theorem count_dot_exponentText (e : Option Exponent) : (exponentText e).count dot = 0 := by
  cases e with
  | none => rfl
  | some e =>
    have hmark : e.mark ≠ dot := by rcases e.isMark with h | h <;> rw [h] <;> decide
    have hsign : e.sign.text.count dot = 0 := by cases e.sign <;> rfl
    rw [exponentText, List.count_cons_of_ne hmark, List.count_append, hsign, e.digits.count_dot rfl]

/-- **A numeral has one dot at most.** -/
theorem count_dot_spelling (n : Numeral) : n.spelling.count dot ≤ 1 := by
  cases n with
  | radix r mark hmark digits =>
    have hdigits : digits.text.count dot = 0 := digits.count_dot (by cases r <;> rfl)
    have hne : mark ≠ dot := by rintro rfl; cases r <;> cases hmark <;> contradiction
    rw [spelling, List.count_cons_of_ne (by decide), List.count_cons_of_ne hne, hdigits]
    exact Nat.zero_le 1
  | decimal m e =>
    rw [spelling, List.count_append, count_dot_exponentText]
    cases m with
    | whole digits f =>
      rw [Mantissa.spelling, List.count_append, digits.count_dot rfl, Nat.zero_add]
      exact count_dot_fractionText f
    | pointed f => exact count_dot_fractionText (some f)

end Numeral

/-! ## 2. Decimal numbers are read in full -/

/-- What belongs to a class is taken up to the first byte that does not. -/
theorem takeWhile_append_of_all {p : UInt8 → Bool} {w t : Text} (hw : w.all p = true)
    (ht : ∀ b ∈ t.head?, p b = false) : (w ++ t).takeWhile p = w := by
  rw [List.takeWhile_append_of_pos (by simpa using hw)]
  cases t with
  | nil => simp
  | cons b t => rw [List.takeWhile_cons_of_neg (by simp [ht b rfl]), List.append_nil]

namespace NumberLiteral

variable {t : Text} {b : UInt8}

/-- The exponent is read with its sign. -/
theorem exponentOf_exponentText (e : Option Exponent) : exponentOf (exponentText e) = power e := by
  cases e with
  | none => rfl
  | some e =>
    obtain ⟨mark, sign, ⟨digits, hne, hall⟩, hmark⟩ := e
    obtain ⟨d, ds, rfl⟩ := List.exists_cons_of_ne_nil hne
    have htake : (d :: ds).takeWhile isDigit = d :: ds := by
      have h := takeWhile_append_of_all hall (t := []) (by simp)
      rwa [List.append_nil] at h
    have hd : isDigit d = true := List.all_eq_true.mp hall d List.mem_cons_self
    have hminus : d ≠ minus := by rintro rfl; cases hd
    have hplus : d ≠ plus := by rintro rfl; cases hd
    simp only [exponentText, exponentOf, if_pos hmark]
    cases sign with
    | missing => simp [Sign.text, hminus, hplus, htake, power]
    | plus =>
      have hne : plus ≠ minus := by decide
      simp [Sign.text, hne, htake, power]
    | minus => simp [Sign.text, htake, power]

/-- Digits, a fraction and what follows them. -/
theorem unsigned_append {w : Text} (hw : w.all isDigit = true)
    (f : Option (Digits isDigit)) (hne : w = [] → f.isSome = true)
    (hdigit : ∀ b ∈ t.head?, isDigit b = false) (hdot : f = none → t.head? ≠ some dot) :
    unsigned false (w ++ (fractionText f ++ t)) =
      let decimals := (f.map Digits.text).getD []
      ofDecimal false (digitsValue 10 (w ++ decimals))
        ((w ++ decimals).dropWhile (· == zero)).length (exponentOf t - decimals.length) := by
  cases f with
  | none =>
    have hwhole : (w ++ t).takeWhile isDigit = w := takeWhile_append_of_all hw hdigit
    have hne : w ≠ [] := fun h => by cases hne h
    simp [unsigned, fractionText, hwhole, hdot, hne]
  | some f =>
    have hwhole : (w ++ dot :: (f.text ++ t)).takeWhile isDigit = w :=
      takeWhile_append_of_all hw (by simp; decide)
    have hdecimals : (f.text ++ t).takeWhile isDigit = f.text :=
      takeWhile_append_of_all f.all hdigit
    simp [unsigned, fractionText, hwhole, hdecimals, f.ne_nil, Nat.add_comm 1]

/-- All digits of a mantissa count, and the power of ten that follows them. -/
theorem unsigned_mantissa (m : Mantissa) (hdigit : ∀ b ∈ t.head?, isDigit b = false)
    (hdot : m.decimals = [] → t.head? ≠ some dot) :
    unsigned false (m.spelling ++ t) = m.reading (exponentOf t) := by
  cases m with
  | whole digits f =>
    have hne : digits.text = [] → f.isSome = true := fun h => absurd h digits.ne_nil
    have hdot' : f = none → t.head? ≠ some dot := by rintro rfl; exact hdot rfl
    have h := unsigned_append digits.all f hne hdigit hdot'
    rw [Mantissa.spelling, List.append_assoc, h]
    cases f <;> rfl
  | pointed f => exact unsigned_append (w := []) rfl (some f) (fun _ => rfl) hdigit nofun

/-- The number of a mantissa is always one, or out of range. -/
theorem reading_ne_none (m : Mantissa) (power : Int) : m.reading power ≠ .none := by
  unfold Mantissa.reading ofDecimal
  grind

/-- A byte that may stand in a decimal number. -/
def isDecimalByte (b : UInt8) : Bool :=
  isDigit b || keepsSpelling b || b == plus || b == minus

/-- No such byte marks a base. -/
theorem ofMark?_of_isDecimalByte (h : isDecimalByte b = true) : Radix.ofMark? b = none := by
  have hne (c : UInt8) (hc : isDecimalByte c = false) : b ≠ c := by
    rintro rfl
    rw [h] at hc
    cases hc
  simp [Radix.ofMark?, hne 0x78 rfl, hne 0x58 rfl, hne 0x62 rfl, hne 0x42 rfl, hne 0x6F rfl,
    hne 0x4F rfl]

theorem isDecimalByte_of_isDigit (h : isDigit b = true) : isDecimalByte b = true := by
  simp [isDecimalByte, h]

theorem keepsSpelling_of_isDigit (h : isDigit b = true) : keepsSpelling b = false := by
  have hne (c : UInt8) (hc : isDigit c = false) : b ≠ c := by
    rintro rfl
    rw [h] at hc
    cases hc
  simp [keepsSpelling, hne dot rfl, hne 0x65 rfl, hne 0x45 rfl]

theorem all_isDecimalByte (d : Digits isDigit) : d.text.all isDecimalByte = true :=
  List.all_eq_true.mpr fun b hb => isDecimalByte_of_isDigit (List.all_eq_true.mp d.all b hb)

theorem any_keepsSpelling (d : Digits isDigit) : d.text.any keepsSpelling = false :=
  List.any_eq_false.mpr fun b hb =>
    Bool.eq_false_iff.mp (keepsSpelling_of_isDigit (List.all_eq_true.mp d.all b hb))

theorem fractionText_all (f : Option (Digits isDigit)) :
    (fractionText f).all isDecimalByte = true := by
  cases f with
  | none => rfl
  | some f => exact Bool.and_eq_true_iff.mpr ⟨rfl, all_isDecimalByte f⟩

theorem exponentText_all (e : Option Exponent) : (exponentText e).all isDecimalByte = true := by
  cases e with
  | none => rfl
  | some e =>
    have hmark : isDecimalByte e.mark = true := by rcases e.isMark with h | h <;> rw [h] <;> rfl
    have hsign : e.sign.text.all isDecimalByte = true := by cases e.sign <;> rfl
    simp [exponentText, hmark, hsign, all_isDecimalByte, List.all_append]

theorem spelling_all (m : Mantissa) : m.spelling.all isDecimalByte = true := by
  cases m with
  | whole digits f =>
    rw [Mantissa.spelling, List.all_append, all_isDecimalByte, fractionText_all]
    rfl
  | pointed f => exact fractionText_all (some f)

/-- A text without a mark for its base is read as a decimal number. -/
theorem ofText_eq_ofDecimalText (h : t.all isDecimalByte = true) : ofText t = ofDecimalText t := by
  unfold ofText
  split
  · rename_i z m d rest
    have hm : isDecimalByte m = true := List.all_eq_true.mp h m (by simp)
    rw [ofMark?_of_isDecimalByte hm]
    split <;> rfl
  · rfl

/-- What a mantissa is read as, whatever decimal bytes follow it. -/
theorem ofText_mantissa (m : Mantissa) (hall : t.all isDecimalByte = true)
    (hdigit : ∀ b ∈ t.head?, isDigit b = false)
    (hdot : m.decimals = [] → t.head? ≠ some dot) :
    ofText (m.spelling ++ t) = match m.reading (exponentOf t) with
      | .value x =>
        { value := x, raw := if (m.spelling ++ t).any keepsSpelling then m.spelling ++ t else [] }
      | _ => { value := Binary64.infinity false, raw := m.spelling ++ t } := by
  have hunsigned : decimal (m.spelling ++ t) = unsigned false (m.spelling ++ t) := by
    cases m with
    | pointed f => rfl
    | whole digits f =>
      obtain ⟨d, ds, hds⟩ := List.exists_cons_of_ne_nil digits.ne_nil
      have hd : isDigit d = true := List.all_eq_true.mp digits.all d (by simp [hds])
      have hminus : d ≠ minus := by rintro rfl; cases hd
      simp only [Mantissa.spelling, hds, List.cons_append, decimal, if_neg hminus]
  have hdecimal : (m.spelling ++ t).all isDecimalByte = true := by
    rw [List.all_append, spelling_all, hall]
    rfl
  rw [ofText_eq_ofDecimalText hdecimal, ofDecimalText, hunsigned, unsigned_mantissa m hdigit hdot]
  cases h : m.reading (exponentOf t) with
  | none => exact absurd h (reading_ne_none _ _)
  | outOfRange => rfl
  | value x => rfl

/-! ## 3. Numerals and what is no numeral -/

theorem ofMark?_of_mem_marks {r : Radix} {mark : UInt8} (h : mark ∈ r.marks) :
    Radix.ofMark? mark = some r := by
  cases r <;> simp only [Radix.marks, List.mem_cons, List.not_mem_nil, or_false] at h <;>
    rcases h with rfl | rfl <;> rfl

theorem fractionText_any (f : Option (Digits isDigit)) :
    (fractionText f).any keepsSpelling = f.isSome := by
  cases f <;> rfl

theorem exponentText_any (e : Option Exponent) : (exponentText e).any keepsSpelling = e.isSome := by
  cases e with
  | none => rfl
  | some e =>
    have hmark : keepsSpelling e.mark = true := by rcases e.isMark with h | h <;> rw [h] <;> rfl
    rw [exponentText, List.any_cons, hmark]
    rfl

/-- A decimal numeral keeps its spelling unless it has digits only. -/
theorem any_keepsSpelling_decimal (m : Mantissa) (e : Option Exponent) :
    (Numeral.decimal m e).spelling.any keepsSpelling = !(Numeral.decimal m e).isPlain := by
  rw [Numeral.spelling, List.any_append, exponentText_any]
  cases m with
  | pointed f => rw [Mantissa.spelling, fractionText_any]; rfl
  | whole digits f =>
    rw [Mantissa.spelling, List.any_append, any_keepsSpelling, fractionText_any]
    cases f <;> cases e <;> rfl

/-- **A spelling is read as the number of its numeral.** -/
theorem ofText_numeral (n : Numeral) : ofText n.spelling = n.literal := by
  cases n with
  | radix r mark hmark digits =>
    obtain ⟨d, ds, hds⟩ := List.exists_cons_of_ne_nil digits.ne_nil
    have htake : digits.text.takeWhile r.isDigit = digits.text := by
      have h := takeWhile_append_of_all digits.all (t := []) (by simp)
      rwa [List.append_nil] at h
    have hvalue : ofText (zero :: mark :: digits.text) =
        { value := radixValue r digits.text, raw := zero :: mark :: digits.text } := by
      simp only [hds, ofText, if_pos, ofMark?_of_mem_marks hmark]
    rw [Numeral.spelling, hvalue, literal, radixValue, htake]
    simp [digits.ne_nil, Numeral.spelling]
  | decimal m e =>
    have hhead (b : UInt8) (hb : b ∈ (exponentText e).head?) : b = 0x65 ∨ b = 0x45 := by
      cases e with
      | none => cases hb
      | some e => cases hb; exact e.isMark
    have hdigit (b : UInt8) (hb : b ∈ (exponentText e).head?) : isDigit b = false := by
      rcases hhead b hb with rfl | rfl <;> rfl
    have hdot : (exponentText e).head? ≠ some dot := fun h => by
      rcases hhead _ h with h | h <;> cases h
    have h := ofText_mantissa m (exponentText_all e) hdigit (fun _ => hdot)
    rw [Numeral.spelling, h, exponentOf_exponentText, literal]
    have hkeeps := any_keepsSpelling_decimal m e
    rw [Numeral.spelling] at hkeeps
    rw [hkeeps]
    cases m.reading (power e) <;> cases (Numeral.decimal m e).isPlain <;> rfl

/-- **A second fraction does not count**, nor does what follows it, though output keeps all of the
    spelling. -/
theorem ofText_twicePointed (d : TwicePointed) :
    ofText d.spelling =
      { value := (Numeral.decimal (.pointed d.first) none).literal.value, raw := d.spelling } := by
  have hall : (fractionText (some d.second) ++ exponentText d.exponent).all isDecimalByte = true := by
    rw [List.all_append, fractionText_all, exponentText_all]
    rfl
  have h := ofText_mantissa (.pointed d.first) hall (fun b hb => by cases hb; rfl)
    (fun h => absurd h d.first.ne_nil)
  have hkeeps : d.spelling.any keepsSpelling = true := rfl
  rw [TwicePointed.spelling] at hkeeps ⊢
  rw [h, hkeeps, literal]
  have hpower : exponentOf (fractionText (some d.second) ++ exponentText d.exponent) = power none :=
    rfl
  rw [hpower]
  cases (Mantissa.pointed d.first).reading (power none) <;> rfl

end NumberLiteral

end ReactiveScript
