import ReactiveScript.Proofs.Number.Numeral
import ReactiveScript.Proofs.Token.Locality

/-!
# Number tokens

A number token in which the scanner finds no fault is a numeral, with one exception: behind a fraction
that stands alone, as in `.5`, the scanner takes a second one, so that `.5.5` is a single token.
-/

namespace ReactiveScript

open Numeral Byte Text NumberLiteral

/-- Does the text start with a dot and digits, and then with a dot and a digit again? -/
def Text.startsTwoFractions (t : Text) : Bool :=
  startsFraction t && startsFraction (t.tail.dropWhile isDigit)

/-! ## 1. Parts of numbers -/

namespace Lexeme

variable {t : Text} {b : UInt8}

theorem digitCount_pos {p : UInt8 → Bool} :
    0 < digitCount p t ↔ (t.head?.map p).getD false = true := by
  cases t with
  | nil => simp [digitCount]
  | cons b t => cases h : p b <;> simp [digitCount, h]

/-- The digits at the start of a text. -/
def leadingDigits (p : UInt8 → Bool) (t : Text) (h : 0 < digitCount p t) : Digits p where
  text := t.takeWhile p
  ne_nil := List.length_pos_iff.mp h
  all := List.all_takeWhile

/-- **What is taken for a fraction is one**, and it is taken where it starts with a digit. -/
theorem fraction_parts (t : Text) :
    ∃ f rest, t = fractionText f ++ rest ∧ fractionWidth t = (fractionText f).length ∧
      f.isSome = startsFraction t := by
  cases t with
  | nil => exact ⟨none, [], rfl, rfl, rfl⟩
  | cons d t =>
    by_cases h : d = dot ∧ 0 < digitCount isDigit t
    · obtain ⟨rfl, hdigits⟩ := h
      refine ⟨some (leadingDigits isDigit t hdigits), t.dropWhile isDigit, ?_, ?_, ?_⟩
      · rw [fractionText, List.cons_append, leadingDigits, List.takeWhile_append_dropWhile]
      · rw [fractionWidth, if_pos ⟨rfl, hdigits⟩, Nat.add_comm]
        rfl
      · simp [startsFraction, digitCount_pos.mp hdigits]
    · refine ⟨none, d :: t, rfl, if_neg h, ?_⟩
      rw [digitCount_pos] at h
      simp only [Option.isSome_none, startsFraction, List.head?_cons, List.tail_cons]
      grind

/-- **What is taken for an exponent is one, if it has digits.** -/
theorem exponent_parts (h : (exponent t).2 = true) :
    ∃ e rest, t = exponentText e ++ rest ∧ (exponent t).1 = (exponentText e).length := by
  cases t with
  | nil => exact ⟨none, [], rfl, rfl⟩
  | cons m t =>
    by_cases hmark : m = 0x65 ∨ m = 0x45
    · -- The sign is taken off the front; what is left has to start with a digit.
      have hsigned (sign : Sign) (rest : Text) (ht : t = sign.text ++ rest)
          (hexp : exponent (m :: t) =
            (1 + sign.text.length + digitCount isDigit rest,
              decide (0 < digitCount isDigit rest))) :
          ∃ e rest, m :: t = exponentText e ++ rest ∧
            (exponent (m :: t)).1 = (exponentText e).length := by
        rw [hexp] at h ⊢
        have hdigits : 0 < digitCount isDigit rest := of_decide_eq_true h
        refine ⟨some ⟨m, sign, leadingDigits isDigit rest hdigits, hmark⟩,
          rest.dropWhile isDigit, ?_, ?_⟩
        · simp [ht, exponentText, leadingDigits]
        · simp [exponentText, leadingDigits, digitCount]
          omega
      cases t with
      | nil => exact hsigned .missing [] rfl (if_pos hmark)
      | cons s u =>
        by_cases hplus : s = plus
        · subst hplus
          exact hsigned .plus u rfl (by simp [exponent, hmark, Sign.text])
        by_cases hminus : s = minus
        · subst hminus
          exact hsigned .minus u rfl (by simp [exponent, hmark, Sign.text])
        · exact hsigned .missing (s :: u) rfl (by simp [exponent, hmark, hplus, hminus, Sign.text])
    · refine ⟨none, m :: t, rfl, ?_⟩
      simp only [exponent, if_neg hmark]
      rfl

/-- A name right after a number is a fault. -/
theorem nameAfter_eq_nil {width : Nat} :
    nameAfter t width = [] ↔ isApart (t.drop width) = true := by
  simp [nameAfter, isApart]

/-! ## 2. Numbers without faults -/

/-- **The parts of a decimal number without faults.** -/
theorem decimalNumber_parts (h : (decimalNumber (b :: t)).faults = []) :
    ∃ f e after, t = t.takeWhile isDigit ++ (fractionText f ++ (exponentText e ++ after)) ∧
      f.isSome = startsFraction (t.dropWhile isDigit) ∧ isApart after = true ∧
      (decimalNumber (b :: t)).width =
        1 + (t.takeWhile isDigit).length + (fractionText f).length + (exponentText e).length := by
  have hwhole : (b :: t).drop (1 + digitCount isDigit ((b :: t).drop 1)) =
      t.dropWhile isDigit := by
    rw [Nat.add_comm, List.drop_succ_cons]
    exact t.drop_length_takeWhile isDigit
  obtain ⟨f, rest, hrest, hwidth, hsome⟩ := fraction_parts (t.dropWhile isDigit)
  have hmantissa : (b :: t).drop (1 + digitCount isDigit ((b :: t).drop 1) +
      fractionWidth (t.dropWhile isDigit)) = rest := by
    rw [← List.drop_drop, hwhole, hwidth]
    exact (congrArg (List.drop _) hrest).trans List.drop_left
  simp only [decimalNumber, hwhole, hmantissa] at h ⊢
  obtain ⟨hexponent, hname⟩ := List.append_eq_nil_iff.mp h
  obtain ⟨e, after, hafter, hlength⟩ := exponent_parts (t := rest) (by grind)
  refine ⟨f, e, after, ?_, hsome, ?_, ?_⟩
  · rw [← hafter, ← hrest, List.takeWhile_append_dropWhile]
  · rw [nameAfter_eq_nil, ← List.drop_drop, hmantissa, hlength, hafter, List.drop_left] at hname
    exact hname
  · rw [hwidth, hlength]
    rfl

/-- A number with a mark for its base, without faults. -/
theorem radixNumber_parts {r : Radix} {z mark : UInt8}
    (h : (radixNumber r (z :: mark :: t)).faults = []) :
    ∃ (digits : Digits r.isDigit) (after : Text), t = digits.text ++ after ∧
      isApart after = true ∧
      (radixNumber r (z :: mark :: t)).width = 2 + digits.text.length := by
  obtain ⟨hdigits, hname⟩ := List.append_eq_nil_iff.mp h
  have hpos : 0 < digitCount r.isDigit t := by
    simp only [List.drop_succ_cons, List.drop_zero] at hdigits
    grind
  refine ⟨leadingDigits r.isDigit t hpos, t.dropWhile r.isDigit,
    List.takeWhile_append_dropWhile.symm, ?_, rfl⟩
  rw [nameAfter_eq_nil, Nat.add_comm, List.drop_succ_cons, List.drop_succ_cons] at hname
  exact t.drop_length_takeWhile r.isDigit ▸ hname

theorem mem_marks_of_ofMark? {r : Radix} {mark : UInt8} (h : Radix.ofMark? mark = some r) :
    mark ∈ r.marks := by
  unfold Radix.ofMark? at h
  split at h
  · cases h; simpa [Radix.marks]
  split at h
  · cases h; simpa [Radix.marks]
  split at h
  · cases h; simpa [Radix.marks]
  · cases h

/-- A number has a mark for its base, or it is decimal. -/
theorem number_cases (b : UInt8) (t : Text) :
    (∃ r mark rest, b = zero ∧ t = mark :: rest ∧ mark ∈ r.marks ∧
      number (b :: t) = radixNumber r (b :: t)) ∨ number (b :: t) = decimalNumber (b :: t) := by
  cases t with
  | nil => exact .inr rfl
  | cons mark rest =>
    by_cases hb : b = zero
    · cases hmark : Radix.ofMark? mark with
      | none => exact .inr (by simp [number, hb, hmark])
      | some r =>
        refine .inl ⟨r, mark, rest, hb, rfl, mem_marks_of_ofMark? hmark, ?_⟩
        simp [number, hb, hmark]
    · exact .inr (by simp [number, hb])

/-- A decimal number that starts with a digit. -/
theorem decimalNumber_whole (hb : isDigit b = true)
    (h : (decimalNumber (b :: t)).faults = []) :
    ∃ (n : Numeral) (after : Text), b :: t = n.spelling ++ after ∧ isApart after = true ∧
      (decimalNumber (b :: t)).width = n.spelling.length := by
  obtain ⟨f, e, after, ht, -, hafter, hwidth⟩ := decimalNumber_parts h
  have hall : (b :: t.takeWhile isDigit).all isDigit = true := by
    rw [List.all_cons, hb, List.all_takeWhile]
    rfl
  refine ⟨.decimal (.whole ⟨_, List.cons_ne_nil _ _, hall⟩ f) e, after, ?_, hafter, ?_⟩
  · rw [Numeral.spelling, Mantissa.spelling, List.append_assoc, List.append_assoc]
    exact congrArg (b :: ·) ht
  · simp only [hwidth, Numeral.spelling, Mantissa.spelling, List.length_append, List.length_cons]
    omega

/-- A decimal number that starts with a fraction may have a second one. -/
theorem decimalNumber_pointed (hstart : startsFraction (dot :: t) = true)
    (h : (decimalNumber (dot :: t)).faults = []) :
    ∃ (first : Digits isDigit) (f : Option (Digits isDigit)) (e : Option Exponent)
      (after : Text),
      dot :: t =
        (Mantissa.pointed first).spelling ++ (fractionText f ++ (exponentText e ++ after)) ∧
      f.isSome = startsTwoFractions (dot :: t) ∧ isApart after = true ∧
      (decimalNumber (dot :: t)).width = (Mantissa.pointed first).spelling.length +
        (fractionText f).length + (exponentText e).length := by
  obtain ⟨f, e, after, ht, hsome, hafter, hwidth⟩ := decimalNumber_parts h
  have hpos : 0 < digitCount isDigit t := digitCount_pos.mpr hstart
  refine ⟨leadingDigits isDigit t hpos, f, e, after, congrArg (dot :: ·) ht, ?_, hafter, ?_⟩
  · rw [startsTwoFractions, hstart, hsome]
    rfl
  · rw [hwidth, Nat.add_comm 1]
    rfl

/-- **A number without faults is a numeral, or it has two fractions.** The latter is the case exactly
    if the text starts with two of them. -/
theorem number_spelt (hstart : startsNumber b t = true) (h : (number (b :: t)).faults = []) :
    ∃ after, isApart after = true ∧
      ((startsTwoFractions (b :: t) = false ∧ ∃ n : Numeral,
        b :: t = n.spelling ++ after ∧ (number (b :: t)).width = n.spelling.length) ∨
      (startsTwoFractions (b :: t) = true ∧ ∃ d : TwicePointed,
        b :: t = d.spelling ++ after ∧ (number (b :: t)).width = d.spelling.length)) := by
  rcases number_cases b t with ⟨r, mark, rest, rfl, rfl, hmark, heq⟩ | heq
  · rw [heq] at h ⊢
    obtain ⟨digits, after, rfl, hafter, hwidth⟩ := radixNumber_parts h
    refine ⟨after, hafter, .inl ⟨rfl, .radix r mark hmark digits, rfl, ?_⟩⟩
    rw [hwidth, Numeral.spelling, List.length_cons, List.length_cons, Nat.add_comm]
  rw [heq] at h ⊢
  by_cases hb : isDigit b = true
  · have hdot : b ≠ dot := by rintro rfl; cases hb
    obtain ⟨n, after, hn, hafter, hwidth⟩ := decimalNumber_whole hb h
    have hone : startsTwoFractions (b :: t) = false := by
      simp [startsTwoFractions, startsFraction, hdot]
    exact ⟨after, hafter, .inl ⟨hone, n, hn, hwidth⟩⟩
  · have hfraction : startsFraction (b :: t) = true := by
      simpa [startsNumber, hb, startsFraction] using hstart
    obtain rfl : b = dot := by simp [startsFraction] at hfraction; exact hfraction.1
    obtain ⟨first, f, e, after, ht, hsome, hafter, hwidth⟩ := decimalNumber_pointed hfraction h
    refine ⟨after, hafter, ?_⟩
    rw [← hsome, hwidth, ht]
    cases f with
    | none =>
      refine .inl ⟨rfl, .decimal (.pointed first) e, ?_, ?_⟩
      · rw [Numeral.spelling, List.append_assoc]
        rfl
      · rw [Numeral.spelling, List.length_append]
        rfl
    | some second =>
      refine .inr ⟨rfl, ⟨first, second, e⟩, ?_, ?_⟩
      · rw [TwicePointed.spelling, List.append_assoc, List.append_assoc]
      · rw [TwicePointed.spelling, List.length_append, List.length_append, Nat.add_assoc]

/-! ## 3. Numerals are taken whole -/

section
variable {after : Text} {b : UInt8}

theorem not_isNamePart_of_isApart (h : isApart after = true) :
    ∀ b ∈ after.head?, isNamePart b = false := by
  cases after with
  | nil => simp
  | cons b t => simpa [isApart] using h

/-- Digits of every base can stand in names. -/
theorem isNamePart_of_isDigit {r : Radix} (h : r.isDigit b = true) : isNamePart b = true := by
  cases r with
  | binary =>
    simp only [Radix.isDigit, isBinary, Bool.or_eq_true, beq_iff_eq] at h
    rcases h with rfl | rfl <;> rfl
  | octal =>
    simp only [Radix.isDigit, isOctal, isNamePart, isDigit] at h ⊢
    grind
  | hexadecimal =>
    simp only [Radix.isDigit, isHex, isNamePart, isNameStart, isDigit,
      isLower, isUpper] at h ⊢
    grind

theorem isDigit_of_isApart (h : isApart after = true) :
    ∀ b ∈ after.head?, isDigit b = false := by
  intro b hb
  have hname := not_isNamePart_of_isApart h b hb
  simp only [isNamePart, Bool.or_eq_false_iff] at hname
  exact hname.2

/-- An exponent is taken whole. -/
theorem exponent_exponentText (e : Option Exponent) (h : isApart after = true) :
    exponent (exponentText e ++ after) = ((exponentText e).length, true) := by
  cases e with
  | none =>
    cases after with
    | nil => rfl
    | cons b t =>
      have hb := not_isNamePart_of_isApart h b rfl
      have hmark : ¬ (b = 0x65 ∨ b = 0x45) := by rintro (rfl | rfl) <;> cases hb
      simp [exponentText, exponent, hmark]
  | some e =>
    obtain ⟨mark, sign, digits, hmark⟩ := e
    have hcount : digitCount isDigit (digits.text ++ after) = digits.text.length := by
      rw [digitCount, takeWhile_append_of_all digits.all (isDigit_of_isApart h)]
    have hpos : 0 < digits.text.length := List.length_pos_iff.mpr digits.ne_nil
    cases sign with
    | missing =>
      obtain ⟨d, ds, hds⟩ := List.exists_cons_of_ne_nil digits.ne_nil
      have hd : isDigit d = true := List.all_eq_true.mp digits.all d (by simp [hds])
      have hplus : d ≠ plus := by rintro rfl; cases hd
      have hminus : d ≠ minus := by rintro rfl; cases hd
      rw [hds] at hcount hpos
      simp [exponentText, exponent, hmark, Sign.text, hds, hplus, hminus] at hcount ⊢
      simp [hcount, Nat.add_comm]
    | plus => simp [exponentText, exponent, hmark, Sign.text, hcount, hpos]; omega
    | minus => simp [exponentText, exponent, hmark, Sign.text, hcount, hpos]; omega

/-- A fraction is taken whole, and none is taken where there is none. -/
theorem fractionWidth_fractionText (f : Option (Digits isDigit)) {t : Text}
    (hdigit : ∀ b ∈ t.head?, isDigit b = false)
    (hnone : f = none → startsFraction t = false) :
    fractionWidth (fractionText f ++ t) = (fractionText f).length := by
  cases f with
  | none =>
    obtain ⟨f, rest, -, hwidth, hsome⟩ := fraction_parts t
    rw [hnone rfl, Option.isSome_eq_false_iff, Option.isNone_iff_eq_none] at hsome
    rwa [hsome] at hwidth
  | some f =>
    have hcount : digitCount isDigit (f.text ++ t) = f.text.length := by
      rw [digitCount, takeWhile_append_of_all f.all hdigit]
    have hpos : 0 < f.text.length := List.length_pos_iff.mpr f.ne_nil
    simp [fractionText, fractionWidth, hcount, hpos, Nat.add_comm]

/-- **A text with the parts of a decimal number is taken up to its end**, if nothing behind it could
    go on as one of the parts that are missing. -/
theorem decimalNumber_of_parts (b : UInt8) {w : Text} (hw : w.all isDigit = true)
    (f : Option (Digits isDigit)) (e : Option Exponent) (hafter : isApart after = true)
    (hfraction : f = none → e = none → startsFraction after = false) :
    decimalNumber (b :: (w ++ (fractionText f ++ (exponentText e ++ after)))) =
      { kind := .number
        width := 1 + w.length + (fractionText f).length + (exponentText e).length } := by
  have hexponent : ∀ b ∈ (exponentText e ++ after).head?, isDigit b = false := by
    cases e with
    | none => exact isDigit_of_isApart hafter
    | some e => rintro b ⟨⟩; rcases e.isMark with h | h <;> rw [h] <;> rfl
  have hrest : ∀ b ∈ (fractionText f ++ (exponentText e ++ after)).head?, isDigit b = false := by
    cases f with
    | none => exact hexponent
    | some f => rintro b ⟨⟩; rfl
  have hnone : f = none → startsFraction (exponentText e ++ after) = false := by
    intro hf
    cases e with
    | none => exact hfraction hf rfl
    | some e =>
      have hmark : e.mark ≠ dot := by rcases e.isMark with h | h <;> rw [h] <;> decide
      simp [exponentText, startsFraction, hmark]
  have hcount : digitCount isDigit (w ++ (fractionText f ++ (exponentText e ++ after))) =
      w.length := by
    rw [digitCount, takeWhile_append_of_all hw hrest]
  have hwhole : (b :: (w ++ (fractionText f ++ (exponentText e ++ after)))).drop (1 + w.length) =
      fractionText f ++ (exponentText e ++ after) := by
    rw [Nat.add_comm, List.drop_succ_cons, List.drop_left]
  simp only [decimalNumber, List.drop_succ_cons, List.drop_zero, hcount, hwhole,
    fractionWidth_fractionText f hexponent hnone]
  rw [← List.drop_drop, hwhole, List.drop_left, exponent_exponentText e hafter]
  have hname : nameAfter (b :: (w ++ (fractionText f ++ (exponentText e ++ after))))
      (1 + w.length + (fractionText f).length + (exponentText e).length) = [] := by
    rw [nameAfter_eq_nil, ← List.drop_drop, ← List.drop_drop, hwhole, List.drop_left, List.drop_left]
    exact hafter
  simp [hname]

/-- What is no mark of a base leads to a decimal number. -/
theorem number_eq_decimalNumber (b : UInt8) {w : Text}
    (hw : w.all isDecimalByte = true) (hafter : isApart after = true) :
    number (b :: (w ++ after)) = decimalNumber (b :: (w ++ after)) := by
  rcases number_cases b (w ++ after) with ⟨r, mark, rest, -, hmark, hmem, -⟩ | h
  · -- A mark can stand in a name, and it is no byte of a decimal number.
    have hnone : Radix.ofMark? mark = none := by
      cases w with
      | nil =>
        have hname := not_isNamePart_of_isApart hafter mark
          (by rw [← List.nil_append after, hmark]; rfl)
        cases r <;> simp only [Radix.marks, List.mem_cons, List.not_mem_nil, or_false] at hmem <;>
          rcases hmem with rfl | rfl <;> cases hname
      | cons c w =>
        cases hmark
        exact ofMark?_of_isDecimalByte (List.all_eq_true.mp hw _ List.mem_cons_self)
    rw [ofMark?_of_mem_marks hmem] at hnone
    cases hnone
  · exact h

theorem scan_of_startsNumber {t : Text} (h : startsNumber b t = true) :
    scan b t = number (b :: t) := by
  have hname : isNameStart b = false := by
    simp only [startsNumber, Bool.or_eq_true, Bool.and_eq_true, beq_iff_eq] at h
    rcases h with h | ⟨rfl, -⟩
    · simp only [isDigit, isNameStart, isLower, isUpper, underscore,
        dollar] at h ⊢
      grind
    · rfl
  unfold scan
  rw [if_neg (by simp [hname])]
  exact if_pos h

/-- Decimal numbers are scanned up to their end. -/
theorem scan_of_parts {w : Text} (hw : w.all isDigit = true)
    (f : Option (Digits isDigit)) (e : Option Exponent) (hafter : isApart after = true)
    (hfraction : f = none → e = none → startsFraction after = false)
    (hstart : startsNumber b (w ++ (fractionText f ++ (exponentText e ++ after))) = true) :
    scan b (w ++ (fractionText f ++ (exponentText e ++ after))) =
      { kind := .number
        width := 1 + w.length + (fractionText f).length + (exponentText e).length } := by
  have hall : (w ++ (fractionText f ++ exponentText e)).all isDecimalByte = true := by
    rw [List.all_append, List.all_append, fractionText_all,
      exponentText_all, Bool.and_true, Bool.and_true, List.all_eq_true]
    exact fun b hb => isDecimalByte_of_isDigit (List.all_eq_true.mp hw b hb)
  have hnumber := number_eq_decimalNumber b hall hafter
  simp only [List.append_assoc] at hnumber
  rw [scan_of_startsNumber hstart, hnumber, decimalNumber_of_parts b hw f e hafter hfraction]

/-- So are decimal numbers that start with a fraction. -/
theorem scan_pointed (first : Digits isDigit) (f : Option (Digits isDigit))
    (e : Option Exponent) (hafter : isApart after = true)
    (hfraction : f = none → e = none → startsFraction after = false) :
    scan dot (first.text ++ (fractionText f ++ (exponentText e ++ after))) =
      { kind := .number
        width := (fractionText (some first)).length + (fractionText f).length +
          (exponentText e).length } := by
  obtain ⟨d, w, hdw⟩ := List.exists_cons_of_ne_nil first.ne_nil
  have hd : isDigit d = true := List.all_eq_true.mp first.all d (by simp [hdw])
  rw [scan_of_parts first.all f e hafter hfraction (by simp [startsNumber, hdw, hd]), fractionText,
    List.length_cons, Nat.add_comm 1]

/-- Numbers with a mark for their base are scanned up to their end. -/
theorem scan_radix {r : Radix} {mark : UInt8} (hmark : mark ∈ r.marks) (digits : Digits r.isDigit)
    (hafter : isApart after = true) :
    scan zero (mark :: (digits.text ++ after)) =
      { kind := .number, width := 2 + digits.text.length } := by
  have hstop (b : UInt8) (hb : b ∈ after.head?) : r.isDigit b = false := by
    have hname := not_isNamePart_of_isApart hafter b hb
    refine Bool.eq_false_iff.mpr fun h => ?_
    rw [isNamePart_of_isDigit h] at hname
    cases hname
  have hcount : digitCount r.isDigit (digits.text ++ after) = digits.text.length := by
    rw [digitCount, takeWhile_append_of_all digits.all hstop]
  have hname : nameAfter (zero :: mark :: (digits.text ++ after)) (2 + digits.text.length) =
      [] := by
    rwa [nameAfter_eq_nil, Nat.add_comm, List.drop_succ_cons, List.drop_succ_cons, List.drop_left]
  have hnumber : number (zero :: mark :: (digits.text ++ after)) =
      radixNumber r (zero :: mark :: (digits.text ++ after)) := by
    simp [number, ofMark?_of_mem_marks hmark]
  rw [scan_of_startsNumber rfl, hnumber]
  simp [radixNumber, hcount, hname, digits.ne_nil]

/-- **A numeral is scanned as one token without faults**, if what follows it does not go on as a part
    of it. -/
theorem scan_numeral (n : Numeral) (hafter : isApart after = true)
    (hfraction : n.takesFraction = true → startsFraction after = false) :
    ∃ b t, n.spelling ++ after = b :: t ∧
      scan b t = { kind := .number, width := n.spelling.length } := by
  cases n with
  | radix r mark hmark digits =>
    refine ⟨zero, mark :: (digits.text ++ after), rfl, ?_⟩
    rw [scan_radix hmark digits hafter, Numeral.spelling, List.length_cons, List.length_cons,
      Nat.add_comm]
  | decimal m e =>
    cases m with
    | whole digits f =>
      obtain ⟨b, w, hbw⟩ := List.exists_cons_of_ne_nil digits.ne_nil
      have hall := digits.all
      rw [hbw, List.all_cons, Bool.and_eq_true] at hall
      have hnone : f = none → e = none → startsFraction after = false := by
        rintro rfl rfl
        exact hfraction rfl
      refine ⟨b, w ++ (fractionText f ++ (exponentText e ++ after)), ?_, ?_⟩
      · simp [Numeral.spelling, Mantissa.spelling, hbw]
      · rw [scan_of_parts hall.2 f e hafter hnone (by simp [startsNumber, hall.1])]
        simp only [Numeral.spelling, Mantissa.spelling, hbw, List.length_append, List.length_cons,
          Nat.add_comm 1]
    | pointed first =>
      have hnone : e = none → startsFraction after = false := by
        rintro rfl
        exact hfraction rfl
      have hscan := scan_pointed first none e hafter fun _ => hnone
      refine ⟨dot, first.text ++ (exponentText e ++ after), ?_, ?_⟩
      · rw [Numeral.spelling, List.append_assoc]
        rfl
      · rw [Numeral.spelling, List.length_append]
        exact hscan

/-- A number with a second fraction is scanned as one token as well. -/
theorem scan_twicePointed (d : TwicePointed) (hafter : isApart after = true) :
    ∃ b t, d.spelling ++ after = b :: t ∧
      scan b t = { kind := .number, width := d.spelling.length } := by
  have hscan := scan_pointed d.first (some d.second) d.exponent hafter nofun
  refine ⟨dot, _, ?_, hscan.trans ?_⟩
  · rw [TwicePointed.spelling, List.append_assoc, List.append_assoc]
    rfl
  · rw [TwicePointed.spelling, List.length_append, List.length_append, Nat.add_assoc]
    rfl

end

end Lexeme

/-! ## 4. Number tokens of a source -/

/-- What is read where a token without faults stands. -/
theorem Cursor.next_of_scan {c : Cursor} {w after : Text} {k : Kind} (hc : c.afterGap = w ++ after)
    (h : ∃ b t, w ++ after = b :: t ∧ Lexeme.scan b t = { kind := k, width := w.length }) :
    c.next.token.kind = k ∧ c.next.token.text = w ∧ c.next.reports = [] := by
  obtain ⟨b, t, hbt, hscan⟩ := h
  have hcons := hc.trans hbt
  refine ⟨?_, ?_, ?_⟩
  · rw [(next_of_cons hcons).1, hscan]
  · rw [(next_of_cons hcons).1, hscan, ← hbt]
    exact List.take_left
  · rw [next_reports_of_cons hcons, hscan]

/-- What a token leaves behind stands in the source at its end. -/
theorem Cursor.drop_token_stop {source : Text} {c : Cursor} (hc : c.rest = source.drop c.pos.offset)
    {w after : Text} (hw : c.afterGap = w ++ after) (ht : c.next.token.text = w) :
    source.drop c.next.token.stop = after := by
  rw [Token.stop, ht, ← List.drop_drop]
  exact (congrArg (List.drop w.length) ((drop_token_offset hc).trans hw)).trans List.drop_left

/-- **The number tokens of a source.** A number token without faults ends where no name could go on.
    It is a numeral, with one dot at most, and is read as the number that all of it stands for; but if
    two fractions start there, it is both of them, of which the first alone is read while output keeps
    both. Every numeral in the source is read as one token, if what follows does not go on as a part
    of it, and so is every number with two fractions. -/
theorem number_tokens (source : Text) (c : Cursor) (hc : c.rest = source.drop c.pos.offset) :
    (c.next.token.kind = .number → c.next.reports = [] →
      isApart (source.drop c.next.token.stop) = true ∧
      ((startsTwoFractions (source.drop c.next.token.offset) = false ∧
        ∃ n : Numeral, c.next.token.text = n.spelling ∧ n.spelling.count dot ≤ 1 ∧
          ofText c.next.token.text = n.literal) ∨
      (startsTwoFractions (source.drop c.next.token.offset) = true ∧
        ∃ d : TwicePointed, c.next.token.text = d.spelling ∧
          ofText c.next.token.text =
            { value := (Numeral.decimal (.pointed d.first) none).literal.value
              raw := d.spelling }))) ∧
    (∀ (n : Numeral) (after : Text), source.drop c.next.token.offset = n.spelling ++ after →
      isApart after = true → (n.takesFraction = true → startsFraction after = false) →
      c.next.token.kind = .number ∧ c.next.token.text = n.spelling ∧ c.next.reports = []) ∧
    (∀ (d : TwicePointed) (after : Text), source.drop c.next.token.offset = d.spelling ++ after →
      isApart after = true →
      c.next.token.kind = .number ∧ c.next.token.text = d.spelling ∧ c.next.reports = []) := by
  rw [Cursor.drop_token_offset hc]
  refine ⟨fun hkind hquiet => ?_, fun n after hn hafter hfraction => ?_, fun d after hd hafter => ?_⟩
  · rcases c.next_cases with ⟨_, ht, _⟩ | ⟨b, rest, hrest, ht, _⟩
    · rw [ht] at hkind
      cases hkind
    have htext := congrArg Token.text ht
    rw [ht] at hkind
    obtain ⟨hstart, hscan⟩ := (Lexeme.scan_readBy b rest).number hkind
    rw [Cursor.next_reports_of_cons hrest, hscan] at hquiet
    rw [hscan] at htext
    obtain ⟨after, hafter, hspelt⟩ := Lexeme.number_spelt hstart hquiet
    rw [hrest]
    rcases hspelt with ⟨hone, n, hn, hwidth⟩ | ⟨htwo, d, hd, hwidth⟩
    · rw [hwidth, hn, List.take_left] at htext
      rw [Cursor.drop_token_stop hc (hrest.trans hn) htext, htext]
      exact ⟨hafter, .inl ⟨hone, n, rfl, n.count_dot_spelling, ofText_numeral n⟩⟩
    · rw [hwidth, hd, List.take_left] at htext
      rw [Cursor.drop_token_stop hc (hrest.trans hd) htext, htext]
      exact ⟨hafter, .inr ⟨htwo, d, rfl, ofText_twicePointed d⟩⟩
  · exact Cursor.next_of_scan hn (Lexeme.scan_numeral n hafter hfraction)
  · exact Cursor.next_of_scan hd (Lexeme.scan_twicePointed d hafter)

/-- A numeral between other tokens, and a number that has two fractions and is no numeral. -/
def fractions : Text := txt "[1.5e-3, .5.5]"

theorem fractions_read :
    (∃ c : Cursor, c.rest = fractions.drop c.pos.offset ∧ c.next.token.kind = .number ∧
      c.next.reports = [] ∧ c.next.token.text = txt "1.5e-3" ∧
      ∃ n : Numeral, txt "1.5e-3" = n.spelling ∧ ofText (txt "1.5e-3") = n.literal) ∧
    (∃ c : Cursor, c.rest = fractions.drop c.pos.offset ∧ c.next.token.kind = .number ∧
      c.next.reports = [] ∧ c.next.token.text = txt ".5.5" ∧ (∀ n : Numeral, n.spelling ≠ txt ".5.5") ∧
      ∃ d : TwicePointed, txt ".5.5" = d.spelling ∧ ofText (txt ".5.5") =
        { value := (Numeral.decimal (.pointed d.first) none).literal.value, raw := txt ".5.5" }) := by
  constructor
  · let c : Cursor := (Cursor.ofText fractions).next.cursor
    have htext : c.next.token.text = txt "1.5e-3" := by decide +kernel
    have hquiet : c.next.token.kind = .number ∧ c.next.reports = [] := by decide +kernel
    have hrest : c.rest = fractions.drop c.pos.offset := by decide +kernel
    have hone : startsTwoFractions (fractions.drop c.next.token.offset) = false := by
      decide +kernel
    refine ⟨c, hrest, hquiet.1, hquiet.2, htext, ?_⟩
    obtain ⟨-, ⟨-, n, hn, -, hliteral⟩ | ⟨htwo, -⟩⟩ :=
      (number_tokens fractions c hrest).1 hquiet.1 hquiet.2
    · rw [htext] at hn hliteral
      exact ⟨n, hn, hliteral⟩
    · rw [hone] at htwo
      cases htwo
  · let c : Cursor := (Cursor.ofText fractions).next.cursor.next.cursor.next.cursor
    have htext : c.next.token.text = txt ".5.5" := by decide +kernel
    have hquiet : c.next.token.kind = .number ∧ c.next.reports = [] := by decide +kernel
    have hrest : c.rest = fractions.drop c.pos.offset := by decide +kernel
    have htwo : startsTwoFractions (fractions.drop c.next.token.offset) = true := by
      decide +kernel
    have hnumeral (n : Numeral) (hn : n.spelling = txt ".5.5") : False := by
      have hdots := n.count_dot_spelling
      rw [hn] at hdots
      exact absurd hdots (by decide +kernel)
    refine ⟨c, hrest, hquiet.1, hquiet.2, htext, hnumeral, ?_⟩
    obtain ⟨-, ⟨hone, -⟩ | ⟨-, d, hd, hliteral⟩⟩ :=
      (number_tokens fractions c hrest).1 hquiet.1 hquiet.2
    · rw [hone] at htwo
      cases htwo
    · rw [← hd, htext] at hliteral
      exact ⟨d, htext ▸ hd, hliteral⟩

end ReactiveScript
