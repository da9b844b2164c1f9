import Mathlib.Data.List.Find
import ReactiveScript.Proofs.Token.Closing
import ReactiveScript.Proofs.Token.Located

/-!
# Tokens do not look beyond a line

What follows on the next line does not change the tokens of a text: with a line feed behind it, a
text is cut into the same tokens as without one. The exceptions are tokens and comments that are
still open where the text ends; these are faulty without what follows. A single token does not look
beyond a carriage return either.
-/

namespace ReactiveScript

open Byte

/-- An empty text, or one that starts with a line feed. -/
def Text.startsLine (a : Text) : Bool := a.head?.all (· == newline)

/-- An empty text, or one that starts with a byte of a line end. -/
def Text.startsBreak (a : Text) : Bool :=
  a.head?.all fun b => b == newline || b == carriageReturn

variable {a : Text}

theorem Text.startsLine_cases (ha : a.startsLine = true) :
    a = [] ∨ ∃ rest, a = newline :: rest := by
  cases a with
  | nil => exact .inl rfl
  | cons b rest =>
    simp only [startsLine, List.head?_cons, Option.all_some, beq_iff_eq] at ha
    exact .inr ⟨rest, by rw [ha]⟩

theorem Text.startsBreak_of_startsLine (ha : a.startsLine = true) : a.startsBreak = true := by
  obtain rfl | ⟨rest, rfl⟩ := startsLine_cases ha <;> rfl

theorem Text.startsBreak_cases (ha : a.startsBreak = true) :
    a = [] ∨ ∃ b rest, a = b :: rest ∧ (b = newline ∨ b = carriageReturn) := by
  cases a with
  | nil => exact .inl rfl
  | cons b rest => exact .inr ⟨b, rest, rfl, by simpa [startsBreak] using ha⟩

section
variable (ha : a.startsBreak = true)
include ha

/-- A class of bytes without those of a line end ends where a line ends. -/
theorem Text.takeWhile_append {p : UInt8 → Bool}
    (hline : p newline = false) (hreturn : p carriageReturn = false) (t : Text) :
    (t ++ a).takeWhile p = t.takeWhile p := by
  induction t with
  | nil =>
    obtain rfl | ⟨b, rest, rfl, rfl | rfl⟩ := startsBreak_cases ha <;> simp [hline, hreturn]
  | cons b t ih =>
    rw [List.cons_append, List.takeWhile_cons, List.takeWhile_cons, ih]

/-- A test of the next byte that no byte of a line end passes. -/
theorem Text.head?_append {p : UInt8 → Bool}
    (hline : p newline = false) (hreturn : p carriageReturn = false) (t : Text) :
    ((t ++ a).head?.map p).getD false = (t.head?.map p).getD false := by
  cases t with
  | cons b t => rfl
  | nil => obtain rfl | ⟨b, rest, rfl, rfl | rfl⟩ := startsBreak_cases ha <;> simp [hline, hreturn]

theorem Text.head?_append_ne {b : UInt8} (hline : b ≠ newline)
    (hreturn : b ≠ carriageReturn) (t : Text) : (t ++ a).head? = some b ↔ t.head? = some b := by
  cases t with
  | cons c t => rfl
  | nil =>
    obtain rfl | ⟨c, rest, rfl, rfl | rfl⟩ := startsBreak_cases ha <;>
      simp [hline.symm, hreturn.symm]

/-! ## 1. Tokens that can stay open -/

namespace Nesting

theorem atBrace_append (t : Text) : atBrace (t ++ a) = atBrace t := by
  unfold atBrace
  rw [decide_eq_decide]
  exact Text.head?_append_ne ha (by decide) (by decide) t

end Nesting

namespace Lexeme

theorem hexFault_append (n : Nat) (t : Text) :
    hexFault n (t ++ a) = hexFault n t := by
  have hdigits : digitCount isHex ((t ++ a).take 2) = digitCount isHex (t.take 2) := by
    unfold digitCount
    obtain rfl | ⟨c, rest, rfl, hc⟩ := Text.startsBreak_cases ha
    · rw [List.append_nil]
    · have hhex : isHex c = false := by rcases hc with rfl | rfl <;> decide
      match t with
      | [] => simp [hhex]
      | [b] => simp [List.takeWhile_cons, hhex]
      | b :: c :: t => rfl
  rw [hexFault, hdigits, hexFault]

omit ha in
theorem stringFrom_width_le (quote : UInt8) (n : Nat) (faults : List (Nat × LexFault)) (t : Text) :
    (stringFrom quote n faults t).width ≤ n + t.length := by
  fun_induction stringFrom quote n faults t <;> grind

/-- A string is the same, or it is one that was never closed. -/
theorem stringFrom_append (quote : UInt8) (n : Nat)
    (faults : List (Nat × LexFault)) (t : Text) :
    stringFrom quote n faults (t ++ a) = stringFrom quote n faults t ∨
      (stringFrom quote n faults t).width = n + t.length ∧
      (stringFrom quote n faults t).faults ≠ [] ∧
      n + t.length ≤ (stringFrom quote n faults (t ++ a)).width := by
  fun_induction stringFrom quote n faults t
  case case1 =>
    exact .inr ⟨rfl, by simp, le_stringFrom_width _ _ _ _⟩
  all_goals rw [List.cons_append, stringFrom.eq_def]
  all_goals simp only [hexFault_append ha, List.cons_append]
  all_goals grind [le_stringFrom_width]

omit ha in
/-- A template is the same, or it is one that was never closed. -/
theorem template_append (t : Text) :
    template (t ++ a) = template t ∨
      (template t).width = t.length + 1 ∧ (template t).faults ≠ [] ∧
      t.length + 1 ≤ (template (t ++ a)).width := by
  rcases Nesting.closeFrom_append [.body] 1 t a with ⟨-, hsame⟩ | ⟨hopen, hwidth, hmore, -⟩
  · exact .inl (by rw [template, hsame, template])
  · rw [Nat.add_comm] at hwidth hmore
    exact .inr ⟨hwidth, by simp [template, hopen], hmore⟩

/-! ## 2. Tokens that end by themselves -/

omit ha in
theorem digitCount_le (p : UInt8 → Bool) (t : Text) : digitCount p t ≤ t.length :=
  (List.takeWhile_sublist p).length_le

theorem digitCount_append {p : UInt8 → Bool}
    (hline : p newline = false) (hreturn : p carriageReturn = false) (t : Text) :
    digitCount p (t ++ a) = digitCount p t := by
  rw [digitCount, Text.takeWhile_append ha hline hreturn, digitCount]

theorem nameAfter_append {t : Text} {width : Nat}
    (hwidth : width ≤ t.length) : nameAfter (t ++ a) width = nameAfter t width := by
  rw [nameAfter, List.drop_append_of_le_length hwidth, Text.head?_append ha (by decide) (by decide),
    nameAfter]

omit ha in
theorem fractionWidth_le (t : Text) : fractionWidth t ≤ t.length := by
  unfold fractionWidth
  split
  · rename_i d rest
    have := digitCount_le isDigit rest
    grind
  · exact Nat.zero_le _

theorem fractionWidth_append (t : Text) :
    fractionWidth (t ++ a) = fractionWidth t := by
  cases t with
  | cons d t =>
    simp only [List.cons_append, fractionWidth,
      digitCount_append ha (p := isDigit) (by decide) (by decide)]
  | nil =>
    obtain rfl | ⟨b, rest, rfl, rfl | rfl⟩ := Text.startsBreak_cases ha
    · rfl
    · simp [fractionWidth, newline, dot]
    · simp [fractionWidth, carriageReturn, dot]

omit ha in
theorem exponent_le (t : Text) : (exponent t).1 ≤ t.length := by
  unfold exponent
  split
  · rename_i e rest
    split
    · have := digitCount_le isDigit rest
      have := digitCount_le isDigit (rest.drop 1)
      dsimp only
      split
      · simp only [List.length_cons, List.length_drop] at *
        split <;> simp_all <;> omega
      · simp_all
    · simp
  · simp

theorem exponent_append (t : Text) : exponent (t ++ a) = exponent t := by
  have hdigits := digitCount_append ha (p := isDigit) (by decide) (by decide)
  match t with
  | e :: s :: t =>
    have hall : digitCount isDigit (s :: (t ++ a)) = digitCount isDigit (s :: t) :=
      hdigits (s :: t)
    simp only [List.cons_append, exponent]
    by_cases hsign : s = plus ∨ s = minus
    · simp [hsign, hdigits]
    · simp [hsign, hall]
  | [e] =>
    obtain rfl | ⟨b, rest, rfl, hb⟩ := Text.startsBreak_cases ha
    · rfl
    · have hall := hdigits []
      rw [List.nil_append] at hall
      have hsign : ¬ (b = plus ∨ b = minus) := by rcases hb with rfl | rfl <;> decide
      simp [exponent, hsign, hall]
  | [] =>
    obtain rfl | ⟨b, rest, rfl, rfl | rfl⟩ := Text.startsBreak_cases ha
    · rfl
    · simp [exponent, newline]
    · simp [exponent, carriageReturn]

theorem decimalNumber_append {t : Text} (ht : t ≠ []) :
    decimalNumber (t ++ a) = decimalNumber t ∧ (decimalNumber t).width ≤ t.length := by
  have hlength : 1 ≤ t.length := List.length_pos_iff.mpr ht
  have hwhole : 1 + digitCount isDigit (t.drop 1) ≤ t.length := by
    have := digitCount_le isDigit (t.drop 1)
    rw [List.length_drop] at this
    omega
  have hmantissa := fractionWidth_le (t.drop (1 + digitCount isDigit (t.drop 1)))
  rw [List.length_drop] at hmantissa
  generalize hm : fractionWidth (t.drop (1 + digitCount isDigit (t.drop 1))) = m at hmantissa
  have hexponent := exponent_le (t.drop (1 + digitCount isDigit (t.drop 1) + m))
  rw [List.length_drop] at hexponent
  refine ⟨?_, ?_⟩
  · simp only [decimalNumber]
    rw [List.drop_append_of_le_length hlength, digitCount_append ha (by decide) (by decide),
      List.drop_append_of_le_length hwhole, fractionWidth_append ha, hm,
      List.drop_append_of_le_length (by omega), exponent_append ha, nameAfter_append ha (by omega)]
  · simp only [decimalNumber, hm]
    omega

theorem radixNumber_append (r : Radix) {t : Text} (ht : 2 ≤ t.length) :
    radixNumber r (t ++ a) = radixNumber r t ∧ (radixNumber r t).width ≤ t.length := by
  have hdigits := digitCount_le r.isDigit (t.drop 2)
  rw [List.length_drop] at hdigits
  refine ⟨?_, ?_⟩
  · simp only [radixNumber]
    rw [List.drop_append_of_le_length ht, digitCount_append ha (by cases r <;> decide)
      (by cases r <;> decide), nameAfter_append ha (by omega)]
  · simp only [radixNumber]
    omega

theorem number_append {t : Text} (ht : t ≠ []) :
    number (t ++ a) = number t ∧ (number t).width ≤ t.length := by
  have hdecimal := decimalNumber_append ha ht
  match t with
  | z :: m :: t =>
    have hradix (r : Radix) := radixNumber_append ha r (t := z :: m :: t) (by simp)
    simp only [List.cons_append] at hradix hdecimal ⊢
    simp only [number]
    split
    · split
      · exact hradix _
      · exact hdecimal
    · exact hdecimal
  | [z] =>
    obtain rfl | ⟨b, rest, rfl, hb⟩ := Text.startsBreak_cases ha
    · exact ⟨rfl, hdecimal.2⟩
    · have hmark : Radix.ofMark? b = none := by rcases hb with rfl | rfl <;> decide
      simp only [List.cons_append, List.nil_append] at hdecimal ⊢
      simp only [number, hmark]
      split <;> exact hdecimal
  | [] => exact absurd rfl ht

theorem nameLength_append (t : Text) :
    nameLength (t ++ a) = nameLength t ∧ nameLength t ≤ t.length :=
  ⟨by rw [nameLength, Text.takeWhile_append ha (by decide) (by decide), nameLength],
    (List.takeWhile_sublist _).length_le⟩

theorem word_append (t : Text) :
    word (t ++ a) = word t ∧ (word t).width ≤ t.length := by
  obtain ⟨hname, hle⟩ := nameLength_append ha t
  exact ⟨by rw [word, hname, List.take_append_of_le_length hle, word], hle⟩

theorem modifier_append (t : Text) :
    modifier (t ++ a) = modifier t ∧ (modifier t).width ≤ t.length + 1 := by
  obtain ⟨hname, hle⟩ := nameLength_append ha t
  rw [modifier, Text.head?_append ha (by decide) (by decide), hname, modifier]
  refine ⟨rfl, ?_⟩
  split
  · simp only
    omega
  · simp

theorem stray_append (b : UInt8) (t : Text) :
    stray b (t ++ a) = stray b t ∧ (stray b t).width ≤ t.length + 1 ∧ (stray b t).faults ≠ [] := by
  have hle : (t.takeWhile isContinuation).length ≤ t.length :=
    (List.takeWhile_sublist _).length_le
  rw [stray, Text.takeWhile_append ha (by decide) (by decide), stray]
  refine ⟨rfl, ?_, ?_⟩
  · split
    · simp
    · split
      · simp
      · simp only
        omega
  · split
    · simp
    · split <;> simp

end Lexeme

namespace Punct

omit ha in
theorem newline_notMem_spelling (p : Punct) : newline ∉ p.spelling := by cases p <;> decide

omit ha in
theorem carriageReturn_notMem_spelling (p : Punct) : carriageReturn ∉ p.spelling := by
  cases p <;> decide

theorem isPrefixOf_append {w : Text} (hline : newline ∉ w) (hreturn : carriageReturn ∉ w)
    (t : Text) : w.isPrefixOf (t ++ a) = w.isPrefixOf t := by
  rw [Bool.eq_iff_iff, List.isPrefixOf_iff_prefix, List.isPrefixOf_iff_prefix]
  refine ⟨fun h => ?_, fun h => h.trans (List.prefix_append _ _)⟩
  obtain rfl | ⟨b, rest, rfl, hb⟩ := Text.startsBreak_cases ha
  · rwa [List.append_nil] at h
  by_cases hlength : w.length ≤ t.length
  · exact List.prefix_of_prefix_length_le h (List.prefix_append _ _) hlength
  · -- a longer one would hold a byte of the line end
    have hbreak : t ++ [b] <+: w := by
      refine List.prefix_of_prefix_length_le ⟨rest, ?_⟩ h (by simp; omega)
      simp
    have hmem : b ∈ w := hbreak.subset (by simp)
    rcases hb with rfl | rfl
    · exact absurd hmem hline
    · exact absurd hmem hreturn

theorem succeeds_append {b : UInt8} {t : Test} (ht : t ∈ tests b) (rest : Text) :
    t.succeeds (rest ++ a) = t.succeeds rest := by
  have hspelling : t.punct.spelling = b :: t.more := mem_tests.mp ht
  have hmem {c : UInt8} (hc : c ∈ t.more) : c ∈ t.punct.spelling :=
    hspelling ▸ List.mem_cons_of_mem b hc
  unfold Test.succeeds
  rw [isPrefixOf_append ha (mt hmem t.punct.newline_notMem_spelling)
    (mt hmem t.punct.carriageReturn_notMem_spelling)]
  by_cases hstarts : t.more.isPrefixOf rest = true
  · by_cases hp : t.punct = .optional
    · rw [hp] at hspelling
      have hlength : 1 ≤ rest.length := by
        have hle := (List.isPrefixOf_iff_prefix.mp hstarts).length_le
        rwa [← (List.cons.inj hspelling).2] at hle
      rw [List.drop_append_of_le_length hlength, Text.head?_append ha (by decide) (by decide)]
    · simp [hp]
  · simp [hstarts]

theorem firstAt?_append (b : UInt8) (rest : Text) : firstAt? b (rest ++ a) = firstAt? b rest :=
  List.find?_congr fun _ ht => succeeds_append ha ht rest

end Punct

/-! ## 3. All tokens -/

namespace Lexeme

/-- A token that takes all there is and is not closed. -/
def IsOpen (t : Text) (l : Lexeme) : Prop :=
  l.width = t.length ∧ l.faults ≠ [] ∧ (l.kind = .string ∨ l.kind = .template)

omit ha in
theorem scan_width_le (b : UInt8) (rest : Text) : (scan b rest).width ≤ rest.length + 1 := by
  have ha : Text.startsBreak [] = true := rfl
  unfold scan
  split
  · exact (word_append ha _).2
  split
  · exact (number_append ha (List.cons_ne_nil _ _)).2
  split
  · have := stringFrom_width_le b 1 [] rest
    omega
  split
  · have := Nesting.closeFrom_le [.body] 1 rest
    simp only [template]
    omega
  split
  · exact (modifier_append ha rest).2
  split
  · have := (Punct.spelling_of_firstAt? ‹_›).2.length_le
    dsimp only
    omega
  · exact (stray_append ha b rest).2.1

/-- **A token does not look beyond a line**, unless it is one that was never closed. -/
theorem scan_append (b : UInt8) (rest : Text) :
    scan b (rest ++ a) = scan b rest ∨
      (scan b rest).IsOpen (b :: rest) ∧ (scan b (rest ++ a)).kind = (scan b rest).kind ∧
      rest.length + 1 ≤ (scan b (rest ++ a)).width := by
  unfold scan
  rw [Text.head?_append ha (by decide) (by decide)]
  split
  · exact .inl (word_append ha (b :: rest)).1
  split
  · exact .inl (number_append ha (List.cons_ne_nil b rest)).1
  split
  · rcases stringFrom_append ha b 1 [] rest with h | ⟨hwidth, hfaults, hmore⟩
    · exact .inl h
    · rw [Nat.add_comm] at hwidth hmore
      exact .inr ⟨⟨hwidth, hfaults, .inl (stringFrom_kind _ _ _ _)⟩,
        by rw [stringFrom_kind, stringFrom_kind], hmore⟩
  split
  · rcases template_append rest with h | ⟨hwidth, hfaults, hmore⟩
    · exact .inl h
    · exact .inr ⟨⟨hwidth, hfaults, .inr rfl⟩, rfl, hmore⟩
  split
  · exact .inl (modifier_append ha rest).1
  · rw [Punct.firstAt?_append ha, (stray_append ha b rest).1]
    exact .inl rfl

end Lexeme

end

/-! ## 4. Trivia -/

namespace Trivia

theorem le_skipFrom_width (w : Within) (n : Nat) (breaks : Bool) (t : Text) :
    n ≤ (skipFrom w n breaks t).width := by
  fun_induction skipFrom w n breaks t <;> grind

theorem skipFrom_width_le (w : Within) (n : Nat) (breaks : Bool) (t : Text) :
    (skipFrom w n breaks t).width ≤ n + t.length := by
  fun_induction skipFrom w n breaks t <;> grind

theorem skipFrom_append (ha : a.startsLine = true) (w : Within) (n : Nat) (breaks : Bool) (t : Text)
    {q : Trivia} (hq : skipFrom w n breaks (t ++ a) = q) :
    ((skipFrom w n breaks t).width < n + t.length ∧ skipFrom w n breaks t = q) ∨
    ((skipFrom w n breaks t).width = n + t.length ∧
      ∃ w', skipFrom w' (n + t.length) (skipFrom w n breaks t).breaks a = q ∧
      ((skipFrom w n breaks t).unclosed = none → w' = .space ∨ w' = .lineComment)) := by
  have hslash (rest : Text) : (rest ++ a).head? = some slash ↔ rest.head? = some slash :=
    Text.head?_append_ne (Text.startsBreak_of_startsLine ha) (by decide) (by decide) rest
  have hstar : star ≠ newline := by decide
  have hfirst := Text.startsLine_cases ha
  fun_induction skipFrom w n breaks t
  case case1 => exact .inr ⟨rfl, _, hq, by simp⟩
  case case2 w n breaks hw => exact .inr ⟨rfl, w, hq, fun _ => by cases w <;> simp_all⟩
  all_goals rw [List.cons_append, skipFrom.eq_def] at hq
  all_goals simp only [hslash, List.cons_append] at hq
  all_goals grind

/-- Trivia that stops in front of a token is the same. -/
theorem skip_append (ha : a.startsLine = true) {t : Text} (h : (skip t).width < t.length) :
    skip (t ++ a) = skip t := by
  rcases skipFrom_append ha .space 0 false t rfl with ⟨_, hsame⟩ | ⟨hall, _⟩
  · exact hsame.symm
  · simp only [skip] at h
    omega

/-- Trivia that takes all there is and is closed goes on on the next line. -/
theorem skip_append_of_end {t rest : Text} (h : (skip t).width = t.length)
    (hclosed : (skip t).unclosed = none) :
    skip (t ++ newline :: rest) = skipFrom .space (t.length + 1) true rest := by
  rcases skipFrom_append (a := newline :: rest) rfl .space 0 false t rfl with
    ⟨hless, _⟩ | ⟨_, w, hw, hspace⟩
  · simp only [skip] at h
    omega
  · rw [skip, ← hw, Nat.zero_add]
    have hline : ¬ (newline = space ∨ newline = tab ∨
        newline = carriageReturn) := by decide
    rcases hspace hclosed with rfl | rfl <;> rw [skipFrom.eq_def] <;> simp [hline]

theorem length_le_skip_append (ha : a.startsLine = true) {t : Text} (h : (skip t).width = t.length) :
    t.length ≤ (skip (t ++ a)).width := by
  rcases skipFrom_append ha .space 0 false t rfl with ⟨hless, _⟩ | ⟨_, w, hw, _⟩
  · simp only [skip] at h
    omega
  · rw [skip, ← hw]
    exact Nat.le_trans (by omega) (le_skipFrom_width _ _ _ _)

theorem skip_width_le (t : Text) : (skip t).width ≤ t.length := by
  have := skipFrom_width_le .space 0 false t
  rwa [Nat.zero_add] at this

/-- A comment that is not closed takes all there is. -/
theorem skipFrom_of_unclosed (w : Within) (n : Nat) (breaks : Bool) (t : Text)
    (h : (skipFrom w n breaks t).unclosed ≠ none) :
    (skipFrom w n breaks t).width = n + t.length := by
  fun_induction skipFrom w n breaks t <;> grind

end Trivia

/-! ## 5. The next token -/

/-- A cursor in a longer text: so many bytes further, with the same text and then more. -/
structure Cursor.Alike (a : Text) (shift : Nat) (c d : Cursor) : Prop where
  rest : d.rest = c.rest ++ a
  offset : d.pos.offset = shift + c.pos.offset
  lineStart : d.lineStart = c.lineStart

/-- The same token, so many bytes further. -/
structure Token.Alike (shift : Nat) (t u : Token) : Prop where
  kind : u.kind = t.kind
  text : u.text = t.text
  offset : u.offset = shift + t.offset

/-- The same token and the same place after it, in a longer text. -/
structure Scanned.Alike (a : Text) (shift : Nat) (r q : Scanned) : Prop where
  token : r.token.Alike shift q.token
  lineStart : q.token.lineStart = r.token.lineStart
  cursor : r.cursor.Alike a shift q.cursor
  reports : r.reports = [] → q.reports = []

namespace Cursor

theorem next_reports_eq_nil (c : Cursor) : c.next.reports = [] ↔
    (Trivia.skip c.rest).unclosed = none ∧
      ∀ b rest, c.afterGap = b :: rest → (Lexeme.scan b rest).faults = [] := by
  cases h : c.afterGap with
  | nil =>
    have h' : c.rest.drop (Trivia.skip c.rest).width = [] := h
    cases hopen : (Trivia.skip c.rest).unclosed <;> simp [next, h', hopen, locate]
  | cons b rest =>
    have h' : c.rest.drop (Trivia.skip c.rest).width = b :: rest := h
    cases hopen : (Trivia.skip c.rest).unclosed <;> simp [next, h', hopen, locate]

variable {shift : Nat} {c d : Cursor}

/-- Where a token starts, only what is wrong with it is reported. -/
theorem next_reports_of_cons {b : UInt8} {rest : Text} (h : c.afterGap = b :: rest) :
    c.next.reports = [] ↔ (Lexeme.scan b rest).faults = [] := by
  have hclosed : (Trivia.skip c.rest).unclosed = none := by
    refine Classical.byContradiction fun hopen => ?_
    have hwidth := Trivia.skipFrom_of_unclosed .space 0 false c.rest hopen
    have hlength := congrArg List.length h
    rw [afterGap, List.length_drop, List.length_cons, Trivia.skip] at hlength
    omega
  rw [c.next_reports_eq_nil]
  constructor
  · exact fun hquiet => hquiet.2 b rest h
  · intro hquiet
    refine ⟨hclosed, fun b' rest' h' => ?_⟩
    cases h.symm.trans h'
    exact hquiet

/-- The same gap, and behind it the end or the same token. -/
theorem Alike.next_of_gap (h : c.Alike a shift d) (hskip : Trivia.skip d.rest = Trivia.skip c.rest)
    (hnext : (c.afterGap = [] ∧ a = []) ∨
      ∃ b rest, c.afterGap = b :: rest ∧ Lexeme.scan b (rest ++ a) = Lexeme.scan b rest) :
    c.next.Alike a shift d.next := by
  have hgap : d.gap = c.gap := by
    rw [gap, gap, hskip, h.rest, List.take_append_of_le_length (Trivia.skip_width_le _)]
  have hafter : d.afterGap = c.afterGap ++ a := by
    rw [afterGap, afterGap, hskip, h.rest, List.drop_append_of_le_length (Trivia.skip_width_le _)]
  have hoffset : d.pos.offset + d.gap.length = shift + (c.pos.offset + c.gap.length) := by
    rw [h.offset, hgap, Nat.add_assoc]
  have hlines : (d.lineStart || (Trivia.skip d.rest).breaks) =
      (c.lineStart || (Trivia.skip c.rest).breaks) := by rw [h.lineStart, hskip]
  have hreports : c.next.reports = [] → d.next.reports = [] := by
    simp only [next_reports_eq_nil, hskip]
    rintro ⟨hopen, hfaults⟩
    refine ⟨hopen, fun b rest hrest => ?_⟩
    rw [hafter] at hrest
    rcases hnext with ⟨hend, rfl⟩ | ⟨b', rest', hrest', hscan⟩
    · rw [hend] at hrest
      cases hrest
    · rw [hrest', List.cons_append] at hrest
      cases hrest
      rw [hscan]
      exact hfaults _ _ hrest'
  rcases hnext with ⟨hend, rfl⟩ | ⟨b, rest, hrest, hscan⟩
  · rw [hend, List.append_nil] at hafter
    obtain ⟨htoken, hcursor⟩ := next_of_nil hend
    obtain ⟨htoken', hcursor'⟩ := next_of_nil hafter
    refine ⟨⟨?_, ?_, ?_⟩, ?_, ⟨?_, ?_, ?_⟩, hreports⟩ <;>
      simp [htoken, hcursor, htoken', hcursor', Token.offset, hoffset, hlines]
  · rw [hrest, List.cons_append] at hafter
    have hwidth : (Lexeme.scan b rest).width ≤ (b :: rest).length := Lexeme.scan_width_le b rest
    have htext : (b :: (rest ++ a)).take (Lexeme.scan b rest).width =
        (b :: rest).take (Lexeme.scan b rest).width := List.take_append_of_le_length hwidth
    have hleft : (b :: (rest ++ a)).drop (Lexeme.scan b rest).width =
        (b :: rest).drop (Lexeme.scan b rest).width ++ a := List.drop_append_of_le_length hwidth
    obtain ⟨htoken, hcursor⟩ := next_of_cons hrest
    obtain ⟨htoken', hcursor'⟩ := next_of_cons hafter
    rw [hscan, htext] at htoken' hcursor'
    rw [hleft] at hcursor'
    refine ⟨⟨?_, ?_, ?_⟩, ?_, ⟨?_, ?_, ?_⟩, hreports⟩ <;>
      simp [htoken, hcursor, htoken', hcursor', Token.offset, hoffset, hlines, ← Nat.add_assoc]

/-- What can be next where the text ends before the token does. -/
inductive Spent (a : Text) (c d : Cursor) : Prop
  /-- Nothing is left but trivia. -/
  | ended (end_eq : c.afterGap = []) (suffix : d.afterGap <:+ a)
  /-- The token is one that was never closed. -/
  | opened (faulty : c.next.reports ≠ []) (rest_eq : c.next.cursor.rest = [])
      (kind : c.next.token.kind = .string ∨ c.next.token.kind = .template)
      (kind_eq : d.next.token.kind = c.next.token.kind) (suffix : d.next.cursor.rest <:+ a)

/-- **The next token does not depend on what follows on the next line**, unless the text ends
    before it does. -/
theorem Alike.next (h : c.Alike a shift d) (ha : a.startsLine = true) :
    c.next.Alike a shift d.next ∨ c.Spent a d := by
  have hgap := c.gap_append_afterGap
  have hwidth := Trivia.skip_width_le c.rest
  cases hafter : c.afterGap with
  | nil =>
    have hall : (Trivia.skip c.rest).width = c.rest.length := by
      have := List.drop_eq_nil_iff.mp hafter
      omega
    refine .inr (.ended hafter ?_)
    rw [afterGap, h.rest, List.drop_append,
      List.drop_eq_nil_of_le (Trivia.length_le_skip_append ha hall), List.nil_append]
    exact List.drop_suffix _ _
  | cons b rest =>
    have hless : (Trivia.skip c.rest).width < c.rest.length := by
      refine Nat.lt_of_not_le fun hge => ?_
      rw [afterGap, List.drop_eq_nil_of_le hge] at hafter
      cases hafter
    have hskip : Trivia.skip d.rest = Trivia.skip c.rest := by
      rw [h.rest, Trivia.skip_append ha hless]
    rcases Lexeme.scan_append (Text.startsBreak_of_startsLine ha) b rest with
      hscan | ⟨⟨hopen, hfaults, hkind⟩, hkind', hmore⟩
    · exact .inl (h.next_of_gap hskip (.inr ⟨b, rest, hafter, hscan⟩))
    · have hafter' : d.afterGap = b :: (rest ++ a) := by
        rw [afterGap, hskip, h.rest, List.drop_append_of_le_length hwidth]
        rw [afterGap] at hafter
        rw [hafter, List.cons_append]
      obtain ⟨htoken, hcursor⟩ := next_of_cons hafter
      obtain ⟨htoken', hcursor'⟩ := next_of_cons hafter'
      refine .inr (.opened ?_ ?_ ?_ ?_ ?_)
      · intro hnil
        exact hfaults ((c.next_reports_eq_nil.mp hnil).2 b rest hafter)
      · rw [hcursor, hopen, List.drop_length]
      · rw [htoken]
        exact hkind
      · rw [htoken', htoken]
        exact hkind'
      · rw [hcursor']
        have hdrop : (b :: (rest ++ a)).drop (Lexeme.scan b (rest ++ a)).width =
            a.drop ((Lexeme.scan b (rest ++ a)).width - (rest.length + 1)) := by
          rw [← List.cons_append, List.drop_append, List.drop_eq_nil_of_le (by simpa using hmore),
            List.nil_append, List.length_cons]
        rw [hdrop]
        exact List.drop_suffix _ _

/-- Without anything behind the text, all is the same. -/
theorem Alike.next_nil (h : c.Alike [] shift d) : c.next.Alike [] shift d.next := by
  refine h.next_of_gap (by rw [h.rest, List.append_nil]) ?_
  cases hafter : c.afterGap with
  | nil => exact .inl ⟨rfl, rfl⟩
  | cons b rest => exact .inr ⟨b, rest, rfl, by rw [List.append_nil]⟩

/-- A template token without its fault ends with the backtick that closes it. -/
theorem closed_template (hkind : c.next.token.kind = .template)
    (hclosed : ∀ x ∈ c.next.reports, x.fault ≠ .lex .openTemplate) :
    ∃ body more : Text, c.next.token.text = backtick :: (body ++ [backtick]) ∧
      Nesting.closeFrom [.body] 1 (body ++ backtick :: more) = (body.length + 2, true) := by
  rcases c.next_cases with ⟨_, htoken, _⟩ | ⟨b, rest, hrest, htoken, _⟩
  · rw [htoken] at hkind
    cases hkind
  rw [htoken] at hkind ⊢
  obtain ⟨hb, hscan⟩ := (Lexeme.scan_readBy b rest).template hkind
  subst hb
  have hwidth : (Lexeme.scan backtick rest).width = (Nesting.closeFrom [.body] 1 rest).1 := by
    rw [hscan]
    rfl
  have hend : (Nesting.closeFrom [.body] 1 rest).2 = true := by
    refine Bool.of_not_eq_false fun hopen => ?_
    have hrest : c.rest.drop (Trivia.skip c.rest).width = backtick :: rest := hrest
    have hfault : (0, .openTemplate) ∈ (Lexeme.scan backtick rest).faults := by
      rw [hscan]
      show _ ∈ if (Nesting.closeFrom [.body] 1 rest).2 then [] else _
      rw [hopen]
      exact List.mem_singleton_self _
    rw [Cursor.next, hrest] at hclosed
    exact hclosed _ (List.mem_append_right _ (List.mem_map_of_mem hfault)) rfl
  obtain ⟨hlt, hlast⟩ := Nesting.closeFrom_template _ _ _ rfl hend
  rcases hclose : Nesting.closeFrom [.body] 1 rest with ⟨m, closed⟩
  rw [hclose] at hwidth hend hlt hlast
  obtain ⟨m, rfl⟩ : ∃ n, m = n + 2 := ⟨m - 2, by dsimp only at hlt; omega⟩
  have hlast : rest[m]? = some backtick := hlast
  obtain ⟨hm, hget⟩ := List.getElem?_eq_some_iff.mp hlast
  have hsplit : rest = rest.take m ++ backtick :: rest.drop (m + 1) := by
    conv => lhs; rw [← List.take_append_drop m rest, List.drop_eq_getElem_cons hm, hget]
  have hlength : (rest.take m).length = m := by
    rw [List.length_take]
    omega
  refine ⟨rest.take m, rest.drop (m + 1), ?_, ?_⟩
  · dsimp only
    rw [hwidth, List.take_succ_cons, List.take_add_one, hlast]
    rfl
  · rw [← hsplit, hclose, hlength, show closed = true from hend]

/-- A template that was read without a fault is closed by a backtick of its own. -/
theorem next_template (hkind : c.next.token.kind = .template) (hclean : c.next.reports = []) :
    2 ≤ c.next.token.text.length ∧ c.next.token.text.getLast? = some backtick := by
  obtain ⟨body, more, htext, -⟩ := closed_template hkind (by simp [hclean])
  rw [htext, ← List.cons_append]
  exact ⟨by simp, List.getLast?_concat⟩

end Cursor

end ReactiveScript
