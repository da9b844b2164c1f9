import ReactiveScript.Token.Stream

/-!
# What one token takes

The facts about a single token that every statement on token streams rests on.
-/

namespace ReactiveScript

open Byte

/-! ## 1. Positions -/

@[simp] theorem Position.advance_offset (p : Position) (t : Text) :
    (p.advance t).offset = p.offset + t.length := by
  induction t generalizing p with
  | nil => simp
  | cons b t ih =>
    have hstep : (p.step b).offset = p.offset + 1 := by
      unfold Position.step
      split <;> rfl
    rw [Position.advance_cons, ih, hstep, List.length_cons]
    omega

/-! ## 2. Widths -/

namespace Nesting

/-- What one byte does to the constructs that are open. -/
inductive Stride where
  /-- It closes the outermost one, and so many bytes of it count. -/
  | close (bytes : Nat)
  /-- The byte behind it is skipped. -/
  | escape
  | go (inner : List Inside)

/-- The effect of a byte, given whether a brace stands behind it. -/
def stride (nest : List Inside) (b : UInt8) (brace : Bool) : Stride :=
  match nest with
  | [] => .close 0
  | .body :: outer =>
    if b = backtick then if outer.isEmpty then .close 1 else .go outer
    else if b = backslash then .escape
    else if b = dollar ∧ brace = true then .go (.code 0 :: nest)
    else .go nest
  | .code braces :: outer =>
    if b = openBrace then .go (.code (braces + 1) :: outer)
    else if b = closeBrace then
      if braces ≤ 1 then if outer.isEmpty then .close 1 else .go outer
      else .go (.code (braces - 1) :: outer)
    else if b = backtick then .go (.body :: nest)
    else if b = doubleQuote ∨ b = singleQuote then .go (.string b :: nest)
    else .go nest
  | .string quote :: outer =>
    if b = quote ∨ b = newline then .go outer
    else if b = backslash then .escape
    else .go nest

/-- Does a brace stand here? -/
def atBrace (t : Text) : Bool := t.head? = some openBrace

theorem closeFrom_cons (nest : List Inside) (n : Nat) (b : UInt8) (rest : Text) :
    closeFrom nest n (b :: rest) = match stride nest b (atBrace rest) with
      | .close bytes => (n + bytes, true)
      | .escape => if rest.isEmpty then (n + 1, false) else closeFrom nest (n + 2) rest.tail
      | .go inner => closeFrom inner (n + 1) rest := by
  have hbrace : (atBrace rest = true) = (rest.head? = some openBrace) := by simp [atBrace]
  rw [closeFrom.eq_def, stride.eq_def]
  match nest with
  | [] => rfl
  | .body :: outer =>
    simp only [hbrace]
    split
    · split <;> rfl
    · split
      · cases rest <;> rfl
      · split <;> rfl
  | .code braces :: outer =>
    dsimp only
    split
    · rfl
    · split
      · split
        · split <;> rfl
        · rfl
      · split
        · rfl
        · split <;> rfl
  | .string quote :: outer =>
    dsimp only
    split
    · rfl
    · split
      · cases rest <;> rfl
      · rfl

/-- **Induction along the reading of nested constructs**, one case for each effect of a byte. -/
theorem closeFrom_induction {motive : List Inside → Nat → Text → Prop}
    (nil : ∀ nest n, motive nest n [])
    (close : ∀ nest n b rest bytes, stride nest b (atBrace rest) = .close bytes →
      closeFrom nest n (b :: rest) = (n + bytes, true) → motive nest n (b :: rest))
    (escapeEnd : ∀ nest n b, stride nest b false = .escape →
      closeFrom nest n [b] = (n + 1, false) → motive nest n [b])
    (escape : ∀ nest n b c rest, stride nest b (atBrace (c :: rest)) = .escape →
      closeFrom nest n (b :: c :: rest) = closeFrom nest (n + 2) rest →
      motive nest (n + 2) rest → motive nest n (b :: c :: rest))
    (go : ∀ nest n b rest inner, stride nest b (atBrace rest) = .go inner →
      closeFrom nest n (b :: rest) = closeFrom inner (n + 1) rest →
      motive inner (n + 1) rest → motive nest n (b :: rest))
    (nest : List Inside) (n : Nat) : ∀ t, motive nest n t
  | [] => nil nest n
  | b :: rest => by
    have heq := closeFrom_cons nest n b rest
    cases hstride : stride nest b (atBrace rest) with
    | close bytes => exact close _ _ _ _ _ hstride (by rw [heq, hstride])
    | go inner =>
      refine go _ _ _ _ _ hstride (by rw [heq, hstride]) ?_
      exact closeFrom_induction nil close escapeEnd escape go inner (n + 1) rest
    | escape =>
      cases rest with
      | nil => exact escapeEnd _ _ _ hstride (by rw [heq, hstride]; rfl)
      | cons c rest =>
        refine escape _ _ _ _ _ hstride (by rw [heq, hstride]; rfl) ?_
        exact closeFrom_induction nil close escapeEnd escape go nest (n + 2) rest

/-- Reading on never gives bytes back. -/
theorem le_closeFrom (nest : List Inside) (n : Nat) (t : Text) : n ≤ (closeFrom nest n t).1 := by
  induction nest, n, t using closeFrom_induction with
  | nil nest n => exact Nat.le_refl n
  | close nest n b rest bytes _ heq => rw [heq]; exact Nat.le_add_right n bytes
  | escapeEnd nest n b _ heq => rw [heq]; exact Nat.le_succ n
  | escape nest n b c rest _ heq ih => rw [heq]; omega
  | go nest n b rest inner _ heq ih => rw [heq]; omega

end Nesting

/-- A text that can be a name. -/
def Text.isName (w : Text) : Bool :=
  (w.head?.map isNameStart).getD false && w.all isNamePart

/-- No byte of the text could continue a name in front of it. -/
def Text.isApart (t : Text) : Bool := !(t.head?.map isNamePart).getD false

/-- Does the text start with a dot and a digit? -/
def Text.startsFraction (t : Text) : Bool :=
  t.head? == some dot && (t.tail.head?.map isDigit).getD false

/-- Behind the longest start of a class comes the rest. -/
theorem Text.drop_length_takeWhile (p : UInt8 → Bool) (t : Text) :
    t.drop (t.takeWhile p).length = t.dropWhile p :=
  calc t.drop (t.takeWhile p).length
    _ = (t.takeWhile p ++ t.dropWhile p).drop (t.takeWhile p).length := by
      rw [List.takeWhile_append_dropWhile]
    _ = t.dropWhile p := List.drop_left

namespace Lexeme

theorem nameLength_pos {b : UInt8} (h : isNamePart b = true) (rest : Text) :
    0 < nameLength (b :: rest) := by
  simp [nameLength, h]

theorem isNamePart_of_isNameStart {b : UInt8} (h : isNameStart b = true) :
    isNamePart b = true := by
  simp [isNamePart, h]

theorem word_width_pos {b : UInt8} (h : isNameStart b = true) (rest : Text) :
    0 < (word (b :: rest)).width :=
  nameLength_pos (isNamePart_of_isNameStart h) rest

theorem decimalNumber_width_pos (t : Text) : 0 < (decimalNumber t).width := by
  simp only [decimalNumber]
  omega

theorem number_width_pos (t : Text) : 0 < (number t).width := by
  unfold number
  split
  · split
    · split
      · simp only [radixNumber]
        omega
      · exact decimalNumber_width_pos _
    · exact decimalNumber_width_pos _
  · exact decimalNumber_width_pos _

theorem le_stringFrom_width (quote : UInt8) (n : Nat) (faults : List (Nat × LexFault)) (t : Text) :
    n ≤ (stringFrom quote n faults t).width := by
  fun_induction stringFrom quote n faults t <;> grind

theorem template_width_pos (rest : Text) : 0 < (template rest).width :=
  Nesting.le_closeFrom [.body] 1 rest

theorem modifier_width_pos (rest : Text) : 0 < (modifier rest).width := by
  unfold modifier
  split
  · simp only
    omega
  · exact Nat.one_pos

theorem stray_width_pos (b : UInt8) (rest : Text) : 0 < (stray b rest).width := by
  unfold stray
  split
  · exact Nat.one_pos
  · split
    · exact Nat.one_pos
    · simp only
      omega

/-! ## 3. Which scanner reads a token -/

/-- Does a number start here? -/
def startsNumber (b : UInt8) (rest : Text) : Bool :=
  isDigit b || (b == dot && (rest.head?.map isDigit).getD false)

/-- What the scanner of the text `b :: rest` may be, and what its first byte is then. -/
inductive Scans (b : UInt8) (rest : Text) : Lexeme → Prop
  | word (h : isNameStart b = true) : Scans b rest (word (b :: rest))
  | number (h : startsNumber b rest = true) : Scans b rest (number (b :: rest))
  | string (h : b = doubleQuote ∨ b = singleQuote) :
      Scans b rest (stringFrom b 1 [] rest)
  | template (h : b = backtick) : Scans b rest (template rest)
  | modifier (h : b = atSign) : Scans b rest (modifier rest)
  | punct {t : Punct.Test} (hnumber : startsNumber b rest = false)
      (h : Punct.firstAt? b rest = some t) :
      Scans b rest { kind := .punct t.punct, width := 1 + t.more.length }
  | stray (h : Punct.firstAt? b rest = none) : Scans b rest (stray b rest)

/-- **Every token is read by one of the scanners.** -/
theorem scan_scans (b : UInt8) (rest : Text) : Scans b rest (scan b rest) := by
  unfold scan
  split
  · exact .word ‹_›
  split
  · exact .number ‹_›
  rename_i hnumber
  split
  · exact .string ‹_›
  split
  · exact .template ‹_›
  split
  · exact .modifier ‹_›
  split
  · exact .punct (Bool.eq_false_iff.mpr hnumber) ‹_›
  · exact .stray ‹_›

/-- **A token takes at least one byte.** -/
theorem scan_width_pos (b : UInt8) (rest : Text) : 0 < (scan b rest).width := by
  have h := scan_scans b rest
  generalize scan b rest = l at h
  cases h with
  | word h => exact word_width_pos h rest
  | number => exact number_width_pos _
  | string => exact le_stringFrom_width b 1 [] rest
  | template => exact template_width_pos rest
  | modifier => exact modifier_width_pos rest
  | punct => exact Nat.add_pos_left Nat.one_pos _
  | stray => exact stray_width_pos b rest

end Lexeme

/-! ## 4. Kinds -/

/-- The kinds of the tokens that a scanner makes. -/
def Kind.isScanned : Kind → Bool
  | .eof | .jsxText => false
  | _ => true

namespace Lexeme

theorem number_kind (t : Text) : (number t).kind = .number := by
  unfold number
  split
  · split
    · split <;> rfl
    · rfl
  · rfl

theorem stringFrom_kind (quote : UInt8) (n : Nat) (faults : List (Nat × LexFault)) (t : Text) :
    (stringFrom quote n faults t).kind = .string := by
  fun_induction stringFrom quote n faults t <;> simp_all

theorem modifier_kind (rest : Text) :
    (modifier rest).kind = .modifier ∨ (modifier rest).kind = .invalid := by
  unfold modifier
  split
  · exact .inl rfl
  · exact .inr rfl

theorem stray_kind (b : UInt8) (rest : Text) : (stray b rest).kind = .invalid := by
  unfold stray
  split
  · rfl
  · split <;> rfl

theorem ofWord_cases (w : Text) : Kind.ofWord w = .identifier ∨ ∃ k, Kind.ofWord w = .keyword k := by
  unfold Kind.ofWord
  split
  · exact .inr ⟨_, rfl⟩
  · exact .inl rfl

theorem isPropertyName_word (t : Text) : (word t).kind.isPropertyName = true := by
  rcases ofWord_cases (t.take (nameLength t)) with h | ⟨k, h⟩ <;> simp [word, h, Kind.isPropertyName]

/-- The kind of a scanned token: one of the classes, or an operator that stands at the start. -/
theorem scan_kind_cases (b : UInt8) (rest : Text) :
    (∃ k, (scan b rest).kind = .keyword k) ∨
    (scan b rest).kind ∈ [Kind.identifier, .number, .string, .template, .modifier, .invalid] ∨
    ∃ t, Punct.firstAt? b rest = some t ∧
      scan b rest = { kind := .punct t.punct, width := 1 + t.more.length } := by
  have h := scan_scans b rest
  generalize scan b rest = l at h ⊢
  cases h with
  | word =>
    rcases ofWord_cases ((b :: rest).take (nameLength (b :: rest))) with h | ⟨k, h⟩
    · exact .inr (.inl (by simp [word, h]))
    · exact .inl ⟨k, h⟩
  | number => exact .inr (.inl (by simp [number_kind]))
  | string => exact .inr (.inl (by simp [stringFrom_kind]))
  | template => exact .inr (.inl (by simp [template]))
  | modifier => rcases modifier_kind rest with h | h <;> exact .inr (.inl (by simp [h]))
  | @punct t _ h => exact .inr (.inr ⟨t, h, rfl⟩)
  | stray => exact .inr (.inl (by simp [stray_kind]))

theorem scan_kind (b : UInt8) (rest : Text) : (scan b rest).kind.isScanned = true := by
  rcases scan_kind_cases b rest with ⟨k, h⟩ | h | ⟨t, -, h⟩
  · rw [h]
    rfl
  · simp only [List.mem_cons, List.not_mem_nil, or_false] at h
    rcases h with h | h | h | h | h | h <;> rw [h] <;> rfl
  · rw [h]
    rfl

/-- The scanner that a lexeme comes from, told by its kind. -/
structure ReadBy (b : UInt8) (rest : Text) (l : Lexeme) : Prop where
  word : l.kind.isPropertyName = true → isNameStart b = true ∧ l = Lexeme.word (b :: rest)
  number : l.kind = .number → startsNumber b rest = true ∧ l = Lexeme.number (b :: rest)
  string : l.kind = .string →
    (b = doubleQuote ∨ b = singleQuote) ∧ l = stringFrom b 1 [] rest
  template : l.kind = .template → b = backtick ∧ l = Lexeme.template rest
  modifier : l.kind = .modifier → b = atSign ∧ l = Lexeme.modifier rest

theorem scan_readBy (b : UInt8) (rest : Text) : ReadBy b rest (scan b rest) := by
  have h := scan_scans b rest
  generalize scan b rest = l at h ⊢
  cases h with
  | word h =>
    have hword := isPropertyName_word (b :: rest)
    refine ⟨fun _ => ⟨h, rfl⟩, ?_, ?_, ?_, ?_⟩ <;> intro hk <;> rw [hk] at hword <;> cases hword
  | number h => constructor <;> simp [number_kind, Kind.isPropertyName, h]
  | string h => constructor <;> simp [stringFrom_kind, Kind.isPropertyName, h]
  | template h => constructor <;> simp [Lexeme.template, Kind.isPropertyName, h]
  | modifier h =>
    rcases modifier_kind rest with hk | hk <;> constructor <;> simp [hk, Kind.isPropertyName, h]
  | punct => constructor <;> simp [Kind.isPropertyName]
  | stray => constructor <;> simp [stray_kind, Kind.isPropertyName]

/-- An operator comes from the first test that succeeds. -/
theorem firstAt?_of_scan {b : UInt8} {rest : Text} {p : Punct} (h : (scan b rest).kind = .punct p) :
    ∃ t, Punct.firstAt? b rest = some t ∧ t.punct = p ∧ (scan b rest).width = 1 + t.more.length := by
  rcases scan_kind_cases b rest with ⟨k, hk⟩ | hk | ⟨t, ht, hs⟩
  · rw [hk] at h
    cases h
  · rw [h] at hk
    simp at hk
  · rw [hs] at h ⊢
    cases h
    exact ⟨t, ht, rfl, rfl⟩

/-- An operator or a mark of punctuation is read as it is spelt. -/
theorem scan_spelling {b : UInt8} {rest : Text} {p : Punct} (h : (scan b rest).kind = .punct p) :
    (b :: rest).take (scan b rest).width = p.spelling := by
  obtain ⟨t, ht, rfl, hwidth⟩ := firstAt?_of_scan h
  obtain ⟨hspelling, u, rfl⟩ := Punct.spelling_of_firstAt? ht
  rw [hwidth, hspelling, Nat.add_comm, List.take_succ_cons, List.take_left]

end Lexeme

/-! ## 5. The next token -/

namespace Cursor

/-- The trivia at a cursor. -/
def gap (c : Cursor) : Text := c.rest.take (Trivia.skip c.rest).width

/-- What is left after the trivia at a cursor. -/
def afterGap (c : Cursor) : Text := c.rest.drop (Trivia.skip c.rest).width

theorem gap_append_afterGap (c : Cursor) : c.gap ++ c.afterGap = c.rest :=
  List.take_append_drop _ _

/-- What is next where only trivia is left. -/
theorem next_of_nil {c : Cursor} (h : c.afterGap = []) :
    c.next.token =
      { kind := .eof, pos := c.pos.advance c.gap,
        lineStart := c.lineStart || (Trivia.skip c.rest).breaks } ∧
    c.next.cursor = { rest := [], pos := c.pos.advance c.gap, lineStart := false } := by
  have h' : c.rest.drop (Trivia.skip c.rest).width = [] := h
  constructor <;> simp only [next, h', gap]

/-- What is next where a token starts. -/
theorem next_of_cons {c : Cursor} {b : UInt8} {rest : Text} (h : c.afterGap = b :: rest) :
    c.next.token =
      { kind := (Lexeme.scan b rest).kind, text := (b :: rest).take (Lexeme.scan b rest).width,
        pos := c.pos.advance c.gap, lineStart := c.lineStart || (Trivia.skip c.rest).breaks } ∧
    c.next.cursor =
      { rest := (b :: rest).drop (Lexeme.scan b rest).width,
        pos := (c.pos.advance c.gap).advance ((b :: rest).take (Lexeme.scan b rest).width),
        lineStart := false } := by
  have h' : c.rest.drop (Trivia.skip c.rest).width = b :: rest := h
  constructor <;> simp only [next, h', gap]

/-- **`next` skips the gap and then finds the end, or takes a scanned token.** -/
theorem next_cases (c : Cursor) :
    (c.afterGap = [] ∧
      c.next.token =
        { kind := .eof, pos := c.pos.advance c.gap,
          lineStart := c.lineStart || (Trivia.skip c.rest).breaks } ∧
      c.next.cursor = { rest := [], pos := c.pos.advance c.gap, lineStart := false }) ∨
    ∃ b rest, c.afterGap = b :: rest ∧
      c.next.token =
        { kind := (Lexeme.scan b rest).kind, text := (b :: rest).take (Lexeme.scan b rest).width,
          pos := c.pos.advance c.gap, lineStart := c.lineStart || (Trivia.skip c.rest).breaks } ∧
      c.next.cursor =
        { rest := (b :: rest).drop (Lexeme.scan b rest).width,
          pos := (c.pos.advance c.gap).advance ((b :: rest).take (Lexeme.scan b rest).width),
          lineStart := false } := by
  cases h : c.afterGap with
  | nil => exact .inl ⟨rfl, next_of_nil h⟩
  | cons b rest => exact .inr ⟨b, rest, rfl, next_of_cons h⟩

theorem next_token_offset (c : Cursor) : c.next.token.offset = c.pos.offset + c.gap.length := by
  rcases c.next_cases with ⟨_, ht, _⟩ | ⟨b, rest, _, ht, _⟩ <;> rw [ht] <;> simp [Token.offset]

/-- A token ends in the source. -/
theorem next_token_stop_le (c : Cursor) :
    c.next.token.stop ≤ c.pos.offset + c.rest.length := by
  have hrest := congrArg List.length c.gap_append_afterGap
  rw [List.length_append] at hrest
  rw [Token.stop, ← Token.offset, next_token_offset]
  rcases c.next_cases with ⟨_, ht, _⟩ | ⟨b, rest, hafter, ht, _⟩
  · rw [ht, List.length_nil]
    omega
  · rw [ht, ← hafter, List.length_take]
    omega

/-- What a cursor leaves behind its gap stands in the source at the offset of the next token. -/
theorem drop_token_offset {source : Text} {c : Cursor}
    (h : c.rest = source.drop c.pos.offset) : source.drop c.next.token.offset = c.afterGap := by
  rw [next_token_offset, ← List.drop_drop, ← h, ← c.gap_append_afterGap, List.drop_left]

end Cursor

/-! ## 6. All tokens -/

/-- What has been read already is kept in front. -/
theorem tokensFrom_eq (fuel : Nat) (tokens : List Token) (reports : List Report) (c : Cursor) :
    tokensFrom fuel tokens reports c =
      (tokens.reverse ++ (tokensFrom fuel [] [] c).1,
        reports.reverse ++ (tokensFrom fuel [] [] c).2) := by
  induction fuel generalizing tokens reports c with
  | zero => simp [tokensFrom]
  | succ fuel ih =>
    rw [tokensFrom, tokensFrom]
    by_cases hkind : c.next.token.kind = .eof
    · simp [hkind]
    · simp only [if_neg hkind]
      rw [ih, ih [c.next.token]]
      simp

theorem tokensFrom_eof {c : Cursor} (h : c.next.token.kind = .eof) (fuel : Nat) :
    tokensFrom (fuel + 1) [] [] c = ([c.next.token], c.next.reports) := by
  rw [tokensFrom]
  simp [h]

theorem tokensFrom_next {c : Cursor} (h : c.next.token.kind ≠ .eof) (fuel : Nat) :
    tokensFrom (fuel + 1) [] [] c =
      (c.next.token :: (tokensFrom fuel [] [] c.next.cursor).1,
        c.next.reports ++ (tokensFrom fuel [] [] c.next.cursor).2) := by
  rw [tokensFrom]
  simp only [if_neg h]
  rw [tokensFrom_eq]
  simp

end ReactiveScript
