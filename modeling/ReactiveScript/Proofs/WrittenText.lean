import ReactiveScript.Grammar.Pattern
import ReactiveScript.Proofs.Text.Reading
import ReactiveScript.Proofs.Token.Quoting
import ReactiveScript.Proofs.Token.Returns

/-!
# Written texts are read back

A text is written as a string in double quotes, or as text between tags. Whatever its bytes are, the
scanner takes all of what was written and nothing else, and reading its escapes or references gives
the text again.
-/

namespace ReactiveScript

open Escape

/-! ## 1. Offsets in words -/

namespace Position
variable {p : Position} {t : Text}

/-- Behind a text that words can count, the offset is what it should be. -/
theorem words_offset_advance (h : p.offset + t.length < Span.wordCount) :
    (p.advance t).words.offset = p.offset + t.length := by
  rw [words, advance_offset]
  exact Nat.mod_eq_of_lt h

/-- A text that words cannot count comes by the start of the source again. -/
theorem words_offset_wrap (hp : p.offset ≤ Span.wordCount)
    (h : Span.wordCount ≤ p.offset + t.length) :
    (p.advance (t.take (Span.wordCount - p.offset))).words.offset = 0 := by
  have hlength : p.offset + (t.take (Span.wordCount - p.offset)).length = Span.wordCount := by
    rw [List.length_take]
    omega
  rw [words, advance_offset, hlength]
  exact Nat.mod_self _

end Position

/-! ## 2. Strings of the grammar are scanned whole -/

namespace Lexeme

/-- Two hexadecimal digits are not missed where they are. -/
theorem hexFault_of_startsHexPair {t : Text} (h : t.startsHexPair = true) (n : Nat) :
    hexFault n t = [] := by
  match t with
  | [] | [_] => cases h
  | high :: low :: t =>
    simp only [Text.startsHexPair, Bool.and_eq_true] at h
    simp [hexFault, digitCount, h]

theorem startsHexPair_append {t : Text} (h : t.startsHexPair = true) (rest : Text) :
    Text.startsHexPair (t ++ rest) = true := by
  match t with
  | [] | [_] => cases h
  | high :: low :: t => exact h

/-- **A string of the grammar is scanned up to its quote, and no fault is found in it.** -/
theorem stringFrom_of_stringBody {quote : UInt8} (hescape : Byte.backslash ≠ quote) {body : Text}
    (h : StringBody quote true body) (n : Nat) (faults : List (Nat × LexFault)) (rest : Text) :
    stringFrom quote n faults (body ++ quote :: rest) =
      { kind := .string, width := n + body.length + 1, faults := faults.reverse } := by
  induction h generalizing n with
  | nil =>
    rw [List.nil_append, stringFrom.eq_def]
    exact if_pos rfl
  | plain hquote hnewline hbackslash _ ih =>
    rw [List.cons_append, stringFrom_go hquote hnewline hbackslash, ih, List.length_cons]
    congr 1
    omega
  | @escape e t hhex _ ih =>
    have hfound : (if e = 0x78 then hexFault (n + 2) (t ++ quote :: rest) else []) = [] := by
      split
      · rename_i he
        exact hexFault_of_startsHexPair (startsHexPair_append (hhex rfl he) _) _
      · rfl
    rw [List.cons_append, List.cons_append, stringFrom_escape hescape, hfound, List.nil_append, ih,
      List.length_cons, List.length_cons]
    congr 1
    omega

end Lexeme

/-! ## 3. Texts in quotes -/

namespace Escape

/-- How a byte is written between quotes: as it is, or behind a backslash with a letter that stands
    for it. -/
theorem quoteByte_cases (b : UInt8) :
    (quoteByte b = [b] ∧ b ≠ Byte.doubleQuote ∧ b ≠ Byte.newline ∧ b ≠ Byte.backslash) ∨
    ∃ e, quoteByte b = [Byte.backslash, e] ∧ e ≠ 0x78 ∧ ∀ t, escape (e :: t) = ⟨[b], 1⟩ := by
  unfold quoteByte
  repeat' split
  all_goals first
    | subst_vars
      exact .inr ⟨_, rfl, by decide, fun _ => rfl⟩
    | exact .inl ⟨rfl, ‹_›, ‹_›, ‹_›⟩

/-- What is written between quotes is the body of a string. -/
theorem stringBody_quoted (t : Text) :
    StringBody Byte.doubleQuote true (t.flatMap quoteByte) := by
  induction t with
  | nil => exact .nil
  | cons b t ih =>
    rw [List.flatMap_cons]
    rcases quoteByte_cases b with ⟨hb, hquote, hnewline, hbackslash⟩ | ⟨e, hb, he, -⟩
    · rw [hb]
      exact .plain hquote hnewline hbackslash ih
    · rw [hb]
      exact .escape (fun _ hhex => absurd hhex he) ih

/-- Its escapes stand for the text. -/
theorem cook_quoted (t : Text) : cook (t.flatMap quoteByte) = t := by
  induction t with
  | nil => rfl
  | cons b t ih =>
    rw [List.flatMap_cons]
    rcases quoteByte_cases b with ⟨hb, -, -, hbackslash⟩ | ⟨e, hb, -, hescape⟩
    · rw [hb, List.singleton_append, cook_cons hbackslash, ih]
    · rw [hb, List.cons_append, List.singleton_append, cook_backslash, hescape]
      exact congrArg (b :: ·) ih

theorem unquoted_quote (t : Text) : unquoted (quote t) = t.flatMap quoteByte := by
  simp [unquoted, quote]

theorem stringValue_quote (t : Text) : stringValue (quote t) = t := by
  rw [stringValue, unquoted_quote, cook_quoted]

end Escape

/-- A text in quotes at the start of a source is the next token, and all of it. -/
theorem Cursor.next_quote (t : Text) :
    (ofText (quote t)).next.token =
        { kind := .string, text := quote t, lineStart := true } ∧
      (ofText (quote t)).next.cursor =
        { rest := [], pos := Position.start.advance (quote t), lineStart := false } ∧
      (ofText (quote t)).next.reports = [] := by
  have hscan : Lexeme.scan Byte.doubleQuote (t.flatMap quoteByte ++ [Byte.doubleQuote]) =
      { kind := .string, width := (quote t).length } := by
    rw [Lexeme.scan_quote (.inl rfl),
      Lexeme.stringFrom_of_stringBody (by decide) (stringBody_quoted t)]
    congr 1
    simp [quote, Nat.add_comm]
  have hskip : Trivia.skip (quote t) = { width := 0, breaks := false } :=
    Trivia.skipFrom_token (by decide) (by decide) (by decide)
  have hgap : (ofText (quote t)).gap = [] := by
    rw [gap, ofText, hskip]
    rfl
  have hafter : (ofText (quote t)).afterGap =
      Byte.doubleQuote :: (t.flatMap quoteByte ++ [Byte.doubleQuote]) := by
    rw [afterGap, ofText, hskip]
    rfl
  obtain ⟨htoken, hcursor⟩ := next_of_cons hafter
  rw [hscan, ← quote, hgap] at htoken hcursor
  refine ⟨?_, ?_, (next_reports_of_cons hafter).mpr (by rw [hscan])⟩
  · rw [htoken, List.take_length]
    rfl
  · rw [hcursor, List.take_length, List.drop_length]
    rfl

/-- **Quoted texts are read back.** A text in quotes, whatever its bytes are, is one string token and
    nothing else, no fault is found in it, and the value of the string is the text. The end of the
    source is at the offset that a word holds for it, as the text is one that words can count; in a
    longer one they are back at the opening quote before they come to the end. -/
theorem quoted_text_reads_back (t : Text) :
    ((quote t).length < Span.wordCount →
      ∃ literal stop : Token, tokenize (quote t) = ([literal, stop], []) ∧
        literal.kind = .string ∧ literal.text = quote t ∧ literal.pos = .start ∧
        stop.kind = .eof ∧ stop.pos.words.offset = (quote t).length ∧
        Grammar.stringOf literal = .string .start t (quote t)) ∧
    (Span.wordCount ≤ (quote t).length →
      (Position.start.advance ((quote t).take Span.wordCount)).words.offset = 0) := by
  refine ⟨fun hsize => ?_, fun hsize => Position.words_offset_wrap (Nat.zero_le _) ?_⟩
  · obtain ⟨htoken, hcursor, hreports⟩ := Cursor.next_quote t
    have hstring : (Cursor.ofText (quote t)).next.token.kind ≠ .eof := by
      rw [htoken]
      exact nofun
    have hend : (Cursor.ofText (quote t)).next.cursor.next.token.kind = .eof := by
      rw [hcursor]
      rfl
    have hlength : (quote t).length =
        (t.flatMap quoteByte ++ [Byte.doubleQuote]).length + 1 := rfl
    have htokens : tokenize (quote t) = _ := tokensFrom_next hstring _
    rw [hlength, tokensFrom_eof hend, htoken, hcursor, hreports] at htokens
    have hstop : (Position.start.advance (quote t)).words.offset = (quote t).length :=
      (Position.words_offset_advance (by rwa [Position.start, Nat.zero_add])).trans (Nat.zero_add _)
    refine ⟨_, _, htokens, rfl, rfl, rfl, rfl, hstop, ?_⟩
    rw [Grammar.stringOf, stringValue_quote]
  · rwa [Position.start, Nat.zero_add]

/-- A text with a quote, a backslash, the end of a line and a byte that is no text. -/
theorem quoted_bytes_read_back :
    quote [0x22, 0x5C, 0x0A, 0xFF] = [0x22, 0x5C, 0x22, 0x5C, 0x5C, 0x5C, 0x6E, 0xFF, 0x22] ∧
      ∃ literal stop : Token,
        tokenize [0x22, 0x5C, 0x22, 0x5C, 0x5C, 0x5C, 0x6E, 0xFF, 0x22] = ([literal, stop], []) ∧
        stop.pos.words.offset = 9 := by
  have hquote : quote [0x22, 0x5C, 0x0A, 0xFF] =
      [0x22, 0x5C, 0x22, 0x5C, 0x5C, 0x5C, 0x6E, 0xFF, 0x22] := by decide
  obtain ⟨literal, stop, htokens, -, -, -, -, hstop, -⟩ :=
    (quoted_text_reads_back [0x22, 0x5C, 0x0A, 0xFF]).1 (by decide +kernel)
  rw [hquote] at htokens hstop
  exact ⟨hquote, literal, stop, htokens, hstop⟩

/-! ## 4. Texts between tags -/

namespace Entity

/-- How a byte is written between tags: as it is, or as a reference that names it. -/
theorem escapeByte_cases (b : UInt8) :
    (escapeByte b = [b] ∧ b ≠ Byte.ampersand ∧ Cursor.isJsxText b = true) ∨
    ∃ name, escapeByte b = Byte.ampersand :: (name ++ [Byte.semicolon]) ∧
      Byte.semicolon ∉ name ∧ name.length < maxWidth ∧
      (∃ c, lookup? name = some c ∧ Utf8.encode c = [b]) ∧ name.all Cursor.isJsxText = true := by
  unfold escapeByte
  repeat' split
  · subst_vars
    exact .inr ⟨txt "amp", rfl, by decide, by decide, ⟨38, by decide, by decide⟩, by decide⟩
  · subst_vars
    exact .inr ⟨txt "lt", rfl, by decide, by decide, ⟨60, by decide, by decide⟩, by decide⟩
  · subst_vars
    exact .inr ⟨txt "gt", rfl, by decide, by decide, ⟨62, by decide, by decide⟩, by decide⟩
  · subst_vars
    exact .inr ⟨txt "#123", rfl, by decide, by decide, ⟨123, by decide, by decide⟩, by decide⟩
  · subst_vars
    exact .inr ⟨txt "#125", rfl, by decide, by decide, ⟨125, by decide, by decide⟩, by decide⟩
  · rename_i hampersand hless _ hbrace _
    exact .inl ⟨rfl, hampersand, by simp [Cursor.isJsxText, hless, hbrace]⟩

/-- No tag and no braces begin in what is written. -/
theorem isJsxText_of_mem_escape {t : Text} {b : UInt8} (hb : b ∈ escape t) :
    Cursor.isJsxText b = true := by
  obtain ⟨a, -, hb⟩ := List.mem_flatMap.mp hb
  rcases escapeByte_cases a with ⟨ha, -, htext⟩ | ⟨name, ha, -, -, -, hname⟩
  · rw [ha, List.mem_singleton] at hb
    exact hb ▸ htext
  · rw [ha, List.mem_cons, List.mem_append, List.mem_singleton] at hb
    rcases hb with rfl | hb | rfl
    · decide
    · exact List.all_eq_true.mp hname b hb
    · decide

/-- Its references stand for the text. -/
theorem decode_escape (t : Text) : decode (escape t) = t := by
  induction t with
  | nil => rfl
  | cons b t ih =>
    rw [escape, List.flatMap_cons, ← escape]
    rcases escapeByte_cases b with ⟨hb, hampersand, -⟩ | ⟨name, hb, hsemi, hwidth, ⟨c, hc, hbyte⟩, -⟩
    · rw [hb, List.singleton_append, decode_cons hampersand, ih]
    · have href : reference? (name ++ Byte.semicolon :: escape t) = some (c, name.length + 1) := by
        rw [reference?_append hsemi hwidth, hc]
        rfl
      rw [hb, List.cons_append, List.append_assoc, List.singleton_append, decode_reference href,
        hbyte, List.drop_length_add_append, List.drop_succ_cons, List.drop_zero, ih]
      rfl

end Entity

/-- **Texts between tags are read back.** What is written for a text, before the end of the source,
    a tag or an opening brace, is one run of text, and its references stand for the text. The run
    ends at the offset that a word holds for it, as it is one that words can count; with a longer one
    they are back at the start of the source before they come to its end. -/
theorem escaped_text_reads_back (c : Cursor) (t r : Text) (hrest : c.rest = Entity.escape t ++ r)
    (hr : r = [] ∨ r.head? = some Byte.less ∨ r.head? = some Byte.openBrace)
    (hpos : c.pos.offset < Span.wordCount) :
    (c.pos.offset + (Entity.escape t).length < Span.wordCount →
      c.jsxText.token.kind = .jsxText ∧ c.jsxText.token.text = Entity.escape t ∧
      c.jsxText.token.pos = c.pos ∧ c.jsxText.cursor.rest = r ∧ c.jsxText.reports = [] ∧
      c.jsxText.cursor.pos.words.offset = c.pos.offset + (Entity.escape t).length ∧
      Entity.decode c.jsxText.token.text = t) ∧
    (Span.wordCount ≤ c.pos.offset + (Entity.escape t).length →
      (c.pos.advance ((Entity.escape t).take (Span.wordCount - c.pos.offset))).words.offset = 0) := by
  have hstop : r.takeWhile Cursor.isJsxText = [] := by
    rcases hr with rfl | hr | hr
    · rfl
    · obtain ⟨r, rfl⟩ := List.head?_eq_some_iff.mp hr
      rfl
    · obtain ⟨r, rfl⟩ := List.head?_eq_some_iff.mp hr
      rfl
  have htext : c.jsxText.token.text = Entity.escape t := by
    rw [Cursor.jsxText, hrest]
    dsimp only
    rw [List.takeWhile_append_of_pos fun b hb => Entity.isJsxText_of_mem_escape hb, hstop,
      List.append_nil]
  have hcursor : c.jsxText.cursor.rest = c.rest.drop c.jsxText.token.text.length := rfl
  have hend : c.jsxText.cursor.pos = c.pos.advance c.jsxText.token.text := rfl
  refine ⟨fun hsize => ⟨rfl, htext, rfl, ?_, rfl, ?_, by rw [htext, Entity.decode_escape]⟩,
    Position.words_offset_wrap (Nat.le_of_lt hpos)⟩
  · rw [hcursor, htext, hrest, List.drop_left]
  · rw [hend, htext, Position.words_offset_advance hsize]

/-- A text that looks like a tag with a reference, before an expression in braces. -/
theorem written_tag_reads_back :
    (Cursor.ofText (Entity.escape (txt "<a>&lt;\x7b;\x7d") ++ txt "\x7bx\x7d")).jsxText.token.text =
        txt "&lt;a&gt;&amp;lt;&#123;;&#125;" ∧
      Entity.decode (txt "&lt;a&gt;&amp;lt;&#123;;&#125;") = txt "<a>&lt;\x7b;\x7d" := by
  have hwritten : Entity.escape (txt "<a>&lt;\x7b;\x7d") = txt "&lt;a&gt;&amp;lt;&#123;;&#125;" := by
    decide
  obtain ⟨-, htext, -, -, -, -, hdecode⟩ := (escaped_text_reads_back
    (.ofText (Entity.escape (txt "<a>&lt;\x7b;\x7d") ++ txt "\x7bx\x7d")) _ _ rfl
    (.inr (.inr (by decide))) (by decide +kernel)).1 (by decide +kernel)
  rw [htext] at hdecode
  exact ⟨htext.trans hwritten, hwritten ▸ hdecode⟩

end ReactiveScript
