import ReactiveScript.Proofs.Token.Names
import ReactiveScript.Proofs.Token.Quoting

/-!
# Sources without lexical faults

The scanners report a fault at many exits and go on. If none is reported in a source, then every word,
modifier, string and template among its tokens is spelt as the grammar has it.
-/

namespace ReactiveScript

/-- **The spelling of a token.** Words and modifiers also end where no byte could continue them. -/
structure Token.WellSpelt (t : Token) (after : Text) : Prop where
  valid : t.kind ≠ .invalid
  word : t.kind.isPropertyName = true →
    Text.isName t.text = true ∧ t.kind = Kind.ofWord t.text ∧ Text.isApart after = true
  modifier : t.kind = .modifier →
    ∃ name, t.text = Byte.atSign :: name ∧ Text.isName name = true ∧ Text.isApart after = true
  string : t.kind = .string → ∃ quote body, (quote = Byte.doubleQuote ∨ quote = Byte.singleQuote) ∧
    t.text = quote :: (body ++ [quote]) ∧ StringBody quote true body
  template : t.kind = .template →
    ∃ body, t.text = Byte.backtick :: (body ++ [Byte.backtick]) ∧ TemplateBody body

/-! ## 1. One token -/

namespace Lexeme

variable {b : UInt8} {rest : Text}

theorem take_nameLength (t : Text) : t.take (nameLength t) = t.takeWhile Byte.isNamePart :=
  (List.prefix_iff_eq_take.mp (List.takeWhile_prefix _)).symm

/-- A name is taken as long as it goes. -/
theorem isApart_drop_nameLength (t : Text) : Text.isApart (t.drop (nameLength t)) = true := by
  have hstop := List.head?_dropWhile_not Byte.isNamePart t
  rw [nameLength, Text.drop_length_takeWhile, Text.isApart]
  cases h : (t.dropWhile Byte.isNamePart).head? with
  | none => rfl
  | some b =>
    rw [h] at hstop
    simp [hstop]

theorem isName_take_nameLength (h : Byte.isNameStart b = true) :
    Text.isName ((b :: rest).take (nameLength (b :: rest))) = true := by
  have hb := isNamePart_of_isNameStart h
  rw [take_nameLength, List.takeWhile_cons_of_pos hb]
  simp [Text.isName, h, hb]

/-- What is no token is a fault. -/
theorem scan_faults_of_invalid (h : (scan b rest).kind = .invalid) : (scan b rest).faults ≠ [] := by
  have hscans := scan_scans b rest
  generalize scan b rest = l at h hscans
  cases hscans with
  | word =>
    have hword := isPropertyName_word (b :: rest)
    rw [h] at hword
    cases hword
  | number => rw [number_kind] at h; cases h
  | string => rw [stringFrom_kind] at h; cases h
  | template => cases h
  | modifier =>
    unfold modifier at h ⊢
    grind
  | punct => cases h
  | stray =>
    unfold stray
    grind

/-- A modifier is a sign and a name. -/
theorem modifier_spelt (h : (modifier rest).kind = .modifier) :
    (∃ name, (Byte.atSign :: rest).take (modifier rest).width = Byte.atSign :: name ∧
      Text.isName name = true) ∧
    Text.isApart ((Byte.atSign :: rest).drop (modifier rest).width) = true := by
  cases rest with
  | nil => cases h
  | cons c rest =>
    by_cases hc : Byte.isNameStart c = true
    · have hmodifier : modifier (c :: rest) =
          { kind := .modifier, width := 1 + nameLength (c :: rest) } := if_pos hc
      rw [hmodifier, Nat.add_comm]
      exact ⟨⟨_, rfl, isName_take_nameLength hc⟩, isApart_drop_nameLength _⟩
    · have hmodifier : modifier (c :: rest) =
          { kind := .invalid, width := 1, faults := [(0, .modifierName)] } := if_neg hc
      rw [hmodifier] at h
      cases h

/-- A body with its two quotes is what stands before the rest. -/
theorem take_quoted (quote : UInt8) (body more : Text) :
    (quote :: (body ++ quote :: more)).take (1 + body.length + 1) = quote :: (body ++ [quote]) := by
  have hlength : (body ++ [quote]).length = 1 + body.length := by simp [Nat.add_comm]
  rw [List.take_succ_cons, List.append_cons, List.take_left' hlength]

/-- A string without faults is a body between two quotes. -/
theorem string_spelt (hb : b = Byte.doubleQuote ∨ b = Byte.singleQuote)
    (hfaults : (stringFrom b 1 [] rest).faults = []) :
    ∃ body, (b :: rest).take (stringFrom b 1 [] rest).width = b :: (body ++ [b]) ∧
      StringBody b true body := by
  have hhex : Byte.isHex b = false := by rcases hb with rfl | rfl <;> decide
  obtain ⟨body, more, rfl, hbody, hwidth⟩ := stringBody_of_faults_eq_nil hhex hfaults
  exact ⟨body, by rw [hwidth, take_quoted], hbody⟩

/-- A template without faults is a body between two backticks. -/
theorem template_spelt (hfaults : (template rest).faults = []) :
    ∃ body, (Byte.backtick :: rest).take (template rest).width =
      Byte.backtick :: (body ++ [Byte.backtick]) ∧ TemplateBody body := by
  have hclosed : (Nesting.closeFrom [.body] 1 rest).2 = true := by
    simp only [template] at hfaults
    grind
  obtain ⟨body, more, rfl, hbody, hwidth⟩ := Nesting.templateBody_of_closeFrom hclosed
  exact ⟨body, by simp only [template, hwidth, take_quoted], hbody⟩

/-- **A token without faults is well spelt.** -/
theorem scan_wellSpelt (hfaults : (scan b rest).faults = []) (p : Position) (lineStart : Bool) :
    Token.WellSpelt
      { kind := (scan b rest).kind, text := (b :: rest).take (scan b rest).width, pos := p,
        lineStart := lineStart }
      ((b :: rest).drop (scan b rest).width) where
  valid h := scan_faults_of_invalid h hfaults
  word h := by
    obtain ⟨hb, hscan⟩ := (scan_readBy b rest).word h
    rw [hscan]
    exact ⟨isName_take_nameLength hb, rfl, isApart_drop_nameLength _⟩
  modifier h := by
    obtain ⟨rfl, hscan⟩ := (scan_readBy b rest).modifier h
    rw [hscan] at h ⊢
    obtain ⟨⟨name, htext, hname⟩, hapart⟩ := modifier_spelt h
    exact ⟨name, htext, hname, hapart⟩
  string h := by
    obtain ⟨hb, hscan⟩ := (scan_readBy b rest).string h
    rw [hscan] at hfaults ⊢
    obtain ⟨body, htext, hbody⟩ := string_spelt hb hfaults
    exact ⟨b, body, hb, htext, hbody⟩
  template h := by
    obtain ⟨rfl, hscan⟩ := (scan_readBy b rest).template h
    rw [hscan] at hfaults ⊢
    exact template_spelt hfaults

end Lexeme

/-- The next token, if nothing is reported. -/
theorem Cursor.next_wellSpelt {c : Cursor} (h : c.next.reports = []) :
    c.next.token.WellSpelt c.next.cursor.rest := by
  rcases c.next_cases with ⟨_, ht, hc⟩ | ⟨b, rest, hrest, ht, hc⟩
  · rw [ht]
    constructor <;> intro hkind <;> cases hkind
  · rw [hc, ht]
    exact Lexeme.scan_wellSpelt ((c.next_reports_eq_nil.mp h).2 b rest hrest) _ _

/-! ## 2. All tokens -/

/-- **Without lexical faults every token is well spelt.** -/
theorem tokens_wellSpelt (source : Text) (h : (tokenize source).2 = []) :
    ∀ t ∈ (tokenize source).1, t.WellSpelt (source.drop t.stop) := by
  intro t ht
  obtain ⟨c, hc, rfl, hreports⟩ := exists_place_of_mem_tokenize ht
  rw [h] at hreports
  rw [hc.drop_stop]
  exact Cursor.next_wellSpelt (List.subset_nil.mp hreports)

/-- A source with a name, a keyword, a modifier, a string with escapes, and a template in the
    interpolation of another. -/
def quotedSource : Text :=
  txt "@computed a_1 = 'it\\'s \\x41' + `$5 $\x7b f(`\x7d $\x7b \x7b k: \"\x7d\" \x7d.k \x7d`) \x7d " ++
  txt "\\``\ntypeof a_1"

theorem quotedSource_wellSpelt : (tokenize quotedSource).2 = [] ∧
    ∀ t ∈ (tokenize quotedSource).1, t.WellSpelt (quotedSource.drop t.stop) := by
  have hquiet : (tokenize quotedSource).2 = [] := by decide +kernel
  exact ⟨hquiet, tokens_wellSpelt quotedSource hquiet⟩

end ReactiveScript
