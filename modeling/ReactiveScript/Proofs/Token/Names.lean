import ReactiveScript.Proofs.Token.Tiling

/-!
# The names among the tokens

The texts of the identifier tokens: reading one token takes its name off the front, and a word that
was read is of the kind that its text says.
-/

namespace ReactiveScript

/-- The name that a token is, if it is one. -/
def Token.names (t : Token) : List Text := if t.kind = .identifier then [t.text] else []

theorem Token.names_of_ne {t : Token} (h : t.kind ≠ .identifier) : t.names = [] := if_neg h

/-- The names from a place on. -/
def Cursor.names (c : Cursor) : List Text :=
  if _h : c.next.token.kind = .eof then [] else c.next.token.names ++ names c.next.cursor
termination_by c.rest.length
decreasing_by exact next_rest_length_lt ‹_›

/-- At the end of the source there are no names. -/
theorem Cursor.names_of_eof {c : Cursor} (h : c.next.token.kind = .eof) : c.names = [] := by
  rw [names, dif_pos h]

/-- Only trivia is left before the end of the source. -/
theorem Cursor.afterGap_of_eof {c : Cursor} (h : c.next.token.kind = .eof) : c.afterGap = [] := by
  rcases c.next_cases with ⟨hend, _⟩ | ⟨b, rest, _, ht, _⟩
  · exact hend
  · have hscan := Lexeme.scan_kind b rest
    rw [ht] at h
    simp only at h
    rw [h] at hscan
    cases hscan

/-- Nothing is left behind the end of the source. -/
theorem Cursor.rest_after_eof {c : Cursor} (h : c.next.token.kind = .eof) :
    c.next.cursor.rest = [] := by
  rcases c.next_cases with ⟨_, _, hc⟩ | ⟨b, rest, hrest, _⟩
  · rw [hc]
  · rw [afterGap_of_eof h] at hrest
    cases hrest

/-- Behind the end of the source the end follows again. -/
theorem Cursor.names_after_eof {c : Cursor} (h : c.next.token.kind = .eof) :
    c.next.cursor.names = [] := by
  have hrest := rest_after_eof h
  refine names_of_eof ?_
  rcases c.next.cursor.next_cases with ⟨_, ht, _⟩ | ⟨b, rest, hafter, _, _⟩
  · rw [ht]
  · rw [afterGap, hrest] at hafter
    simp at hafter

/-- The next token takes its name off the front. -/
theorem Cursor.names_eq (c : Cursor) : c.names = c.next.token.names ++ c.next.cursor.names := by
  by_cases h : c.next.token.kind = .eof
  · rw [names_of_eof h, names_after_eof h, Token.names_of_ne (by simp [h])]
    rfl
  · rw [names, dif_neg h]

/-- The tokenizer adds the names from the cursor on to those of the tokens it has. -/
theorem tokensFrom_names (fuel : Nat) (tokens : List Token) (reports : List Report) (c : Cursor)
    (hfuel : c.rest.length < fuel) :
    (tokensFrom fuel tokens reports c).1.flatMap Token.names =
      tokens.reverse.flatMap Token.names ++ c.names := by
  induction fuel generalizing tokens reports c with
  | zero => omega
  | succ fuel ih =>
    rw [tokensFrom]
    by_cases hkind : c.next.token.kind = .eof
    · have hnames : c.next.token.names = [] := Token.names_of_ne (by simp [hkind])
      simp [hkind, Cursor.names_of_eof hkind, hnames]
    · have hlt := Cursor.next_rest_length_lt hkind
      have hrest := ih (c.next.token :: tokens) (c.next.reports.reverse ++ reports) c.next.cursor
        (by omega)
      rw [if_neg hkind, hrest, c.names_eq]
      simp

/-- **The names of all tokens of a source.** -/
theorem tokenize_names (source : Text) :
    (tokenize source).1.flatMap Token.names = (Cursor.ofText source).names := by
  have h := tokensFrom_names (source.length + 1) [] [] (Cursor.ofText source) (Nat.lt_succ_self _)
  exact h

/-! ## Words -/

/-- A word is of the kind that its text says. -/
def Token.Named (t : Token) : Prop :=
  t.kind.isPropertyName = true → t.kind = Kind.ofWord t.text ∧ t.text ≠ []

theorem Cursor.next_named (c : Cursor) : c.next.token.Named := by
  intro h
  rcases c.next_cases with ⟨_, ht, _⟩ | ⟨b, rest, _, ht, _⟩
  · rw [ht] at h
    cases h
  · rw [ht] at h ⊢
    obtain ⟨-, hscan⟩ := (Lexeme.scan_readBy b rest).word h
    refine ⟨by rw [hscan]; rfl, ?_⟩
    have hpos := Lexeme.scan_width_pos b rest
    simp only [ne_eq, List.take_eq_nil_iff, reduceCtorEq, or_false]
    omega

end ReactiveScript
