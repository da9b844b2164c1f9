import ReactiveScript.Proofs.Token.Returns
import ReactiveScript.Proofs.Token.Tiling

/-!
# Line endings

The tokens of a source do not depend on how its lines end: with a carriage return before every line
feed, all tokens are of the same kind and stand in the same line and column, and as many faults are
found. There is one exception. In a string a backslash escapes one byte, so that it joins two lines
only if they end with a line feed alone; with two bytes the string is cut off by its line. The same
goes for the strings in the interpolations of a template.
-/

namespace ReactiveScript

open Text Trivia

/-! ## 1. Places -/

/-- The same line and column. -/
structure Position.Same (p q : Position) : Prop where
  line : q.line = p.line
  column : q.column = p.column

namespace Position

theorem Same.step {p q : Position} (h : p.Same q) (b : UInt8) : (p.step b).Same (q.step b) := by
  unfold Position.step
  split
  · exact ⟨congrArg (· + 1) h.line, rfl⟩
  · exact ⟨h.line, congrArg (· + 1) h.column⟩

/-- A line feed leads to the start of the next line, from wherever on the line. -/
theorem same_step_newline {p q : Position} (h : q.line = p.line) :
    (p.step Byte.newline).Same (q.step Byte.newline) := ⟨congrArg (· + 1) h, rfl⟩

theorem Same.advance {p q : Position} (h : p.Same q) (t : Text) :
    (p.advance t).Same (q.advance t.withReturns) := by
  induction t generalizing p q with
  | nil => exact h
  | cons b t ih =>
    by_cases hb : b = Byte.newline
    · subst hb
      have hreturn : (q.step Byte.carriageReturn).line = p.line := h.line
      exact ih (same_step_newline hreturn)
    · rw [withReturns_cons hb]
      exact ih (h.step b)

end Position

/-! ## 2. One token -/

namespace Trivia

/-- Trivia takes all line feeds there are. -/
theorem head?_drop_skipFrom (w : Within) (n : Nat) (breaks : Bool) (t : Text) :
    (t.drop ((skipFrom w n breaks t).width - n)).head? ≠ some Byte.newline := by
  have hstep : ∀ {w n breaks} {t : Text} (p : Text),
      (t.drop ((skipFrom w (n + p.length) breaks t).width - (n + p.length))).head? ≠ some Byte.newline →
      ((p ++ t).drop ((skipFrom w (n + p.length) breaks t).width - n)).head? ≠ some Byte.newline := by
    intro w n breaks t p h
    have hle := le_skipFrom_width w (n + p.length) breaks t
    rwa [List.drop_append, List.drop_eq_nil_of_le (by omega), List.nil_append, Nat.sub_sub]
  fun_induction skipFrom w n breaks t with
  | case1 | case2 | case13 => simp
  | case3 n breaks b rest _ ih | case11 n breaks b rest _ ih => exact hstep [b] ih
  | case4 n breaks rest _ ih | case10 n breaks rest ih | case12 n breaks rest _ ih =>
    exact hstep [Byte.newline] ih
  | case6 n breaks rest _ _ ih => exact hstep [Byte.slash, Byte.slash] ih
  | case7 n breaks rest _ _ _ ih => exact hstep [Byte.slash, Byte.star] ih
  | case5 n breaks _ hline | case8 n breaks _ _ _ _ _ hline => simp [hline]
  | case9 n breaks b rest _ hline => simp [hline]
  | case14 n breaks b _ _ c rest _ ih => exact hstep [b, c] ih
  | case15 n breaks b rest _ _ _ ih => exact hstep [b] ih

end Trivia

/-- The same place in a source and in the source with carriage returns. A string that is cut off by
    its line leaves the reader between the two bytes of the line end. -/
inductive Cursor.Returned (c d : Cursor) : Prop
  | whole (rest : d.rest = c.rest.withReturns) (place : c.pos.Same d.pos)
      (lineStart : d.lineStart = c.lineStart)
  | torn (t : Text) (rest : c.rest = Byte.newline :: t)
      (rest' : d.rest = Byte.newline :: t.withReturns)
      (line : d.pos.line = c.pos.line) (lineStart : d.lineStart = c.lineStart)

/-- What is seen of a token apart from its bytes. -/
def Token.row (t : Token) : Kind × Nat × Nat × Bool := (t.kind, t.pos.line, t.pos.column, t.lineStart)

/-- What is seen of it with its bytes. -/
def Token.spelt (t : Token) : (Kind × Nat × Nat × Bool) × Text := (t.row, t.text)

/-- A string that goes over a line end. -/
def Token.JoinsLines (t : Token) : Prop := t.kind = .string ∧ Byte.newline ∈ t.text

/-- A template with a string in an interpolation that goes over a line end. -/
def Token.JoinsInside (t : Token) : Prop :=
  t.kind = .template ∧ Nesting.continues [.body] (t.text.drop 1) = true

/-- A template whose text, with carriage returns, is not that of one template any more. -/
def Token.IsTorn (t : Token) : Prop := t.kind = .template ∧ Nesting.Torn t.text

instance : DecidablePred Token.JoinsLines := fun _ => inferInstanceAs (Decidable (_ ∧ _))

instance : DecidablePred Token.JoinsInside := fun _ => inferInstanceAs (Decidable (_ ∧ _))

instance : DecidablePred Token.IsTorn := fun _ => inferInstanceAs (Decidable (_ ∧ _))

namespace Cursor

variable {c d : Cursor}

theorem Returned.lineStart_eq (h : c.Returned d) : d.lineStart = c.lineStart := by
  cases h <;> assumption

/-- **The gap before the next token.** -/
theorem Returned.gap (h : c.Returned d) :
    d.afterGap = c.afterGap.withReturns ∧ (c.pos.advance c.gap).Same (d.pos.advance d.gap) ∧
      (skip d.rest).breaks = (skip c.rest).breaks ∧
      (skip d.rest).unclosed.isSome = (skip c.rest).unclosed.isSome := by
  cases h with
  | whole hrest hplace hstart =>
    obtain ⟨hwidth, hbreaks, hunclosed⟩ :=
      skipFrom_withReturns .space .space 0 0 false c.rest (.refl _)
    have hsplit : d.rest = c.gap.withReturns ++ c.afterGap.withReturns := by
      rw [hrest, ← withReturns_append, gap_append_afterGap]
    have hlength : (skip d.rest).width = c.gap.withReturns.length := by
      rw [Nat.zero_add, ← hrest] at hwidth
      exact hwidth
    have hgap : d.gap = c.gap.withReturns := by
      rw [Cursor.gap, hlength, hsplit, List.take_left]
    refine ⟨?_, ?_, by rw [hrest]; exact hbreaks, by rw [hrest]; exact hunclosed⟩
    · rw [afterGap, hlength, hsplit, List.drop_left]
    · rw [hgap]
      exact hplace.advance c.gap
  | torn t hrest hrest' hline hstart =>
    have hskip : skip c.rest = skipFrom .space 1 true t := by
      rw [hrest]
      exact skipFrom_newline .space 0 false t
    have hskip' : skip d.rest = skipFrom .space 1 true t.withReturns := by
      rw [hrest']
      exact skipFrom_newline .space 0 false t.withReturns
    obtain ⟨hwidth, hbreaks, hunclosed⟩ :=
      skipFrom_withReturns .space .space 1 1 true t (.refl _)
    obtain ⟨k, hk⟩ := Nat.exists_eq_add_of_le (le_skipFrom_width .space 1 true t)
    rw [hk, Nat.add_sub_cancel_left, Nat.add_comm] at hwidth
    have hsplit := withReturns_split t k
    have hgap : c.gap = Byte.newline :: t.take k := by
      rw [Cursor.gap, hskip, hk, hrest, Nat.add_comm, List.take_succ_cons]
    have hgap' : d.gap = Byte.newline :: withReturns (t.take k) := by
      rw [Cursor.gap, hskip', hwidth, hrest', List.take_succ_cons, hsplit, List.take_left]
    have hafter : c.afterGap = t.drop k := by
      rw [afterGap, hskip, hk, hrest, Nat.add_comm, List.drop_succ_cons]
    refine ⟨?_, ?_, by rw [hskip, hskip', hbreaks], by rw [hskip, hskip', hunclosed]⟩
    · rw [hafter, afterGap, hskip', hwidth, hrest', List.drop_succ_cons, hsplit, List.drop_left]
    · rw [hgap, hgap']
      exact (Position.same_step_newline hline).advance (t.take k)

/-- A token does not start with a line feed. -/
theorem ne_newline_of_afterGap {b : UInt8} {rest : Text} (h : c.afterGap = b :: rest) :
    b ≠ Byte.newline := by
  rintro rfl
  refine head?_drop_skipFrom .space 0 false c.rest ?_
  have hdrop : c.rest.drop (skip c.rest).width = Byte.newline :: rest := h
  rw [Nat.sub_zero, show skipFrom .space 0 false c.rest = skip c.rest from rfl, hdrop]
  rfl

/-- How many faults are found on the way to the next token and in it. -/
theorem length_next_reports (c : Cursor) :
    c.next.reports.length = (skip c.rest).unclosed.toList.length +
      match c.afterGap with
      | [] => 0
      | b :: rest => (Lexeme.scan b rest).faults.length := by
  cases h : c.afterGap with
  | nil =>
    have hdrop : c.rest.drop (skip c.rest).width = [] := h
    cases hopen : (skip c.rest).unclosed <;> simp [next, hdrop, hopen, locate]
  | cons b rest =>
    have hdrop : c.rest.drop (skip c.rest).width = b :: rest := h
    cases hopen : (skip c.rest).unclosed <;> simp [next, hdrop, hopen, locate, Nat.add_comm]

/-- The place behind a token. -/
theorem returned_after {t : Text} {l l' : Lexeme} (h : l.Returned t l') {p q : Position}
    (hplace : p.Same q) :
    Returned { rest := t.drop l.width, pos := p.advance (t.take l.width), lineStart := false }
      { rest := t.withReturns.drop l'.width, pos := q.advance (t.withReturns.take l'.width),
        lineStart := false } := by
  have hsplit := withReturns_split t l.width
  have hstop := hplace.advance (t.take l.width)
  rcases h.width with hwidth | ⟨-, hcut, hwidth⟩
  · refine .whole ?_ ?_ rfl
    · rw [hwidth, hsplit, List.drop_left]
    · rw [hwidth, hsplit, List.take_left]
      exact hstop
  · -- The token has taken the carriage return, which the line feed follows.
    obtain ⟨rest, hrest⟩ : ∃ rest, t.drop l.width = Byte.newline :: rest := by
      cases hdrop : t.drop l.width with
      | nil => simp [hdrop] at hcut
      | cons b rest =>
        rw [hdrop] at hcut
        exact ⟨rest, by rw [Option.some.inj hcut]⟩
    rw [hrest, withReturns_newline] at hsplit
    refine .torn rest hrest ?_ ?_ rfl
    · rw [hwidth, hsplit, ← List.drop_drop, List.drop_left]
      rfl
    · have htake : t.withReturns.take l'.width =
          withReturns (t.take l.width) ++ [Byte.carriageReturn] := by
        rw [hwidth, hsplit, List.take_length_add_append]
        rfl
      rw [htake, Position.advance_append]
      exact hstop.line

/-- **The next token with either line end**, if it is not torn, nor a string with a line end in it. -/
theorem Returned.next (h : c.Returned d) (hstring : ¬ c.next.token.JoinsLines)
    (htemplate : ¬ c.next.token.IsTorn) :
    d.next.token.row = c.next.token.row ∧ d.next.reports.length = c.next.reports.length ∧
      (c.next.reports = [] → d.next.token.text = c.next.token.text.withReturns) ∧
      c.next.cursor.Returned d.next.cursor := by
  obtain ⟨hafter, hplace, hbreaks, hunclosed⟩ := h.gap
  have hlines := h.lineStart_eq
  have hreports : (skip d.rest).unclosed.toList.length =
      (skip c.rest).unclosed.toList.length := by
    cases hc : (skip c.rest).unclosed <;> cases hd : (skip d.rest).unclosed <;>
      simp [hc, hd] at hunclosed ⊢
  rw [length_next_reports, length_next_reports, hreports, hafter]
  cases hrest : c.afterGap with
  | nil =>
    rw [hrest, withReturns_nil] at hafter
    obtain ⟨htoken, hcursor⟩ := next_of_nil hrest
    obtain ⟨htoken', hcursor'⟩ := next_of_nil hafter
    refine ⟨?_, rfl, fun _ => by rw [htoken, htoken']; rfl, ?_⟩
    · rw [htoken, htoken']
      simp only [Token.row, hplace.line, hplace.column, hlines, hbreaks]
    · rw [hcursor, hcursor']
      exact .whole rfl hplace rfl
  | cons b rest =>
    have hb := ne_newline_of_afterGap hrest
    rw [hrest, withReturns_cons hb] at hafter
    obtain ⟨htoken, hcursor⟩ := next_of_cons hrest
    obtain ⟨htoken', hcursor'⟩ := next_of_cons hafter
    rw [htoken] at hstring htemplate
    obtain ⟨hkind, hfaults, hwidth⟩ := Lexeme.scan_returned hb rest
      (fun hkind hline => hstring ⟨hkind, hline⟩)
      (fun hkind htorn => htemplate ⟨hkind, htorn⟩)
    refine ⟨?_, ?_, fun hclean => ?_, ?_⟩
    · rw [htoken, htoken']
      simp only [Token.row, hplace.line, hplace.column, hlines, hbreaks, hkind]
    · rw [withReturns_cons hb]
      simp only [hfaults]
    · have hwidth := hwidth.resolve_right fun hcut =>
        hcut.1 ((c.next_reports_eq_nil.mp hclean).2 b rest hrest)
      rw [htoken, htoken', hwidth, ← withReturns_cons hb,
        withReturns_split (b :: rest) (Lexeme.scan b rest).width, List.take_left]
    · rw [hcursor, hcursor', ← withReturns_cons hb]
      exact returned_after ⟨hkind, hfaults, hwidth⟩ hplace

/-- A string with a line end in it is faulty where lines end with two bytes. -/
theorem Returned.next_faulty (h : c.Returned d) (hjoins : c.next.token.JoinsLines) :
    d.next.reports ≠ [] := by
  obtain ⟨hkind, hline⟩ := hjoins
  obtain ⟨hafter, -⟩ := h.gap
  cases hrest : c.afterGap with
  | nil =>
    rw [(next_of_nil hrest).1] at hkind
    cases hkind
  | cons b rest =>
    rw [hrest, withReturns_cons (ne_newline_of_afterGap hrest)] at hafter
    rw [(next_of_cons hrest).1] at hkind hline
    intro hnil
    exact Lexeme.scan_faults hkind hline (d.next_reports_eq_nil.mp hnil |>.2 b _ hafter)

/-- A template is torn only if a line end is escaped in a string of it. -/
theorem joinsInside_of_isTorn (h : c.next.token.IsTorn) : c.next.token.JoinsInside := by
  obtain ⟨hkind, htorn⟩ := h
  refine ⟨hkind, ?_⟩
  rcases c.next_cases with ⟨_, htoken, _⟩ | ⟨b, rest, _, htoken, _⟩
  · rw [htoken] at hkind
    cases hkind
  · rw [htoken] at hkind htorn ⊢
    obtain ⟨rfl, hscan⟩ := (Lexeme.scan_readBy b rest).template hkind
    dsimp only at htorn ⊢
    rw [hscan] at htorn ⊢
    exact Lexeme.continues_of_torn htorn

/-- A template that was read without a fault is one by itself. -/
theorem closeFrom_text (hkind : c.next.token.kind = .template) (hclean : c.next.reports = []) :
    ∃ body, c.next.token.text = Byte.backtick :: body ∧
      Nesting.closeFrom [.body] 1 body = (body.length + 1, true) := by
  obtain ⟨body, more, htext, hclose⟩ := closed_template hkind (by simp [hclean])
  refine ⟨_, htext, ?_⟩
  rw [List.append_cons] at hclose
  simpa using Nesting.closeFrom_of_append _ _ _ _ _ rfl hclose (by simp; omega)

end Cursor

/-! ## 3. All tokens -/

theorem head_mem_tokensFrom (c : Cursor) (fuel : Nat) :
    c.next.token ∈ (tokensFrom (fuel + 1) [] [] c).1 := by
  by_cases h : c.next.token.kind = .eof
  · rw [tokensFrom_eof h]
    exact List.mem_singleton_self _
  · rw [tokensFrom_next h]
    exact List.mem_cons_self

theorem tokensFrom_reports_ne_nil {c : Cursor} (hfaulty : c.next.reports ≠ []) (fuel : Nat) :
    (tokensFrom (fuel + 1) [] [] c).2 ≠ [] := by
  by_cases h : c.next.token.kind = .eof
  · rw [tokensFrom_eof h]
    exact hfaulty
  · rw [tokensFrom_next h]
    exact fun hnil => hfaulty (List.append_eq_nil_iff.mp hnil).1

/-- **All tokens with either line end**: they are the same, or a string that joins lines is faulty
    with two bytes. Where no fault is found, their texts are the same too. -/
theorem tokensFrom_returned (fuel fuel' : Nat) {c d : Cursor} (h : c.Returned d)
    (hfuel : c.rest.length < fuel) (hfuel' : d.rest.length < fuel')
    (htemplates : ∀ t ∈ (tokensFrom fuel [] [] c).1, ¬ t.IsTorn) :
    ((∀ t ∈ (tokensFrom fuel [] [] c).1, ¬ t.JoinsLines) ∧
      ((tokensFrom fuel [] [] c).2 = [] → (tokensFrom fuel' [] [] d).1.map Token.spelt =
        (tokensFrom fuel [] [] c).1.map fun t => (t.row, t.text.withReturns)) ∧
      (tokensFrom fuel' [] [] d).1.map Token.row = (tokensFrom fuel [] [] c).1.map Token.row ∧
      (tokensFrom fuel' [] [] d).2.length = (tokensFrom fuel [] [] c).2.length) ∨
    ((∃ t ∈ (tokensFrom fuel [] [] c).1, t.JoinsLines) ∧ (tokensFrom fuel' [] [] d).2 ≠ []) := by
  -- The two sources are read in step, so the fuel of both is used up together.
  induction fuel generalizing fuel' c d with
  | zero => omega
  | succ fuel ih =>
    obtain ⟨fuel', rfl⟩ : ∃ k, fuel' = k + 1 := ⟨fuel' - 1, by omega⟩
    by_cases hjoins : c.next.token.JoinsLines
    · exact .inr ⟨⟨_, head_mem_tokensFrom c fuel, hjoins⟩,
        tokensFrom_reports_ne_nil (h.next_faulty hjoins) fuel'⟩
    have htorn := htemplates _ (head_mem_tokensFrom c fuel)
    obtain ⟨hrow, hreports, htext, hnext⟩ := h.next hjoins htorn
    have hspelt (hclean : c.next.reports = []) :
        d.next.token.spelt = (c.next.token.row, c.next.token.text.withReturns) := by
      rw [Token.spelt, hrow, htext hclean]
    have hkind : d.next.token.kind = c.next.token.kind := congrArg Prod.fst hrow
    by_cases hend : c.next.token.kind = .eof
    · rw [tokensFrom_eof hend, tokensFrom_eof (hkind.trans hend)]
      refine .inl ⟨fun t ht => ?_, fun hclean => ?_, ?_, hreports⟩
      · rwa [List.mem_singleton.mp ht]
      · rw [List.map_singleton, List.map_singleton, hspelt hclean]
      · rw [List.map_singleton, List.map_singleton, hrow]
    · have hend' : d.next.token.kind ≠ .eof := hkind ▸ hend
      have hlt := Cursor.next_rest_length_lt hend
      have hlt' := Cursor.next_rest_length_lt hend'
      rw [tokensFrom_next hend] at htemplates ⊢
      rw [tokensFrom_next hend']
      have hrest := ih fuel' hnext (by omega) (by omega)
        fun t ht => htemplates t (List.mem_cons_of_mem _ ht)
      rcases hrest with ⟨hnone, htexts, hrows, hlength⟩ | ⟨⟨t, ht, hlines⟩, hfaulty⟩
      · refine .inl ⟨?_, fun hclean => ?_, ?_, ?_⟩
        · intro t ht
          rcases List.mem_cons.mp ht with rfl | ht
          · exact hjoins
          · exact hnone t ht
        · obtain ⟨hfirst, hmore⟩ := List.append_eq_nil_iff.mp hclean
          rw [List.map_cons, List.map_cons, hspelt hfirst, htexts hmore]
        · rw [List.map_cons, List.map_cons, hrow, hrows]
        · rw [List.length_append, List.length_append, hreports, hlength]
      · exact .inr ⟨⟨t, List.mem_cons_of_mem _ ht, hlines⟩,
          fun hnil => hfaulty (List.append_eq_nil_iff.mp hnil).2⟩

/-- The same tokens, bytes apart, and as many faults. -/
def SameTokens (s s' : Text) : Prop :=
  (tokenize s').1.map Token.row = (tokenize s).1.map Token.row ∧
    (tokenize s').2.length = (tokenize s).2.length

instance (s s' : Text) : Decidable (SameTokens s s') := inferInstanceAs (Decidable (_ ∧ _))

/-- The same tokens, with the same bytes but for carriage returns, and as many faults. -/
def SameSpelling (s s' : Text) : Prop :=
  (tokenize s').1.map Token.spelt = (tokenize s).1.map (fun t => (t.row, t.text.withReturns)) ∧
    (tokenize s').2.length = (tokenize s).2.length

instance (s s' : Text) : Decidable (SameSpelling s s') := inferInstanceAs (Decidable (_ ∧ _))

theorem SameSpelling.sameTokens {s s' : Text} (h : SameSpelling s s') : SameTokens s s' := by
  refine ⟨?_, h.2⟩
  have hrows := congrArg (List.map Prod.fst) h.1
  rwa [List.map_map, List.map_map] at hrows

/-- No template is torn that is read as one template with carriage returns. -/
theorem SameSpelling.not_isTorn {s s' : Text} (h : SameSpelling s s') (hclean : (tokenize s).2 = [])
    {t : Token} (ht : t ∈ (tokenize s).1) : ¬ t.IsTorn := by
  rintro ⟨hkind, htorn⟩
  obtain ⟨t', ht', hspelt⟩ := List.mem_map.mp (h.1 ▸ List.mem_map_of_mem ht)
  obtain ⟨hrow, htext⟩ := Prod.mk.inj hspelt
  have hkind' : t'.kind = .template := (congrArg Prod.fst hrow).trans hkind
  have hclean' : (tokenize s').2 = [] := List.length_eq_zero_iff.mp (by rw [h.2, hclean]; rfl)
  obtain ⟨c, -, rfl, hc⟩ := exists_place_of_mem_tokenize ht
  obtain ⟨d, -, rfl, hd⟩ := exists_place_of_mem_tokenize ht'
  rw [hclean, List.subset_nil] at hc
  rw [hclean', List.subset_nil] at hd
  obtain ⟨body, hbody, hclose⟩ := Cursor.closeFrom_text hkind hc
  obtain ⟨body', hbody', hclose'⟩ := Cursor.closeFrom_text hkind' hd
  rw [hbody, hbody', withReturns_cons (by decide), List.cons.injEq] at htext
  rw [hbody, Lexeme.torn_cons, ← htext.2, hclose, hclose'] at htorn
  exact htorn rfl

/-- **Tokens do not depend on how lines end**, but for strings that join lines. A template is torn
    only by such a string in one of its interpolations. Tokens and faults are the same with a
    carriage return before every line feed if no string token goes over a line end and no template
    is torn. If no fault is found in the source, then only so are the bytes of the tokens the same
    too; and, with no template torn, the tokens. -/
theorem tokenize_withReturns (source : Text) :
    (∀ t ∈ (tokenize source).1, t.IsTorn → t.JoinsInside) ∧
    ((∀ t ∈ (tokenize source).1, ¬ t.JoinsLines ∧ ¬ t.IsTorn) →
      SameTokens source source.withReturns) ∧
    ((tokenize source).2 = [] →
      ((∀ t ∈ (tokenize source).1, ¬ t.IsTorn) →
        (SameTokens source source.withReturns ↔ ∀ t ∈ (tokenize source).1, ¬ t.JoinsLines)) ∧
      (SameSpelling source source.withReturns ↔
        ∀ t ∈ (tokenize source).1, ¬ t.JoinsLines ∧ ¬ t.IsTorn)) := by
  have hstart : (Cursor.ofText source).Returned (Cursor.ofText source.withReturns) :=
    .whole rfl ⟨rfl, rfl⟩ rfl
  have hrun := tokensFrom_returned (source.length + 1) (source.withReturns.length + 1) hstart
    (Nat.lt_succ_self _) (Nat.lt_succ_self _)
  have hsame (h : ∀ t ∈ (tokenize source).1, ¬ t.JoinsLines ∧ ¬ t.IsTorn) :
      SameTokens source source.withReturns ∧
        ((tokenize source).2 = [] → SameSpelling source source.withReturns) := by
    rcases hrun fun t ht => (h t ht).2 with ⟨-, htexts, hsame⟩ | ⟨⟨t, ht, hjoins⟩, -⟩
    · exact ⟨hsame, fun hclean => ⟨htexts hclean, hsame.2⟩⟩
    · exact absurd hjoins (h t ht).1
  have hjoins (hclean : (tokenize source).2 = []) (htorn : ∀ t ∈ (tokenize source).1, ¬ t.IsTorn)
      (h : SameTokens source source.withReturns) : ∀ t ∈ (tokenize source).1, ¬ t.JoinsLines := by
    rcases hrun htorn with ⟨hnone, -⟩ | ⟨-, hfaulty⟩
    · exact hnone
    · -- The source has no faults, so there can be none with carriage returns.
      have hlength := h.2
      rw [hclean, List.length_nil] at hlength
      exact absurd (List.length_eq_zero_iff.mp hlength) hfaulty
  refine ⟨fun t ht htorn => ?_, fun h => (hsame h).1, fun hclean => ⟨fun htorn => ?_, ?_⟩⟩
  · obtain ⟨c, -, rfl, -⟩ := exists_place_of_mem_tokenize ht
    exact Cursor.joinsInside_of_isTorn htorn
  · exact ⟨hjoins hclean htorn, fun h => (hsame fun t ht => ⟨h t ht, htorn t ht⟩).1⟩
  · refine ⟨fun h t ht => ?_, fun h => (hsame h).2 hclean⟩
    have htorn : ∀ t ∈ (tokenize source).1, ¬ t.IsTorn := fun _ => h.not_isTorn hclean
    exact ⟨hjoins hclean htorn h.sameTokens t ht, htorn t ht⟩

/-- A template over two lines, a comment, and a string that is cut off by its line. -/
def manyLines : Text := txt "a = `x$\x7b\n\"b\"\x7d\n` // c\n/* d\n*/ \"e\n  f"

/-- A string over two lines. -/
def joinedLines : Text := txt "\"a\\\nb\""

/-- A string over two lines in a template. -/
def joinedInside : Text := txt "`$\x7b\"a\\\nb\"\x7d`"

/-- A string over two lines in a template that is none the longer with carriage returns. -/
def joinedAlike : Text := txt "`$\x7b\"a\\\n\"\x7d\"\x7d`"

/-- Without strings over lines all stays the same, faults included. The string over two lines is
    faulty with carriage returns. The one template is not closed any more, and the other is. -/
theorem sample_line_ends :
    SameTokens manyLines manyLines.withReturns ∧ (tokenize manyLines).2 ≠ [] ∧
    (tokenize joinedLines).2 = [] ∧ ¬ SameTokens joinedLines joinedLines.withReturns ∧
    (tokenize joinedInside).2 = [] ∧ ¬ SameTokens joinedInside joinedInside.withReturns ∧
    (∃ t ∈ (tokenize joinedAlike).1, t.JoinsInside) ∧
      SameTokens joinedAlike joinedAlike.withReturns := by
  have hmany := (tokenize_withReturns manyLines).2.1 (by decide +kernel)
  have hclean : (tokenize joinedLines).2 = [] := by decide +kernel
  have hjoined := ((tokenize_withReturns joinedLines).2.2 hclean).1 (by decide +kernel)
  have halike := (tokenize_withReturns joinedAlike).2.1 (by decide +kernel)
  refine ⟨hmany, by decide +kernel, hclean, fun hsame => ?_, by decide +kernel, by decide +kernel,
    by decide +kernel, halike⟩
  exact absurd (hjoined.mp hsame) (by decide +kernel)

end ReactiveScript
