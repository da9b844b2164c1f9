import ReactiveScript.Proofs.Source.Lines
import ReactiveScript.Proofs.Token.Scanning

/-!
# Tokens in their source

A cursor that lies in a source reads tokens that lie in it, and its faults lie there too: each at
the position that belongs to its offset.
-/

namespace ReactiveScript

variable {source : Text}

/-- A place of the source: a position of it, and all that is left from there. -/
structure Cursor.IsIn (source : Text) (c : Cursor) : Prop where
  pos : c.pos.IsIn source
  rest_eq : c.rest = source.drop c.pos.offset

/-- A token of the source, with the text that stands at its position. -/
structure Token.IsIn (source : Text) (t : Token) : Prop where
  pos : t.pos.IsIn source
  text : t.text <+: source.drop t.pos.offset
  spelt : ∀ p, t.kind = .punct p → t.text = p.spelling

/-- What was read from a place of the source lies in it. -/
structure Scanned.IsIn (source : Text) (r : Scanned) : Prop where
  token : r.token.IsIn source
  cursor : r.cursor.IsIn source
  reports : ∀ report ∈ r.reports, report.pos.IsIn source

/-! ## 1. Reading on -/

theorem Token.IsIn.stop_le {t : Token} (h : t.IsIn source) : t.stop ≤ source.length := by
  have hlength := h.text.length_le
  have hoffset := h.pos.offset_le
  rw [List.length_drop] at hlength
  unfold Token.stop
  omega

namespace Cursor

theorem isIn_ofText (source : Text) : (ofText source).IsIn source :=
  ⟨Position.isIn_start source, rfl⟩

theorem isIn_place {p : Position} (h : p.IsIn source) : (place source p).IsIn source := ⟨h, rfl⟩

variable {c : Cursor} (h : c.IsIn source)
include h

/-- The place behind the next bytes. -/
theorem IsIn.skip {w rest : Text} (hw : w ++ rest = c.rest) (lineStart : Bool) :
    IsIn source { rest := rest, pos := c.pos.advance w, lineStart := lineStart } := by
  have hdrop : w ++ rest = source.drop c.pos.offset := hw.trans h.rest_eq
  refine ⟨h.pos.advance ⟨rest, hdrop⟩, ?_⟩
  rw [Position.advance_offset, ← List.drop_drop, ← hdrop, List.drop_left]

/-- A position among the next bytes. -/
theorem IsIn.advance_take (n : Nat) : (c.pos.advance (c.rest.take n)).IsIn source :=
  h.pos.advance (h.rest_eq ▸ List.take_prefix n c.rest)

/-- Faults among the next bytes are reported where they lie. -/
theorem IsIn.locate (faults : List (Nat × LexFault)) {report : Report}
    (hreport : report ∈ Cursor.locate c.pos c.rest faults) : report.pos.IsIn source := by
  obtain ⟨f, _, rfl⟩ := List.mem_map.mp hreport
  exact h.advance_take f.1

/-- The place behind the trivia. -/
theorem IsIn.afterGap : IsIn source { c with rest := c.afterGap, pos := c.pos.advance c.gap } :=
  h.skip c.gap_append_afterGap c.lineStart

omit h in
/-- What is reported with the next token is found in the trivia before it, or in the token. -/
theorem mem_next_reports {report : Report} (hreport : report ∈ c.next.reports) :
    (∃ faults, report ∈ locate c.pos c.rest faults) ∨
      ∃ faults, report ∈ locate (c.pos.advance c.gap) c.afterGap faults := by
  simp only [next] at hreport
  split at hreport
  · split at hreport
    · exact .inl ⟨_, hreport⟩
    · cases hreport
  · rename_i hrest
    rcases List.mem_append.mp hreport with hreport | hreport
    · split at hreport
      · exact .inl ⟨_, hreport⟩
      · cases hreport
    · rw [← hrest] at hreport
      exact .inr ⟨_, hreport⟩

theorem IsIn.next_reports {report : Report} (hreport : report ∈ c.next.reports) :
    report.pos.IsIn source := by
  rcases mem_next_reports hreport with ⟨_, hreport⟩ | ⟨_, hreport⟩
  · exact h.locate _ hreport
  · exact h.afterGap.locate _ hreport

/-- **The next token lies in the source.** -/
theorem IsIn.next : Scanned.IsIn source c.next := by
  have hgap := h.afterGap
  rcases c.next_cases with ⟨hrest, htoken, hcursor⟩ | ⟨b, rest, hrest, htoken, hcursor⟩
  · refine ⟨⟨?_, ?_, ?_⟩, ?_, fun _ => h.next_reports⟩
    · rw [htoken]
      exact hgap.pos
    · rw [htoken]
      exact List.nil_prefix
    · intro p hp
      rw [htoken] at hp
      cases hp
    · rw [hcursor, ← hrest]
      exact ⟨hgap.pos, hgap.rest_eq⟩
  · rw [hrest] at hgap
    refine ⟨⟨?_, ?_, ?_⟩, ?_, fun _ => h.next_reports⟩
    · rw [htoken]
      exact hgap.pos
    · rw [htoken]
      exact hgap.rest_eq ▸ List.take_prefix _ _
    · intro p hp
      rw [htoken] at hp ⊢
      exact Lexeme.scan_spelling hp
    · rw [hcursor]
      exact hgap.skip (List.take_append_drop _ _) false

/-- The text between tags lies in the source. -/
theorem IsIn.jsxText : Scanned.IsIn source c.jsxText := by
  have hsplit : c.rest.takeWhile isJsxText ++ c.rest.drop (c.rest.takeWhile isJsxText).length =
      c.rest := by
    have htake := List.prefix_iff_eq_take.mp (List.takeWhile_prefix isJsxText (l := c.rest))
    calc c.rest.takeWhile isJsxText ++ c.rest.drop (c.rest.takeWhile isJsxText).length
      _ = c.rest.take (c.rest.takeWhile isJsxText).length ++
            c.rest.drop (c.rest.takeWhile isJsxText).length := by rw [← htake]
      _ = c.rest := List.take_append_drop _ _
  refine ⟨⟨h.pos, ?_, fun p hp => by cases hp⟩, h.skip hsplit _, fun r hr => by cases hr⟩
  exact h.rest_eq ▸ List.takeWhile_prefix isJsxText

end Cursor

/-- The next token lies after the cursor, and the cursor behind it at its end. -/
theorem Cursor.next_offset (c : Cursor) :
    c.pos.offset ≤ c.next.token.offset ∧ c.next.cursor.pos.offset = c.next.token.stop := by
  rcases c.next_cases with ⟨_, ht, hc⟩ | ⟨b, rest, _, ht, hc⟩ <;> rw [ht, hc] <;>
    simp [Token.offset, Token.stop]

/-- What is left behind the next token stands in the source at its end. -/
theorem Cursor.IsIn.drop_stop {c : Cursor} (h : c.IsIn source) :
    source.drop c.next.token.stop = c.next.cursor.rest := by
  rw [← c.next_offset.2, ← h.next.cursor.rest_eq]

/-- Every token from a place on is the next one at some place, and what is found there is found. -/
theorem exists_place_of_mem_tokensFrom {fuel : Nat} {c : Cursor} (hc : c.IsIn source) {t : Token}
    (ht : t ∈ (tokensFrom fuel [] [] c).1) :
    ∃ d : Cursor, d.IsIn source ∧ d.next.token = t ∧
      d.next.reports ⊆ (tokensFrom fuel [] [] c).2 := by
  induction fuel generalizing c with
  | zero => cases ht
  | succ fuel ih =>
    by_cases hend : c.next.token.kind = .eof
    · rw [tokensFrom_eof hend] at ht ⊢
      exact ⟨c, hc, (List.mem_singleton.mp ht).symm, List.Subset.refl _⟩
    · rw [tokensFrom_next hend] at ht ⊢
      rcases List.mem_cons.mp ht with rfl | ht
      · exact ⟨c, hc, rfl, List.subset_append_left _ _⟩
      · obtain ⟨d, hd, htoken, hreports⟩ := ih hc.next.cursor ht
        exact ⟨d, hd, htoken, List.Subset.trans hreports (List.subset_append_right _ _)⟩

/-- **Every token of a source is read at a place of it.** -/
theorem exists_place_of_mem_tokenize {t : Token} (ht : t ∈ (tokenize source).1) :
    ∃ d : Cursor, d.IsIn source ∧ d.next.token = t ∧ d.next.reports ⊆ (tokenize source).2 :=
  exists_place_of_mem_tokensFrom (Cursor.isIn_ofText source) ht

/-! ## 2. Going back into a token -/

/-- Bytes on one line move a position to the right. -/
theorem Position.advance_eq_of_noNewline (p : Position) {w : Text} (hw : Byte.newline ∉ w) :
    p.advance w = ⟨p.offset + w.length, p.line, p.column + w.length⟩ := by
  induction w generalizing p with
  | nil => rfl
  | cons b w ih =>
    rw [List.mem_cons, not_or] at hw
    rw [advance_cons, step, if_neg (Ne.symm hw.1), ih _ hw.2, List.length_cons]
    simp only [Position.mk.injEq, true_and]
    omega

/-- The place some bytes into a token, these bytes lying on one line. -/
theorem Token.IsIn.inside {t : Token} (h : t.IsIn source) {w : Text} (hw : w <+: t.text)
    (hline : Byte.newline ∉ w) : (Cursor.inside source t w.length).IsIn source := by
  unfold Cursor.inside
  rw [← Position.advance_eq_of_noNewline t.pos hline]
  exact Cursor.isIn_place (h.pos.advance (hw.trans h.text))

end ReactiveScript
