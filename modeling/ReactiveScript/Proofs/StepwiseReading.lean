import ReactiveScript.Proofs.Token.Located

/-!
# Reading a source step by step

A source may be read in any order: token by token, as text between tags, again from a place that was
remembered, or on from inside a token that was read before. The counters for offset, line and column
go on from whatever the last step left. They are words of 32 bits, and whichever way they were
driven, they hold what the line map finds for the offset.
-/

namespace ReactiveScript

variable {source : Text}

/-! ## 1. Positions in words -/

namespace Position

theorem words_step {p q : Position} (h : p.words = q.words) (b : UInt8) :
    (p.step b).words = (q.step b).words := by
  simp only [words, mk.injEq] at h
  unfold step
  split
  · simp only [words, Nat.add_mod p.offset, Nat.add_mod p.line, h, ← Nat.add_mod]
  · simp only [words, Nat.add_mod p.offset, Nat.add_mod p.column, h, ← Nat.add_mod]

/-- Words go on from words. -/
theorem words_advance {p q : Position} (h : p.words = q.words) (t : Text) :
    (p.advance t).words = (q.advance t).words := by
  induction t generalizing p q with
  | nil => exact h
  | cons b t ih => exact ih (words_step h b)

/-- A byte moves the line and the column on by one at most. -/
theorem advance_le {p : Position} (hline : p.line ≤ p.offset + 1) (hcolumn : p.column ≤ p.offset + 1)
    (t : Text) :
    (p.advance t).line ≤ (p.advance t).offset + 1 ∧
      (p.advance t).column ≤ (p.advance t).offset + 1 := by
  induction t generalizing p with
  | nil => exact ⟨hline, hcolumn⟩
  | cons b t ih =>
    refine ih ?_ ?_ <;> unfold step <;> split <;> simp only <;> omega

theorem IsIn.line_le {p : Position} (h : p.IsIn source) : p.line ≤ p.offset + 1 := by
  obtain ⟨n, _, rfl⟩ := h
  exact (advance_le (p := start) (Nat.le_refl 1) (Nat.le_refl 1) _).1

/-- **A position as a reader of the source holds it**: in words it is what the line map finds for its
    offset, and its line and column are no larger than the bytes in front of it account for. -/
structure Counted (source : Text) (p : Position) : Prop where
  offset_le : p.offset ≤ source.length
  words_eq : p.words = ((LineMap.ofText source).position p.offset).words
  line_le : p.line ≤ p.offset + 1
  column_le : p.column ≤ p.offset + 1

theorem counted_start (source : Text) : start.Counted source where
  offset_le := Nat.zero_le _
  words_eq := by rw [(isIn_iff.mp (isIn_start source)).2]
  line_le := Nat.le_refl 1
  column_le := Nat.le_refl 1

namespace Counted
variable {p : Position} (h : p.Counted source)
include h

/-- Counting on over bytes of the source. -/
theorem advance {t : Text} (ht : t <+: source.drop p.offset) : (p.advance t).Counted source := by
  obtain ⟨hline, hcolumn⟩ := advance_le h.line_le h.column_le t
  have hfound := (isIn_position h.offset_le).advance ht
  obtain ⟨hle, hposition⟩ := isIn_iff.mp hfound
  have hoffset : (((LineMap.ofText source).position p.offset).advance t).offset =
      (p.advance t).offset := by
    rw [advance_offset, advance_offset]
    rfl
  rw [hoffset] at hle hposition
  refine ⟨hle, ?_, hline, hcolumn⟩
  rw [hposition]
  exact words_advance h.words_eq t

/-- Unless the source is as long as a word can count, the words are the numbers themselves. -/
theorem eq_position (hsize : source.length + 1 < Span.wordCount) :
    p = (LineMap.ofText source).position p.offset := by
  have hin := isIn_position h.offset_le
  have hword {n : Nat} (hn : n ≤ p.offset + 1) : n % Span.wordCount = n :=
    Nat.mod_eq_of_lt (by have := h.offset_le; omega)
  have hwords := h.words_eq
  simp only [words, mk.injEq] at hwords
  rw [hword h.line_le, hword h.column_le, hword hin.line_le, hword hin.column_le] at hwords
  calc p
    _ = ⟨p.offset, p.line, p.column⟩ := rfl
    _ = (LineMap.ofText source).position p.offset := by rw [hwords.2.1, hwords.2.2]; rfl

end Counted

end Position

/-! ## 2. What a reading takes -/

/-- What was read from a cursor: some bytes that are passed over, the text of the token, and what is
    left behind it. -/
structure Scanned.TakenFrom (c : Cursor) (gap : Text) (r : Scanned) : Prop where
  rest_eq : c.rest = gap ++ (r.token.text ++ r.cursor.rest)
  token_pos : r.token.pos = c.pos.advance gap
  cursor_pos : r.cursor.pos = r.token.pos.advance r.token.text

theorem Cursor.next_takenFrom (c : Cursor) : c.next.TakenFrom c c.gap := by
  have hsplit := c.gap_append_afterGap
  rcases c.next_cases with ⟨hrest, ht, hc⟩ | ⟨b, rest, hrest, ht, hc⟩
  · rw [hrest] at hsplit
    constructor <;> rw [ht]
    · rw [hc]
      exact hsplit.symm
    · rw [hc]
      rfl
  · rw [hrest] at hsplit
    constructor <;> rw [ht]
    · rw [hc, List.take_append_drop]
      exact hsplit.symm
    · rw [hc]

theorem Cursor.jsxText_takenFrom (c : Cursor) : c.jsxText.TakenFrom c [] where
  rest_eq := by
    have hdrop := Text.drop_length_takeWhile isJsxText c.rest
    simp only [jsxText, hdrop, List.nil_append]
    exact List.takeWhile_append_dropWhile.symm
  token_pos := rfl
  cursor_pos := rfl

/-- A place as a reader of the source holds it. -/
structure Cursor.Counted (source : Text) (c : Cursor) : Prop where
  pos : c.pos.Counted source
  rest_eq : c.rest = source.drop c.pos.offset

/-- A token as a reader of the source returns it: its text stands in the source at its offset. -/
structure Token.Counted (source : Text) (t : Token) : Prop where
  pos : t.pos.Counted source
  text : t.text <+: source.drop t.pos.offset

/-- The place behind the next bytes. -/
theorem Cursor.Counted.pass {c : Cursor} (h : c.Counted source) {w rest : Text}
    (hw : c.rest = w ++ rest) :
    (c.pos.advance w).Counted source ∧ rest = source.drop (c.pos.advance w).offset := by
  have hdrop : w ++ rest = source.drop c.pos.offset := hw.symm.trans h.rest_eq
  refine ⟨h.pos.advance ⟨rest, hdrop⟩, ?_⟩
  rw [Position.advance_offset, ← List.drop_drop, ← hdrop, List.drop_left]

/-- **What is read from a place of the source is a token of it, with a place behind.** -/
theorem Cursor.Counted.read {c : Cursor} (h : c.Counted source) {gap : Text} {r : Scanned}
    (hr : r.TakenFrom c gap) : r.token.Counted source ∧ r.cursor.Counted source := by
  obtain ⟨hpos, hrest⟩ := h.pass hr.rest_eq
  rw [← hr.token_pos] at hpos hrest
  have htoken : Cursor.Counted source { c with pos := r.token.pos, rest := r.token.text ++ r.cursor.rest } :=
    ⟨hpos, hrest⟩
  obtain ⟨hpos', hrest'⟩ := htoken.pass rfl
  refine ⟨⟨hpos, hrest ▸ List.prefix_append _ _⟩, ?_, ?_⟩
  · rw [hr.cursor_pos]
    exact hpos'
  · rw [hr.cursor_pos]
    exact hrest'

/-- **Going back into a token.** The sum of its column and the bytes that are skipped may be one more
    than a word holds; the line map's column is then the same word. -/
theorem Token.Counted.resume (hsize : source.length < Span.wordCount) {t : Token}
    (h : t.Counted source) {skip : Nat} (hskip : skip ≤ t.text.length)
    (hline : Byte.newline ∉ t.text.take skip) :
    (Cursor.place source ⟨(t.pos.offset + skip) % Span.wordCount, t.pos.line,
      (t.pos.column + skip) % Span.wordCount⟩).Counted source := by
  have hlength : (t.text.take skip).length = skip := List.length_take_of_le hskip
  have hmoved := h.pos.advance ((List.take_prefix skip t.text).trans h.text)
  rw [Position.advance_eq_of_noNewline t.pos hline, hlength] at hmoved
  have hoffset : (t.pos.offset + skip) % Span.wordCount = t.pos.offset + skip :=
    Nat.mod_eq_of_lt (Nat.lt_of_le_of_lt hmoved.offset_le hsize)
  rw [hoffset]
  refine ⟨⟨hmoved.offset_le, ?_, hmoved.line_le, ?_⟩, rfl⟩
  · exact Eq.trans (by simp [Position.words, Cursor.place]) hmoved.words_eq
  · exact Nat.le_trans (Nat.mod_le _ _) hmoved.column_le

/-! ## 3. Moves -/

namespace Session

/-- May the move be made? A place to go back to was remembered, a token to go into was read, and
    what is skipped of it lies in it and on one line. -/
def admits (s : Session) : Move → Bool
  | .next | .jsxText | .save => true
  | .restore i => i < s.saved.length
  | .resume i skip =>
    match s.tokens[i]? with
    | some t => skip ≤ t.text.length && !(t.text.take skip).contains Byte.newline
    | none => false

/-- The session after some moves; `none` if one of them may not be made. -/
def drive (s : Session) : List Move → Option Session
  | [] => some s
  | m :: ms =>
    if s.admits m then
      match s.move? m with
      | some (_, s') => s'.drive ms
      | none => none
    else none

/-- All places and tokens that a session holds are as a reader of the source holds them. -/
structure Counted (source : Text) (s : Session) : Prop where
  source_eq : s.source = source
  cursor : s.cursor.Counted source
  saved : ∀ c ∈ s.saved, c.Counted source
  tokens : ∀ t ∈ s.tokens, t.Counted source

theorem counted_ofText (source : Text) : (ofText source).Counted source where
  source_eq := rfl
  cursor := ⟨Position.counted_start source, rfl⟩
  saved _ hc := nomatch hc
  tokens _ ht := nomatch ht

namespace Counted
variable {s : Session} (h : s.Counted source)
include h

theorem accept {gap : Text} {r : Scanned} (hr : r.TakenFrom s.cursor gap) :
    (s.accept r).Counted source ∧ r.token.Counted source := by
  obtain ⟨htoken, hcursor⟩ := h.cursor.read hr
  refine ⟨⟨h.source_eq, hcursor, h.saved, fun t ht => ?_⟩, htoken⟩
  rcases List.mem_append.mp ht with ht | ht
  · exact h.tokens t ht
  · exact List.mem_singleton.mp ht ▸ htoken

/-- **A move that may be made is made, and keeps all places and tokens.** -/
theorem move (hsize : source.length < Span.wordCount) {m : Move} (hm : s.admits m = true) :
    ∃ token s', s.move? m = some (token, s') ∧ s'.Counted source ∧
      ∀ t, token = some t → t.Counted source := by
  cases m with
  | next =>
    obtain ⟨hs, htoken⟩ := h.accept s.cursor.next_takenFrom
    exact ⟨_, _, rfl, hs, fun t ht => Option.some.inj ht ▸ htoken⟩
  | jsxText =>
    obtain ⟨hs, htoken⟩ := h.accept s.cursor.jsxText_takenFrom
    exact ⟨_, _, rfl, hs, fun t ht => Option.some.inj ht ▸ htoken⟩
  | save =>
    refine ⟨_, _, rfl, ⟨h.source_eq, h.cursor, fun c hc => ?_, h.tokens⟩, nofun⟩
    rcases List.mem_append.mp hc with hc | hc
    · exact h.saved c hc
    · exact List.mem_singleton.mp hc ▸ h.cursor
  | restore i =>
    have hi : i < s.saved.length := of_decide_eq_true hm
    have hsaved : s.saved[i]? = some s.saved[i] := List.getElem?_eq_getElem hi
    refine ⟨none, { s with cursor := s.saved[i] }, by simp [move?, hsaved], ?_, nofun⟩
    exact ⟨h.source_eq, h.saved _ (List.getElem_mem hi), h.saved, h.tokens⟩
  | resume i skip =>
    cases ht : s.tokens[i]? with
    | none => simp [admits, ht] at hm
    | some t =>
      simp only [admits, ht, Bool.and_eq_true, decide_eq_true_eq, Bool.not_eq_true',
        List.contains_eq_mem, decide_eq_false_iff_not] at hm
      refine ⟨none, _, by simp only [move?, ht, Option.map_some]; rfl, ?_, nofun⟩
      have hplace := (h.tokens t (List.mem_of_getElem? ht)).resume hsize hm.1 hm.2
      exact ⟨h.source_eq, h.source_eq ▸ hplace, h.saved, h.tokens⟩

/-- What every sequence of moves keeps. -/
theorem drive (hsize : source.length < Span.wordCount) {moves : List Move} {s' : Session}
    (hdrive : s.drive moves = some s') : s'.Counted source := by
  induction moves generalizing s with
  | nil => exact Option.some.inj hdrive ▸ h
  | cons m ms ih =>
    rw [Session.drive] at hdrive
    split at hdrive
    · rename_i hm
      obtain ⟨token, s₁, hmove, hs₁, -⟩ := h.move hsize hm
      rw [hmove] at hdrive
      exact ih hs₁ hdrive
    · cases hdrive

end Counted

end Session

/-! ## 4. Positions after every move -/

/-- The position lies in the source, and line and column are those that the line map finds for its
    offset: the same words of 32 bits, and the same numbers unless the source is as long as such a
    word can count. -/
def Position.FitsWords (source : Text) (p : Position) : Prop :=
  p.offset ≤ source.length ∧ p.words = ((LineMap.ofText source).position p.offset).words ∧
    (source.length + 1 < Span.wordCount → p = (LineMap.ofText source).position p.offset)

theorem Position.Counted.fitsWords {p : Position} (h : p.Counted source) : p.FitsWords source :=
  ⟨h.offset_le, h.words_eq, h.eq_position⟩

/-- **Positions stay right, however a source is read.** After any sequence of moves, a move that may
    be made next is made; the place it comes to lies in the source with the right line and column and
    with all that is left from there, and so does the token that it returns, with the text that
    stands there. -/
theorem moves_keep_positions {source : Text} (hsize : source.length < Span.wordCount)
    {moves : List Move} {s : Session} (hs : (Session.ofText source).drive moves = some s) {m : Move}
    (hm : s.admits m = true) :
    ∃ token s', s.move? m = some (token, s') ∧
      s'.cursor.pos.FitsWords source ∧ s'.cursor.rest = source.drop s'.cursor.pos.offset ∧
      ∀ t, token = some t →
        t.pos.FitsWords source ∧ t.text = (source.drop t.pos.offset).take t.text.length := by
  have hcounted := (Session.counted_ofText source).drive hsize hs
  obtain ⟨token, s', hmove, hs', htoken⟩ := hcounted.move hsize hm
  refine ⟨token, s', hmove, hs'.cursor.pos.fitsWords, hs'.cursor.rest_eq, fun t ht => ?_⟩
  exact ⟨(htoken t ht).pos.fitsWords, List.prefix_iff_eq_take.mp (htoken t ht).text⟩

/-- Markup, a text and a template that go over a line end, and a comment that does. -/
def zigzagSource : Text := txt "<p>a>=b\n c\x7b`x\ny`\x7d</p> /* \n */ z"

/-- Into the markup, on to the template, back into the text before it, back to where that text began,
    and at last into the template. -/
def zigzagMoves : List Move :=
  [.next, .next, .next, .save, .jsxText, .next, .next, .resume 3 2, .next, .next, .restore 0, .next,
    .next, .save, .restore 1, .jsxText, .resume 5 2]

theorem zigzag_keeps_positions : zigzagSource.length < Span.wordCount ∧
    ∃ s, (Session.ofText zigzagSource).drive zigzagMoves = some s ∧ s.admits .next = true ∧
      ∃ token s', s.move? .next = some (token, s') ∧
        s'.cursor.pos.FitsWords zigzagSource ∧
        s'.cursor.rest = zigzagSource.drop s'.cursor.pos.offset ∧
        ∀ t, token = some t → t.pos.FitsWords zigzagSource ∧
          t.text = (zigzagSource.drop t.pos.offset).take t.text.length := by
  have hsize : zigzagSource.length < Span.wordCount := by decide +kernel
  have hrun : ((Session.ofText zigzagSource).drive zigzagMoves).isSome = true := by decide +kernel
  obtain ⟨s, hs⟩ := Option.isSome_iff_exists.mp hrun
  exact ⟨hsize, s, hs, rfl, moves_keep_positions hsize hs rfl⟩

end ReactiveScript
