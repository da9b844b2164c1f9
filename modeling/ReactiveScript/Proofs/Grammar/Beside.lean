import ReactiveScript.Grammar.Expression
import ReactiveScript.Proofs.Grammar.Covers
import ReactiveScript.Proofs.Token.Locality

/-!
# Two readers side by side

One reader reads a text alone, the other reads the same text inside a wider source: behind a few
bytes on its first line, and before the rest of the construct around it, which starts on a line of
its own. The two hold the same tokens, until the first one finds the end of the text where the
second finds what closes the construct.
-/

namespace ReactiveScript.Grammar

/-! ## 1. What stands behind the text -/

/-- What closes the construct around a text. -/
inductive Ending where
  /-- Nothing. -/
  | none
  /-- A closing parenthesis. -/
  | paren
  /-- The brace that closes a hole, and the backtick of its template. -/
  | brace
  deriving DecidableEq, Repr

namespace Ending

/-- The bytes behind the text. -/
def text : Ending → Text
  | .none => []
  | .paren => [Byte.newline, 0x29]
  | .brace => [Byte.newline, Byte.closeBrace, Byte.backtick]

/-- What is found behind the text. -/
def kind : Ending → Kind
  | .none => .eof
  | .paren => .punct .closeParen
  | .brace => .punct .closeBrace

theorem text_startsLine (e : Ending) : e.text.startsLine = true := by cases e <;> rfl

/-- Tokens that open nothing and assign nothing. -/
def idleKinds : List Kind :=
  [.eof, .string, .template, .invalid, .punct .closeParen, .punct .closeBrace]

theorem of_idle {k : Kind} (h : k ∈ idleKinds) :
    decide (k = .punct .arrow) = false ∧ k.isAssignment = false := by
  revert k
  decide

/-- No token behind the text opens or assigns anything. -/
theorem scan_idle {e : Ending} {b : UInt8} {rest : Text} (h : b :: rest <:+ e.text) :
    (Lexeme.scan b rest).kind ∈ idleKinds := by
  cases e <;>
    simp only [text, List.suffix_cons_iff, List.suffix_nil, List.cons.injEq, reduceCtorEq,
      or_false] at h
  · obtain ⟨rfl, rfl⟩ | ⟨rfl, rfl⟩ := h <;> decide
  · obtain ⟨rfl, rfl⟩ | ⟨rfl, rfl⟩ | ⟨rfl, rfl⟩ := h <;> decide

end Ending

/-! ## 2. Looking ahead -/

section
variable {e : Ending} {c d : Cursor} {shift : Nat}

theorem next_rest_suffix (c : Cursor) : c.next.cursor.rest <:+ c.afterGap := by
  cases h : c.afterGap with
  | nil =>
    simp [(Cursor.next_of_nil h).2]
  | cons b rest =>
    rw [(Cursor.next_of_cons h).2]
    exact List.drop_suffix _ _

theorem afterGap_suffix (c : Cursor) : c.afterGap <:+ c.rest := List.drop_suffix _ _

/-- Where only a part of the ending is left, nothing is opened or assigned. -/
theorem next_idle (h : d.afterGap <:+ e.text) : d.next.token.kind ∈ Ending.idleKinds := by
  cases hafter : d.afterGap with
  | nil =>
    rw [(Cursor.next_of_nil hafter).1]
    exact List.mem_cons_self
  | cons b rest =>
    rw [(Cursor.next_of_cons hafter).1]
    exact Ending.scan_idle (hafter ▸ h)

/-- What closes a bracket lies behind the next token, or is the next token. -/
theorem closingFrom_suffix {fuel depth : Nat} {r : Scanned}
    (h : closingFrom fuel depth c = some r) : r.cursor.rest <:+ c.next.cursor.rest := by
  induction fuel generalizing depth c with
  | zero => cases h
  | succ fuel ih =>
    have hlater {depth : Nat} (h : closingFrom fuel depth c.next.cursor = some r) :
        r.cursor.rest <:+ c.next.cursor.rest :=
      (ih h).trans ((next_rest_suffix _).trans (afterGap_suffix _))
    rw [closingFrom] at h
    split at h
    · cases h
    · split at h
      · exact hlater h
      split at h
      · split at h
        · cases h
          exact List.suffix_refl _
        · exact hlater h
      · exact hlater h
    · exact hlater h

theorem closingFrom_of_rest_eq_nil (h : c.rest = []) (fuel depth : Nat) :
    closingFrom fuel depth c = none := by
  have hnil : c.afterGap = [] := List.suffix_nil.mp (h ▸ afterGap_suffix c)
  cases fuel with
  | zero => rfl
  | succ fuel => rw [closingFrom, (Cursor.next_of_nil hnil).1]

/-- Both find the same bracket that closes the one before them; or one finds none, and the other
    none in the text. -/
theorem closingFrom_alike (h : c.Alike e.text shift d) {fuel fuel' : Nat} (depth : Nat)
    (hfuel : c.rest.length < fuel) (hfuel' : d.rest.length < fuel') :
    (∃ r q, closingFrom fuel depth c = some r ∧ closingFrom fuel' depth d = some q ∧
      r.Alike e.text shift q) ∨
    (closingFrom fuel depth c = none ∧
      ∀ q, closingFrom fuel' depth d = some q → q.cursor.rest <:+ e.text) := by
  induction fuel generalizing fuel' depth c d with
  | zero => cases hfuel
  | succ fuel ih =>
    obtain ⟨fuel', rfl⟩ : ∃ k, fuel' = k + 1 := ⟨fuel' - 1, by omega⟩
    rcases h.next e.text_startsLine with hnext | hspent
    · -- the next token is the same: go on behind it
      have hkind : d.next.token.kind = c.next.token.kind := hnext.token.kind
      by_cases heof : c.next.token.kind = .eof
      · rw [closingFrom, closingFrom, hkind, heof]
        exact .inr ⟨rfl, fun q hq => by cases hq⟩
      have hless := Cursor.next_rest_length_lt heof
      have hless' := Cursor.next_rest_length_lt (hkind ▸ heof)
      have hfewer : c.next.cursor.rest.length < fuel := by omega
      have hfewer' : d.next.cursor.rest.length < fuel' := by omega
      have hlater (depth : Nat) := ih hnext.cursor depth hfewer hfewer'
      rw [closingFrom, closingFrom, hkind]
      split
      · exact .inr ⟨rfl, fun q hq => by cases hq⟩
      · split
        · exact hlater _
        split
        · split
          · exact .inl ⟨_, _, rfl, rfl, hnext⟩
          · exact hlater _
        · exact hlater _
      · exact hlater _
    · cases hspent with
      | ended hend hsuffix =>
        refine .inr ⟨?_, fun q hq => ?_⟩
        · rw [closingFrom, (Cursor.next_of_nil hend).1]
        · exact (closingFrom_suffix hq).trans ((next_rest_suffix d).trans hsuffix)
      | opened _ hrest hkind _ hsuffix =>
        refine .inr ⟨?_, fun q hq => (closingFrom_suffix hq).trans hsuffix⟩
        rw [closingFrom]
        rcases hkind with hk | hk <;> rw [hk] <;> exact closingFrom_of_rest_eq_nil hrest _ _

/-- The next token is an arrow for both or for none, and so for assignment signs. -/
theorem follows_alike (h : c.Alike e.text shift d) :
    arrowFollows d = arrowFollows c ∧
      d.next.token.kind.isAssignment = c.next.token.kind.isAssignment := by
  rcases h.next e.text_startsLine with hnext | hspent
  · rw [arrowFollows, arrowFollows, hnext.token.kind, hnext.lineStart]
    exact ⟨rfl, rfl⟩
  · have hc : c.next.token.kind ∈ Ending.idleKinds := by
      cases hspent with
      | ended hend _ =>
        rw [(Cursor.next_of_nil hend).1]
        exact List.mem_cons_self
      | opened _ _ hkind _ _ => rcases hkind with hk | hk <;> rw [hk] <;> decide
    have hd : d.next.token.kind ∈ Ending.idleKinds := by
      cases hspent with
      | ended _ hsuffix => exact next_idle hsuffix
      | opened _ _ _ hkind _ => rwa [hkind]
    simp [arrowFollows, Ending.of_idle hc, Ending.of_idle hd]

/-- Behind the text there is neither an arrow nor an assignment sign. -/
theorem not_follows_of_suffix (h : d.rest <:+ e.text) :
    arrowFollows d = false ∧ d.next.token.kind.isAssignment = false := by
  have hd := next_idle ((afterGap_suffix d).trans h)
  simp [arrowFollows, Ending.of_idle hd]

end

/-! ## 3. Settings -/

/-- A text inside a wider source. -/
structure Setting where
  /-- What stands before the text, on its first line. -/
  before : Text
  /-- The text alone. -/
  source : Text
  ending : Ending
  onLine : Byte.newline ∉ before

namespace Setting
variable (S : Setting)

/-- The wider source. -/
def whole : Text := S.before ++ (S.source ++ S.ending.text)

/-- How far the text has moved. -/
def shift : Nat := S.before.length

variable {S}

theorem whole_drop {n : Nat} (h : n ≤ S.source.length) :
    S.whole.drop (S.shift + n) = S.source.drop n ++ S.ending.text := by
  rw [whole, shift, ← List.drop_drop, List.drop_left, List.drop_append_of_le_length h]

theorem whole_take {n : Nat} (h : n ≤ S.source.length) :
    S.whole.take (S.shift + n) = S.before ++ S.source.take n := by
  rw [whole, shift, List.take_length_add_append, List.take_append_of_le_length h]

theorem length_whole : S.whole.length = S.shift + (S.source.length + S.ending.text.length) := by
  rw [whole, shift, List.length_append, List.length_append]

/-- A place of the text is on the same line of the wider source, and in the same column but on the
    first line. -/
theorem line_and_column {p q : Position} (hp : p.IsIn S.source) (hq : q.IsIn S.whole)
    (hoffset : q.offset = S.shift + p.offset) :
    q.line = p.line ∧ (1 < p.line → q.column = p.column) := by
  have hbefore : (Position.start.advance S.before).line = Position.start.line := by
    rw [Position.advance_eq_of_noNewline _ S.onLine]
  have hstart := Position.advance_beside hbefore (S.source.take p.offset)
  rw [← hp.eq_advance, ← Position.advance_append, ← whole_take hp.offset_le, ← hoffset,
    ← hq.eq_advance] at hstart
  exact hstart

/-- The place behind the text on its line of its own. -/
theorem column_behind {q : Position} (hq : q.IsIn S.whole) (hending : S.ending ≠ .none)
    (hoffset : q.offset = S.shift + S.source.length + 1) : q.column = 1 := by
  have htext : S.ending.text.take 1 = [Byte.newline] := by
    cases h : S.ending with
    | none => exact absurd h hending
    | paren => rfl
    | brace => rfl
  have htake : S.whole.take q.offset = S.before ++ S.source ++ [Byte.newline] := by
    rw [hoffset, whole, shift, Nat.add_assoc, List.take_length_add_append,
      List.take_length_add_append, htext, List.append_assoc]
  rw [hq.eq_advance, htake, Position.advance_append]
  rfl

end Setting

/-! ## 4. Two readers -/

/-- The levels that the reader of the text has gone down at least, and the brackets around its
    token for either reader; one is inside brackets if the other is. -/
structure Frame where
  depth : Nat
  nesting : Nat
  nesting' : Nat
  nesting_pos : 0 < nesting ↔ 0 < nesting'

/-- Both readers hold the same token of the text. -/
structure Alike (S : Setting) (s w : State) : Prop where
  token : s.current.Alike S.shift w.current
  cursor : s.cursor.Alike S.ending.text S.shift w.cursor
  onLine : s.cursor.lineStart = true → 1 < s.cursor.pos.line
  closed : s.current.kind = .template →
    2 ≤ s.current.text.length ∧ s.current.text.getLast? = some Byte.backtick
  inText : S.ending ≠ .none → s.current.kind ≠ .eof

/-- The reader of the text has come to its end, and the other one to what follows. -/
structure AtClose (S : Setting) (s w : State) : Prop where
  kind : s.current.kind = .eof
  text : s.current.text = []
  offset : s.current.offset = S.source.length
  ending : S.ending ≠ .none
  kind' : w.current.kind = S.ending.kind
  lineStart' : w.current.lineStart = true
  offset' : w.current.offset = S.shift + S.source.length + 1

/-- What two readers have in common wherever they stand: neither has found a fault, and the one in
    the wider source is inside brackets, deep and indented as the frame lets it be. -/
structure Poised (f : Frame) (s w : State) : Prop where
  tooDeep : s.tooDeep = false
  tooDeep' : w.tooDeep = false
  clean : s.reports = []
  clean' : w.reports = []
  nesting : s.nesting = f.nesting
  nesting' : w.nesting = f.nesting'
  le_depth : f.depth ≤ s.depth
  depth_le : s.depth ≤ maxDepth
  depth_le' : w.depth ≤ s.depth
  indent_pos : 1 ≤ w.lineIndent
  indent_le : w.lineIndent ≤ s.lineIndent

/-- Two readers at the same place. Whether their token starts a line may still be different: it does
    for one that has just begun. -/
structure Near (S : Setting) (f : Frame) (s w : State) : Prop extends Poised f s w where
  sound : s.spot.Sound S.source
  sound' : w.spot.Sound S.whole
  place : Alike S s w ∨ AtClose S s w

/-- Two readers at the same place that have begun before. -/
structure Beside (S : Setting) (f : Frame) (s w : State) : Prop extends Near S f s w where
  lineStart : Alike S s w → w.current.lineStart = s.current.lineStart ∧
    (s.current.lineStart = true → 1 < s.current.pos.line)

/-! ## 5. The next token -/

/-- A token that starts a line is not on the first line, unless reading starts there. -/
theorem next_onLine {source : Text} {c : Cursor} (hc : c.IsIn source)
    (hline : c.lineStart = true → 1 < c.pos.line) (h : c.next.token.lineStart = true) :
    1 < c.next.token.pos.line := by
  have hpos : c.next.token.pos = c.pos.advance c.gap := by
    rcases c.next_cases with ⟨_, htoken, _⟩ | ⟨b, rest, _, htoken, _⟩ <;> rw [htoken]
  rw [hpos]
  rcases c.next_after.lineStart_iff.mp h with hfresh | hgap
  · exact Nat.lt_of_lt_of_le (hline hfresh) (c.pos.line_le_advance _)
  · exact Nat.lt_of_le_of_lt hc.pos.line_pos (c.pos.line_lt_advance hgap)

/-- Where nothing but trivia is left of the text, the other reader finds what closes the construct
    around it. -/
theorem next_of_ended {e : Ending} {shift : Nat} {c d : Cursor} (h : c.Alike e.text shift d)
    (he : e ≠ .none) (hend : c.afterGap = []) (hclean : c.next.reports = []) :
    d.next.token.kind = e.kind ∧ d.next.token.lineStart = true ∧
      d.next.token.offset = d.pos.offset + (c.rest.length + 1) ∧ d.next.reports = [] := by
  obtain ⟨hclosed, _⟩ := c.next_reports_eq_nil.mp hclean
  have hall : (Trivia.skip c.rest).width = c.rest.length := by
    have hle := Trivia.skip_width_le c.rest
    have hge := List.drop_eq_nil_iff.mp hend
    omega
  obtain ⟨b, rest, htext, hstart, hscan⟩ : ∃ b rest, e.text = Byte.newline :: b :: rest ∧
      (∀ n, Trivia.skipFrom .space n true (b :: rest) = { width := n, breaks := true }) ∧
      (Lexeme.scan b rest).kind = e.kind ∧ (Lexeme.scan b rest).faults = [] := by
    cases e with
    | none => exact absurd rfl he
    | paren => exact ⟨_, _, rfl, fun _ => rfl, by decide, by decide⟩
    | brace => exact ⟨_, _, rfl, fun _ => rfl, by decide, by decide⟩
  have hskip : Trivia.skip d.rest = { width := c.rest.length + 1, breaks := true } := by
    rw [h.rest, htext, Trivia.skip_append_of_end hall hclosed, hstart]
  have hafter : d.afterGap = b :: rest := by
    rw [Cursor.afterGap, hskip, h.rest, htext, List.drop_length_add_append]
    rfl
  have hgap : d.gap.length = c.rest.length + 1 := by
    rw [Cursor.gap, hskip, h.rest, htext, List.length_take, List.length_append]
    simp only [List.length_cons]
    omega
  obtain ⟨htoken, _⟩ := Cursor.next_of_cons hafter
  refine ⟨by rw [htoken]; exact hscan.1, ?_, ?_, ?_⟩
  · rw [htoken]
    simp [hskip]
  · rw [htoken, Token.offset, Position.advance_offset, hgap]
  · rw [d.next_reports_eq_nil, hskip, hafter]
    exact ⟨rfl, fun b' rest' heq => by cases heq; exact hscan.2⟩

section
variable {S : Setting} {f : Frame} {s w : State}

theorem Near.alike (h : Near S f s w) (hkind : s.current.kind ≠ .eof) : Alike S s w :=
  h.place.resolve_right fun hclose => hkind hclose.kind

section
variable {c d : Cursor} (h : Poised f s w) (hc : c.IsIn S.source) (hd : d.IsIn S.whole)
  (hcd : c.Alike S.ending.text S.shift d) (hline : c.lineStart = true → 1 < c.pos.line)
  (hclean : c.next.reports = [])
include h hc hd hcd hline hclean

omit hcd in
/-- What both readers keep when they go on from two cursors, wherever that leads. -/
theorem beside_advance (hclean' : d.next.reports = [])
    (hindent : 1 ≤ (State.advance { w with cursor := d }).lineIndent ∧
      (State.advance { w with cursor := d }).lineIndent ≤
        (State.advance { s with cursor := c }).lineIndent)
    (hplace :
      Alike S (State.advance { s with cursor := c }) (State.advance { w with cursor := d }) ∨
      AtClose S (State.advance { s with cursor := c }) (State.advance { w with cursor := d }))
    (hlineStart : Alike S (State.advance { s with cursor := c })
      (State.advance { w with cursor := d }) → d.next.token.lineStart = c.next.token.lineStart) :
    Beside S f (State.advance { s with cursor := c }) (State.advance { w with cursor := d }) where
  tooDeep := by simp only [State.advance_tooDeep, h.tooDeep]
  tooDeep' := by simp only [State.advance_tooDeep, h.tooDeep']
  sound := sound_advance hc h.tooDeep
  sound' := sound_advance hd h.tooDeep'
  clean := by simp only [State.advance_reports, hclean, h.clean, List.reverse_nil, List.append_nil]
  clean' := by
    simp only [State.advance_reports, hclean', h.clean', List.reverse_nil, List.append_nil]
  nesting := by simp only [State.advance_nesting, h.nesting]
  nesting' := by simp only [State.advance_nesting, h.nesting']
  le_depth := by simpa only [State.advance_depth] using h.le_depth
  depth_le := by simpa only [State.advance_depth] using h.depth_le
  depth_le' := by simpa only [State.advance_depth] using h.depth_le'
  indent_pos := hindent.1
  indent_le := hindent.2
  place := hplace
  lineStart halike := by
    have hstart := hlineStart halike
    simp only [State.advance_current]
    exact ⟨hstart, next_onLine hc hline⟩

omit hcd in
/-- Both hold the next token of the text. -/
theorem beside_advance_alike (hnext : c.next.Alike S.ending.text S.shift d.next) :
    Beside S f (State.advance { s with cursor := c }) (State.advance { w with cursor := d }) := by
  have hcolumn (hstart : c.next.token.lineStart = true) :
      d.next.token.column = c.next.token.column :=
    (Setting.line_and_column hc.next.token.pos hd.next.token.pos hnext.token.offset).2
      (next_onLine hc hline hstart)
  refine beside_advance h hc hd hline hclean (hnext.reports hclean) ?_
    (.inl ⟨?_, ?_, ?_, ?_, ?_⟩) fun _ => hnext.lineStart
  · simp only [State.advance_lineIndent, hnext.lineStart]
    split
    · rename_i hstart
      rw [hcolumn hstart]
      exact ⟨hc.next.token.pos.column_pos, Nat.le_refl _⟩
    · exact ⟨h.indent_pos, h.indent_le⟩
  · simp only [State.advance_current]
    exact hnext.token
  · simp only [State.advance_cursor]
    exact hnext.cursor
  · simp only [State.advance_cursor]
    intro hstart
    rcases c.next_cases with ⟨_, _, hc⟩ | ⟨_, _, _, _, hc⟩ <;> rw [hc] at hstart <;> cases hstart
  · simp only [State.advance_current]
    exact fun hkind => Cursor.next_template hkind hclean
  · simp only [State.advance_current]
    intro hending heof
    have hrest := hnext.cursor.rest
    rw [Cursor.rest_after_eof (hnext.token.kind.trans heof)] at hrest
    have htext : S.ending.text = [] := (List.append_eq_nil_iff.mp hrest.symm).2
    cases hs : S.ending with
    | none => exact hending hs
    | paren => rw [hs] at htext; cases htext
    | brace => rw [hs] at htext; cases htext

/-- One has come to the end of the text, the other to what follows it. -/
theorem beside_advance_ended (hending : S.ending ≠ .none) (hend : c.afterGap = []) :
    Beside S f (State.advance { s with cursor := c }) (State.advance { w with cursor := d }) := by
  obtain ⟨hkind', hlineStart', hoffset', hclean'⟩ := next_of_ended hcd hending hend hclean
  obtain ⟨htoken, _⟩ := Cursor.next_of_nil hend
  have hoffset : d.next.token.offset = S.shift + S.source.length + 1 := by
    have hle := hc.pos.offset_le
    rw [hoffset', hcd.offset, hc.rest_eq, List.length_drop]
    omega
  have hclose : AtClose S (State.advance { s with cursor := c })
      (State.advance { w with cursor := d }) := by
    refine ⟨?_, ?_, ?_, hending, ?_, ?_, ?_⟩ <;> simp only [State.advance_current]
    · rw [htoken]
    · rw [htoken]
    · have hgap := congrArg List.length c.gap_append_afterGap
      have hle := hc.pos.offset_le
      rw [hend, List.append_nil, hc.rest_eq, List.length_drop] at hgap
      rw [htoken, Token.offset, Position.advance_offset]
      omega
    · exact hkind'
    · exact hlineStart'
    · exact hoffset
  refine beside_advance h hc hd hline hclean hclean' ?_ (.inr hclose) fun halike => ?_
  · have hcolumn : d.next.token.column = 1 :=
      Setting.column_behind hd.next.token.pos hending hoffset
    simp only [State.advance_lineIndent, hlineStart', if_true, hcolumn]
    refine ⟨Nat.le_refl _, ?_⟩
    split
    · exact hc.next.token.pos.column_pos
    · exact Nat.le_trans h.indent_pos h.indent_le
  · have hkinds := halike.token.kind
    rw [hclose.kind, hclose.kind'] at hkinds
    cases hs : S.ending <;> rw [hs] at hkinds hending
    · exact absurd rfl hending
    · cases hkinds
    · cases hkinds

/-- **Both readers go on together**, from two cursors at the same place of the text. -/
theorem Poised.advanceFrom :
    Beside S f (State.advance { s with cursor := c }) (State.advance { w with cursor := d }) := by
  by_cases hending : S.ending = .none
  · refine beside_advance_alike h hc hd hline hclean ?_
    rw [hending] at hcd ⊢
    exact hcd.next_nil
  rcases hcd.next S.ending.text_startsLine with hnext | hspent
  · exact beside_advance_alike h hc hd hline hclean hnext
  · cases hspent with
    | ended hend _ => exact beside_advance_ended h hc hd hcd hline hclean hending hend
    | opened hfaulty _ _ _ _ => exact absurd hclean hfaulty

end

theorem next_reports_of_advance (h : s.advance.reports = []) : s.cursor.next.reports = [] := by
  rw [State.advance_reports] at h
  simpa using (List.append_eq_nil_iff.mp h).1

/-- Both readers go on to the next token. -/
theorem Near.next (h : Near S f s w) (hkind : s.current.kind ≠ .eof)
    (hclean : s.advance.reports = []) : Beside S f s.advance w.advance :=
  have hs := h.alike hkind
  h.toPoised.advanceFrom h.sound.cursor h.sound'.cursor hs.cursor hs.onLine
    (next_reports_of_advance hclean)

/-! ## 6. What both see -/

theorem closing_alike {e : Ending} {shift : Nat} {c d : Cursor} (h : c.Alike e.text shift d) :
    (∃ r q, closing c = some r ∧ closing d = some q ∧ r.Alike e.text shift q) ∨
    (closing c = none ∧ ∀ q, closing d = some q → q.cursor.rest <:+ e.text) :=
  closingFrom_alike h 1 (Nat.lt_succ_self _) (Nat.lt_succ_self _)

theorem AtClose.kind_cases (h : AtClose S s w) :
    w.current.kind = .punct .closeParen ∨ w.current.kind = .punct .closeBrace := by
  rw [h.kind']
  cases hs : S.ending with
  | none => exact absurd hs h.ending
  | paren => exact .inl rfl
  | brace => exact .inr rfl

/-- A question about the kind of the token that has one answer for the end and for what closes a
    construct. -/
theorem Near.kind_congr {β : Type} (h : Near S f s w) (g : Kind → β)
    (hparen : g (.punct .closeParen) = g .eof) (hbrace : g (.punct .closeBrace) = g .eof) :
    g w.current.kind = g s.current.kind := by
  rcases h.place with hs | hclose
  · rw [hs.token.kind]
  · rw [hclose.kind]
    rcases hclose.kind_cases with hk | hk <;> rw [hk]
    · exact hparen
    · exact hbrace

/-- **Both see the start of a function, or neither does.** -/
theorem Near.seesArrow_eq (h : Near S f s w) : w.seesArrow = s.seesArrow := by
  rcases h.place with hs | hclose
  · unfold State.seesArrow
    rw [hs.token.kind]
    split
    · exact (follows_alike hs.cursor).1
    · rcases closing_alike hs.cursor with ⟨r, q, hr, hq, hrq⟩ | ⟨hnone, hlater⟩
      · rw [hr, hq]
        simp only [hrq.token.kind, (follows_alike hrq.cursor).1]
      · rw [hnone]
        split
        · rename_i q hq
          rw [(not_follows_of_suffix (hlater q hq)).1, Bool.and_false]
        · rfl
    · rfl
  · unfold State.seesArrow
    rw [hclose.kind]
    rcases hclose.kind_cases with hk | hk <;> rw [hk]

/-- **Both see a pattern with a value, or neither does.** -/
theorem Near.seesDestructuring_eq (h : Near S f s w) :
    w.seesDestructuring = s.seesDestructuring := by
  rcases h.place with hs | hclose
  · unfold State.seesDestructuring State.sees
    rw [hs.token.kind]
    rcases closing_alike hs.cursor with ⟨r, q, hr, hq, hrq⟩ | ⟨hnone, hlater⟩
    · rw [hr, hq]
      simp only [(follows_alike hrq.cursor).2]
    · rw [hnone]
      split
      · rename_i q hq
        rw [(not_follows_of_suffix (hlater q hq)).2]
      · rfl
  · unfold State.seesDestructuring State.sees
    rw [hclose.kind]
    rcases hclose.kind_cases with hk | hk <;> rw [hk] <;> rfl

/-- Neither the end nor what closes the construct around a text. -/
def isInner (k : Kind) : Bool :=
  k ≠ .eof && k ≠ .punct .closeParen && k ≠ .punct .closeBrace

theorem Near.kind_eq_iff (h : Near S f s w) {k : Kind} (hk : isInner k = true) :
    w.current.kind = k ↔ s.current.kind = k := by
  simp only [isInner, Bool.and_eq_true, decide_eq_true_eq] at hk
  have hsame := h.kind_congr (fun k' => k' = k) (by simp [hk.1.1.symm, hk.1.2.symm])
    (by simp [hk.1.1.symm, hk.2.symm])
  exact Iff.of_eq hsame

theorem Near.sees_eq (h : Near S f s w) {k : Kind} (hk : isInner k = true) :
    w.sees k = s.sees k := by
  unfold State.sees
  rw [decide_eq_decide.mpr (h.kind_eq_iff hk)]

theorem Near.seesWord_eq (h : Near S f s w) (word : Text) : w.seesWord word = s.seesWord word := by
  unfold State.seesWord
  rcases h.place with hs | hclose
  · rw [hs.token.kind, hs.token.text]
  · rw [hclose.kind]
    rcases hclose.kind_cases with hk | hk <;> rw [hk] <;> rfl

theorem Near.startsWith_eq (h : Near S f s w) :
    w.current.startsWith Byte.greater = s.current.startsWith Byte.greater := by
  unfold Token.startsWith
  rcases h.place with hs | hclose
  · rw [hs.token.text]
  · have hspelt : ∀ p, w.current.kind = .punct p → w.current.text = p.spelling :=
      h.sound'.current.spelt
    rw [hclose.text]
    rcases hclose.kind_cases with hk | hk <;> rw [hspelt _ hk] <;> decide

theorem Beside.canContinue_eq (h : Beside S f s w) (hkind : s.current.kind ≠ .eof) :
    w.canContinue = s.canContinue := by
  unfold State.canContinue
  rw [(h.lineStart (h.alike hkind)).1, h.nesting, h.nesting', decide_eq_decide.mpr f.nesting_pos]

/-- Both go on with the same binary operator, or neither does. -/
theorem Beside.operator?_eq (h : Beside S f s w) (least : Nat) :
    w.operator? least = s.operator? least := by
  unfold State.operator?
  rw [h.kind_congr BinaryOp.ofKind? rfl rfl]
  cases hop : BinaryOp.ofKind? s.current.kind with
  | none => rfl
  | some op =>
    have hkind : s.current.kind ≠ .eof := by
      intro hk
      rw [hk] at hop
      cases hop
    simp only [h.canContinue_eq hkind, (h.lineStart (h.alike hkind)).1]

theorem Beside.seesValue_eq (h : Beside S f s w) : w.seesValue = s.seesValue := by
  unfold State.seesValue State.sees State.atEnd
  rcases h.place with hs | hclose
  · rw [hs.token.kind, (h.lineStart hs).1]
  · simp [hclose.kind, hclose.lineStart']

end

end ReactiveScript.Grammar
