import ReactiveScript.Proofs.Grammar.Reached

/-!
# Headers of blocks and their lines

A block that is indented lies deeper than its header, which is a modifier or an arrow. The reader
measures a header by the last token that was marked as the first of its line. That is the first byte
of the header's line, with two exceptions: text between tags is not marked, so that on a line that
starts with text the token behind the text counts; and a hole of a template is read without the
front of its line, which then counts as not indented.
-/

namespace ReactiveScript

variable {source : Text} {origin c : Cursor} {t : Token} {ts : List Token}

/-! ## 1. The first byte of a line -/

/-- The offset of the first byte on the line of a position that is not white. -/
def Position.lineFirst (source : Text) (p : Position) : Nat :=
  p.lineOffset + ((source.drop p.lineOffset).takeWhile Byte.isWhite).length

namespace Position
variable {p : Position}

theorem lineOffset_le_lineFirst (source : Text) (p : Position) :
    p.lineOffset ≤ p.lineFirst source := Nat.le_add_right _ _

/-- The bytes before the first byte are white. -/
theorem isWhite_of_lt_lineFirst {i : Nat} (hle : p.lineOffset ≤ i) (hlt : i < p.lineFirst source)
    {b : UInt8} (hb : source[i]? = some b) : Byte.isWhite b = true := by
  obtain ⟨k, rfl⟩ := Nat.exists_eq_add_of_le hle
  have hk : k < ((source.drop p.lineOffset).takeWhile Byte.isWhite).length :=
    Nat.lt_of_add_lt_add_left hlt
  have hget : ((source.drop p.lineOffset).takeWhile Byte.isWhite)[k]? = some b := by
    obtain ⟨rest, hrest⟩ := List.takeWhile_prefix Byte.isWhite (l := source.drop p.lineOffset)
    rw [← List.getElem?_drop, ← hrest, List.getElem?_append_left hk] at hb
    exact hb
  exact List.all_eq_true.mp List.all_takeWhile b (List.mem_of_getElem? hget)

/-- A byte that is not white does not come before the first one. -/
theorem lineFirst_le {i : Nat} (hle : p.lineOffset ≤ i) {b : UInt8} (hb : source[i]? = some b)
    (hwhite : Byte.isWhite b = false) : p.lineFirst source ≤ i := by
  refine Nat.le_of_not_lt fun hlt => ?_
  rw [isWhite_of_lt_lineFirst hle hlt hb] at hwhite
  cases hwhite

/-- The column of the first byte, as long as that is not behind the position. -/
theorem column_lineFirst (h : p.IsIn source) (hle : p.lineFirst source ≤ p.offset) :
    ((LineMap.ofText source).position (p.lineFirst source)).column + p.lineOffset =
      p.lineFirst source + 1 := by
  have hlength := Nat.le_trans hle h.offset_le
  have hin := isIn_position hlength
  have hoffset : ((LineMap.ofText source).position (p.lineFirst source)).offset =
      p.lineFirst source := by
    rw [LineMap.position_eq_advance hlength, advance_offset, List.length_take,
      Nat.min_eq_left hlength]
    exact Nat.zero_add _
  have hline := h.lineOffset_eq hin (hoffset ▸ lineOffset_le_lineFirst source p) (hoffset ▸ hle)
  have hcolumn := hin.column_le
  unfold lineOffset at hline hcolumn
  unfold lineOffset
  omega

end Position

/-! ## 2. What a walk remembers of a line -/

namespace Walk

/-- The line of the last token can be judged: no string or template of the walk holds the end of the
    line before it, and its first byte is in front of the walk or in a token, not in a comment. -/
structure ClearLine (source : Text) (origin : Cursor) (t : Token) (ts : List Token) : Prop where
  start : ∀ u ∈ t :: ts, u.kind.isLiteral = true → ∀ i, i + 1 = t.pos.lineOffset → ¬ u.Holds i
  first : t.pos.lineFirst source < origin.pos.offset ∨
    ∃ u ∈ t :: ts, u.Holds (t.pos.lineFirst source)

/-- The line of the last token does not start with text between tags; and if the walk starts within
    the line, the line is not indented. -/
structure OwnLine (source : Text) (origin : Cursor) (t : Token) (ts : List Token) : Prop where
  text : ∀ u ∈ t :: ts, u.kind = .jsxText → ¬ u.Holds (t.pos.lineFirst source)
  origin : origin.lineStart = false → t.pos.lineOffset ≤ origin.pos.offset →
    t.pos.lineFirst source = t.pos.lineOffset

section
variable (horigin : origin.IsIn source) (h : Walk source origin (t :: ts) c)
  (hkind : t.kind ≠ .jsxText)
include horigin h hkind

/-- On a clear line no line ends between the last mark and the start of the line. -/
theorem lineOffset_le_lastMark (hclear : ClearLine source origin t ts) :
    t.pos.lineOffset ≤ lastMark origin (t :: ts) := by
  have ht := (h.isIn horigin).2 t List.mem_cons_self
  have hle := ht.pos.lineOffset_le
  have hend := h.ordered.le_end t List.mem_cons_self
  have hstop : t.offset ≤ t.stop := Nat.le_add_right _ _
  have hoffset : t.offset = t.pos.offset := rfl
  refine Nat.le_of_not_lt fun hlt => ?_
  obtain ⟨u, hu, hholds, hliteral⟩ := h.covered horigin (t.pos.lineOffset - 1) (by omega) (by omega)
    (ht.pos.getElem?_eq_newline (by omega))
  have hkind' := hliteral.resolve_right (by rw [h.lineStart_eq_false hkind]; exact nofun)
  exact hclear.start u hu hkind' _ (by omega) hholds

/-- Without a mark the walk starts within the line, which is taken as not indented. -/
theorem lineFirst_eq_iff_of_unmarked (hclear : ClearLine source origin t ts)
    (hnone : (t :: ts).find? (·.lineStart) = none) :
    t.pos.lineFirst source = t.pos.lineOffset ↔ OwnLine source origin t ts := by
  have hmark := h.lineOffset_le_lastMark horigin hkind hclear
  have hlast : lastMark origin (t :: ts) = origin.pos.offset := by rw [lastMark, hnone]; rfl
  rw [hlast] at hmark
  have hline : origin.lineStart = false := by
    refine Bool.eq_false_iff.mpr fun hline => ?_
    rcases h.exists_mark hline with ⟨hnil, _⟩ | ⟨u, hu, hmarked⟩
    · cases hnil
    · exact List.find?_eq_none.mp hnone u hu hmarked
  constructor
  · refine fun heq => ⟨fun u hu htext hholds => ?_, fun _ _ => heq⟩
    have hbehind := h.lt_offset_of_text horigin u hu htext
    have hle := hholds.1
    omega
  · exact fun hown => hown.origin hline hmark

/-- The last mark is the first byte of the line exactly if that is no text. -/
theorem lineFirst_eq_iff_of_marked (hstart : origin.lineStart = true → origin.pos.offset = 0)
    (hlt : t.offset < source.length) (hclear : ClearLine source origin t ts) {a : Token}
    (ha : (t :: ts).find? (·.lineStart) = some a) (hle : a.offset ≤ t.offset) :
    t.pos.lineFirst source = a.offset ↔ OwnLine source origin t ts := by
  have ht := (h.isIn horigin).2 t List.mem_cons_self
  have hmem := List.mem_of_find?_eq_some ha
  obtain ⟨hmarked, newer, older, hsplit, _⟩ := List.find?_eq_some_iff_append.mp ha
  have hordered := h.ordered
  rw [hsplit] at hordered
  have hmark := h.lineOffset_le_lastMark horigin hkind hclear
  have hlast : lastMark origin (t :: ts) = a.offset := by rw [lastMark, ha]; rfl
  rw [hlast] at hmark
  have hne := h.kind_ne_of_mark a hmem hmarked
  obtain ⟨hholds, b, hb, hwhite⟩ := h.holds_offset horigin hmem hne (by omega)
  -- The mark comes behind the end of a line, and that is the line before.
  have hbegins := (h.lined horigin).token a older ⟨newer, hsplit.symm⟩ hmarked
  have hbreak {i : Nat} (hi : source[i]? = some Byte.newline) (hia : i < a.offset) :
      i < t.pos.lineOffset := by
    refine Nat.lt_of_not_le fun hline => ?_
    exact ht.pos.getElem?_ne_newline hline (Nat.lt_of_lt_of_le hia hle) hi
  constructor
  · refine fun heq => ⟨fun u hu htext hu' => ?_, fun hfalse hwithin => ?_⟩
    · rw [hsplit] at hu
      rw [heq] at hu'
      exact hne (hordered.eq_of_holds hu hholds hu' ▸ htext)
    · rcases hbegins with ⟨_, htrue⟩ | ⟨i, hwalk, hia, hi, _⟩
      · rw [hfalse] at htrue
        cases htrue
      · have hline := hbreak hi hia
        omega
  · intro hown
    have hfirst := Position.lineFirst_le hmark hb hwhite
    have hline := Position.lineOffset_le_lineFirst source t.pos
    refine Nat.le_antisymm hfirst (Nat.le_of_not_lt fun hbefore => ?_)
    -- What holds the first byte is older than the mark, so it ends before the line.
    rcases hclear.first with hfront | ⟨u, hu, hu'⟩
    · rcases hbegins with ⟨_, htrue⟩ | ⟨i, hwalk, hia, hi, _⟩
      · have hzero := hstart htrue
        omega
      · have hi' := hbreak hi hia
        omega
    · have holder := hordered.mem_older (hsplit ▸ hu) hu' hbefore
      rcases hbegins with ⟨hnil, _⟩ | ⟨i, _, hia, hi, hold⟩
      · rw [hnil] at holder
        cases holder
      · have hi' := hbreak hi hia
        have hend := hold u holder fun htext => hown.text u hu htext hu'
        have hstop := hu'.2
        omega

/-- **What a walk remembers is the column of the first byte of the line exactly if the line is the
    walk's own.** -/
theorem indent_eq_iff (hstart : origin.lineStart = true → origin.pos.offset = 0)
    (hlt : t.offset < source.length) (hclear : ClearLine source origin t ts) :
    indent (t :: ts) = ((LineMap.ofText source).position (t.pos.lineFirst source)).column ↔
      OwnLine source origin t ts := by
  have ht := (h.isIn horigin).2 t List.mem_cons_self
  have hline := Position.lineOffset_le_lineFirst source t.pos
  obtain ⟨_, b, hb, hwhite⟩ := h.holds_offset horigin List.mem_cons_self hkind hlt
  have hcolumn := Position.column_lineFirst ht.pos
    (Position.lineFirst_le ht.pos.lineOffset_le hb hwhite)
  cases hfind : (t :: ts).find? (·.lineStart) with
  | none =>
    rw [← h.lineFirst_eq_iff_of_unmarked horigin hkind hclear hfind, indent, hfind]
    simp only [Option.map_none, Option.getD_none]
    omega
  | some a =>
    have hmem := List.mem_of_find?_eq_some hfind
    have hle : a.offset ≤ t.offset := by
      rcases List.mem_cons.mp hmem with rfl | hmem
      · exact Nat.le_refl _
      · have hstop := (List.pairwise_cons.mp h.ordered.pairwise).1 a hmem
        exact Nat.le_trans (Nat.le_add_right _ _) hstop
    have hmark := h.lineOffset_le_lastMark horigin hkind hclear
    have hlast : lastMark origin (t :: ts) = a.offset := by rw [lastMark, hfind]; rfl
    rw [hlast] at hmark
    have ha := (h.isIn horigin).2 a hmem
    -- The mark stands on the line of the last token, so its column counts from the same start.
    have hsame := ht.pos.lineOffset_eq ha.pos hmark hle
    have hcolumn' := ha.pos.column_le
    rw [← h.lineFirst_eq_iff_of_marked horigin hkind hstart hlt hclear hfind hle, indent, hfind]
    simp only [Option.map_some, Option.getD_some, Token.column, Token.offset]
    unfold Position.lineOffset at hsame
    unfold Position.lineOffset at hcolumn hline
    omega

end

/-- A scanned token is not empty, so it does not lie at the end. -/
theorem offset_lt (horigin : origin.IsIn source) (h : Walk source origin (t :: ts) c)
    (hkind : t.kind.isScanned = true) : t.offset < source.length := by
  have hstop := ((h.isIn horigin).2 t List.mem_cons_self).stop_le
  have hne : t.text ≠ [] := by
    cases h with
    | next hwalk => exact (Cursor.next_fits (hwalk.isIn horigin).1.rest_eq).text_ne hkind
    | back hwalk hclose => exact hclose.text_ne ((hwalk.isIn horigin).2 _ List.mem_cons_self)
    | text => cases hkind
  have hpos := List.length_pos_iff.mpr hne
  unfold Token.stop at hstop
  unfold Token.offset
  omega

end Walk

/-! ## 3. The headers of blocks -/

open Grammar

/-- The column of the first byte on the line of a token. -/
def Token.lineColumn (source : Text) (t : Token) : Nat :=
  ((LineMap.ofText source).position (t.pos.lineFirst source)).column

/-- The indentation that a reader remembers, against the line of its token. -/
theorem Grammar.State.Stands.lineIndent_eq_iff {s : State} (horigin : Origin source origin)
    (h : s.Stands source origin ts) (hkind : s.current.kind.isScanned = true)
    (hclear : Walk.ClearLine source origin s.current ts) :
    s.lineIndent = s.current.lineColumn source ↔ Walk.OwnLine source origin s.current ts := by
  have hne : s.current.kind ≠ .jsxText := fun heq => by rw [heq] at hkind; cases hkind
  rw [h.lineIndent_eq]
  exact h.walk.indent_eq_iff horigin.isIn hne horigin.offset_eq_zero
    (h.walk.offset_lt horigin.isIn hkind) hclear

section
variable {s u : State}

/-- The block of a modifier is read with the indentation at the modifier. -/
theorem modifierStmt_eq (c : Context) (hcolon : s.advance.current.kind = .punct .colon) :
    modifierStmt c s = (do
      let b ← c.inner.block s.lineIndent
      return Stmt.modifierBlock s.current.pos (modifierName s.current) b.pos b.body)
        s.advance.advance := by
  have hget : (get : Reading State) s = .ok (s, s) := rfl
  have htake : take s = .ok (s.current, s.advance) := rfl
  rw [modifierStmt, bind_of_eq_ok hget, bind_of_eq_ok htake,
    bind_of_eq_ok (accept_of_sees (decide_eq_true hcolon))]
  rfl

/-- The body of a function is read with the indentation at the arrow. -/
theorem arrow_eq (c : Context) {ps : List Param} (hparams : params c s = .ok (ps, u))
    (harrow : u.current.kind = .punct .arrow) :
    arrow c s = (do
      let e ← arrowBody c s.current.pos ps u.lineIndent
      reportAll (Check.restLast Check.restParam? ps)
      return e) u.advance := by
  have htoken : token s = .ok (s.current, s) := rfl
  have hget : (get : Reading State) u = .ok (u, u) := rfl
  rw [arrow, bind_of_eq_ok htoken, bind_of_eq_ok hparams, bind_of_eq_ok hget,
    bind_of_eq_ok (expect_of_sees (decide_eq_true harrow))]

/-- The first token of an indented block stands on a later line than the header, and deeper. -/
def Token.Opens (header : Nat) (t : Token) : Prop :=
  t.kind ≠ .eof ∧ t.lineStart = true ∧ header < t.column

instance (header : Nat) (t : Token) : Decidable (t.Opens header) :=
  inferInstanceAs (Decidable (_ ∧ _))

/-- A block that is indented is read from a token that opens it, and is missing before another. -/
theorem indentedBlock_eq (c : Context) (header : Nat) (s : State) :
    indentedBlock c header s = if s.current.Opens header then (do
        let body ← outsideBrackets (statements c (.indented s.current.column) ())
        return Block.mk s.current.pos body) s
      else .ok (⟨s.current.pos, []⟩, s.fault .noBlock s.current.pos) := by
  have htoken : token s = .ok (s.current, s) := rfl
  have hopens : (s.current.kind = .eof || !s.current.lineStart || s.current.column ≤ header) = true ↔
      ¬ s.current.Opens header := by
    unfold Token.Opens
    simp only [Bool.or_eq_true, decide_eq_true_eq, Bool.not_eq_true']
    grind
  rw [indentedBlock, bind_of_eq_ok htoken]
  by_cases h : s.current.Opens header
  · rw [if_pos h, if_neg fun hcut => hopens.mp hcut h]
  · rw [if_neg h, if_pos (hopens.mpr h)]
    rfl

end

/-- **The header that an indented block is read with, and the line that the header stands on.**
    Reading starts, goes on and starts anew in a hole among the states that are reached. In such a
    state the block of a modifier or of an arrow is read with the indentation that the state
    remembers, and exactly if its first token stands deeper. On a clear line that indentation is the
    column of the line's first byte exactly if the line is the header's own. -/
theorem block_header_column (source : Text) (rounds n : Nat) (s : State) (hs : s.Reached source) :
    let c := (Context.ground source rounds).raised n
    ((State.ofText source).Reached source ∧ c.InSteps source ∧
      (∀ st u, statement c s = .ok (st, u) → u.Reached source) ∧
      ∀ h ∈ (Template.split s.current.pos s.current.text).holes, ∀ nesting depth,
        State.Reached source
          { State.start (Cursor.place source h.pos) with nesting := nesting, depth := depth }) ∧
    (s.advance.current.kind = .punct .colon →
      modifierStmt c s = (do
        let b ← c.inner.block s.lineIndent
        return Stmt.modifierBlock s.current.pos (modifierName s.current) b.pos b.body)
          s.advance.advance) ∧
    (∀ ps u, params c s = .ok (ps, u) → u.current.kind = .punct .arrow →
      u.Reached source ∧ arrow c s = (do
        let e ← arrowBody c s.current.pos ps u.lineIndent
        reportAll (Check.restLast Check.restParam? ps)
        return e) u.advance) ∧
    (∀ header, indentedBlock c header s = if s.current.Opens header then (do
        let body ← outsideBrackets (statements c (.indented s.current.column) ())
        return Block.mk s.current.pos body) s
      else .ok (⟨s.current.pos, []⟩, s.fault .noBlock s.current.pos)) ∧
    (∃ origin ts, Origin source origin ∧ s.Stands source origin ts) ∧
    ∀ origin ts, Origin source origin → s.Stands source origin ts →
      s.current.kind = .modifier ∨ s.current.kind = .punct .arrow →
      Walk.ClearLine source origin s.current ts →
      (s.lineIndent = s.current.lineColumn source ↔ Walk.OwnLine source origin s.current ts) := by
  intro c
  have hreached : ∀ {α : Type} {x : Reading α} [InSteps source x] {a : α} {u : State},
      x s = .ok (a, u) → u.Reached source := fun h => hs.steps (InSteps.steps h)
  refine ⟨⟨.start .whole, inferInstance, fun st u => hreached, fun h hh => hs.hole hh⟩,
    modifierStmt_eq c, fun ps u hps harrow => ⟨hreached hps, arrow_eq c hps harrow⟩,
    fun header => indentedBlock_eq c header s, hs.stands,
    fun origin ts horigin hstands hkind hclear => ?_⟩
  refine hstands.lineIndent_eq_iff horigin ?_ hclear
  rcases hkind with hkind | hkind <;> rw [hkind] <;> rfl

/-! ## 4. A line that starts with text -/

/-- The line of the arrow starts with text. -/
def textLine : Text := txt "<a>\n  text \x7bx =>\n    y\x7d\n</a>"

/-- A reader of that source where the opening tag ends. -/
def textLineTag : State := (State.ofText textLine).advance.advance

/-- The same reader at the arrow. -/
def textLineArrow : State :=
  ((textLineTag.reenter textLine 1).accept
    (Cursor.inside textLine textLineTag.current 1).jsxText).advance.advance.advance

theorem closes_textLineTag : textLineTag.current.Closes 1
    { textLineTag.current with kind := .punct .greater, text := [Byte.greater] } :=
  .tag (by decide +kernel) (by decide +kernel)

theorem textLineArrow_reached : textLineArrow.Reached textLine :=
  State.Reached.steps (.start .whole) <|
    (((((Relation.ReflTransGen.single (.next _)).tail (.next _)).tail (.text closes_textLineTag)).tail
      (.next _)).tail (.next _)).tail (.next _)

/-- The line can be judged: its first byte is in the text, and no token is a string or a template. -/
theorem textLineArrow_stands : ∃ ts,
    textLineArrow.Stands textLine (Cursor.ofText textLine) ts ∧
    Walk.ClearLine textLine (Cursor.ofText textLine) textLineArrow.current ts := by
  have htag := (State.stands_start textLine (Cursor.ofText textLine)).next.next
  have hin := htag.isIn Origin.whole.isIn
  refine ⟨_, (htag.text hin closes_textLineTag).next.next.next, fun u hu hliteral => ?_, .inr ?_⟩
  · refine absurd hliteral ?_
    revert u
    decide +kernel
  · decide +kernel

/-- The line of the arrow is indented by two bytes, but the brace before the parameter counts. -/
theorem textLine_not_ownLine : textLineArrow.Reached textLine ∧
    textLineArrow.current.kind = .punct .arrow ∧
    textLineArrow.lineIndent = 8 ∧ textLineArrow.current.lineColumn textLine = 3 ∧
    ∃ ts, textLineArrow.Stands textLine (Cursor.ofText textLine) ts ∧
      Walk.ClearLine textLine (Cursor.ofText textLine) textLineArrow.current ts ∧
      ¬ Walk.OwnLine textLine (Cursor.ofText textLine) textLineArrow.current ts := by
  have hkind : textLineArrow.current.kind = .punct .arrow := by decide +kernel
  have hindent : textLineArrow.lineIndent = 8 := by decide +kernel
  have hcolumn : textLineArrow.current.lineColumn textLine = 3 := by decide +kernel
  obtain ⟨ts, hstands, hclear⟩ := textLineArrow_stands
  refine ⟨textLineArrow_reached, hkind, hindent, hcolumn, ts, hstands, hclear, fun hown => ?_⟩
  obtain ⟨_, _, _, _, _, hiff⟩ := block_header_column textLine 0 0 _ textLineArrow_reached
  have heq := (hiff _ ts .whole hstands (.inr hkind) hclear).mpr hown
  rw [hindent, hcolumn] at heq
  cases heq

end ReactiveScript
