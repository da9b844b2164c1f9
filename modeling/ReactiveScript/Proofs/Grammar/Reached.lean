import ReactiveScript.Proofs.Grammar.Steps

/-!
# Where a reading can come to

A reader starts at the first byte of its source, or, for a hole of a template that another reader
holds, at the place of the hole, in the middle of a line. From there it goes on by steps. What it
has read on the way is a walk, and the indentation that it remembers is that of the walk.
-/

namespace ReactiveScript.Grammar

variable {source : Text} {origin : Cursor} {ts : List Token} {s t : State}

/-- The places where a reader of the source starts: its first byte, and the holes in the token that
    a reader holds. -/
inductive Origin (source : Text) : Cursor → Prop
  | whole : Origin source (Cursor.ofText source)
  | hole {origin : Cursor} {s : State} {h : Template.Hole} (horigin : Origin source origin)
      (hs : State.Steps source (State.start origin) s)
      (hh : h ∈ (Template.split s.current.pos s.current.text).holes) :
      Origin source (Cursor.place source h.pos)

/-- The states that a reader of the source can come to. -/
def State.Reached (source : Text) (s : State) : Prop :=
  ∃ origin, Origin source origin ∧ State.Steps source (State.start origin) s

/-- The state at the end of a walk: its token is the last one read, and it remembers the column of
    the last token that is marked as the first of its line. -/
structure State.Stands (source : Text) (origin : Cursor) (ts : List Token) (s : State) : Prop where
  walk : Walk source origin (s.current :: ts) s.cursor
  lineIndent_eq : s.lineIndent = Walk.indent (s.current :: ts)
  previous : ∀ t ∈ ts.head?, t.kind = .jsxText → s.previous.kind = .jsxText

/-! ## 1. Steps of a walk -/

/-- What was read stays read: each token of the earlier walk is one of the later, with the same tokens
    before it. Of the last one the end may have been dropped. -/
def Kept (ts us : List Token) : Prop :=
  ∀ ⦃t : Token⦄ ⦃older : List Token⦄, t :: older <:+ ts → ∃ t', t'.pos = t.pos ∧ t' :: older <:+ us

theorem Kept.refl (ts : List Token) : Kept ts ts := fun t _ h => ⟨t, rfl, h⟩

theorem Kept.trans {ts us vs : List Token} (h : Kept ts us) (h' : Kept us vs) : Kept ts vs := by
  intro t older ht
  obtain ⟨u, hu, hus⟩ := h ht
  obtain ⟨v, hv, hvs⟩ := h' hus
  exact ⟨v, hv.trans hu, hvs⟩

theorem kept_cons (t : Token) (ts : List Token) : Kept ts (t :: ts) :=
  fun u _ h => ⟨u, rfl, h.trans (List.suffix_cons t ts)⟩

/-- The last token of a walk gives way to one at its place. -/
theorem kept_of_pos_eq {t t' : Token} (h : t'.pos = t.pos) (u : Token) (ts : List Token) :
    Kept (t :: ts) (u :: t' :: ts) := by
  intro v older hv
  rcases List.suffix_cons_iff.mp hv with heq | hv
  · cases heq
    exact ⟨t', h, List.suffix_cons _ _⟩
  · exact ⟨v, rfl, hv.trans ((List.suffix_cons t' ts).trans (List.suffix_cons u _))⟩

namespace State

/-- A reader starts with its first token. -/
theorem stands_start (source : Text) (origin : Cursor) :
    (start origin).Stands source origin [] := by
  refine ⟨?_, ?_, nofun⟩
  · rw [start, advance_current, advance_cursor]
    exact .next .start
  · rw [start, advance_lineIndent, advance_current, Walk.indent_cons]
    rfl

theorem Stands.next (h : s.Stands source origin ts) :
    s.advance.Stands source origin (s.current :: ts) := by
  refine ⟨?_, ?_, fun t ht hkind => ?_⟩
  · rw [advance_current, advance_cursor]
    exact h.walk.next
  · rw [advance_lineIndent, advance_current, Walk.indent_cons, h.lineIndent_eq]
  · cases ht
    rw [advance_previous]
    exact hkind

section
variable {width : Nat} {token : Token}

/-- What is left of a token is marked as the token was. -/
theorem indent_of_closes (hclose : s.current.Closes width token) :
    Walk.indent (token :: ts) = Walk.indent (s.current :: ts) := by
  rw [Walk.indent_cons, Walk.indent_cons, hclose.lineStart_eq, Token.column, Token.column,
    hclose.pos_eq]

/-- The place that a reader goes back to. -/
theorem inside_of_closes (hclose : s.current.Closes width token) (hin : s.current.IsIn source) :
    Cursor.inside source s.current width = Cursor.behind source token := by
  unfold Cursor.behind
  rw [hclose.length_eq hin, Cursor.inside, Cursor.inside, hclose.pos_eq]

theorem Stands.text (hin : s.current.IsIn source) (h : s.Stands source origin ts)
    (hclose : s.current.Closes width token) :
    ((s.reenter source width).accept (Cursor.inside source s.current width).jsxText).Stands
      source origin (token :: ts) := by
  rw [inside_of_closes hclose hin]
  refine ⟨h.walk.text hclose, ?_, fun t ht hkind => ?_⟩
  · exact h.lineIndent_eq.trans (indent_of_closes hclose).symm
  · cases ht
    exact absurd hkind hclose.kind_ne.2

theorem Stands.back (hin : s.current.IsIn source) (h : s.Stands source origin ts)
    (hclose : s.current.Closes width token) :
    (s.reenter source width).advance.Stands source origin (token :: ts) := by
  have hplace := inside_of_closes hclose hin
  have hwalk := (h.walk.back hclose).next
  refine ⟨?_, ?_, fun t ht hkind => ?_⟩
  · rw [advance_current, advance_cursor, reenter, hplace]
    exact hwalk
  · rw [advance_lineIndent, advance_current, reenter, hplace, Walk.indent_cons,
      indent_of_closes hclose]
    simp only [h.lineIndent_eq]
  · cases ht
    exact absurd hkind hclose.kind_ne.2

end

theorem Stands.isIn (horigin : origin.IsIn source) (h : s.Stands source origin ts) :
    s.current.IsIn source :=
  (h.walk.isIn horigin).2 _ List.mem_cons_self

/-- **One step of a reader goes on with its walk.** -/
theorem Stands.step (horigin : origin.IsIn source) (h : s.Stands source origin ts)
    (hstep : Step source s t) :
    ∃ us, t.Stands source origin us ∧ Kept (s.current :: ts) (t.current :: us) := by
  cases hstep with
  | next => exact ⟨_, h.next, kept_cons _ _⟩
  | back hclose => exact ⟨_, h.back (h.isIn horigin) hclose, kept_of_pos_eq hclose.pos_eq _ _⟩
  | text hclose => exact ⟨_, h.text (h.isIn horigin) hclose, kept_of_pos_eq hclose.pos_eq _ _⟩
  | report => exact ⟨ts, ⟨h.walk, h.lineIndent_eq, h.previous⟩, .refl _⟩
  | recount => exact ⟨ts, ⟨h.walk, h.lineIndent_eq, h.previous⟩, .refl _⟩

theorem Stands.steps (horigin : origin.IsIn source) (h : s.Stands source origin ts)
    (hsteps : Steps source s t) :
    ∃ us, t.Stands source origin us ∧ Kept (s.current :: ts) (t.current :: us) := by
  induction hsteps with
  | refl => exact ⟨ts, h, .refl _⟩
  | tail _ hstep ih =>
    obtain ⟨us, hus, hkept⟩ := ih
    obtain ⟨vs, hvs, hkept'⟩ := hus.step horigin hstep
    exact ⟨vs, hvs, hkept.trans hkept'⟩

end State

/-! ## 2. Origins -/

theorem Origin.isIn (h : Origin source origin) : origin.IsIn source := by
  induction h with
  | whole => exact Cursor.isIn_ofText source
  | hole _ hs hh ih =>
    obtain ⟨ts, hts, -⟩ := (State.stands_start source _).steps ih hs
    exact Cursor.isIn_place (Template.isIn_holes (hts.isIn ih) _ hh).pos

/-- Only the first byte of a source starts a line by itself. -/
theorem Origin.offset_eq_zero (h : Origin source origin) (hline : origin.lineStart = true) :
    origin.pos.offset = 0 := by
  cases h with
  | whole => rfl
  | hole => cases hline

namespace State.Reached

theorem start (horigin : Origin source origin) : (State.start origin).Reached source :=
  ⟨origin, horigin, .refl⟩

theorem steps (h : s.Reached source) (hsteps : Steps source s t) : t.Reached source := by
  obtain ⟨origin, horigin, hs⟩ := h
  exact ⟨origin, horigin, hs.trans hsteps⟩

/-- The reader of a hole starts with counts that it is given. -/
theorem hole (hs : s.Reached source) {h : Template.Hole}
    (hh : h ∈ (Template.split s.current.pos s.current.text).holes) (nesting depth : Nat) :
    State.Reached source
      { State.start (Cursor.place source h.pos) with nesting := nesting, depth := depth } := by
  obtain ⟨origin, horigin, hsteps⟩ := hs
  exact (start (.hole horigin hsteps hh)).steps (.single (.recount _ _ _ _ _))

/-- **Every state that is reached stands at the end of a walk.** -/
theorem stands (h : s.Reached source) :
    ∃ origin ts, Origin source origin ∧ s.Stands source origin ts := by
  obtain ⟨origin, horigin, hs⟩ := h
  obtain ⟨ts, hts, -⟩ := (stands_start source origin).steps horigin.isIn hs
  exact ⟨origin, ts, horigin, hts⟩

end State.Reached

end ReactiveScript.Grammar
