import ReactiveScript.Proofs.Grammar.Cleanly
import ReactiveScript.Proofs.Grammar.Reached
import ReactiveScript.Proofs.Grammar.Throughout

/-!
# Statements and their lines

The statements of a program and of an indented block each start a line, all in one column; those of
a block in braces start a line each, the first one apart. A token starts a line if all tokens that
the reader has read before it end in front of the line. The reader marks such tokens; it also marks
a token behind text between tags that holds the end of a line, whatever else stands on the line, but
it never finds a statement there.
-/

namespace ReactiveScript

variable {source : Text} {origin : Cursor} {ts : List Token}

/-! ## 1. Lines and columns -/

/-- On a walk, the first token of a line stands here: the walk starts in front of the line, and all
    tokens before this one end there. -/
def FirstOfLine (origin : Cursor) (ts : List Token) (p : Position) : Prop :=
  ∃ t older, t :: older <:+ ts ∧ t.pos = p ∧ origin.pos.offset ≤ p.lineOffset ∧
    ∀ u ∈ older, u.stop ≤ p.lineOffset

/-- On a walk, each statement starts a line, and all stand in one column. -/
structure Aligned (origin : Cursor) (ts : List Token) (ss : List Stmt) : Prop where
  firstOfLine : ∀ s ∈ ss, FirstOfLine origin ts s.pos
  column : ∃ column, ∀ s ∈ ss, s.pos.column = column

/-- A reader of the source has come from its origin to these statements, and a run at a level of the
    grammar gives them, laid out so. It ends on the walk of these tokens, the last one first. -/
def Grammar.ReadOn {σ : Type} (source : Text) (l : Layout σ) (memory : σ) (origin : Cursor)
    (ts : List Token) (body : List Stmt) : Prop :=
  ∃ (c : Context) (s t : State) (us : List Token), c.Level source ∧ Origin source origin ∧
    State.Steps source (State.start origin) s ∧ statements c l memory s = .ok (body, t) ∧
    t.Stands source origin us ∧ ts = t.current :: us

/-- The statements of a block, on the walk of the reader that has read them: in braces all but the
    first start a line, without braces they are aligned. -/
def LaidOut (source : Text) (block : Position) (body : List Stmt) : Prop :=
  ∃ origin ts, (Grammar.ReadOn source .braces true origin ts body ∨
      ∃ column, Grammar.ReadOn source (.indented column) () origin ts body) ∧
    (∀ s ∈ body, ∃ t ∈ ts, t.pos = s.pos) ∧
    (source[block.offset]? = some Byte.openBrace → ∀ s ∈ body.tail, FirstOfLine origin ts s.pos) ∧
    (source[block.offset]? ≠ some Byte.openBrace → Aligned origin ts body)

theorem Aligned.laidOut {block : Position} {body : List Stmt} {column : Nat}
    (hread : Grammar.ReadOn source (.indented column) () origin ts body)
    (h : Aligned origin ts body) : LaidOut source block body := by
  refine ⟨origin, ts, .inr ⟨column, hread⟩, fun s hs => ?_, fun _ s hs => ?_, fun _ => h⟩
  · obtain ⟨t, older, ht, hpos, -⟩ := h.firstOfLine s hs
    exact ⟨t, ht.subset List.mem_cons_self, hpos⟩
  · exact h.firstOfLine s (List.mem_of_mem_tail hs)

/-- A marked token of a walk starts a line, unless text between tags stands right before it. -/
theorem Walk.firstOfLine {c : Cursor} {t : Token} (horigin : Grammar.Origin source origin)
    (h : Walk source origin (t :: ts) c) (hmark : t.lineStart = true)
    (htext : ∀ u ∈ ts.head?, u.kind ≠ .jsxText) : FirstOfLine origin (t :: ts) t.pos := by
  refine ⟨t, ts, List.suffix_rfl, rfl, ?_⟩
  have ht := (h.isIn horigin.isIn).2 t List.mem_cons_self
  have hpairwise := (List.pairwise_cons.mp h.ordered.pairwise).2
  rcases (h.lined horigin.isIn).token t ts List.suffix_rfl hmark with
    ⟨rfl, hline⟩ | ⟨i, hstart, hlt, hnewline, hold⟩
  · rw [horigin.offset_eq_zero hline]
    exact ⟨Nat.zero_le _, nofun⟩
  · have hi : i < t.pos.lineOffset :=
      Nat.lt_of_not_le fun hle => ht.pos.getElem?_ne_newline hle hlt hnewline
    refine ⟨by omega, fun u hu => ?_⟩
    suffices hstop : u.stop ≤ i by omega
    -- Older texts end before the token that was read last, which is none.
    cases ts with
    | nil => cases hu
    | cons last older =>
      have hlast := hold last List.mem_cons_self (htext last rfl)
      rcases List.mem_cons.mp hu with rfl | hu
      · exact hlast
      · have hle := (List.pairwise_cons.mp hpairwise).1 u hu
        have hstop : last.offset ≤ last.stop := Nat.le_add_right _ _
        omega

namespace Grammar

/-! ## 2. Readers -/

/-- A reader of the source that has not given up. -/
structure State.Going (source : Text) (s : State) : Prop where
  reached : s.Reached source
  tooDeep : s.tooDeep = false
  depth_le : s.depth ≤ maxDepth

/-- Neither the current token nor the one before is text between tags. -/
structure State.Fit (source : Text) (s : State) : Prop extends State.Going source s where
  holdsToken : s.HoldsToken
  previous : s.previous.kind ≠ .jsxText

/-- The current token is text between tags. -/
structure State.InText (source : Text) (s : State) : Prop extends State.Going source s where
  kind_eq : s.current.kind = .jsxText

section
variable {s t : State} {depth : Nat}

/-- A change of the place of a reader. -/
theorem State.Going.steps (hs : s.Going source) (hsteps : State.Steps source s t)
    (hdeep : t.tooDeep = s.tooDeep) (hdepth : t.depth = s.depth) : t.Going source :=
  ⟨hs.reached.steps hsteps, hdeep.trans hs.tooDeep, hdepth ▸ hs.depth_le⟩

theorem State.Going.advance (hs : s.Going source) : s.advance.Going source :=
  hs.steps (.single (.next s)) s.advance_tooDeep s.advance_depth

theorem State.Going.fit_advance (hs : s.Going source) (hkind : s.HoldsToken) :
    s.advance.Fit source := by
  refine ⟨hs.advance, State.holdsToken_advance s, ?_⟩
  rw [State.advance_previous]
  exact hkind

theorem State.Fit.advance (hs : s.Fit source) : s.advance.Fit source :=
  hs.fit_advance hs.holdsToken

/-- A change of what a reader counts, other than the depth. -/
theorem State.Fit.recount (hs : s.Fit source) (nesting braceBlocks : Nat) :
    State.Fit source { s with nesting := nesting, braceBlocks := braceBlocks } :=
  ⟨hs.toGoing.steps (.single (.recount s _ _ _ _)) rfl rfl, hs.holdsToken, hs.previous⟩

theorem State.Going.redepth (hs : s.Going source) (hle : depth ≤ maxDepth) :
    State.Going source { s with depth := depth } :=
  ⟨hs.reached.steps (.single (.recount s _ _ _ _)), hs.tooDeep, hle⟩

theorem State.Fit.redepth (hs : s.Fit source) (hle : depth ≤ maxDepth) :
    State.Fit source { s with depth := depth } :=
  ⟨hs.toGoing.redepth hle, hs.holdsToken, hs.previous⟩

/-- A reader starts fit, with counts that it is given. -/
theorem State.fit_start {nesting : Nat} (hdepth : depth ≤ maxDepth)
    (h : State.Reached source { State.start origin with nesting := nesting, depth := depth }) :
    State.Fit source { State.start origin with nesting := nesting, depth := depth } := by
  refine ⟨⟨h, State.advance_tooDeep _, hdepth⟩, State.holdsToken_advance _, ?_⟩
  rw [State.start, State.advance_previous]
  exact Kind.noConfusion

/-- **What a reader has marked starts a line**, unless it stands behind text. -/
theorem State.Stands.firstOfLine (horigin : Origin source origin) (h : s.Stands source origin ts)
    (hprevious : s.previous.kind ≠ .jsxText) (hmark : s.current.lineStart = true) :
    FirstOfLine origin (s.current :: ts) s.current.pos :=
  h.walk.firstOfLine horigin hmark fun u hu hkind => hprevious (h.previous u hu hkind)

/-- What starts a line starts it for good. -/
theorem Kept.firstOfLine {us : List Token} (hkept : Kept ts us) {p : Position}
    (h : FirstOfLine origin ts p) : FirstOfLine origin us p := by
  obtain ⟨t, older, ht, rfl, hline⟩ := h
  obtain ⟨t', hpos, ht'⟩ := hkept ht
  exact ⟨t', older, ht', hpos, hline⟩

theorem Kept.exists_pos_eq {us : List Token} (hkept : Kept ts us) {p : Position}
    (h : ∃ t ∈ ts, t.pos = p) : ∃ t ∈ us, t.pos = p := by
  obtain ⟨t, ht, rfl⟩ := h
  obtain ⟨newer, older, rfl⟩ := List.append_of_mem ht
  obtain ⟨t', hpos, ht'⟩ := hkept (List.suffix_append newer (t :: older))
  exact ⟨t', ht'.subset List.mem_cons_self, hpos⟩

end

/-! ## 3. Where statements stand -/

/-- The statement that is read stands at this place. -/
abbrev StandsAt (p : Position) (x : Reading Stmt) (s : State) : Prop :=
  Always x s fun st _ => st.pos = p

section
variable {c : Context} {p : Position} {m : Option Text} {s : State}

theorem standsAt_expressionStmt : StandsAt p (expressionStmt c m p) s :=
  .seq fun _ _ _ => .seq fun _ _ _ => .pure rfl

theorem standsAt_returnStmt : StandsAt p (returnStmt c m p) s :=
  .seq fun _ _ _ => .seq fun _ _ _ => .seq fun _ _ _ => .seq fun _ _ _ => .pure rfl

theorem standsAt_importSome : StandsAt p (importSome c p) s := by
  refine .seq fun _ _ _ => .ite (fun _ => .seq fun _ _ _ => ?_) fun _ => ?_
  · exact .seq fun _ _ _ => .seq fun _ _ _ => .seq fun _ _ _ => .pure rfl
  · exact .seq fun _ _ _ => .seq fun _ _ _ => .seq fun _ _ _ => .pure rfl

theorem standsAt_exportDeclaration : StandsAt p (exportDeclaration c p) s := by
  refine .seq fun _ _ _ => .seq fun _ _ _ => .seq fun _ _ _ => .seq fun _ _ _ => ?_
  exact .ite (fun _ => .seq fun _ _ _ => .pure rfl) fun _ => .pure rfl

theorem standsAt_importAll : StandsAt p (importAll p) s :=
  .seq fun _ _ _ => .seq fun _ _ _ => .seq fun _ _ _ => .seq fun _ _ _ => .pure rfl

theorem standsAt_modifierStmt : StandsAt s.current.pos (modifierStmt c) s := by
  refine .step rfl (.step rfl (.seq fun _ _ _ => .ite (fun _ => ?_) fun _ => .seq fun _ _ _ => ?_))
  · exact .seq fun _ _ _ => .pure rfl
  · exact .ite (fun _ => standsAt_returnStmt) fun _ => standsAt_expressionStmt

theorem standsAt_exportStmt : StandsAt s.current.pos (exportStmt c) s := by
  refine .step rfl (.seq fun _ _ _ => .ite (fun _ => ?_) fun _ => .seq fun _ _ _ => .ite ?_ ?_)
  · exact .seq fun _ _ _ => .seq fun _ _ _ => .pure rfl
  · exact fun _ => .seq fun _ _ _ => .seq fun _ _ _ => .seq fun _ _ _ => .pure rfl
  · exact fun _ => standsAt_exportDeclaration

theorem standsAt_importStmt : StandsAt s.current.pos (importStmt c) s := by
  refine .step rfl (.seq fun _ _ _ => .ite (fun _ => standsAt_importAll) fun _ => ?_)
  refine .seq fun _ _ _ => .ite (fun _ => ?_) fun _ => standsAt_importSome
  exact .seq fun _ _ _ => .pure rfl

/-- **A statement stands where its first token does.** -/
theorem standsAt_statement : StandsAt s.current.pos (statement c) s := by
  refine .step rfl ?_
  split
  · exact standsAt_modifierStmt
  · exact standsAt_returnStmt
  · exact standsAt_exportStmt
  · exact standsAt_importStmt
  · exact standsAt_expressionStmt

theorem standsAt_checked : StandsAt s.current.pos (checked c) s := by
  refine .step rfl (.bind standsAt_statement fun st t hst => .step rfl (.ite (fun _ => ?_) fun _ => ?_))
  · exact .seq fun _ _ _ => .seq fun _ _ _ => .pure hst
  · exact .pure hst

end

/-! ## 4. Layouts -/

/-- What a layout says of the statements read so far, last first, as they stand on the walk. It goes
    on to hold when the walk goes on, and when a statement is read where the reader stands. -/
structure Layout.Keeps {σ : Type} (source : Text) (origin : Cursor) (l : Layout σ)
    (I : σ → List Token → List Stmt → Prop) : Prop where
  kept : ∀ {memory : σ} {ts us : List Token} {done : List Stmt},
    I memory ts done → Kept ts us → I memory us done
  read : ∀ {memory : σ} {ts : List Token} {done : List Stmt} {s : State} {st : Stmt},
    I memory (s.current :: ts) done → s.Stands source origin ts → s.previous.kind ≠ .jsxText →
    l.turn memory s.current = .read → st.pos = s.current.pos →
    I (l.after memory s.current) (s.current :: ts) (st :: done)

/-- The statements start lines, in the column that is remembered. -/
def InColumn (origin : Cursor) (column : Option Nat) (ts : List Token) (done : List Stmt) : Prop :=
  ∀ st ∈ done, FirstOfLine origin ts st.pos ∧ column = some st.pos.column

section
variable {column : Nat} {done : List Stmt} {t : Token}

theorem InColumn.kept {us : List Token} {column : Option Nat} (h : InColumn origin column ts done)
    (hkept : Kept ts us) : InColumn origin column us done :=
  fun st hst => ⟨hkept.firstOfLine (h st hst).1, (h st hst).2⟩

theorem InColumn.aligned {column : Option Nat} {ss : List Stmt}
    (h : InColumn origin column ts ss.reverse) : Aligned origin ts ss := by
  refine ⟨fun st hst => (h st (List.mem_reverse.mpr hst)).1, column.getD 0, fun st hst => ?_⟩
  rw [(h st (List.mem_reverse.mpr hst)).2]
  rfl

/-- One more statement in the column. -/
theorem InColumn.cons (h : InColumn origin (some column) ts done) {p : Position}
    (hfirst : FirstOfLine origin ts p) (hcolumn : column = p.column) {st : Stmt} (hpos : st.pos = p) :
    InColumn origin (some column) ts (st :: done) := by
  refine List.forall_mem_cons.mpr ⟨?_, h⟩
  rw [hpos, hcolumn]
  exact ⟨hfirst, rfl⟩

/-- A program goes on with a marked token in the column of the statements before. -/
theorem Layout.program_read {column : Option Nat} (h : Layout.program.turn column t = .read) :
    t.lineStart = true ∧ ∀ k, column = some k → k = t.column := by
  simp only [Layout.program] at h
  split at h
  · cases h
  · split at h
    · cases h
    · rename_i hmark
      split at h
      · cases h
      · rename_i hsame
        refine ⟨by simpa using hmark, ?_⟩
        rintro k rfl
        simpa using hsame

/-- A program ends at the end of the source only. -/
theorem Layout.program_done {column : Option Nat} (h : Layout.program.turn column t = .done) :
    t.kind = .eof := by
  simp only [Layout.program] at h
  split at h
  · assumption
  · split at h
    · cases h
    · split at h <;> cases h

theorem Layout.indented_read (h : (Layout.indented column).turn () t = .read) :
    t.lineStart = true ∧ column = t.column := by
  simp only [Layout.indented] at h
  split at h
  · cases h
  · rename_i hin
    split at h
    · cases h
    · simp only [Bool.or_eq_true, Bool.not_eq_true', decide_eq_true_eq, not_or] at hin
      exact ⟨by simpa using hin.1.2, by omega⟩

theorem Layout.braces_read (h : Layout.braces.turn false t = .read) : t.lineStart = true := by
  simp only [Layout.braces] at h
  split at h
  · cases h
  · split at h
    · cases h
    · rename_i hmark
      simpa using hmark

variable (horigin : Origin source origin)
include horigin

theorem Layout.keeps_program : Layout.program.Keeps source origin (InColumn origin) where
  kept := InColumn.kept
  read := by
    intro column ts done s st hdone hs hprevious hturn hpos
    obtain ⟨hmark, hsame⟩ := program_read hturn
    refine InColumn.cons (fun st' hst' => ?_) (hs.firstOfLine horigin hprevious hmark) rfl hpos
    obtain ⟨hline, hcolumn⟩ := hdone st' hst'
    exact ⟨hline, congrArg some (hsame _ hcolumn).symm⟩

theorem Layout.keeps_indented :
    (Layout.indented column).Keeps source origin fun _ => InColumn origin (some column) where
  kept := InColumn.kept
  read := by
    intro _ ts done s st hdone hs hprevious hturn hpos
    obtain ⟨hmark, hcolumn⟩ := indented_read hturn
    exact hdone.cons (hs.firstOfLine horigin hprevious hmark) hcolumn hpos

/-- The statements of a block in braces, last first: the first one may stand anywhere. -/
structure ApartFromFirst (origin : Cursor) (first : Bool) (ts : List Token) (done : List Stmt) :
    Prop where
  nil : first = true → done = []
  onToken : ∀ st ∈ done, ∃ t ∈ ts, t.pos = st.pos
  firstOfLine : ∀ st ∈ done.dropLast, FirstOfLine origin ts st.pos

theorem Layout.keeps_braces : Layout.braces.Keeps source origin (ApartFromFirst origin) where
  kept h hkept := ⟨h.nil, fun st hst => hkept.exists_pos_eq (h.onToken st hst),
    fun st hst => hkept.firstOfLine (h.firstOfLine st hst)⟩
  read := by
    intro first ts done s st hdone hs hprevious hturn hpos
    have htoken : ∃ t ∈ s.current :: ts, t.pos = st.pos := ⟨_, List.mem_cons_self, hpos.symm⟩
    refine ⟨nofun, List.forall_mem_cons.mpr ⟨htoken, hdone.onToken⟩, ?_⟩
    cases done with
    | nil => exact nofun
    | cons last done =>
      obtain rfl : first = false :=
        Bool.eq_false_iff.mpr fun h => List.cons_ne_nil _ _ (hdone.nil h)
      refine List.forall_mem_cons.mpr ⟨?_, hdone.firstOfLine⟩
      rw [hpos]
      exact hs.firstOfLine horigin hprevious (braces_read hturn)

end

end Grammar

end ReactiveScript
