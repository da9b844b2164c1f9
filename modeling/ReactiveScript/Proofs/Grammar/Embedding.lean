import Mathlib.Data.Nat.Find
import ReactiveScript.Proofs.Grammar.Levels
import ReactiveScript.Proofs.Grammar.MirroredExpressions
import ReactiveScript.Proofs.Grammar.Rounds
import ReactiveScript.Proofs.Grammar.Units

/-!
# An accepted text inside a wider source

A reader can start some levels down, as it does inside a construct. What it accepts there it accepts
at the top and, if the construct leaves it alone, inside the construct.
-/

namespace ReactiveScript.Grammar

/-! ## 1. Readers that start some levels down -/

/-- A single expression up to the end of the source, so many levels down. -/
def expressionFrom (n : Nat) (c : Context) : Reading Expr := do
  modify fun s => { s with depth := n }
  wholeExpression c

/-- The reader of a single expression at the start of a source, so many levels down. -/
def firstReader (n : Nat) (source : Text) : State :=
  { State.ofText source with nesting := 1, depth := n }

theorem firstReader_eq (n : Nat) (source : Text) :
    firstReader n source =
      State.advance { cursor := Cursor.ofText source, nesting := 1, depth := n } := by
  unfold firstReader State.ofText State.start State.advance
  dsimp only [State.accept]
  split <;> rfl

theorem sound_firstReader (n : Nat) (source : Text) : (firstReader n source).spot.Sound source := by
  rw [firstReader_eq]
  exact sound_advance (Cursor.isIn_ofText source) rfl

/-- A clean run of a whole expression ends at the end of the source. -/
theorem run_of_expressionFrom {source : Text} {rounds n : Nat} {e : Expr} {t : State}
    (h : expressionFrom n (Context.ofSource source rounds) (State.ofText source) =
      .ok (e, t)) (ht : t.reports = []) :
    (Context.ofSource source rounds).inner.assignment (firstReader n source) = .ok (e, t) ∧
      t.current.kind = .eof := by
  obtain ⟨_, _, hmodify, h⟩ := bind_eq_ok h
  cases hmodify
  obtain ⟨_, _, hmodify, h⟩ := bind_eq_ok h
  cases hmodify
  obtain ⟨e', u, hrun, h⟩ := bind_eq_ok h
  have hcovers : u.reports = [] → Covers source (firstReader n source).spot u.spot _ :=
    (Context.ofSource_gathers source rounds).assignment (sound_firstReader n source) hrun
  have hrest : u.reports = [] → Cleanly (do
      if !(← atEnd) && (← get).reports.isEmpty then expected .endOfInput
      return e') u fun a t => a = e' ∧ t = u ∧ u.current.kind = .eof := by
    intro hu
    refine .atEnd (.get (.ite (fun _ => .faulty (hcovers hu).tooDeep_eq) fun hend => .pure ?_))
    exact ⟨rfl, rfl, by simpa [hu, State.atEnd] using hend⟩
  have hadds : Adds (do
      if !(← atEnd) && (← get).reports.isEmpty then expected .endOfInput
      return e') := inferInstance
  obtain ⟨rfl, rfl, hend⟩ := hrest (hadds.reports_nil h ht) h ht
  exact ⟨hrun, hend⟩

theorem run_expressionFrom {source : Text} {rounds n : Nat} {e : Expr} {t : State}
    (h : (Context.ofSource source rounds).inner.assignment (firstReader n source) = .ok (e, t))
    (hend : t.current.kind = .eof) :
    expressionFrom n (Context.ofSource source rounds) (State.ofText source) =
      .ok (e, t) := by
  have hends : Ends (expressionFrom n (Context.ofSource source rounds))
      (State.ofText source) fun e' t' => e' = e ∧ t' = t := by
    rw [firstReader] at h
    rw [expressionFrom, ends_modify, wholeExpression, ends_modify, ends_bind, ends_of_eq h,
      ends_atEnd, ends_get]
    simp [State.atEnd, hend]
  obtain ⟨_, _, hrun, rfl, rfl⟩ := hends
  exact hrun

end ReactiveScript.Grammar

namespace ReactiveScript

open Grammar

/-- The expression that a source holds, read by a reader that starts so many levels down. It has so
    many levels less to go before the depth limit. -/
def readExpressionFrom (n : Nat) (source : Text) : Option (Except (List Report) Expr) :=
  runOn (expressionFrom n) source

/-- A reader at the top is one that starts no level down. -/
theorem readExpressionFrom_zero (source : Text) :
    readExpressionFrom 0 source = readExpression source := by
  have hstart : { State.ofText source with depth := 0 } = State.ofText source := by
    unfold State.ofText State.start State.advance
    dsimp only [State.accept]
    split <;> rfl
  have hrun : runFor (expressionFrom 0) source = runFor wholeExpression source := by
    funext rounds
    have hfirst : (expressionFrom 0 (Context.ofSource source rounds)).run (State.ofText source) =
        (wholeExpression (Context.ofSource source rounds)).run
          { State.ofText source with depth := 0 } := rfl
    rw [runFor, runFor, hfirst, hstart]
  rw [readExpressionFrom, readExpression, runOn, runOn, hrun]

namespace Grammar

variable {source : Text} {e : Expr}

theorem exists_run_of_readExpressionFrom {n : Nat}
    (h : readExpressionFrom n source = some (.ok e)) :
    ∃ rounds t, (Context.ofSource source rounds).inner.assignment (firstReader n source) =
      .ok (e, t) ∧ t.reports = [] ∧ t.current.kind = .eof := by
  obtain ⟨rounds, t, _, hrun, ht⟩ := exists_run_of_accepted h
  obtain ⟨hassignment, hend⟩ := run_of_expressionFrom hrun ht
  exact ⟨rounds, t, hassignment, ht, hend⟩

instance {m k n : Nat} [AtMost m k] : Moves none State.Anyhow
    (expressionFrom n (Context.ofSource source m)) (expressionFrom n (Context.ofSource source k)) := by
  have hmodify : Moves none State.Anyhow (modify fun s => { s with depth := n }) _ :=
    ⟨movesFrom_modify trivial fun hs source hsource => (hs source hsource).recount⟩
  unfold expressionFrom
  infer_instance

theorem readExpressionFrom_of_run {rounds n : Nat} {t : State}
    (h : (Context.ofSource source rounds).inner.assignment (firstReader n source) = .ok (e, t))
    (ht : t.reports = []) (hend : t.current.kind = .eof) :
    readExpressionFrom n source = some (.ok e) :=
  runOn_of_run inferInstance (run_expressionFrom h hend) ht

theorem readExpression_of_run {rounds : Nat} {t : State}
    (h : (Context.ofSource source rounds).inner.assignment (firstReader 0 source) = .ok (e, t))
    (ht : t.reports = []) (hend : t.current.kind = .eof) : readExpression source = some (.ok e) :=
  (readExpressionFrom_zero source).symm.trans (readExpressionFrom_of_run h ht hend)

/-! ## 2. At the start of a text -/

section
variable {S : Setting} {f : Frame} {s w : State} {c : Cursor}

theorem next_of_fresh (hfresh : c.lineStart = true) :
    c.next = { Cursor.next { c with lineStart := false } with
      token := { (Cursor.next { c with lineStart := false }).token with lineStart := true } } := by
  unfold Cursor.next
  dsimp only
  rw [hfresh]
  split <;> rfl

theorem advance_of_fresh (hfresh : c.lineStart = true) :
    State.advance { s with cursor := c } =
      { State.advance { s with cursor := { c with lineStart := false } } with
        current :=
          { (Cursor.next { c with lineStart := false }).token with lineStart := true }
        lineIndent := c.next.token.column } := by
  unfold State.advance
  dsimp only [State.accept]
  rw [next_of_fresh hfresh]
  simp only [if_true]
  split <;> rfl

/-- Whether the first token starts a line is not asked of readers that have just begun. -/
theorem near_of_fresh (hfresh : c.lineStart = true)
    (h : Near S f (State.advance { s with cursor := { c with lineStart := false } }) w)
    (hindent : w.lineIndent ≤ c.next.token.column) :
    Near S f (State.advance { s with cursor := c }) w := by
  have hcurrent : (Cursor.next { c with lineStart := false }).token =
      (State.advance { s with cursor := { c with lineStart := false } }).current :=
    (State.advance_current { s with cursor := { c with lineStart := false } }).symm
  rw [advance_of_fresh hfresh, hcurrent]
  refine
    { h.toPoised with
      indent_le := hindent
      sound := ⟨h.sound.cursor, ⟨h.sound.current.pos, h.sound.current.text, h.sound.current.spelt⟩,
        h.sound.stop_le, h.sound.named, h.sound.names_of_eof, h.sound.tooDeep⟩
      sound' := h.sound'
      place := h.place.imp (fun hs => ?_) fun hclose => ?_ }
  · exact ⟨⟨hs.token.kind, hs.token.text, hs.token.offset⟩, hs.cursor, hs.onLine, hs.closed,
      hs.inText⟩
  · exact ⟨hclose.kind, hclose.text, hclose.offset, hclose.ending, hclose.kind', hclose.lineStart',
      hclose.offset'⟩

/-- Trivia ends in front of a byte that does not start any. -/
theorem skipFrom_of_solid {b : UInt8}
    (hb : b ∉ [Byte.space, Byte.tab, Byte.carriageReturn, Byte.newline, Byte.slash])
    (n : Nat) (breaks : Bool) (rest : Text) :
    Trivia.skipFrom .space n breaks (b :: rest) = { width := n, breaks := breaks } := by
  simp only [List.mem_cons, List.not_mem_nil, or_false, not_or] at hb
  rw [Trivia.skipFrom.eq_def]
  dsimp only
  rw [if_neg (by simp [hb]), if_neg (by simp [hb]), if_neg (by simp [hb])]

/-- The reader at a token that starts its source. -/
theorem firstReader_of_solid (n : Nat) {b : UInt8} {rest : Text}
    (hb : b ∉ [Byte.space, Byte.tab, Byte.carriageReturn, Byte.newline, Byte.slash])
    (hfaults : (Lexeme.scan b rest).faults = []) :
    firstReader n (b :: rest) =
      { cursor :=
          { rest := (b :: rest).drop (Lexeme.scan b rest).width
            pos := Position.start.advance ((b :: rest).take (Lexeme.scan b rest).width)
            lineStart := false }
        current :=
          { kind := (Lexeme.scan b rest).kind
            text := (b :: rest).take (Lexeme.scan b rest).width
            lineStart := true }
        nesting := 1
        depth := n } := by
  have hskip : Trivia.skip (b :: rest) = { width := 0, breaks := false } :=
    skipFrom_of_solid hb 0 false rest
  have hnext : (Cursor.ofText (b :: rest)).next =
      { token :=
          { kind := (Lexeme.scan b rest).kind
            text := (b :: rest).take (Lexeme.scan b rest).width
            lineStart := true }
        cursor :=
          { rest := (b :: rest).drop (Lexeme.scan b rest).width
            pos := Position.start.advance ((b :: rest).take (Lexeme.scan b rest).width)
            lineStart := false } } := by
    unfold Cursor.next Cursor.ofText
    simp only [hskip, List.drop_zero, hfaults]
    rfl
  rw [firstReader_eq, State.advance, State.accept, hnext]
  rfl

/-- A reader at the start of a text, beside one that comes to it inside a wider source. -/
theorem near_firstReader (hpos : 0 < w.nesting) (hdepth : w.depth ≤ 1) (hdeep : w.tooDeep = false)
    (hclean' : w.reports = []) (hindent : w.lineIndent = 1) (hin : w.cursor.IsIn S.whole)
    (hoffset : w.cursor.pos.offset = S.shift) (hline : w.cursor.lineStart = false)
    (hclean : (firstReader 1 S.source).reports = []) :
    Near S ⟨1, 1, w.nesting, iff_of_true Nat.one_pos hpos⟩ (firstReader 1 S.source) w.advance := by
  have hlimit : 1 ≤ maxDepth := by decide
  have hpoised : Poised ⟨1, 1, w.nesting, iff_of_true Nat.one_pos hpos⟩
      { cursor := Cursor.ofText S.source, nesting := 1, depth := 1 } w :=
    ⟨rfl, hdeep, rfl, hclean', rfl, rfl, Nat.le_refl _, hlimit, hdepth,
      Nat.le_of_eq hindent.symm, Nat.le_of_eq hindent⟩
  have halike : ({ Cursor.ofText S.source with lineStart := false } : Cursor).Alike
      S.ending.text S.shift w.cursor := by
    refine ⟨?_, hoffset, hline⟩
    rw [hin.rest_eq, hoffset]
    exact Setting.whole_drop (Nat.zero_le _)
  have hstart : ({ Cursor.ofText S.source with lineStart := false } : Cursor).IsIn S.source :=
    ⟨(Cursor.isIn_ofText S.source).pos, (Cursor.isIn_ofText S.source).rest_eq⟩
  rw [firstReader_eq] at hclean ⊢
  have hfirst := next_of_fresh (c := Cursor.ofText S.source) rfl
  have hclean := next_reports_of_advance hclean
  rw [hfirst] at hclean
  have hbeside := hpoised.advanceFrom hstart hin halike nofun hclean
  refine near_of_fresh rfl hbeside.toNear (Nat.le_trans hbeside.indent_le ?_)
  rw [State.advance_lineIndent, hfirst]
  split
  · exact Nat.le_refl _
  · exact hstart.next.token.pos.column_pos

/-- A reader some levels down, beside one that is not as deep. -/
theorem near_firstReader_of_le (source : Text) {k n : Nat} (hle : k ≤ n) (hlimit : n ≤ maxDepth)
    (hclean : (firstReader n source).reports = []) :
    Near ⟨[], source, .none, List.not_mem_nil⟩ ⟨n, 1, 1, Iff.rfl⟩ (firstReader n source)
      (firstReader k source) := by
  rw [firstReader_eq] at hclean
  have hnext := next_reports_of_advance hclean
  rw [firstReader_eq, firstReader_eq]
  have hin := Cursor.isIn_ofText source
  have hwhole : (Setting.mk [] source .none List.not_mem_nil).whole = source := by
    simp [Setting.whole, Ending.text]
  have hindent (n : Nat) :
      (State.advance { cursor := Cursor.ofText source, nesting := 1, depth := n }).lineIndent =
        if (Cursor.ofText source).next.token.lineStart then
          (Cursor.ofText source).next.token.column
        else 1 := State.advance_lineIndent _
  exact
    { tooDeep := State.advance_tooDeep _
      tooDeep' := State.advance_tooDeep _
      clean := hclean
      clean' := by rw [State.advance_reports]; simp [hnext]
      nesting := State.advance_nesting _
      nesting' := State.advance_nesting _
      le_depth := Nat.le_of_eq (by rw [State.advance_depth])
      depth_le := by rw [State.advance_depth]; exact hlimit
      depth_le' := by rw [State.advance_depth, State.advance_depth]; exact hle
      indent_pos := by
        rw [hindent]
        split
        · exact hin.next.token.pos.column_pos
        · exact Nat.le_refl _
      indent_le := Nat.le_of_eq (by rw [hindent, hindent])
      sound := sound_advance hin rfl
      sound' := by rw [hwhole]; exact sound_advance hin rfl
      place := by
        refine .inl ⟨?_, ?_, ?_, ?_, fun h => absurd rfl h⟩ <;>
          simp only [State.advance_current, State.advance_cursor]
        · exact ⟨rfl, rfl, (Nat.zero_add _).symm⟩
        · exact ⟨(List.append_nil _).symm, (Nat.zero_add _).symm, rfl⟩
        · intro hstart
          rcases (Cursor.ofText source).next_cases with ⟨_, _, hc⟩ | ⟨_, _, _, _, hc⟩ <;>
            rw [hc] at hstart <;> cases hstart
        · exact fun hkind => Cursor.next_template hkind hnext }

/-- **An accepted text is read inside a wider source**, and both readers end beside each other. -/
theorem reads_inside {rounds m n d : Nat} {e : Expr} {t : State}
    (hrun : (Context.ofSource S.source rounds).inner.assignment (firstReader n S.source) =
      .ok (e, t)) (ht : t.reports = []) (hf : d ≤ f.depth)
    (hnear : Near S f (firstReader n S.source) w) (hm : maxDepth < d + m) :
    ∃ e' u, ((Context.ground S.whole rounds).raised m).inner.assignment w = .ok (e', u) ∧
      e'.unplaced = e.unplaced ∧ Beside S f t u := by
  have hlevels : maxDepth < d + levels := by unfold levels; omega
  have hf : f.Reaches d := ⟨hf⟩
  exact (Context.mirrors_raised S rounds hlevels (by omega)).opens hnear hrun ht

end

/-- An expression takes a level at least. -/
theorem lt_of_readExpressionFrom {n : Nat} (h : readExpressionFrom n source = some (.ok e)) :
    n < maxDepth := by
  obtain ⟨rounds, t, hrun, ht, -⟩ := exists_run_of_readExpressionFrom h
  have hlimit : Cleanly (assignment ((Context.ground source rounds).raised (maxDepth + 1)))
      (firstReader n source) fun _ _ => n < maxDepth :=
    .restoringDepth (.deeper_of_lt (sound_firstReader n source).tooDeep fun hlt _ _ _ _ => hlt)
  exact hlimit hrun ht

/-- What is accepted so many levels down is accepted where the reader is not as deep. -/
theorem readExpressionFrom_of_le {k n : Nat} (hle : k ≤ n)
    (h : readExpressionFrom n source = some (.ok e)) :
    ∃ e', readExpressionFrom k source = some (.ok e') ∧ e'.unplaced = e.unplaced := by
  have hlimit := Nat.le_of_lt (lt_of_readExpressionFrom h)
  obtain ⟨rounds, t, hrun, ht, hend⟩ := exists_run_of_readExpressionFrom h
  have hclean : (firstReader n source).reports = [] := Adds.reports_nil hrun ht
  have hwhole : (Setting.mk [] source .none List.not_mem_nil).whole = source := by
    simp [Setting.whole, Ending.text]
  obtain ⟨e', u, hrun', hsame, hbeside⟩ :=
    reads_inside (S := ⟨[], source, .none, List.not_mem_nil⟩) (m := levels) hrun ht (Nat.zero_le _)
      (near_firstReader_of_le source hle hlimit hclean) (by decide)
  rw [hwhole] at hrun'
  have hend' : u.current.kind = .eof := by
    rcases hbeside.place with halike | hclose
    · rw [halike.token.kind, hend]
    · exact absurd rfl hclose.ending
  exact ⟨e', readExpressionFrom_of_run hrun' hbeside.clean' hend', hsame⟩

/-- What is accepted one level down is accepted at the top. -/
theorem readExpression_of_room (h : readExpressionFrom 1 source = some (.ok e)) :
    ∃ e', readExpression source = some (.ok e') ∧ e'.unplaced = e.unplaced := by
  rw [← readExpressionFrom_zero]
  exact readExpressionFrom_of_le (Nat.zero_le 1) h

/-- The source needs this many levels: it is accepted wherever so many are left. -/
def Needs (source : Text) (l : Nat) : Prop :=
  ∀ n, (∃ e, readExpressionFrom n source = some (.ok e)) ↔ n + l ≤ maxDepth

open Classical in
/-- **Only the number of levels that are left decides** whether a source is accepted. -/
theorem exists_needs (source : Text) : ∃ l, Needs source l := by
  have hbeyond : ∃ n, ¬ ∃ e, readExpressionFrom n source = some (.ok e) :=
    ⟨maxDepth, fun ⟨_, he⟩ => Nat.lt_irrefl _ (lt_of_readExpressionFrom he)⟩
  have hle : Nat.find hbeyond ≤ maxDepth := Nat.find_min' hbeyond fun ⟨_, he⟩ =>
    Nat.lt_irrefl _ (lt_of_readExpressionFrom he)
  refine ⟨maxDepth + 1 - Nat.find hbeyond, fun n => ⟨fun ⟨e', he'⟩ => ?_, fun hn => ?_⟩⟩
  · have hlt : n < Nat.find hbeyond := Nat.lt_of_not_le fun hle =>
      Nat.find_spec hbeyond ((readExpressionFrom_of_le hle he').imp fun _ he => he.1)
    omega
  · exact not_not.mp (Nat.find_min hbeyond (by omega))

/-- A source is accepted one level down if, and only if, the levels that it needs do not reach the
    limit. -/
theorem Needs.room_iff {l : Nat} (h : Needs source l) :
    (∃ e, readExpressionFrom 1 source = some (.ok e)) ↔ l < maxDepth := by
  rw [h, Nat.add_comm]
  exact Iff.rfl

/-- A source that is a unit is a function by itself, or a single operand. -/
theorem unit_of_run {rounds n : Nat} {t : State}
    (hrun : (Context.ofSource source rounds).inner.assignment (firstReader n source) = .ok (e, t))
    (ht : t.reports = []) (hunit : e.isUnit = true) :
    (firstReader n source).seesArrow = true ∨
      ∃ u, primary ((Context.ground source rounds).raised (maxDepth + 1))
        (firstReader (n + 1) source) = .ok (e, u) ∧ t = { u with depth := n } :=
  cleanly_assignment_unit
    (Context.leaves_raised (Context.leaves_ground source rounds) (maxDepth + 1))
    (sound_firstReader n source) hrun ht hunit

/-! ## 3. A single operand before the end -/

section
variable {c : Context} {s : State} {Q : Expr → State → Prop} {e : Expr}

theorem ends_chainRest_of_end (hs : s.current.kind = .eof) (optional : Bool) (hQ : Q e s) :
    Ends (chainRest c optional e) s Q := by
  have hsees (p : Punct) : s.sees (.punct p) = false := by simp [State.sees, hs]
  rw [chainRest, ends_ifAccept_of_not_sees (hsees _), ends_ifAccept_of_not_sees (hsees _), ends_token, hs]
  split <;> exact ends_pure.mpr hQ

theorem ends_binaryRest_of_end (hs : s.current.kind = .eof) (least : Nat) (hQ : Q e s) :
    Ends (binaryRest c least e) s Q := by
  have hnone : s.operator? least = none := by rw [State.operator?, hs]; rfl
  rw [binaryRest, ends_get, hnone]
  exact ends_pure.mpr hQ

theorem ends_plainAssignment_of_primary
    (hunary : UnaryOp.ofKind? s.current.kind = none)
    (hupdate : UpdateOp.ofKind? s.current.kind = none)
    (hprimary : Ends (primary c) s fun e t => t.current.kind = .eof ∧ Q e t) :
    Ends (plainAssignment c) s Q := by
  have hchain : Ends (chain c) s fun e t => t.current.kind = .eof ∧ Q e t := by
    rw [chain, ends_bind]
    refine hprimary.mono fun e t ht => ?_
    split
    · exact ends_pure.mpr ht
    · exact ends_restoringDepth.mpr (ends_chainRest_of_end ht.1 false ht)
  have hoperand : Ends (unary c) s fun e t => t.current.kind = .eof ∧ Q e t := by
    rw [unary, ends_token, hunary, hupdate, postfixed, ends_bind]
    refine hchain.mono fun e t ht => ?_
    rw [ends_token, ht.1]
    exact ends_pure.mpr ht
  have hconditional : Ends (conditional c) s fun e t => t.current.kind = .eof ∧ Q e t := by
    rw [conditional, ends_bind, binary, ends_bind]
    refine hoperand.mono fun e t ht => ends_restoringDepth.mpr (ends_binaryRest_of_end ht.1 1 ?_)
    simp only [ends_sees, ends_canContinue, State.sees, ht.1]
    exact ends_pure.mpr ht
  rw [plainAssignment, ends_bind]
  refine hconditional.mono fun e t ht => ?_
  rw [ends_token, ht.1]
  exact ends_pure.mpr ht.2

/-- **A single operand before the end of the source** is all there is of an expression. -/
theorem ends_assignment_of_primary (hdeep : s.tooDeep = false) (hdepth : s.depth < maxDepth)
    (hpattern : s.seesDestructuring = false) (harrow : s.seesArrow = false)
    (hunary : UnaryOp.ofKind? s.current.kind = none)
    (hupdate : UpdateOp.ofKind? s.current.kind = none)
    (hprimary : Ends (primary c) { s with depth := s.depth + 1 } fun e t =>
      t.current.kind = .eof ∧ Q e { t with depth := s.depth }) :
    Ends (assignment c) s Q := by
  have hstate : s.deepened = { s with depth := s.depth + 1 } := by
    rw [State.deepened, State.checkDepth, if_neg (by simp; omega)]
  rw [assignment, ends_nested (by rw [hstate]; exact hdeep), hstate, ends_get]
  have hpattern' : State.seesDestructuring { s with depth := s.depth + 1 } = false := hpattern
  have harrow' : State.seesArrow { s with depth := s.depth + 1 } = false := harrow
  rw [if_neg (by simp [hpattern']), if_neg (by simp [harrow'])]
  exact ends_plainAssignment_of_primary hunary hupdate hprimary

end

/-- So a source that is a single operand is accepted. -/
theorem readExpression_of_operand {source : Text} (rounds : Nat) {P : Expr → Prop}
    (hpattern : (firstReader 0 source).seesDestructuring = false)
    (harrow : (firstReader 0 source).seesArrow = false)
    (hunary : UnaryOp.ofKind? (firstReader 0 source).current.kind = none)
    (hupdate : UpdateOp.ofKind? (firstReader 0 source).current.kind = none)
    (h : Ends (primary ((Context.ground source rounds).raised (maxDepth + 1)))
      (firstReader 1 source) fun e t => t.current.kind = .eof ∧ t.reports = [] ∧ P e) :
    ∃ e, readExpression source = some (.ok e) ∧ P e := by
  have hlimit : 0 < maxDepth := by decide
  have hends : Ends (assignment ((Context.ground source rounds).raised (maxDepth + 1)))
      (firstReader 0 source) fun e t => P e ∧ t.reports = [] ∧ t.current.kind = .eof :=
    ends_assignment_of_primary (sound_firstReader 0 source).tooDeep hlimit hpattern harrow hunary
      hupdate (h.mono fun _ _ ht => ⟨ht.1, ht.2.2, ht.2.1, ht.1⟩)
  obtain ⟨e, t, hrun, he, ht, hend⟩ := hends
  exact ⟨e, readExpression_of_run hrun ht hend, he⟩

end Grammar

end ReactiveScript
