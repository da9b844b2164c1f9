import ReactiveScript.Proofs.Grammar.Embedding

/-!
# Expressions in parentheses

Parentheses around an accepted source leave its tree as it is, unless the lookahead at the added
parenthesis takes what follows for the parameters of a function. It counts brackets in what the
plain scanner finds, also where the reader finds the text of an element.
-/

namespace ReactiveScript

-- The instance of a routine is as large as the routine.
set_option synthInstance.maxSize 1000

/-- A source in parentheses, the closing one on a line of its own. -/
def grouped (source : Text) : Text := txt "(" ++ (source ++ txt "\n)")

namespace Grammar

variable {source : Text}

/-! ## 1. The added parentheses -/

/-- A source between its parentheses. -/
def parens (source : Text) : Setting := ⟨txt "(", source, .paren, by decide⟩

/-- The reader at the added parenthesis. -/
theorem firstReader_grouped (n : Nat) (source : Text) :
    firstReader n (grouped source) =
      { cursor := { rest := source ++ txt "\n)", pos := ⟨1, 1, 2⟩, lineStart := false }
        current := { kind := .punct .openParen, text := txt "(", lineStart := true }
        nesting := 1
        depth := n } :=
  firstReader_of_solid n (by decide) rfl

theorem firstReader_grouped_kind (n : Nat) (source : Text) :
    (firstReader n (grouped source)).current.kind = .punct .openParen := by
  rw [firstReader_grouped]

/-- Behind the added parenthesis the source is read as it is alone. -/
theorem near_grouped (hclean : (firstReader 1 source).reports = []) :
    Near (parens source) ⟨1, 1, 1, Iff.rfl⟩ (firstReader 1 source)
      (firstReader 1 (grouped source)).advance := by
  have hin : (firstReader 1 (grouped source)).cursor.IsIn (grouped source) :=
    (sound_firstReader 1 (grouped source)).cursor
  rw [firstReader_grouped] at hin ⊢
  exact near_firstReader (S := parens source) Nat.one_pos (Nat.le_refl 1) rfl rfl rfl hin rfl rfl
    hclean

/-- Behind the closing parenthesis the source ends. -/
theorem advance_of_closeParen {w : State} (hs : w.spot.Sound (parens source).whole)
    (hclean : w.reports = []) (hkind : w.current.kind = .punct .closeParen)
    (hoffset : w.current.pos.offset = 1 + source.length + 1) :
    w.advance.current.kind = .eof ∧ w.advance.reports = [] := by
  have htext : w.current.text = txt ")" := hs.current.spelt _ hkind
  have hlength : (parens source).whole.length = 1 + (source.length + 2) := Setting.length_whole
  have hstop : w.current.stop = (parens source).whole.length := by
    rw [Token.stop, htext, hlength, hoffset, show (txt ")").length = 1 from rfl]
    omega
  have hrest : w.cursor.rest = [] := by
    have hle : w.current.stop ≤ w.cursor.pos.offset := hs.stop_le
    have hdrop : w.cursor.rest = (parens source).whole.drop w.cursor.pos.offset := hs.cursor.rest_eq
    rw [hdrop]
    exact List.drop_eq_nil_of_le (by omega)
  rw [State.advance_current, State.advance_reports, hclean, Cursor.next, hrest]
  exact ⟨rfl, rfl⟩

/-! ## 2. Where no function is seen -/

/-- **Where no function is seen, parentheses are transparent.** -/
theorem readExpression_grouped {e : Expr} (hroom : readExpressionFrom 1 source = some (.ok e))
    (harrow : (firstReader 0 (grouped source)).seesArrow = false) :
    ∃ e', readExpression (grouped source) = some (.ok e') ∧ e'.unplaced = e.unplaced := by
  obtain ⟨rounds, t, hrun, ht, hend⟩ := exists_run_of_readExpressionFrom hroom
  have hnear := near_grouped (Adds.reports_nil hrun ht)
  -- One pair of brackets more around the reader makes no difference to it.
  have hinner : Near (parens source) ⟨1, 1, 2, by decide⟩ (firstReader 1 source)
      { (firstReader 1 (grouped source)).advance with
        nesting := (firstReader 1 (grouped source)).advance.nesting + 1 } := by
    have hnesting : (firstReader 1 (grouped source)).advance.nesting = 1 := hnear.nesting'
    rw [hnesting]
    exact hnear.adjust ⟨1, 1, 2, by decide⟩ (firstReader 1 source).braceBlocks
      (firstReader 1 (grouped source)).advance.braceBlocks (Nat.le_refl 1) hnear.depth_le
      hnear.depth_le'
  obtain ⟨e', u, hrun', hsame, hbeside⟩ :=
    reads_inside (S := parens source) (m := maxDepth + 1) hrun ht (Nat.le_refl 1) hinner (by decide)
  have hclose : AtClose (parens source) t u :=
    hbeside.place.resolve_left fun hin => hin.inText nofun hend
  have hsees : State.sees { u with nesting := u.nesting - 1 } (.punct .closeParen) = true :=
    decide_eq_true hclose.kind'
  obtain ⟨hend', hclean'⟩ := advance_of_closeParen (w := { u with nesting := u.nesting - 1 })
    hbeside.sound' hbeside.clean' hclose.kind' hclose.offset'
  have hkind (n : Nat) := firstReader_grouped_kind n source
  refine readExpression_of_operand rounds ?_ harrow ?_ ?_ ?_
  · simp [State.seesDestructuring, State.sees, hkind]
  · rw [hkind]
    rfl
  · rw [hkind]
    rfl
  · rw [primary, ends_token, hkind]
    change Ends (parenthesized _) _ _
    rw [parenthesized, ends_advance, ends_bind, ends_bracketed]
    refine (ends_of_eq hrun').mpr ?_
    rw [ends_expect_of_sees hsees, ends_pure]
    exact ⟨hend', hclean', hsame⟩

/-! ## 3. Where a function is seen -/

/-- A name and an arrow, or a parenthesis: what a function can start with. -/
def State.OpensFunction (s : State) : Prop :=
  s.current.kind = .punct .openParen ∨ s.current.kind = .identifier ∧ arrowFollows s.cursor = true

theorem State.OpensFunction.near {S : Setting} {f : Frame} {s w : State} (h : s.OpensFunction)
    (hnear : Near S f s w) : w.OpensFunction := by
  have hkind : s.current.kind ≠ .eof := by
    rcases h with hs | ⟨hs, _⟩ <;> simp [hs]
  have halike := hnear.alike hkind
  refine h.imp (fun hs => halike.token.kind.trans hs) fun hs => ⟨halike.token.kind.trans hs.1, ?_⟩
  rw [(follows_alike halike.cursor).1]
  exact hs.2

section
variable {c : Context} [c.Adds] {s : State}

/-- A parameter that could start a function is a name before an arrow. -/
theorem cleanly_param_of_function (hdeep : s.tooDeep = false) (h : s.OpensFunction) :
    Cleanly (param c) s fun _ t => t.current.kind = .punct .arrow ∧ t.tooDeep = false := by
  refine .token (.ifAccept (fun hk => ?_) fun _ => .bind (P := fun b t => b = false ∧ t = s) ?_ ?_)
  · rcases h with hs | ⟨hs, _⟩ <;> rw [hs] at hk <;> cases hk
  · refine .sees (.sees (.pure ⟨?_, rfl⟩))
    rcases h with hs | ⟨hs, _⟩ <;> simp [State.sees, hs]
  · intro b t hb
    obtain ⟨rfl, rfl⟩ := hb
    refine .expectToken hdeep fun hname => ?_
    rcases h with hs | ⟨_, harrow⟩
    · rw [hs] at hname
      cases hname
    · have hkind : t.advance.current.kind = .punct .arrow := by
        rw [State.advance_current]
        simp only [arrowFollows, Bool.and_eq_true, decide_eq_true_eq] at harrow
        exact harrow.1
      refine .bind (P := fun _ u => u = t.advance) (.accept (fun hk => ?_) fun _ => ?_) ?_
      · rw [hkind] at hk
        cases hk
      · exact .pure rfl
      · intro _ u hu
        rw [hu]
        exact .pure ⟨hkind, (State.advance_tooDeep t).trans hdeep⟩

/-- Neither is a list of parameters that starts like this. -/
theorem cleanly_paramList_of_function (hdeep : s.tooDeep = false) (h : s.OpensFunction)
    (rounds : Nat) :
    Cleanly (partsFrom (.punct .closeParen) (.more <$> param c) [] rounds) s
      fun _ t => t.current.kind = .punct .arrow ∧ t.tooDeep = false := by
  cases rounds with
  | zero => exact .outOfRounds
  | succ rounds =>
    have hparam : Cleanly (Part.more <$> param c) s
        fun a t => (∃ p, a = .more p) ∧ t.current.kind = .punct .arrow ∧ t.tooDeep = false :=
      .map (Cleanly.mono (cleanly_param_of_function hdeep h) fun p _ ht => ⟨⟨p, rfl⟩, ht⟩)
    refine .sees (.atEnd (.ite (fun hend => ?_) fun _ => .bind hparam fun a t ha => ?_))
    · rcases h with hs | ⟨hs, _⟩ <;> simp [State.sees, State.atEnd, hs] at hend
    · obtain ⟨⟨p, rfl⟩, hkind, ht⟩ := ha
      refine .ifAccept (fun hcomma => ?_) fun _ => .pure ⟨hkind, ht⟩
      rw [hkind] at hcomma
      cases hcomma

/-- A function is no parameter, so no clean run takes it for one. -/
theorem cleanly_params_of_function (hdeep : s.tooDeep = false)
    (hs : s.current.kind = .punct .openParen) (h : s.advance.OpensFunction) :
    Cleanly (params c) s fun _ _ => False := by
  have hdeep' : s.advance.tooDeep = false := (State.advance_tooDeep s).trans hdeep
  refine .ifSees (fun hname => ?_) fun _ => .expect hdeep fun _ => ?_
  · rw [hs] at hname
    cases hname
  · refine .bind (P := fun _ t => t.current.kind = .punct .arrow ∧ t.tooDeep = false)
      (.bracketed ?_) fun ps t ht => .expect ht.2 fun hclose => ?_
    · exact cleanly_paramList_of_function (c := c)
        (s := { s.advance with nesting := s.advance.nesting + 1 }) hdeep' h c.rounds
    · rw [ht.1] at hclose
      cases hclose

theorem cleanly_arrow_of_function (hdeep : s.tooDeep = false)
    (hs : s.current.kind = .punct .openParen) (h : s.advance.OpensFunction) :
    Cleanly (arrow c) s fun _ _ => False :=
  .token (.bind (cleanly_params_of_function hdeep hs h) fun _ _ => False.elim)

/-- Where a function is seen, one is read. -/
theorem cleanly_assignment_of_arrow {P : Expr → State → Prop} (hdeep : s.tooDeep = false)
    (hs : s.current.kind = .punct .openParen) (harrow : s.seesArrow = true)
    (h : Cleanly (arrow c) { s with depth := s.depth + 1 } fun a t =>
      P a { t with depth := s.depth }) : Cleanly (assignment c) s P := by
  refine .nested hdeep (.get (.ite (fun hsees => ?_) fun _ => .ite (fun _ => h) fun hsees => ?_))
  · simp [State.seesDestructuring, State.sees, hs] at hsees
  · exact absurd harrow hsees

end

/-- A function. -/
def isFunction : Expr → Bool
  | .arrow _ _ _ | .arrowBlock _ _ _ _ => true
  | _ => false

theorem isFunction_unplaced (e : Expr) : isFunction e.unplaced = isFunction e := by
  cases e <;> rfl

theorem cleanly_arrow_isFunction {c : Context} [c.Adds] {s : State} :
    Cleanly (arrow c) s fun e _ => isFunction e = true := by
  have hany {α : Type} {x : Reading α} {s : State} : Cleanly x s fun _ _ => True :=
    fun _ _ _ _ => trivial
  have hbody {p : Position} {ps : List Param} {header : Nat} {s : State} :
      Cleanly (arrowBody c p ps header) s fun e _ => isFunction e = true := by
    refine .token (.ite (fun _ => .bind hany fun b _ _ => .pure rfl) fun _ => ?_)
    refine .ite (fun _ => .bind hany fun b _ _ => .pure ?_) fun _ => .bind hany fun b _ _ => .pure rfl
    unfold arrowOf
    split <;> rfl
  refine .token (.bind hany fun ps t _ => .get (.bind hany fun _ u _ => ?_))
  exact .bind hbody fun e v he => .bind hany fun _ _ _ => .pure he

/-- A source that is a function starts like one. -/
theorem opensFunction_of_isFunction {e : Expr}
    (hroom : readExpressionFrom 1 source = some (.ok e)) (he : isFunction e = true) :
    (firstReader 1 source).OpensFunction := by
  obtain ⟨rounds, t, hrun, ht, _⟩ := exists_run_of_readExpressionFrom hroom
  have hunit : e.isUnit = true := by
    cases e <;> first | rfl | cases he
  rcases unit_of_run hrun ht hunit with harrow | ⟨u, hprimary, rfl⟩
  · -- The lookahead sees a name before an arrow, or a parenthesis.
    unfold State.seesArrow at harrow
    split at harrow
    · exact .inr ⟨‹_›, harrow⟩
    · exact .inl ‹_›
    · cases harrow
  · rcases cleanly_primary_unit _ _ hprimary ht hunit with hopen | ⟨quasis, es, rfl⟩
    · exact .inl hopen
    · cases he

/-- **Where a function is seen, parentheses are not transparent.** -/
theorem not_readExpression_grouped {e e' : Expr}
    (hroom : readExpressionFrom 1 source = some (.ok e))
    (harrow : (firstReader 0 (grouped source)).seesArrow = true)
    (hread : readExpression (grouped source) = some (.ok e')) : e'.unplaced ≠ e.unplaced := by
  intro hsame
  rw [← readExpressionFrom_zero] at hread
  obtain ⟨rounds, t, hrun, ht, _⟩ := exists_run_of_readExpressionFrom hread
  have hkind := firstReader_grouped_kind 0 source
  have hdeep : (firstReader 0 (grouped source)).tooDeep = false := by rw [firstReader_grouped]
  have hfunction : isFunction e' = true := by
    refine cleanly_assignment_of_arrow (P := fun e _ => isFunction e = true)
      (c := (Context.ground (grouped source) rounds).raised (maxDepth + 1)) hdeep hkind harrow ?_
      hrun ht
    exact cleanly_arrow_isFunction
  have hopens : (firstReader 1 source).OpensFunction := by
    refine opensFunction_of_isFunction hroom ?_
    rw [← isFunction_unplaced, ← hsame, isFunction_unplaced, hfunction]
  obtain ⟨rounds', t', hrun', ht', _⟩ := exists_run_of_readExpressionFrom hroom
  have hnear := near_grouped (Adds.reports_nil hrun' ht')
  refine cleanly_assignment_of_arrow (P := fun _ _ => False)
    (c := (Context.ground (grouped source) rounds).raised (maxDepth + 1)) hdeep hkind harrow ?_
    hrun ht
  exact cleanly_arrow_of_function (s := firstReader 1 (grouped source)) hdeep hkind
    (hopens.near hnear)

end Grammar

open Grammar

/-- **Grouping.** Parentheses around an accepted source are accepted, with the same tree but for its
    positions, exactly where the lookahead at the added parenthesis sees no function. The source has
    to be accepted one level down, too: the levels that it needs do not reach the limit, as
    `Needs.room_iff` has it. -/
theorem grouping_transparent_iff {source : Text} {e : Expr}
    (hread : readExpression source = some (.ok e))
    (hroom : ∃ e₁, readExpressionFrom 1 source = some (.ok e₁)) :
    (∃ e', readExpression (grouped source) = some (.ok e') ∧ e'.unplaced = e.unplaced) ↔
      (State.ofText (grouped source)).seesArrow = false := by
  obtain ⟨e₁, hroom⟩ := hroom
  obtain ⟨e₀, hread₀, hsame⟩ := readExpression_of_room hroom
  cases hread.symm.trans hread₀
  rw [hsame]
  constructor
  · intro h
    obtain ⟨e', hread', hsame'⟩ := h
    refine Bool.eq_false_iff.mpr fun harrow => ?_
    exact not_readExpression_grouped hroom harrow hread' hsame'
  · exact readExpression_grouped hroom

/-- Markup whose text looks like the end of parameters. -/
def arrowText : Text := txt "<a>) =></a>"

/-- The condition can fail and can hold: a sum in parentheses is the sum, and an element whose text
    is `) =>` is taken for a function. -/
theorem sample_groups :
    (∃ e e', readExpression (txt "a + b") = some (.ok e) ∧
      readExpression (grouped (txt "a + b")) = some (.ok e') ∧ e'.unplaced = e.unplaced) ∧
    ∃ e, readExpression arrowText = some (.ok e) ∧
      ¬ ∃ e', readExpression (grouped arrowText) = some (.ok e') ∧ e'.unplaced = e.unplaced := by
  obtain ⟨e₁, hroom⟩ : ∃ e, readExpressionFrom 1 (txt "a + b") = some (.ok e) :=
    exists_of_acceptsAtOnce (by decide +kernel)
  obtain ⟨e, hread, -⟩ := readExpression_of_room hroom
  obtain ⟨e₂, hroom'⟩ : ∃ e, readExpressionFrom 1 arrowText = some (.ok e) :=
    exists_of_acceptsAtOnce (by decide +kernel)
  obtain ⟨a, harrow, -⟩ := readExpression_of_room hroom'
  obtain ⟨e', hread', hsame⟩ :=
    (grouping_transparent_iff hread ⟨e₁, hroom⟩).mpr (by decide +kernel)
  refine ⟨⟨e, e', hread, hread', hsame⟩, a, harrow, fun h => ?_⟩
  exact absurd ((grouping_transparent_iff harrow ⟨e₂, hroom'⟩).mp h) (by decide +kernel)

end ReactiveScript
