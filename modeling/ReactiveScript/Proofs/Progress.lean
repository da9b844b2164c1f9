import ReactiveScript.Proofs.Grammar.Levels

/-!
# When reading a source ends

A statement moves on from every token unless the reader is stuck, that is, on its way out of
something too deep and at a token that no statement takes without its expression. Where such a
token starts a line, a list of statements never ends; everything else ends.
-/

namespace ReactiveScript

open Grammar

/-! ## 1. Readings that never end -/

/-- A routine that is cut short only where it circles never ends exactly if it always circles. -/
theorem Grammar.runOn_eq_none_iff {α : Type} {routine : Context → Reading α} {source : Text}
    (h : ∀ rounds, source.length + 2 ≤ rounds →
      Reads source 0 (routine (Context.ofSource source rounds))) :
    runOn routine source = none ↔ ∀ rounds, source.length + 2 ≤ rounds →
      ∃ u, runFor routine source rounds = .error u ∧ u.state.circles = true := by
  unfold runOn
  rw [firstAnswer_eq_none_iff]
  constructor
  · intro hall rounds hrounds
    obtain ⟨u, hu⟩ := hall rounds hrounds
    rcases runFor_of_reads (h rounds hrounds) with ⟨v, hv, hcircles⟩ | ⟨r, hr⟩
    · exact ⟨v, hv, hcircles⟩
    · rw [hr] at hu
      cases hu
  · intro hall rounds hrounds
    obtain ⟨u, hu, _⟩ := hall rounds hrounds
    exact ⟨u, hu⟩

/-- A routine that does not end is cut short in a state that circles. -/
theorem Grammar.runFor_eq_error {α : Type} {routine : Context → Reading α} {source : Text}
    {rounds : Nat} (h : Runs (routine (Context.ofSource source rounds))
      (State.ofText source) fun _ _ => False) :
    ∃ u, runFor routine source rounds = .error u ∧ u.state.circles = true := by
  unfold runFor
  cases hrun : (routine (Context.ofSource source rounds)).run (State.ofText source) with
  | error u => exact ⟨u, rfl, h.of_error hrun⟩
  | ok p => exact ((runs_of_eq hrun).mp h).elim

/-! ## 2. Below many negations -/

/-- The state behind `n` negations, each of them a level deeper, if none of them is too deep. -/
def Grammar.State.pastBangs? : Nat → State → Option State
  | 0, s => some s
  | n + 1, s =>
    if s.sees (.punct .bang) && !s.deepened.tooDeep then pastBangs? n s.deepened.advance else none

/-- An operand that never ends does not end below negations either. -/
theorem Grammar.runs_unary_of_bangs (c : Context) {n m : Nat} {s t : State}
    (hbangs : s.pastBangs? n = some t) (hend : Runs (unary (c.raised m)) t fun _ _ => False) :
    Runs (unary (c.raised (m + n))) s fun _ _ => False := by
  induction n generalizing s with
  | zero =>
    cases hbangs
    exact hend
  | succ n ih =>
    rw [State.pastBangs?, Option.ite_none_right_eq_some] at hbangs
    simp only [State.sees, Bool.and_eq_true, decide_eq_true_eq, Bool.not_eq_true'] at hbangs
    obtain ⟨⟨hkind, hdeep⟩, hrest⟩ := hbangs
    have hop : UnaryOp.ofKind? (.punct .bang) = some .not := by decide
    rw [unary, runs_bind, runs_token, hkind, hop, runs_nested, hdeep, if_neg (by decide), runs_bind,
      runs_advance, runs_bind]
    exact (ih hrest).mono fun _ _ => False.elim

theorem Grammar.runs_assignment_of_bangs (c : Context) {n m : Nat} {s t : State}
    (hdeep : s.deepened.tooDeep = false) (hdestructuring : s.deepened.seesDestructuring = false)
    (harrow : s.deepened.seesArrow = false) (hbangs : s.deepened.pastBangs? n = some t)
    (hend : Runs (unary (c.raised m)) t fun _ _ => False) :
    Runs (assignment (c.raised (m + n))) s fun _ _ => False := by
  rw [assignment, runs_nested, hdeep, if_neg (by decide), runs_bind, runs_get, hdestructuring,
    if_neg (by decide), harrow, if_neg (by decide)]
  simp only [plainAssignment, conditional, binary, runs_bind]
  exact (runs_unary_of_bangs c hbangs hend).mono fun _ _ => False.elim

theorem Grammar.runs_wholeExpression_of_assignment {source : Text} {rounds n : Nat} {s : State}
    (hn : levels = n + 1) (hs : { State.ofText source with nesting := 1 } = s)
    (h : Runs (assignment ((Context.ground source rounds).raised n)) s fun _ _ => False) :
    Runs (wholeExpression (Context.ofSource source rounds))
      (State.ofText source) fun _ _ => False := by
  subst hs
  rw [wholeExpression, Context.ofSource, hn, runs_bind, runs_modify, runs_bind]
  exact h.mono fun _ _ => False.elim

/-! ## 3. An expression that is never read to its end

Below 998 negations a function has a parameter with a default value that is too deep. The reader
gives up on it without taking its `{`, leaves the parameters, and takes the brace for the start of
the function's body. The body's first line holds a name, and there the reader circles. -/

/-- The negations, and the function below them. Irreducible, so that only the kernel, which is
    asked for it by `decide +kernel`, ever computes with the whole of it. -/
@[irreducible] def endless : Text :=
  List.replicate 998 0x21 ++ txt "((a = \x7b\nx\x7d) => 1)"

namespace Endless

/-- Before the expression. -/
def atStart : State := { State.ofText endless with nesting := 1 }

/-- Behind the negations, at the bracket around the function. -/
def atBracket : State where
  cursor := ⟨txt "(a = \x7b\nx\x7d) => 1)", ⟨999, 1, 1000⟩, false⟩
  current := ⟨.punct .openParen, txt "(", ⟨998, 1, 999⟩, false⟩
  previous := ⟨.punct .bang, txt "!", ⟨997, 1, 998⟩, false⟩
  nesting := 1
  depth := 999

/-- At the bracket of the parameters, on the last level there is. -/
def atParams : State where
  cursor := ⟨txt "a = \x7b\nx\x7d) => 1)", ⟨1000, 1, 1001⟩, false⟩
  current := ⟨.punct .openParen, txt "(", ⟨999, 1, 1000⟩, false⟩
  previous := atBracket.current
  nesting := 2
  depth := 1000

/-- At the default value, on the way out. -/
def atBrace : State where
  cursor := ⟨txt "\nx\x7d) => 1)", ⟨1005, 1, 1006⟩, false⟩
  current := ⟨.punct .openBrace, txt "\x7b", ⟨1004, 1, 1005⟩, false⟩
  previous := ⟨.punct .declare, txt "=", ⟨1002, 1, 1003⟩, false⟩
  nesting := 2
  depth := 1000
  tooDeep := true
  reports := [⟨.parse .tooDeep, ⟨1004, 1, 1005⟩⟩]

/-- At the name on the second line, in what is taken for a body. -/
def inBody : State where
  cursor := ⟨txt "\x7d) => 1)", ⟨1007, 2, 2⟩, false⟩
  current := ⟨.identifier, txt "x", ⟨1006, 2, 1⟩, true⟩
  previous := atBrace.current
  braceBlocks := 1
  depth := 1000
  tooDeep := true
  reports := atBrace.reports

theorem ready_inBody : Ready endless 1000 inBody where
  rest_eq := by decide +kernel
  stop_le := by decide
  text_ne := by decide
  inside := by decide +kernel
  ended := fun hkind => by cases hkind
  deep := fun _ => List.cons_ne_nil _ _
  kind_ne := by decide
  depth_eq := rfl
  depth_le := by decide

theorem pastBangs?_atStart : atStart.deepened.pastBangs? 998 = some atBracket := by
  decide +kernel

theorem deepened_atBracket :
    State.deepened { atBracket.advance with nesting := atBracket.advance.nesting + 1 } = atParams := by
  decide +kernel

section

variable {c : Context} {source : Text} (h : (c.raised 2).Serves source 1000)

include h

theorem rounds_eq : ∃ k, c.rounds = k + 1 := by
  have hlt : source.length < c.rounds := h.rounds_lt
  exact ⟨c.rounds - 1, by omega⟩

theorem params_atParams : params (c.raised 2) atParams =
    .ok ([.name ⟨1000, 1, 1001⟩ (txt "a") (some (.bad ⟨1004, 1, 1005⟩))], atBrace) := by
  obtain ⟨k, hk⟩ := rounds_eq h
  cases c
  cases hk
  rfl

theorem runs_braceBlock : Runs (braceBlock (c.raised 2)) atBrace fun _ _ => False := by
  have hloop : Runs (statements (c.raised 2) .braces true) inBody fun _ _ => False := by
    have hread : Layout.braces.turn true inBody.current = .read := rfl
    obtain ⟨k, hk⟩ := rounds_eq h
    have hrounds : (c.raised 2).rounds = k + 1 := hk
    rw [statements, hrounds, statementsFrom, runs_bind, runs_token, hread, runs_bind]
    refine (runs_checked_of_stuck h rfl).mono fun st s hs => ?_
    subst hs
    exact runs_statementsFrom_of_circles h rfl rfl rfl k _
  have hbrace : atBrace.sees (.punct .openBrace) = true := rfl
  simp only [braceBlock, runs_bind, runs_token, runs_expect, hbrace, if_true, outsideBrackets,
    insideBraces, runs_get, runs_modify]
  exact hloop.mono fun _ _ => False.elim

theorem runs_arrow : Runs (arrow (c.raised 2)) atParams fun _ _ => False := by
  have harrow : atBrace.sees (.punct .arrow) = false := rfl
  have hkind : atBrace.current.kind = .punct .openBrace := rfl
  rw [arrow, runs_bind, runs_token, runs_bind, runs_of_eq (params_atParams h)]
  simp only [runs_bind, runs_get, runs_expect, harrow, Bool.false_eq_true, if_false]
  -- On the way out the missing arrow is not reported, and nothing has changed.
  show Runs (arrowBody _ _ _ _) atBrace _
  rw [arrowBody, runs_bind, runs_token, if_pos hkind, runs_bind]
  exact (runs_braceBlock h).mono fun _ _ => False.elim

theorem runs_unary : Runs (unary (c.raised 3)) atBracket fun _ _ => False := by
  have hunary : UnaryOp.ofKind? atBracket.current.kind = none := by decide
  have hupdate : UpdateOp.ofKind? atBracket.current.kind = none := by decide
  have hkind : atBracket.current.kind = .punct .openParen := rfl
  have hdestructuring : atParams.seesDestructuring = false := rfl
  have harrow : atParams.seesArrow = true := rfl
  have hfunction : Runs (assignment (c.raised 2))
      { atBracket.advance with nesting := atBracket.advance.nesting + 1 } fun _ _ => False := by
    rw [assignment, runs_nested, deepened_atBracket, if_neg (by decide), runs_bind, runs_get,
      hdestructuring, if_neg (by decide), harrow, if_pos rfl]
    exact (runs_arrow h).mono fun _ _ => False.elim
  rw [unary, runs_bind, runs_token, hunary, hupdate]
  simp only [postfixed, chain, primary, parenthesized, bracketed, runs_bind, runs_token, hkind,
    runs_advance, runs_modify]
  exact hfunction.mono fun _ _ => False.elim

theorem runs_assignment : Runs (assignment (c.raised (3 + 998))) atStart fun _ _ => False := by
  have hdeep : atStart.deepened.tooDeep = false := by decide +kernel
  have hdestructuring : atStart.deepened.seesDestructuring = false := by decide +kernel
  have harrow : atStart.deepened.seesArrow = false := by decide +kernel
  have hbelow : Runs (unary (c.raised 3)) atBracket (fun _ _ => False) →
      Runs (assignment (c.raised (3 + 998))) atStart fun _ _ => False :=
    runs_assignment_of_bangs c hdeep hdestructuring harrow pastBangs?_atStart
  exact hbelow (runs_unary h)

end

end Endless

/-! ## 4. Which statements move on, and which readings end -/

/-- **Statements move on unless the reader is stuck, and only a reader that circles never ends.**
    A statement that is read at some depth, from a state ready for it and not at the end, ends at
    the end of the source or at a later token exactly if the reader is not stuck. The reading of a
    program or an expression never ends exactly if, with any number of rounds that is enough
    otherwise, it is cut short in a state that circles. -/
theorem statement_moves_iff_not_stuck (source : Text) :
    (∀ (rounds n d : Nat) (s s' : State) (st : Stmt), source.length + 2 ≤ rounds →
      levels ≤ n + d → Ready source d s → s.atEnd = false →
      checked ((Context.ground source rounds).raised n) s = .ok (st, s') →
      ((s'.atEnd = true ∨ s.current.offset < s'.current.offset) ↔ s.stuck = false)) ∧
    (readProgram source = none ↔ ∀ rounds, source.length + 2 ≤ rounds →
      ∃ u, runFor program source rounds = .error u ∧ u.state.circles = true) ∧
    (readExpression source = none ↔ ∀ rounds, source.length + 2 ≤ rounds →
      ∃ u, runFor wholeExpression source rounds = .error u ∧ u.state.circles = true) := by
  have hsource {rounds : Nat} (hrounds : source.length + 2 ≤ rounds) :=
    Context.ofSource_serves hrounds
  refine ⟨?_, runOn_eq_none_iff fun _ hrounds => ?_, runOn_eq_none_iff fun _ hrounds => ?_⟩
  rotate_left
  · have hserves := hsource hrounds
    infer_instance
  · have hserves := hsource hrounds
    infer_instance
  intro rounds n d s s' st hrounds hlevels hs hend hrun
  have hserves : ((Context.ground source rounds).raised n).Serves source d :=
    (Context.raised_serves hrounds n).mono (by omega)
  cases hstuck : s.stuck with
  | false =>
    have hlt := (runs_of_eq hrun).mp (runs_checked_lt hs hend hstuck)
    exact ⟨fun _ => rfl, fun _ => .inr hlt⟩
  | true =>
    have heq := (runs_of_eq hrun).mp (runs_checked_of_stuck hserves hstuck)
    subst heq
    refine ⟨fun hmoved => ?_, fun hfalse => absurd hfalse.symm Bool.false_ne_true⟩
    rcases hmoved with hatEnd | hlt
    · rw [hend] at hatEnd
      cases hatEnd
    · exact absurd hlt (Nat.lt_irrefl _)

/-- The endless source is a refutation of both: a statement that is read in it moves nowhere, and
    the reading of the whole never ends. -/
theorem endless_is_never_read :
    (∃ st s', checked ((Context.ground endless (endless.length + 2)).raised 2) Endless.inBody =
        .ok (st, s') ∧
      ¬ (s'.atEnd = true ∨ Endless.inBody.current.offset < s'.current.offset)) ∧
    readExpression endless = none := by
  obtain ⟨hmoves, _, hends⟩ := statement_moves_iff_not_stuck endless
  constructor
  · obtain ⟨⟨st, s'⟩, hrun⟩ : ∃ r, checked
        ((Context.ground endless (endless.length + 2)).raised 2) Endless.inBody = .ok r := ⟨_, rfl⟩
    have hmoved := hmoves _ 2 1000 _ s' st (Nat.le_refl _) (by decide) Endless.ready_inBody rfl hrun
    exact ⟨st, s', hrun, fun h => absurd (hmoved.mp h) (by decide)⟩
  · refine hends.mpr fun rounds hrounds => runFor_eq_error ?_
    have hserves := Context.raised_serves hrounds 2
    exact runs_wholeExpression_of_assignment rfl rfl (Endless.runs_assignment hserves)

end ReactiveScript
