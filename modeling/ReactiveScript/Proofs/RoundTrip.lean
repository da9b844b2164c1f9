import ReactiveScript.Script.Module
import ReactiveScript.Proofs.Grammar.Levels
import ReactiveScript.Proofs.RoundTrip.Emitted
import ReactiveScript.Proofs.RoundTrip.Reading

/-!
# Emitted expressions are read back

The script of a plain expression, read as a source again, gives the expression back, up to the
places of its nodes: its parentheses are enough for the reader, whose operators have other strengths
than the levels that the parentheses follow, and no two of its tokens run together. The reader
refuses what is nested too deeply, and an expression can be as deep as it is large, so there is a
bound on the size.
-/

namespace ReactiveScript

open Lexed

/-- Does a statement that starts with a token of this kind hold an expression and nothing else? -/
def Kind.startsExpression (k : Kind) : Bool :=
  Form.whole.starts k || (UpdateOp.ofKind? k).isSome

theorem Kind.startsExpression_of_starts {k : Kind} (h : Form.whole.starts k = true) :
    k.startsExpression = true := by
  rw [Kind.startsExpression, h, Bool.true_or]

namespace Grammar

variable {source : Text} {k : Nat} {ts : List Lexed} {e : Expr}

/-- A whole expression and nothing else is read to the end of the source. -/
theorem ends_wholeExpression {rounds : Nat}
    (hreads : ReadsWhole (Context.ground source rounds) k ts e) (hk : k ≤ maxDepth)
    (hlexes : Lexes source ts) (hrounds : ts.length < rounds) :
    Ends (wholeExpression (Context.ofSource source rounds)) (State.ofText source)
      fun e' s' => s'.reports = [] ∧ e'.unplaced = e.unplaced := by
  have hs := (stands_start hlexes hrounds).setNesting 1
  rw [← List.append_nil ts] at hs
  have hassignment : (Context.ofSource source rounds).inner.assignment =
      assignment ((Context.ground source rounds).raised (maxDepth + 1)) := rfl
  rw [wholeExpression, ends_modify, ends_bind, hassignment]
  refine (hreads (d := 0) (Nat.le_refl _) (by omega) rfl hs).mono ?_
  rintro e' s' ⟨he', hs'⟩
  have hend : s'.atEnd = true := by
    rw [hs'.atEnd_eq]
    rfl
  simp only [ends_atEnd, ends_get, hend, Bool.not_true, Bool.false_and, Bool.false_eq_true, if_false,
    ends_pure]
  exact ⟨hs'.reports_eq, he'⟩

/-- A reading that ends is the answer, unless it has reported something. -/
theorem runOn_of_ok {α : Type} {routine : Context → Reading α} {source : Text} {a : α}
    {s' : State}
    (h : routine (Context.ofSource source (source.length + 2)) (State.ofText source) =
      .ok (a, s')) :
    runOn routine source = some (if s'.reports.isEmpty then .ok a else .error s'.reports.reverse) := by
  have hrun : (routine (Context.ofSource source (source.length + 2))).run
      (State.ofText source) = .ok (a, s') := h
  refine firstAnswer_of_ok ?_
  rw [runFor, hrun]
  rfl

theorem runOn_of_ends {α : Type} {routine : Context → Reading α} {source : Text} {G : α → Prop}
    (h : Ends (routine (Context.ofSource source (source.length + 2)))
      (State.ofText source) fun a s' => s'.reports = [] ∧ G a) :
    ∃ a, runOn routine source = some (.ok a) ∧ G a := by
  obtain ⟨a, s', hrun, hreports, ha⟩ := h
  refine ⟨a, (runOn_of_ok hrun).trans ?_, ha⟩
  rw [hreports]
  rfl

/-- What a reader standing before the tokens reads, is read from a text that is cut into them. -/
theorem readExpression_of_readsWhole (hreads : ∀ c, ReadsWhole c k ts e) (hk : k ≤ maxDepth)
    (hlexes : Lexes source ts) :
    ∃ e', readExpression source = some (.ok e') ∧ e'.unplaced = e.unplaced := by
  have hlength := hlexes.length_le
  exact runOn_of_ends (ends_wholeExpression (hreads _) hk hlexes (by omega))

/-- A statement that starts as an expression does is an expression. -/
theorem ends_statement_of_starts {c : Context} {s : State}
    (h : s.current.kind.startsExpression = true) {Q : Stmt → State → Prop} :
    Ends (statement c) s Q ↔ Ends (expressionStmt c none s.current.pos) s Q := by
  rw [statement, ends_token]
  split
  all_goals first
    | rfl
    | rename_i heq
      rw [heq] at h
      cases h

/-- What is read as an expression is read as a program of one statement. -/
theorem readProgram_of_readsWhole (hstarts : (headKind ts).startsExpression = true)
    (hreads : ∀ c, ReadsWhole c k ts e) (hk : k ≤ maxDepth) (hlexes : Lexes source ts) :
    ∃ p q e', readProgram source = some (.ok ⟨p, [.expression q none e']⟩) ∧
      e'.unplaced = e.unplaced := by
  have hlength := hlexes.length_le
  have hs : Stands (source.length + 2) 0 (State.ofText source) ts :=
    stands_start hlexes (by omega)
  have hline : (State.ofText source).current.lineStart = true :=
    (stands_advance (s := { cursor := Cursor.ofText source }) hlexes rfl rfl
      (Nat.lt_succ_self _)).2
  have hkind : (State.ofText source).current.kind = headKind ts := hs.kind_eq
  have hne : headKind ts ≠ .eof := by
    intro heq
    rw [heq] at hstarts
    cases hstarts
  have hturn : Layout.program.turn none (State.ofText source).current = .read := by
    simp [Layout.program, hkind, hne, hline]
  have hrounds : (Context.ofSource source (source.length + 2)).rounds = source.length + 1 + 1 :=
    Context.raised_rounds _ _
  have hassignment : (Context.ofSource source (source.length + 2)).inner.assignment =
      assignment ((Context.ground source (source.length + 2)).raised (maxDepth + 1)) := rfl
  have hreports := hs.reports_eq
  rw [← List.append_nil ts] at hs
  have hends : Ends (program (Context.ofSource source (source.length + 2)))
      (State.ofText source) fun a s' => s'.reports = [] ∧
        ∃ p q e', a = ⟨p, [.expression q none e']⟩ ∧ e'.unplaced = e.unplaced := by
    rw [program, ends_token, ends_bind, statements, hrounds, statementsFrom, ends_token, hturn]
    dsimp only
    rw [ends_bind, checked, ends_get, ends_bind, ends_statement_of_starts (hkind ▸ hstarts),
      expressionStmt, ends_bind, hassignment]
    refine (hreads _ (d := 0) (Nat.le_refl _) (by omega) rfl hs).mono ?_
    rintro e' s' ⟨he', hs'⟩
    have hsemicolon : s'.sees (.punct .semicolon) = false := hs'.not_sees rfl
    have hend : s'.current.kind = .eof := hs'.kind_eq
    have hdone (column : Option Nat) : Layout.program.turn column s'.current = .done := by
      simp [Layout.program, hend]
    rw [ends_bind, endStatement, ends_accept_of_not_sees hsemicolon]
    simp only [ends_pure, ends_get, hs'.reports_eq, hreports, ne_eq, not_true_eq_false, if_false,
      statementsFrom, ends_token, hdone]
    exact ⟨trivial, _, _, e', rfl, he'⟩
  obtain ⟨a, hrun, p, q, e', rfl, he'⟩ := runOn_of_ends hends
  exact ⟨p, q, e', hrun, he'⟩

/-- **What is written is read**, if it is not nested too deeply. -/
theorem readExpression_of_lexes (hwritten : Written .whole k ts e) (hk : k ≤ maxDepth)
    (hlexes : Lexes source ts) :
    ∃ e', readExpression source = some (.ok e') ∧ e'.unplaced = e.unplaced :=
  readExpression_of_readsWhole (fun _ => readsForm_of_written hwritten) hk hlexes

end Grammar

/-- **The script of a plain expression is read back as the same expression**, and nothing is found
    amiss while it is written. -/
theorem emitted_reads_back (o : Script.Options) {e : Expr} (hplain : Plain e)
    (hsize : e.size ≤ 500) :
    (Script.ofExpr o e).faults = [] ∧
      ∃ e', readExpression (Script.ofExpr o e).text = some (.ok e') ∧ e'.unplaced = e.unplaced := by
  have hspells : Spells .whole e (Script.ofExpr o e) :=
    (emits_of_plain o 0 hplain).atWhole (Nat.zero_le _)
  obtain ⟨ts, hwritten, hcuts⟩ := hspells.cuts
  have hdepth : 2 * e.size ≤ Grammar.maxDepth := Nat.mul_le_mul_left 2 hsize
  exact ⟨hspells.faults_eq, Grammar.readExpression_of_lexes hwritten hdepth hcuts.lexes⟩

namespace Tangled

def a : Expr := .identifier .start (txt "a")
def b : Expr := .identifier .start (txt "b")

/-- An expression that needs every kind of parentheses, and a blank between two signs. -/
def whole : Expr :=
  .arrow .start ([(.start, txt "a"), (.start, txt "b")].map .ofName)
    (.conditional .start
      (.binary .start .nullish (.binary .start .or a b)
        (.call .start (.member .start a (.identifier .start (txt "of")) false true)
          [.null .start, .array .start [b]] false))
      (.unary .start .minus (.unary .start .minus
        (.binary .start .power (.unary .start .typeOf a) b)))
      (.binary .start .subtract a (.binary .start .subtract
        (.member .start (.arrow .start [] (.boolean .start true)) b true false) b)))

theorem plain_whole : Plain whole := by
  have ha : Plain a := .identifier (by decide)
  have hb : Plain b := .identifier (by decide)
  refine .arrow (by decide) (.conditional ?_ ?_ ?_)
  · refine .binary rfl (.binary rfl ha hb) (.call false (.member true ha (by decide)) ?_)
    exact List.forall_mem_cons.mpr ⟨.null, List.forall_mem_singleton.mpr
      (.array (List.forall_mem_singleton.mpr hb))⟩
  · exact .unary .minus (.unary .minus (.binary rfl (.unary .typeOf ha) hb))
  · have hconst : Plain (.arrow .start [] (.boolean .start true)) :=
      @Plain.arrow _ [] _ (List.forall_mem_nil _) (.boolean true)
    exact .binary rfl ha (.binary rfl (.index false hconst hb) hb)

end Tangled

theorem tangled_reads_back :
    (Script.ofExpr {} Tangled.whole).text =
        txt "(a, b) => (a || b) ?? a?.of(null, [b]) ? - -((typeof a) ** b) : " ++
          txt "a - ((() => true)[b] - b)" ∧
      ∃ e', readExpression (Script.ofExpr {} Tangled.whole).text = some (.ok e') ∧
        e'.unplaced = Tangled.whole.unplaced :=
  ⟨by decide +kernel, (emitted_reads_back {} Tangled.plain_whole (by decide +kernel)).2⟩

end ReactiveScript
