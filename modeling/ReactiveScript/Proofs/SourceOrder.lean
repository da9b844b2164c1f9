import ReactiveScript.Proofs.Grammar.Laying
import ReactiveScript.Proofs.Grammar.Gathering

/-!
# A tree keeps the order of its source

The tree of an accepted source lists what was read in the order in which it stands there.
-/

namespace ReactiveScript

open Grammar

/-- The spot at which a source is read. -/
theorem Grammar.sound_start (source : Text) :
    (State.ofText source).spot.Sound source :=
  sound_advance (Cursor.isIn_ofText source) rfl

/-- **The nodes of a program lie in the order of the source.** -/
theorem nodes_in_source_order (source : Text) (p : Program)
    (h : readProgram source = some (.ok p)) :
    ((Preorder.program p).filterMap Node.offset?).Pairwise (· ≤ ·) := by
  obtain ⟨rounds, s, -, hrun, hclean⟩ := exists_run_of_accepted h
  have hcovers := gathers_program (sound_start source) hrun hclean
  exact hcovers.inOrder.sorted

/-- A program whose nodes are not built from left to right. -/
def leftNested : Text :=
  txt "@state f = (a, \x7bb: [c]\x7d, ...d) => a.b?.[c](d)[1...2] + `x$\x7b a - b \x7d` * c\n" ++
  txt "f(<p q=\x7br\x7d> s \x7b t \x7d <u/>\n</p>) |> g\n"

theorem leftNested_in_order :
    ∃ p, readProgram leftNested = some (.ok p) ∧ 40 < (Preorder.program p).length ∧
      ((Preorder.program p).filterMap Node.offset?).Pairwise (· ≤ ·) := by
  obtain ⟨p, hp, hlong⟩ : ∃ p, readProgram leftNested = some (.ok p) ∧
      (decide (40 < (Preorder.program p).length)) = true :=
    exists_of_givesAtOnce (by decide +kernel)
  exact ⟨p, hp, of_decide_eq_true hlong, nodes_in_source_order leftNested p hp⟩

/-! ## Names -/

theorem Token.flatMap_names (ts : List Token) :
    ts.flatMap Token.names = (ts.filter (·.kind = .identifier)).map (·.text) := by
  induction ts with
  | nil => rfl
  | cons t ts ih =>
    rw [List.flatMap_cons, ih, Token.names]
    by_cases h : t.kind = .identifier <;> simp [h]

/-- **No name is lost, and none is added.** The names in an expression are the names among the
    tokens of its source, in the same order. -/
theorem names_in_source_order (source : Text) (e : Expr) (h : readExpression source = some (.ok e))
    (hshown : ∀ n ∈ Preorder.expr e, n.hidesNames = false) :
    ((tokenize source).1.filter (·.kind = .identifier)).map (·.text) =
      (Preorder.expr e).filterMap Node.name? := by
  obtain ⟨rounds, s, -, hrun, hclean⟩ := exists_run_of_accepted h
  obtain ⟨hcovers, hend⟩ := gathers_wholeExpression (sound_start source) hrun hclean
  have hwf : WellFormed.expr e = true := (built_of_readExpression h).wellFormed
  have hplain : AllPlain (Preorder.expr e) := by
    intro n hn
    have hbad := Piece.isBad_of_mem_nodes (q := .expr e) hwf n hn
    rw [Node.isPlain, hbad, hshown n hn]
    rfl
  have hlast : s.spot.names = [] := by
    rw [Spot.names, hcovers.sound.names_of_eof hend, List.append_nil]
    exact Token.names_of_ne (by simp [State.spot, hend])
  have hall : (Cursor.ofText source).names = (State.ofText source).spot.names := by
    rw [Cursor.names_eq, Spot.names, State.spot, State.ofText, State.start,
      State.advance_current, State.advance_cursor]
  calc ((tokenize source).1.filter (·.kind = .identifier)).map (·.text)
    _ = (Cursor.ofText source).names := by rw [← Token.flatMap_names, tokenize_names]
    _ = namesOf (Preorder.expr e) ++ s.spot.names := by rw [hall, hcovers.names hplain]
    _ = (Preorder.expr e).filterMap Node.name? := by rw [hlast, List.append_nil, namesOf]

/-- An expression with all sorts of names. -/
def manyNames : Text :=
  txt "(a, [b = c, ...d], \x7be, if: f, 'g': h, ...i\x7d, ...j) =>\n" ++
  txt "  k = \x7ba, l: b.for?.m, [n]: 1, ...(p, q) => \x7breturn p\x7d\x7d\n  k\n"

theorem manyNames_in_order :
    ∃ e, readExpression manyNames = some (.ok e) ∧
      (∀ n ∈ Preorder.expr e, n.hidesNames = false) ∧
      20 < ((Preorder.expr e).filterMap Node.name?).length ∧
      ((tokenize manyNames).1.filter (·.kind = .identifier)).map (·.text) =
        (Preorder.expr e).filterMap Node.name? := by
  obtain ⟨e, he, htest⟩ : ∃ e, readExpression manyNames = some (.ok e) ∧
      ((Preorder.expr e).all (fun n => !n.hidesNames) &&
        decide (20 < ((Preorder.expr e).filterMap Node.name?).length)) = true :=
    exists_of_givesAtOnce (by decide +kernel)
  rw [Bool.and_eq_true, List.all_eq_true, decide_eq_true_eq] at htest
  have hshown : ∀ n ∈ Preorder.expr e, n.hidesNames = false :=
    fun n hn => by simpa using htest.1 n hn
  exact ⟨e, he, hshown, htest.2, names_in_source_order manyNames e he hshown⟩

end ReactiveScript
