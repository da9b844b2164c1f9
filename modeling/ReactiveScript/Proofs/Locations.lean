import ReactiveScript.Compile
import ReactiveScript.Proofs.Grammar.Levels
import ReactiveScript.Proofs.Grammar.Moves
import ReactiveScript.Proofs.Script.Success

/-!
# Every location is right

What is reported and what is built carries a position: an offset, a line and a column. The offset
lies in the source, and the line and the column are those that the line map finds for it.
-/

namespace ReactiveScript

/-- The position lies in the source, on the line and in the column that belong to its offset. -/
def Position.FitsLines (source : Text) (p : Position) : Prop :=
  p.offset ≤ source.length ∧ (LineMap.ofText source).position p.offset = p

/-! ## 1. Reading -/

namespace Grammar

/-- A reading with an answer stayed in its source. -/
theorem runOn_isIn {α : Type} [Placed α] {routine : Context → Reading α} {source : Text}
    (h : ∀ rounds, Moves (some source) State.Anyhow (routine (Context.ofSource source rounds))
      (routine (Context.ofSource source rounds)))
    {answer : Except (List Report) α} (hanswer : runOn routine source = some answer) :
    (∀ rs, answer = .error rs → ∀ r ∈ rs, r.pos.IsIn source) ∧
      ∀ a, answer = .ok a → Placed.IsIn (some source) a := by
  obtain ⟨rounds, a, t, -, hrun, rfl⟩ := runOn_eq_some hanswer
  have hstart : Placed.IsIn (some source) (State.ofText source) :=
    fun _ hsource => by cases hsource; exact State.isIn_start (Cursor.isIn_ofText source)
  have hend := (h rounds).run hstart a t hrun
  split
  · refine ⟨nofun, fun b hb => ?_⟩
    cases hb
    exact hend.value
  · refine ⟨fun rs hrs r hr => ?_, nofun⟩
    cases hrs
    exact (hend.state source rfl).reports r (List.mem_reverse.mp hr)

end Grammar

/-! ## 2. All locations -/

/-- The reports of compiling are those of reading, or lie at nodes of the program that was read. -/
theorem isIn_of_compile {o : Script.Options} {source : Text} {failure : Failure}
    (h : compile o source = some (.error failure)) : ∀ r ∈ failure.reports, r.pos.IsIn source := by
  intro r hr
  cases hread : readProgram source with
  | none =>
    rw [compile, hread] at h
    cases h
  | some answer =>
    obtain ⟨hreports, htree⟩ := Grammar.runOn_isIn (fun _ => inferInstance) hread
    cases answer with
    | error rs =>
      rw [compile, hread] at h
      cases h
      exact hreports rs rfl r hr
    | ok p =>
      rw [compile_of_readProgram o hread] at h
      by_cases hfaults : (Script.ofProgram o p).faults = []
      · rw [Code.checked_of_nil hfaults] at h
        cases h
      · rw [Code.checked_of_ne_nil hfaults] at h
        cases h
        obtain ⟨-, hfault⟩ := Script.judged_ofProgram o (sensible_of_readProgram hread)
        obtain ⟨-, n, hn, hpos⟩ := hfault r hr
        exact htree p rfl n hn r.pos hpos

/-- **Every location is right.** Each report of reading or compiling a source, and each node of a
    tree that was read from it, lies in the source, on the line and in the column that the line map
    finds for its offset. -/
theorem locations_fit_lines (o : Script.Options) (source : Text) :
    (∀ rs, readProgram source = some (.error rs) → ∀ r ∈ rs, r.pos.FitsLines source) ∧
    (∀ rs, readExpression source = some (.error rs) → ∀ r ∈ rs, r.pos.FitsLines source) ∧
    (∀ failure, compile o source = some (.error failure) →
      ∀ r ∈ failure.reports, r.pos.FitsLines source) ∧
    (∀ p, readProgram source = some (.ok p) →
      ∀ n ∈ Preorder.program p, ∀ q, n.pos? = some q → q.FitsLines source) ∧
    ∀ e, readExpression source = some (.ok e) →
      ∀ n ∈ Preorder.expr e, ∀ q, n.pos? = some q → q.FitsLines source := by
  have hprogram {answer : Except (List Report) Program}
      (h : readProgram source = some answer) := Grammar.runOn_isIn (fun _ => inferInstance) h
  have hexpression {answer : Except (List Report) Expr}
      (h : readExpression source = some answer) := Grammar.runOn_isIn (fun _ => inferInstance) h
  refine ⟨fun rs hrs r hr => ?_, fun rs hrs r hr => ?_, fun failure hfailure r hr => ?_,
    fun p hp n hn q hq => ?_, fun e he n hn q hq => ?_⟩
  · exact Position.isIn_iff.mp ((hprogram hrs).1 rs rfl r hr)
  · exact Position.isIn_iff.mp ((hexpression hrs).1 rs rfl r hr)
  · exact Position.isIn_iff.mp (isIn_of_compile hfailure r hr)
  · exact Position.isIn_iff.mp ((hprogram hp).2 p rfl n hn q hq)
  · exact Position.isIn_iff.mp ((hexpression he).2 e rfl n hn q hq)

/-- A program with a fault on its third line. -/
def brokenSource : Text := txt "a = 1\n\n  b := (2\n"

/-- A program that is read, but whose last line cannot be written. -/
def misplacedSource : Text := txt "x = <p>\n  a \x7b b \x7d\n</p>\nf(y = `$\x7bz\x7d`)\n"

theorem sample_locations :
    (∃ rs, readProgram brokenSource = some (.error rs) ∧ rs ≠ [] ∧
      ∀ r ∈ rs, r.pos.FitsLines brokenSource) ∧
    (∃ failure, compile {} misplacedSource = some (.error failure) ∧ failure.reports ≠ [] ∧
      ∀ r ∈ failure.reports, r.pos.FitsLines misplacedSource) ∧
    ∃ p, readProgram misplacedSource = some (.ok p) ∧
      ∀ n ∈ Preorder.program p, ∀ q, n.pos? = some q → q.FitsLines misplacedSource := by
  obtain ⟨rs, hrs, hsome⟩ : ∃ rs, readProgram brokenSource = some (.error rs) ∧
      (!rs.isEmpty) = true := Grammar.exists_of_refusesAtOnce (by decide +kernel)
  have hne : rs ≠ [] := by simpa using hsome
  obtain ⟨p, hread, hfault⟩ : ∃ p, readProgram misplacedSource = some (.ok p) ∧
      (!(Script.ofProgram {} p).faults.isEmpty) = true :=
    Grammar.exists_of_givesAtOnce (by decide +kernel)
  have hfaults : (Script.ofProgram {} p).faults ≠ [] := by simpa using hfault
  have hfails : compile {} misplacedSource =
      some (.error (.writing (Script.ofProgram {} p).faults)) := by
    rw [compile_of_readProgram {} hread, Code.checked_of_ne_nil hfaults]
  obtain ⟨hreading, -, -, -⟩ := locations_fit_lines {} brokenSource
  obtain ⟨-, -, hcompiling, htree, -⟩ := locations_fit_lines {} misplacedSource
  exact ⟨⟨rs, hrs, hne, hreading rs hrs⟩, ⟨_, hfails, hfaults, hcompiling _ hfails⟩,
    p, hread, htree p hread⟩

end ReactiveScript
