import ReactiveScript.Proofs.Grammar.Laying

/-!
# What is accepted is well formed

A source is accepted if its reading ends without a report. Whatever the reader builds on its way
from pieces that are missing, misplaced or too deep, it has reported; so the tree of an accepted
source is well formed throughout, also where it was read from the hole of a template.
-/

namespace ReactiveScript

open Grammar

/-- **The tree of an accepted source is well formed.** -/
theorem accepted_wellFormed (source : Text) :
    (∀ p, readProgram source = some (.ok p) → WellFormed.program p = true) ∧
    (∀ e, readExpression source = some (.ok e) → WellFormed.expr e = true) :=
  ⟨fun _ h => (built_of_readProgram h).wellFormed, fun _ h => (built_of_readExpression h).wellFormed⟩

/-- A program with most of the constructs that could go wrong. -/
def constructs : Text :=
  txt "import * as m from 'm'\nimport \x7b a as b \x7d from 'n'\n" ++
  txt "@state x = \x7b [k]: 1, y, ...z \x7d\n[c, d] := e ? [...g] : h`i`\n" ++
  txt "export f = ([p, ...q], \x7b r = 2, ...s \x7d, ...t) => `u$\x7b p[1...2] + `v` \x7d`\n" ++
  txt "c[0...1] := <j l=\x7bm\x7d>n \x7b o \x7d</j>\n@effect:\n  c.d +:= 1\n"

theorem constructs_wellFormed :
    (∃ p, readProgram constructs = some (.ok p) ∧ WellFormed.program p = true) ∧
    ∃ e, readExpression (txt "[a, b] := c") = some (.ok e) ∧ WellFormed.expr e = true := by
  obtain ⟨p, hp⟩ : ∃ p, readProgram constructs = some (.ok p) :=
    exists_of_acceptsAtOnce (by decide +kernel)
  obtain ⟨e, he⟩ : ∃ e, readExpression (txt "[a, b] := c") = some (.ok e) :=
    exists_of_acceptsAtOnce (by decide +kernel)
  exact ⟨⟨p, hp, (accepted_wellFormed _).1 p hp⟩, e, he, (accepted_wellFormed _).2 e he⟩

end ReactiveScript
