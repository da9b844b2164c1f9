import ReactiveScript.Grammar.Expression

/-!
# Reading a source

The grammar as a whole. A context with `n` levels holds routines that may nest `n` deep, and as
many levels as the depth limit allows, and two more, are enough for every source.

* `readProgram` : a whole program.
* `readExpression` : a single expression.

Each gives a tree or the reports, in the order in which they were found. The loops of a reading are
not bounded by themselves: a reading is tried with more and more rounds for each loop, until it is
not cut short. A reading that is always cut short never ends, and has no answer (`none`).
-/

namespace ReactiveScript.Grammar

/-- The routines one level above those of a context. -/
def Context.routines (c : Context) : Routines where
  assignment := assignment c
  binary := binary c
  binaryRest := binaryRest c
  unary := unary c
  chainRest := chainRest c
  block := block c
  pattern := pattern c
  jsx := jsx c

/-- A context with so many levels of routines on top of those that it has. -/
def Context.raised (c : Context) : Nat → Context
  | 0 => c
  | n + 1 => { c with inner := (c.raised n).routines }

/-- The number of levels that a reader can need. -/
def levels : Nat := maxDepth + 2

/-- The context of a source without any level. -/
def Context.ground (source : Text) (rounds : Nat) : Context :=
  ⟨source, LineMap.ofText source, rounds, .none⟩

/-- The context of a source with all levels, and with so many rounds for each loop. -/
def Context.ofSource (source : Text) (rounds : Nat) : Context :=
  (Context.ground source rounds).raised levels

/-- A single expression up to the end of the source. Operators may stand on any line. -/
def wholeExpression (c : Context) : Reading Expr := do
  modify fun s => { s with nesting := 1 }
  let e ← c.inner.assignment
  if !(← atEnd) && (← get).reports.isEmpty then expected .endOfInput
  return e

/-- Run a routine on a source, with so many rounds for each loop. -/
def runFor {α : Type} (routine : Context → Reading α) (source : Text) (rounds : Nat) :
    Except Unfinished (Except (List Report) α) := do
  let (a, s) ← (routine (Context.ofSource source rounds)).run (State.ofText source)
  return if s.reports.isEmpty then .ok a else .error s.reports.reverse

/-- The first answer among the attempts from the `n`th on. If there is none, the search does not
    end. -/
def firstAnswer {ε α : Type} (attempt : Nat → Except ε α) (n : Nat) : Option α :=
  match attempt n with
  | .ok a => some a
  | .error _ => by
    apply firstAnswer
    · exact attempt
    · exact n + 1
partial_fixpoint

/-- Run a routine on a source. Each round of a loop but the last moves on in the source, so that
    the first attempt is given two rounds more than there are bytes. -/
def runOn {α : Type} (routine : Context → Reading α) (source : Text) :
    Option (Except (List Report) α) :=
  firstAnswer (runFor routine source) (source.length + 2)

end ReactiveScript.Grammar

namespace ReactiveScript

/-- The program that a source holds, or why it is refused; `none` if reading does not end. -/
def readProgram (source : Text) : Option (Except (List Report) Program) :=
  Grammar.runOn Grammar.program source

/-- The expression that a source holds, or why it is refused; `none` if reading does not end. -/
def readExpression (source : Text) : Option (Except (List Report) Expr) :=
  Grammar.runOn Grammar.wholeExpression source

end ReactiveScript
