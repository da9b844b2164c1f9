import ReactiveScript.Grammar.Pattern
import ReactiveScript.Grammar.Statement

/-!
# Functions

`x => body` and `(params) => body`. The body is an expression, a block in braces, or an indented
block on the lines that follow. An indented block that holds one plain expression is that
expression.
-/

namespace ReactiveScript.Grammar

/-! ## 1. Parameters -/

/-- The text of a token that may be missing. -/
def textOf (t : Option Token) : Text := (t.map (·.text)).getD []

/-- A parameter. -/
def param (c : Context) : Reading Param := do
  let p := (← token).pos
  if ← accept (.punct .ellipsis) then return .rest p (textOf (← expectToken .identifier))
  else if ← seesPattern then
    let target ← c.inner.pattern
    return .pattern p target (← default? c)
  else
    let name ← expectToken .identifier
    return .name p (textOf name) (← default? c)

/-- The parameters of a function: one name, or a list in parentheses. -/
def params (c : Context) : Reading (List Param) := do
  if ← sees .identifier then
    let t ← take
    return [.name t.pos t.text none]
  else
    let _ ← expect (.punct .openParen)
    let ps ← bracketed (parts c (.punct .closeParen) (.more <$> param c))
    let _ ← expect (.punct .closeParen)
    return ps

/-! ## 2. Bodies -/

/-- The value that a block stands for: its only statement, if that is a plain expression. -/
def soleValue? (b : Block) : Option Expr :=
  match b.body with
  | [.expression _ none e] => if e.isBinding then none else some e
  | _ => none

/-- A function with a block for its body. -/
def arrowBlock (p : Position) (ps : List Param) (b : Block) : Expr :=
  .arrowBlock p ps b.pos b.body

/-- A function with the body of a block, or with the value that the block stands for. -/
def arrowOf (p : Position) (ps : List Param) (b : Block) : Expr :=
  match soleValue? b with
  | some e => .arrow p ps e
  | none => arrowBlock p ps b

/-- The body of a function whose header is indented so far. -/
def arrowBody (c : Context) (p : Position) (ps : List Param) (header : Nat) : Reading Expr := do
  let t ← token
  if t.kind = .punct .openBrace then return arrowBlock p ps (← braceBlock c)
  else if t.kind = .eof || t.lineStart then return arrowOf p ps (← indentedBlock c header)
  else return .arrow p ps (← c.inner.assignment)

/-- A function. The header of an indented body is the line of its arrow. -/
def arrow (c : Context) : Reading Expr := do
  let p := (← token).pos
  let ps ← params c
  let header := (← get).lineIndent
  let _ ← expect (.punct .arrow)
  let e ← arrowBody c p ps header
  reportAll (Check.restLast Check.restParam? ps)
  return e

end ReactiveScript.Grammar
