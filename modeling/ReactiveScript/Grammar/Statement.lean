import ReactiveScript.Grammar.Routines
import ReactiveScript.Text.Escape

/-!
# Statements and blocks

Statements are separated by lines. The statements of a program stand in one column, and so do those
of an indented block, whose column lies to the right of the line of its header. In a block in
braces only the lines count.

A statement that was faulty is left by recovery (`checked`), so that each line is judged by itself.
-/

namespace ReactiveScript.Grammar

/-! ## 1. Simple statements -/

/-- A semicolon may end a statement. -/
def endStatement : Reading Unit := do
  let _ ← accept (.punct .semicolon)

/-- An expression as a statement. -/
def expressionStmt (c : Context) (modifier : Option Text) (p : Position) : Reading Stmt := do
  let e ← c.inner.assignment
  endStatement
  return .expression p modifier e

/-- Does the value of a `return` follow? It stands on the same line. -/
def State.seesValue (s : State) : Bool :=
  !s.atEnd && !s.current.lineStart && !s.sees (.punct .closeBrace) &&
    !s.sees (.punct .closeParen) && !s.sees (.punct .semicolon)

/-- `return`, with a value or without. -/
def returnStmt (c : Context) (modifier : Option Text) (p : Position) : Reading Stmt := do
  advance
  let argument ← readIf (← get).seesValue c.inner.assignment
  endStatement
  return .return p modifier argument

/-- The name in a modifier token. -/
def modifierName (t : Token) : Text := t.text.drop 1

/-- A statement that starts with a modifier. The header of a block is the line of the modifier. -/
def modifierStmt (c : Context) : Reading Stmt := do
  let header := (← get).lineIndent
  let t ← take
  if ← accept (.punct .colon) then
    let block ← c.inner.block header
    return .modifierBlock t.pos (modifierName t) block.pos block.body
  else if ← sees (.keyword .ret) then returnStmt c (some (modifierName t)) t.pos
  else expressionStmt c (some (modifierName t)) t.pos

/-! ## 2. Exports -/

/-- The word between a name and its other name. -/
def asWord : Text := txt "as"

/-- The word before the source of an import. -/
def fromWord : Text := txt "from"

/-- One name of an export list. -/
def exportSpecifier : Reading (Part Specifier) := do
  match ← expectToken .identifier with
  | none => return .none
  | some t =>
    if ← seesWord asWord then
      advance
      if (← token).kind.isPropertyName then
        let renamed ← take
        return .more ⟨t.text, renamed.text⟩
      else
        expected .exportName
        return .none
    else return .more ⟨t.text, t.text⟩

/-- A list of exported names. -/
def exportList (c : Context) (p : Position) : Reading Stmt := do
  let names ← parts c (.punct .closeBrace) exportSpecifier
  let _ ← expect (.punct .closeBrace)
  endStatement
  return .exportNames p names

/-- The modifier of an exported declaration, if there is one. -/
def exportModifier : Reading (Option Text) := do
  if ← sees .modifier then return some (modifierName (← take)) else return none

/-- An exported declaration. -/
def exportDeclaration (c : Context) (p : Position) : Reading Stmt := do
  let t ← token
  let modifier ← exportModifier
  let e ← c.inner.assignment
  endStatement
  if !e.declares && !e.isBad then faultAt .noDeclaration t.pos
  return .exportDeclaration p t.pos modifier e

/-- `export` and what is exported. -/
def exportStmt (c : Context) : Reading Stmt := do
  let p := (← take).pos
  if ← accept (.keyword .default) then
    let e ← c.inner.assignment
    endStatement
    return .exportDefault p e
  else if ← accept (.punct .openBrace) then exportList c p
  else exportDeclaration c p

/-! ## 3. Imports -/

/-- The source of an import. -/
def importSource : Reading Expr := do
  let p := (← token).pos
  let source ← expectToken .string
  endStatement
  match source with
  | some t => return .string t.pos (Escape.stringValue t.text) t.text
  | none => return .bad p

/-- One name of an import list. -/
def importSpecifier : Reading (Part Specifier) := do
  if (← token).kind.isPropertyName then
    let t ← take
    if ← seesWord asWord then
      advance
      let renamed ← expectToken .identifier
      return .more ⟨t.text, (renamed.map (·.text)).getD []⟩
    else return .more ⟨t.text, t.text⟩
  else
    expected .importName
    return .none

/-- A list of imported names. -/
def importList (c : Context) : Reading (List Specifier) := do
  if ← expect (.punct .openBrace) then
    let names ← parts c (.punct .closeBrace) importSpecifier
    let _ ← expect (.punct .closeBrace)
    return names
  else return []

/-- An import of everything under one name. -/
def importAll (p : Position) : Reading Stmt := do
  expectWord asWord
  let name ← expectToken .identifier
  expectWord fromWord
  let source ← importSource
  return .importNamespace p ((name.map (·.text)).getD []) source

/-- The names in a list after the default name, if a comma follows that. -/
def moreNames (c : Context) : Reading (List Specifier) := do
  if ← accept (.punct .comma) then importList c else return []

/-- An import of a default name, of names in a list, or of both. -/
def importSome (c : Context) (p : Position) : Reading Stmt := do
  let t ← token
  if t.kind = .identifier then
    advance
    let names ← moreNames c
    expectWord fromWord
    let source ← importSource
    return .importNames p (some t.text) names source
  else
    let names ← importList c
    expectWord fromWord
    let source ← importSource
    return .importNames p none names source

/-- `import` and what is imported. -/
def importStmt (c : Context) : Reading Stmt := do
  let p := (← take).pos
  if ← accept (.punct .star) then importAll p
  else if ← sees .string then
    let source ← importSource
    return .importNames p none [] source
  else importSome c p

/-! ## 4. All statements -/

/-- A statement. -/
def statement (c : Context) : Reading Stmt := do
  let t ← token
  match t.kind with
  | .modifier => modifierStmt c
  | .keyword .ret => returnStmt c none t.pos
  | .keyword .exports => exportStmt c
  | .keyword .imports => importStmt c
  | _ => expressionStmt c none t.pos

/-- A statement, left by recovery if it is faulty. -/
def checked (c : Context) : Reading Stmt := do
  let before ← get
  let s ← statement c
  if (← get).reports.length ≠ before.reports.length then
    recover c.rounds before.current.offset
    modify fun s => { s with tooDeep := false }
  return s

/-- A fault at the current token, and recovery from it. -/
def skipFaulty (c : Context) (f : ParseFault) : Reading Unit := do
  fault f
  recover c.rounds (← token).offset

/-! ## 5. Lists of statements -/

/-- What to do at a token in a list of statements. -/
inductive Turn where
  /-- The list ends before the token. -/
  | done
  /-- No statement may start here. -/
  | skip (f : ParseFault)
  /-- A statement starts here. -/
  | read
  deriving DecidableEq, Repr

/-- A way to lay out statements: what to do at a token, and what to remember after a statement that
    started there. -/
structure Layout (σ : Type) where
  turn : σ → Token → Turn
  after : σ → Token → σ

/-- The statements from here on; those read so far are kept last first. -/
def statementsFrom {σ : Type} (c : Context) (l : Layout σ) (memory : σ) (done : List Stmt) :
    Nat → Reading (List Stmt)
  | 0 => outOfRounds
  | rounds + 1 => do
    let t ← token
    match l.turn memory t with
    | .done => return done.reverse
    | .skip f =>
      skipFaulty c f
      statementsFrom c l memory done rounds
    | .read =>
      let s ← checked c
      statementsFrom c l (l.after memory t) (s :: done) rounds

/-- All statements of a list, given what to remember at its start. -/
def statements {σ : Type} (c : Context) (l : Layout σ) (memory : σ) : Reading (List Stmt) :=
  statementsFrom c l memory [] c.rounds

/-! ## 6. Programs and blocks -/

/-- The statements of a program start lines, all in the column of the first one. -/
def Layout.program : Layout (Option Nat) where
  turn column t :=
    if t.kind = .eof then .done
    else if !t.lineStart then .skip .unseparated
    else if column.any (· != t.column) then .skip .indentation
    else .read
  after _ t := some t.column

/-- The statements of a block in braces start lines, all but the first. -/
def Layout.braces : Layout Bool where
  turn first t :=
    if t.kind = .punct .closeBrace || t.kind = .eof then .done
    else if !first && !t.lineStart then .skip .unseparated
    else .read
  after _ _ := false

/-- The statements of an indented block start lines, all in one column. -/
def Layout.indented (column : Nat) : Layout Unit where
  turn _ t :=
    if t.kind = .eof || !t.lineStart || t.column < column then .done
    else if column < t.column then .skip .indentation
    else .read
  after _ _ := ()

/-- A whole program. -/
def program (c : Context) : Reading Program := do
  let p := (← token).pos
  return ⟨p, ← statements c .program none⟩

/-- A block in braces. -/
def braceBlock (c : Context) : Reading Block := do
  let p := (← token).pos
  let _ ← expect (.punct .openBrace)
  let body ← outsideBrackets (insideBraces (statements c .braces true))
  let _ ← expect (.punct .closeBrace)
  return ⟨p, body⟩

/-- The statements on the lines that follow, all in one column to the right of the header's line. -/
def indentedBlock (c : Context) (header : Nat) : Reading Block := do
  let t ← token
  if t.kind = .eof || !t.lineStart || t.column ≤ header then
    fault .noBlock
    return ⟨t.pos, []⟩
  else
    let body ← outsideBrackets (statements c (.indented t.column) ())
    return ⟨t.pos, body⟩

/-- A block of either form, one level deeper. -/
def block (c : Context) (header : Nat) : Reading Block :=
  nested emptyBlock do
    if ← sees (.punct .openBrace) then braceBlock c else indentedBlock c header

end ReactiveScript.Grammar
