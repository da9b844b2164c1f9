import ReactiveScript.Source.LineMap
import ReactiveScript.Token.Stream

/-!
# The state of the reader

A reader holds one token of the source and the place after it. `Reading` is the state monad over
it; the operations here are the only ones that touch the state. A loop is given a bound on its
rounds, and a reading whose loop needs more of them is cut short (`Unfinished`).

* `nesting` counts the brackets that are open around the token: inside brackets an operator may
  continue an expression on the next line.
* `braceBlocks` counts the blocks in braces, whose end stops recovery.
* `depth` counts the levels of the construct being read. When it passes `maxDepth`, one error is
  reported and `tooDeep` is set; until the statement has been left, further faults are kept quiet.
-/

namespace ReactiveScript.Grammar

/-- How deep constructs may nest. -/
def maxDepth : Nat := 1000

/-- What the reader knows. Reports are kept last first. -/
structure State where
  cursor : Cursor
  current : Token := {}
  previous : Token := {}
  nesting : Nat := 0
  braceBlocks : Nat := 0
  /-- The column of the first token on the current token's line. -/
  lineIndent : Nat := 1
  depth : Nat := 0
  tooDeep : Bool := false
  reports : List Report := []
  deriving DecidableEq

namespace State

/-! ## 1. Questions -/

/-- Is the current token of this kind? -/
def sees (s : State) (k : Kind) : Bool := s.current.kind = k

def atEnd (s : State) : Bool := s.current.kind = .eof

/-- Is the current token this name? -/
def seesWord (s : State) (word : Text) : Bool :=
  s.current.kind = .identifier && s.current.text = word

/-- May an operator in the current token extend the expression to its left? -/
def canContinue (s : State) : Bool := 0 < s.nesting || !s.current.lineStart

/-! ## 2. Changes -/

/-- Take a token that was scanned. -/
def accept (s : State) (r : Scanned) : State :=
  { s with
    cursor := r.cursor
    previous := s.current
    current := r.token
    reports := r.reports.reverse ++ s.reports }

/-- Go on to the next token. -/
def advance (s : State) : State :=
  let s := s.accept s.cursor.next
  if s.current.lineStart then { s with lineIndent := s.current.column } else s

/-- Note a report. -/
def report (s : State) (r : Report) : State := { s with reports := r :: s.reports }

/-- Report a fault of the grammar, unless the reader is on its way out of something too deep. -/
def fault (s : State) (f : ParseFault) (p : Position) : State :=
  if s.tooDeep then s else s.report ⟨.parse f, p⟩

/-- Report that the construct at a position is nested too deeply. -/
def giveUp (s : State) (p : Position) : State :=
  { s.report ⟨.parse .tooDeep, p⟩ with tooDeep := true }

/-- Report once that the construct is nested too deeply, if it is. -/
def checkDepth (s : State) : State :=
  if !s.tooDeep && maxDepth < s.depth then s.giveUp s.current.pos else s

/-- The reader at a cursor, holding the first token from there. -/
def start (c : Cursor) : State := State.advance { cursor := c }

/-- The reader of a source. -/
abbrev ofText (source : Text) : State := start (Cursor.ofText source)

end State

/-! ## 3. The monad -/

/-- A reading that was cut short, and where it stood. -/
structure Unfinished where
  state : State

/-- A routine that reads something. -/
abbrev Reading := StateT State (Except Unfinished)

/-- A loop has used up its rounds. -/
def outOfRounds {α : Type} : Reading α := do throw ⟨← get⟩

/-- The current token. -/
def token : Reading Token := return (← get).current

def sees (k : Kind) : Reading Bool := return (← get).sees k

def atEnd : Reading Bool := return (← get).atEnd

def seesWord (word : Text) : Reading Bool := return (← get).seesWord word

def canContinue : Reading Bool := return (← get).canContinue

/-- Go on to the next token. -/
def advance : Reading Unit := modify State.advance

/-- Take the current token. -/
def take : Reading Token := do
  let t ← token
  advance
  return t

/-- Take the current token if it is of this kind, and tell whether it was. -/
def accept (k : Kind) : Reading Bool := do
  if ← sees k then
    advance
    return true
  else return false

/-- Note a report. -/
def report (r : Report) : Reading Unit := modify (·.report r)

def reportAll (rs : List Report) : Reading Unit := rs.forM report

/-- A fault of the grammar at a position. -/
def faultAt (f : ParseFault) (p : Position) : Reading Unit := modify (·.fault f p)

/-- A fault of the grammar at the current token. -/
def fault (f : ParseFault) : Reading Unit := do faultAt f (← token).pos

/-- Something else is wanted where the current token stands. -/
def expected (w : Wanted) : Reading Unit := do fault (.expected w (← token).kind)

/-- Take a token of this kind; its absence is a fault. -/
def expect (k : Kind) : Reading Bool := do
  if ← accept k then return true
  else
    fault (.expectedToken k (← token).kind)
    return false

/-- Take a token of this kind and give it; its absence is a fault. -/
def expectToken (k : Kind) : Reading (Option Token) := do
  let t ← token
  if ← expect k then return some t else return none

/-- Take this name; its absence is a fault. -/
def expectWord (word : Text) : Reading Unit := do
  if ← seesWord word then advance else expected (.word word)

/-! ## 4. Brackets, blocks and depth -/

/-- Read something inside brackets. -/
def bracketed {α : Type} (body : Reading α) : Reading α := do
  modify fun s => { s with nesting := s.nesting + 1 }
  let a ← body
  modify fun s => { s with nesting := s.nesting - 1 }
  return a

/-- Read the statements of a block, outside all brackets around the block. -/
def outsideBrackets {α : Type} (body : Reading α) : Reading α := do
  let saved := (← get).nesting
  modify fun s => { s with nesting := 0 }
  let a ← body
  modify fun s => { s with nesting := saved }
  return a

/-- Read the statements of a block in braces. -/
def insideBraces {α : Type} (body : Reading α) : Reading α := do
  modify fun s => { s with braceBlocks := s.braceBlocks + 1 }
  let a ← body
  modify fun s => { s with braceBlocks := s.braceBlocks - 1 }
  return a

/-- One level deeper, for as long as the depth is not restored. -/
def deepen : Reading Unit := modify fun s => { s with depth := s.depth + 1 }

/-- Is the reader too deep, or on its way out? -/
def tooDeep : Reading Bool := do
  modify State.checkDepth
  return (← get).tooDeep

/-- Read something, and restore the depth afterwards. -/
def restoringDepth {α : Type} (body : Reading α) : Reading α := do
  let saved := (← get).depth
  let a ← body
  modify fun s => { s with depth := saved }
  return a

/-- Go one level deeper and read something there, or else give up at once. -/
def deeper {α : Type} (givenUp body : Reading α) : Reading α := do
  deepen
  if ← tooDeep then givenUp else body

/-- Read something one level deeper, and come back. -/
def nested {α : Type} (givenUp body : Reading α) : Reading α :=
  restoringDepth (deeper givenUp body)

/-! ## 5. Recovery -/

/-- Does recovery stop at the current token? -/
def State.recovered (s : State) : Bool :=
  s.atEnd || s.current.lineStart || (0 < s.braceBlocks && s.sees (.punct .closeBrace))

/-- Skip tokens up to one that starts a line or closes a block in braces. -/
def skipLine : Nat → Reading Unit
  | 0 => outOfRounds
  | rounds + 1 => do
    if (← get).recovered then pure ()
    else
      advance
      skipLine rounds

/-- Leave a statement that started at an offset: move on at least one token, and then to a place
    where the next statement can start. -/
def recover (rounds start : Nat) : Reading Unit := do
  if !(← atEnd) && (← token).offset = start then advance
  skipLine rounds

end ReactiveScript.Grammar
