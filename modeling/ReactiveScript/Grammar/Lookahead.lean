import ReactiveScript.Grammar.State

/-!
# Looking ahead

Two constructs are told apart by what follows a bracket's partner: parameters before `=>`, and a
pattern before an assignment sign. Looking ahead reads tokens from the place after the current one
and leaves the reader as it is.
-/

namespace ReactiveScript.Grammar

/-- The token that closes the outermost of `depth` open brackets, and the place after it. Brackets
    of all shapes count alike. Each token but the end takes at least one byte, so `fuel` need only
    exceed the number of bytes left. -/
def closingFrom (fuel depth : Nat) (c : Cursor) : Option Scanned :=
  match fuel with
  | 0 => none
  | fuel + 1 =>
    let s := c.next
    match s.token.kind with
    | .eof => none
    | .punct p =>
      if p.isOpening then closingFrom fuel (depth + 1) s.cursor
      else if p.isClosing then
        if depth ≤ 1 then some s else closingFrom fuel (depth - 1) s.cursor
      else closingFrom fuel depth s.cursor
    | _ => closingFrom fuel depth s.cursor

/-- The token that closes the bracket before the cursor, and the place after it. -/
def closing (c : Cursor) : Option Scanned := closingFrom (c.rest.length + 1) 1 c

/-- Is the next token `=>`, on the same line? -/
def arrowFollows (c : Cursor) : Bool :=
  let t := c.next.token
  t.kind = .punct .arrow && !t.lineStart

/-- Does a function start here: a name, or parameters in parentheses, and `=>`? -/
def State.seesArrow (s : State) : Bool :=
  match s.current.kind with
  | .identifier => arrowFollows s.cursor
  | .punct .openParen =>
    match closing s.cursor with
    | some r => r.token.kind = .punct .closeParen && arrowFollows r.cursor
    | none => false
  | _ => false

/-- Does a pattern with a value start here: brackets and an assignment sign after them? -/
def State.seesDestructuring (s : State) : Bool :=
  (s.sees (.punct .openBracket) || s.sees (.punct .openBrace)) &&
    match closing s.cursor with
    | some r => r.cursor.next.token.kind.isAssignment
    | none => false

end ReactiveScript.Grammar
