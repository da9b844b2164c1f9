import ReactiveScript.Grammar.State
import ReactiveScript.Syntax.Tree

/-!
# Routines that nest

The grammar is recursive: an expression holds expressions, a block holds statements. Every way
around passes a routine that goes one level deeper, and the depth is limited, so the grammar is
built level by level: each routine is given, in a record, the routines of the level below it. The
lowest level gives up at once; it lies beyond the depth limit.

Loops over a list of parts have their rounds counted; every round but the last takes a token.
-/

namespace ReactiveScript.Grammar

/-- A block: its position and its statements. -/
structure Block where
  pos : Position
  body : List Stmt
  deriving Inhabited

/-- The routines through which the grammar recurs. -/
structure Routines where
  /-- An expression. -/
  assignment : Reading Expr
  /-- An expression of binary operators at least so strong. -/
  binary : Nat → Reading Expr
  /-- The operators, at least so strong, that follow a left operand. -/
  binaryRest : Nat → Expr → Reading Expr
  /-- An operand with the operators in front of it and behind it. -/
  unary : Reading Expr
  /-- The links that follow in a chain of members and calls; the flag tells whether one of the
      links before was optional. -/
  chainRest : Bool → Expr → Reading Expr
  /-- A block whose header is indented so far. -/
  block : Nat → Reading Block
  /-- A pattern in brackets or braces. -/
  pattern : Reading Expr
  /-- An element or a fragment; the flag tells whether it is a child of another. -/
  jsx : Bool → Reading Expr

/-- A bad expression at the current token. -/
def badHere : Reading Expr := return .bad (← token).pos

/-- A block without statements at the current token. -/
def emptyBlock : Reading Block := return ⟨(← token).pos, []⟩

/-- The routines that give up at once. -/
def Routines.none : Routines where
  assignment := badHere
  binary _ := badHere
  binaryRest _ left := pure left
  unary := badHere
  chainRest _ e := pure e
  block _ := emptyBlock
  pattern := badHere
  jsx _ := badHere

/-- What a routine can rely on: the source, its line map, a bound on the rounds of a loop, and the
    routines one level down. -/
structure Context where
  source : Text
  lines : LineMap
  rounds : Nat
  inner : Routines

/-- Read something if it is wanted. -/
def readIf {α : Type} (wanted : Bool) (x : Reading α) : Reading (Option α) :=
  if wanted then some <$> x else pure none

/-! ## Lists of parts -/

/-- What reading a part of a list tells. -/
inductive Part (α : Type) where
  /-- No part; the list ends. -/
  | none
  /-- A part after which the list ends. -/
  | last (a : α)
  /-- A part after which a comma may follow. -/
  | more (a : α)

/-- Parts separated by commas, up to a closing token or the end of the source. The parts read so
    far are kept last first. -/
def partsFrom {α : Type} (close : Kind) (part : Reading (Part α)) (done : List α) :
    Nat → Reading (List α)
  | 0 => outOfRounds
  | rounds + 1 => do
    if (← sees close) || (← atEnd) then return done.reverse
    else
      match ← part with
      | .none => return done.reverse
      | .last a => return (a :: done).reverse
      | .more a =>
        if ← accept (.punct .comma) then partsFrom close part (a :: done) rounds
        else return (a :: done).reverse

/-- Parts separated by commas, up to a closing token or the end of the source. -/
def parts {α : Type} (c : Context) (close : Kind) (part : Reading (Part α)) : Reading (List α) :=
  partsFrom close part [] c.rounds

end ReactiveScript.Grammar
