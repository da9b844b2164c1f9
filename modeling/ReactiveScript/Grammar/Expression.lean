import ReactiveScript.Grammar.Function
import ReactiveScript.Grammar.Lookahead
import ReactiveScript.Grammar.Markup
import ReactiveScript.Syntax.Template

/-!
# Expressions

From the loosest to the tightest: assignment, conditional, binary operators by strength, operators
in front, operators behind, chains of members and calls, and single operands.

An operator continues an expression on the next line only inside brackets. A chain goes on with `.`
and `?.` on any line, and with brackets and templates on the same line only.
-/

namespace ReactiveScript.Grammar

/-! ## 1. Templates -/

/-- Read a hole as one expression that ends where the hole ends. The hole is read by a reader of
    its own, at the depth of this one; its faults are not reported, except for the depth. -/
def hole (c : Context) (h : Template.Hole) : Reading (Option Expr) := do
  let outer ← get
  let start := State.start (Cursor.place c.source h.pos)
  let (e, s) ← c.inner.assignment.run { start with nesting := 1, depth := outer.depth }
  if s.tooDeep && !outer.tooDeep then modify (·.giveUp h.pos)
  return if s.reports.isEmpty && s.current.offset = h.span.stop then some e else none

/-- The parts of a template token. -/
def templateParts (c : Context) (t : Token) : Reading (List Quasi × List Expr) :=
  Template.parts (hole c) report t

/-! ## 2. Literals -/

/-- An element of an array or an argument of a call. -/
def elementOrSpread (c : Context) : Reading Expr := do
  let t ← token
  if ← accept (.punct .ellipsis) then return .spread t.pos (← c.inner.assignment)
  else c.inner.assignment

/-- Elements in brackets, whose opening one has been taken. -/
def elements (c : Context) (close : Punct) : Reading (List Expr) := do
  let es ← bracketed (parts c (.punct close) (.more <$> elementOrSpread c))
  let _ ← expect (.punct close)
  return es

/-- An array. -/
def arrayLiteral (c : Context) : Reading Expr := do
  let p := (← take).pos
  return .array p (← elements c .closeBracket)

/-- A property with a computed key, whose bracket has been taken. -/
def computedProperty (c : Context) (p : Position) : Reading Property := do
  let key ← readIf (!(← sees (.punct .closeBracket))) c.inner.assignment
  let _ ← expect (.punct .closeBracket)
  let value ← readIf (← accept (.punct .colon)) c.inner.assignment
  return .computed p key value

/-- A property whose key is a string or a number. -/
def literalProperty (c : Context) (p : Position) : Reading Property := do
  let t ← take
  let key := if t.kind = .string then stringOf t else .number t.pos (NumberLiteral.ofText t.text)
  let _ ← expect (.punct .colon)
  return .named p key (← c.inner.assignment)

/-- A property whose key is a word; a keyword cannot stand alone. -/
def wordProperty (c : Context) (p : Position) : Reading (Part Property) := do
  let t ← take
  if ← accept (.punct .colon) then return .more (.named p (identifierOf t) (← c.inner.assignment))
  else if t.kind.isKeyword then
    expected .colon
    return .none
  else return .more (.shorthand p (identifierOf t))

/-- A property of an object. -/
def property (c : Context) : Reading (Part Property) := do
  let p := (← token).pos
  if ← accept (.punct .ellipsis) then return .more (.spread p (← c.inner.assignment))
  else if ← accept (.punct .openBracket) then return .more (← computedProperty c p)
  else
    let kind := (← token).kind
    if kind = .string || kind = .number then return .more (← literalProperty c p)
    else if kind.isPropertyName then wordProperty c p
    else
      expected .property
      return .none

/-- An object. -/
def objectLiteral (c : Context) : Reading Expr := do
  let p := (← take).pos
  let properties ← bracketed (parts c (.punct .closeBrace) (property c))
  let _ ← expect (.punct .closeBrace)
  reportAll (Check.computedComplete properties)
  return .object p properties

/-- An expression in parentheses. -/
def parenthesized (c : Context) : Reading Expr := do
  advance
  let e ← bracketed c.inner.assignment
  let _ ← expect (.punct .closeParen)
  return e

/-- A single operand. -/
def primary (c : Context) : Reading Expr := do
  let t ← token
  match t.kind with
  | .identifier => return identifierOf (← take)
  | .number => return .number t.pos (NumberLiteral.ofText (← take).text)
  | .string => return stringOf (← take)
  | .template =>
    let (quasis, es) ← templateParts c (← take)
    return .template t.pos quasis es
  | .keyword .true =>
    advance
    return .boolean t.pos true
  | .keyword .false =>
    advance
    return .boolean t.pos false
  | .keyword .null =>
    advance
    return .null t.pos
  | .punct .openBracket => arrayLiteral c
  | .punct .openBrace => objectLiteral c
  | .punct .openParen => parenthesized c
  | .punct .less => jsx c false
  | _ =>
    expected .expression
    badHere

/-! ## 3. Chains -/

/-- The member whose name is the current token. -/
def memberName (object : Expr) (optional : Bool) : Reading Expr := do
  if (← token).kind.isPropertyName then
    return .member object.pos object (identifierOf (← take)) false optional
  else
    expected .propertyName
    badHere

/-- A call, whose parenthesis is the current token. -/
def call (c : Context) (callee : Expr) (optional : Bool) : Reading Expr := do
  advance
  return .call callee.pos callee (← elements c .closeParen) optional

/-- What follows `?.`: a call, a computed member or a name. -/
def optionalLink (c : Context) (object : Expr) : Reading Expr := do
  if ← sees (.punct .openParen) then call c object true
  else if ← accept (.punct .openBracket) then
    let property ← bracketed c.inner.assignment
    let _ ← expect (.punct .closeBracket)
    return .member object.pos object property true true
  else memberName object true

/-- The inside of an index or a slice. -/
def indexOrSliceInside (c : Context) (object : Expr) : Reading Expr := do
  if ← accept (.punct .ellipsis) then
    let stop ← readIf (!(← sees (.punct .closeBracket))) c.inner.assignment
    return .slice object.pos object none stop
  else
    let start ← c.inner.assignment
    if ← accept (.punct .ellipsis) then
      let stop ← readIf (!(← sees (.punct .closeBracket))) c.inner.assignment
      return .slice object.pos object (some start) stop
    else return .member object.pos object start true false

/-- An index or a slice, whose bracket is the current token. -/
def indexOrSlice (c : Context) (object : Expr) : Reading Expr := do
  advance
  let e ← bracketed (indexOrSliceInside c object)
  let _ ← expect (.punct .closeBracket)
  return e

/-- A template with a tag, which is the current token. -/
def taggedTemplate (c : Context) (tag : Expr) : Reading Expr := do
  let t ← take
  let (quasis, es) ← templateParts c t
  return .tagged tag.pos tag t.pos quasis es

/-- Go on with a chain after a link, one level deeper. -/
def chainOn (c : Context) (optional : Bool) (e : Expr) : Reading Expr := do
  if e.isBad then return e else deeper (return e) (c.inner.chainRest optional e)

/-- A link that starts with a token of this kind, if there is one, and those that follow it. A
    template cannot be tagged with an optional chain. -/
def linkOn (c : Context) (optional : Bool) (e : Expr) (kind : Kind) : Reading Expr := do
  match kind with
  | .punct .openBracket => chainOn c optional (← indexOrSlice c e)
  | .punct .openParen => chainOn c optional (← call c e false)
  | .template =>
    if optional then
      fault .taggedOptional
      badHere
    else chainOn c optional (← taggedTemplate c e)
  | _ => return e

/-- The links that follow an expression. -/
def chainRest (c : Context) (optional : Bool) (e : Expr) : Reading Expr := do
  if ← accept (.punct .dot) then chainOn c optional (← memberName e false)
  else if ← accept (.punct .optional) then chainOn c true (← optionalLink c e)
  else
    let t ← token
    if t.lineStart then return e else linkOn c optional e t.kind

/-- An operand and the chain of members and calls on it. -/
def chain (c : Context) : Reading Expr := do
  let e ← primary c
  if e.isBad then return e else restoringDepth (chainRest c false e)

/-! ## 4. Operators -/

/-- An operand with the operator behind it, which stands on the same line. -/
def postfixed (c : Context) : Reading Expr := do
  let e ← chain c
  let t ← token
  match UpdateOp.ofKind? t.kind with
  | some op =>
    if t.lineStart then return e
    else
      advance
      return .update e.pos op false e
  | none => return e

/-- An operand with the operators in front of it and behind it. -/
def unary (c : Context) : Reading Expr := do
  let t ← token
  match UnaryOp.ofKind? t.kind, UpdateOp.ofKind? t.kind with
  | some op, _ =>
    nested badHere do
      advance
      return .unary t.pos op (← c.inner.unary)
  | none, some op =>
    nested badHere do
      advance
      return .update t.pos op true (← c.inner.unary)
  | none, none => postfixed c

/-- The binary operator that goes on with an expression here: one strong enough, on the same line
    or inside brackets. A `<` or `>` that starts a line is never an operator. -/
def State.operator? (s : State) (least : Nat) : Option BinaryOp :=
  match BinaryOp.ofKind? s.current.kind with
  | none => none
  | some op =>
    if least ≤ op.strength && s.canContinue &&
        !(s.current.lineStart && (op = .less || op = .greater)) then some op
    else none

/-- The operators that follow a left operand, one level deeper for each. -/
def binaryRest (c : Context) (least : Nat) (left : Expr) : Reading Expr := do
  match (← get).operator? least with
  | none => return left
  | some op =>
    deeper (return left) do
      advance
      let right ← c.inner.binary op.rightStrength
      c.inner.binaryRest least (.binary left.pos op left right)

/-- An expression of binary operators at least so strong. -/
def binary (c : Context) (least : Nat) : Reading Expr := do
  let left ← unary c
  restoringDepth (binaryRest c least left)

/-- A conditional. -/
def conditional (c : Context) : Reading Expr := do
  let test ← binary c 1
  if (← sees (.punct .question)) && (← canContinue) then
    advance
    let yes ← c.inner.assignment
    let _ ← expect (.punct .colon)
    let no ← c.inner.assignment
    return .conditional test.pos test yes no
  else return test

/-! ## 5. Assignments -/

/-- The value after an assignment sign, which is the current token, and the whole. -/
def assigned (c : Context) (sign : AssignSign) (target : Expr) : Reading Expr := do
  let t ← take
  let value ← c.inner.assignment
  match Check.assignment? sign t.pos target value with
  | .ok e => return e
  | .error r =>
    report r
    return .bad target.pos

/-- A pattern with a value. -/
def destructuring (c : Context) : Reading Expr := do
  let target ← c.inner.pattern
  match AssignSign.ofKind? (← token).kind with
  | some sign => assigned c sign target
  | none =>
    expected .assignmentSign
    return target

/-- An expression without a pattern or a function at its start. -/
def plainAssignment (c : Context) : Reading Expr := do
  let left ← conditional c
  match AssignSign.ofKind? (← token).kind with
  | some sign => if ← canContinue then assigned c sign left else return left
  | none => return left

/-- An expression, one level deeper. -/
def assignment (c : Context) : Reading Expr :=
  nested badHere do
    let s ← get
    if s.seesDestructuring then destructuring c
    else if s.seesArrow then arrow c
    else plainAssignment c

end ReactiveScript.Grammar
