import ReactiveScript.Grammar.Routines
import ReactiveScript.Syntax.Check
import ReactiveScript.Text.Escape

/-!
# Binding patterns

A pattern takes a value apart: `[a, ...rest]` by position, `{a, b: c, ...rest}` by name. Patterns
nest, and a part that has no value may have a default.
-/

namespace ReactiveScript.Grammar

/-- The tree of an identifier token. -/
def identifierOf (t : Token) : Expr := .identifier t.pos t.text

/-- The tree of a string token. -/
def stringOf (t : Token) : Expr := .string t.pos (Escape.stringValue t.text) t.text

/-- The default of a part, if `=` follows. -/
def default? (c : Context) : Reading (Option Expr) := do
  readIf (← accept (.punct .declare)) c.inner.assignment

/-- Does a pattern start at the current token? -/
def seesPattern : Reading Bool :=
  return (← sees (.punct .openBracket)) || (← sees (.punct .openBrace))

/-- A name or a pattern. -/
def bindingTarget (c : Context) : Reading Expr := do
  if ← seesPattern then c.inner.pattern
  else if ← sees .identifier then return identifierOf (← take)
  else
    expected .bindingTarget
    badHere

/-- A part after which the list goes on, unless its target is bad. -/
def partOf {α : Type} (target : Expr) (a : α) : Part α := if target.isBad then .last a else .more a

/-! ## 1. Patterns by position -/

/-- An element of an array pattern. -/
def patternElement (c : Context) : Reading (Part PatternElement) := do
  let p := (← token).pos
  if ← accept (.punct .ellipsis) then
    let target ← bindingTarget c
    return partOf target (.rest p target)
  else
    let target ← bindingTarget c
    let default ← default? c
    return partOf target (.item p target default)

/-- An array pattern. -/
def arrayPattern (c : Context) : Reading Expr := do
  let p := (← take).pos
  let elements ← bracketed (parts c (.punct .closeBracket) (patternElement c))
  let _ ← expect (.punct .closeBracket)
  reportAll (Check.restLast Check.restElement? elements)
  return .arrayPattern p elements

/-! ## 2. Patterns by name -/

/-- A property whose key may stand alone. -/
def namedProperty (c : Context) (p : Position) : Reading (Part PatternProperty) := do
  let key := identifierOf (← take)
  if ← accept (.punct .colon) then
    let target ← bindingTarget c
    let default ← default? c
    return partOf target (.named p key target default)
  else
    let default ← default? c
    return .more (.shorthand p key default)

/-- A property whose key cannot stand alone: a string or a keyword. -/
def keyedProperty (c : Context) (p : Position) : Reading (Part PatternProperty) := do
  let t ← take
  let key := if t.kind = .string then stringOf t else identifierOf t
  let _ ← expect (.punct .colon)
  let target ← bindingTarget c
  let default ← default? c
  return partOf target (.named p key target default)

/-- A property of an object pattern. -/
def patternProperty (c : Context) : Reading (Part PatternProperty) := do
  let p := (← token).pos
  if ← accept (.punct .ellipsis) then
    match ← expectToken .identifier with
    | none => return .none
    | some t => return .more (.rest p (identifierOf t))
  else
    let kind := (← token).kind
    if kind = .identifier then namedProperty c p
    else if kind = .string || kind.isPropertyName then keyedProperty c p
    else
      expected .propertyName
      return .none

/-- An object pattern. -/
def objectPattern (c : Context) : Reading Expr := do
  let p := (← take).pos
  let properties ← bracketed (parts c (.punct .closeBrace) (patternProperty c))
  let _ ← expect (.punct .closeBrace)
  reportAll (Check.restLast Check.restProperty? properties)
  return .objectPattern p properties

/-- A pattern, one level deeper. -/
def pattern (c : Context) : Reading Expr :=
  nested badHere do
    if ← sees (.punct .openBracket) then arrayPattern c else objectPattern c

end ReactiveScript.Grammar
