import ReactiveScript.Text.Basic

/-!
# Modifiers

A modifier in front of a statement hands its value to the reactive runtime. There are four of them.
-/

namespace ReactiveScript

/-- How a modifier hands a value to the runtime. -/
inductive Shape where
  /-- The value itself. -/
  | wrap
  /-- A function of the names that the value depends on, and the list of these names. -/
  | tracked
  /-- The value itself, which must be a function. -/
  | function
  deriving DecidableEq, Repr, Inhabited

/-- A modifier. -/
inductive Modifier where
  | state | computed | react | mutate
  deriving DecidableEq, Repr, Inhabited

namespace Modifier

/-- Every modifier, in declaration order. -/
def all : List Modifier := [.state, .computed, .react, .mutate]

/-- How the modifier is spelt after the `@`. -/
def name : Modifier → Text
  | .state => txt "state"
  | .computed => txt "computed"
  | .react => txt "react"
  | .mutate => txt "mutate"

/-- The member of the runtime that the modifier calls. -/
def method (m : Modifier) : Text := m.name

def shape : Modifier → Shape
  | .state => .wrap
  | .computed | .react => .tracked
  | .mutate => .function

/-- Does a use of the modifier make the script import the runtime? All four do. -/
def needsRuntime : Modifier → Bool
  | .state | .computed | .react | .mutate => true

/-- The modifier with a name. -/
def ofName? (name : Text) : Option Modifier := all.find? (·.name = name)

end Modifier

end ReactiveScript
