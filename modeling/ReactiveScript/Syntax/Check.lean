import ReactiveScript.Fault
import ReactiveScript.Syntax.Tree

/-!
# Rules beyond the grammar

What a construct must satisfy although the grammar lets it pass: a rest element stands last, a
computed property has a key and a value, and an assignment has a target that its sign allows.
-/

namespace ReactiveScript.Check

/-! ## 1. Rest elements -/

/-- The position of a rest parameter. -/
def restParam? : Param → Option Position
  | .rest p _ => some p
  | _ => none

def restElement? : PatternElement → Option Position
  | .rest p _ => some p
  | _ => none

def restProperty? : PatternProperty → Option Position
  | .rest p _ => some p
  | _ => none

/-- A report for every rest element but one that stands last. -/
def restLast {α : Type} (rest? : α → Option Position) (items : List α) : List Report :=
  (items.dropLast.filterMap rest?).map fun p => { fault := .build .restNotLast, pos := p }

/-! ## 2. Computed properties -/

/-- The position of a computed property without its key or value. -/
def incomplete? : Property → Option Position
  | .computed _ (some _) (some _) => none
  | .computed p _ _ => some p
  | _ => none

/-- A report for every computed property without its key or value. -/
def computedComplete (properties : List Property) : List Report :=
  (properties.filterMap incomplete?).map fun p => { fault := .build .computedKey, pos := p }

/-! ## 3. Assignments -/

/-- The tree of an assignment, or why there is none: a fault and the place to report it at. -/
def assignment? (sign : AssignSign) (signPos : Position) (target value : Expr) :
    Except Report Expr :=
  let pos := target.pos
  match target, sign with
  | .slice _ object start stop, .assign .plain => .ok (.sliceAssign pos object start stop value)
  | .slice _ _ _ _, .declare => .error ⟨.compile .declaredSlice, pos⟩
  | .slice _ _ _ _, .assign (.compound _) => .error ⟨.build .compoundSlice, signPos⟩
  | .member _ _ _ _ _, .declare => .error ⟨.compile .declaredMember, pos⟩
  | .member _ _ _ _ _, .assign op => .ok (.assign pos op target value)
  | .identifier _ _, .declare => .ok (.declare pos target value)
  | .identifier _ _, .assign op => .ok (.assign pos op target value)
  | .arrayPattern _ _, .declare => .ok (.declare pos target value)
  | .arrayPattern _ _, .assign .plain => .ok (.assign pos .plain target value)
  | .objectPattern _ _, .declare => .ok (.declare pos target value)
  | .objectPattern _ _, .assign .plain => .ok (.assign pos .plain target value)
  | .bad _, _ => .ok target
  | _, _ => .error ⟨.build .target, pos⟩

end ReactiveScript.Check
