import ReactiveScript.Syntax.Tree

/-!
# How tightly expressions of the script bind

An expression that binds looser than its place requires is put in parentheses. The levels are those
of the script, where pipes and compositions are calls; they are not the strengths that operators
have in the source.
-/

namespace ReactiveScript

namespace Level

def lowest : Nat := 0
def assignment : Nat := 2
def conditional : Nat := 3
def or : Nat := 4
def and : Nat := 5
def bitOr : Nat := 6
def bitXor : Nat := 7
def bitAnd : Nat := 8
def equality : Nat := 9
def relation : Nat := 10
def shift : Nat := 11
def addition : Nat := 12
def multiplication : Nat := 13
def power : Nat := 14
def unary : Nat := 15
def update : Nat := 16
def call : Nat := 17
def primary : Nat := 18

end Level

/-- The level of an expression with a binary operator. -/
def BinaryOp.level : BinaryOp → Nat
  | .pipe | .compose => Level.call
  | .or | .nullish => Level.or
  | .and => Level.and
  | .bitOr => Level.bitOr
  | .bitXor => Level.bitXor
  | .bitAnd => Level.bitAnd
  | .equal | .notEqual => Level.equality
  | .less | .greater | .lessEqual | .greaterEqual | .instanceOf | .isIn => Level.relation
  | .shiftLeft | .shiftRight | .shiftRightZero => Level.shift
  | .add | .subtract => Level.addition
  | .multiply | .divide | .remainder => Level.multiplication
  | .power => Level.power

/-- The level of an expression. -/
def Expr.level : Expr → Nat
  | .assign _ _ _ _ | .declare _ _ _ | .arrow _ _ _ | .arrowBlock _ _ _ _ | .spread _ _ =>
    Level.assignment
  | .conditional _ _ _ _ => Level.conditional
  | .binary _ op _ _ => op.level
  | .unary _ _ _ => Level.unary
  | .update _ _ before _ => if before then Level.unary else Level.update
  | .call _ _ _ _ | .member _ _ _ _ _ | .slice _ _ _ _ | .sliceAssign _ _ _ _ _
  | .tagged _ _ _ _ _ => Level.call
  | _ => Level.primary

/-! ## Operands of binary operators -/

/-- `??` next to `&&` or `||` must be put in parentheses. -/
def BinaryOp.clashes : BinaryOp → Expr → Bool
  | .nullish, .binary _ op _ _ => op = .and || op = .or
  | .and, .binary _ op _ _ | .or, .binary _ op _ _ => op = .nullish
  | _, _ => false

/-- The least level of a left operand. That of `**` can be no unary expression. -/
def BinaryOp.leftLevel (op : BinaryOp) (left : Expr) : Nat :=
  if op.clashes left then Level.primary
  else if op = .power then Level.update
  else op.level

/-- The least level of a right operand. Only `**` groups to the right. -/
def BinaryOp.rightLevel (op : BinaryOp) (right : Expr) : Nat :=
  if op.clashes right then Level.primary
  else if op = .power then op.level
  else op.level + 1

end ReactiveScript
