import ReactiveScript.Token.Kind

/-!
# Operators

The operators of expressions, apart from the tokens that spell them. The binary operators form a
ladder of fourteen steps (`BinaryOp.strength`); `**` and `<|` group to the right, all others to the
left.
-/

namespace ReactiveScript

/-! ## 1. Binary operators -/

/-- An operator between two operands. -/
inductive BinaryOp where
  | or | pipe | compose | nullish | and | bitOr | bitXor | bitAnd | equal | notEqual | less
  | greater | lessEqual | greaterEqual | instanceOf | isIn | shiftLeft | shiftRight
  | shiftRightZero | add | subtract | multiply | divide | remainder | power
  deriving DecidableEq, Repr, Inhabited

namespace BinaryOp

/-- The token that spells the operator. -/
def token : BinaryOp → Kind
  | .or => .punct .orOr
  | .pipe => .punct .pipe
  | .compose => .punct .compose
  | .nullish => .punct .nullish
  | .and => .punct .andAnd
  | .bitOr => .punct .bar
  | .bitXor => .punct .caret
  | .bitAnd => .punct .ampersand
  | .equal => .punct .equal
  | .notEqual => .punct .notEqual
  | .less => .punct .less
  | .greater => .punct .greater
  | .lessEqual => .punct .lessEqual
  | .greaterEqual => .punct .greaterEqual
  | .instanceOf => .keyword .instanceof
  | .isIn => .keyword .isIn
  | .shiftLeft => .punct .shiftLeft
  | .shiftRight => .punct .shiftRight
  | .shiftRightZero => .punct .shiftRightZero
  | .add => .punct .plus
  | .subtract => .punct .minus
  | .multiply => .punct .star
  | .divide => .punct .slash
  | .remainder => .punct .percent
  | .power => .punct .starStar

/-- Every binary operator, from the weakest up. -/
def all : List BinaryOp :=
  [ .or, .pipe, .compose, .nullish, .and, .bitOr, .bitXor, .bitAnd, .equal, .notEqual, .less,
    .greater, .lessEqual, .greaterEqual, .instanceOf, .isIn, .shiftLeft, .shiftRight,
    .shiftRightZero, .add, .subtract, .multiply, .divide, .remainder, .power ]

/-- The operator that a token spells. -/
def ofKind? (k : Kind) : Option BinaryOp := all.find? (·.token = k)

def spelling (op : BinaryOp) : Text := op.token.name

/-- How tightly the operator binds in the source. -/
def strength : BinaryOp → Nat
  | .or => 1
  | .pipe => 2
  | .compose => 3
  | .nullish => 4
  | .and => 5
  | .bitOr => 6
  | .bitXor => 7
  | .bitAnd => 8
  | .equal | .notEqual => 9
  | .less | .greater | .lessEqual | .greaterEqual | .instanceOf | .isIn => 10
  | .shiftLeft | .shiftRight | .shiftRightZero => 11
  | .add | .subtract => 12
  | .multiply | .divide | .remainder => 13
  | .power => 14

/-- Do equal operators group to the right? -/
def groupsRight : BinaryOp → Bool
  | .power | .compose => true
  | _ => false

/-- The least strength of an operator inside the right operand. -/
def rightStrength (op : BinaryOp) : Nat :=
  if op.groupsRight then op.strength else op.strength + 1

/-- `&&`, `||` and `??`. -/
def isLogical : BinaryOp → Bool
  | .and | .or | .nullish => true
  | _ => false

end BinaryOp

/-! ## 2. Operators with one operand -/

/-- An operator in front of its operand. -/
inductive UnaryOp where
  | not | bitNot | plus | minus | typeOf | void | delete
  deriving DecidableEq, Repr, Inhabited

namespace UnaryOp

def token : UnaryOp → Kind
  | .not => .punct .bang
  | .bitNot => .punct .tilde
  | .plus => .punct .plus
  | .minus => .punct .minus
  | .typeOf => .keyword .typeof
  | .void => .keyword .void
  | .delete => .keyword .delete

def all : List UnaryOp := [.not, .bitNot, .plus, .minus, .typeOf, .void, .delete]

/-- The operator that a token spells. -/
def ofKind? (k : Kind) : Option UnaryOp := all.find? (·.token = k)

def spelling (op : UnaryOp) : Text := op.token.name

/-- Is the operator spelt as a word? -/
def isWord : UnaryOp → Bool
  | .typeOf | .void | .delete => true
  | _ => false

end UnaryOp

/-- `++` and `--`. -/
inductive UpdateOp where
  | increment | decrement
  deriving DecidableEq, Repr, Inhabited

namespace UpdateOp

def token : UpdateOp → Kind
  | .increment => .punct .increment
  | .decrement => .punct .decrement

/-- The operator that a token spells. -/
def ofKind? (k : Kind) : Option UpdateOp := [.increment, .decrement].find? (·.token = k)

def spelling (op : UpdateOp) : Text := op.token.name

end UpdateOp

/-! ## 3. Assignment -/

/-- `:=`, alone or joined to an operator. -/
inductive AssignOp where
  | plain
  | compound (op : BinaryOp)
  deriving DecidableEq, Repr, Inhabited

/-- `:=` with the operator in front of it. -/
def AssignOp.spelling : AssignOp → Text
  | .plain => txt ":="
  | .compound op => op.spelling ++ txt ":="

/-- What an assignment sign does: `=` declares a name, the others change something. -/
inductive AssignSign where
  | declare
  | assign (op : AssignOp)
  deriving DecidableEq, Repr, Inhabited

/-- The meaning of a sign of assignment. -/
def AssignSign.ofPunct? : Punct → Option AssignSign
  | .declare => some .declare
  | .set => some (.assign .plain)
  | .setPlus => some (.assign (.compound .add))
  | .setMinus => some (.assign (.compound .subtract))
  | .setStar => some (.assign (.compound .multiply))
  | .setSlash => some (.assign (.compound .divide))
  | .setPercent => some (.assign (.compound .remainder))
  | .setStarStar => some (.assign (.compound .power))
  | .setShiftLeft => some (.assign (.compound .shiftLeft))
  | .setShiftRight => some (.assign (.compound .shiftRight))
  | .setShiftRightZero => some (.assign (.compound .shiftRightZero))
  | .setAmpersand => some (.assign (.compound .bitAnd))
  | .setBar => some (.assign (.compound .bitOr))
  | .setCaret => some (.assign (.compound .bitXor))
  | .setAndAnd => some (.assign (.compound .and))
  | .setOrOr => some (.assign (.compound .or))
  | .setNullish => some (.assign (.compound .nullish))
  | _ => none

/-- The sign of assignment that a token is. -/
def AssignSign.ofKind? : Kind → Option AssignSign
  | .punct p => ofPunct? p
  | _ => none

end ReactiveScript
