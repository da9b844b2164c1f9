import ReactiveScript.Number.Literal
import ReactiveScript.Syntax.Operator

/-!
# The syntax tree

Expressions and statements with their positions. A construct that could not be read is `bad`; a
program that is accepted holds none.

Binding patterns are expressions of their own kinds, so that a target of an assignment is always an
expression. A program is a position and a list of statements.
-/

namespace ReactiveScript

/-- A literal part of a template, as it is written and with its escapes read. -/
structure Quasi where
  raw : Text
  cooked : Text
  deriving DecidableEq, Repr, Inhabited

/-- A name of one side of an import or export list and the name it has on the other. -/
structure Specifier where
  name : Text
  renamed : Text
  deriving DecidableEq, Repr, Inhabited

mutual

/-- An expression. -/
inductive Expr where
  | bad (pos : Position)
  | identifier (pos : Position) (name : Text)
  | number (pos : Position) (literal : NumberLiteral)
  | string (pos : Position) (value raw : Text)
  | boolean (pos : Position) (value : Bool)
  | null (pos : Position)
  /-- A template; there is one more quasi than expressions. -/
  | template (pos : Position) (quasis : List Quasi) (exprs : List Expr)
  /-- A template with a tag in front of it; `body` is the position of the template. -/
  | tagged (pos : Position) (tag : Expr) (body : Position) (quasis : List Quasi)
      (exprs : List Expr)
  | array (pos : Position) (elements : List Expr)
  | object (pos : Position) (properties : List Property)
  | spread (pos : Position) (argument : Expr)
  /-- A function whose body is an expression. -/
  | arrow (pos : Position) (params : List Param) (body : Expr)
  /-- A function whose body is a block; `block` is the position of the block. -/
  | arrowBlock (pos : Position) (params : List Param) (block : Position) (body : List Stmt)
  | call (pos : Position) (callee : Expr) (args : List Expr) (optional : Bool)
  /-- `object.property` or, if it is computed, `object[property]`. -/
  | member (pos : Position) (object property : Expr) (computed optional : Bool)
  | slice (pos : Position) (object : Expr) (start stop : Option Expr)
  /-- An assignment to the slice of `object`; the slice has the same position. -/
  | sliceAssign (pos : Position) (object : Expr) (start stop : Option Expr) (value : Expr)
  | unary (pos : Position) (op : UnaryOp) (operand : Expr)
  /-- `++` or `--`, before the operand or after it. -/
  | update (pos : Position) (op : UpdateOp) (before : Bool) (operand : Expr)
  | binary (pos : Position) (op : BinaryOp) (left right : Expr)
  | conditional (pos : Position) (test yes no : Expr)
  | assign (pos : Position) (op : AssignOp) (target value : Expr)
  | declare (pos : Position) (target value : Expr)
  | arrayPattern (pos : Position) (elements : List PatternElement)
  | objectPattern (pos : Position) (properties : List PatternProperty)
  | jsxElement (pos : Position) (name : Text) (attributes : List Attribute)
      (children : List Expr) (selfClosing : Bool)
  | jsxFragment (pos : Position) (children : List Expr)
  | jsxText (pos : Position) (value : Text)
  | jsxExpression (pos : Position) (expr : Expr)

/-- A property of an object literal. -/
inductive Property where
  | spread (pos : Position) (value : Expr)
  | named (pos : Position) (key value : Expr)
  | shorthand (pos : Position) (key : Expr)
  /-- `[key]: value`; what is missing was not written. -/
  | computed (pos : Position) (key value : Option Expr)

/-- A parameter of a function. -/
inductive Param where
  | name (pos : Position) (name : Text) (default : Option Expr)
  | pattern (pos : Position) (target : Expr) (default : Option Expr)
  | rest (pos : Position) (name : Text)

/-- An element of an array pattern. -/
inductive PatternElement where
  | item (pos : Position) (target : Expr) (default : Option Expr)
  | rest (pos : Position) (target : Expr)

/-- A property of an object pattern. -/
inductive PatternProperty where
  | named (pos : Position) (key target : Expr) (default : Option Expr)
  | shorthand (pos : Position) (key : Expr) (default : Option Expr)
  | rest (pos : Position) (target : Expr)

/-- An attribute of an element. -/
inductive Attribute where
  | flag (pos : Position) (name : Text)
  /-- `name="text"`; the literal is kept as it is written. -/
  | string (pos : Position) (name literal : Text)
  | value (pos : Position) (name : Text) (value : Expr)
  | spread (pos : Position) (value : Expr)

/-- A statement. -/
inductive Stmt where
  | bad (pos : Position)
  | expression (pos : Position) (modifier : Option Text) (expr : Expr)
  | return (pos : Position) (modifier : Option Text) (argument : Option Expr)
  /-- `@modifier:` and a block; `block` is the position of the block. -/
  | modifierBlock (pos : Position) (modifier : Text) (block : Position) (body : List Stmt)
  | exportDefault (pos : Position) (expr : Expr)
  | exportNames (pos : Position) (names : List Specifier)
  /-- An exported declaration; `declaration` is its position. -/
  | exportDeclaration (pos declaration : Position) (modifier : Option Text) (expr : Expr)
  | importNames (pos : Position) (default : Option Text) (names : List Specifier) (source : Expr)
  | importNamespace (pos : Position) (name : Text) (source : Expr)

end

instance : Inhabited Expr := ⟨.bad .start⟩
instance : Inhabited Stmt := ⟨.bad .start⟩

/-- A program. -/
structure Program where
  pos : Position
  body : List Stmt
  deriving Inhabited

/-! ## 1. Positions -/

/-- Where an expression starts. -/
def Expr.pos : Expr → Position
  | .bad p | .identifier p _ | .number p _ | .string p _ _ | .boolean p _ | .null p
  | .template p _ _ | .tagged p _ _ _ _ | .array p _ | .object p _ | .spread p _ | .arrow p _ _
  | .arrowBlock p _ _ _ | .call p _ _ _ | .member p _ _ _ _ | .slice p _ _ _
  | .sliceAssign p _ _ _ _ | .unary p _ _ | .update p _ _ _ | .binary p _ _ _
  | .conditional p _ _ _ | .assign p _ _ _ | .declare p _ _ | .arrayPattern p _
  | .objectPattern p _ | .jsxElement p _ _ _ _ | .jsxFragment p _ | .jsxText p _
  | .jsxExpression p _ => p

/-- Where a statement starts. -/
def Stmt.pos : Stmt → Position
  | .bad p | .expression p _ _ | .return p _ _ | .modifierBlock p _ _ _ | .exportDefault p _
  | .exportNames p _ | .exportDeclaration p _ _ _ | .importNames p _ _ _
  | .importNamespace p _ _ => p

/-! ## 2. Kinds -/

/-- The kind of an expression. Operators that short-circuit, pipe or compose have kinds of their
    own. -/
inductive ExprKind where
  | bad | identifier | number | string | boolean | null | template | tagged | array | object
  | spread | arrow | call | member | slice | sliceAssign | unary | update | binary | logical
  | pipe | compose | conditional | assign | declare | arrayPattern | objectPattern | jsxElement
  | jsxFragment | jsxText | jsxExpression
  deriving DecidableEq, Repr, Inhabited

namespace ExprKind

/-- The name of the kind in listings and messages. -/
def name : ExprKind → Text
  | .bad => txt "bad"
  | .identifier => txt "identifier"
  | .number => txt "number"
  | .string => txt "string"
  | .boolean => txt "boolean"
  | .null => txt "null"
  | .template => txt "templateLiteral"
  | .tagged => txt "taggedTemplate"
  | .array => txt "array"
  | .object => txt "object"
  | .spread => txt "spreadElement"
  | .arrow => txt "arrowFunction"
  | .call => txt "call"
  | .member => txt "memberAccess"
  | .slice => txt "arraySlice"
  | .sliceAssign => txt "arraySliceAssignment"
  | .unary => txt "unary"
  | .update => txt "update"
  | .binary => txt "binary"
  | .logical => txt "logical"
  | .pipe => txt "pipe"
  | .compose => txt "compose"
  | .conditional => txt "conditional"
  | .assign => txt "assignment"
  | .declare => txt "variableDeclaration"
  | .arrayPattern => txt "arrayPattern"
  | .objectPattern => txt "objectPattern"
  | .jsxElement => txt "jsxElement"
  | .jsxFragment => txt "jsxFragment"
  | .jsxText => txt "jsxText"
  | .jsxExpression => txt "jsxExpression"

/-- Every kind, in declaration order. -/
def all : List ExprKind :=
  [ .bad, .identifier, .number, .string, .boolean, .null, .template, .tagged, .array, .object,
    .spread, .arrow, .call, .member, .slice, .sliceAssign, .unary, .update, .binary, .logical,
    .pipe, .compose, .conditional, .assign, .declare, .arrayPattern, .objectPattern, .jsxElement,
    .jsxFragment, .jsxText, .jsxExpression ]

/-- The kind of an expression with a binary operator. -/
def ofBinary : BinaryOp → ExprKind
  | .and | .or | .nullish => .logical
  | .pipe => .pipe
  | .compose => .compose
  | _ => .binary

end ExprKind

def Expr.kind : Expr → ExprKind
  | .bad _ => .bad
  | .identifier _ _ => .identifier
  | .number _ _ => .number
  | .string _ _ _ => .string
  | .boolean _ _ => .boolean
  | .null _ => .null
  | .template _ _ _ => .template
  | .tagged _ _ _ _ _ => .tagged
  | .array _ _ => .array
  | .object _ _ => .object
  | .spread _ _ => .spread
  | .arrow _ _ _ | .arrowBlock _ _ _ _ => .arrow
  | .call _ _ _ _ => .call
  | .member _ _ _ _ _ => .member
  | .slice _ _ _ _ => .slice
  | .sliceAssign _ _ _ _ _ => .sliceAssign
  | .unary _ _ _ => .unary
  | .update _ _ _ _ => .update
  | .binary _ op _ _ => .ofBinary op
  | .conditional _ _ _ _ => .conditional
  | .assign _ _ _ _ => .assign
  | .declare _ _ _ => .declare
  | .arrayPattern _ _ => .arrayPattern
  | .objectPattern _ _ => .objectPattern
  | .jsxElement _ _ _ _ _ => .jsxElement
  | .jsxFragment _ _ => .jsxFragment
  | .jsxText _ _ => .jsxText
  | .jsxExpression _ _ => .jsxExpression

/-- The kind of a statement. -/
inductive StmtKind where
  | bad | expression | return | modifierBlock | exportDefault | exportNamed | importNames
  | importNamespace
  deriving DecidableEq, Repr, Inhabited

namespace StmtKind

/-- The name of the kind in listings and messages. -/
def name : StmtKind → Text
  | .bad => txt "bad"
  | .expression => txt "expressionStatement"
  | .return => txt "returnStatement"
  | .modifierBlock => txt "modifierBlockStatement"
  | .exportDefault => txt "exportDefaultStatement"
  | .exportNamed => txt "exportNamedStatement"
  | .importNames => txt "importStatement"
  | .importNamespace => txt "importNamespaceStatement"

/-- Every kind, in declaration order. -/
def all : List StmtKind :=
  [ .bad, .expression, .return, .modifierBlock, .exportDefault, .exportNamed, .importNames,
    .importNamespace ]

end StmtKind

def Stmt.kind : Stmt → StmtKind
  | .bad _ => .bad
  | .expression _ _ _ => .expression
  | .return _ _ _ => .return
  | .modifierBlock _ _ _ _ => .modifierBlock
  | .exportDefault _ _ => .exportDefault
  | .exportNames _ _ | .exportDeclaration _ _ _ _ => .exportNamed
  | .importNames _ _ _ _ => .importNames
  | .importNamespace _ _ _ => .importNamespace

/-! ## 3. Small questions -/

namespace Expr

def isBad : Expr → Bool
  | .bad _ => true
  | _ => false

/-- A pattern that takes a value apart. -/
def isPattern : Expr → Bool
  | .arrayPattern _ _ | .objectPattern _ _ => true
  | _ => false

/-- A function, whatever its body. -/
def isArrow : Expr → Bool
  | .arrow _ _ _ | .arrowBlock _ _ _ _ => true
  | _ => false

/-- A declaration or an assignment. -/
def isBinding : Expr → Bool
  | .declare _ _ _ | .assign _ _ _ _ | .sliceAssign _ _ _ _ _ => true
  | _ => false

/-- A declaration, or a plain assignment to a name. -/
def declares : Expr → Bool
  | .declare _ _ _ => true
  | .assign _ .plain (.identifier _ _) _ => true
  | _ => false

end Expr

end ReactiveScript
