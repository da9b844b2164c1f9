import ReactiveScript.Syntax.Tree

/-!
# The nodes of a tree in order

A tree as the list of its nodes, each before its children and children in the order of the source.
Besides expressions and statements, blocks, properties, parameters, pattern elements, attributes
and the literal parts of templates are nodes.
-/

namespace ReactiveScript

/-- What a node of an expression holds besides its children. -/
inductive Detail where
  | none
  | text (t : Text)
  | number (n : NumberLiteral)
  | bool (b : Bool)
  deriving DecidableEq, Repr, Inhabited

/-- A node of a tree, without its children. -/
inductive Node where
  | program (pos : Position)
  | block (pos : Position)
  | stmt (kind : StmtKind) (pos : Position) (modifier : Option Text)
  | expr (kind : ExprKind) (pos : Position) (detail : Detail)
  /-- A literal part of a template; it has no position. -/
  | quasi (q : Quasi)
  | property (pos : Position)
  /-- A parameter and its name, which a pattern lacks. -/
  | param (pos : Position) (name : Text)
  | element (pos : Position)
  /-- An attribute and its name, which a spread lacks. -/
  | attribute (pos : Position) (name : Text)
  deriving DecidableEq, Repr, Inhabited

/-- Where a node lies. -/
@[reducible] def Node.pos? : Node → Option Position
  | .program p | .block p | .stmt _ p _ | .expr _ p _ | .property p | .param p _ | .element p
  | .attribute p _ => some p
  | .quasi _ => none

namespace Preorder

mutual

/-- The nodes of an expression. -/
@[reducible] def expr : Expr → List Node
  | .bad p => [.expr .bad p .none]
  | .identifier p name => [.expr .identifier p (.text name)]
  | .number p n => [.expr .number p (.number n)]
  | .string p value _ => [.expr .string p (.text value)]
  | .boolean p b => [.expr .boolean p (.bool b)]
  | .null p => [.expr .null p .none]
  | .template p quasis es => .expr .template p .none :: template quasis es
  | .tagged p tag body quasis es =>
    .expr .tagged p .none :: (expr tag ++ .expr .template body .none :: template quasis es)
  | .array p es => .expr .array p .none :: exprs es
  | .object p ps => .expr .object p .none :: properties ps
  | .spread p e => .expr .spread p .none :: expr e
  | .arrow p ps body => .expr .arrow p .none :: (params ps ++ expr body)
  | .arrowBlock p ps block body =>
    .expr .arrow p .none :: (params ps ++ .block block :: stmts body)
  | .call p callee args _ => .expr .call p .none :: (expr callee ++ exprs args)
  | .member p object property _ _ => .expr .member p .none :: (expr object ++ expr property)
  | .slice p object start stop =>
    .expr .slice p .none :: (expr object ++ expr? start ++ expr? stop)
  | .sliceAssign p object start stop value =>
    .expr .sliceAssign p .none :: .expr .slice p .none ::
      (expr object ++ expr? start ++ expr? stop ++ expr value)
  | .unary p _ e => .expr .unary p .none :: expr e
  | .update p _ _ e => .expr .update p .none :: expr e
  | .binary p op l r => .expr (.ofBinary op) p .none :: (expr l ++ expr r)
  | .conditional p test yes no =>
    .expr .conditional p .none :: (expr test ++ expr yes ++ expr no)
  | .assign p _ target value => .expr .assign p .none :: (expr target ++ expr value)
  | .declare p target value => .expr .declare p .none :: (expr target ++ expr value)
  | .arrayPattern p es => .expr .arrayPattern p .none :: patternElements es
  | .objectPattern p ps => .expr .objectPattern p .none :: patternProperties ps
  | .jsxElement p _ attrs children _ =>
    .expr .jsxElement p .none :: (attributes attrs ++ exprs children)
  | .jsxFragment p children => .expr .jsxFragment p .none :: exprs children
  | .jsxText p value => [.expr .jsxText p (.text value)]
  | .jsxExpression p e => .expr .jsxExpression p .none :: expr e

/-- The nodes of an expression that may be missing. -/
@[reducible] def expr? : Option Expr → List Node
  | some e => expr e
  | none => []

/-- The nodes of expressions in order. -/
@[reducible] def exprs : List Expr → List Node
  | [] => []
  | e :: es => expr e ++ exprs es

/-- The literal parts of a template and the expressions between them. -/
@[reducible] def template : List Quasi → List Expr → List Node
  | q :: quasis, e :: es => .quasi q :: (expr e ++ template quasis es)
  | quasis, [] => quasis.map .quasi
  | [], _ :: _ => []

@[reducible] def properties : List Property → List Node
  | [] => []
  | p :: ps => property p ++ properties ps

@[reducible] def property : Property → List Node
  | .spread p value => .property p :: expr value
  | .named p key value => .property p :: (expr key ++ expr value)
  | .shorthand p key => .property p :: expr key
  | .computed p key value => .property p :: (expr? key ++ expr? value)

@[reducible] def params : List Param → List Node
  | [] => []
  | p :: ps => param p ++ params ps

@[reducible] def param : Param → List Node
  | .name p name default => .param p name :: expr? default
  | .pattern p target default => .param p [] :: (expr target ++ expr? default)
  | .rest p name => [.param p name]

@[reducible] def patternElements : List PatternElement → List Node
  | [] => []
  | e :: es => patternElement e ++ patternElements es

@[reducible] def patternElement : PatternElement → List Node
  | .item p target default => .element p :: (expr target ++ expr? default)
  | .rest p target => .element p :: expr target

@[reducible] def patternProperties : List PatternProperty → List Node
  | [] => []
  | p :: ps => patternProperty p ++ patternProperties ps

@[reducible] def patternProperty : PatternProperty → List Node
  | .named p key target default => .property p :: (expr key ++ expr target ++ expr? default)
  | .shorthand p key default => .property p :: (expr key ++ expr? default)
  | .rest p target => .property p :: expr target

@[reducible] def attributes : List Attribute → List Node
  | [] => []
  | a :: as => attr a ++ attributes as

@[reducible] def attr : Attribute → List Node
  | .flag p name => [.attribute p name]
  | .string p name _ => [.attribute p name]
  | .value p name value => .attribute p name :: expr value
  | .spread p value => .attribute p [] :: expr value

/-- The nodes of a statement. -/
@[reducible] def stmt : Stmt → List Node
  | .bad p => [.stmt .bad p none]
  | .expression p modifier e => .stmt .expression p modifier :: expr e
  | .return p modifier argument => .stmt .return p modifier :: expr? argument
  | .modifierBlock p modifier block body =>
    .stmt .modifierBlock p (some modifier) :: .block block :: stmts body
  | .exportDefault p e => .stmt .exportDefault p none :: expr e
  | .exportNames p _ => [.stmt .exportNamed p none]
  | .exportDeclaration p declaration modifier e =>
    .stmt .exportNamed p none :: .stmt .expression declaration modifier :: expr e
  | .importNames p _ _ source => .stmt .importNames p none :: expr source
  | .importNamespace p _ source => .stmt .importNamespace p none :: expr source

/-- The nodes of statements in order. -/
@[reducible] def stmts : List Stmt → List Node
  | [] => []
  | s :: ss => stmt s ++ stmts ss

end

/-- The nodes of a program. -/
def program (p : Program) : List Node := .program p.pos :: stmts p.body

end Preorder

end ReactiveScript
