import ReactiveScript.Number.Decimal
import ReactiveScript.Syntax.Tree

/-!
# Outline of a tree

The tree as indented text, one line for each node that starts with the name of its kind. Something
that is missing altogether is shown as `nil`.
-/

namespace ReactiveScript.Outline

/-! ## 1. Lines -/

/-- One line at a depth. -/
def line (depth : Nat) (t : Text) : Text := List.replicate (2 * depth) Byte.space ++ t

/-- Lines under a label; nothing without lines. -/
def labeled (depth : Nat) (label : String) (body : List Text) : List Text :=
  if body.isEmpty then [] else line depth (txt label ++ txt ":") :: body

/-- The name of a kind with something after a colon. -/
def tagged (kind : ExprKind) (t : Text) : Text := kind.name ++ txt ": " ++ t

/-- A name that may be written differently elsewhere. -/
def specifier (depth : Nat) (s : Specifier) : Text :=
  line depth (txt "specifier: " ++
    if s.name = s.renamed then s.name else s.name ++ txt " as " ++ s.renamed)

/-- The kind of a statement and its modifier. -/
def modified (kind : StmtKind) (modifier : Option Text) : Text :=
  match modifier with
  | some m => kind.name ++ txt " @" ++ m
  | none => kind.name

/-- A number, with its spelling where output keeps that. -/
def number (n : NumberLiteral) : Text :=
  if n.raw.isEmpty then Decimal.render n.value
  else Decimal.render n.value ++ txt " (" ++ n.raw ++ txt ")"

/-- A literal part of a template between backticks. -/
def quasi (q : Quasi) : Text := txt "quasi: " ++ Byte.backtick :: q.raw ++ [Byte.backtick]

/-- The text of an import's source. -/
def sourceText : Expr → Text
  | .string _ _ raw => raw
  | _ => txt "<bad>"

/-- The name of a property that is not computed. -/
def propertyName : Expr → Text
  | .identifier _ name => name
  | _ => []

/-! ## 2. Trees -/

mutual

/-- The lines of an expression. -/
def expr (d : Nat) : Expr → List Text
  | .bad _ => [line d (txt "badExpression")]
  | .identifier _ name => [line d (tagged .identifier name)]
  | .number _ n => [line d (tagged .number (number n))]
  | .string _ _ raw => [line d (tagged .string raw)]
  | .boolean _ b => [line d (tagged .boolean (txt (if b then "true" else "false")))]
  | .null _ => [line d ExprKind.null.name]
  | .template _ quasis es => line d ExprKind.template.name :: template (d + 1) quasis es
  | .tagged _ tag _ quasis es =>
    line d ExprKind.tagged.name ::
      (labeled (d + 1) "tag" (expr (d + 2) tag) ++
        line (d + 1) ExprKind.template.name :: template (d + 2) quasis es)
  | .array _ es => line d ExprKind.array.name :: exprs (d + 1) es
  | .object _ ps => line d ExprKind.object.name :: properties (d + 1) ps
  | .spread _ e => line d ExprKind.spread.name :: expr (d + 1) e
  | .arrow _ ps body =>
    line d ExprKind.arrow.name ::
      (params (d + 1) ps ++ labeled (d + 1) "body" (expr (d + 2) body))
  | .arrowBlock _ ps _ body =>
    line d ExprKind.arrow.name ::
      (params (d + 1) ps ++ line (d + 1) (txt "block") :: stmts (d + 2) body)
  | .call _ callee args opt =>
    line d (ExprKind.call.name ++ txt (if opt then " (optional)" else "")) ::
      (labeled (d + 1) "callee" (expr (d + 2) callee) ++
        labeled (d + 1) "args" (exprs (d + 2) args))
  | .member _ object property computed opt =>
    if computed then
      line d (ExprKind.member.name ++ txt " []" ++ txt (if opt then " (optional)" else "")) ::
        (expr (d + 1) object ++ labeled (d + 1) "property" (expr (d + 2) property))
    else
      line d (ExprKind.member.name ++ txt (if opt then " ?." else " .") ++ propertyName property) ::
        expr (d + 1) object
  | .slice _ object start stop =>
    line d ExprKind.slice.name ::
      (expr (d + 1) object ++ labeled (d + 1) "start" (expr? (d + 2) start) ++
        labeled (d + 1) "end" (expr? (d + 2) stop))
  | .sliceAssign _ object start stop value =>
    line d ExprKind.sliceAssign.name ::
      (line (d + 1) ExprKind.slice.name ::
          (expr (d + 2) object ++ labeled (d + 2) "start" (expr? (d + 3) start) ++
            labeled (d + 2) "end" (expr? (d + 3) stop)) ++
        labeled (d + 1) "value" (expr (d + 2) value))
  | .unary _ op e => line d (tagged .unary op.spelling) :: expr (d + 1) e
  | .update _ op before e =>
    line d (tagged .update (op.spelling ++ txt (if before then " (prefix)" else " (postfix)"))) ::
      expr (d + 1) e
  | .binary _ op l r =>
    line d (tagged (.ofBinary op) op.spelling) :: (expr (d + 1) l ++ expr (d + 1) r)
  | .conditional _ test yes no =>
    line d ExprKind.conditional.name :: (expr (d + 1) test ++ expr (d + 1) yes ++ expr (d + 1) no)
  | .assign _ op target value =>
    line d (tagged .assign op.spelling) :: (expr (d + 1) target ++ expr (d + 1) value)
  | .declare _ target value =>
    line d ExprKind.declare.name :: (expr (d + 1) target ++ expr (d + 1) value)
  | .arrayPattern _ es => line d ExprKind.arrayPattern.name :: patternElements (d + 1) es
  | .objectPattern _ ps => line d ExprKind.objectPattern.name :: patternProperties (d + 1) ps
  | .jsxElement _ name attrs children selfClosing =>
    line d (tagged .jsxElement (txt "<" ++ name ++ txt (if selfClosing then " />" else ">"))) ::
      (attributes (d + 1) attrs ++ exprs (d + 1) children)
  | .jsxFragment _ children => line d ExprKind.jsxFragment.name :: exprs (d + 1) children
  | .jsxText _ value => [line d (tagged .jsxText (txt "\"" ++ value ++ txt "\""))]
  | .jsxExpression _ e => line d ExprKind.jsxExpression.name :: expr (d + 1) e

/-- The lines of an expression that may be missing; none if it is. -/
def expr? (d : Nat) : Option Expr → List Text
  | some e => expr d e
  | none => []

/-- The lines of expressions in order. -/
def exprs (d : Nat) : List Expr → List Text
  | [] => []
  | e :: es => expr d e ++ exprs d es

/-- The literal parts of a template and the expressions between them. -/
def template (d : Nat) : List Quasi → List Expr → List Text
  | q :: quasis, e :: es => line d (quasi q) :: (expr d e ++ template d quasis es)
  | quasis, [] => quasis.map fun q => line d (quasi q)
  | [], _ :: _ => []

def properties (d : Nat) : List Property → List Text
  | [] => []
  | p :: ps => property d p ++ properties d ps

def property (d : Nat) : Property → List Text
  | .spread _ value => line d (txt "spreadProperty") :: expr (d + 1) value
  | .named _ key value =>
    line d (txt "property") ::
      (labeled (d + 1) "key" (expr (d + 2) key) ++ labeled (d + 1) "value" (expr (d + 2) value))
  | .shorthand _ key =>
    line d (txt "property (shorthand)") :: labeled (d + 1) "key" (expr (d + 2) key)
  | .computed _ key value =>
    line d (txt "property (computed)") ::
      (labeled (d + 1) "key" (expr? (d + 2) key) ++ labeled (d + 1) "value" (expr? (d + 2) value))

def params (d : Nat) : List Param → List Text
  | [] => []
  | p :: ps => param d p ++ params d ps

def param (d : Nat) : Param → List Text
  | .name _ name default =>
    line d (txt "param: " ++ name) :: labeled (d + 1) "default" (expr? (d + 2) default)
  | .rest _ name => [line d (txt "param: ..." ++ name)]
  | .pattern _ target default =>
    line d (txt "param:") ::
      (expr (d + 1) target ++ labeled (d + 1) "default" (expr? (d + 2) default))

def patternElements (d : Nat) : List PatternElement → List Text
  | [] => []
  | e :: es => patternElement d e ++ patternElements d es

def patternElement (d : Nat) : PatternElement → List Text
  | .item _ target default => expr d target ++ labeled d "default" (expr? (d + 1) default)
  | .rest _ target => line d (txt "rest:") :: expr (d + 1) target

def patternProperties (d : Nat) : List PatternProperty → List Text
  | [] => []
  | p :: ps => patternProperty d p ++ patternProperties d ps

def patternProperty (d : Nat) : PatternProperty → List Text
  | .rest _ target => line d (txt "rest:") :: expr (d + 1) target
  | .shorthand _ key default =>
    line d (txt "property (shorthand)") ::
      (labeled (d + 1) "key" (expr (d + 2) key) ++
        labeled (d + 1) "default" (expr? (d + 2) default))
  | .named _ key target default =>
    line d (txt "property") ::
      (labeled (d + 1) "key" (expr (d + 2) key) ++
        labeled (d + 1) "value" (expr (d + 2) target) ++
        labeled (d + 1) "default" (expr? (d + 2) default))

def attributes (d : Nat) : List Attribute → List Text
  | [] => []
  | a :: as => attr d a ++ attributes d as

def attr (d : Nat) : Attribute → List Text
  | .flag _ name => [line d (txt "jsxAttribute: " ++ name)]
  | .string _ name literal => [line d (txt "jsxAttribute: " ++ name ++ txt "=" ++ literal)]
  | .value _ name value => line d (txt "jsxAttribute: " ++ name) :: expr (d + 1) value
  | .spread _ value => line d (txt "jsxSpreadAttribute") :: expr (d + 1) value

/-- The lines of a statement. -/
def stmt (d : Nat) : Stmt → List Text
  | .bad _ => [line d (txt "badStatement")]
  | .expression _ modifier e => line d (modified .expression modifier) :: expr (d + 1) e
  | .return _ modifier argument => line d (modified .return modifier) :: expr? (d + 1) argument
  | .modifierBlock _ modifier _ body =>
    line d (modified .modifierBlock (some modifier)) ::
      line (d + 1) (txt "block") :: stmts (d + 2) body
  | .exportDefault _ e => line d StmtKind.exportDefault.name :: expr (d + 1) e
  | .exportNames _ names =>
    line d StmtKind.exportNamed.name :: names.map (specifier (d + 1))
  | .exportDeclaration _ _ modifier e =>
    line d StmtKind.exportNamed.name ::
      line (d + 1) (modified .expression modifier) :: expr (d + 2) e
  | .importNames _ default names source =>
    line d (StmtKind.importNames.name ++ txt " from " ++ sourceText source) ::
      ((default.toList.map fun name => line (d + 1) (txt "default: " ++ name)) ++
        names.map (specifier (d + 1)))
  | .importNamespace _ name source =>
    line d (StmtKind.importNamespace.name ++ txt ": * as " ++ name) :: expr (d + 1) source

/-- The lines of statements in order. -/
def stmts (d : Nat) : List Stmt → List Text
  | [] => []
  | s :: ss => stmt d s ++ stmts d ss

end

/-! ## 3. Whole trees -/

/-- Lines as one text. -/
def unlines (ls : List Text) : Text := ls.flatMap (· ++ [Byte.newline])

/-- The line of something that is missing. -/
def nil (depth : Nat) : List Text := [line depth (txt "nil")]

/-- The outline of an expression, or of a missing one. -/
def ofExpr? : Option Expr → Text
  | some e => unlines (expr 0 e)
  | none => unlines (nil 0)

/-- The outline of a program whose statements may be missing. -/
def ofStatements (body : List (Option Stmt)) : Text :=
  unlines (line 0 (txt "program") :: body.flatMap fun
    | some s => stmt 1 s
    | none => nil 1)

/-- The outline of a program. -/
def ofProgram (p : Program) : Text := ofStatements (p.body.map some)

/-- The outline of a program; nothing is shown of a missing one. -/
def ofProgram? : Option Program → Text
  | some p => ofProgram p
  | none => []

end ReactiveScript.Outline
