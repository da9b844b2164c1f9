import ReactiveScript.Number.Decimal
import ReactiveScript.Script.Code
import ReactiveScript.Script.FreeNames
import ReactiveScript.Script.Level
import ReactiveScript.Script.Modifier
import ReactiveScript.Text.Entity
import ReactiveScript.Text.Escape

/-!
# Writing the script

The script of an expression or a statement. A piece is written with the parentheses that its place
requires and no others; statements of a block stand two columns deeper than the block.

* `emit` : an expression, without parentheses around it.
* `stmts` : statements, one line each. A modifier block is written as its statements; those without
  a modifier of their own take that of the block.
-/

namespace ReactiveScript.Script

/-- The runtime that modifiers call: the module it comes from and the name it has in the script. -/
structure Options where
  library : Text := txt "@oddo/ui"
  identifier : Text := txt "$Oddo"
  deriving DecidableEq, Repr, Inhabited

/-! ## 1. Small parts -/

/-- The text of a number that has no spelling to keep. -/
def numberText (x : Binary64) : Text :=
  match x.value with
  | .nan => txt "NaN"
  | .infinite negative => txt (if negative then "-Infinity" else "Infinity")
  | .finite _ _ _ => Decimal.render x

/-- The text of a number. -/
def number (n : NumberLiteral) : Text := if n.raw.isEmpty then numberText n.value else n.raw

/-- How the script spells a binary operator. -/
def binarySpelling : BinaryOp → Text
  | .equal => txt "==="
  | .notEqual => txt "!=="
  | op => op.spelling

/-- How the script spells an assignment. -/
def assignSpelling : AssignOp → Text
  | .plain => txt "="
  | .compound op => op.spelling ++ txt "="

/-- The piece written for an expression, with parentheses where the place asks for a higher
    level. -/
def atLevel (least : Nat) (e : Expr) (c : Code) : Code := c.parenthesizedIf (e.level < least)

/-- An operator in front of its operand. Words and signs that would run together are kept apart. -/
def unary (op : UnaryOp) (operand : Code) : Code :=
  let runsTogether := (op = .minus || op = .plus) && operand.rope.head? == op.spelling.head?
  if op.isWord || runsTogether then .plain op.spelling ++ .lit " " ++ operand
  else .plain op.spelling ++ operand

/-- A binary operator between the pieces of its operands. -/
def binary (op : BinaryOp) (l r : Expr) (left right : Code) : Code :=
  match op with
  | .pipe =>
    atLevel Level.call r right ++ (atLevel Level.assignment l left).parenthesized
  | .compose =>
    atLevel Level.call l left ++ (atLevel Level.assignment r right).parenthesized
  | _ =>
    atLevel (op.leftLevel l) l left ++ .lit " " ++ .plain (binarySpelling op) ++ .lit " " ++
      atLevel (op.rightLevel r) r right

/-- A byte that shows that a dot after a number starts a member. -/
def endsInteger (b : UInt8) : Bool := (txt ".eExXbBoO").contains b

/-- The object of a member: a plain integer in front of a dot is put in parentheses. -/
def memberObject (object : Expr) (computed : Bool) (c : Code) : Code :=
  let c := atLevel Level.call object c
  match object with
  | .number _ _ => c.parenthesizedIf (!computed && !c.text.any endsInteger)
  | _ => c

/-- A member or a computed member. -/
def member (object property : Expr) (computed optional : Bool) (o p : Code) : Code :=
  let o := memberObject object computed o
  if computed then
    o ++ .lit (if optional then "?.[" else "[") ++ atLevel Level.lowest property p ++ .lit "]"
  else o ++ .lit (if optional then "?." else ".") ++ p

/-- A call. The arguments are written before what is called. -/
def call (callee : Expr) (optional : Bool) (f : Code) (args : List Code) : Code :=
  let args := Code.join ", " args
  args.findings ++ atLevel Level.call callee f ++ .lit (if optional then "?.(" else "(") ++
    args.bare ++ .lit ")"

/-- How many elements an assignment to a slice removes. `length` is the piece for the length of the
    whole; bounds that are both numbers are subtracted at once. -/
def removed (start stop : Option Expr) (length : Code) (first last : Code) : Code :=
  match start, stop with
  | none, none => length
  | none, some e => atLevel Level.assignment e last
  | some s, none => length ++ .lit " - " ++ atLevel (Level.addition + 1) s first
  | some (.number _ m), some (.number _ n) => .plain (numberText (n.value.sub m.value))
  | some s, some e =>
    atLevel Level.addition e last ++ .lit " - " ++ atLevel (Level.addition + 1) s first

/-- An assignment to a slice. The object is written twice, once for its length, whether or not the
    length is needed. -/
def sliceAssign (object : Expr) (start stop : Option Expr) (value : Expr)
    (o first last v : Code) : Code :=
  let length := atLevel Level.call object o ++ .lit ".length"
  let startCode := match start with
    | some s => atLevel Level.assignment s first
    | none => .lit "0"
  .lit "Array.prototype.splice.apply(" ++ atLevel Level.assignment object o ++ length.findings ++
    .lit ", [" ++ startCode ++ .lit ", " ++ removed start stop length.bare first last ++
    .lit "].concat(" ++ atLevel Level.assignment value v ++ .lit "))"

/-- The body of a function that is an expression. -/
def functionBody (e : Expr) (c : Code) : Code := (atLevel Level.assignment e c).noBraceFirst

/-- A value handed to the runtime by a modifier. Nothing is written of a value whose modifier is
    unknown or asks for a function. -/
def runtimeCall (o : Options) (modifier : Text) (p : Position) (value : Expr) (c : Code) : Code :=
  match Modifier.ofName? modifier with
  | none => .fault (.unknownModifier modifier) p
  | some m =>
    let callee : Code := .plain (o.identifier ++ txt "." ++ m.method)
    .withRuntime m.needsRuntime <| match m.shape with
      | .wrap => callee ++ (atLevel Level.assignment value c).parenthesized
      | .tracked =>
        let names : Code := .plain (Text.join (txt ", ") (FreeNames.ofExpr value))
        callee ++ .lit "((" ++ names ++ .lit ") => " ++ functionBody value c ++ .lit ", [" ++
          names ++ .lit "])"
      | .function =>
        if value.isArrow then callee ++ (atLevel Level.assignment value c).parenthesized
        else .fault (.notFunction m.name) value.pos

/-- The value of a statement: handed to the runtime if there is a modifier. -/
def modified (o : Options) (modifier : Option Text) (p : Position) (value : Expr) (c : Code) :
    Code :=
  match modifier with
  | none => atLevel Level.assignment value c
  | some m => runtimeCall o m p value c

/-- One line at an indentation. -/
def line (d : Nat) (c : Code) : Code :=
  .plain (List.replicate (2 * d) Byte.space) ++ c ++ .plain [Byte.newline]

/-- A target and its value after a word; the value is written first. -/
def bound (word : String) (target : Expr) (t value : Code) : Code :=
  value.findings ++ .lit word ++ atLevel Level.call target t ++ .lit " = " ++ value.bare

/-- A name that has another one elsewhere. -/
def specifier (s : Specifier) : Code :=
  .plain (if s.name = s.renamed then s.name else s.name ++ txt " as " ++ s.renamed)

/-- The literal of an import's source. -/
def sourceText : Expr → Text
  | .string _ _ raw => raw
  | _ => []

/-- An import of names, of which there may be none. -/
def importNames (default : Option Text) (names : List Specifier) (source : Expr) : Code :=
  let clauses := (default.map Code.plain).toList ++
    (if names.isEmpty then [] else [Code.braced (names.map specifier)])
  if clauses.isEmpty then .lit "import " ++ .plain (sourceText source) ++ .lit ";"
  else
    .lit "import " ++ .join ", " clauses ++ .lit " from " ++ .plain (sourceText source) ++
      .lit ";"

/-! ## 2. Expressions and statements -/

mutual

/-- An expression, without parentheses around it, in a line indented `d` times. -/
def emit (o : Options) (d : Nat) : Expr → Code
  | .bad p => .fault (.unknownExpression ExprKind.bad.name) p
  | .identifier _ name => .plain name
  | .number _ n => .plain (number n)
  | .string _ _ raw => .plain raw
  | .boolean _ b => .lit (if b then "true" else "false")
  | .null _ => .lit "null"
  | .template _ quasis es => .lit "`" ++ template o d quasis es ++ .lit "`"
  | .tagged _ tag _ quasis es =>
    atLevel Level.call tag (emit o d tag) ++ .lit "`" ++ template o d quasis es ++ .lit "`"
  | .array _ es => .lit "[" ++ .join ", " (items o d es) ++ .lit "]"
  | .object _ ps => .braced (properties o d ps)
  | .spread _ e => .lit "..." ++ atLevel Level.assignment e (emit o d e)
  | .arrow _ ps body =>
    .lit "(" ++ .join ", " (params o d ps) ++ .lit ") => " ++ functionBody body (emit o d body)
  | .arrowBlock _ ps _ body =>
    .lit "(" ++ .join ", " (params o d ps) ++ .lit ") => " ++
      if body.isEmpty then .lit "\x7b\x7d"
      else
        .lit "\x7b\n" ++ stmts o (d + 1) none body ++
          .plain (List.replicate (2 * d) Byte.space) ++ .lit "\x7d"
  | .call _ callee args optional => call callee optional (emit o d callee) (items o d args)
  | .member _ object property computed optional =>
    member object property computed optional (emit o d object) (emit o d property)
  | .slice _ object start stop =>
    atLevel Level.call object (emit o d object) ++ .lit ".slice(" ++
      (if start.isNone then .lit "0" else item? o d start) ++
      (if stop.isNone then {} else .lit ", " ++ item? o d stop) ++ .lit ")"
  | .sliceAssign _ object start stop value =>
    sliceAssign object start stop value (emit o d object) (emit? o d start) (emit? o d stop)
      (emit o d value)
  | .unary _ op e => unary op (atLevel Level.unary e (emit o d e))
  | .update _ op before e =>
    if before then .plain op.spelling ++ atLevel Level.unary e (emit o d e)
    else atLevel Level.update e (emit o d e) ++ .plain op.spelling
  | .binary _ op l r => binary op l r (emit o d l) (emit o d r)
  | .conditional _ test yes no =>
    atLevel Level.or test (emit o d test) ++ .lit " ? " ++
      atLevel Level.assignment yes (emit o d yes) ++ .lit " : " ++
      atLevel Level.assignment no (emit o d no)
  | .assign _ op target value =>
    atLevel Level.call target (emit o d target) ++ .lit " " ++ .plain (assignSpelling op) ++
      .lit " " ++ atLevel Level.assignment value (emit o d value)
  | .declare p target value =>
    .fault .nestedDeclaration p ++ atLevel Level.call target (emit o d target) ++ .lit " = " ++
      atLevel Level.assignment value (emit o d value)
  | .arrayPattern _ es => .lit "[" ++ .join ", " (patternElements o d es) ++ .lit "]"
  | .objectPattern _ ps => .braced (patternProperties o d ps)
  | .jsxElement _ name attrs children selfClosing =>
    let opening := .lit "<" ++ .plain name ++ attributes o d attrs
    if selfClosing then opening ++ .lit " />"
    else
      opening ++ .lit ">" ++ childrenCode o d children ++ .lit "</" ++ .plain name ++ .lit ">"
  | .jsxFragment _ children => .lit "<>" ++ childrenCode o d children ++ .lit "</>"
  | .jsxText _ value => .plain (Entity.escape value)
  | .jsxExpression _ e =>
    .lit "\x7b" ++ atLevel Level.assignment e (emit o d e) ++ .lit "\x7d"

/-- An expression that may be missing. -/
def emit? (o : Options) (d : Nat) : Option Expr → Code
  | some e => emit o d e
  | none => {}

/-- An item of a list that may be missing. -/
def item? (o : Options) (d : Nat) : Option Expr → Code
  | some e => atLevel Level.assignment e (emit o d e)
  | none => {}

/-- The items of a list. -/
def items (o : Options) (d : Nat) : List Expr → List Code
  | [] => []
  | e :: es => atLevel Level.assignment e (emit o d e) :: items o d es

/-- The children of an element. -/
def childrenCode (o : Options) (d : Nat) : List Expr → Code
  | [] => {}
  | e :: es => emit o d e ++ childrenCode o d es

/-- The literal parts of a template with the expressions between them. -/
def template (o : Options) (d : Nat) : List Quasi → List Expr → Code
  | q :: quasis, e :: es =>
    .plain q.raw ++ .lit "$\x7b" ++ atLevel Level.lowest e (emit o d e) ++ .lit "\x7d" ++
      template o d quasis es
  | quasis, [] => .plain (quasis.flatMap (·.raw))
  | [], _ :: _ => {}

def properties (o : Options) (d : Nat) : List Property → List Code
  | [] => []
  | p :: ps => property o d p :: properties o d ps

def property (o : Options) (d : Nat) : Property → Code
  | .spread _ value => .lit "..." ++ atLevel Level.assignment value (emit o d value)
  | .computed _ key value => .lit "[" ++ item? o d key ++ .lit "]: " ++ item? o d value
  | .shorthand _ key => emit o d key
  | .named _ key value =>
    emit o d key ++ .lit ": " ++ atLevel Level.assignment value (emit o d value)

def params (o : Options) (d : Nat) : List Param → List Code
  | [] => []
  | p :: ps => param o d p :: params o d ps

def param (o : Options) (d : Nat) : Param → Code
  | .name _ name default => .plain name ++ defaultValue o d default
  | .pattern _ target default => emit o d target ++ defaultValue o d default
  | .rest _ name => .lit "..." ++ .plain name

/-- The value that stands in for a missing one, after its sign. -/
def defaultValue (o : Options) (d : Nat) : Option Expr → Code
  | some e => .lit " = " ++ atLevel Level.assignment e (emit o d e)
  | none => {}

def patternElements (o : Options) (d : Nat) : List PatternElement → List Code
  | [] => []
  | e :: es => patternElement o d e :: patternElements o d es

def patternElement (o : Options) (d : Nat) : PatternElement → Code
  | .item _ target default =>
    atLevel Level.call target (emit o d target) ++ defaultValue o d default
  | .rest _ target => .lit "..." ++ atLevel Level.call target (emit o d target)

def patternProperties (o : Options) (d : Nat) : List PatternProperty → List Code
  | [] => []
  | p :: ps => patternProperty o d p :: patternProperties o d ps

def patternProperty (o : Options) (d : Nat) : PatternProperty → Code
  | .named _ key target default =>
    emit o d key ++ .lit ": " ++ atLevel Level.call target (emit o d target) ++
      defaultValue o d default
  | .shorthand _ key default => emit o d key ++ defaultValue o d default
  | .rest _ target => .lit "..." ++ atLevel Level.call target (emit o d target)

def attributes (o : Options) (d : Nat) : List Attribute → Code
  | [] => {}
  | a :: as => attr o d a ++ attributes o d as

def attr (o : Options) (d : Nat) : Attribute → Code
  | .flag _ name => .lit " " ++ .plain name
  | .string _ name literal => .lit " " ++ .plain name ++ .lit "=" ++ .plain literal
  | .value _ name value =>
    .lit " " ++ .plain name ++ .lit "=\x7b" ++ atLevel Level.assignment value (emit o d value) ++
      .lit "\x7d"
  | .spread _ value =>
    .lit " \x7b..." ++ atLevel Level.assignment value (emit o d value) ++ .lit "\x7d"

/-- A statement, under the modifier of the block around it. -/
def stmt (o : Options) (d : Nat) (inherited : Option Text) : Stmt → Code
  | .bad p => .fault (.unknownStatement StmtKind.bad.name) p
  | .expression p own e =>
    match own.or inherited, e with
    | modifier, .declare _ target value =>
      line d (bound "const " target (emit o d target)
        (modified o modifier p value (emit o d value)) ++ .lit ";")
    | some m, .assign _ .plain target value =>
      line d ((bound "" target (emit o d target)
        (runtimeCall o m p value (emit o d value))).noBraceFirst ++ .lit ";")
    | some m, e => line d (runtimeCall o m p e (emit o d e) ++ .lit ";")
    | none, e => line d ((emit o d e).noBraceFirst ++ .lit ";")
  | .return p own none =>
    match own.or inherited with
    | some m =>
      (if (Modifier.ofName? m).isNone then .fault (.unknownModifier m) p else {}) ++
        line d (.lit "return;")
    | none => line d (.lit "return;")
  | .return p own (some e) =>
    match own.or inherited with
    | some m => line d (.lit "return " ++ runtimeCall o m p e (emit o d e) ++ .lit ";")
    | none => line d (.lit "return " ++ emit o d e ++ .lit ";")
  | .modifierBlock _ modifier _ body => stmts o d (some modifier) body
  | .exportDefault _ e =>
    line d (.lit "export default " ++ atLevel Level.assignment e (emit o d e) ++ .lit ";")
  | .exportNames _ names =>
    line d (.lit "export " ++ .braced (names.map specifier) ++ .lit ";")
  | .exportDeclaration _ p own e =>
    match e with
    | .declare _ target value | .assign _ .plain target value =>
      line d (bound "export const " target (emit o d target)
        (modified o own p value (emit o d value)) ++ .lit ";")
    | _ => .fault .noDeclaration p
  | .importNames _ default names source => line d (importNames default names source)
  | .importNamespace _ name source =>
    line d (.lit "import * as " ++ .plain name ++ .lit " from " ++ .plain (sourceText source) ++
      .lit ";")

/-- Statements, under the modifier of the block around them. -/
def stmts (o : Options) (d : Nat) (inherited : Option Text) : List Stmt → Code
  | [] => {}
  | s :: ss => stmt o d inherited s ++ stmts o d inherited ss

end

end ReactiveScript.Script
