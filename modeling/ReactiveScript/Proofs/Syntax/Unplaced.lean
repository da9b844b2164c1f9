import ReactiveScript.Proofs.Syntax.WellFormed
import ReactiveScript.Syntax.Preorder

/-!
# Trees without their places

Two trees are the same up to the places of their nodes if they are equal once every position is
set to the start of the source (`Expr.unplaced`). The size of an expression is the number of the
expressions in it.
-/

namespace ReactiveScript

/-! ## 1. Forgetting positions -/

mutual

/-- An expression with all its positions forgotten. -/
def Expr.unplaced : Expr → Expr
  | .bad _ => .bad .start
  | .identifier _ name => .identifier .start name
  | .number _ n => .number .start n
  | .string _ value raw => .string .start value raw
  | .boolean _ b => .boolean .start b
  | .null _ => .null .start
  | .template _ quasis es => .template .start quasis (Unplaced.exprs es)
  | .tagged _ tag _ quasis es =>
    .tagged .start tag.unplaced .start quasis (Unplaced.exprs es)
  | .array _ es => .array .start (Unplaced.exprs es)
  | .object _ ps => .object .start (Unplaced.properties ps)
  | .spread _ e => .spread .start e.unplaced
  | .arrow _ ps body => .arrow .start (Unplaced.params ps) body.unplaced
  | .arrowBlock _ ps _ body =>
    .arrowBlock .start (Unplaced.params ps) .start (Unplaced.stmts body)
  | .call _ callee args optional => .call .start callee.unplaced (Unplaced.exprs args) optional
  | .member _ object property computed optional =>
    .member .start object.unplaced property.unplaced computed optional
  | .slice _ object start stop =>
    .slice .start object.unplaced (Unplaced.expr? start) (Unplaced.expr? stop)
  | .sliceAssign _ object start stop value =>
    .sliceAssign .start object.unplaced (Unplaced.expr? start) (Unplaced.expr? stop) value.unplaced
  | .unary _ op e => .unary .start op e.unplaced
  | .update _ op before e => .update .start op before e.unplaced
  | .binary _ op l r => .binary .start op l.unplaced r.unplaced
  | .conditional _ test yes no =>
    .conditional .start test.unplaced yes.unplaced no.unplaced
  | .assign _ op target value => .assign .start op target.unplaced value.unplaced
  | .declare _ target value => .declare .start target.unplaced value.unplaced
  | .arrayPattern _ es => .arrayPattern .start (Unplaced.patternElements es)
  | .objectPattern _ ps => .objectPattern .start (Unplaced.patternProperties ps)
  | .jsxElement _ name attrs children selfClosing =>
    .jsxElement .start name (Unplaced.attributes attrs) (Unplaced.exprs children) selfClosing
  | .jsxFragment _ children => .jsxFragment .start (Unplaced.exprs children)
  | .jsxText _ value => .jsxText .start value
  | .jsxExpression _ e => .jsxExpression .start e.unplaced

def Unplaced.expr? : Option Expr → Option Expr
  | some e => some e.unplaced
  | none => none

def Unplaced.exprs : List Expr → List Expr
  | [] => []
  | e :: es => e.unplaced :: Unplaced.exprs es

def Unplaced.property : Property → Property
  | .spread _ value => .spread .start value.unplaced
  | .named _ key value => .named .start key.unplaced value.unplaced
  | .shorthand _ key => .shorthand .start key.unplaced
  | .computed _ key value => .computed .start (Unplaced.expr? key) (Unplaced.expr? value)

def Unplaced.properties : List Property → List Property
  | [] => []
  | p :: ps => Unplaced.property p :: Unplaced.properties ps

def Unplaced.param : Param → Param
  | .name _ name default => .name .start name (Unplaced.expr? default)
  | .pattern _ target default => .pattern .start target.unplaced (Unplaced.expr? default)
  | .rest _ name => .rest .start name

def Unplaced.params : List Param → List Param
  | [] => []
  | p :: ps => Unplaced.param p :: Unplaced.params ps

def Unplaced.patternElement : PatternElement → PatternElement
  | .item _ target default => .item .start target.unplaced (Unplaced.expr? default)
  | .rest _ target => .rest .start target.unplaced

def Unplaced.patternElements : List PatternElement → List PatternElement
  | [] => []
  | e :: es => Unplaced.patternElement e :: Unplaced.patternElements es

def Unplaced.patternProperty : PatternProperty → PatternProperty
  | .named _ key target default =>
    .named .start key.unplaced target.unplaced (Unplaced.expr? default)
  | .shorthand _ key default => .shorthand .start key.unplaced (Unplaced.expr? default)
  | .rest _ target => .rest .start target.unplaced

def Unplaced.patternProperties : List PatternProperty → List PatternProperty
  | [] => []
  | p :: ps => Unplaced.patternProperty p :: Unplaced.patternProperties ps

def Unplaced.attr : Attribute → Attribute
  | .flag _ name => .flag .start name
  | .string _ name literal => .string .start name literal
  | .value _ name value => .value .start name value.unplaced
  | .spread _ value => .spread .start value.unplaced

def Unplaced.attributes : List Attribute → List Attribute
  | [] => []
  | a :: as => Unplaced.attr a :: Unplaced.attributes as

def Unplaced.stmt : Stmt → Stmt
  | .bad _ => .bad .start
  | .expression _ modifier e => .expression .start modifier e.unplaced
  | .return _ modifier argument => .return .start modifier (Unplaced.expr? argument)
  | .modifierBlock _ modifier _ body => .modifierBlock .start modifier .start (Unplaced.stmts body)
  | .exportDefault _ e => .exportDefault .start e.unplaced
  | .exportNames _ names => .exportNames .start names
  | .exportDeclaration _ _ modifier e => .exportDeclaration .start .start modifier e.unplaced
  | .importNames _ default names source => .importNames .start default names source.unplaced
  | .importNamespace _ name source => .importNamespace .start name source.unplaced

def Unplaced.stmts : List Stmt → List Stmt
  | [] => []
  | s :: ss => Unplaced.stmt s :: Unplaced.stmts ss

end

theorem Unplaced.exprs_eq_map (es : List Expr) : exprs es = es.map Expr.unplaced :=
  eq_map_of_cons (by rw [exprs]) (fun _ _ => by rw [exprs]) es

theorem Unplaced.params_eq_map (ps : List Param) : params ps = ps.map param :=
  eq_map_of_cons (by rw [params]) (fun _ _ => by rw [params]) ps

theorem Expr.isBad_of_unplaced_eq {e e' : Expr} (h : e'.unplaced = e.unplaced) :
    e'.isBad = e.isBad := by
  have hbad : ∀ e : Expr, e.unplaced.isBad = e.isBad := by
    intro e
    cases e <;> rw [Expr.unplaced] <;> rfl
  rw [← hbad e', h, hbad e]

/-! ## 2. Sizes -/

def Node.isExpr : Node → Bool
  | .expr _ _ _ => true
  | _ => false

/-- The number of expressions in an expression, itself included. -/
def Expr.size (e : Expr) : Nat := (Preorder.expr e).countP Node.isExpr

namespace Expr

/-- The number of expressions in a list of expressions. -/
def sizes (es : List Expr) : Nat := (Preorder.exprs es).countP Node.isExpr

variable {p : Position}

theorem size_le_sizes {e : Expr} {es : List Expr} (h : e ∈ es) : e.size ≤ sizes es := by
  induction es with
  | nil => cases h
  | cons e' es ih =>
    have hsizes : sizes (e' :: es) = e'.size + sizes es := by
      rw [sizes, Preorder.exprs, List.countP_append]
      rfl
    rw [hsizes]
    rcases List.mem_cons.mp h with rfl | h
    · exact Nat.le_add_right _ _
    · exact Nat.le_trans (ih h) (Nat.le_add_left _ _)

@[simp] theorem size_array (es : List Expr) : (array p es).size = sizes es + 1 :=
  List.countP_cons_of_pos rfl

@[simp] theorem size_call (callee : Expr) (args : List Expr) (optional : Bool) :
    (call p callee args optional).size = callee.size + sizes args + 1 := by
  rw [size, size, sizes, ← List.countP_append]
  exact List.countP_cons_of_pos rfl

@[simp] theorem size_member (object property : Expr) (computed optional : Bool) :
    (member p object property computed optional).size = object.size + property.size + 1 := by
  rw [size, size, size, ← List.countP_append]
  exact List.countP_cons_of_pos rfl

@[simp] theorem size_unary (op : UnaryOp) (e : Expr) : (unary p op e).size = e.size + 1 :=
  List.countP_cons_of_pos rfl

@[simp] theorem size_binary (op : BinaryOp) (l r : Expr) :
    (binary p op l r).size = l.size + r.size + 1 := by
  rw [size, size, size, ← List.countP_append]
  exact List.countP_cons_of_pos rfl

@[simp] theorem size_conditional (test yes no : Expr) :
    (conditional p test yes no).size = test.size + yes.size + no.size + 1 := by
  rw [size, size, size, size, ← List.countP_append, ← List.countP_append]
  exact List.countP_cons_of_pos rfl

theorem size_arrow_gt (ps : List Param) (body : Expr) : body.size < (arrow p ps body).size := by
  have hsize : (arrow p ps body).size =
      (Preorder.params ps ++ Preorder.expr body).countP Node.isExpr + 1 :=
    List.countP_cons_of_pos rfl
  rw [hsize, List.countP_append, ← size]
  omega

theorem size_pos (e : Expr) : 0 < e.size := by
  cases e <;> exact Nat.lt_of_lt_of_eq (Nat.succ_pos _) (List.countP_cons_of_pos rfl).symm

end Expr

end ReactiveScript
