import ReactiveScript.Syntax.Check
import ReactiveScript.Syntax.Children
import ReactiveScript.Syntax.Template

/-!
# Well-formed trees

The shape of the tree of an accepted source, as a test that can be run on any tree.

* nothing in it is `bad`;
* a template has one more literal part than it has holes;
* a rest parameter, element or property stands last;
* a computed property has its key and its value;
* a declaration binds a name or a pattern; an assignment changes a name, a member or, if it is
  plain, a pattern;
* the property of a member that is not computed is a name;
* the source of an import is a string, and what an export declares is a declaration or a plain
  assignment to a name.

That a function has one body, and that an assignment to a slice holds a slice, is built into the
type of trees.
-/

namespace ReactiveScript

/-- What is done to the members of a list one by one. -/
theorem eq_map_of_cons {α β : Type} {one : α → β} {all : List α → List β} (hnil : all [] = [])
    (hcons : ∀ a as, all (a :: as) = one a :: all as) (as : List α) : all as = as.map one := by
  induction as with
  | nil => exact hnil
  | cons a as ih => rw [hcons, ih, List.map_cons]

/-- What is gathered from the members of a list in order. -/
theorem eq_flatMap_of_cons {α β : Type} {one : α → List β} {all : List α → List β}
    (hnil : all [] = []) (hcons : ∀ a as, all (a :: as) = one a ++ all as) (as : List α) :
    all as = as.flatMap one := by
  induction as with
  | nil => exact hnil
  | cons a as ih => rw [hcons, ih, List.flatMap_cons]

/-! ## 1. Small questions -/

namespace Expr

def isName : Expr → Bool
  | .identifier _ _ => true
  | _ => false

def isMember : Expr → Bool
  | .member _ _ _ _ _ => true
  | _ => false

def isString : Expr → Bool
  | .string _ _ _ => true
  | _ => false

/-- May a declaration, a parameter or a part of a pattern bind this? -/
def isBindable (e : Expr) : Bool := e.isName || e.isPattern

/-- May an assignment with this operator change this? -/
def isAssignable (op : AssignOp) (e : Expr) : Bool :=
  e.isName || e.isMember || (e.isPattern && op = .plain)

end Expr

/-- The node in a slot, if there is one. -/
def Slot.nodes : Slot → List Expr
  | .node _ e => [e]
  | .text _ | .comment _ => []

def Param.isRest : Param → Bool
  | .rest _ _ => true
  | _ => false

def PatternElement.isRest : PatternElement → Bool
  | .rest _ _ => true
  | _ => false

def PatternProperty.isRest : PatternProperty → Bool
  | .rest _ _ => true
  | _ => false

/-- Does a rest stand last, if there is one? -/
def restStandsLast {α : Type} (isRest : α → Bool) (items : List α) : Bool :=
  items.dropLast.all fun a => !isRest a

/-! ## 2. The test -/

namespace WellFormed

mutual

/-- Is this the tree of an accepted expression? -/
def expr : Expr → Bool
  | .bad _ => false
  | .identifier _ _ | .number _ _ | .string _ _ _ | .boolean _ _ | .null _ | .jsxText _ _ => true
  | .template _ quasis es => decide (quasis.length = es.length + 1) && exprs es
  | .tagged _ tag _ quasis es =>
    expr tag && decide (quasis.length = es.length + 1) && exprs es
  | .array _ es => exprs es
  | .object _ ps => properties ps
  | .spread _ e => expr e
  | .arrow _ ps body => restStandsLast Param.isRest ps && params ps && expr body
  | .arrowBlock _ ps _ body => restStandsLast Param.isRest ps && params ps && stmts body
  | .call _ callee args _ => expr callee && exprs args
  | .member _ object property computed _ =>
    expr object && expr property && (computed || property.isName)
  | .slice _ object start stop => expr object && expr? start && expr? stop
  | .sliceAssign _ object start stop value =>
    expr object && expr? start && expr? stop && expr value
  | .unary _ _ e => expr e
  | .update _ _ _ e => expr e
  | .binary _ _ l r => expr l && expr r
  | .conditional _ test yes no => expr test && expr yes && expr no
  | .assign _ op target value => target.isAssignable op && expr target && expr value
  | .declare _ target value => target.isBindable && expr target && expr value
  | .arrayPattern _ es => restStandsLast PatternElement.isRest es && patternElements es
  | .objectPattern _ ps => restStandsLast PatternProperty.isRest ps && patternProperties ps
  | .jsxElement _ _ attrs children _ => attributes attrs && exprs children
  | .jsxFragment _ children => exprs children
  | .jsxExpression _ e => expr e

def expr? : Option Expr → Bool
  | some e => expr e
  | none => true

def exprs : List Expr → Bool
  | [] => true
  | e :: es => expr e && exprs es

def property : Property → Bool
  | .spread _ value => expr value
  | .named _ key value => expr key && expr value
  | .shorthand _ key => expr key
  | .computed _ key value => key.isSome && value.isSome && expr? key && expr? value

def properties : List Property → Bool
  | [] => true
  | p :: ps => property p && properties ps

def param : Param → Bool
  | .name _ _ default => expr? default
  | .pattern _ target default => target.isPattern && expr target && expr? default
  | .rest _ _ => true

def params : List Param → Bool
  | [] => true
  | p :: ps => param p && params ps

def patternElement : PatternElement → Bool
  | .item _ target default => target.isBindable && expr target && expr? default
  | .rest _ target => target.isBindable && expr target

def patternElements : List PatternElement → Bool
  | [] => true
  | e :: es => patternElement e && patternElements es

def patternProperty : PatternProperty → Bool
  | .named _ key target default => expr key && target.isBindable && expr target && expr? default
  | .shorthand _ key default => key.isName && expr key && expr? default
  | .rest _ target => target.isName && expr target

def patternProperties : List PatternProperty → Bool
  | [] => true
  | p :: ps => patternProperty p && patternProperties ps

def attr : Attribute → Bool
  | .flag _ _ | .string _ _ _ => true
  | .value _ _ value => expr value
  | .spread _ value => expr value

def attributes : List Attribute → Bool
  | [] => true
  | a :: as => attr a && attributes as

/-- Is this the tree of an accepted statement? -/
def stmt : Stmt → Bool
  | .bad _ => false
  | .expression _ _ e => expr e
  | .return _ _ argument => expr? argument
  | .modifierBlock _ _ _ body => stmts body
  | .exportDefault _ e => expr e
  | .exportNames _ _ => true
  | .exportDeclaration _ _ _ e => e.declares && expr e
  | .importNames _ _ _ source => source.isString && expr source
  | .importNamespace _ _ source => source.isString && expr source

def stmts : List Stmt → Bool
  | [] => true
  | s :: ss => stmt s && stmts ss

end

/-- Is this the tree of an accepted program? -/
def program (p : Program) : Bool := stmts p.body

/-! ## 3. Lists -/

/-- A test of a list that tests its members one by one. -/
theorem iff_forall_of_cons {α : Type} {one : α → Bool} {all : List α → Bool} (hnil : all [] = true)
    (hcons : ∀ a as, all (a :: as) = (one a && all as)) (as : List α) :
    all as = true ↔ ∀ a ∈ as, one a = true := by
  induction as with
  | nil => simp [hnil]
  | cons a as ih => rw [hcons, Bool.and_eq_true, ih, List.forall_mem_cons]

theorem exprs_iff {es : List Expr} : exprs es = true ↔ ∀ e ∈ es, expr e = true :=
  iff_forall_of_cons (by rw [exprs]) (fun _ _ => by rw [exprs]) es

theorem properties_iff {ps : List Property} :
    properties ps = true ↔ ∀ p ∈ ps, property p = true :=
  iff_forall_of_cons (by rw [properties]) (fun _ _ => by rw [properties]) ps

theorem params_iff {ps : List Param} : params ps = true ↔ ∀ p ∈ ps, param p = true :=
  iff_forall_of_cons (by rw [params]) (fun _ _ => by rw [params]) ps

theorem patternElements_iff {es : List PatternElement} :
    patternElements es = true ↔ ∀ e ∈ es, patternElement e = true :=
  iff_forall_of_cons (by rw [patternElements]) (fun _ _ => by rw [patternElements]) es

theorem patternProperties_iff {ps : List PatternProperty} :
    patternProperties ps = true ↔ ∀ p ∈ ps, patternProperty p = true :=
  iff_forall_of_cons (by rw [patternProperties]) (fun _ _ => by rw [patternProperties]) ps

theorem attributes_iff {as : List Attribute} :
    attributes as = true ↔ ∀ a ∈ as, attr a = true :=
  iff_forall_of_cons (by rw [attributes]) (fun _ _ => by rw [attributes]) as

theorem stmts_iff {ss : List Stmt} : stmts ss = true ↔ ∀ s ∈ ss, stmt s = true :=
  iff_forall_of_cons (by rw [stmts]) (fun _ _ => by rw [stmts]) ss

/-! ## 4. Rules beyond the grammar -/

/-- Where no misplaced rest is reported, none is misplaced. -/
theorem restStandsLast_of_restLast {α : Type} {rest? : α → Option Position} {isRest : α → Bool}
    (hrest : ∀ a, isRest a = (rest? a).isSome) {items : List α}
    (h : Check.restLast rest? items = []) : restStandsLast isRest items = true := by
  simp only [Check.restLast, List.map_eq_nil_iff, List.filterMap_eq_nil_iff] at h
  simp only [restStandsLast, List.all_eq_true]
  intro a ha
  rw [hrest, h a ha]
  rfl

theorem isRest_param (p : Param) : p.isRest = (Check.restParam? p).isSome := by
  cases p <;> rfl

theorem isRest_patternElement (e : PatternElement) : e.isRest = (Check.restElement? e).isSome := by
  cases e <;> rfl

theorem isRest_patternProperty (p : PatternProperty) :
    p.isRest = (Check.restProperty? p).isSome := by
  cases p <;> rfl

/-- A computed property that is not reported has its key and its value. -/
theorem computed_complete {ps : List Property} (h : Check.computedComplete ps = []) {p : Position}
    {key value : Option Expr} (hmem : .computed p key value ∈ ps) :
    key.isSome = true ∧ value.isSome = true := by
  simp only [Check.computedComplete, List.map_eq_nil_iff, List.filterMap_eq_nil_iff] at h
  have hnone := h _ hmem
  cases key <;> cases value <;> simp_all [Check.incomplete?]

end WellFormed

/-! ## 5. Children -/

namespace Children

section
variable {P : Expr → Prop} (htext : ∀ p v, P (.jsxText p v))
include htext

/-- What a child is joined to was a child before, or is text. -/
theorem forall_push {children : List Expr} {node : Expr} (hc : ∀ e ∈ children, P e)
    (hn : P node) : ∀ e ∈ push children node, P e := by
  unfold push
  split
  · intro e he
    rcases List.mem_cons.mp he with rfl | he
    · exact htext _ _
    · exact hc e (List.mem_cons_of_mem _ he)
  · intro e he
    rcases List.mem_cons.mp he with rfl | he
    · exact hn
    · exact hc e he

theorem forall_foldl_push {nodes : List Expr} (hn : ∀ e ∈ nodes, P e) :
    ∀ {children : List Expr}, (∀ e ∈ children, P e) → ∀ e ∈ nodes.foldl push children, P e := by
  induction nodes with
  | nil => exact fun hc => hc
  | cons node nodes ih =>
    intro children hc
    refine ih (fun e he => hn e (List.mem_cons_of_mem _ he)) ?_
    exact forall_push htext hc (hn node List.mem_cons_self)

theorem forall_join (lines : LineMap) (source : Text) (es : List Entry)
    (hes : ∀ entry ∈ es, ∀ e ∈ entry.node.toList, P e) :
    ∀ (before : Option Entry) (children : List Expr), (∀ e ∈ children, P e) →
      ∀ e ∈ join lines source before children es, P e := by
  induction es with
  | nil => exact fun _ _ hc e he => hc e (List.mem_reverse.mp he)
  | cons entry es ih =>
    intro before children hc
    refine ih (fun e he => hes e (List.mem_cons_of_mem _ he)) _ _
      (forall_foldl_push htext ?_ hc)
    intro e he
    rcases List.mem_append.mp he with he | he
    · -- a blank is text
      unfold blank? at he
      split at he
      · simp at he
      · dsimp only at he
        split at he <;> simp at he
        rw [he]
        exact htext _ _
    · exact hes entry List.mem_cons_self e he

/-- The children that slots leave are text, or nodes in the slots. -/
theorem forall_ofSlots (lines : LineMap) (source : Text) {ss : List Slot}
    (h : ∀ s ∈ ss, ∀ e ∈ s.nodes, P e) : ∀ e ∈ ofSlots lines source ss, P e := by
  refine forall_join htext lines source _ ?_ none [] (by simp)
  intro entry hentry
  obtain ⟨s, hs, hpiece⟩ := List.mem_filterMap.mp hentry
  cases s with
  | text span =>
    obtain ⟨bounds, -, rfl⟩ := Option.map_eq_some_iff.mp hpiece
    exact fun e he => by rw [List.mem_singleton.mp he]; exact htext _ _
  | node span e =>
    cases hpiece
    exact h _ hs
  | comment span =>
    cases hpiece
    exact fun e he => by cases he

end

end Children

end ReactiveScript
