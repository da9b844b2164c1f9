import ReactiveScript.Proofs.Syntax.Shallow
import ReactiveScript.Proofs.Syntax.WellFormed
import ReactiveScript.Script.Module

/-!
# What is found while a script is written

What is found in the script of an expression, faults or uses of the runtime, is what is found in its
parts, however they are put together, and one more fault if it is a declaration. For a statement
there are the faults of its modifier besides; but the parts of a value that cannot be handed to the
runtime are not written, so that what there is to find in them may be missing.
-/

namespace ReactiveScript

/-- The faults that can be found in a tree that was read: a declaration inside an expression, a
    modifier that there is not, and a modifier without the function that it asks for. -/
def Report.isOfWriting (x : Report) : Bool :=
  match x.fault with
  | .compile .nestedDeclaration | .compile (.unknownModifier _) | .compile (.notFunction _) => true
  | _ => false

/-- What can be found while a script is written: a fault, or that the runtime is used. -/
inductive Finding where
  | fault (x : Report)
  | runtime

/-- Was this found while the piece was written? -/
def Code.Shows (c : Code) : Finding → Prop
  | .fault x => x ∈ c.faults
  | .runtime => c.usesRuntime = true

/-! ## 1. Pieces put together -/

namespace Code

@[simp] theorem text_empty : ({} : Code).text = [] := rfl

@[simp] theorem faults_empty : ({} : Code).faults = [] := rfl

@[simp] theorem faults_parenthesized (c : Code) : c.parenthesized.faults = c.faults := by
  simp [parenthesized]

@[simp] theorem faults_parenthesizedIf (needed : Bool) (c : Code) :
    (c.parenthesizedIf needed).faults = c.faults := by
  cases needed
  · rfl
  · exact faults_parenthesized c

@[simp] theorem faults_noBraceFirst (c : Code) : c.noBraceFirst.faults = c.faults :=
  faults_parenthesizedIf _ c

@[simp] theorem faults_withRuntime (used : Bool) (c : Code) : (c.withRuntime used).faults = c.faults :=
  rfl

section
variable {f : Finding} {a b c : Code}

@[simp] theorem shows_append : (a ++ b).Shows f ↔ a.Shows f ∨ b.Shows f := by
  cases f <;> simp [Shows]

@[simp] theorem not_shows_plain {t : Text} : ¬ (plain t).Shows f := by
  cases f <;> simp [Shows, plain]

@[simp] theorem not_shows_lit {t : String} : ¬ (lit t).Shows f := not_shows_plain

@[simp] theorem not_shows_empty : ¬ ({} : Code).Shows f := not_shows_plain (t := [])

@[simp] theorem shows_fault {g : CompileFault} {p : Position} :
    (fault g p).Shows f ↔ f = .fault ⟨.compile g, p⟩ := by
  cases f <;> simp [Shows, fault]

@[simp] theorem not_shows_bare : ¬ c.bare.Shows f := by
  cases f <;> simp [Shows, bare]

@[simp] theorem shows_findings : c.findings.Shows f ↔ c.Shows f := by
  cases f <;> rfl

@[simp] theorem shows_parenthesized : c.parenthesized.Shows f ↔ c.Shows f := by
  simp [parenthesized]

@[simp] theorem shows_parenthesizedIf {needed : Bool} :
    (c.parenthesizedIf needed).Shows f ↔ c.Shows f := by
  cases needed
  · rfl
  · exact shows_parenthesized

@[simp] theorem shows_noBraceFirst : c.noBraceFirst.Shows f ↔ c.Shows f :=
  shows_parenthesizedIf

/-- Nothing is found in separators. -/
@[simp] theorem shows_join {sep : String} {cs : List Code} :
    (join sep cs).Shows f ↔ ∃ c ∈ cs, c.Shows f := by
  induction cs with
  | nil => simp [join]
  | cons c cs ih =>
    cases cs with
    | nil => simp [join]
    | cons c' cs => simp [join, ih]

@[simp] theorem shows_braced {cs : List Code} : (braced cs).Shows f ↔ ∃ c ∈ cs, c.Shows f := by
  cases cs with
  | nil => simp [braced]
  | cons c cs => simp [braced]

end

theorem mem_faults_join {x : Report} {sep : String} {cs : List Code} :
    x ∈ (join sep cs).faults ↔ ∃ c ∈ cs, x ∈ c.faults := shows_join (f := .fault x)

end Code

namespace Script

@[simp] theorem faults_atLevel (least : Nat) (e : Expr) (c : Code) :
    (atLevel least e c).faults = c.faults := Code.faults_parenthesizedIf _ c

@[simp] theorem faults_functionBody (e : Expr) (c : Code) : (functionBody e c).faults = c.faults := by
  simp [functionBody]

section
variable {f : Finding} {e l r : Expr} {c left right : Code}

@[simp] theorem shows_atLevel {least : Nat} : (atLevel least e c).Shows f ↔ c.Shows f :=
  Code.shows_parenthesizedIf

@[simp] theorem shows_functionBody : (functionBody e c).Shows f ↔ c.Shows f := by
  simp [functionBody]

@[simp] theorem shows_line {d : Nat} : (line d c).Shows f ↔ c.Shows f := by
  simp [line]

@[simp] theorem shows_bound {word : String} {t value : Code} :
    (bound word e t value).Shows f ↔ value.Shows f ∨ t.Shows f := by
  simp [bound]

@[simp] theorem shows_memberObject {computed : Bool} :
    (memberObject e computed c).Shows f ↔ c.Shows f := by
  unfold memberObject
  cases e <;> simp

@[simp] theorem shows_unary {op : UnaryOp} : (unary op c).Shows f ↔ c.Shows f := by
  unfold unary
  dsimp only
  split <;> simp

@[simp] theorem shows_binary {op : BinaryOp} :
    (binary op l r left right).Shows f ↔ left.Shows f ∨ right.Shows f := by
  cases op <;> simp [binary, or_comm]

@[simp] theorem shows_member {computed optional : Bool} :
    (member l r computed optional left right).Shows f ↔ left.Shows f ∨ right.Shows f := by
  cases computed <;> simp [member]

@[simp] theorem shows_call {optional : Bool} {args : List Code} :
    (call e optional c args).Shows f ↔ c.Shows f ∨ ∃ a ∈ args, a.Shows f := by
  simp [call, or_comm]

end

/-! ## 2. Parts of expressions -/

section
variable {o : Options} {d : Nat} {f : Finding} {es : List Expr}

theorem items_eq_map (o : Options) (d : Nat) (es : List Expr) :
    items o d es = es.map fun e => atLevel Level.assignment e (emit o d e) :=
  eq_map_of_cons (by rw [items]) (fun _ _ => by rw [items]) es

theorem params_eq_map (o : Options) (d : Nat) (ps : List Param) :
    params o d ps = ps.map (param o d) :=
  eq_map_of_cons (by rw [params]) (fun _ _ => by rw [params]) ps

theorem properties_eq_map (o : Options) (d : Nat) (ps : List Property) :
    properties o d ps = ps.map (property o d) :=
  eq_map_of_cons (by rw [properties]) (fun _ _ => by rw [properties]) ps

theorem patternElements_eq_map (o : Options) (d : Nat) (es : List PatternElement) :
    patternElements o d es = es.map (patternElement o d) :=
  eq_map_of_cons (by rw [patternElements]) (fun _ _ => by rw [patternElements]) es

theorem patternProperties_eq_map (o : Options) (d : Nat) (ps : List PatternProperty) :
    patternProperties o d ps = ps.map (patternProperty o d) :=
  eq_map_of_cons (by rw [patternProperties]) (fun _ _ => by rw [patternProperties]) ps

theorem exists_mem_map_iff {α β : Type} {g : α → β} {P : β → Prop} {as : List α} :
    (∃ b ∈ as.map g, P b) ↔ ∃ a ∈ as, P (g a) := by
  constructor
  · rintro ⟨b, hb, h⟩
    obtain ⟨a, ha, rfl⟩ := List.mem_map.mp hb
    exact ⟨a, ha, h⟩
  · rintro ⟨a, ha, h⟩
    exact ⟨g a, List.mem_map_of_mem ha, h⟩

/-- What is found in items that are written one by one is found in their parts. -/
theorem exists_mem_map {α : Type} {item : α → Code} {parts : α → List Expr}
    (h : ∀ a, (item a).Shows f ↔ ∃ e ∈ parts a, (emit o d e).Shows f) (as : List α) :
    (∃ c ∈ as.map item, c.Shows f) ↔ ∃ e ∈ as.flatMap parts, (emit o d e).Shows f := by
  rw [exists_mem_map_iff]
  simp only [h, List.mem_flatMap]
  grind

theorem exists_mem_items : (∃ c ∈ items o d es, c.Shows f) ↔ ∃ e ∈ es, (emit o d e).Shows f := by
  have hone (e : Expr) : (atLevel Level.assignment e (emit o d e)).Shows f ↔
      ∃ e' ∈ [e], (emit o d e').Shows f := by simp
  rw [items_eq_map, exists_mem_map hone, List.flatMap_singleton']

/-- What is found in an optional expression. -/
theorem shows_item? {e : Option Expr} :
    (item? o d e).Shows f ↔ ∃ e' ∈ e.toList, (emit o d e').Shows f := by
  cases e <;> simp [item?]

theorem shows_defaultValue {e : Option Expr} :
    (defaultValue o d e).Shows f ↔ ∃ e' ∈ e.toList, (emit o d e').Shows f := by
  cases e <;> simp [defaultValue]

theorem shows_property {p : Property} :
    (property o d p).Shows f ↔ ∃ e ∈ p.parts, (emit o d e).Shows f := by
  cases p <;> simp [property, Property.parts, shows_item?, or_and_right, exists_or]

theorem exists_mem_properties {ps : List Property} :
    (∃ c ∈ properties o d ps, c.Shows f) ↔
      ∃ e ∈ ps.flatMap Property.parts, (emit o d e).Shows f := by
  rw [properties_eq_map, exists_mem_map fun _ => shows_property]

theorem shows_param {p : Param} :
    (param o d p).Shows f ↔ ∃ e ∈ p.parts, (emit o d e).Shows f := by
  cases p <;> simp [param, Param.parts, shows_defaultValue]

theorem exists_mem_params {ps : List Param} :
    (∃ c ∈ params o d ps, c.Shows f) ↔ ∃ e ∈ ps.flatMap Param.parts, (emit o d e).Shows f := by
  rw [params_eq_map, exists_mem_map fun _ => shows_param]

theorem shows_patternElement {p : PatternElement} :
    (patternElement o d p).Shows f ↔ ∃ e ∈ p.parts, (emit o d e).Shows f := by
  cases p <;> simp [patternElement, PatternElement.parts, shows_defaultValue]

theorem exists_mem_patternElements {es : List PatternElement} :
    (∃ c ∈ patternElements o d es, c.Shows f) ↔
      ∃ e ∈ es.flatMap PatternElement.parts, (emit o d e).Shows f := by
  rw [patternElements_eq_map, exists_mem_map fun _ => shows_patternElement]

theorem shows_patternProperty {p : PatternProperty} :
    (patternProperty o d p).Shows f ↔ ∃ e ∈ p.parts, (emit o d e).Shows f := by
  cases p <;> simp [patternProperty, PatternProperty.parts, shows_defaultValue, or_assoc]

theorem exists_mem_patternProperties {ps : List PatternProperty} :
    (∃ c ∈ patternProperties o d ps, c.Shows f) ↔
      ∃ e ∈ ps.flatMap PatternProperty.parts, (emit o d e).Shows f := by
  rw [patternProperties_eq_map, exists_mem_map fun _ => shows_patternProperty]

theorem shows_attr {a : Attribute} :
    (attr o d a).Shows f ↔ ∃ e ∈ a.parts, (emit o d e).Shows f := by
  cases a <;> simp [attr, Attribute.parts]

theorem shows_attributes {as : List Attribute} :
    (attributes o d as).Shows f ↔ ∃ e ∈ as.flatMap Attribute.parts, (emit o d e).Shows f := by
  induction as with
  | nil => simp [attributes]
  | cons a as ih =>
    rw [attributes, Code.shows_append, shows_attr, ih, List.flatMap_cons]
    simp only [List.mem_append, or_and_right, exists_or]

theorem shows_childrenCode : (childrenCode o d es).Shows f ↔ ∃ e ∈ es, (emit o d e).Shows f := by
  induction es with
  | nil => simp [childrenCode]
  | cons e es ih => simp [childrenCode, ih]

/-- All holes of a template are written if there are literal parts around them. -/
theorem shows_template {quasis : List Quasi} (h : es.length < quasis.length) :
    (template o d quasis es).Shows f ↔ ∃ e ∈ es, (emit o d e).Shows f := by
  induction es generalizing quasis with
  | nil => simp [template]
  | cons e es ih =>
    cases quasis with
    | nil => cases h
    | cons q quasis => simp [template, ih (Nat.lt_of_succ_lt_succ h)]

theorem shows_stmts {i : Option Text} {ss : List Stmt} :
    (stmts o d i ss).Shows f ↔ ∃ s ∈ ss, (stmt o d i s).Shows f := by
  induction ss with
  | nil => simp [stmts]
  | cons s ss ih => simp [stmts, ih]

/-- What is found in a slice is found in an assignment to it. -/
theorem shows_sliceAssign {p q : Position} {object value : Expr} {start stop : Option Expr} :
    (emit o d (.sliceAssign p object start stop value)).Shows f ↔
      (emit o d (.slice q object start stop)).Shows f ∨ (emit o d value).Shows f := by
  rw [emit, emit]
  unfold sliceAssign removed
  cases start with
  | none => cases stop <;> simp [emit?, item?]
  | some s =>
    cases stop with
    | none => simp [emit?, item?]
    | some e =>
      dsimp only
      split <;> simp_all [emit?, item?, emit]
      grind

/-- The script of a piece right below an expression: statements make up the body of a function. -/
def codeBelow (o : Options) (d : Nat) : Piece → Code
  | .expr e => emit o d e
  | .stmt s => stmt o (d + 1) none s
  | .program p => stmts o d none p.body

theorem exists_mem_ofExprs {P : Piece → Prop} :
    (∃ r ∈ Piece.ofExprs es, P r) ↔ ∃ e ∈ es, P (.expr e) := exists_mem_map_iff

theorem exists_mem_ofStmts {P : Piece → Prop} {ss : List Stmt} :
    (∃ r ∈ Piece.ofStmts ss, P r) ↔ ∃ s ∈ ss, P (.stmt s) := exists_mem_map_iff

/-- The fault of an expression itself. -/
def ownFaults : Expr → List Report
  | .declare p _ _ => [⟨.compile .nestedDeclaration, p⟩]
  | _ => []

section
attribute [local simp] emit ownFaults Expr.parts exists_mem_ofExprs codeBelow

/-- **What is found in an expression** is its own fault, or found in its parts. -/
theorem shows_emit {e : Expr} (hwf : WellFormed.expr e = true) (htidy : e.isTidy = true) :
    (emit o d e).Shows f ↔
      (∃ x ∈ ownFaults e, f = .fault x) ∨ ∃ r ∈ e.parts, (codeBelow o d r).Shows f := by
  cases e with
  | bad => cases hwf
  | identifier | number | string | boolean | null | jsxText => simp
  | template p quasis es =>
    rw [WellFormed.expr, Bool.and_eq_true, decide_eq_true_eq] at hwf
    have hquasis : es.length < quasis.length := by omega
    simp [shows_template hquasis]
  | tagged p tag q quasis es =>
    simp only [WellFormed.expr, Bool.and_eq_true, decide_eq_true_eq] at hwf
    have hquasis : es.length < quasis.length := by omega
    simp [shows_template hquasis]
  | array | call => simp [exists_mem_items]
  | object => simp [exists_mem_properties]
  | arrayPattern => simp [exists_mem_patternElements]
  | objectPattern => simp [exists_mem_patternProperties]
  | arrow p ps body =>
    simp only [emit, ownFaults, Expr.parts, exists_mem_ofExprs, codeBelow, Code.shows_append,
      Code.not_shows_lit, Code.shows_join, exists_mem_params]
    simp [or_and_right, exists_or]
  | arrowBlock p ps q body =>
    simp only [emit, ownFaults, Expr.parts, List.mem_append, or_and_right, exists_or,
      exists_mem_ofExprs, exists_mem_ofStmts, codeBelow, Code.shows_append, Code.not_shows_lit,
      Code.shows_join, exists_mem_params, ← shows_stmts]
    cases body <;> simp [stmts]
  | sliceAssign p object start stop value =>
    rw [shows_sliceAssign (q := p)]
    simp
  | slice p object start stop =>
    cases start <;> cases stop <;> simp [item?, or_assoc]
  | jsxElement p name attrs children selfClosing =>
    rw [Expr.isTidy, Bool.or_eq_true, Bool.not_eq_true', List.isEmpty_iff] at htidy
    simp only [emit, ownFaults, Expr.parts, List.mem_append, or_and_right, exists_or,
      exists_mem_ofExprs, codeBelow, ← shows_attributes, ← shows_childrenCode]
    rcases htidy with rfl | rfl
    · simp
    · cases selfClosing <;> simp [childrenCode]
  | jsxFragment => simp [shows_childrenCode]
  | update p op before e => cases before <;> simp
  | declare | spread | unary | binary | conditional | assign | member | jsxExpression =>
    simp [or_assoc]

end

/-- What is not found in a piece of code is not found in a piece of it. -/
theorem faults_eq_nil_of_shows {a b : Code} (h : ∀ f, a.Shows f → b.Shows f) (hb : b.faults = []) :
    a.faults = [] := by
  rw [List.eq_nil_iff_forall_not_mem] at hb ⊢
  exact fun x hx => hb x (h (.fault x) hx)

end

/-! ## 3. Values that are handed to the runtime -/

section
variable {o : Options} {m : Text} {p : Position} {value : Expr} {c : Code}

/-- What stands against a value under a modifier: there is no such modifier, or the value is not the
    function that the modifier asks for. -/
def refusal? (m : Text) (p : Position) (value : Option Expr) : Option Report :=
  match Modifier.ofName? m, value with
  | none, _ => some ⟨.compile (.unknownModifier m), p⟩
  | some .mutate, some v =>
    if v.isArrow then none else some ⟨.compile (.notFunction Modifier.mutate.name), v.pos⟩
  | some _, _ => none

theorem refusal?_eq_none {v : Option Expr} :
    refusal? m p v = none ↔ (Modifier.ofName? m).isSome = true ∧
      (Modifier.ofName? m = some .mutate → ∀ e, v = some e → e.isArrow = true) := by
  unfold refusal?
  cases Modifier.ofName? m with
  | none => simp
  | some k => cases k <;> cases v <;> simp

/-- A value that is refused is not written at all. -/
theorem faults_runtimeCall :
    (runtimeCall o m p value c).faults =
      (refusal? m p (some value)).elim c.faults fun x => [x] := by
  unfold runtimeCall refusal?
  cases Modifier.ofName? m with
  | none => rfl
  | some k =>
    cases k with
    | state | computed | react => simp [Modifier.shape]
    | mutate => cases harrow : value.isArrow <;> simp [Modifier.shape, Code.fault, harrow]

/-- A value that is not refused is handed to the runtime. -/
theorem shows_runtimeCall {f : Finding} (h : refusal? m p (some value) = none) :
    (runtimeCall o m p value c).Shows f ↔ f = .runtime ∨ c.Shows f := by
  cases f with
  | fault x => simp [Code.Shows, faults_runtimeCall, h]
  | runtime =>
    obtain ⟨k, hk⟩ := Option.isSome_iff_exists.mp (refusal?_eq_none.mp h).1
    have hused : (runtimeCall o m p value c).usesRuntime = true := by
      rw [runtimeCall, hk]
      cases k <;> rfl
    exact iff_of_true hused (.inl rfl)

end

/-! ## 4. Statements -/

section
variable {o : Options} {d : Nat} {inherited own : Option Text} {p q : Position} {e : Expr}
  {f : Finding}

/-- The target and the value that an expression statement writes apart. -/
def sides? : Expr → Option (Expr × Expr)
  | .declare _ target value | .assign _ .plain target value => some (target, value)
  | _ => none

/-- The modifier that a statement inherits may as well be its own. -/
theorem stmt_expression_or :
    stmt o d inherited (.expression p own e) =
      stmt o d none (.expression p (own.or inherited) e) := by
  cases own <;> cases inherited <;> rfl

/-- Of a declaration or a plain assignment, the value alone is handed to the runtime. -/
theorem shows_binding {target value : Expr} (he : sides? e = some (target, value)) :
    (stmt o d inherited (.expression p own e)).Shows f ↔
      (modified o (own.or inherited) p value (emit o d value)).Shows f ∨
        (emit o d target).Shows f := by
  rw [stmt_expression_or]
  cases e with
  | declare r t v =>
    cases he
    rw [stmt]
    simp
  | assign r op t v =>
    cases op with
    | plain =>
      cases he
      cases own.or inherited with
      | none =>
        show (line d ((emit o d (.assign r .plain target value)).noBraceFirst ++ _)).Shows f ↔ _
        simp [modified, emit, or_comm]
      | some m =>
        show (line d ((bound "" target (emit o d target)
          (runtimeCall o m p value (emit o d value))).noBraceFirst ++ _)).Shows f ↔ _
        simp [modified]
    | compound op => cases he
  | _ => cases he

/-- Any other expression is handed to the runtime as a whole. -/
theorem stmt_expression (he : sides? e = none) :
    stmt o d inherited (.expression p own e) =
      match own.or inherited with
      | some m => line d (runtimeCall o m p e (emit o d e) ++ .lit ";")
      | none => line d ((emit o d e).noBraceFirst ++ .lit ";") := by
  rw [stmt_expression_or]
  cases e with
  | declare => cases he
  | assign r op t v =>
    cases op with
    | plain => cases he
    | compound op => cases own.or inherited <;> rfl
  | _ => cases own.or inherited <;> rfl

theorem shows_expression (he : sides? e = none) :
    (stmt o d inherited (.expression p own e)).Shows f ↔
      (modified o (own.or inherited) p e (emit o d e)).Shows f := by
  rw [stmt_expression he]
  cases own.or inherited <;> simp [modified]

/-- What is written for a return without a value. -/
theorem stmt_return_none : stmt o d inherited (.return p own none) =
    match own.or inherited with
    | some m => (if (Modifier.ofName? m).isNone then .fault (.unknownModifier m) p else {}) ++
        line d (.lit "return;")
    | none => line d (.lit "return;") := rfl

/-- What is written for a return with a value. -/
theorem stmt_return_some : stmt o d inherited (.return p own (some e)) =
    match own.or inherited with
    | some m => line d (.lit "return " ++ runtimeCall o m p e (emit o d e) ++ .lit ";")
    | none => line d (.lit "return " ++ emit o d e ++ .lit ";") := rfl

theorem shows_return :
    (stmt o d inherited (.return p own (some e))).Shows f ↔
      (modified o (own.or inherited) p e (emit o d e)).Shows f := by
  rw [stmt_return_some]
  cases own.or inherited <;> simp [modified]

/-- What is exported is written as the declaration by itself, outside of any block. -/
theorem shows_exportDeclaration (he : e.declares = true) :
    (stmt o d inherited (.exportDeclaration p q own e)).Shows f ↔
      (stmt o d none (.expression q own e)).Shows f := by
  cases e with
  | declare r t v =>
    have hsides : sides? (.declare r t v) = some (t, v) := rfl
    rw [shows_binding hsides, stmt]
    simp
  | assign r op t v =>
    cases op with
    | plain =>
      have hsides : sides? (.assign r .plain t v) = some (t, v) := rfl
      rw [shows_binding hsides, stmt]
      simp
    | compound op => cases he
  | _ => cases he

end

/-- Nothing is found in names. -/
theorem not_shows_specifiers {f : Finding} (names : List Specifier) :
    ¬ (Code.braced (names.map specifier)).Shows f := by
  rw [Code.shows_braced]
  rintro ⟨c, hc, hx⟩
  obtain ⟨s, hs, rfl⟩ := List.mem_map.mp hc
  exact Code.not_shows_plain hx

/-- What is said of names and of a default name is true of all clauses of an import. -/
theorem forall_mem_clauses {P : Code → Prop} {default : Option Text} {names : List Specifier}
    (hdefault : ∀ name ∈ default, P (.plain name)) (hnames : P (.braced (names.map specifier))) :
    ∀ c ∈ (default.map Code.plain).toList ++
      (if names.isEmpty then [] else [Code.braced (names.map specifier)]), P c := by
  intro c hc
  rcases List.mem_append.mp hc with hc | hc
  · cases default with
    | none => cases hc
    | some name =>
      rw [List.mem_singleton.mp hc]
      exact hdefault name rfl
  · split at hc
    · cases hc
    · rw [List.mem_singleton.mp hc]
      exact hnames

theorem not_shows_importNames {f : Finding} (default : Option Text) (names : List Specifier)
    (source : Expr) : ¬ (importNames default names source).Shows f := by
  have hclauses : ∀ c ∈ (default.map Code.plain).toList ++
      (if names.isEmpty then [] else [Code.braced (names.map specifier)]), ¬ c.Shows f :=
    forall_mem_clauses (fun _ _ => Code.not_shows_plain) (not_shows_specifiers names)
  unfold importNames
  dsimp only
  generalize (default.map Code.plain).toList ++
    (if names.isEmpty then [] else [Code.braced (names.map specifier)]) = clauses at hclauses ⊢
  split
  · simp
  · simpa using hclauses

theorem faults_importNames (default : Option Text) (names : List Specifier) (source : Expr) :
    (importNames default names source).faults = [] :=
  List.eq_nil_iff_forall_not_mem.mpr fun x =>
    not_shows_importNames (f := .fault x) default names source

end Script

end ReactiveScript
