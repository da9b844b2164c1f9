import ReactiveScript.Proofs.Script.Findings
import ReactiveScript.Proofs.Syntax.Unplaced

/-!
# The script does not depend on places

Positions of nodes are used for faults only: to forget the places of a tree and to write its script
is to write the script and to forget the places of its faults. So two trees that are the same up to
places have the same script, parentheses included; parentheses that the reader has taken and has not
kept in the tree cannot come back.
-/

namespace ReactiveScript

/-! ## 1. Names -/

namespace FreeNames

/-- The names of some uses. -/
def names (us : List Use) : List Text := us.map (·.name)

@[simp] theorem names_append (us vs : List Use) : names (us ++ vs) = names us ++ names vs :=
  List.map_append

mutual

theorem names_uses_unplaced (e : Expr) : names (uses e.unplaced) = names (uses e) := by
  cases e with
  | identifier => simp [Expr.unplaced, uses, names]
  | member _ _ _ computed =>
    cases computed <;> simp [Expr.unplaced, uses, names_uses_unplaced]
  | _ =>
    simp [Expr.unplaced, uses, names_uses_unplaced, names_uses?_unplaced, names_usesAll_unplaced,
      names_propertiesUses_unplaced, names_elementsUses_unplaced,
      names_patternPropertiesUses_unplaced, names_attributesUses_unplaced]

theorem names_uses?_unplaced (e : Option Expr) :
    names (uses? (Unplaced.expr? e)) = names (uses? e) := by
  cases e <;> simp [Unplaced.expr?, uses?, names_uses_unplaced]

theorem names_usesAll_unplaced (es : List Expr) :
    names (usesAll (Unplaced.exprs es)) = names (usesAll es) := by
  cases es <;> simp [Unplaced.exprs, usesAll, names_uses_unplaced, names_usesAll_unplaced]

theorem names_propertyUses_unplaced (p : Property) :
    names (propertyUses (Unplaced.property p)) = names (propertyUses p) := by
  cases p <;> simp [Unplaced.property, propertyUses, names_uses_unplaced, names_uses?_unplaced]

theorem names_propertiesUses_unplaced (ps : List Property) :
    names (propertiesUses (Unplaced.properties ps)) = names (propertiesUses ps) := by
  cases ps <;> simp [Unplaced.properties, propertiesUses, names_propertyUses_unplaced,
    names_propertiesUses_unplaced]

theorem names_elementUses_unplaced (p : PatternElement) :
    names (elementUses (Unplaced.patternElement p)) = names (elementUses p) := by
  cases p <;> simp [Unplaced.patternElement, elementUses, names_uses_unplaced, names_uses?_unplaced]

theorem names_elementsUses_unplaced (ps : List PatternElement) :
    names (elementsUses (Unplaced.patternElements ps)) = names (elementsUses ps) := by
  cases ps <;> simp [Unplaced.patternElements, elementsUses, names_elementUses_unplaced,
    names_elementsUses_unplaced]

theorem names_patternPropertyUses_unplaced (p : PatternProperty) :
    names (patternPropertyUses (Unplaced.patternProperty p)) = names (patternPropertyUses p) := by
  cases p <;> simp [Unplaced.patternProperty, patternPropertyUses, names_uses_unplaced,
    names_uses?_unplaced]

theorem names_patternPropertiesUses_unplaced (ps : List PatternProperty) :
    names (patternPropertiesUses (Unplaced.patternProperties ps)) =
      names (patternPropertiesUses ps) := by
  cases ps <;> simp [Unplaced.patternProperties, patternPropertiesUses,
    names_patternPropertyUses_unplaced, names_patternPropertiesUses_unplaced]

theorem names_attrUses_unplaced (a : Attribute) :
    names (attrUses (Unplaced.attr a)) = names (attrUses a) := by
  cases a <;> simp [Unplaced.attr, attrUses, names_uses_unplaced]

theorem names_attributesUses_unplaced (as : List Attribute) :
    names (attributesUses (Unplaced.attributes as)) = names (attributesUses as) := by
  cases as <;> simp [Unplaced.attributes, attributesUses, names_attrUses_unplaced,
    names_attributesUses_unplaced]

end

theorem ofExpr_unplaced (e : Expr) : ofExpr e.unplaced = ofExpr e :=
  congrArg List.eraseDups (names_uses_unplaced e)

end FreeNames

/-! ## 2. Pieces -/

/-- A report whose position is forgotten. -/
def Report.unplaced (r : Report) : Report := { r with pos := .start }

/-- A piece of script with the positions of its faults forgotten. -/
def Code.unplaced (c : Code) : Code := { c with faults := c.faults.map Report.unplaced }

namespace Code

section
variable {c : Code}

@[simp] theorem text_unplaced : c.unplaced.text = c.text := rfl

@[simp] theorem usesRuntime_unplaced : c.unplaced.usesRuntime = c.usesRuntime := rfl

theorem faults_unplaced_eq_nil : c.unplaced.faults = [] ↔ c.faults = [] := List.map_eq_nil_iff

theorem unplaced_of_faults (h : c.faults = []) : c.unplaced = c := by
  rw [unplaced, h, List.map_nil, ← h]

@[simp] theorem unplaced_empty : ({} : Code).unplaced = {} := rfl

@[simp] theorem unplaced_plain (t : Text) : (plain t).unplaced = plain t := rfl

@[simp] theorem unplaced_lit (s : String) : (lit s).unplaced = lit s := rfl

@[simp] theorem unplaced_fault (f : CompileFault) (p : Position) :
    (fault f p).unplaced = fault f .start := rfl

@[simp] theorem unplaced_withRuntime (used : Bool) :
    (c.withRuntime used).unplaced = c.unplaced.withRuntime used := rfl

@[simp] theorem unplaced_bare : c.bare.unplaced = c.unplaced.bare := rfl

@[simp] theorem unplaced_findings : c.findings.unplaced = c.unplaced.findings := rfl

@[simp] theorem unplaced_append (a b : Code) : (a ++ b).unplaced = a.unplaced ++ b.unplaced :=
  congrArg (Code.mk _ · _) List.map_append

@[simp] theorem unplaced_parenthesized : c.parenthesized.unplaced = c.unplaced.parenthesized := by
  simp [parenthesized]

@[simp] theorem unplaced_parenthesizedIf (needed : Bool) :
    (c.parenthesizedIf needed).unplaced = c.unplaced.parenthesizedIf needed := by
  cases needed
  · rfl
  · exact unplaced_parenthesized

@[simp] theorem unplaced_noBraceFirst : c.noBraceFirst.unplaced = c.unplaced.noBraceFirst :=
  unplaced_parenthesizedIf _

@[simp] theorem unplaced_join (sep : String) (cs : List Code) :
    (join sep cs).unplaced = join sep (cs.map unplaced) := by
  induction cs with
  | nil => rfl
  | cons c cs ih =>
    cases cs with
    | nil => rfl
    | cons c' cs =>
      rw [List.map_cons] at ih
      simp [join, ih]

@[simp] theorem unplaced_braced (cs : List Code) :
    (braced cs).unplaced = braced (cs.map unplaced) := by
  cases cs with
  | nil => rfl
  | cons c cs => simp [braced]

end

end Code

namespace Expr

@[simp] theorem pos_unplaced (e : Expr) : e.unplaced.pos = .start := by
  cases e <;> rw [unplaced] <;> rfl

@[simp] theorem level_unplaced (e : Expr) : e.unplaced.level = e.level := by
  cases e <;> rw [unplaced] <;> rfl

@[simp] theorem isArrow_unplaced (e : Expr) : e.unplaced.isArrow = e.isArrow := by
  cases e <;> rw [unplaced] <;> rfl

/-- The number that an expression is, if it is one. -/
def number? : Expr → Option NumberLiteral
  | .number _ n => some n
  | _ => none

theorem eq_number_of_number? {e : Expr} {n : NumberLiteral} (h : e.number? = some n) :
    ∃ p, e = .number p n := by
  cases e with
  | number p m =>
    cases h
    exact ⟨p, rfl⟩
  | _ => cases h

@[simp] theorem number?_unplaced (e : Expr) : e.unplaced.number? = e.number? := by
  cases e <;> rw [unplaced] <;> rfl

@[simp] theorem clashes_unplaced (op : BinaryOp) (e : Expr) :
    op.clashes e.unplaced = op.clashes e := by
  cases e <;> rw [unplaced] <;> cases op <;> rfl

end Expr

namespace Script

section
variable {o : Options} {e l r : Expr} {c left right : Code}

@[simp] theorem atLevel_unplaced (least : Nat) :
    atLevel least e.unplaced c.unplaced = (atLevel least e c).unplaced := by
  rw [atLevel, Expr.level_unplaced, atLevel, Code.unplaced_parenthesizedIf]

@[simp] theorem unary_unplaced (op : UnaryOp) : unary op c.unplaced = (unary op c).unplaced := by
  unfold unary
  dsimp only
  rw [apply_ite Code.unplaced]
  simp only [Code.unplaced_append, Code.unplaced_plain, Code.unplaced_lit]
  rfl

@[simp] theorem binary_unplaced (op : BinaryOp) :
    binary op l.unplaced r.unplaced left.unplaced right.unplaced =
      (binary op l r left right).unplaced := by
  cases op <;> simp [binary, BinaryOp.leftLevel, BinaryOp.rightLevel]

@[simp] theorem memberObject_unplaced (computed : Bool) :
    memberObject e.unplaced computed c.unplaced = (memberObject e computed c).unplaced := by
  unfold memberObject
  dsimp only
  rw [atLevel_unplaced]
  cases e <;> rw [Expr.unplaced]
  simp

@[simp] theorem member_unplaced (computed optional : Bool) :
    member l.unplaced r.unplaced computed optional left.unplaced right.unplaced =
      (member l r computed optional left right).unplaced := by
  cases computed <;> simp [member]

@[simp] theorem call_unplaced (optional : Bool) (args : List Code) :
    call e.unplaced optional c.unplaced (args.map Code.unplaced) =
      (call e optional c args).unplaced := by
  simp [call]

@[simp] theorem functionBody_unplaced :
    functionBody e.unplaced c.unplaced = (functionBody e c).unplaced := by
  simp [functionBody]

@[simp] theorem unplaced_line (d : Nat) : (line d c).unplaced = line d c.unplaced := by
  simp [line]

@[simp] theorem bound_unplaced (word : String) (t value : Code) :
    bound word e.unplaced t.unplaced value.unplaced = (bound word e t value).unplaced := by
  simp [bound]

/-- What a modifier makes of a value does not depend on the place of the statement. -/
@[simp] theorem runtimeCall_unplaced (modifier : Text) (p : Position) :
    runtimeCall o modifier .start e.unplaced c.unplaced =
      (runtimeCall o modifier p e c).unplaced := by
  unfold runtimeCall
  split
  · rfl
  · rename_i m _
    cases m.shape with
    | wrap => simp
    | tracked => simp [FreeNames.ofExpr_unplaced]
    | function => cases harrow : e.isArrow <;> simp [harrow]

@[simp] theorem modified_unplaced (modifier : Option Text) (p : Position) :
    modified o modifier .start e.unplaced c.unplaced = (modified o modifier p e c).unplaced := by
  cases modifier with
  | none => exact atLevel_unplaced _
  | some m => exact runtimeCall_unplaced m p

theorem sourceText_unplaced (e : Expr) : sourceText e.unplaced = sourceText e := by
  cases e <;> rw [Expr.unplaced] <;> rfl

theorem unplaced_comp_specifier : Code.unplaced ∘ specifier = specifier := rfl

/-- Nothing is found in an import. -/
theorem importNames_unplaced (default : Option Text) (names : List Specifier) :
    importNames default names e.unplaced = (importNames default names e).unplaced := by
  rw [Code.unplaced_of_faults (faults_importNames default names e), importNames, importNames,
    sourceText_unplaced]

/-! ## 3. Slices -/

theorem removed_some (start stop : Expr) (length first last : Code) :
    removed (some start) (some stop) length first last =
      match start.number?, stop.number? with
      | some m, some n => .plain (numberText (n.value.sub m.value))
      | _, _ =>
        atLevel Level.addition stop last ++ .lit " - " ++
          atLevel (Level.addition + 1) start first := by
  unfold removed
  split
  · contradiction
  · contradiction
  · contradiction
  · rename_i heq heq'
    cases heq
    cases heq'
    rfl
  · rename_i hne heq heq'
    cases heq
    cases heq'
    split
    · rename_i hm hn
      obtain ⟨p, rfl⟩ := Expr.eq_number_of_number? hm
      obtain ⟨q, rfl⟩ := Expr.eq_number_of_number? hn
      exact absurd rfl (hne p _ q _ rfl)
    · rfl

theorem removed_unplaced (start stop : Option Expr) (length first last : Code) :
    removed (Unplaced.expr? start) (Unplaced.expr? stop) length.unplaced first.unplaced
      last.unplaced = (removed start stop length first last).unplaced := by
  cases start with
  | none => cases stop <;> simp [Unplaced.expr?, removed]
  | some s =>
    cases stop with
    | none => simp [Unplaced.expr?, removed]
    | some e =>
      simp only [Unplaced.expr?, removed_some, Expr.number?_unplaced, atLevel_unplaced]
      split <;> simp

theorem sliceAssign_unplaced (start stop : Option Expr) (a first last v : Code) :
    sliceAssign l.unplaced (Unplaced.expr? start) (Unplaced.expr? stop) r.unplaced a.unplaced
      first.unplaced last.unplaced v.unplaced =
      (sliceAssign l start stop r a first last v).unplaced := by
  have hlength : (atLevel Level.call l a ++ .lit ".length").unplaced =
      atLevel Level.call l.unplaced a.unplaced ++ .lit ".length" := by simp
  unfold sliceAssign
  dsimp only
  rw [← hlength, ← Code.unplaced_bare, removed_unplaced]
  cases start <;> simp [Unplaced.expr?]

end

/-! ## 4. Expressions and statements -/

section
variable {o : Options} {d : Nat} {inherited own : Option Text} {p q : Position}
  {e target value : Expr}

theorem sides?_unplaced (e : Expr) :
    sides? e.unplaced = (sides? e).map fun q => (q.1.unplaced, q.2.unplaced) := by
  cases e with
  | assign p op t v => cases op <;> rw [Expr.unplaced] <;> rfl
  | _ => rw [Expr.unplaced]; rfl

theorem expression_unplaced (h : sides? e = none)
    (he : emit o d e.unplaced = (emit o d e).unplaced) :
    stmt o d inherited (.expression .start own e.unplaced) =
      (stmt o d inherited (.expression p own e)).unplaced := by
  have h' : sides? e.unplaced = none := by
    rw [sides?_unplaced, h]
    rfl
  rw [stmt_expression h, stmt_expression h', he]
  split
  · simp [runtimeCall_unplaced _ p]
  · simp

/-- A declaration or an assignment, whose target and value are written apart. -/
theorem binding_unplaced (h : sides? e = some (target, value))
    (he : emit o d e.unplaced = (emit o d e).unplaced)
    (htarget : emit o d target.unplaced = (emit o d target).unplaced)
    (hvalue : emit o d value.unplaced = (emit o d value).unplaced) :
    stmt o d inherited (.expression .start own e.unplaced) =
      (stmt o d inherited (.expression p own e)).unplaced := by
  rw [stmt_expression_or, stmt_expression_or (p := p)]
  cases e with
  | declare r t v =>
    cases h
    rw [Expr.unplaced, stmt, stmt, htarget, hvalue]
    simp [modified_unplaced _ p]
  | assign r op t v =>
    cases op with
    | plain =>
      cases h
      cases own.or inherited with
      | none =>
        rw [Expr.unplaced] at he ⊢
        show line d ((emit o d _).noBraceFirst ++ .lit ";") =
          (line d ((emit o d _).noBraceFirst ++ .lit ";")).unplaced
        simp [he]
      | some m =>
        rw [Expr.unplaced]
        show line d ((bound "" _ (emit o d _) (runtimeCall o m _ _ (emit o d _))).noBraceFirst ++
            .lit ";") =
          (line d ((bound "" _ _ (runtimeCall o m _ _ _)).noBraceFirst ++ .lit ";")).unplaced
        rw [htarget, hvalue]
        simp [runtimeCall_unplaced _ p]
    | compound op => cases h
  | _ => cases h

theorem unexported_unplaced (h : sides? e = none) :
    stmt o d inherited (.exportDeclaration .start .start own e.unplaced) =
      (stmt o d inherited (.exportDeclaration p q own e)).unplaced := by
  have hcode {p q : Position} {e : Expr} (h : sides? e = none) :
      stmt o d inherited (.exportDeclaration p q own e) = .fault .noDeclaration q := by
    cases e with
    | declare => cases h
    | assign r op t v =>
      cases op with
      | plain => cases h
      | compound op => rfl
    | _ => rfl
  have h' : sides? e.unplaced = none := by
    rw [sides?_unplaced, h]
    rfl
  rw [hcode h, hcode h', Code.unplaced_fault]

theorem exported_unplaced (h : sides? e = some (target, value))
    (htarget : emit o d target.unplaced = (emit o d target).unplaced)
    (hvalue : emit o d value.unplaced = (emit o d value).unplaced) :
    stmt o d inherited (.exportDeclaration .start .start own e.unplaced) =
      (stmt o d inherited (.exportDeclaration p q own e)).unplaced := by
  cases e with
  | declare r t v =>
    cases h
    rw [Expr.unplaced, stmt, stmt, htarget, hvalue]
    simp [modified_unplaced _ q]
  | assign r op t v =>
    cases op with
    | plain =>
      cases h
      rw [Expr.unplaced, stmt, stmt, htarget, hvalue]
      simp [modified_unplaced _ q]
    | compound op => cases h
  | _ => cases h

mutual

/-- **Places in an expression are places of its faults in the script, and nothing else.** -/
theorem emit_unplaced (d : Nat) (e : Expr) : emit o d e.unplaced = (emit o d e).unplaced := by
  cases e with
  | arrowBlock _ ps _ body =>
    have hempty : (Unplaced.stmts body).isEmpty = body.isEmpty := by
      cases body <;> rw [Unplaced.stmts]
      rfl
    simp [Expr.unplaced, emit, params_unplaced d, hempty, apply_ite Code.unplaced,
      stmts_unplaced (d + 1)]
  | slice =>
    have hnone (e : Option Expr) : (Unplaced.expr? e).isNone = e.isNone := by
      cases e <;> rw [Unplaced.expr?]
      rfl
    simp [Expr.unplaced, emit, hnone, apply_ite Code.unplaced, emit_unplaced d, item?_unplaced d]
  | sliceAssign _ object start stop value =>
    rw [Expr.unplaced, emit, emit, emit_unplaced d object, emit?_unplaced d start,
      emit?_unplaced d stop, emit_unplaced d value, sliceAssign_unplaced]
  | _ =>
    simp [Expr.unplaced, emit, apply_ite Code.unplaced, emit_unplaced d, items_unplaced d,
      template_unplaced d, properties_unplaced d, params_unplaced d, patternElements_unplaced d,
      patternProperties_unplaced d, attributes_unplaced d, childrenCode_unplaced d]

theorem emit?_unplaced (d : Nat) (e : Option Expr) :
    emit? o d (Unplaced.expr? e) = (emit? o d e).unplaced := by
  cases e <;> simp [Unplaced.expr?, emit?, emit_unplaced d]

theorem item?_unplaced (d : Nat) (e : Option Expr) :
    item? o d (Unplaced.expr? e) = (item? o d e).unplaced := by
  cases e <;> simp [Unplaced.expr?, item?, emit_unplaced d]

theorem items_unplaced (d : Nat) (es : List Expr) :
    items o d (Unplaced.exprs es) = (items o d es).map Code.unplaced := by
  cases es <;> simp [Unplaced.exprs, items, emit_unplaced d, items_unplaced d]

theorem childrenCode_unplaced (d : Nat) (es : List Expr) :
    childrenCode o d (Unplaced.exprs es) = (childrenCode o d es).unplaced := by
  cases es <;> simp [Unplaced.exprs, childrenCode, emit_unplaced d, childrenCode_unplaced d]

theorem template_unplaced (d : Nat) (quasis : List Quasi) (es : List Expr) :
    template o d quasis (Unplaced.exprs es) = (template o d quasis es).unplaced := by
  cases es with
  | nil => simp [Unplaced.exprs, template]
  | cons =>
    cases quasis <;> simp [Unplaced.exprs, template, emit_unplaced d, template_unplaced d]

theorem properties_unplaced (d : Nat) (ps : List Property) :
    properties o d (Unplaced.properties ps) = (properties o d ps).map Code.unplaced := by
  cases ps <;> simp [Unplaced.properties, properties, property_unplaced d, properties_unplaced d]

theorem property_unplaced (d : Nat) (p : Property) :
    property o d (Unplaced.property p) = (property o d p).unplaced := by
  cases p <;> simp [Unplaced.property, property, emit_unplaced d, item?_unplaced d]

theorem params_unplaced (d : Nat) (ps : List Param) :
    params o d (Unplaced.params ps) = (params o d ps).map Code.unplaced := by
  cases ps <;> simp [Unplaced.params, params, param_unplaced d, params_unplaced d]

theorem param_unplaced (d : Nat) (p : Param) :
    param o d (Unplaced.param p) = (param o d p).unplaced := by
  cases p <;> simp [Unplaced.param, param, emit_unplaced d, defaultValue_unplaced d]

theorem defaultValue_unplaced (d : Nat) (e : Option Expr) :
    defaultValue o d (Unplaced.expr? e) = (defaultValue o d e).unplaced := by
  cases e <;> simp [Unplaced.expr?, defaultValue, emit_unplaced d]

theorem patternElements_unplaced (d : Nat) (ps : List PatternElement) :
    patternElements o d (Unplaced.patternElements ps) =
      (patternElements o d ps).map Code.unplaced := by
  cases ps <;> simp [Unplaced.patternElements, patternElements, patternElement_unplaced d,
    patternElements_unplaced d]

theorem patternElement_unplaced (d : Nat) (p : PatternElement) :
    patternElement o d (Unplaced.patternElement p) = (patternElement o d p).unplaced := by
  cases p <;> simp [Unplaced.patternElement, patternElement, emit_unplaced d,
    defaultValue_unplaced d]

theorem patternProperties_unplaced (d : Nat) (ps : List PatternProperty) :
    patternProperties o d (Unplaced.patternProperties ps) =
      (patternProperties o d ps).map Code.unplaced := by
  cases ps <;> simp [Unplaced.patternProperties, patternProperties, patternProperty_unplaced d,
    patternProperties_unplaced d]

theorem patternProperty_unplaced (d : Nat) (p : PatternProperty) :
    patternProperty o d (Unplaced.patternProperty p) = (patternProperty o d p).unplaced := by
  cases p <;> simp [Unplaced.patternProperty, patternProperty, emit_unplaced d,
    defaultValue_unplaced d]

theorem attributes_unplaced (d : Nat) (as : List Attribute) :
    attributes o d (Unplaced.attributes as) = (attributes o d as).unplaced := by
  cases as <;> simp [Unplaced.attributes, attributes, attr_unplaced d, attributes_unplaced d]

theorem attr_unplaced (d : Nat) (a : Attribute) :
    attr o d (Unplaced.attr a) = (attr o d a).unplaced := by
  cases a <;> simp [Unplaced.attr, attr, emit_unplaced d]

theorem stmt_unplaced (d : Nat) (inherited : Option Text) (s : Stmt) :
    stmt o d inherited (Unplaced.stmt s) = (stmt o d inherited s).unplaced := by
  cases s with
  | expression p own e =>
    rw [Unplaced.stmt]
    have he := emit_unplaced d e
    cases e with
    | declare q target value =>
      exact binding_unplaced rfl he (emit_unplaced d target) (emit_unplaced d value)
    | assign q op target value =>
      cases op with
      | plain =>
        exact binding_unplaced rfl he (emit_unplaced d target) (emit_unplaced d value)
      | compound op => exact expression_unplaced rfl he
    | _ => exact expression_unplaced rfl he
  | «return» p own e =>
    cases e with
    | none =>
      simp only [Unplaced.stmt, Unplaced.expr?, stmt]
      split
      · split <;> simp
      · simp
    | some e =>
      simp only [Unplaced.stmt, Unplaced.expr?, stmt]
      split
      · simp [runtimeCall_unplaced _ p, emit_unplaced d e]
      · simp [emit_unplaced d e]
  | exportDeclaration _ p own e =>
    rw [Unplaced.stmt]
    cases e with
    | declare q target value =>
      exact exported_unplaced rfl (emit_unplaced d target) (emit_unplaced d value)
    | assign q op target value =>
      cases op with
      | plain =>
        exact exported_unplaced rfl (emit_unplaced d target) (emit_unplaced d value)
      | compound op => exact unexported_unplaced rfl
    | _ => exact unexported_unplaced rfl
  | _ =>
    simp [Unplaced.stmt, stmt, stmts_unplaced d, emit_unplaced d, unplaced_comp_specifier,
      importNames_unplaced, sourceText_unplaced]

theorem stmts_unplaced (d : Nat) (inherited : Option Text) (ss : List Stmt) :
    stmts o d inherited (Unplaced.stmts ss) = (stmts o d inherited ss).unplaced := by
  cases ss <;> simp [Unplaced.stmts, stmts, stmt_unplaced d, stmts_unplaced d]

end

/-- **Trees that are the same up to places have the same script.** -/
theorem text_ofExpr_of_unplaced_eq {e e' : Expr} (h : e'.unplaced = e.unplaced) :
    (ofExpr o e').text = (ofExpr o e).text := by
  have htext (e : Expr) : (ofExpr o e).text = (emit o 0 e.unplaced).text := by
    rw [emit_unplaced, Code.text_unplaced]
    rfl
  rw [htext, h, ← htext]

end

end Script

end ReactiveScript
