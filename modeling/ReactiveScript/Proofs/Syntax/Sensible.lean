import ReactiveScript.Proofs.Syntax.Shallow
import ReactiveScript.Proofs.Syntax.WellFormed

/-!
# Sensible trees

The tests for the tree of an accepted source, taken from a tree to its pieces.
-/

namespace ReactiveScript

variable {q r : Piece}

/-! ## 1. Well-formed pieces -/

/-- Does a computed property have its key and its value? -/
@[reducible] def Property.isSound : Property → Bool
  | .computed _ key value => key.isSome && value.isSome
  | _ => true

/-- Does a parameter that is no name have a pattern? -/
@[reducible] def Param.isSound : Param → Bool
  | .pattern _ target _ => target.isPattern
  | _ => true

/-- Does an element of a pattern bind something? -/
@[reducible] def PatternElement.isSound : PatternElement → Bool
  | .item _ target _ | .rest _ target => target.isBindable

@[reducible] def PatternProperty.isSound : PatternProperty → Bool
  | .named _ _ target _ => target.isBindable
  | .shorthand _ key _ => key.isName
  | .rest _ target => target.isName

/-- What is tested of an expression beside its parts. -/
@[reducible] def Expr.isSound : Expr → Bool
  | .bad _ => false
  | .template _ quasis es => decide (quasis.length = es.length + 1)
  | .object _ ps => ps.all Property.isSound
  | .arrow _ ps _ | .arrowBlock _ ps _ _ => restStandsLast Param.isRest ps && ps.all Param.isSound
  | .member _ _ property false _ => property.isName
  | .assign _ op target _ => target.isAssignable op
  | .declare _ target _ => target.isBindable
  | .arrayPattern _ es => restStandsLast PatternElement.isRest es && es.all PatternElement.isSound
  | .objectPattern _ ps => restStandsLast PatternProperty.isRest ps && ps.all PatternProperty.isSound
  | _ => true

/-- What is tested of a piece beside its parts. -/
@[reducible] def Piece.isSound : Piece → Bool
  | .expr e => e.isSound
  | .stmt (.bad _) => false
  | .stmt (.exportDeclaration _ _ _ e) => e.declares
  | .stmt (.importNames _ _ _ source) | .stmt (.importNamespace _ _ source) => source.isString
  | _ => true

/-- Is this piece well formed? -/
def WellFormed.piece : Piece → Bool
  | .program p => program p
  | .stmt s => stmt s
  | .expr e => expr e

namespace WellFormed

theorem expr?_iff {o : Option Expr} : expr? o = true ↔ ∀ e ∈ o.toList, expr e = true := by
  cases o <;> simp [expr?]

theorem property_iff {p : Property} :
    property p = true ↔ p.isSound = true ∧ ∀ e ∈ p.parts, expr e = true := by
  cases p <;> simp [property, Property.isSound, expr?_iff]
  grind

/-- Properties of which none is reported are complete. -/
theorem all_isSound {ps : List Property} (h : Check.computedComplete ps = []) :
    ps.all Property.isSound = true := by
  refine List.all_eq_true.mpr fun p hp => ?_
  cases p with
  | computed => exact Bool.and_eq_true_iff.mpr (computed_complete h hp)
  | _ => rfl

theorem param_iff {p : Param} :
    param p = true ↔ p.isSound = true ∧ ∀ e ∈ p.parts, expr e = true := by
  cases p <;> simp [param, Param.isSound, expr?_iff, and_assoc]

theorem patternElement_iff {p : PatternElement} :
    patternElement p = true ↔ p.isSound = true ∧ ∀ e ∈ p.parts, expr e = true := by
  cases p <;> simp [patternElement, PatternElement.isSound, expr?_iff, and_assoc]

theorem patternProperty_iff {p : PatternProperty} :
    patternProperty p = true ↔ p.isSound = true ∧ ∀ e ∈ p.parts, expr e = true := by
  cases p <;> simp [patternProperty, PatternProperty.isSound, expr?_iff] <;> grind

theorem attr_iff {a : Attribute} : attr a = true ↔ ∀ e ∈ a.parts, expr e = true := by
  cases a <;> simp [attr]

theorem forall_ofExprs {es : List Expr} :
    (∀ r ∈ Piece.ofExprs es, piece r = true) ↔ ∀ e ∈ es, expr e = true := List.forall_mem_map

theorem forall_ofStmts {ss : List Stmt} :
    (∀ r ∈ Piece.ofStmts ss, piece r = true) ↔ ∀ s ∈ ss, stmt s = true := List.forall_mem_map

theorem expr_iff {e : Expr} :
    expr e = true ↔ e.isSound = true ∧ ∀ r ∈ e.parts, piece r = true := by
  cases e with
  | member p o property computed optional =>
    cases computed <;> simp [expr, forall_ofExprs]
    grind
  | _ =>
    simp [expr, or_imp, forall_and, forall_ofExprs, forall_ofStmts, stmts_iff, expr?_iff, exprs_iff,
      properties_iff, property_iff, params_iff, param_iff, patternElements_iff, patternElement_iff,
      patternProperties_iff, patternProperty_iff, attributes_iff, attr_iff] <;> grind

theorem stmt_iff {s : Stmt} :
    stmt s = true ↔ (Piece.stmt s).isSound = true ∧ ∀ r ∈ s.parts, piece r = true := by
  cases s <;> simp [stmt, forall_ofExprs, forall_ofStmts, stmts_iff, expr?_iff]

/-- **A piece is well formed if it is sound and its parts are well formed.** -/
theorem piece_iff {q : Piece} :
    piece q = true ↔ q.isSound = true ∧ ∀ r ∈ q.parts, piece r = true := by
  cases q with
  | program p => exact stmts_iff.trans (by simp [Piece.parts, forall_ofStmts])
  | stmt s => exact stmt_iff
  | expr e => exact expr_iff

/-- The parts of a well-formed piece are well formed. -/
theorem piece_of_mem_parts {q r : Piece} (h : piece q = true) (hr : r ∈ q.parts) :
    piece r = true := (piece_iff.mp h).2 r hr

end WellFormed

/-! ## 2. All pieces of a tree -/

/-- Every piece in this one is well formed and tidy. -/
def Sensible (q : Piece) : Prop := ∀ r, Within q r → WellFormed.piece r = true ∧ r.isTidy = true

theorem Sensible.wellFormed (h : Sensible q) : WellFormed.piece q = true :=
  (h q (.refl q)).1

theorem Sensible.tidy (h : Sensible q) : q.isTidy = true := (h q (.refl q)).2

theorem Sensible.part (h : Sensible q) (hr : r ∈ q.parts) : Sensible r :=
  fun t ht => h t (.step hr ht)

theorem Sensible.within (h : Sensible q) (hr : Within q r) : Sensible r :=
  fun t ht => h t (hr.trans ht)

theorem WellFormed.piece_of_within (hr : Within q r) (h : piece q = true) : piece r = true := by
  induction hr with
  | refl => exact h
  | step hr _ ih => exact ih (piece_of_mem_parts h hr)

theorem sensible_of_shallow {n : Nat} (hwf : WellFormed.piece q = true) (h : Shallow n q) :
    Sensible q :=
  fun _ hr => ⟨WellFormed.piece_of_within hr hwf, h.isTidy hr⟩

end ReactiveScript
