import ReactiveScript.Syntax.Tree

/-!
# Pieces of a tree

Programs, statements and expressions are the pieces of a tree, and each piece has its parts, the
pieces right below it. Whatever is said of all pieces of a tree, or of all ways down from its root,
is said with the parts alone.
-/

namespace ReactiveScript

/-- A program, a statement or an expression. -/
inductive Piece where
  | program (p : Program)
  | stmt (s : Stmt)
  | expr (e : Expr)

/-! ## 1. Parts -/

/-- The expressions in a property. -/
@[reducible] def Property.parts : Property → List Expr
  | .spread _ value => [value]
  | .named _ key value => [key, value]
  | .shorthand _ key => [key]
  | .computed _ key value => key.toList ++ value.toList

/-- The expressions in a parameter. -/
@[reducible] def Param.parts : Param → List Expr
  | .name _ _ default => default.toList
  | .pattern _ target default => target :: default.toList
  | .rest _ _ => []

/-- The expressions in an element of an array pattern. -/
@[reducible] def PatternElement.parts : PatternElement → List Expr
  | .item _ target default => target :: default.toList
  | .rest _ target => [target]

/-- The expressions in a property of an object pattern. -/
@[reducible] def PatternProperty.parts : PatternProperty → List Expr
  | .named _ key target default => key :: target :: default.toList
  | .shorthand _ key default => key :: default.toList
  | .rest _ target => [target]

/-- The expressions in an attribute. -/
@[reducible] def Attribute.parts : Attribute → List Expr
  | .flag _ _ | .string _ _ _ => []
  | .value _ _ v | .spread _ v => [v]

namespace Piece

/-- Expressions as pieces. -/
def ofExprs (es : List Expr) : List Piece := es.map .expr

/-- Statements as pieces. -/
def ofStmts (ss : List Stmt) : List Piece := ss.map .stmt

end Piece

open Piece in
/-- The pieces right below an expression. The template behind a tag and the slice that is assigned
    to are pieces of their own. -/
@[reducible] def Expr.parts : Expr → List Piece
  | .bad _ | .identifier _ _ | .number _ _ | .string _ _ _ | .boolean _ _ | .null _
  | .jsxText _ _ => []
  | .template _ _ es => ofExprs es
  | .tagged _ tag body quasis es => ofExprs [tag, .template body quasis es]
  | .array _ es => ofExprs es
  | .object _ ps => ofExprs (ps.flatMap Property.parts)
  | .spread _ e => ofExprs [e]
  | .arrow _ ps body => ofExprs (ps.flatMap Param.parts ++ [body])
  | .arrowBlock _ ps _ body => ofExprs (ps.flatMap Param.parts) ++ ofStmts body
  | .call _ callee args _ => ofExprs (callee :: args)
  | .member _ o property _ _ => ofExprs [o, property]
  | .slice _ o start stop => ofExprs (o :: (start.toList ++ stop.toList))
  | .sliceAssign p o start stop value => ofExprs [.slice p o start stop, value]
  | .unary _ _ e => ofExprs [e]
  | .update _ _ _ e => ofExprs [e]
  | .binary _ _ l r => ofExprs [l, r]
  | .conditional _ test yes no => ofExprs [test, yes, no]
  | .assign _ _ target value => ofExprs [target, value]
  | .declare _ target value => ofExprs [target, value]
  | .arrayPattern _ es => ofExprs (es.flatMap PatternElement.parts)
  | .objectPattern _ ps => ofExprs (ps.flatMap PatternProperty.parts)
  | .jsxElement _ _ attrs children _ => ofExprs (attrs.flatMap Attribute.parts ++ children)
  | .jsxFragment _ children => ofExprs children
  | .jsxExpression _ e => ofExprs [e]

open Piece in
/-- The pieces right below a statement. An exported declaration is a statement of its own. -/
@[reducible] def Stmt.parts : Stmt → List Piece
  | .bad _ | .exportNames _ _ => []
  | .expression _ _ e => ofExprs [e]
  | .return _ _ argument => ofExprs argument.toList
  | .modifierBlock _ _ _ body => ofStmts body
  | .exportDefault _ e => ofExprs [e]
  | .exportDeclaration _ declaration modifier e => ofStmts [.expression declaration modifier e]
  | .importNames _ _ _ source => ofExprs [source]
  | .importNamespace _ _ source => ofExprs [source]

/-- The pieces right below a piece. -/
def Piece.parts : Piece → List Piece
  | .program p => ofStmts p.body
  | .stmt s => s.parts
  | .expr e => e.parts

/-! ## 2. Parts are smaller -/

section
variable {e : Expr}

@[grind →] theorem Property.sizeOf_lt_of_mem_parts {p : Property} (h : e ∈ p.parts) :
    sizeOf e < sizeOf p := by
  cases p <;> simp [parts] at h ⊢ <;> grind

@[grind →] theorem Param.sizeOf_lt_of_mem_parts {p : Param} (h : e ∈ p.parts) :
    sizeOf e < sizeOf p := by
  cases p <;> simp [parts] at h ⊢ <;> grind

@[grind →] theorem PatternElement.sizeOf_lt_of_mem_parts {p : PatternElement} (h : e ∈ p.parts) :
    sizeOf e < sizeOf p := by
  cases p <;> simp [parts] at h ⊢ <;> grind

@[grind →] theorem PatternProperty.sizeOf_lt_of_mem_parts {p : PatternProperty}
    (h : e ∈ p.parts) : sizeOf e < sizeOf p := by
  cases p <;> simp [parts] at h ⊢ <;> grind

@[grind →] theorem Attribute.sizeOf_lt_of_mem_parts {a : Attribute} (h : e ∈ a.parts) :
    sizeOf e < sizeOf a := by
  cases a <;> simp [parts] at h ⊢ <;> grind

end

theorem Expr.sizeOf_pos (e : Expr) : 0 < sizeOf e := by
  cases e <;> simp +arith

namespace Piece

theorem sizeOf_lt_of_mem_ofExprs {r : Piece} {es : List Expr} (h : r ∈ ofExprs es) {n : Nat}
    (hn : ∀ e ∈ es, sizeOf e < n) : sizeOf r < n + 1 := by
  obtain ⟨e, he, rfl⟩ := List.mem_map.mp h
  have hlt := hn e he
  simp only [expr.sizeOf_spec]
  omega

theorem sizeOf_lt_of_mem_ofStmts {r : Piece} {ss : List Stmt} (h : r ∈ ofStmts ss) {n : Nat}
    (hn : ∀ s ∈ ss, sizeOf s < n) : sizeOf r < n + 1 := by
  obtain ⟨s, hs, rfl⟩ := List.mem_map.mp h
  have hlt := hn s hs
  simp only [stmt.sizeOf_spec]
  omega

theorem sizeOf_lt_of_mem_expr_parts {r : Piece} {e : Expr} (h : r ∈ e.parts) :
    sizeOf r < sizeOf e + 1 := by
  cases e with
  | bad | identifier | number | string | boolean | null | jsxText => cases h
  | arrowBlock p ps b body =>
    rcases List.mem_append.mp h with h | h
    · refine sizeOf_lt_of_mem_ofExprs h fun e he => ?_
      simp at he ⊢
      grind [→ List.sizeOf_lt_of_mem]
    · refine sizeOf_lt_of_mem_ofStmts h fun s hs => ?_
      have hlt := List.sizeOf_lt_of_mem hs
      simp only [Expr.arrowBlock.sizeOf_spec]
      omega
  | _ =>
    refine sizeOf_lt_of_mem_ofExprs h fun e he => ?_
    clear h
    simp at he ⊢
    grind [→ List.sizeOf_lt_of_mem, Expr.sizeOf_pos]

theorem sizeOf_lt_of_mem_stmt_parts {r : Piece} {s : Stmt} (h : r ∈ s.parts) :
    sizeOf r < sizeOf s + 1 := by
  cases s with
  | bad | exportNames => cases h
  | modifierBlock p m b body =>
    refine sizeOf_lt_of_mem_ofStmts h fun s hs => ?_
    have hlt := List.sizeOf_lt_of_mem hs
    simp only [Stmt.modifierBlock.sizeOf_spec]
    omega
  | exportDeclaration p declaration m e =>
    refine sizeOf_lt_of_mem_ofStmts h fun s hs => ?_
    rw [List.mem_singleton.mp hs]
    simp only [Stmt.expression.sizeOf_spec, Stmt.exportDeclaration.sizeOf_spec]
    have hpos : 0 < sizeOf p := by
      cases p
      simp only [Position.mk.sizeOf_spec]
      omega
    omega
  | _ =>
    refine sizeOf_lt_of_mem_ofExprs h fun e he => ?_
    clear h
    simp at he ⊢
    grind

theorem sizeOf_lt_of_mem_parts {q r : Piece} (h : r ∈ q.parts) : sizeOf r < sizeOf q := by
  cases q with
  | program p =>
    refine Nat.lt_of_lt_of_le (sizeOf_lt_of_mem_ofStmts h fun s hs => List.sizeOf_lt_of_mem hs) ?_
    cases p
    simp
    omega
  | stmt s =>
    have hlt := sizeOf_lt_of_mem_stmt_parts h
    simp only [stmt.sizeOf_spec]
    omega
  | expr e =>
    have hlt := sizeOf_lt_of_mem_expr_parts h
    simp only [expr.sizeOf_spec]
    omega

/-- What a piece has if all its parts have it, every piece has. -/
theorem parts_induction {P : Piece → Prop} (step : ∀ q, (∀ r ∈ q.parts, P r) → P q) (q : Piece) :
    P q :=
  step q fun r _ => parts_induction step r
termination_by sizeOf q
decreasing_by exact sizeOf_lt_of_mem_parts ‹_›

end Piece

/-! ## 3. Pieces further down -/

/-- The second piece lies in the first, or is the first itself. -/
inductive Within : Piece → Piece → Prop
  | refl (q : Piece) : Within q q
  | step {q r t : Piece} (hr : r ∈ q.parts) (ht : Within r t) : Within q t

theorem Within.part {q r t : Piece} (h : Within q r) (ht : t ∈ r.parts) : Within q t := by
  induction h with
  | refl q => exact .step ht (.refl t)
  | step hr _ ih => exact .step hr (ih ht)

theorem Within.trans {q r t : Piece} (h : Within q r) (ht : Within r t) : Within q t := by
  induction h with
  | refl q => exact ht
  | step hr _ ih => exact .step hr (ih ht)

theorem Within.sizeOf_le {q t : Piece} (h : Within q t) : sizeOf t ≤ sizeOf q := by
  induction h with
  | refl q => exact Nat.le_refl _
  | step hr _ ih => exact Nat.le_of_lt (Nat.lt_of_le_of_lt ih (Piece.sizeOf_lt_of_mem_parts hr))

/-- A piece below another is a part of some piece. -/
theorem Within.above {q t : Piece} (h : Within q t) : t = q ∨ ∃ r, Within q r ∧ t ∈ r.parts := by
  induction h with
  | refl q => exact .inl rfl
  | step hr _ ih =>
    refine .inr ?_
    rcases ih with rfl | ⟨r, hwithin, ht⟩
    · exact ⟨_, .refl _, hr⟩
    · exact ⟨r, .step hr hwithin, ht⟩

/-- A way down from a piece to a leaf, with the pieces that it passes. -/
inductive Path : Piece → List Piece → Prop
  | leaf {q : Piece} (h : q.parts = []) : Path q [q]
  | step {q r : Piece} {path : List Piece} (hr : r ∈ q.parts) (h : Path r path) :
      Path q (q :: path)

end ReactiveScript
