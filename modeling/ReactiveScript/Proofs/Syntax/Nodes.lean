import ReactiveScript.Proofs.Syntax.Sensible
import ReactiveScript.Syntax.Preorder

/-!
# The nodes of a tree and its pieces

An expression lies where its first node does. The nodes of the parts are nodes of the whole, in
order; those of its own kind that stand among them are not bad.
-/

namespace ReactiveScript

/-- Members of a list, in order, and parts of what each of them gives. -/
theorem flatMap_sublist {α β : Type} {f g : α → List β} {as bs : List α} (h : as.Sublist bs)
    (hfg : ∀ a ∈ as, (f a).Sublist (g a)) : (as.flatMap f).Sublist (bs.flatMap g) := by
  induction h with
  | slnil => exact .slnil
  | cons b _ ih =>
    rw [List.flatMap_cons]
    exact (ih hfg).trans (List.sublist_append_right _ _)
  | cons_cons a _ ih =>
    obtain ⟨ha, hrest⟩ := List.forall_mem_cons.mp hfg
    rw [List.flatMap_cons, List.flatMap_cons]
    exact ha.append (ih hrest)

namespace Preorder

/-- The first node of an expression lies where the expression does. -/
theorem expr_head (e : Expr) : (expr e).head?.bind Node.pos? = some e.pos := by
  cases e <;> rfl

/-! ## 1. Lists -/

theorem expr?_eq_flatMap (o : Option Expr) : expr? o = o.toList.flatMap expr := by
  cases o <;> simp [expr?]

theorem exprs_eq_flatMap (es : List Expr) : exprs es = es.flatMap expr :=
  eq_flatMap_of_cons rfl (fun _ _ => rfl) es

theorem properties_eq_flatMap (ps : List Property) : properties ps = ps.flatMap property :=
  eq_flatMap_of_cons rfl (fun _ _ => rfl) ps

theorem params_eq_flatMap (ps : List Param) : params ps = ps.flatMap param :=
  eq_flatMap_of_cons rfl (fun _ _ => rfl) ps

theorem patternElements_eq_flatMap (es : List PatternElement) :
    patternElements es = es.flatMap patternElement :=
  eq_flatMap_of_cons rfl (fun _ _ => rfl) es

theorem patternProperties_eq_flatMap (ps : List PatternProperty) :
    patternProperties ps = ps.flatMap patternProperty :=
  eq_flatMap_of_cons rfl (fun _ _ => rfl) ps

theorem attributes_eq_flatMap (as : List Attribute) : attributes as = as.flatMap attr :=
  eq_flatMap_of_cons rfl (fun _ _ => rfl) as

theorem stmts_eq_flatMap (ss : List Stmt) : stmts ss = ss.flatMap stmt :=
  eq_flatMap_of_cons rfl (fun _ _ => rfl) ss

end Preorder

/-! ## 2. Nodes among others -/

namespace Node

/-- Is a node of a construct that could not be read? -/
def isBad : Node → Bool
  | .expr .bad _ _ | .stmt .bad _ _ => true
  | _ => false

/-- Does a node of this kind have names that are no nodes, or nodes that are no tokens? So it is
    with templates, elements and fragments, imports and exports. -/
def hidesNames : Node → Bool
  | .expr k _ _ =>
    match k with
    | .template | .tagged | .jsxElement | .jsxFragment | .jsxText | .jsxExpression => true
    | _ => false
  | .stmt k _ _ =>
    match k with
    | .exportDefault | .exportNamed | .importNames | .importNamespace => true
    | _ => false
  | _ => false

end Node

/-- Some nodes in order, with others among them that are not bad. -/
structure Sown (ns ms : List Node) : Prop where
  sublist : ns.Sublist ms
  others : ∀ n ∈ ms, n ∈ ns ∨ n.isBad = false

namespace Sown
variable {ns ns' ms ms' : List Node}

theorem refl (ns : List Node) : Sown ns ns := ⟨.refl ns, fun _ => .inl⟩

theorem cons {n : Node} (hn : n.isBad = false) (h : Sown ns ms) : Sown ns (n :: ms) :=
  ⟨h.sublist.cons n, List.forall_mem_cons.mpr ⟨.inr hn, h.others⟩⟩

theorem append (h : Sown ns ms) (h' : Sown ns' ms') : Sown (ns ++ ns') (ms ++ ms') := by
  refine ⟨h.sublist.append h'.sublist, List.forall_mem_append.mpr ⟨fun n hn => ?_, fun n hn => ?_⟩⟩
  · exact (h.others n hn).imp_left (List.mem_append_left _)
  · exact (h'.others n hn).imp_left (List.mem_append_right _)

/-- The members of a list have one node each besides those of their expressions. -/
theorem flatMap {α : Type} {nodes : α → List Node} {parts : α → List Expr}
    (h : ∀ a, ∃ n : Node, n.isBad = false ∧ nodes a = n :: (parts a).flatMap Preorder.expr)
    (as : List α) : Sown ((as.flatMap parts).flatMap Preorder.expr) (as.flatMap nodes) := by
  induction as with
  | nil => exact .refl []
  | cons a as ih =>
    obtain ⟨n, hn, ha⟩ := h a
    rw [List.flatMap_cons, List.flatMap_cons, List.flatMap_append, ha]
    exact append (.cons hn (.refl _)) ih

end Sown

namespace Preorder

theorem sown_properties (ps : List Property) :
    Sown ((ps.flatMap Property.parts).flatMap expr) (properties ps) := by
  rw [properties_eq_flatMap]
  exact .flatMap (fun p => by
    cases p <;> simp [property, Property.parts, expr?_eq_flatMap, Node.isBad]) ps

theorem sown_params (ps : List Param) :
    Sown ((ps.flatMap Param.parts).flatMap expr) (params ps) := by
  rw [params_eq_flatMap]
  exact .flatMap (fun p => by
    cases p <;> simp [param, Param.parts, expr?_eq_flatMap, Node.isBad]) ps

theorem sown_patternElements (es : List PatternElement) :
    Sown ((es.flatMap PatternElement.parts).flatMap expr) (patternElements es) := by
  rw [patternElements_eq_flatMap]
  exact .flatMap (fun e => by
    cases e <;> simp [patternElement, PatternElement.parts, expr?_eq_flatMap, Node.isBad]) es

theorem sown_patternProperties (ps : List PatternProperty) :
    Sown ((ps.flatMap PatternProperty.parts).flatMap expr) (patternProperties ps) := by
  rw [patternProperties_eq_flatMap]
  exact .flatMap (fun p => by
    cases p <;> simp [patternProperty, PatternProperty.parts, expr?_eq_flatMap, Node.isBad]) ps

theorem sown_attributes (as : List Attribute) :
    Sown ((as.flatMap Attribute.parts).flatMap expr) (attributes as) := by
  rw [attributes_eq_flatMap]
  exact .flatMap (fun a => by cases a <;> simp [attr, Attribute.parts, Node.isBad]) as

/-- All expressions of a template stand between its literal parts. -/
theorem sown_template {quasis : List Quasi} {es : List Expr} (h : es.length < quasis.length) :
    Sown (es.flatMap expr) (template quasis es) := by
  induction es generalizing quasis with
  | nil =>
    refine ⟨List.nil_sublist _, ?_⟩
    cases quasis <;> simp [template, Node.isBad]
  | cons e es ih =>
    cases quasis with
    | nil => cases h
    | cons q quasis => exact .cons rfl ((Sown.refl _).append (ih (Nat.lt_of_succ_lt_succ h)))

end Preorder

/-! ## 3. Pieces -/

namespace Piece

/-- The nodes of a piece. -/
def nodes : Piece → List Node
  | .program p => Preorder.program p
  | .stmt s => Preorder.stmt s
  | .expr e => Preorder.expr e

theorem flatMap_nodes_ofExprs (es : List Expr) :
    (ofExprs es).flatMap nodes = es.flatMap Preorder.expr := by
  rw [ofExprs, List.flatMap_map]
  rfl

theorem flatMap_nodes_ofStmts (ss : List Stmt) :
    (ofStmts ss).flatMap nodes = Preorder.stmts ss := by
  rw [ofStmts, List.flatMap_map, Preorder.stmts_eq_flatMap]
  rfl

open ReactiveScript.Preorder in
/-- The nodes of an expression are those of its parts, in order, and its own. -/
theorem sown_expr {e : Expr} (hwf : WellFormed.expr e = true) :
    Sown (e.parts.flatMap nodes) (Preorder.expr e) := by
  cases e with
  | bad => cases hwf
  | identifier | number | string | boolean | null | jsxText => exact .cons rfl (.refl [])
  | template p quasis es =>
    rw [WellFormed.expr, Bool.and_eq_true, decide_eq_true_eq] at hwf
    rw [flatMap_nodes_ofExprs]
    exact .cons rfl (sown_template (by omega))
  | object p ps =>
    rw [flatMap_nodes_ofExprs]
    exact .cons rfl (sown_properties ps)
  | arrow p ps body =>
    rw [flatMap_nodes_ofExprs, List.flatMap_append, List.flatMap_singleton]
    exact .cons rfl ((sown_params ps).append (.refl _))
  | arrowBlock p ps block body =>
    rw [Expr.parts, List.flatMap_append, flatMap_nodes_ofExprs, flatMap_nodes_ofStmts]
    exact .cons rfl ((sown_params ps).append (.cons rfl (.refl _)))
  | binary p op l r =>
    rw [flatMap_nodes_ofExprs]
    simpa [Preorder.expr] using Sown.cons (by cases op <;> rfl) (.refl _)
  | arrayPattern p es =>
    rw [flatMap_nodes_ofExprs]
    exact .cons rfl (sown_patternElements es)
  | objectPattern p ps =>
    rw [flatMap_nodes_ofExprs]
    exact .cons rfl (sown_patternProperties ps)
  | jsxElement p name attrs children selfClosing =>
    rw [flatMap_nodes_ofExprs, List.flatMap_append, ← exprs_eq_flatMap children]
    exact .cons rfl ((sown_attributes attrs).append (.refl _))
  | _ =>
    rw [flatMap_nodes_ofExprs]
    simpa [Preorder.expr, expr?_eq_flatMap, exprs_eq_flatMap] using Sown.cons rfl (.refl _)

theorem sown_stmt {s : Stmt} (hwf : WellFormed.stmt s = true) :
    Sown (s.parts.flatMap nodes) (Preorder.stmt s) := by
  cases s with
  | bad => cases hwf
  | exportNames => exact .cons rfl (.refl [])
  | modifierBlock p m block body =>
    rw [flatMap_nodes_ofStmts]
    exact .cons rfl (.cons rfl (.refl _))
  | exportDeclaration p declaration m e =>
    rw [flatMap_nodes_ofStmts]
    simpa [Preorder.stmts, Preorder.stmt] using Sown.cons rfl (.refl _)
  | _ =>
    rw [flatMap_nodes_ofExprs]
    simpa [Preorder.stmt, Preorder.expr?_eq_flatMap] using Sown.cons rfl (.refl _)

/-- **The nodes of a piece** are those of its parts, in order, and its own. -/
theorem sown_nodes {q : Piece} (hwf : WellFormed.piece q = true) :
    Sown (q.parts.flatMap nodes) q.nodes := by
  cases q with
  | program p =>
    rw [parts, flatMap_nodes_ofStmts]
    exact .cons rfl (.refl _)
  | stmt s => exact sown_stmt hwf
  | expr e => exact sown_expr hwf

/-- The nodes of a part are nodes of the whole. -/
theorem nodes_subset {q r : Piece} (hwf : WellFormed.piece q = true) (hr : r ∈ q.parts) :
    r.nodes ⊆ q.nodes :=
  fun _ hn => (sown_nodes hwf).sublist.subset (List.mem_flatMap.mpr ⟨r, hr, hn⟩)

/-- The nodes of a piece further down are nodes of the whole. -/
theorem nodes_subset_of_within {q r : Piece} (hwf : WellFormed.piece q = true) (hr : Within q r) :
    r.nodes ⊆ q.nodes := by
  induction hr with
  | refl => exact List.Subset.refl _
  | step hr _ ih =>
    exact List.Subset.trans (ih (WellFormed.piece_of_mem_parts hwf hr)) (nodes_subset hwf hr)

/-- **No node of a well-formed piece is bad.** -/
theorem isBad_of_mem_nodes {q : Piece} (hwf : WellFormed.piece q = true) :
    ∀ n ∈ q.nodes, n.isBad = false := by
  induction q using parts_induction with
  | step q ih =>
    intro n hn
    refine ((sown_nodes hwf).others n hn).elim (fun hn => ?_) id
    obtain ⟨r, hr, hn⟩ := List.mem_flatMap.mp hn
    exact ih r hr (WellFormed.piece_of_mem_parts hwf hr) n hn

end Piece

end ReactiveScript
