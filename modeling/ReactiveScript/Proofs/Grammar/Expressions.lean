import ReactiveScript.Grammar.Expression
import ReactiveScript.Proofs.Grammar.Markup
import ReactiveScript.Proofs.Grammar.Statements

/-!
# Patterns, functions and expressions meet the contract

Chains and binary operators leave the depth to their caller (`Drifts`); everything that starts with
an operand moves on (`Strides`).
-/

namespace ReactiveScript.Grammar

-- The instance of a routine is as large as the routine.
set_option synthInstance.maxSize 4000

section
variable {source : Text} {d : Nat} {c : Context} [h : c.Serves source d] {p : Position}
  {ps : List Param} {header least : Nat} {e : Expr} {optional : Bool} {hole : Template.Hole}

/-! ## 1. Patterns -/

instance : Asks seesPattern := ⟨fun _ => ⟨_, rfl⟩⟩

instance : Reads source d (default? c) := by unfold default?; infer_instance

instance : Reads source d (bindingTarget c) := by unfold bindingTarget; infer_instance

instance : Reads source d (patternProperty c) := by
  have hrest (p : Position) : Reads source d (do match ← expectToken .identifier with
      | none => return .none
      | some t => return .more (.rest p (identifierOf t)) : Reading (Part PatternProperty)) :=
    .bind inferInstance fun t? => by cases t? <;> infer_instance
  unfold patternProperty namedProperty keyedProperty
  infer_instance

omit h in
instance strides_pattern [c.Serves source (d + 1)] : Strides source d (pattern c) := by
  unfold pattern arrayPattern patternElement objectPattern; infer_instance

/-! ## 2. Functions -/

instance : Strides source d (params c) := by unfold params param; infer_instance

instance : Reads source d (arrowBody c p ps header) := by unfold arrowBody; infer_instance

instance : Strides source d (arrow c) := by unfold arrow; infer_instance

/-! ## 3. Operands -/

/-- A hole is read at the depth of the template, from a state of its own. -/
instance : Reads source d (Grammar.hole c hole) where
  leads {s} hs := by
    have hvalue : Reads source d c.inner.assignment := inferInstance
    have hrest : (Cursor.place c.source hole.pos).rest =
        source.drop (Cursor.place c.source hole.pos).pos.offset := by rw [h.source_eq]; rfl
    have hstart : Settled source (State.start (Cursor.place c.source hole.pos)) :=
      settled_advance hrest fun hdeep => absurd hdeep Bool.false_ne_true
    have hinner : Ready source d { State.start (Cursor.place c.source hole.pos) with
        nesting := 1, depth := s.depth } :=
      Ready.recount ⟨hstart.setDepth _, hs.depth_eq, hs.depth_le⟩ 1 _
    simp only [Grammar.hole, runs_bind, runs_get, runs_liftM]
    refine (hvalue.leads hinner).mono fun e s₁ _ => ?_
    simp only [runs_ite, runs_bind, runs_modify, runs_pure]
    split
    · exact ⟨⟨hs.toSettled.giveUp _, hs.depth_eq, hs.depth_le⟩, .giveUp s _⟩
    · exact ⟨hs, .refl s⟩

instance {o : Option Expr} : Reads source d (Template.foundIn report hole o) := by
  cases o <;> unfold Template.foundIn <;> infer_instance

instance : Reads source d (Template.holeExpr (Grammar.hole c) report hole) := by
  unfold Template.holeExpr; infer_instance

instance {α β : Type} {f : α → Reading β} [hf : ∀ a, Reads source d (f a)] {l : List α} :
    Reads source d (l.mapM f) := by
  induction l with
  | nil => exact inferInstanceAs (Reads source d (pure []))
  | cons a l ih => rw [List.mapM_cons]; infer_instance

instance {t : Token} : Reads source d (templateParts c t) := by
  unfold templateParts Template.parts; infer_instance

instance {close : Punct} : Reads source d (elements c close) := by
  unfold elements elementOrSpread; infer_instance

instance : Strides source d (arrayLiteral c) := by unfold arrayLiteral; infer_instance

instance : Strides source d (objectLiteral c) := by
  unfold objectLiteral property computedProperty literalProperty wordProperty; infer_instance

instance : Strides source d (parenthesized c) := by unfold parenthesized; infer_instance

/-- **A single operand takes a token or is reported**, whatever the token is. -/
instance strides_primary : Strides source d (primary c) :=
  .ask fun t => by split <;> infer_instance

/-! ## 4. Chains and operators -/

instance : Reads source d (memberName e optional) := by unfold memberName; infer_instance

instance : Reads source d (call c e optional) := by unfold call; infer_instance

instance : Reads source d (optionalLink c e) := by unfold optionalLink; infer_instance

instance : Reads source d (indexOrSlice c e) := by
  unfold indexOrSlice indexOrSliceInside; infer_instance

instance : Reads source d (taggedTemplate c e) := by unfold taggedTemplate; infer_instance

instance : Drifts source d (chainOn c optional e) := by unfold chainOn; infer_instance

instance {kind : Kind} : Drifts source d (linkOn c optional e kind) := by
  unfold linkOn
  split <;> infer_instance

instance drifts_chainRest : Drifts source d (chainRest c optional e) := by
  unfold chainRest; infer_instance

instance : Strides source d (chain c) := by unfold chain; infer_instance

instance : Strides source d (postfixed c) :=
  .bind inferInstance fun _ => .bind inferInstance fun _ => by split <;> infer_instance

instance strides_unary : Strides source d (unary c) :=
  .ask fun t => by split <;> infer_instance

instance drifts_binaryRest : Drifts source d (binaryRest c least e) :=
  .bind inferInstance fun s => by split <;> infer_instance

instance strides_binary : Strides source d (binary c least) := by unfold binary; infer_instance

instance : Strides source d (conditional c) := by unfold conditional; infer_instance

instance {sign : AssignSign} : Reads source d (assigned c sign e) :=
  .bind inferInstance fun _ => .bind inferInstance fun _ => by split <;> infer_instance

instance : Strides source d (destructuring c) :=
  .bind inferInstance fun _ => .bind inferInstance fun _ => by split <;> infer_instance

instance : Strides source d (plainAssignment c) :=
  .bind inferInstance fun _ => .bind inferInstance fun _ => by split <;> infer_instance

end

/-- **An expression meets the contract** if the level below serves the depth below. -/
instance strides_assignment {source : Text} {d : Nat} {c : Context} [c.Serves source (d + 1)] :
    Strides source d (assignment c) := by
  unfold assignment; infer_instance

/-- A reader on its way out gives up an expression at once. -/
theorem assignment_of_tooDeep {c : Context} {s : State} (hdeep : s.tooDeep = true) :
    assignment c s = .ok (.bad s.current.pos, s) := by
  obtain ⟨cursor, current, previous, nesting, braceBlocks, lineIndent, depth, tooDeep, reports⟩ := s
  cases hdeep
  rfl

end ReactiveScript.Grammar
