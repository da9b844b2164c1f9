import ReactiveScript.Proofs.Grammar.Clean

/-!
# The counts of a reader are restored

Three counts say where a reader stands: the brackets and the blocks in braces that are open around
it, and its depth. Each construct changes them for its parts. Whatever happens in between, a fault,
recovery or the depth limit, they are as before where it ends.
-/

namespace ReactiveScript.Grammar

open Grammar

/-! ## 1. The relation -/

/-- The counts of a reader are those of another one. -/
structure State.SameCounts (s t : State) : Prop where
  nesting : t.nesting = s.nesting
  braceBlocks : t.braceBlocks = s.braceBlocks
  depth : t.depth = s.depth

namespace State.SameCounts

theorem advance (s : State) : s.SameCounts s.advance :=
  ⟨s.advance_nesting, s.advance_braceBlocks, s.advance_depth⟩

instance : Returns SameCounts where
  refl _ := ⟨rfl, rfl, rfl⟩
  trans h h' := ⟨h'.nesting.trans h.nesting, h'.braceBlocks.trans h.braceBlocks, h'.depth.trans h.depth⟩
  next := advance
  find _ _ _ := ⟨rfl, rfl, rfl⟩
  blame s f p _ := by
    unfold State.fault
    split <;> exact ⟨rfl, rfl, rfl⟩
  giveUp _ _ := ⟨rfl, rfl, rfl⟩
  bracketed h := ⟨congrArg (· - 1) h.nesting, h.braceBlocks, h.depth⟩
  outside h := ⟨rfl, h.braceBlocks, h.depth⟩
  braced h := ⟨h.nesting, congrArg (· - 1) h.braceBlocks, h.depth⟩
  restore h := ⟨h.nesting, h.braceBlocks, rfl⟩
  redepth _ h := ⟨h.nesting, h.braceBlocks, rfl⟩

instance {c : Context} : Recovers SameCounts c := recovers_of_reset (fun _ => ⟨rfl, rfl, rfl⟩) c

instance (source : Text) : Reenters SameCounts source :=
  ⟨fun {s width _} _ => Motion.trans (t := s.reenter source width) ⟨rfl, rfl, rfl⟩ (advance _),
    fun _ => ⟨rfl, rfl, rfl⟩⟩

end State.SameCounts

/-- From whichever token text is read: where it stands matters to other relations only. -/
instance {c : Context} {width : Nat} :
    Moves none State.SameCounts (advanceText c width) (advanceText c width) :=
  .of_keeps fun hrun => by cases hrun; exact ⟨rfl, rfl, rfl⟩

instance {c : Context} [Context.Moves none State.SameCounts c c] :
    Moves none State.SameCounts (slots c) (slots c) := by
  unfold slots; infer_instance

/-! ## 2. The routines -/

/-- A routine for a construct of the language, with whatever it is given beside its context. -/
inductive IsRoutine (c : Context) : ∀ {α : Type}, Reading α → Prop
  | program : IsRoutine c (program c)
  | checked : IsRoutine c (checked c)
  | statement : IsRoutine c (statement c)
  | expressionStmt m p : IsRoutine c (expressionStmt c m p)
  | returnStmt m p : IsRoutine c (returnStmt c m p)
  | modifierStmt : IsRoutine c (modifierStmt c)
  | exportStmt : IsRoutine c (exportStmt c)
  | importStmt : IsRoutine c (importStmt c)
  | block header : IsRoutine c (block c header)
  | braceBlock : IsRoutine c (braceBlock c)
  | indentedBlock header : IsRoutine c (indentedBlock c header)
  | assignment : IsRoutine c (assignment c)
  | destructuring : IsRoutine c (destructuring c)
  | conditional : IsRoutine c (conditional c)
  | binary least : IsRoutine c (binary c least)
  | unary : IsRoutine c (unary c)
  | postfixed : IsRoutine c (postfixed c)
  | chain : IsRoutine c (chain c)
  | memberName e optional : IsRoutine c (memberName e optional)
  | indexOrSlice e : IsRoutine c (indexOrSlice c e)
  | call e optional : IsRoutine c (call c e optional)
  | elements close : IsRoutine c (elements c close)
  | primary : IsRoutine c (primary c)
  | parenthesized : IsRoutine c (parenthesized c)
  | arrayLiteral : IsRoutine c (arrayLiteral c)
  | objectLiteral : IsRoutine c (objectLiteral c)
  | templateParts t : IsRoutine c (templateParts c t)
  | hole h : IsRoutine c (hole c h)
  | arrow : IsRoutine c (arrow c)
  | param : IsRoutine c (param c)
  | pattern : IsRoutine c (pattern c)
  | bindingTarget : IsRoutine c (bindingTarget c)
  | arrayPattern : IsRoutine c (arrayPattern c)
  | objectPattern : IsRoutine c (objectPattern c)
  | jsx inChildren : IsRoutine c (jsx c inChildren)
  | jsxName : IsRoutine c (jsxName c)
  | attributes : IsRoutine c (attributesFrom c [] c.rounds)
  | slots : IsRoutine c (slots c)

/-- Each routine keeps to the relation, as the level below does. -/
theorem IsRoutine.sameCounts {c : Context} [Context.Moves none State.SameCounts c c] {α : Type}
    {x : Reading α} (hx : IsRoutine c x) {s t : State} {a : α} (h : x s = .ok (a, t)) :
    s.SameCounts t := by
  cases hx <;> exact Moves.keeps inferInstance h

/-- **The counts are restored.** In the grammar of any source, at any level and from any state, a
    routine that ends leaves the number of brackets and of blocks in braces that are open around the
    reader, and its depth, as they were. -/
theorem counts_restored (source : Text) (rounds level : Nat) {α : Type} {x : Reading α}
    (hx : IsRoutine ((Context.ground source rounds).raised level) x) {s t : State} {a : α}
    (h : x s = .ok (a, t)) :
    t.nesting = s.nesting ∧ t.braceBlocks = s.braceBlocks ∧ t.depth = s.depth := by
  have hcounts := hx.sameCounts h
  exact ⟨hcounts.nesting, hcounts.braceBlocks, hcounts.depth⟩

/-- Inside two brackets and a block: an element, a call and a list that are never closed, and a chain
    that reaches the depth limit. -/
theorem counts_restored_in_broken_source :
    let start (source : Text) (depth : Nat) : State :=
      { State.ofText source with nesting := 2, braceBlocks := 1, depth }
    let result (source : Text) (depth : Nat) :=
      assignment ((Context.ground source 20).raised 8) (start source depth)
    (∃ e t, result (txt "f(<b>\x7bc([") 7 = .ok (e, t) ∧ t.reports.length = 4 ∧
      t.nesting = 2 ∧ t.braceBlocks = 1 ∧ t.depth = 7) ∧
    ∃ e t, result (txt "[(a.b") (maxDepth - 2) = .ok (e, t) ∧ t.tooDeep = true ∧
      t.nesting = 2 ∧ t.braceBlocks = 1 ∧ t.depth = maxDepth - 2 := by
  intro start result
  have hresult (source : Text) (depth : Nat) (P : State → Prop) [DecidablePred P]
      (h : (match result source depth with
        | .ok (_, t) => decide (P t)
        | .error _ => false) = true) :
      ∃ e t, result source depth = .ok (e, t) ∧ P t ∧
        t.nesting = 2 ∧ t.braceBlocks = 1 ∧ t.depth = depth := by
    split at h
    · rename_i e t hrun
      exact ⟨e, t, hrun, of_decide_eq_true h, counts_restored source 20 8 .assignment hrun⟩
    · cases h
  exact ⟨hresult _ _ (fun t => t.reports.length = 4) (by decide +kernel),
    hresult _ _ (fun t => t.tooDeep = true) (by decide +kernel)⟩

end ReactiveScript.Grammar
