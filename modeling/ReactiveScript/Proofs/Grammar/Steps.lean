import Mathlib.Logic.Relation
import ReactiveScript.Proofs.Grammar.Clean

/-!
# The steps of a reader

Whatever a routine does, it does by a few kinds of steps: it takes the next token, goes back into
the token that it holds, notes a report, or changes what it counts. What every step keeps is kept by
every run of every routine, whether it comes to a fault or not.
-/

namespace ReactiveScript.Grammar

/-- One step of a reader. -/
inductive State.Step (source : Text) : State → State → Prop
  | next (s : State) : Step source s s.advance
  | back {s : State} {width : Nat} {t : Token} (hclose : s.current.Closes width t) :
      Step source s (s.reenter source width).advance
  | text {s : State} {width : Nat} {t : Token} (hclose : s.current.Closes width t) :
      Step source s
        ((s.reenter source width).accept (Cursor.inside source s.current width).jsxText)
  | report (s : State) (r : Report) : Step source s (s.report r)
  | recount (s : State) (nesting braceBlocks depth : Nat) (tooDeep : Bool) :
      Step source s
        { s with
          nesting := nesting
          braceBlocks := braceBlocks
          depth := depth
          tooDeep := tooDeep }

/-- Any number of steps. -/
abbrev State.Steps (source : Text) : State → State → Prop :=
  Relation.ReflTransGen (State.Step source)

/-- Every run of a routine is made of steps. -/
class InSteps (source : Text) {α : Type} (x : Reading α) : Prop where
  steps : ∀ {s t : State} {a : α}, x s = .ok (a, t) → State.Steps source s t

/-! ## 1. Every move is made of steps -/

section
variable {source : Text}

instance : Recounts (State.Steps source) where
  refl _ := .refl
  trans := .trans
  next s := .single (.next s)
  find s r _ := .single (.report s r)
  blame s f p _ := by
    unfold State.fault
    split
    · exact .refl
    · exact .single (.report s _)
  giveUp {s} _ _ := .tail (.single (.report s _)) (.recount (s.report _) _ _ _ true)
  recount s _ _ _ := .single (.recount s _ _ _ _)

instance {c : Context} : Recovers (State.Steps source) c :=
  recovers_of_reset (fun s => .single (.recount s _ _ _ _)) c

instance : Reenters (State.Steps source) source :=
  ⟨fun h => .single (.back h), fun h => .single (.text h)⟩

variable {α : Type} [Placed α] {x : Reading α}

instance (priority := low) inSteps_of_moves [h : Moves none (UpToDepth (State.Steps source)) x x] :
    InSteps source x :=
  ⟨fun {_ t _} hrun => .tail (h.keeps hrun) (.recount _ _ _ t.depth _)⟩

end

/-! ## 2. All levels -/

/-- The context is one of the source, and the runs of the routines of the level below are made of
    steps. -/
class Context.InSteps (source : Text) (c : Context) : Prop where
  source_eq : c.source = source
  moves : Context.Moves none (State.Steps source) c c

attribute [instance] Context.InSteps.moves

instance Context.raised_inSteps {source : Text} (c : Context) [hc : c.InSteps source] (n : Nat) :
    (c.raised n).InSteps source := by
  refine ⟨?_, raised_moves⟩
  cases n <;> exact hc.source_eq

instance Context.ground_inSteps (source : Text) (rounds : Nat) :
    (Context.ground source rounds).InSteps source := ⟨rfl, ground_moves_none⟩

/-- The context is a level of the grammar of a source. -/
def Context.Level (source : Text) (c : Context) : Prop :=
  ∃ rounds n, c = (Context.ground source rounds).raised n

theorem Context.Level.inSteps {source : Text} {c : Context} (h : c.Level source) :
    c.InSteps source := by
  obtain ⟨rounds, n, rfl⟩ := h
  infer_instance

end ReactiveScript.Grammar
