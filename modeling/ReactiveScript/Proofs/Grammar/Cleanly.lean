import ReactiveScript.Proofs.Grammar.Clean
import ReactiveScript.Proofs.Grammar.Ending

/-!
# What clean runs lead to

`Cleanly x s Q` says that a run of `x` from `s` that leaves no report ends as `Q` says. The rules
follow a routine from state to state, in the manner of weakest preconditions; a branch that leaves a
report needs no proof.
-/

namespace ReactiveScript.Grammar

/-! ## 1. Faults -/

/-- A routine that always leaves a report, unless the reader has given up. -/
class Faulty {α : Type} (x : Reading α) : Prop where
  reports_ne : ∀ {s t : State} {a : α}, x s = .ok (a, t) → s.tooDeep = false → t.reports ≠ []

instance (r : Report) : Faulty (report r) :=
  ⟨fun h _ => by cases h; exact List.cons_ne_nil _ _⟩

instance (f : ParseFault) (p : Position) : Faulty (faultAt f p) :=
  ⟨fun {s t a} h hs => by
    cases h
    show (s.fault f p).reports ≠ []
    rw [State.fault, hs, if_neg Bool.false_ne_true]
    exact List.cons_ne_nil _ _⟩

/-- What follows a fault does not take it back. -/
instance {α β : Type} {x : Reading α} [hx : Faulty x] {f : α → Reading β}
    [hf : ∀ a, Adds (f a)] : Faulty (x >>= f) :=
  ⟨fun h hs ht => by
    obtain ⟨a, u, hxu, hfu⟩ := bind_eq_ok h
    exact hx.reports_ne hxu hs ((hf a).reports_nil hfu ht)⟩

/-- A question in front of a fault. -/
theorem faulty_token {β : Type} {f : Token → Reading β} (hf : ∀ t, Faulty (f t)) :
    Faulty (token >>= f) :=
  ⟨fun h hs => by
    obtain ⟨t, u, hu, hrun⟩ := bind_eq_ok h
    cases hu
    exact (hf _).reports_ne hrun hs⟩

instance (f : ParseFault) : Faulty (fault f) := faulty_token fun _ => inferInstance

instance (w : Wanted) : Faulty (expected w) := faulty_token fun _ => inferInstance

instance (c : Context) (f : ParseFault) : Faulty (skipFaulty c f) := by
  unfold skipFaulty; infer_instance

/-- A run of `x` from `s` that leaves no report ends as `Q` says. -/
def Cleanly {α : Type} (x : Reading α) (s : State) (Q : α → State → Prop) : Prop :=
  ∀ ⦃a : α⦄ ⦃t : State⦄, x s = .ok (a, t) → t.reports = [] → Q a t

namespace Cleanly
variable {α β : Type} {x : Reading α} {f : α → Reading β} {s : State} {P : α → State → Prop}
  {Q : β → State → Prop}

/-! ## 2. Ways to put routines together -/

theorem mono {R : α → State → Prop} (h : Cleanly x s P) (hPR : ∀ a t, P a t → R a t) :
    Cleanly x s R :=
  fun a t hx ht => hPR a t (h hx ht)

/-- A fact about all runs holds of the clean ones. -/
theorem along {R : α → State → Prop} (h : Cleanly x s P)
    (hR : Always x s R) : Cleanly x s fun a t => P a t ∧ R a t :=
  fun _ _ hx ht => ⟨h hx ht, hR hx⟩

theorem pure {a : α} (h : P a s) : Cleanly (Pure.pure a) s P := by
  intro b t hx _
  cases hx
  exact h

theorem bind (hx : Cleanly x s P) (hf : ∀ a t, P a t → Cleanly (f a) t Q)
    [r : AddsAll f] :
    Cleanly (x >>= f) s Q := by
  intro b t hrun ht
  obtain ⟨a, u, hxu, hfu⟩ := bind_eq_ok hrun
  exact hf a u (hx hxu ((r.adds a).reports_nil hfu ht)) hfu ht

theorem map {g : α → β} (h : Cleanly x s fun a t => Q (g a) t) : Cleanly (g <$> x) s Q := by
  rw [map_eq_pure_bind]
  exact bind h fun _ _ ha => pure ha

theorem ite {b : Prop} [Decidable b] {y : Reading α} (hx : b → Cleanly x s P)
    (hy : ¬ b → Cleanly y s P) : Cleanly (if b then x else y) s P := by
  split
  · exact hx ‹_›
  · exact hy ‹_›

theorem outOfRounds : Cleanly (Grammar.outOfRounds : Reading α) s P := fun _ _ hx => by cases hx

theorem readIf {wanted : Bool} {P : Option α → State → Prop}
    (hyes : wanted = true → Cleanly x s fun a t => P (some a) t) (hno : wanted = false → P none s) :
    Cleanly (Grammar.readIf wanted x) s P := by
  unfold Grammar.readIf
  refine ite (fun h => map (hyes h)) fun h => pure (hno ?_)
  simpa using h

/-! ## 3. Questions and steps -/

theorem get {f : State → Reading β} (h : Cleanly (f s) s Q) : Cleanly (MonadState.get >>= f) s Q := h

theorem token {f : Token → Reading β} (h : Cleanly (f s.current) s Q) :
    Cleanly (Grammar.token >>= f) s Q := h

theorem sees {k : Kind} {f : Bool → Reading β} (h : Cleanly (f (s.sees k)) s Q) :
    Cleanly (Grammar.sees k >>= f) s Q := h

theorem seesWord {w : Text} {f : Bool → Reading β} (h : Cleanly (f (s.seesWord w)) s Q) :
    Cleanly (Grammar.seesWord w >>= f) s Q := h

theorem atEnd {f : Bool → Reading β} (h : Cleanly (f s.atEnd) s Q) :
    Cleanly (Grammar.atEnd >>= f) s Q := h

theorem canContinue {f : Bool → Reading β} (h : Cleanly (f s.canContinue) s Q) :
    Cleanly (Grammar.canContinue >>= f) s Q := h

theorem seesTagEnd {f : Bool → Reading β}
    (h : Cleanly (f (s.current.startsWith Byte.greater)) s Q) :
    Cleanly (Grammar.seesTagEnd >>= f) s Q := h

theorem take {f : Token → Reading β} (h : Cleanly (f s.current) s.advance Q) :
    Cleanly (Grammar.take >>= f) s Q := h

theorem advance {f : Unit → Reading β} (h : Cleanly (f ()) s.advance Q) :
    Cleanly (Grammar.advance >>= f) s Q := h

/-- The last step goes on to the next token. -/
theorem advanced {P : Unit → State → Prop} (h : P () s.advance) : Cleanly Grammar.advance s P := by
  intro u t hx _
  cases hx
  exact h

/-- A state that is changed behind a routine. -/
theorem changed {g : State → State} (hg : ∀ t, (g t).reports = t.reports)
    (h : Cleanly x s fun a t => P a (g t)) :
    Cleanly (x >>= fun a => modify g >>= fun _ => Pure.pure a) s P := by
  intro a t hrun ht
  obtain ⟨b, u, hu, hrun⟩ := bind_eq_ok hrun
  cases hrun
  exact h hu ((hg u).symm.trans ht)

theorem modify {g : State → State} {f : Unit → Reading β} (h : Cleanly (f ()) (g s) Q) :
    Cleanly (modify g >>= f) s Q := h

/-! ## 4. Branches on the current token -/

section
variable {yes no : Reading α} {k : Kind}

theorem ifSees (hyes : s.current.kind = k → Cleanly yes s P)
    (hno : s.current.kind ≠ k → Cleanly no s P) :
    Cleanly (do if ← Grammar.sees k then yes else no) s P := by
  refine sees (ite (fun h => hyes ?_) fun h => hno ?_)
  · simpa [State.sees] using h
  · simpa [State.sees] using h

theorem accept {f : Bool → Reading β} (hyes : s.current.kind = k → Cleanly (f true) s.advance Q)
    (hno : s.current.kind ≠ k → Cleanly (f false) s Q) : Cleanly (Grammar.accept k >>= f) s Q := by
  intro b t hrun ht
  obtain ⟨a, u, haccept, hrun⟩ := bind_eq_ok hrun
  obtain ⟨_, v, hsees, haccept⟩ := bind_eq_ok haccept
  cases hsees
  split at haccept
  · rename_i hk
    cases haccept
    exact hyes (by simpa [State.sees] using hk) hrun ht
  · rename_i hk
    cases haccept
    exact hno (by simpa [State.sees] using hk) hrun ht

theorem ifAccept (hyes : s.current.kind = k → Cleanly yes s.advance P)
    (hno : s.current.kind ≠ k → Cleanly no s P) :
    Cleanly (do if ← Grammar.accept k then yes else no) s P :=
  accept hyes hno

/-! ## 5. Behind a fault -/

theorem fault [hx : Faulty x] (hdeep : s.tooDeep = false) : Cleanly x s P :=
  fun _ _ hrun ht => absurd ht (hx.reports_ne hrun hdeep)

/-- Behind a fault no run is clean. -/
theorem faulty [hx : Faulty x] (hdeep : s.tooDeep = false)
    [r : AddsAll f] :
    Cleanly (x >>= f) s Q := by
  intro b t hrun ht
  obtain ⟨a, u, hxu, hfu⟩ := bind_eq_ok hrun
  exact absurd ((r.adds a).reports_nil hfu ht) (hx.reports_ne hxu hdeep)

/-- Where reports are made of what was read, there are none. -/
theorem reportAll {rs : List Report} {f : Unit → Reading β} (h : rs = [] → Cleanly (f ()) s Q)
    [r : AddsAll f] : Cleanly (Grammar.reportAll rs >>= f) s Q := by
  cases rs with
  | nil => exact h rfl
  | cons report rs =>
    intro b t hrun ht
    obtain ⟨_, u, hu, hfu⟩ := bind_eq_ok hrun
    have hrest : Adds (Grammar.reportAll rs) := inferInstance
    exact absurd (hrest.reports_nil hu ((r.adds ()).reports_nil hfu ht)) (List.cons_ne_nil _ _)

/-- A token that is wanted is there. -/
theorem expect {f : Bool → Reading β} (hdeep : s.tooDeep = false)
    (h : s.current.kind = k → Cleanly (f true) s.advance Q)
    [r : AddsAll f] :
    Cleanly (Grammar.expect k >>= f) s Q := by
  have hwanted : Cleanly (Grammar.expect k) s fun b t => b = true ∧ t = s.advance ∧
      s.current.kind = k :=
    ifAccept (fun hk => pure ⟨rfl, rfl, hk⟩) fun _ => token (faulty hdeep)
  refine bind hwanted fun b t hb => ?_
  obtain ⟨rfl, rfl, hk⟩ := hb
  exact h hk

/-- A token that is wanted is there, and is given. -/
theorem expectToken {f : Option Token → Reading β} (hdeep : s.tooDeep = false)
    (h : s.current.kind = k → Cleanly (f (some s.current)) s.advance Q)
    [r : AddsAll f] :
    Cleanly (Grammar.expectToken k >>= f) s Q := by
  have hadds : AddsAll fun found : Bool => f (if found then some s.current else none) :=
    ⟨fun _ => r.adds _⟩
  rw [expectToken_bind]
  exact token (expect hdeep h)

end

/-! ## 6. Brackets, blocks and depth -/

theorem bracketed (h : Cleanly x { s with nesting := s.nesting + 1 }
    fun a t => P a { t with nesting := t.nesting - 1 }) : Cleanly (Grammar.bracketed x) s P :=
  modify (changed (fun _ => rfl) h)

theorem insideBraces (h : Cleanly x { s with braceBlocks := s.braceBlocks + 1 }
    fun a t => P a { t with braceBlocks := t.braceBlocks - 1 }) :
    Cleanly (Grammar.insideBraces x) s P :=
  modify (changed (fun _ => rfl) h)

theorem outsideBrackets (h : Cleanly x { s with nesting := 0 }
    fun a t => P a { t with nesting := s.nesting }) : Cleanly (Grammar.outsideBrackets x) s P :=
  get (modify (changed (fun _ => rfl) h))

theorem restoringDepth (h : Cleanly x s fun a t => P a { t with depth := s.depth }) :
    Cleanly (Grammar.restoringDepth x) s P :=
  get (changed (fun _ => rfl) h)

/-- A clean run goes deeper only below the limit. -/
theorem deeper_of_lt {y : Reading α} [Adds x] [Adds y] (hdeep : s.tooDeep = false)
    (h : s.depth < maxDepth → Cleanly x { s with depth := s.depth + 1 } P) :
    Cleanly (Grammar.deeper y x) s P := by
  intro a t hrun ht
  have hdeepened : Grammar.deeper y x s = (if s.deepened.tooDeep then y else x) s.deepened := rfl
  have hadds : Adds (if s.deepened.tooDeep then y else x) := inferInstance
  rw [hdeepened] at hrun
  have hclean := hadds.reports_nil hrun ht
  by_cases hd : s.depth < maxDepth
  · have hstate : s.deepened = { s with depth := s.depth + 1 } := by
      rw [State.deepened, State.checkDepth, if_neg (by simp; omega)]
    rw [hstate, if_neg (by simp [hdeep])] at hrun
    exact h hd hrun ht
  · rw [State.deepened, State.checkDepth, if_pos (by simp [hdeep]; omega)] at hclean
    exact absurd hclean (List.cons_ne_nil _ _)

/-- A clean run that goes deeper is not too deep there. -/
theorem deeper {y : Reading α} [Adds x] [Adds y] (hdeep : s.tooDeep = false)
    (h : Cleanly x { s with depth := s.depth + 1 } P) : Cleanly (Grammar.deeper y x) s P :=
  deeper_of_lt hdeep fun _ => h

theorem nested {y : Reading α} [Adds x] [Adds y] (hdeep : s.tooDeep = false)
    (h : Cleanly x { s with depth := s.depth + 1 } fun a t => P a { t with depth := s.depth }) :
    Cleanly (Grammar.nested y x) s P :=
  restoringDepth (deeper hdeep h)

end Cleanly

end ReactiveScript.Grammar
