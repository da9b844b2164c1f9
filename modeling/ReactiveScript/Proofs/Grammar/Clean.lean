import ReactiveScript.Proofs.Grammar.Moves

/-!
# Runs without a report

An accepted source is one whose reading ends without a report. What such a clean run builds can be
judged from its end, because no routine takes a report back: if there is none at the end, there was
none anywhere on the way.
-/

namespace ReactiveScript.Grammar

-- The instance of a routine is as large as the routine.
set_option synthInstance.maxSize 1000

/-- A routine that only adds reports: where it leaves none, it found none. -/
class Adds {α : Type} (x : Reading α) : Prop where
  reports_nil : ∀ {s t : State} {a : α}, x s = .ok (a, t) → t.reports = [] → s.reports = []

/-- What follows a routine only adds reports, whatever the routine gives. -/
class AddsAll {α β : Type} (f : α → Reading β) : Prop where
  adds : ∀ a, Adds (f a)

/-! ## 1. Reports are never taken back -/

/-- Where a reader has no report in the end, it had none. -/
def State.Adding (s t : State) : Prop := t.reports = [] → s.reports = []

instance : Recounts State.Adding where
  refl _ := id
  trans h h' := h ∘ h'
  next s h := by
    unfold State.advance at h
    dsimp only at h
    split at h <;> exact (List.append_eq_nil_iff.mp h).2
  find _ _ _ h := absurd h (List.cons_ne_nil _ _)
  blame s f p _ h := by
    unfold State.fault at h
    split at h
    · exact h
    · exact absurd h (List.cons_ne_nil _ _)
  giveUp _ _ h := absurd h (List.cons_ne_nil _ _)
  recount _ _ _ _ := id

instance {c : Context} : Recovers State.Adding c := recovers_of_reset (fun _ => id) c

/-- Where no source is given, nothing is asked of a value. -/
instance (priority := 1) {α : Type} : Placed α := ⟨fun _ _ => True, fun _ => trivial⟩

section
variable {α β : Type} {x : Reading α} {f : α → Reading β}

instance (priority := low) adds_of_moves [Placed α] [h : Moves none (UpToDepth State.Adding) x x] :
    Adds x := ⟨h.keeps⟩

instance (priority := low) moves_of_adds [Placed α] [h : Adds x] : Moves none State.Adding x x :=
  .of_keeps h.reports_nil

instance (priority := low) [Placed α] [Placed β]
    [h : MovesAll none State.Adding f f] : AddsAll f :=
  ⟨fun a => ⟨(h.moves a inferInstance).keeps⟩⟩

instance (priority := low) [Placed α] [Placed β] [h : AddsAll f] :
    MovesAll none State.Adding f f :=
  ⟨fun a _ => .of_keeps (h.adds a).reports_nil⟩

/-- Where what follows goes by cases, the instance is found case by case. -/
theorem Adds.seq (hx : Adds x) (hf : ∀ a, Adds (f a)) : Adds (x >>= f) :=
  have : AddsAll f := ⟨hf⟩
  inferInstance

end

/-- What goes by cases on the token behind a value. -/
theorem AddsAll.token {α β : Type} {f : α → Token → Reading β} (h : ∀ a t, Adds (f a t)) :
    AddsAll fun a => Grammar.token >>= f a :=
  ⟨fun a => .seq inferInstance (h a)⟩

/-! ## 2. Any fault, and any place to go back to -/

/-- A change of the state that only adds reports. -/
theorem adds_modify {f : State → State} (h : ∀ s, (f s).reports = [] → s.reports = []) :
    Adds (modify f : Reading Unit) :=
  ⟨fun hrun ht => by cases hrun; exact h _ ht⟩

instance (r : Report) : Adds (report r) :=
  adds_modify fun _ h => absurd h (List.cons_ne_nil _ _)

instance (rs : List Report) : Adds (reportAll rs) := by
  induction rs with
  | nil => exact inferInstanceAs (Adds (pure ()))
  | cons r rs ih =>
    have hcons : reportAll (r :: rs) = report r >>= fun _ => reportAll rs := rfl
    rw [hcons]
    infer_instance

instance (f : ParseFault) (p : Position) : Adds (faultAt f p) := by
  refine adds_modify fun s h => ?_
  unfold State.fault at h
  split at h
  · exact h
  · exact absurd h (List.cons_ne_nil _ _)

instance (f : ParseFault) : Adds (fault f) := by unfold fault; infer_instance

instance (source : Text) : Reenters State.Adding source :=
  ⟨fun {s width _} _ => Motion.next (R := State.Adding) (s.reenter source width),
    fun _ h => (List.append_eq_nil_iff.mp h).2⟩

/-- The routines of the level below only add reports. -/
abbrev Context.Adds (c : Context) : Prop := Context.Moves none State.Adding c c

section
variable (c : Context) [c.Adds]

instance adds_statement : Adds (statement c) :=
  .seq inferInstance fun t => by split <;> infer_instance

/-- **In a clean run nothing is left by recovery.** -/
theorem checked_clean {s t : State} {a : Stmt} (hrun : checked c s = .ok (a, t))
    (ht : t.reports = []) : statement c s = .ok (a, t) := by
  obtain ⟨_, _, hget, hrun⟩ := bind_eq_ok hrun
  cases hget
  obtain ⟨b, v, hstatement, hrun⟩ := bind_eq_ok hrun
  obtain ⟨_, _, hget, hrun⟩ := bind_eq_ok hrun
  cases hget
  have hrest : Adds (do
      if v.reports.length ≠ s.reports.length then
        recover c.rounds s.current.offset
        modify fun s => { s with tooDeep := false }
      return b) := by
    have hmodify : Adds (modify fun s => { s with tooDeep := false }) := adds_modify fun _ h => h
    infer_instance
  have hv : v.reports = [] := hrest.reports_nil hrun ht
  have hs : s.reports = [] := (adds_statement c).reports_nil hstatement hv
  dsimp only at hrun
  rw [if_neg (by simp [hs, hv])] at hrun
  cases hrun
  exact hstatement

instance (f : ParseFault) : Adds (skipFaulty c f) := by
  unfold skipFaulty; infer_instance

instance {σ : Type} (l : Layout σ) (memory : σ) (done : List Stmt)
    (rounds : Nat) : Adds (statementsFrom c l memory done rounds) := by
  induction rounds generalizing memory done with
  | zero => exact inferInstanceAs (Adds outOfRounds)
  | succ rounds ih =>
    unfold statementsFrom
    refine .seq inferInstance fun t => ?_
    split <;> infer_instance

instance (width : Nat) : Adds (advanceText c width) :=
  adds_modify fun _ h => (List.append_eq_nil_iff.mp h).2

instance (width : Nat) (inChildren : Bool) : Adds (leaveTag c width inChildren) := by
  have hmodify : Adds (modify (·.reenter c.source width)) := adds_modify fun _ h => h
  unfold leaveTag
  infer_instance

instance : Adds (slots c) := by unfold slots; infer_instance

instance (inChildren : Bool) (p : Position) : Adds (fragment c inChildren p) :=
  .seq inferInstance fun ss => by split <;> infer_instance

instance (inChildren : Bool) (p : Position) (name : Text)
    (attributes : List Attribute) : Adds (elementRest c inChildren p name attributes) := by
  unfold elementRest
  have hslots : Adds (do match ← slots c with
      | none => return .bad p
      | some ss =>
        if ← closingTag c name then
          leaveTag c 1 inChildren
          return .jsxElement p name attributes (childrenOf c ss) false
        else return .bad p : Reading Expr) :=
    .seq inferInstance fun ss => by split <;> infer_instance
  infer_instance

instance (optional : Bool) (e : Expr) (kind : Kind) : Adds (linkOn c optional e kind) := by
  unfold linkOn
  split <;> infer_instance

end

/-- **What a clean run of a hole is**: the reader stays where it is, and what stands in the hole was
    read cleanly, up to the end of the hole. -/
theorem hole_clean {c : Context} {h : Template.Hole} {s t : State} {o : Option Expr}
    (hrun : hole c h s = .ok (o, t)) (ht : t.reports = []) :
    t = s ∧ ∀ e ∈ o, ∃ u, c.inner.assignment { State.start (Cursor.place c.source h.pos) with
          nesting := 1, depth := s.depth } = .ok (e, u) ∧
        u.reports = [] ∧ u.current.offset = h.span.stop := by
  obtain ⟨e, u, hinner, rfl, rfl⟩ := hole_run c hrun
  by_cases hdeep : (u.tooDeep && !s.tooDeep) = true
  · rw [if_pos hdeep] at ht
    exact absurd ht (List.cons_ne_nil _ _)
  · refine ⟨if_neg hdeep, fun e' he' => ?_⟩
    split at he'
    · rename_i hend
      cases he'
      simp only [Bool.and_eq_true, List.isEmpty_iff, decide_eq_true_eq] at hend
      exact ⟨u, hinner, hend⟩
    · cases he'

end ReactiveScript.Grammar
