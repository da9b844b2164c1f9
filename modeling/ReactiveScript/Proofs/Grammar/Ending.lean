import ReactiveScript.Proofs.Grammar.Contract

/-!
# Runs that end

`Ends x s Q` says that a run of `x` from `s` is not cut short and ends as `Q` says. Where `Runs`
leaves room for a run that circles, this leaves none; the rules are the same otherwise.
-/

namespace ReactiveScript.Grammar

/-- A run of `x` from `s` comes to its end, as `Q` says. -/
def Ends {α : Type} (x : Reading α) (s : State) (Q : α → State → Prop) : Prop :=
  ∃ a s', x s = .ok (a, s') ∧ Q a s'

section
variable {α β : Type} {x : Reading α} {s : State} {Q : α → State → Prop}

theorem Ends.mono {R : α → State → Prop} (h : Ends x s Q) (hQR : ∀ a s', Q a s' → R a s') :
    Ends x s R := by
  obtain ⟨a, s', hx, hq⟩ := h
  exact ⟨a, s', hx, hQR a s' hq⟩

/-- A run that is not cut short is judged by what it leads to. -/
theorem ends_of_eq {a : α} {s' : State} (hx : x s = .ok (a, s')) : Ends x s Q ↔ Q a s' := by
  constructor
  · rintro ⟨a', s'', hx', hq⟩
    rw [hx] at hx'
    cases hx'
    exact hq
  · exact fun hq => ⟨a, s', hx, hq⟩

@[simp] theorem ends_pure {a : α} : Ends (pure a : Reading α) s Q ↔ Q a s := ends_of_eq rfl

theorem ends_bind {f : α → Reading β} {Q : β → State → Prop} :
    Ends (x >>= f) s Q ↔ Ends x s fun a s' => Ends (f a) s' Q := by
  have hrun : (x >>= f) s = x s >>= fun p => f p.1 p.2 := rfl
  constructor
  · rintro ⟨b, s', hx, hq⟩
    rw [hrun] at hx
    cases hfirst : x s with
    | error u =>
      rw [hfirst] at hx
      cases hx
    | ok p =>
      rw [hfirst] at hx
      exact ⟨p.1, p.2, hfirst, b, s', hx, hq⟩
  · rintro ⟨a, s₁, hx, b, s', hf, hq⟩
    refine ⟨b, s', ?_, hq⟩
    rw [hrun, hx]
    exact hf

@[simp] theorem ends_map {f : α → β} {Q : β → State → Prop} :
    Ends (f <$> x) s Q ↔ Ends x s fun a s' => Q (f a) s' := by
  rw [map_eq_pure_bind, ends_bind]
  simp only [ends_pure]

end

section
variable {α : Type} {s : State} {Q : α → State → Prop} {k : Kind}

@[simp] theorem ends_get {f : State → Reading α} : Ends (get >>= f) s Q ↔ Ends (f s) s Q := Iff.rfl

@[simp] theorem ends_modify {g : State → State} {f : Unit → Reading α} :
    Ends (modify g >>= f) s Q ↔ Ends (f ()) (g s) Q := Iff.rfl

@[simp] theorem ends_token {f : Token → Reading α} :
    Ends (token >>= f) s Q ↔ Ends (f s.current) s Q := Iff.rfl

@[simp] theorem ends_sees {f : Bool → Reading α} :
    Ends (sees k >>= f) s Q ↔ Ends (f (s.sees k)) s Q := Iff.rfl

@[simp] theorem ends_atEnd {f : Bool → Reading α} :
    Ends (atEnd >>= f) s Q ↔ Ends (f s.atEnd) s Q := Iff.rfl

@[simp] theorem ends_canContinue {f : Bool → Reading α} :
    Ends (canContinue >>= f) s Q ↔ Ends (f s.canContinue) s Q := Iff.rfl

@[simp] theorem ends_advance {f : Unit → Reading α} :
    Ends (advance >>= f) s Q ↔ Ends (f ()) s.advance Q := Iff.rfl

@[simp] theorem ends_take {f : Token → Reading α} :
    Ends (take >>= f) s Q ↔ Ends (f s.current) s.advance Q := Iff.rfl

theorem ends_accept_of_sees {f : Bool → Reading α} (hk : s.sees k = true) :
    Ends (accept k >>= f) s Q ↔ Ends (f true) s.advance Q :=
  ends_bind.trans (ends_of_eq (accept_of_sees hk))

theorem ends_accept_of_not_sees {f : Bool → Reading α} (hk : s.sees k = false) :
    Ends (accept k >>= f) s Q ↔ Ends (f false) s Q := by
  rw [accept, bind_assoc, ends_sees, hk]
  exact Iff.rfl

/-- A branch on a token that is there. -/
theorem ends_ifAccept_of_sees (hk : s.sees k = true) {yes no : Reading α} :
    Ends (do if ← accept k then yes else no) s Q ↔ Ends yes s.advance Q :=
  ends_accept_of_sees hk

/-- A branch on a token that is not there. -/
theorem ends_ifAccept_of_not_sees (hk : s.sees k = false) {yes no : Reading α} :
    Ends (do if ← accept k then yes else no) s Q ↔ Ends no s Q :=
  ends_accept_of_not_sees hk

theorem ends_expect_of_sees {f : Bool → Reading α} (hk : s.sees k = true) :
    Ends (expect k >>= f) s Q ↔ Ends (f true) s.advance Q :=
  ends_bind.trans (ends_of_eq (expect_of_sees hk))

theorem expectToken_bind (f : Option Token → Reading α) :
    expectToken k >>= f =
      token >>= fun t => expect k >>= fun found => f (if found then some t else none) := by
  simp only [expectToken, bind_assoc]
  refine congrArg (token >>= ·) (funext fun t => congrArg (expect k >>= ·) (funext fun found => ?_))
  cases found <;> rfl

theorem ends_expectToken_of_sees {f : Option Token → Reading α} (hk : s.sees k = true) :
    Ends (expectToken k >>= f) s Q ↔ Ends (f (some s.current)) s.advance Q := by
  rw [expectToken_bind, ends_token, ends_expect_of_sees hk]
  exact Iff.rfl

@[simp] theorem ends_bracketed {x : Reading α} :
    Ends (bracketed x) s Q ↔ Ends x { s with nesting := s.nesting + 1 }
      fun a s' => Q a { s' with nesting := s'.nesting - 1 } := by
  rw [bracketed, ends_modify, ends_bind]
  simp only [ends_modify, ends_pure]

@[simp] theorem ends_restoringDepth {x : Reading α} :
    Ends (restoringDepth x) s Q ↔ Ends x s fun a s' => Q a { s' with depth := s.depth } := by
  rw [restoringDepth, ends_get, ends_bind]
  simp only [ends_modify, ends_pure]

/-- Going deeper where that is not too deep. -/
theorem ends_deeper {givenUp body : Reading α} (hs : s.deepened.tooDeep = false) :
    Ends (deeper givenUp body) s Q ↔ Ends body s.deepened Q := by
  have hrun : Ends (deeper givenUp body) s Q ↔
      Ends (if s.deepened.tooDeep then givenUp else body) s.deepened Q := Iff.rfl
  rw [hrun, hs, if_neg Bool.false_ne_true]

theorem ends_nested {givenUp body : Reading α} (hs : s.deepened.tooDeep = false) :
    Ends (nested givenUp body) s Q ↔
      Ends body s.deepened fun a s' => Q a { s' with depth := s.depth } := by
  rw [nested, ends_restoringDepth, ends_deeper hs]

end

end ReactiveScript.Grammar
