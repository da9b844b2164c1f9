import ReactiveScript.Grammar.Read

/-!
# Runs of a routine

What a routine leads to from a state, in the manner of weakest preconditions.
-/

namespace ReactiveScript.Grammar

/-! ## 1. States that stand still -/

/-- Does a statement take the current token although it gives up on its expression? -/
def State.movesAtOnce (s : State) : Bool :=
  match s.current.kind with
  | .modifier | .keyword .ret | .keyword .exports | .keyword .imports | .punct .semicolon => true
  | _ => false

/-- On its way out of something too deep, the reader gives up on every expression without a report,
    so that most statements take nothing. -/
def State.stuck (s : State) : Bool := s.tooDeep && !s.movesAtOnce

/-- A stuck reader at the first token of a line: the next statement starts where this one did. -/
def State.circles (s : State) : Bool := !s.atEnd && s.current.lineStart && s.stuck

/-! ## 2. Runs -/

/-- A run of `x` from `s` ends as `Q` says, or is cut short in a state that circles. -/
def Runs {α : Type} (x : Reading α) (s : State) (Q : α → State → Prop) : Prop :=
  match x s with
  | .ok (a, s') => Q a s'
  | .error u => u.state.circles = true

section
variable {α β : Type} {x : Reading α} {s : State} {Q : α → State → Prop}

theorem Runs.mono {R : α → State → Prop} (h : Runs x s Q) (hQR : ∀ a s', Q a s' → R a s') :
    Runs x s R := by
  unfold Runs at h ⊢
  cases hx : x s with
  | error u => simpa [hx] using h
  | ok p =>
    obtain ⟨a, s'⟩ := p
    rw [hx] at h
    exact hQR a s' h

theorem Runs.and {R : α → State → Prop} (hQ : Runs x s Q) (hR : Runs x s R) :
    Runs x s fun a s' => Q a s' ∧ R a s' := by
  unfold Runs at hQ hR ⊢
  cases hx : x s with
  | error u => simpa [hx] using hQ
  | ok p =>
    obtain ⟨a, s'⟩ := p
    rw [hx] at hQ hR
    exact ⟨hQ, hR⟩

/-- A run that is not cut short is judged by what it leads to. -/
theorem runs_of_eq {a : α} {s' : State} (hx : x s = .ok (a, s')) : Runs x s Q ↔ Q a s' := by
  unfold Runs
  rw [hx]

theorem Runs.of_error {u : Unfinished} (h : Runs x s Q) (hx : x s = .error u) :
    u.state.circles = true := by
  unfold Runs at h
  rw [hx] at h
  exact h

theorem bind_of_eq_ok {f : α → Reading β} {a : α} {s' : State} (hx : x s = .ok (a, s')) :
    (x >>= f) s = f a s' := by
  have hrun : (x >>= f) s = x s >>= fun p => f p.1 p.2 := rfl
  rw [hrun, hx]
  rfl

@[simp] theorem runs_pure {a : α} : Runs (pure a : Reading α) s Q ↔ Q a s := Iff.rfl

@[simp] theorem runs_bind {f : α → Reading β} {Q : β → State → Prop} :
    Runs (x >>= f) s Q ↔ Runs x s fun a s' => Runs (f a) s' Q := by
  have hrun : (x >>= f) s = x s >>= fun p => f p.1 p.2 := rfl
  unfold Runs
  rw [hrun]
  cases x s with
  | error u => exact Iff.rfl
  | ok p => exact Iff.rfl

@[simp] theorem runs_map {f : α → β} {Q : β → State → Prop} :
    Runs (f <$> x) s Q ↔ Runs x s fun a s' => Q (f a) s' := by
  rw [map_eq_pure_bind, runs_bind]
  exact Iff.rfl

@[simp] theorem runs_get {Q : State → State → Prop} : Runs (get : Reading State) s Q ↔ Q s s :=
  Iff.rfl

@[simp] theorem runs_modify {f : State → State} {Q : Unit → State → Prop} :
    Runs (modify f : Reading Unit) s Q ↔ Q () (f s) := Iff.rfl

@[simp] theorem runs_ite {b : Prop} [Decidable b] {y : Reading α} :
    Runs (if b then x else y) s Q ↔ if b then Runs x s Q else Runs y s Q := by
  by_cases h : b <;> simp [h]

/-- A run on a state of its own. -/
@[simp] theorem runs_liftM {inner : State} {Q : α × State → State → Prop} :
    Runs (liftM (x.run inner) : Reading (α × State)) s Q ↔
      Runs x inner fun a s' => Q (a, s') s := by
  have hrun : (liftM (x.run inner) : Reading (α × State)) s =
      x inner >>= fun p => pure (p, s) := rfl
  unfold Runs
  rw [hrun]
  cases x inner with
  | error u => exact Iff.rfl
  | ok p => exact Iff.rfl

end

/-! ## 3. Operations on the state -/

section
variable {s : State} {Q : Bool → State → Prop} {k : Kind}

@[simp] theorem runs_token {Q : Token → State → Prop} : Runs token s Q ↔ Q s.current s := Iff.rfl

@[simp] theorem runs_sees : Runs (sees k) s Q ↔ Q (s.sees k) s := Iff.rfl

@[simp] theorem runs_atEnd : Runs atEnd s Q ↔ Q s.atEnd s := Iff.rfl

@[simp] theorem runs_advance {Q : Unit → State → Prop} : Runs advance s Q ↔ Q () s.advance :=
  Iff.rfl

@[simp] theorem runs_take {Q : Token → State → Prop} :
    Runs take s Q ↔ Q s.current s.advance := Iff.rfl

theorem accept_of_sees (hk : s.sees k = true) : accept k s = .ok (true, s.advance) := by
  have hsees : sees k s = .ok (true, s) := hk ▸ rfl
  rw [accept, bind_of_eq_ok hsees]
  rfl

theorem expect_of_sees (hk : s.sees k = true) : expect k s = .ok (true, s.advance) := by
  rw [expect, bind_of_eq_ok (accept_of_sees hk)]
  rfl

@[simp] theorem runs_accept :
    Runs (accept k) s Q ↔ if s.sees k then Q true s.advance else Q false s := by
  rw [accept, runs_bind, runs_sees]
  cases s.sees k <;> exact Iff.rfl

@[simp] theorem runs_fault {f : ParseFault} {Q : Unit → State → Prop} :
    Runs (fault f) s Q ↔ Q () (s.fault f s.current.pos) := Iff.rfl

@[simp] theorem runs_expected {w : Wanted} {Q : Unit → State → Prop} :
    Runs (expected w) s Q ↔ Q () (s.fault (.expected w s.current.kind) s.current.pos) := Iff.rfl

@[simp] theorem runs_expect :
    Runs (expect k) s Q ↔
      if s.sees k then Q true s.advance
      else Q false (s.fault (.expectedToken k s.current.kind) s.current.pos) := by
  rw [expect, runs_bind, runs_accept]
  cases s.sees k <;> exact Iff.rfl

end

/-- How the slots go on behind a child. -/
def slotsOn (c : Context) (done : List Slot) (rounds : Nat) :
    Option Slot → Reading (Option (List Slot))
  | none => return none
  | some slot => slotsFrom c (slot :: done) rounds

end ReactiveScript.Grammar
