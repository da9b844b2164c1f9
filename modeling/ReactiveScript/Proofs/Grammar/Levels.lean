import ReactiveScript.Grammar.Read
import ReactiveScript.Proofs.Grammar.Expressions

/-!
# All levels meet the contract

The induction over the levels of the grammar, and what it says of the reading of a whole source.
-/

namespace ReactiveScript.Grammar

variable {source : Text} {rounds : Nat}

/-! ## 1. The induction over the levels -/

section
variable {source : Text} {d : Nat}

/-- No state is ready beyond the depth limit. -/
theorem not_ready_of_lt {s : State} (hd : maxDepth < d) : ¬ Ready source d s :=
  fun hs => absurd hs.depth_le (Nat.not_le_of_lt hd)

/-- Beyond the depth limit a context can be relied on without any level. -/
theorem Context.ground_serves {rounds : Nat} (hrounds : source.length + 2 ≤ rounds)
    (hd : maxDepth < d) : (Context.ground source rounds).Serves source d := by
  have hnone {e : Nat} (he : d ≤ e) {s : State} : ¬ Ready source e s :=
    not_ready_of_lt (Nat.lt_of_lt_of_le hd he)
  have hleads {α : Type} {e : Nat} (he : d ≤ e) {P : State → Prop} {x : Reading α} :
      Leads source e P x := ⟨fun hs => absurd hs (hnone he)⟩
  have hstrides {α : Type} {e : Nat} (he : d ≤ e) {x : Reading α} : Strides source e x :=
    ⟨hleads he, fun hs => absurd hs (hnone he)⟩
  refine ⟨rfl, hrounds, fun e he => ?_, fun e he => ?_⟩
  · exact ⟨hstrides he, hstrides he, fun hs => absurd hs (hnone he), fun _ => hleads he, fun _ => rfl⟩
  · have he := Nat.le_of_lt he
    exact ⟨hstrides he, fun _ => hstrides he, fun _ _ => hleads he, fun _ _ => hleads he⟩

/-- The routines on top of a context serve one level more. -/
theorem Context.routines_serve {c : Context} (h : c.Serves source (d + 1)) (e : Nat) (he : d ≤ e) :
    c.routines.Serve source e := by
  have he := h.mono (Nat.succ_le_succ he)
  exact ⟨strides_assignment, strides_pattern, readsChild_jsx, fun _ => reads_block,
    assignment_of_tooDeep⟩

theorem Context.routines_serveDeeper {c : Context} (h : c.Serves source (d + 1)) (e : Nat)
    (he : d < e) : c.routines.ServeDeeper source e := by
  have he := h.mono he
  exact ⟨strides_unary, fun _ => strides_binary, fun _ _ => drifts_binaryRest,
    fun _ _ => drifts_chainRest⟩

/-- **Every level meets the contract.** With no level left the depth limit has been passed, and
    each level rests on the one below it. -/
theorem Context.raised_serves {rounds : Nat} (hrounds : source.length + 2 ≤ rounds) (n : Nat) :
    ((Context.ground source rounds).raised n).Serves source (levels - n) := by
  induction n with
  | zero => exact ground_serves hrounds (by unfold levels; omega)
  | succ n ih =>
    have hbelow : ((Context.ground source rounds).raised n).Serves source (levels - (n + 1) + 1) :=
      ih.mono (by omega)
    exact ⟨rfl, hrounds, routines_serve hbelow, routines_serveDeeper hbelow⟩

end

/-! ## 2. Readings of a source -/

theorem ready_start (source : Text) : Ready source 0 (State.ofText source) :=
  ⟨settled_advance rfl fun hdeep => absurd hdeep Bool.false_ne_true, State.advance_depth _,
    Nat.zero_le _⟩

theorem Context.ofSource_serves (hrounds : source.length + 2 ≤ rounds) :
    (Context.ofSource source rounds).Serves source 0 := by
  have h := raised_serves hrounds levels
  rwa [Nat.sub_self] at h

instance {d : Nat} {c : Context} [c.Serves source d] : Reads source d (wholeExpression c) := by
  have hnesting : Reads source d (modify fun s => { s with nesting := 1 }) :=
    ⟨fun hs => ⟨hs.recount 1 _, Nat.le_refl _, List.suffix_refl _, fun _ => rfl⟩⟩
  unfold wholeExpression
  infer_instance

/-- A reading with enough rounds has an answer, unless it is cut short in a state that circles. -/
theorem runFor_of_reads {α : Type} {routine : Context → Reading α} {source : Text} {rounds : Nat}
    (h : Reads source 0 (routine (Context.ofSource source rounds))) :
    (∃ u, runFor routine source rounds = .error u ∧ u.state.circles = true) ∨
      ∃ r, runFor routine source rounds = .ok r := by
  unfold runFor
  cases hrun : (routine (Context.ofSource source rounds)).run (State.ofText source) with
  | error u => exact .inl ⟨u, rfl, (h.leads (ready_start source)).of_error hrun⟩
  | ok p => exact .inr ⟨_, rfl⟩

/-! ## 3. The search for enough rounds -/

section
variable {ε α : Type} {attempt : Nat → Except ε α} {n : Nat}

/-- An answer of the search is the answer of an attempt. -/
theorem firstAnswer_eq_some {a : α} (h : firstAnswer attempt n = some a) :
    ∃ k, n ≤ k ∧ attempt k = .ok a := by
  refine firstAnswer.partial_correctness attempt (fun n a => ∃ k, n ≤ k ∧ attempt k = .ok a)
    ?_ n a h
  intro search hsearch n a ha
  cases hn : attempt n with
  | ok b =>
    rw [hn] at ha
    cases ha
    exact ⟨n, Nat.le_refl n, hn⟩
  | error u =>
    rw [hn] at ha
    obtain ⟨k, hk, hka⟩ := hsearch (n + 1) a ha
    exact ⟨k, by omega, hka⟩

theorem firstAnswer_of_ok {a : α} (h : attempt n = .ok a) : firstAnswer attempt n = some a := by
  rw [firstAnswer, h]

/-- The search finds something as soon as one attempt has an answer. -/
theorem firstAnswer_isSome {k : Nat} {a : α} (hk : attempt (n + k) = .ok a) :
    firstAnswer attempt n ≠ none := by
  induction k generalizing n with
  | zero =>
    have hn : attempt n = .ok a := hk
    rw [firstAnswer_of_ok hn]
    exact Option.some_ne_none a
  | succ k ih =>
    rw [firstAnswer]
    cases attempt n with
    | ok b => exact Option.some_ne_none b
    | error u => exact ih (by rw [Nat.succ_add_eq_add_succ]; exact hk)

/-- The search does not end exactly if no attempt has an answer. -/
theorem firstAnswer_eq_none_iff :
    firstAnswer attempt n = none ↔ ∀ k, n ≤ k → ∃ u, attempt k = .error u := by
  constructor
  · intro hnone k hk
    cases ha : attempt k with
    | error u => exact ⟨u, rfl⟩
    | ok a =>
      obtain ⟨j, rfl⟩ := Nat.exists_eq_add_of_le hk
      exact absurd hnone (firstAnswer_isSome ha)
  · intro hall
    cases ha : firstAnswer attempt n with
    | none => rfl
    | some a =>
      obtain ⟨k, hk, hka⟩ := firstAnswer_eq_some ha
      obtain ⟨u, hu⟩ := hall k hk
      rw [hu] at hka
      cases hka

end

/-! ## 4. Answers -/

section
variable {α : Type} {routine : Context → Reading α}

/-- **The run behind an answer.** -/
theorem runOn_eq_some {answer : Except (List Report) α} (h : runOn routine source = some answer) :
    ∃ rounds a t, source.length + 2 ≤ rounds ∧
      routine (Context.ofSource source rounds) (State.ofText source) = .ok (a, t) ∧
      answer = if t.reports.isEmpty then .ok a else .error t.reports.reverse := by
  obtain ⟨rounds, hrounds, hrun⟩ := firstAnswer_eq_some h
  unfold runFor at hrun
  cases hx : (routine (Context.ofSource source rounds)).run (State.ofText source) with
  | error u =>
    rw [hx] at hrun
    cases hrun
  | ok p =>
    rw [hx] at hrun
    cases hrun
    exact ⟨rounds, p.1, p.2, hrounds, hx, rfl⟩

/-- A source is accepted by a run that leaves no report. -/
theorem exists_run_of_accepted {a : α} (h : runOn routine source = some (.ok a)) :
    ∃ rounds s, source.length + 2 ≤ rounds ∧
      routine (Context.ofSource source rounds) (State.ofText source) =
        .ok (a, s) ∧ s.reports = [] := by
  obtain ⟨rounds, b, s, hrounds, hrun, hanswer⟩ := runOn_eq_some h
  split at hanswer
  · rename_i hempty
    cases hanswer
    exact ⟨rounds, s, hrounds, hrun, List.isEmpty_iff.mp hempty⟩
  · cases hanswer

/-- Does the first attempt at a source accept it, with a result that passes a test? -/
def givesAtOnce {α : Type} (routine : Context → Reading α) (test : α → Bool) (source : Text) :
    Bool :=
  match runFor routine source (source.length + 2) with
  | .ok (.ok a) => test a
  | _ => false

theorem exists_of_givesAtOnce {test : α → Bool} (h : givesAtOnce routine test source = true) :
    ∃ a, runOn routine source = some (.ok a) ∧ test a = true := by
  unfold givesAtOnce at h
  split at h
  · rename_i a ha
    exact ⟨a, firstAnswer_of_ok ha, h⟩
  · cases h

/-- Does the first attempt at a source accept it? -/
def acceptsAtOnce {α : Type} (routine : Context → Reading α) (source : Text) : Bool :=
  givesAtOnce routine (fun _ => true) source

theorem exists_of_acceptsAtOnce (h : acceptsAtOnce routine source = true) :
    ∃ a, runOn routine source = some (.ok a) := (exists_of_givesAtOnce h).imp fun _ => And.left

/-- Does the first attempt at a source refuse it, with reports that pass a test? -/
def refusesAtOnce {α : Type} (routine : Context → Reading α) (test : List Report → Bool)
    (source : Text) : Bool :=
  match runFor routine source (source.length + 2) with
  | .ok (.error rs) => test rs
  | _ => false

theorem exists_of_refusesAtOnce {test : List Report → Bool}
    (h : refusesAtOnce routine test source = true) :
    ∃ rs, runOn routine source = some (.error rs) ∧ test rs = true := by
  unfold refusesAtOnce at h
  split at h
  · rename_i rs hrs
    exact ⟨rs, firstAnswer_of_ok hrs, h⟩
  · cases h

end

end ReactiveScript.Grammar
