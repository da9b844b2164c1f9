import ReactiveScript.Grammar.Statement
import ReactiveScript.Proofs.Grammar.Contract

/-!
# Statements and blocks meet the contract

A statement that is left by recovery stands still exactly if the reader is stuck. A list of
statements, laid out as a program or as a block is, ends within the bytes left, or it circles.
-/

namespace ReactiveScript.Grammar

-- The instance of a routine is as large as the routine.
set_option synthInstance.maxSize 4000

section
variable {source : Text} {d : Nat} {c : Context} [h : c.Serves source d] {σ : Type} {s : State}
  {l : Layout σ} {p : Position} {modifier : Option Text}

/-! ## 1. Statements -/

instance : Reads source d endStatement := by unfold endStatement; infer_instance

instance : Strides source d (expressionStmt c modifier p) := by
  unfold expressionStmt; infer_instance

instance : Takes source d (returnStmt c modifier p) := by unfold returnStmt; infer_instance

instance : Takes source d (modifierStmt c) := by unfold modifierStmt; infer_instance

instance : Reads source d exportSpecifier :=
  .bind inferInstance fun t? => by cases t? <;> infer_instance

instance : Takes source d (exportStmt c) := by
  unfold exportStmt exportList exportDeclaration exportModifier; infer_instance

instance : Reads source d importSource :=
  .bind inferInstance fun _ => .bind inferInstance fun t? => .bind inferInstance fun _ => by
    cases t? <;> infer_instance

instance : Reads source d (importList c) := by
  unfold importList importSpecifier; infer_instance

instance : Takes source d (importStmt c) := by
  unfold importStmt importAll importSome moreNames; infer_instance

instance strides_statement : Strides source d (statement c) :=
  .ask fun t => by split <;> infer_instance

include h

omit h in
/-- An expression that is given up at once takes nothing, but the semicolon after it is taken. -/
theorem runs_expressionStmt_of_tooDeep (h : c.Serves source d) (hdeep : s.tooDeep = true) {Q : Stmt → State → Prop}
    (hsemicolon : s.sees (.punct .semicolon) = true →
      Q (.expression p modifier (.bad s.current.pos)) s.advance)
    (hother : s.sees (.punct .semicolon) = false →
      Q (.expression p modifier (.bad s.current.pos)) s) :
    Runs (expressionStmt c modifier p) s Q := by
  rw [expressionStmt, runs_bind,
    runs_of_eq ((h.here d (Nat.le_refl d)).givesUp hdeep)]
  simp only [endStatement, runs_bind, runs_accept, runs_pure]
  split
  · rename_i hsees
    exact hsemicolon hsees
  · rename_i hsees
    exact hother (by simpa using hsees)

/-- A statement from which the reader is not stuck moves on, or something is reported. -/
theorem runs_statement_lt (hs : Ready source d s) (hend : s.atEnd = false)
    (hstuck : s.stuck = false) :
    Runs (statement c) s fun _ s' =>
      s'.reports = s.reports → s.current.offset < s'.current.offset := by
  by_cases hdeep : s.tooDeep = false
  · exact (strides_statement.moves hs).mono fun _ _ hmoved => hmoved hend hdeep
  · have hdeep : s.tooDeep = true := by simpa using hdeep
    have hmoves : s.movesAtOnce = true := by simpa [State.stuck, hdeep] using hstuck
    rw [statement, runs_bind, runs_token]
    split
    iterate 4 exact (Takes.takes hs hend).mono fun _ _ hlt _ => hlt
    · -- of the kinds that move at once, only the semicolon starts an expression
      refine runs_expressionStmt_of_tooDeep h hdeep (fun _ _ => hs.lt_advance hend) ?_
      intro hother
      unfold State.movesAtOnce at hmoves
      simp only [State.sees, decide_eq_false_iff_not] at hother
      split at hmoves <;> simp_all

omit h in
/-- A stuck statement takes nothing and reports nothing. -/
theorem runs_statement_of_stuck (h : c.Serves source d) (hstuck : s.stuck = true) :
    Runs (statement c) s fun _ s' => s' = s := by
  obtain ⟨hdeep, hmoves⟩ : s.tooDeep = true ∧ s.movesAtOnce = false := by
    simpa [State.stuck] using hstuck
  rw [statement, runs_bind, runs_token]
  unfold State.movesAtOnce at hmoves
  split
  case h_5 =>
    refine runs_expressionStmt_of_tooDeep h hdeep (fun hsemicolon => ?_) fun _ => rfl
    have hkind : s.current.kind = .punct .semicolon := by simpa [State.sees] using hsemicolon
    simp [hkind] at hmoves
  all_goals
    rename_i hkind
    simp [hkind] at hmoves

/-! ## 2. Recovery -/

omit h in
theorem runs_skipLine {rounds : Nat} (hs : Ready source d s)
    (hrounds : source.length - s.current.offset < rounds) :
    Runs (skipLine rounds) s fun _ s' => Ready source d s' ∧ Onward s s' := by
  induction rounds generalizing s with
  | zero => exact absurd hrounds (Nat.not_lt_zero _)
  | succ rounds ih =>
    simp only [skipLine, runs_bind, runs_get, runs_ite, runs_pure, runs_advance]
    split
    · exact ⟨hs, .refl s⟩
    · rename_i hrecovered
      have hend : s.atEnd = false := by
        simp only [State.recovered, Bool.or_eq_true, not_or, Bool.not_eq_true] at hrecovered
        exact hrecovered.1.1
      refine (ih hs.advance (hs.advance_rounds hend (Nat.le_refl _) hrounds)).mono ?_
      intro _ s' hout
      exact ⟨hout.1, hs.onward_advance.trans hout.2⟩

/-- Recovery leaves the token behind at which the statement started. -/
theorem runs_recover (hs : Ready source d s) (start : Nat) :
    Runs (recover c.rounds start) s fun _ s' => Ready source d s' ∧ Onward s s' ∧
      (s.atEnd = false → s.current.offset = start → start < s'.current.offset) := by
  have hrounds := h.rounds_lt
  simp only [recover, runs_bind, runs_atEnd, runs_token, runs_ite, runs_advance]
  split
  · rename_i hmove
    simp only [Bool.and_eq_true, Bool.not_eq_true', decide_eq_true_eq] at hmove
    refine (runs_skipLine hs.advance (by omega)).mono ?_
    rintro _ s' ⟨hs', hon⟩
    refine ⟨hs', hs.onward_advance.trans hon, fun hend hstart => ?_⟩
    have hlt := hs.lt_advance hend
    have hle := hon.offset_le
    omega
  · rename_i hmove
    simp only [Bool.and_eq_true, Bool.not_eq_true', decide_eq_true_eq] at hmove
    refine (runs_skipLine hs (by omega)).mono ?_
    rintro _ s' ⟨hs', hon⟩
    exact ⟨hs', hon, fun hend hstart => absurd ⟨hend, hstart⟩ hmove⟩

omit h in
/-- Once a statement has been left by recovery, the reader is no longer on its way out. -/
theorem Ready.recovered {s' : State} (hs' : Ready source d s') (hon : Onward s s')
    (hnew : s.reports.length < s'.reports.length) :
    Ready source d { s' with tooDeep := false } ∧ Onward s { s' with tooDeep := false } := by
  refine ⟨⟨⟨⟨hs'.rest_eq, hs'.stop_le, hs'.text_ne, hs'.inside, hs'.ended,
    fun hdeep => absurd hdeep Bool.false_ne_true⟩, hs'.kind_ne⟩, hs'.depth_eq, hs'.depth_le⟩,
    hon.offset_le, hon.reports, fun heq => ?_⟩
  have hlength : s'.reports.length = s.reports.length := congrArg List.length heq
  omega

instance reads_checked : Reads source d (checked c) where
  leads {s} hs := by
    simp only [checked, runs_bind, runs_get, runs_ite, runs_pure, runs_modify]
    refine (strides_statement.reads.leads hs).mono ?_
    rintro st s₁ ⟨hs₁, hon₁⟩
    split
    · refine (runs_recover hs₁ _).mono ?_
      rintro _ s₂ ⟨hs₂, hon₂, _⟩
      have h₁ := hon₁.reports.length_le
      have h₂ := hon₂.reports.length_le
      exact hs₂.recovered (hon₁.trans hon₂) (by omega)
    · exact ⟨hs₁, hon₁⟩

/-- A statement moves on unless the reader is stuck: it has taken a token, or recovery does. -/
theorem runs_checked_lt (hs : Ready source d s) (hend : s.atEnd = false)
    (hstuck : s.stuck = false) :
    Runs (checked c) s fun _ s' => s.current.offset < s'.current.offset := by
  simp only [checked, runs_bind, runs_get, runs_ite, runs_pure, runs_modify]
  refine ((strides_statement.reads.leads hs).and (runs_statement_lt hs hend hstuck)).mono ?_
  rintro st s₁ ⟨⟨hs₁, hon₁⟩, hlt⟩
  split
  · refine (runs_recover hs₁ _).mono ?_
    rintro _ s₂ ⟨hs₂, hon₂, hleft⟩
    have hoffset := hs.offset_lt hend
    have h₁ := hon₁.offset_le
    have h₂ := hon₂.offset_le
    by_cases hend₁ : s₁.atEnd = false
    · by_cases hsame : s₁.current.offset = s.current.offset
      · exact hleft hend₁ hsame
      · show s.current.offset < s₂.current.offset
        omega
    · have heof : s₁.current.kind = .eof := by simpa [State.atEnd] using hend₁
      have hle := hs₁.ended heof
      show s.current.offset < s₂.current.offset
      omega
  · rename_i hlength
    refine hlt (List.IsSuffix.eq_of_length hon₁.reports ?_).symm
    exact (Decidable.not_not.mp hlength).symm

omit h in
/-- A stuck statement leaves everything as it is. -/
theorem runs_checked_of_stuck (h : c.Serves source d) (hstuck : s.stuck = true) :
    Runs (checked c) s fun _ s' => s' = s := by
  simp only [checked, runs_bind, runs_get, runs_ite, runs_pure, runs_modify]
  refine (runs_statement_of_stuck h hstuck).mono fun st s₁ hs₁ => ?_
  subst hs₁
  rw [if_neg (fun hne => hne rfl)]

/-- A fault at a token is left behind with the token. -/
theorem runs_skipFaulty (hs : Ready source d s) (hend : s.atEnd = false) (f : ParseFault) :
    Runs (skipFaulty c f) s fun _ s' => Ready source d s' ∧ Onward s s' ∧
      s.current.offset < s'.current.offset := by
  simp only [skipFaulty, runs_bind, runs_fault, runs_token]
  have hcurrent : (s.fault f s.current.pos).current = s.current := by
    unfold State.fault
    split <;> rfl
  refine (runs_recover (hs.fault f _) _).mono ?_
  rintro _ s' ⟨hs', hon, hleft⟩
  unfold State.atEnd at hleft
  rw [hcurrent] at hleft
  exact ⟨hs', (Onward.fault s f _).trans hon, hleft hend rfl⟩

/-! ## 3. Lists of statements -/

/-- What the layouts have in common: a list ends with the source; after the first statement, others
    start lines; and a statement may start where the one before it did. -/
class Layout.Lawful {σ : Type} (l : Layout σ) : Prop where
  ends {m : σ} {t : Token} (ht : t.kind = .eof) : l.turn m t = .done
  lines {m : σ} {t u : Token} (hu : l.turn (l.after m t) u = .read) : u.lineStart = true
  again {m : σ} {t : Token} (ht : l.turn m t = .read) (hline : t.lineStart = true) :
    l.turn (l.after m t) t = .read ∧ l.after (l.after m t) t = l.after m t

omit h in
instance : Layout.program.Lawful := by
  refine ⟨?_, ?_, ?_⟩
  · intro m t ht
    simp [Layout.program, ht]
  · intro m t u hu
    simp only [Layout.program] at hu
    split at hu <;> try cases hu
    split at hu <;> try cases hu
    simp_all
  · intro m t ht hline
    simp only [Layout.program] at ht ⊢
    split at ht <;> try cases ht
    simp_all

omit h in
instance : Layout.braces.Lawful := by
  refine ⟨?_, ?_, ?_⟩
  · intro m t ht
    simp [Layout.braces, ht]
  · intro m t u hu
    simp only [Layout.braces] at hu
    split at hu <;> try cases hu
    split at hu <;> try cases hu
    simp_all
  · intro m t ht hline
    simp only [Layout.braces] at ht ⊢
    split at ht <;> try cases ht
    simp_all

omit h in
instance (column : Nat) : (Layout.indented column).Lawful := by
  refine ⟨?_, ?_, ?_⟩
  · intro m t ht
    simp [Layout.indented, ht]
  · intro m t u hu
    simp only [Layout.indented] at hu
    split at hu <;> try cases hu
    simp_all
  · intro m t ht hline
    exact ⟨ht, rfl⟩

omit h in
/-- Where the reader circles, a list of statements is cut short, however many rounds it has. -/
theorem runs_statementsFrom_of_circles (h : c.Serves source d) {m : σ} (hcircles : s.circles = true)
    (hread : l.turn m s.current = .read) (hafter : l.after m s.current = m) (rounds : Nat)
    {Q : List Stmt → State → Prop} : ∀ done, Runs (statementsFrom c l m done rounds) s Q := by
  have hstuck : s.stuck = true := by
    simp only [State.circles, Bool.and_eq_true] at hcircles
    exact hcircles.2
  induction rounds with
  | zero => exact fun _ => hcircles
  | succ rounds ih =>
    intro done
    simp only [statementsFrom, runs_bind, runs_token, hread]
    refine (runs_checked_of_stuck h hstuck).mono fun st s₁ hs₁ => ?_
    subst hs₁
    rw [hafter]
    exact ih _

/-- A list of statements ends within the bytes left, or it circles. Where its first statement may stand
    in a line, it takes one round more. -/
theorem runs_statementsFrom [hl : l.Lawful] {rounds : Nat} {m : σ} {done : List Stmt}
    (hs : Ready source d s)
    (hrounds : ((∀ u, l.turn m u = .read → u.lineStart = true) ∧
        source.length - s.current.offset < rounds) ∨
      source.length - s.current.offset + 1 < rounds) :
    Runs (statementsFrom c l m done rounds) s fun _ s' => Ready source d s' ∧ Onward s s' := by
  induction rounds generalizing m done s with
  | zero => exact absurd hrounds (by simp)
  | succ rounds ih =>
    have hend : l.turn m s.current ≠ .done → s.atEnd = false := by
      intro hturn
      simp only [State.atEnd, decide_eq_false_iff_not]
      exact fun heof => hturn (hl.ends heof)
    simp only [statementsFrom, runs_bind, runs_token]
    cases hturn : l.turn m s.current with
    | done => exact ⟨hs, .refl s⟩
    | skip f =>
      have hend := hend (by rw [hturn]; intro hdone; cases hdone)
      have hoffset := hs.offset_lt hend
      simp only [runs_bind]
      refine (runs_skipFaulty hs hend f).mono ?_
      rintro _ s₁ ⟨hs₁, hon₁, hlt⟩
      refine (ih hs₁ (hrounds.imp (fun hlines => ⟨hlines.1, by omega⟩) fun _ => by omega)).mono ?_
      rintro body s₂ ⟨hs₂, hon₂⟩
      exact ⟨hs₂, hon₁.trans hon₂⟩
    | read =>
      have hend := hend (by rw [hturn]; intro hdone; cases hdone)
      have hoffset := hs.offset_lt hend
      -- the rest of the list, from a state from which fewer rounds are enough
      have hrest {st : Stmt} {s₁ : State} (hs₁ : Ready source d s₁) (hon₁ : Onward s s₁)
          (hrounds₁ : source.length - s₁.current.offset < rounds) :
          Runs (statementsFrom c l (l.after m s.current) (st :: done) rounds) s₁ fun _ s' =>
            Ready source d s' ∧ Onward s s' := by
        refine (ih hs₁ (.inl ⟨fun u => hl.lines, hrounds₁⟩)).mono ?_
        rintro body s₂ ⟨hs₂, hon₂⟩
        exact ⟨hs₂, hon₁.trans hon₂⟩
      simp only [runs_bind]
      by_cases hstuck : s.stuck = false
      · refine ((reads_checked.leads hs).and (runs_checked_lt hs hend hstuck)).mono ?_
        rintro st s₁ ⟨⟨hs₁, hon₁⟩, hlt⟩
        exact hrest hs₁ hon₁ (by omega)
      · have hstuck : s.stuck = true := by simpa using hstuck
        refine (runs_checked_of_stuck h hstuck).mono fun st s₁ heq => ?_
        subst heq
        by_cases hline : s₁.current.lineStart = true
        · obtain ⟨hread, hafter⟩ := hl.again hturn hline
          have hcircles : s₁.circles = true := by simp [State.circles, hend, hline, hstuck]
          exact runs_statementsFrom_of_circles h hcircles hread hafter rounds _
        · refine hrest hs (.refl s₁) ?_
          rcases hrounds with ⟨hlines, _⟩ | hlt
          · exact absurd (hlines _ hturn) hline
          · omega

/-- **A list of statements meets the contract**, whatever its layout. -/
instance [l.Lawful] {m : σ} : Reads source d (statements c l m) := by
  have hrounds := h.rounds_le
  exact ⟨fun hs => runs_statementsFrom hs (.inr (by omega))⟩

/-! ## 4. Programs and blocks -/

instance : Reads source d (program c) := by unfold program; infer_instance

instance : Reads source d (braceBlock c) := by unfold braceBlock; infer_instance

instance {header : Nat} : Reads source d (indentedBlock c header) := by
  unfold indentedBlock; infer_instance

end

/-- **A block meets the contract** if the level below serves the depth below. -/
instance reads_block {source : Text} {d header : Nat} {c : Context} [c.Serves source (d + 1)] :
    Reads source d (block c header) := by
  unfold block; infer_instance

end ReactiveScript.Grammar
