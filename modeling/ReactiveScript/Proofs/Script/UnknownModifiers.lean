import ReactiveScript.Proofs.Script.Success

/-!
# Modifiers that there are not

A name behind `@` is looked up where it is handed to the runtime and nowhere else. A statement looks
up its own modifier or, if it has none, that of the block around it; a block looks up nothing. So an
unknown name goes by if it is the modifier of a block whose statements all do without it.
-/

namespace ReactiveScript

variable {p : Program} {q : Piece}

/-! ## 1. Names that are written, and names that are looked up -/

namespace Stmt

/-- Does a statement take the modifier of the block around it? -/
def takesModifier : Stmt → Bool
  | .expression _ own _ | .return _ own _ => own.isNone
  | _ => false

end Stmt

namespace Piece

/-- The modifier that is written on a piece: on an expression statement, which may be the declaration
    behind an `export`, on a `return`, or on a block. -/
def modifier? : Piece → Option Text
  | .stmt (.expression _ own _) | .stmt (.return _ own _) => own
  | .stmt (.modifierBlock _ m _ _) => some m
  | _ => none

/-- Is there a modifier on a piece that is none of the modifiers that there are? -/
def namesUnknown (q : Piece) : Bool := q.modifier?.any fun m => (Modifier.ofName? m).isNone

/-- A block that hands its modifier to none of its statements. -/
def isIdle : Piece → Bool
  | .stmt (.modifierBlock _ _ _ body) => body.all fun s => !s.takesModifier
  | _ => false

end Piece

/-- A declaration stands where no statement is. -/
def Program.DeclaresAmiss (p : Program) : Prop :=
  ∃ q r, Within (.program p) q ∧ r ∈ q.parts ∧ r.isDeclaration = true ∧
    q.isExpressionStatement = false

/-- A value under `@mutate` is no function. -/
def Program.MutatesAmiss (p : Program) : Prop :=
  ∃ q s m v, Within (.program p) q ∧ .stmt s ∈ q.parts ∧ s.modifier? q.blockModifier = some m ∧
    Modifier.ofName? m = some .mutate ∧ s.value? = some v ∧ v.isArrow = false

/-! ## 2. What keeps a program from being written -/

theorem Within.above_stmt {s : Stmt} (h : Within (.program p) (.stmt s)) :
    ∃ r, Within (.program p) r ∧ .stmt s ∈ r.parts := by
  rcases h.above with heq | habove
  · cases heq
  · exact habove

theorem Piece.namesUnknown_iff :
    q.namesUnknown = true ↔ ∃ m, q.modifier? = some m ∧ Modifier.ofName? m = none := by
  simp [namesUnknown, Option.any_eq_true]

/-- A name that is looked up is the statement's own, or that of the block that it stands in. -/
theorem Stmt.modifier?_cases {s : Stmt} {m : Text} (hs : Piece.stmt s ∈ q.parts)
    (h : s.modifier? q.blockModifier = some m) :
    (Piece.stmt s).modifier? = some m ∧ (Piece.stmt s).isIdle = false ∨
      q.modifier? = some m ∧ q.isIdle = false := by
  have hblock (htakes : s.takesModifier = true) (h : q.blockModifier = some m) :
      q.modifier? = some m ∧ q.isIdle = false := by
    cases q with
    | program | expr => cases h
    | stmt t =>
      cases t with
      | modifierBlock p m' b body =>
        have hmem : s ∈ body := by simpa [Piece.parts, Stmt.parts, Piece.ofStmts] using hs
        exact ⟨h, List.all_eq_false.mpr ⟨s, hmem, by simp [htakes]⟩⟩
      | _ => cases h
  cases s with
  | expression p own e | «return» p own e =>
    cases own with
    | some m' => exact .inl ⟨h, rfl⟩
    | none => exact .inr (hblock rfl h)
  | _ => cases h

/-- A name on a piece is looked up, unless it is that of an idle block. -/
theorem Piece.exists_modifier? {m : Text} (hq : Within (.program p) q) (hm : q.modifier? = some m)
    (hidle : q.isIdle = false) :
    ∃ r s, Within (.program p) r ∧ .stmt s ∈ r.parts ∧ s.modifier? r.blockModifier = some m := by
  cases q with
  | program | expr => cases hm
  | stmt s =>
    cases s with
    | expression _ own e | «return» _ own e =>
      obtain ⟨r, hr, hs⟩ := hq.above_stmt
      cases hm
      exact ⟨r, _, hr, hs, rfl⟩
    | modifierBlock b m body =>
      obtain ⟨s, hs, htakes⟩ := List.all_eq_false.mp hidle
      refine ⟨_, s, hq, List.mem_map_of_mem hs, ?_⟩
      cases hm
      cases s with
      | expression _ own e | «return» _ own e =>
        cases own with
        | none => rfl
        | some m' => simp [Stmt.takesModifier] at htakes
      | _ => simp [Stmt.takesModifier] at htakes
    | _ => cases hm

/-- **A program can be written** unless there is an unknown name other than that of an idle block, a
    declaration inside an expression, or a value that should be a function. -/
theorem writable_iff_not_amiss :
    Writable p ↔
      ¬ ((∃ q, Within (.program p) q ∧ q.namesUnknown = true ∧ q.isIdle = false) ∨
        p.DeclaresAmiss ∨ p.MutatesAmiss) := by
  constructor
  · rintro hwritable (⟨q, hq, hunknown, hidle⟩ | ⟨q, r, hq, hr, hr', hplace⟩ |
      ⟨q, s, m, v, hq, hs, hm, hk, hv, hvalue⟩)
    · obtain ⟨m, hm, hnone⟩ := Piece.namesUnknown_iff.mp hunknown
      obtain ⟨r, s, hr, hs, hlooked⟩ := Piece.exists_modifier? hq hm hidle
      simpa [hnone] using hwritable.modifiers r s m hr hs hlooked
    · simpa [hplace] using hwritable.declarations q r hq hr hr'
    · simpa [hvalue] using hwritable.functions q s m v hq hs hm hk hv
  · simp only [not_or]
    rintro ⟨hunknown, hdeclares, hmutates⟩
    refine ⟨fun q r hq hr hr' => ?_, fun q s m hq hs hm => ?_, fun q s m v hq hs hm hk hv => ?_⟩
    · cases hplace : q.isExpressionStatement
      · exact absurd ⟨q, r, hq, hr, hr', hplace⟩ hdeclares
      · rfl
    · cases hname : Modifier.ofName? m with
      | some k => rfl
      | none =>
        rcases Stmt.modifier?_cases hs hm with ⟨hown, hidle⟩ | ⟨hblock, hidle⟩
        · exact absurd ⟨_, hq.part hs, Piece.namesUnknown_iff.mpr ⟨m, hown, hname⟩, hidle⟩ hunknown
        · exact absurd ⟨q, hq, Piece.namesUnknown_iff.mpr ⟨m, hblock, hname⟩, hidle⟩ hunknown
    · cases hvalue : v.isArrow
      · exact absurd ⟨q, s, m, v, hq, hs, hm, hk, hv, hvalue⟩ hmutates
      · rfl

/-! ## 3. Programs with an unknown modifier -/

/-- A program that was read and cannot be written is refused. -/
theorem refused_iff_not_writable (o : Script.Options) {source : Text}
    (hread : readProgram source = some (.ok p)) :
    (∃ reports, compile o source = some (.error (.writing reports)) ∧ reports ≠ [] ∧
      ∀ x ∈ reports, x.fault.stage = .compile) ↔ ¬ Writable p := by
  obtain ⟨hclean, husual⟩ := Script.judged_ofProgram o (sensible_of_readProgram hread)
  rw [compile_of_readProgram o hread, ← hclean]
  constructor
  · rintro ⟨reports, hrefused, -⟩ hnil
    rw [Code.checked_of_nil hnil] at hrefused
    cases hrefused
  · intro hfaults
    rw [Code.checked_of_ne_nil hfaults]
    exact ⟨_, rfl, hfaults, fun x hx => (Report.words_of_isOfWriting (husual x hx).1).1⟩

namespace Script

theorem stmt_of_not_takesModifier (o : Options) (d : Nat) {s : Stmt}
    (h : s.takesModifier = false) (m m' : Option Text) : stmt o d m s = stmt o d m' s := by
  cases s with
  | expression p own e =>
    cases own with
    | none => cases h
    | some own => rfl
  | «return» p own e =>
    cases own with
    | none => cases h
    | some own => cases e <;> rfl
  | _ => rfl

/-- The name on an idle block makes no difference to the script. -/
theorem stmts_of_isIdle (o : Options) (d : Nat) {body : List Stmt}
    (h : (body.all fun s => !s.takesModifier) = true) (m m' : Option Text) :
    stmts o d m body = stmts o d m' body := by
  induction body with
  | nil => rfl
  | cons s body ih =>
    simp only [List.all_cons, Bool.and_eq_true, Bool.not_eq_true'] at h
    rw [stmts, stmts, ih h.2, stmt_of_not_takesModifier o d h.1 m m']

end Script

/-- **When a program with unknown modifiers is refused.** It is refused if one of them is on anything
    but an idle block. Those on idle blocks are never looked up: any other name there gives the same
    code, and the program is refused only if there is something else amiss with it. -/
theorem unknown_modifier_refused_iff (o : Script.Options) {source : Text} {p : Program}
    (hread : readProgram source = some (.ok p)) :
    ((∃ reports, compile o source = some (.error (.writing reports)) ∧ reports ≠ [] ∧
        ∀ x ∈ reports, x.fault.stage = .compile) ↔
      (∃ q, Within (.program p) q ∧ q.namesUnknown = true ∧ q.isIdle = false) ∨
        p.DeclaresAmiss ∨ p.MutatesAmiss) ∧
    ∀ d inherited pos m m' b body, (Piece.stmt (.modifierBlock pos m b body)).isIdle = true →
      Script.stmt o d inherited (.modifierBlock pos m b body) =
        Script.stmt o d inherited (.modifierBlock pos m' b body) := by
  constructor
  · rw [refused_iff_not_writable o hread, writable_iff_not_amiss, Classical.not_not]
  · intro d inherited pos m m' b body hidle
    exact Script.stmts_of_isIdle o d hidle (some m) (some m')

/-- The only statement of the block has a modifier of its own. -/
def idleBlockSource : Text := txt "@unheard:\n  @state x = 1\n"

/-- The statement of the block does without a modifier of its own. -/
def busyBlockSource : Text := txt "@unheard:\n  x = 1\n"

theorem sample_unknown_modifiers :
    (∃ p, readProgram idleBlockSource = some (.ok p) ∧
      (∃ q, Within (.program p) q ∧ q.namesUnknown = true) ∧
      (∀ q, Within (.program p) q → q.namesUnknown = true → q.isIdle = true) ∧
      ∃ script, compile {} idleBlockSource = some (.ok script)) ∧
    ∃ p, readProgram busyBlockSource = some (.ok p) ∧
      ∃ reports, compile {} busyBlockSource = some (.error (.writing reports)) ∧ reports ≠ [] ∧
        ∀ x ∈ reports, x.fault.stage = .compile := by
  have hwithin {p : Program} {s : Stmt} (hs : s ∈ p.body) : Within (.program p) (.stmt s) :=
    .step (List.mem_map_of_mem hs) (.refl _)
  constructor
  · obtain ⟨p, hread, htest⟩ : ∃ p, readProgram idleBlockSource = some (.ok p) ∧
        ((Script.ofProgram {} p).faults.isEmpty &&
          p.body.any fun s => (Piece.stmt s).namesUnknown) = true :=
      Grammar.exists_of_givesAtOnce (by decide +kernel)
    obtain ⟨hclean, hany⟩ := Bool.and_eq_true_iff.mp htest
    obtain ⟨s, hs, hunknown⟩ := List.any_eq_true.mp hany
    have hscript : ∃ script, compile {} idleBlockSource = some (.ok script) := by
      rw [compile_of_readProgram {} hread, Code.checked_of_nil (List.isEmpty_iff.mp hclean)]
      exact ⟨_, rfl⟩
    refine ⟨p, hread, ⟨_, hwithin hs, hunknown⟩, fun q hq hname => ?_, hscript⟩
    cases hidle : q.isIdle with
    | true => rfl
    | false =>
      obtain ⟨script, hscript⟩ := hscript
      obtain ⟨reports, hrefused, -⟩ :=
        (unknown_modifier_refused_iff {} hread).1.mpr (.inl ⟨q, hq, hname, hidle⟩)
      rw [hscript] at hrefused
      cases hrefused
  · obtain ⟨p, hread, hany⟩ : ∃ p, readProgram busyBlockSource = some (.ok p) ∧
        (p.body.any fun s => (Piece.stmt s).namesUnknown && !(Piece.stmt s).isIdle) = true :=
      Grammar.exists_of_givesAtOnce (by decide +kernel)
    obtain ⟨s, hs, htest⟩ := List.any_eq_true.mp hany
    obtain ⟨hunknown, hbusy⟩ := Bool.and_eq_true_iff.mp htest
    have hidle : (Piece.stmt s).isIdle = false := by simpa using hbusy
    exact ⟨p, hread, (unknown_modifier_refused_iff {} hread).1.mpr
      (.inl ⟨_, hwithin hs, hunknown, hidle⟩)⟩

end ReactiveScript
