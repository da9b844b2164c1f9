import ReactiveScript.Proofs.Grammar.Steps

/-!
# The turns of a reading

What a reader does is a row of turns, each of them given by the reader as it stands: it goes on to a
token, notes a fault of the grammar, gives up at the depth limit, finds something wrong with a
construct that has been read, or reads a statement. A statement is one turn, from its own start to
its own end; inside it there are turns again.
-/

namespace ReactiveScript.Grammar

/-! ## 1. What is said -/

/-- Faults met while scanning are lexical. -/
theorem stage_of_mem_next {c : Cursor} {r : Report} (h : r ∈ c.next.reports) :
    r.fault.stage = .lex := by
  have hlocate : ∀ {p t faults}, r ∈ Cursor.locate p t faults → r.fault.stage = .lex := by
    intro p t faults hr
    obtain ⟨f, -, rfl⟩ := List.mem_map.mp hr
    rfl
  rcases Cursor.mem_next_reports h with ⟨_, h⟩ | ⟨_, h⟩
  · exact hlocate h
  · exact hlocate h

/-- What is said from one reader to another, if it is all of some stages. -/
def State.Adds (P : Stage → Prop) (s t : State) : Prop :=
  ∃ added, t.reports = added ++ s.reports ∧ ∀ r ∈ added, P r.fault.stage

/-- Nothing has been said of the grammar, and the reader is still as deep. -/
structure State.Hushed (s t : State) : Prop where
  flag : t.tooDeep = s.tooDeep
  adds : s.Adds (· ≠ .parse) t

section
variable {P : Stage → Prop} {s t u : State}

theorem State.Adds.trans (h : s.Adds P t) (h' : t.Adds P u) : s.Adds P u := by
  obtain ⟨added, hreports, hall⟩ := h
  obtain ⟨added', hreports', hall'⟩ := h'
  refine ⟨added' ++ added, by rw [hreports', hreports, List.append_assoc], ?_⟩
  exact List.forall_mem_append.mpr ⟨hall', hall⟩

theorem State.adds_advance (hlex : P .lex) (s : State) : s.Adds P s.advance :=
  ⟨_, s.advance_reports, fun _ hr => stage_of_mem_next (List.mem_reverse.mp hr) ▸ hlex⟩

/-- Nothing has been said at all. -/
theorem State.Hushed.silent (hflag : t.tooDeep = s.tooDeep) (hreports : t.reports = s.reports) :
    s.Hushed t := ⟨hflag, [], hreports, List.forall_mem_nil _⟩

theorem State.Hushed.trans (h : s.Hushed t) (h' : t.Hushed u) : s.Hushed u :=
  ⟨h'.flag.trans h.flag, h.adds.trans h'.adds⟩

theorem State.hushed_advance (s : State) : s.Hushed s.advance :=
  ⟨s.advance_tooDeep, s.adds_advance (by decide)⟩

theorem State.hushed_report {r : Report}
    (built : r.fault.stage = .build ∨ r.fault.stage = .compile) : s.Hushed (s.report r) := by
  refine ⟨rfl, [r], rfl, List.forall_mem_singleton.mpr ?_⟩
  rcases built with h | h <;> rw [h] <;> decide

end

/-! ## 2. Turns -/

/-- A turn of a reader: a step in which nothing is said of the grammar, a fault of the grammar, which
    is silent for a reader that is too deep, or a statement. -/
inductive State.Turn (source : Text) : State → State → Prop
  | quiet {s t : State} (step : s.Step source t) (hushed : s.Hushed t) : Turn source s t
  | blame {s : State} {f : ParseFault} (p : Position) (other : f ≠ .tooDeep)
      (within : s.tooDeep = false) : Turn source s (s.report ⟨.parse f, p⟩)
  | giveUp {s : State} (p : Position) (within : s.tooDeep = false) : Turn source s (s.giveUp p)
  | statement {c : Context} {s t : State} {a : Stmt} (level : c.Level source)
      (run : checked c s = .ok (a, t)) : Turn source s t

/-- Any number of turns. -/
abbrev State.Turns (source : Text) : State → State → Prop :=
  Relation.ReflTransGen (State.Turn source)

section
variable {source : Text}

instance : Recounts (State.Turns source) where
  refl _ := .refl
  trans := .trans
  next s := .single (.quiet (.next s) s.hushed_advance)
  find s r h := .single (.quiet (.report s r) (s.hushed_report h))
  blame s f p hf := by
    unfold State.fault
    split
    · exact .refl
    · exact .single (.blame p hf (Bool.eq_false_iff.mpr ‹_›))
  giveUp p hs := .single (.giveUp p hs)
  recount s _ _ _ := .single (.quiet (.recount s _ _ _ s.tooDeep) (.silent rfl rfl))

instance : Reenters (State.Turns source) source where
  back {s width _} h :=
    have hback : s.Hushed (s.reenter source width) := .silent rfl rfl
    .single (.quiet (.back h) (hback.trans (State.hushed_advance _)))
  text h := .single (.quiet (.text h) (.silent rfl rfl))

theorem Context.Level.recovers {c : Context} (h : c.Level source) :
    Recovers (State.Turns source) c := ⟨fun _ hrun => .single (.statement h hrun)⟩

instance {rounds n : Nat} :
    Recovers (State.Turns source) ((Context.ground source rounds).raised n) :=
  Context.Level.recovers ⟨rounds, n, rfl⟩

instance {rounds : Nat} : Recovers (State.Turns source) (Context.ground source rounds) :=
  Context.Level.recovers ⟨rounds, 0, rfl⟩

end

/-! ## 3. Statements -/

/-- Reports are only added, and a reader becomes too deep only with a report. -/
def State.Tells (s t : State) : Prop :=
  ∃ added, t.reports = added ++ s.reports ∧ (t.tooDeep = true → s.tooDeep = true ∨ added ≠ [])

namespace State.Tells

theorem same {s t : State} (hreports : t.reports = s.reports) (hflag : t.tooDeep = s.tooDeep) :
    s.Tells t := ⟨[], hreports, fun h => .inl (hflag ▸ h)⟩

theorem trans {s t u : State} (h : s.Tells t) (h' : t.Tells u) : s.Tells u := by
  obtain ⟨added, hreports, hflag⟩ := h
  obtain ⟨added', hreports', hflag'⟩ := h'
  refine ⟨added' ++ added, by rw [hreports', hreports, List.append_assoc], fun hu => ?_⟩
  rcases hflag' hu with ht | hadded
  · exact (hflag ht).imp_right (List.append_ne_nil_of_right_ne_nil _)
  · exact .inr (List.append_ne_nil_of_left_ne_nil hadded _)

theorem report (s : State) (r : Report) : s.Tells (s.report r) := ⟨[r], rfl, .inl⟩

theorem advance (s : State) : s.Tells s.advance :=
  ⟨_, s.advance_reports, fun h => .inl (s.advance_tooDeep ▸ h)⟩

instance : Recounts State.Tells where
  refl _ := same rfl rfl
  trans := trans
  next := advance
  find s r _ := report s r
  blame s f p _ := by
    unfold State.fault
    split
    · exact same rfl rfl
    · exact report s _
  giveUp _ _ := ⟨[_], rfl, fun _ => .inr (List.cons_ne_nil _ _)⟩
  recount _ _ _ _ := same rfl rfl

instance (c : Context) : Recovers State.Tells c := recovers_of_reset (fun _ => ⟨[], rfl, nofun⟩) c

instance (source : Text) : Reenters State.Tells source :=
  ⟨fun {s width _} _ => (same rfl rfl : s.Tells (s.reenter source width)).trans (advance _),
    fun _ => ⟨_, rfl, .inl⟩⟩

theorem suffix {s t : State} (h : s.Tells t) : s.reports <:+ t.reports := by
  obtain ⟨added, hreports, -⟩ := h
  exact ⟨added, hreports.symm⟩

end State.Tells

section
variable {source : Text} {c : Context} {s t : State} {a : Stmt}

theorem Context.Level.tells (hc : c.Level source) :
    (statement c s = .ok (a, t) → s.Tells t) ∧ (checked c s = .ok (a, t) → s.Tells t) := by
  obtain ⟨rounds, n, rfl⟩ := hc
  exact ⟨Moves.keeps inferInstance, Moves.keeps inferInstance⟩

/-- Recovery goes on to a place where a statement can start. -/
theorem skipLine_adds {rounds : Nat} {u : Unit} (h : skipLine rounds s = .ok (u, t)) :
    t.recovered = true ∧ s.Adds (· = .lex) t := by
  induction rounds generalizing s with
  | zero => cases h
  | succ rounds ih =>
    obtain ⟨_, _, hget, hrun⟩ := bind_eq_ok h
    cases hget
    split at hrun
    · cases hrun
      exact ⟨‹_›, [], rfl, List.forall_mem_nil _⟩
    · obtain ⟨_, v, hadvance, hrun⟩ := bind_eq_ok hrun
      cases hadvance
      obtain ⟨hrecovered, hadds⟩ := ih hrun
      exact ⟨hrecovered, (s.adds_advance (P := (· = .lex)) rfl).trans hadds⟩

theorem recover_adds {rounds start : Nat} {u : Unit} (h : recover rounds start s = .ok (u, t)) :
    t.recovered = true ∧ s.Adds (· = .lex) t := by
  obtain ⟨_, _, hend, hrun⟩ := bind_eq_ok h
  cases hend
  obtain ⟨_, _, htoken, hrun⟩ := bind_eq_ok hrun
  cases htoken
  split at hrun
  · obtain ⟨_, _, hadvance, hrun⟩ := bind_eq_ok hrun
    cases hadvance
    obtain ⟨hrecovered, hadds⟩ := skipLine_adds hrun
    exact ⟨hrecovered, (s.adds_advance (P := (· = .lex)) rfl).trans hadds⟩
  · exact skipLine_adds hrun

/-- **How a statement ends**: where it was read without a report, or else, after recovery, where a
    statement can start, and not too deep any more. -/
theorem checked_cases (hc : c.Level source) (h : checked c s = .ok (a, t)) :
    ∃ u, statement c s = .ok (a, u) ∧ (u.reports = s.reports ∧ t = u ∨
      u.reports ≠ s.reports ∧ t.recovered = true ∧ t.tooDeep = false ∧ u.Adds (· = .lex) t) := by
  obtain ⟨_, _, hget, hrun⟩ := bind_eq_ok h
  cases hget
  obtain ⟨b, u, hstatement, hrun⟩ := bind_eq_ok hrun
  obtain ⟨added, hreports, -⟩ := hc.tells.1 hstatement
  obtain ⟨_, _, hget, hrun⟩ := bind_eq_ok hrun
  cases hget
  by_cases hchanged : u.reports.length ≠ s.reports.length
  · simp only [if_pos hchanged] at hrun
    obtain ⟨_, v, hrecover, hrun⟩ := bind_eq_ok hrun
    cases hrun
    obtain ⟨hrecovered, hadds⟩ := recover_adds hrecover
    exact ⟨u, hstatement, .inr ⟨fun h => hchanged (congrArg _ h), hrecovered, rfl, hadds⟩⟩
  · simp only [if_neg hchanged] at hrun
    cases hrun
    rw [hreports, List.length_append] at hchanged
    obtain rfl : added = [] := List.length_eq_zero_iff.mp (by omega)
    exact ⟨_, hstatement, .inl ⟨hreports, rfl⟩⟩

end

/-! ## 4. The depth error -/

/-- A report is made in a statement that is read on the way from one reader to another. -/
def MadeInside (source : Text) (s t : State) (r : Report) (earlier : List Report) : Prop :=
  ∃ c a v w, c.Level source ∧ s.Turns source v ∧ checked c v = .ok (a, w) ∧ w.Turns source t ∧
    v.reports <:+ earlier ∧ r :: earlier <:+ w.reports

/-- From one reader to another nothing is said of the grammar, up to the end, or up to the end of a
    statement in between that is left by recovery. -/
def QuietUntilRecovery (source : Text) (s t : State) : Prop :=
  s.Hushed t ∨ ∃ c a v w, c.Level source ∧ s.Turns source v ∧ s.Hushed v ∧
    checked c v = .ok (a, w) ∧ w.tooDeep = false ∧ w.Turns source t

section
variable {source : Text} {s t u : State}

theorem State.Turn.tells (h : s.Turn source t) : s.Tells t := by
  cases h with
  | quiet _ h =>
    obtain ⟨hflag, added, hreports, -⟩ := h
    exact ⟨added, hreports, fun ht => .inl (hflag ▸ ht)⟩
  | blame => exact .report s _
  | giveUp p hs => exact Motion.giveUp p hs
  | statement hlevel hrun => exact hlevel.tells.2 hrun

namespace State.Turns

/-- **Where a depth error comes from**: the reader gave up there, or it was made in a statement. -/
theorem made (h : s.Turns source t) {p : Position} {earlier : List Report}
    (hmade : ⟨.parse .tooDeep, p⟩ :: earlier <:+ t.reports) (hbefore : s.reports <:+ earlier) :
    (∃ u, s.Turns source u ∧ u.tooDeep = false ∧ u.reports = earlier ∧
      (u.giveUp p).Turns source t) ∨ MadeInside source s t ⟨.parse .tooDeep, p⟩ earlier := by
  induction h with
  | refl =>
    have hlength := Nat.le_trans hmade.length_le hbefore.length_le
    rw [List.length_cons] at hlength
    omega
  | @tail m t hturns hturn ih =>
    by_cases hold : ⟨.parse .tooDeep, p⟩ :: earlier <:+ m.reports
    · refine (ih hold).imp ?_ ?_
      · rintro ⟨u, hu, hflag, hreports, hrest⟩
        exact ⟨u, hu, hflag, hreports, hrest.tail hturn⟩
      · rintro ⟨c, a, v, w, hc, hv, hrun, hrest, hsuffixes⟩
        exact ⟨c, a, v, w, hc, hv, hrun, hrest.tail hturn, hsuffixes⟩
    -- The error was made in the last turn.
    have hnew : m.reports <:+ earlier := by
      rcases List.suffix_or_suffix_of_suffix hmade hturn.tells.suffix with h | h
      · exact absurd h hold
      · rcases List.suffix_cons_iff.mp h with h | h
        · exact absurd (h ▸ List.suffix_refl _) hold
        · exact h
    cases hturn with
    | quiet _ h =>
      obtain ⟨-, added, hreports, hquiet⟩ := h
      obtain ⟨later, hlater⟩ := hmade
      obtain ⟨mid, rfl⟩ := hnew
      have hadded : added ++ m.reports = later ++ ⟨.parse .tooDeep, p⟩ :: mid ++ m.reports := by
        rw [← hreports, ← hlater, List.append_assoc, List.cons_append]
      obtain rfl := List.append_cancel_right hadded
      exact absurd rfl (hquiet _ (List.mem_append_right _ List.mem_cons_self))
    | blame q hother =>
      cases (List.suffix_cons_iff.mp hmade).resolve_right hold
      exact absurd rfl hother
    | giveUp q hwithin =>
      cases (List.suffix_cons_iff.mp hmade).resolve_right hold
      exact .inl ⟨m, hturns, hwithin, rfl, .refl⟩
    | statement hc hrun => exact .inr ⟨_, _, m, t, hc, hturns, hrun, .refl, hnew, hmade⟩

/-- **After the depth error** nothing is said of the grammar up to the end, or up to the end of a
    statement that is left by recovery. -/
theorem quiet (h : s.Turns source t) (hs : s.tooDeep = true) : QuietUntilRecovery source s t := by
  induction h using Relation.ReflTransGen.head_induction_on with
  | refl => exact .inl (.silent rfl rfl)
  | @head s m hturn hturns ih =>
    have hstep (hm : s.Hushed m) : QuietUntilRecovery source s t := by
      refine (ih (hm.flag.trans hs)).imp hm.trans ?_
      rintro ⟨c, a, v, w, hc, hv, hhushed, hrest⟩
      exact ⟨c, a, v, w, hc, .head hturn hv, hm.trans hhushed, hrest⟩
    cases hturn with
    | quiet _ h => exact hstep h
    | blame _ _ hwithin | giveUp _ hwithin =>
      rw [hs] at hwithin
      cases hwithin
    | @statement c _ _ a hc hrun =>
      by_cases hflag : m.tooDeep = true
      · -- The statement was not recovered from, so nothing was reported in it.
        obtain ⟨u, -, ⟨hreports, rfl⟩ | ⟨-, -, hreset, -⟩⟩ := checked_cases hc hrun
        · exact hstep (.silent (hflag.trans hs.symm) hreports)
        · cases hreset.symm.trans hflag
      · exact .inr ⟨c, a, s, m, hc, .refl, .silent rfl rfl, hrun, Bool.eq_false_iff.mpr hflag, hturns⟩

end State.Turns

end

end ReactiveScript.Grammar
