import ReactiveScript.Proofs.RoundTrip

/-!
# Optional chains and templates behind them

While the reader goes through the links of a chain, it remembers whether one of them was optional,
and it refuses a template behind a chain with such a link. It forgets about the links in parentheses.
`Chained` tells which chains have an optional link at the top, and which template may stand behind
them follows from it.
-/

namespace ReactiveScript

open Lexed

/-! ## 1. Templates without holes -/

/-- A text that stands for itself in a template. -/
def Text.isQuasi (raw : Text) : Bool :=
  raw.all fun b => b ≠ Byte.backtick && b ≠ Byte.backslash && b ≠ Byte.dollar

/-- A text in backticks. -/
def Text.inBackticks (raw : Text) : Text := Byte.backtick :: (raw ++ [Byte.backtick])

/-- A template without holes. -/
def Lexed.quasi (raw : Text) : Lexed := ⟨.template, raw.inBackticks⟩

section
variable {raw : Text}

theorem Text.isQuasi_cons {b : UInt8} (h : Text.isQuasi (b :: raw) = true) :
    b ≠ Byte.backtick ∧ b ≠ Byte.backslash ∧ b ≠ Byte.dollar ∧ Text.isQuasi raw = true := by
  simpa [Text.isQuasi, and_assoc] using h

/-- A template without holes ends with the first backtick. -/
theorem closeFrom_quasi (h : Text.isQuasi raw = true) (n : Nat) (t : Text) :
    Nesting.closeFrom [.body] n (raw ++ Byte.backtick :: t) = (n + raw.length + 1, true) := by
  induction raw generalizing n with
  | nil =>
    rw [List.nil_append, Nesting.closeFrom.eq_def]
    rfl
  | cons b raw ih =>
    obtain ⟨hback, hslash, hdollar, hraw⟩ := Text.isQuasi_cons h
    rw [List.cons_append, Nesting.closeFrom.eq_def]
    dsimp only
    rw [if_neg hback, if_neg hslash, if_neg (fun h => hdollar h.1), ih hraw, List.length_cons]
    congr 1
    omega

theorem cuts_quasi (h : Text.isQuasi raw = true) : Cuts raw.inBackticks [.quasi raw] := by
  intro t us _ hus
  have hscan : Lexeme.scan Byte.backtick ((raw ++ [Byte.backtick]) ++ t) =
      ⟨.template, (raw ++ [Byte.backtick]).length + 1, []⟩ := by
    have htemplate : ∀ rest, Lexeme.scan Byte.backtick rest = Lexeme.template rest := fun _ => rfl
    rw [htemplate, List.append_assoc, List.singleton_append, Lexeme.template, closeFrom_quasi h,
      List.length_append, Nat.add_comm 1]
    rfl
  exact .token 0 rfl hscan hus

/-- The literal part of a template without holes is all of it. -/
theorem splitFrom_quasi (h : Text.isQuasi raw = true) {stop i : Nat} (hstop : i + raw.length = stop)
    (p : Position) (part : Text) :
    Template.splitFrom stop .nothing i p part [] [] (raw ++ [Byte.backtick]) =
      ⟨[part.reverse ++ raw], []⟩ := by
  induction raw generalizing i p part with
  | nil =>
    rw [List.nil_append, Template.splitFrom.eq_def]
    have hle : stop ≤ i := Nat.le_of_eq hstop.symm
    dsimp only
    rw [if_pos hle, List.append_nil]
    rfl
  | cons b raw ih =>
    obtain ⟨-, hslash, hdollar, hraw⟩ := Text.isQuasi_cons h
    rw [List.length_cons] at hstop
    rw [List.cons_append, Template.splitFrom.eq_def]
    dsimp only
    rw [if_neg (by omega), if_neg hslash, if_neg (fun h => hdollar h.1), ih hraw (by omega),
      List.reverse_cons, List.append_assoc, List.singleton_append]

theorem split_quasi (h : Text.isQuasi raw = true) (p : Position) :
    Template.split p raw.inBackticks = ⟨[raw], []⟩ := by
  have hend : Template.bodyEnd raw.inBackticks = 1 + raw.length := by
    have hlast : raw.inBackticks.getLast? = some Byte.backtick := by
      rw [Text.inBackticks, ← List.cons_append, List.getLast?_concat]
    have hlength : raw.inBackticks.length = raw.length + 2 := by
      simp [Text.inBackticks]
    rw [Template.bodyEnd, hlast, hlength, if_pos ⟨Nat.le_add_left 2 _, rfl⟩]
    omega
  rw [Template.split, hend]
  exact splitFrom_quasi h rfl _ []

end

/-! ## 2. Chains -/

/-- A chain in which no parentheses hide the links, and whether one of the links is optional. -/
inductive Chained : Bool → Nat → List Lexed → Expr → Prop
  | ofOperand {k : Nat} {ts : List Lexed} {e : Expr} (h : Written .operand k ts e) :
      Chained false k ts e
  | member {p q : Position} {before : Bool} {k : Nat} {ts : List Lexed} {o : Expr} {t : Text}
      (optional : Bool) (h : Chained before k ts o) :
      Chained (before || optional) (k + 1) (ts ++ [dot optional, .name t])
        (.member p o (.identifier q t) false optional)
  | index {p : Position} {before : Bool} {k j : Nat} {ts us : List Lexed} {o i : Expr}
      (optional : Bool) (ho : Chained before k ts o) (hi : Written .whole j us i) :
      Chained (before || optional) (k + j + 1)
        (ts ++ (link optional .openBracket ++ (us ++ [punct .closeBracket])))
        (.member p o i true optional)
  | call {p : Position} {before : Bool} {k j : Nat} {ts : List Lexed} {f : Expr}
      {parts : List (List Lexed × Expr)} (optional : Bool) (hf : Chained before k ts f)
      (h : ∀ q ∈ parts, Written .whole j q.1 q.2) :
      Chained (before || optional) (k + j + 1)
        (ts ++ (link optional .openParen ++ (commas (parts.map (·.1)) ++ [punct .closeParen])))
        (.call p f (parts.map (·.2)) optional)

section
variable {optional : Bool} {k : Nat} {ts : List Lexed} {e : Expr}

theorem Chained.written (h : Chained optional k ts e) : Written .chain k ts e := by
  induction h with
  | ofOperand h => exact .ofOperand h
  | member optional _ ih => exact .member optional ih
  | index optional _ hi ih => exact .index optional ih hi
  | call optional _ h ih => exact .call optional ih h

namespace Grammar

variable {c : Context} {n d : Nat} {s : State} {rest : List Lexed} {raw : Text}

/-- The reader remembers of a chain whether one of its links is optional. -/
theorem readsLinks_of_chained (h : Chained optional k ts e) : ReadsLinks c optional k ts e := by
  induction h with
  | ofOperand h => exact readsLinks_ofOperand (isBad_of_written h) (readsForm_of_written h)
  | member optional _ ih => exact readsLinks_member optional ih
  | index optional _ hi ih =>
    exact readsLinks_index optional ih hi.starts (readsForm_of_written hi)
  | call optional _ h ih =>
    exact readsLinks_call optional ih fun q hq => ⟨(h q hq).starts, readsForm_of_written (h q hq)⟩

/-! ## 3. Templates behind chains -/

theorem ends_templateParts {t : Token} (hraw : Text.isQuasi raw = true) (ht : t.text = raw.inBackticks)
    {Q : List Quasi × List Expr → State → Prop} :
    Ends (templateParts c t) s Q ↔ Q ([Template.quasi raw], []) s := by
  rw [templateParts, Template.parts, ht, split_quasi hraw]
  simp only [List.mapM_nil, ends_bind, ends_pure, List.map_cons, List.map_nil]

/-- The loop over the links, before a template. -/
theorem ends_chainRest_quasi (hs : Goes c.rounds d s (.quasi raw :: rest)) (e : Expr)
    {Q : Expr → State → Prop} :
    Ends (chainRest (c.raised n) optional e) s Q ↔
      if optional then Ends (do fault .taggedOptional; badHere) s Q
      else Ends (taggedTemplate (c.raised n) e) s fun e' s' =>
        Ends (chainOn (c.raised n) false e') s' Q := by
  rw [ends_chainRest_plain rfl rfl hs]
  cases optional with
  | false => exact ends_bind
  | true => exact Iff.rfl

theorem readsLinks_tagged {p q : Position} (hraw : Text.isQuasi raw = true)
    (h : ReadsLinks c false k ts e) :
    ReadsLinks c false (k + 1) (ts ++ [.quasi raw])
      (.tagged p e q [Template.quasi raw] []) := by
  intro n d s rest Q hn hd hs hnext
  rw [List.append_assoc] at hs
  refine h hn (by omega) hs fun n' d' e' s' hn' hd' he' hs' => ?_
  have htext : s'.current.text = raw.inBackticks := hs'.text_eq
  rw [ends_chainRest_quasi hs', if_neg Bool.false_ne_true, taggedTemplate, ends_take, ends_bind,
    ends_templateParts hraw htext, ends_pure]
  refine ends_chainOn_of_next rfl ?_ hn' (by omega) hd hs'.advance hnext
  rw [Expr.unplaced, Expr.unplaced, he', Unplaced.exprs]

/-- **A template behind a chain without an optional link is tagged with the chain.** -/
theorem readsWhole_tagged {p q : Position} (hraw : Text.isQuasi raw = true)
    (h : Chained false k ts e) :
    ReadsWhole c (k + 2) (ts ++ [.quasi raw]) (.tagged p e q [Template.quasi raw] []) := by
  have hstarts : Form.chain.starts (headKind (ts ++ [.quasi raw])) = true :=
    Form.starts_append h.written.starts _
  have hopens : Opens (ts ++ [.quasi raw]) := (h.written.opens rfl).append rfl
  have hlinks : ReadsLinks c false (k + 1) (ts ++ [.quasi raw])
      (.tagged p e q [Template.quasi raw] []) :=
    readsLinks_tagged hraw (readsLinks_of_chained h)
  intro n d s rest
  exact readsWhole_ofBinary hopens (readsBinary_ofUnary (readsUnary_ofChain hstarts ⟨false, hlinks⟩))

/-! ## 4. Templates behind optional chains -/

/-- The reader has refused the template before which it stands. -/
structure Refused (s : State) : Prop where
  kind_eq : s.current.kind = .template
  reports_eq : ∃ p, s.reports = [⟨.parse .taggedOptional, p⟩]

theorem Refused.setDepth (h : Refused s) (d : Nat) : Refused { s with depth := d } :=
  ⟨h.kind_eq, h.reports_eq⟩

theorem ends_chainRest_refused (hs : Goes c.rounds d s (.quasi raw :: rest)) (e : Expr) :
    Ends (chainRest (c.raised n) true e) s fun _ s' => Refused s' := by
  have hkind : s.current.kind = .template := hs.kind_eq
  have hfault : s.fault .taggedOptional s.current.pos =
      s.report ⟨.parse .taggedOptional, s.current.pos⟩ := by
    rw [State.fault, hs.tooDeep_eq, if_neg Bool.false_ne_true]
  rw [ends_chainRest_quasi hs, if_pos rfl]
  refine ⟨_, s.fault .taggedOptional s.current.pos, rfl, ?_⟩
  rw [hfault]
  exact ⟨hkind, s.current.pos, by rw [State.report, hs.reports_eq]⟩

/-- Nothing is read behind a template that was refused. -/
theorem ends_binary_refused {m : Nat} (h : Chained true k ts e) (hn : levels ≤ n + d)
    (hd : d + k ≤ maxDepth) (hs : Stands c.rounds d s (ts ++ .quasi raw :: rest)) :
    Ends (binary (c.raised n) m) s fun _ s' => Refused s' := by
  have hstarts : Form.chain.starts (headKind ts) = true := h.written.starts
  have hkind := hs.kind_of_starts hstarts
  obtain ⟨hunary, hupdate⟩ := UpdateOp.ofKind?_of_startsOperand hstarts
  have hchain : Ends (chain (c.raised n)) s fun _ s' => Refused s' := by
    rw [chain, ends_bind]
    refine (readsLinks_of_chained h (Q := fun _ s' => Refused s') hn hd hs
      fun n' d' e' s' _ _ _ hs' => ends_chainRest_refused hs' e').mono ?_
    rintro e₁ s₁ ⟨hbad, -, hends⟩
    rw [hbad, if_neg Bool.false_ne_true, ends_restoringDepth]
    exact hends.mono fun _ s' hs' => hs'.setDepth s₁.depth
  have hpostfixed : Ends (postfixed (c.raised n)) s fun _ s' => Refused s' := by
    rw [postfixed, ends_bind]
    refine hchain.mono fun e' s' hs' => ?_
    rw [ends_token, hs'.kind_eq]
    exact ends_pure.mpr hs'
  rw [binary, ends_bind, unary, ends_token, hkind, hunary, hupdate]
  refine hpostfixed.mono fun e' s' hs' => ?_
  have hnone : s'.operator? m = none := by
    rw [State.operator?, hs'.kind_eq]
    rfl
  rw [ends_restoringDepth, binaryRest, ends_get, hnone]
  exact ends_pure.mpr (hs'.setDepth s'.depth)

theorem ends_assignment_refused (h : Chained true k ts e) (hn : levels ≤ n + d + 1)
    (hd : d + k < maxDepth) (hs : Stands c.rounds d s (ts ++ .quasi raw :: rest)) :
    Ends (assignment (c.raised n)) s fun _ s' => Refused s' := by
  have hopens : Opens (ts ++ .quasi raw :: rest) := (h.written.opens rfl).append rfl
  refine ends_assignment_of_opens hs (by omega) hopens ?_
  rw [plainAssignment, ends_bind, conditional, ends_bind]
  refine (ends_binary_refused h (by omega) (by omega) (hs.setDepth (d + 1))).mono fun e' s' hs' => ?_
  have hquestion : s'.sees (.punct .question) = false := by
    rw [State.sees, hs'.kind_eq]
    rfl
  simp only [ends_sees, ends_canContinue, hquestion, Bool.false_and, Bool.false_eq_true,
    if_false, ends_pure, ends_token, hs'.kind_eq]
  exact ends_pure.mpr (hs'.setDepth d)

/-- **A template behind an optional chain is refused.** -/
theorem readExpression_refused {source : Text} (h : Chained true k ts e) (hk : k < maxDepth)
    (hlexes : Lexes source (ts ++ [.quasi raw])) :
    ∃ p, readExpression source = some (.error [⟨.parse .taggedOptional, p⟩]) := by
  have hlength := hlexes.length_le
  have hs : Stands (source.length + 2) 0 (State.ofText source) (ts ++ [.quasi raw]) :=
    stands_start hlexes (by omega)
  have hassignment : (Context.ofSource source (source.length + 2)).inner.assignment =
      assignment ((Context.ground source (source.length + 2)).raised (maxDepth + 1)) := rfl
  have hends : Ends (wholeExpression (Context.ofSource source (source.length + 2)))
      (State.ofText source) fun _ s' => Refused s' := by
    rw [wholeExpression, ends_modify, ends_bind, hassignment]
    refine (ends_assignment_refused h (d := 0) (Nat.le_refl _) (by omega) (hs.setNesting 1)).mono
      fun e' s' hs' => ?_
    obtain ⟨p, hp⟩ := hs'.reports_eq
    simp only [ends_atEnd, ends_get, hp, List.isEmpty_cons, Bool.and_false,
      Bool.false_eq_true, if_false, ends_pure]
    exact hs'
  obtain ⟨e', s', hrun, -, p, hp⟩ := hends
  refine ⟨p, (runOn_of_ok hrun).trans ?_⟩
  rw [hp]
  rfl

end Grammar

end

end ReactiveScript
