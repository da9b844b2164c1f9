import ReactiveScript.Proofs.Grammar.Laying
import ReactiveScript.Proofs.OptionalChains
import ReactiveScript.Proofs.Syntax.Alike

/-!
# What is assigned to

When the reader has read an expression and finds an assignment sign behind it, it looks at the
expression once more: only a name, a member and, before a plain sign, a pattern can be changed. It
does not look at the links of a member, which may be optional, and before and behind an operand it
takes `++` and `--` without looking at all. The script spells all of this as it stands in the source,
whether or not an engine that runs it can assign to it.
-/

namespace ReactiveScript

open Lexed Script

/-! ## 1. Updates and assignments are read -/

theorem UpdateOp.ofKind?_token (op : UpdateOp) :
    UnaryOp.ofKind? op.token = none ∧ UpdateOp.ofKind? op.token = some op := by
  cases op <;> exact ⟨rfl, rfl⟩

/-- Behind an assignment sign nothing is left of the operators and links of its target. -/
theorem Punct.of_assignSign {p : Punct} {sign : AssignSign}
    (h : AssignSign.ofPunct? p = some sign) :
    BinaryOp.ofKind? (.punct p) = none ∧ p ≠ .question ∧ (Kind.punct p).endsChain = true := by
  cases p <;> first | exact ⟨rfl, by decide, rfl⟩ | cases h

namespace Grammar

section
variable {c : Context} {k j : Nat} {p : Position} {ts us : List Lexed} {e target value : Expr}

/-- A sign that updates the operand behind it is read in front of any operand. -/
theorem readsUnary_before (op : UpdateOp) (h : ReadsUnary c k ts e) :
    ReadsUnary c (k + 1) (.fixed op.token :: ts) (.update p op true e) := by
  intro n d s rest hn hd hrest hs
  obtain ⟨n, rfl⟩ := exists_level hn hd
  have hkind : s.current.kind = op.token := hs.kind_eq
  rw [unary, ends_token, hkind, op.ofKind?_token.1, op.ofKind?_token.2]
  refine ends_signed (fun e' he' => ?_) h hn hd hrest hs
  rw [Expr.unplaced, Expr.unplaced, he']

/-- A sign that updates the operand in front of it is read behind any chain. -/
theorem readsUnary_behind (op : UpdateOp) (hstarts : Form.chain.starts (headKind ts) = true)
    (h : ReadsChain c k ts e) :
    ReadsUnary c k (ts ++ [.fixed op.token]) (.update p op false e) := by
  intro n d s rest hn hd hrest hs
  rw [List.append_assoc, List.singleton_append] at hs
  have hkind := hs.kind_of_starts hstarts
  have hlink : (headKind (.fixed op.token :: rest)).startsLink = false := by cases op <;> rfl
  rw [ends_unary_of_startsOperand (hkind ▸ hstarts), postfixed, ends_bind]
  refine (ends_chain h hn hd hlink hs).mono ?_
  rintro e' s' ⟨he', hs'⟩
  have hsign : s'.current.kind = op.token := hs'.kind_eq
  rw [ends_token, hsign, op.ofKind?_token.2]
  dsimp only
  rw [hs'.lineStart_eq, if_neg Bool.false_ne_true, ends_advance, ends_pure,
    Expr.unplaced, Expr.unplaced, he']
  exact ⟨rfl, hs'.advance⟩

/-- What stands before an assignment sign is read up to the sign. -/
theorem ends_conditional_of_assignSign {d n : Nat} {s : State} {p : Punct} {sign : AssignSign}
    (hp : AssignSign.ofPunct? p = some sign) (h : ReadsUnary c k ts e) (hn : levels ≤ n + d)
    (hd : d + k ≤ maxDepth) (hs : Stands c.rounds d s (ts ++ punct p :: us)) :
    Ends (conditional (c.raised n)) s fun e' s' =>
      e'.unplaced = e.unplaced ∧ Goes c.rounds d s' (punct p :: us) := by
  obtain ⟨hoperator, hquestion, hends⟩ := Punct.of_assignSign hp
  have hstop : (headKind (punct p :: us)).endsChain = true := hends
  rw [conditional, ends_bind, binary, ends_bind]
  refine (h hn hd hstop hs).mono ?_
  rintro e' s' ⟨he', hs'⟩
  have hkind : s'.current.kind = .punct p := hs'.kind_eq
  have hnone : s'.operator? 1 = none := by rw [State.operator?, hkind, hoperator]
  have hsees : s'.sees (.punct .question) = false :=
    hs'.not_sees (decide_eq_false fun heq => hquestion (Kind.punct.inj heq))
  rw [ends_restoringDepth, binaryRest, ends_get, hnone]
  simp only [ends_pure, ends_sees, ends_canContinue, hsees, Bool.false_and,
    Bool.false_eq_true, if_false]
  exact ⟨he', hs'⟩

/-- An assignment to a member is read, whatever the links of the member are. -/
theorem readsWhole_assign {sign : Punct} {op : AssignOp}
    (hsign : AssignSign.ofPunct? sign = some (.assign op)) (hmember : target.isMember = true)
    (hopens : ∀ us, ReactiveScript.Opens (ts ++ us)) (htarget : ReadsUnary c k ts target)
    (hvalue : ReadsWhole c j us value) :
    ReadsWhole c (k + j + 1) (ts ++ punct sign :: us) (.assign p op target value) := by
  intro n d s rest hn hd hrest hs
  rw [List.append_assoc, List.cons_append] at hs
  obtain ⟨n, rfl⟩ := exists_level (k := 0) (d := d + 1) (by omega) (by omega)
  refine ends_assignment_of_opens hs (by omega) (hopens _) ?_
  rw [plainAssignment, ends_bind]
  refine (ends_conditional_of_assignSign hsign htarget (by omega) (by omega)
    (hs.setDepth (d + 1))).mono ?_
  rintro target' s₁ ⟨htarget', hs₁⟩
  have hkind : s₁.current.kind = .punct sign := hs₁.kind_eq
  have hassign : Check.assignment? (.assign op) .start target value =
      .ok (.assign target.pos op target value) := by
    cases target <;> first | rfl | cases hmember
  rw [ends_token, hkind, AssignSign.ofKind?, hsign]
  dsimp only
  rw [ends_canContinue, hs₁.canContinue_eq, if_pos rfl, assigned, ends_take,
    ends_bind]
  refine (hvalue (by omega) (by omega) hrest hs₁.advance.toStands).mono ?_
  rintro value' s₂ ⟨hvalue', hs₂⟩
  obtain ⟨e', hok, he'⟩ := Check.assignment?_congr htarget' hvalue' hassign
  rw [hok]
  exact ends_pure.mpr ⟨he', hs₂.setDepth d⟩

end

end Grammar

/-! ## 2. Their tokens -/

theorem UpdateOp.cuts {w : Text} {ts : List Lexed} (op : UpdateOp) (h : Cuts w ts) :
    Cuts (op.spelling ++ w) (.fixed op.token :: ts) := by
  cases op
  · exact h.mark (p := .increment) fun t => ⟨_, _, rfl, rfl, rfl⟩
  · exact h.mark (p := .decrement) fun t => ⟨_, _, rfl, rfl, rfl⟩

section
variable {o : Script.Options} {d : Nat} {e : Expr}

theorem Kind.isTame_of_startsLink {k : Kind} (h : k.startsLink = true) :
    k ≠ .eof ∧ k.isTame = true := by
  unfold Kind.startsLink at h
  split at h <;> first | exact ⟨nofun, rfl⟩ | cases h

/-- The script of a plain member. Its first operand is followed by a link, so nothing is taken for a
    pattern or a function, whatever stands behind the member. -/
theorem exists_member (h : Plain e) (hmember : e.isMember = true) :
    ∃ k ts, k < 2 * e.size ∧ Written .chain k ts e ∧ (∀ us, Opens (ts ++ us)) ∧
      Cuts (emit o d e).text ts := by
  obtain ⟨link, object, p, q, hlink, htemplate, hobject, rfl⟩ : ∃ link object p q, Link.IsPlain link ∧
      link.isTemplate = false ∧ Plain object ∧ e = link.placed p q object := by
    cases h with
    | member optional hobject hname => exact ⟨.name optional _, _, _, _, hname, rfl, hobject, rfl⟩
    | index optional hobject hproperty =>
      exact ⟨.index optional _, _, _, .start, hproperty, rfl, hobject, rfl⟩
    | _ => cases hmember
  obtain ⟨k, ts, hk, -, hchained, hcuts⟩ := writesChain_of_plain (o := o) (d := d) hobject
  obtain ⟨k', us, hk', hus, hchained', hcuts'⟩ := link.chained (o := o) (d := d) (p := p) (q := q)
    hlink htemplate hchained hcuts
  obtain ⟨hne, htame⟩ := Kind.isTame_of_startsLink hus
  have hnumber : object.number? = none := by cases hobject <;> rfl
  refine ⟨k', ts ++ us, by omega, hchained'.written, fun vs => ?_, ?_⟩
  · rw [List.append_assoc]
    refine (hchained.written.opens rfl).append ?_
    rwa [headKind_append hne]
  · rw [Link.text_placed link hnumber]
    exact hcuts'

/-! ## 3. Accepted sources -/

/-- A source is accepted as a program of this one expression, wherever its nodes stand, and the
    script is that of the expression. -/
def AcceptedAs (o : Options) (source : Text) (e : Expr) : Prop :=
  (∃ p q e', readProgram source = some (.ok ⟨p, [.expression q none e']⟩) ∧
    e'.unplaced = e.unplaced) ∧
  compile o source = some (.ok ((ofExpr o e).text ++ txt ";\n"))

theorem acceptedAs_of_readsWhole {source : Text} {k : Nat} (ts : List Lexed)
    (hstarts : (headKind ts).startsExpression = true) (hreads : ∀ c, Grammar.ReadsWhole c k ts e)
    (hk : k ≤ Grammar.maxDepth) (hcuts : Cuts source ts)
    (hline : ∀ q, stmt o 0 none (.expression q none e) =
      line 0 ((emit o 0 e).noBraceFirst ++ .lit ";"))
    (hfound : ∀ f, ¬ (emit o 0 e).Shows f)
    (hopens : (emit o 0 e).text.opensExpr = true) : AcceptedAs o source e := by
  obtain ⟨p, q, e', hread, he'⟩ :=
    Grammar.readProgram_of_readsWhole hstarts hreads hk hcuts.lexes
  rw [AcceptedAs, ofExpr_eq]
  exact ⟨⟨p, q, e', hread, he'⟩, compile_expression hread he' hline hfound hopens⟩

/-- **Every plain expression can be updated**, from both sides. -/
theorem update_acceptedAs (op : UpdateOp) (before : Bool) (hplain : Plain e)
    (hsize : e.size < 500) :
    AcceptedAs o (ofExpr o (.update .start op before e)).text
      (.update .start op before e) := by
  have hfound (f : Finding) : ¬ (emit o 0 (.update .start op before e)).Shows f := by
    have he := hplain.not_shows (o := o) (d := 0) (f := f)
    cases before <;> simpa [emit] using he
  have hdepth : 2 * e.size + 1 + 1 ≤ Grammar.maxDepth := by
    have hmax : Grammar.maxDepth = 1000 := rfl
    omega
  rw [ofExpr_eq]
  cases before with
  | true =>
    obtain ⟨ts, hts, hcuts⟩ :=
      ((emits_of_plain o 0 hplain).atLevel (g := .unary) rfl hplain.fits_unary).cuts
    have htext : (emit o 0 (.update .start op true e)).text =
        op.spelling ++ (atLevel Level.unary e (emit o 0 e)).text := by
      rw [emit, if_pos rfl, Code.text_append, Code.text_plain]
    have hopens : Opens (.fixed op.token :: ts) :=
      .other ⟨by cases op <;> nofun, fun p hp => by cases op <;> rintro ⟨⟩ <;> cases hp⟩
    refine acceptedAs_of_readsWhole (.fixed op.token :: ts) ?_ (fun c => ?_) hdepth ?_
      (fun _ => rfl) hfound ?_
    · cases op <;> rfl
    · exact Grammar.readsWhole_ofBinary hopens (Grammar.readsBinary_ofUnary
        (Grammar.readsUnary_before op (Grammar.readsForm_of_written hts)))
    · rw [htext]
      exact op.cuts hcuts
    · rw [htext]
      cases op <;> rfl
  | false =>
    have hspells := (emits_of_plain o 0 hplain).atLevel (g := .chain) rfl fun hlevel =>
      hplain.fits_chain_of_update hlevel
    obtain ⟨ts, hts, hcuts⟩ := hspells.cuts
    have htext : (emit o 0 (.update .start op false e)).text =
        (atLevel Level.update e (emit o 0 e)).text ++ op.spelling := by
      rw [emit, if_neg Bool.false_ne_true, Code.text_append, Code.text_plain]
    have hsign : Cuts op.spelling [.fixed op.token] := by
      have hnil : Cuts [] [] := fun _ _ _ hus => hus
      simpa using op.cuts hnil
    have hopens : Opens (ts ++ [.fixed op.token]) :=
      (hts.opens rfl).append (by cases op <;> rfl)
    refine acceptedAs_of_readsWhole (ts ++ [.fixed op.token]) ?_ (fun c => ?_)
      (Nat.le_of_succ_le hdepth) ?_ (fun _ => rfl) hfound ?_
    · exact Kind.startsExpression_of_starts
        (Form.starts_append (Form.starts_of_startsOperand hts.starts) _)
    · exact Grammar.readsWhole_ofBinary hopens (Grammar.readsBinary_ofUnary
        (Grammar.readsUnary_behind op hts.starts (Grammar.readsForm_of_written hts)))
    · rw [htext]
      exact hcuts.append (by cases op <;> rfl) hsign
    · rw [htext]
      exact Text.opensExpr_append hspells.opens

/-- The script has the target as it is. -/
theorem text_assign {op : AssignOp} {target value : Expr} (hmember : target.isMember = true)
    (hvalue : Plain value) :
    (ofExpr o (.assign .start op target value)).text = (ofExpr o target).text ++
      (txt " " ++ (assignSpelling op ++ (txt " " ++ (ofExpr o value).text))) := by
  have hlevel : Level.call ≤ target.level := by
    cases target <;> first | exact Nat.le_refl _ | cases hmember
  simp only [ofExpr_eq, emit, atLevel_of_le hlevel,
    atLevel_of_le hvalue.assignment_le_level, Code.text_append, Code.text_lit,
    Code.text_plain, List.append_assoc]

/-- **Every plain member can be assigned to**, with every sign. -/
theorem assign_acceptedAs {sign : Punct} {op : AssignOp} {target value : Expr}
    (hsign : AssignSign.ofPunct? sign = some (.assign op)) (htarget : Plain target)
    (hmember : target.isMember = true) (hvalue : Plain value)
    (hsize : target.size + value.size < 500) :
    AcceptedAs o ((ofExpr o target).text ++
        (txt " " ++ (sign.spelling ++ (txt " " ++ (ofExpr o value).text))))
      (.assign .start op target value) := by
  obtain ⟨k, ts, hk, hts, hopens, hcuts⟩ := exists_member (o := o) (d := 0) htarget hmember
  obtain ⟨us, hus, hcuts'⟩ := (emits_of_plain o 0 hvalue).whole.cuts
  have hopen : (emit o 0 (.assign .start op target value)).text.opensExpr = true := by
    rw [← ofExpr_eq, text_assign hmember hvalue, ofExpr_eq]
    exact Text.opensExpr_append (emits_of_plain o 0 htarget).whole.opens
  have hfound (f : Finding) : ¬ (emit o 0 (.assign .start op target value)).Shows f := by
    simp [emit, htarget.not_shows (o := o) (d := 0) (f := f),
      hvalue.not_shows (o := o) (d := 0) (f := f)]
  have hdepth : k + 2 * value.size + 1 ≤ Grammar.maxDepth := by
    have hmax : Grammar.maxDepth = 1000 := rfl
    omega
  rw [ofExpr_eq, ofExpr_eq]
  refine acceptedAs_of_readsWhole (ts ++ punct sign :: us) ?_ (fun c => ?_) hdepth ?_
    (fun _ => by cases op <;> rfl) hfound hopen
  · exact Kind.startsExpression_of_starts
      (Form.starts_append (Form.starts_of_startsOperand hts.starts) _)
  · exact Grammar.readsWhole_assign hsign hmember hopens
      (Grammar.readsUnary_ofChain hts.starts (Grammar.readsForm_of_written hts))
      (Grammar.readsForm_of_written hus)
  · exact hcuts.append rfl ((hcuts'.fixed (k := .punct sign) rfl hus.ne_nil).blank
      (List.cons_ne_nil _ _))

end

/-! ## 4. What is checked -/

/-- **The targets of assignments and updates.** In every accepted program an assignment changes a
    name, a member or, with the plain sign, a pattern. Nothing else is asked of a target: every plain
    member is one, its optional links and all, and every plain expression can be updated from both
    sides. The script spells the update and the assignment as they are. -/
theorem assignment_targets (o : Options) :
    (∀ source program, readProgram source = some (.ok program) → ∀ p op target value,
      Within (.program program) (.expr (.assign p op target value)) →
        (∃ q name, target = .identifier q name) ∨
        (∃ q object property computed optional,
          target = .member q object property computed optional) ∨
        target.isPattern = true ∧ op = .plain) ∧
    (∀ op before e, Plain e → e.size < 500 →
      AcceptedAs o (ofExpr o (.update .start op before e)).text
        (.update .start op before e)) ∧
    ∀ sign op target value, AssignSign.ofPunct? sign = some (.assign op) → Plain target →
      target.isMember = true → Plain value → target.size + value.size < 500 →
      AcceptedAs o ((ofExpr o target).text ++
          (txt " " ++ (sign.spelling ++ (txt " " ++ (ofExpr o value).text))))
        (.assign .start op target value) ∧
      (ofExpr o (.assign .start op target value)).text = (ofExpr o target).text ++
        (txt " " ++ (assignSpelling op ++ (txt " " ++ (ofExpr o value).text))) := by
  refine ⟨fun source program hread p op target value hwithin => ?_,
    fun op before e => update_acceptedAs op before,
    fun sign op target value hsign htarget hmember hvalue hsize =>
      ⟨assign_acceptedAs hsign htarget hmember hvalue hsize, text_assign hmember hvalue⟩⟩
  have hwf : WellFormed.program program = true :=
    (Grammar.built_of_readProgram hread).wellFormed
  have hassign : WellFormed.expr (.assign p op target value) = true :=
    WellFormed.piece_of_within hwithin hwf
  have htarget : target.isAssignable op = true := by
    simp only [WellFormed.expr, Bool.and_eq_true] at hassign
    exact hassign.1.1
  simp only [Expr.isAssignable, Bool.or_eq_true, Bool.and_eq_true, decide_eq_true_eq] at htarget
  rcases htarget with (hname | hmember) | hpattern
  · cases target <;> first | exact .inl ⟨_, _, rfl⟩ | cases hname
  · cases target <;> first | exact .inr (.inl ⟨_, _, _, _, _, rfl⟩) | cases hmember
  · exact .inr (.inr hpattern)

/-- A number and `null` are counted up, and an optional chain is assigned to. -/
theorem sample_targets :
    compile {} (txt "5++\n") = some (.ok (txt "5++;\n")) ∧
    compile {} (txt "null++") = some (.ok (txt "null++;\n")) ∧
    compile {} (txt "a?.b := null") = some (.ok (txt "a?.b = null;\n")) ∧
    ∃ program p target value, readProgram (txt "a?.b := null") = some (.ok program) ∧
      Within (.program program) (.expr (.assign p .plain target value)) ∧
      target.isOptionalChain = true ∧
      ((∃ q name, target = .identifier q name) ∨
        (∃ q object property computed optional,
          target = .member q object property computed optional) ∨
        target.isPattern = true ∧ AssignOp.plain = .plain) := by
  let target : Expr := .member .start (.identifier .start (txt "a")) (.identifier .start (txt "b"))
    false true
  have hplain : Plain target := .member true (.identifier (by decide)) (by decide)
  obtain ⟨htargets, hupdates, hassigns⟩ := assignment_targets {}
  have hupdate := (hupdates .increment false (.null .start) .null (by decide)).2
  obtain ⟨⟨⟨p, q, e', hread, he'⟩, hcompile⟩, -⟩ :=
    hassigns .set .plain target (.null .start) rfl hplain rfl .null (by decide)
  have hgives : Grammar.givesAtOnce Grammar.program (fun program =>
      (ofProgram {} program).faults.isEmpty &&
        (ofProgram {} program).text == txt "5++;\n") (txt "5++\n") = true := by
    decide +kernel
  obtain ⟨program, hprogram, hscript⟩ := Grammar.exists_of_givesAtOnce hgives
  obtain ⟨hfaults, htext⟩ := (Bool.and_eq_true _ _).mp hscript
  refine ⟨?_, hupdate, hcompile, ?_⟩
  · rw [compile_of_readProgram {} hprogram, Code.checked_of_nil (List.isEmpty_iff.mp hfaults),
      eq_of_beq htext]
  · cases e' with
    | assign r op target' value' =>
      simp only [Expr.unplaced, Expr.assign.injEq] at he'
      obtain ⟨-, rfl, htarget', -⟩ := he'
      have hwithin : Within (.program ⟨p, [.expression q none (.assign r .plain target' value')]⟩)
          (.expr (.assign r .plain target' value')) := .step (.head _) (.step (.head _) (.refl _))
      refine ⟨_, r, target', value', hread, hwithin, ?_, htargets _ _ hread _ _ _ _ hwithin⟩
      rw [← Expr.isOptionalChain_unplaced, htarget']
      rfl
    | _ => cases he'

end ReactiveScript
