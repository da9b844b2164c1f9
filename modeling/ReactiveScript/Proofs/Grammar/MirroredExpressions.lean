import ReactiveScript.Grammar.Read
import ReactiveScript.Proofs.Grammar.MirroredMarkup

/-!
# Expressions that read the same inside a wider source

Expressions, and with them the grammar as a whole: with enough levels, the routines of a text alone
and those of a wider source keep the readers together (`Context.mirrors_raised`).
-/

namespace ReactiveScript.Grammar

-- The instance of a routine is as large as the routine.
set_option synthInstance.maxSize 1000

variable {α β γ δ : Type} {S : Setting} {f : Frame} {s w : State}

section
variable {c c' : Context} {d : Nat} [hc : c.Mirrors S d c'] [hd : f.Reaches d]
  {e e' : Expr}
include hc hd

/-! ## 1. Literals -/

theorem mirrors_elementOrSpread :
    Mirrors S f (elementOrSpread c) (elementOrSpread c') Expr.unplaced := by
  intro s w h
  refine .token (h.ifAccept rfl (fun _ hdots => ?_) fun _ => hc.assignment h)
  exact (hc.assignment hdots).give fun _ _ he => by simp only [Expr.unplaced, he]

theorem mirrors_elements (close : Punct) :
    Mirrors S f (elements c close) (elements c' close) (List.map Expr.unplaced) := by
  intro s w h
  exact h.parts (.more mirrors_elementOrSpread) fun es es' t u hes htu => .pure ⟨hes, htu⟩

theorem starts_arrayLiteral :
    Starts S f (arrayLiteral c) (arrayLiteral c') Expr.unplaced := by
  intro s w h hkind
  refine h.take hkind fun hnext => ?_
  exact (mirrors_elements .closeBracket hnext).give fun _ _ hes =>
    by simp only [Expr.unplaced, Unplaced.exprs_eq_map, hes]

theorem mirrors_computedProperty (p p' : Position) :
    Mirrors S f (computedProperty c p) (computedProperty c' p') Unplaced.property := by
  intro s w h
  have hinner := hc.assignment (f := f)
  refine .sees ?_
  rw [h.sees_eq rfl]
  refine .bind (hinner.readIf _ h) fun key t key' u hkey => hkey.2.expect (by decide) fun _ hclose => ?_
  refine .bind (mirrors_accept rfl hclose) fun colon t colon' u hcolon => ?_
  obtain ⟨rfl, htu⟩ := hcolon
  exact (hinner.readIf _ htu).give fun _ _ hvalue =>
    by simp only [Unplaced.property, Unplaced.expr?_eq_map, hkey.1, hvalue]

theorem follows_literalProperty (p p' : Position) (h : Beside S f s w)
    (hkind : s.current.kind ≠ .eof) :
    Follows (literalProperty c p) s (literalProperty c' p') w (Together S f Unplaced.property) := by
  have hkey : (if w.current.kind = .string then stringOf w.current
        else .number w.current.pos (NumberLiteral.ofText w.current.text)).unplaced =
      (if s.current.kind = .string then stringOf s.current
        else .number s.current.pos (NumberLiteral.ofText s.current.text)).unplaced := by
    have htoken := (h.alike hkind).token
    rw [htoken.kind]
    split
    · exact stringOf_unplaced htoken
    · simp only [Expr.unplaced, htoken.text]
  refine h.take hkind fun hnext => hnext.expect (by decide) fun _ hcolon => ?_
  exact (hc.assignment hcolon).give fun _ _ hvalue =>
    by simp only [Unplaced.property, hkey, hvalue]

theorem follows_wordProperty (p p' : Position) (h : Beside S f s w)
    (hkind : s.current.kind ≠ .eof) :
    Follows (wordProperty c p) s (wordProperty c' p') w
      (Together S f (Part.map Unplaced.property)) := by
  have htoken := (h.alike hkind).token
  have hkey := identifierOf_unplaced htoken
  refine h.take hkind fun hnext => hnext.ifAccept rfl (fun _ hcolon => ?_) fun _ => ?_
  · exact (hc.assignment hcolon).give fun _ _ hvalue =>
      congrArg Part.more (by simp only [Unplaced.property, hkey, hvalue])
  · refine .ite (by rw [htoken.kind]) (fun _ => hnext.faulty) fun _ => ?_
    exact .pure ⟨congrArg Part.more (by simp only [Unplaced.property, hkey]), hnext⟩

theorem mirrors_property :
    Mirrors S f (property c) (property c') (Part.map Unplaced.property) := by
  intro s w h
  refine .token (h.ifAccept rfl (fun _ hdots => ?_) fun _ => h.ifAccept rfl ?_ ?_)
  · refine .bind (hc.assignment hdots) fun e t e' u he => ?_
    exact .pure ⟨congrArg Part.more (by simp only [Unplaced.property, he.1]), he.2⟩
  · refine fun _ hopen => .bind (mirrors_computedProperty _ _ hopen) fun a t b u hab => ?_
    exact .pure ⟨congrArg Part.more hab.1, hab.2⟩
  · refine fun _ => .token (.ite ?_ (fun hkind => ?_) fun _ => .ite ?_ (fun hkind => ?_) fun _ => ?_)
    · rw [h.kind_congr (fun k => (k = .string || k = .number : Bool)) rfl rfl]
    · have heof : s.current.kind ≠ .eof := fun heof => by simp [heof] at hkind
      refine .bind (follows_literalProperty _ _ h heof) fun a t b u hab => ?_
      exact .pure ⟨congrArg Part.more hab.1, hab.2⟩
    · rw [h.kind_congr Kind.isPropertyName rfl rfl]
    · exact follows_wordProperty _ _ h (ne_eof_of_isPropertyName hkind)
    · exact h.faulty

theorem starts_objectLiteral :
    Starts S f (objectLiteral c) (objectLiteral c') Expr.unplaced := by
  intro s w h hkind
  refine h.take hkind fun hnext => ?_
  refine hnext.parts mirrors_property fun ps ps' t u hps htu => ?_
  refine htu.reportAll (Check.computedComplete_congr hps) ?_
  exact .pure ⟨by simp only [Expr.unplaced, Unplaced.properties_eq_map, hps], htu⟩

theorem starts_parenthesized :
    Starts S f (parenthesized c) (parenthesized c') Expr.unplaced := by
  intro s w h hkind
  refine h.advance hkind fun hnext => ?_
  refine .bind (hc.assignment.bracketed hnext) fun e t e' u he => ?_
  exact he.2.expect (by decide) fun _ hclose => .pure ⟨he.1, hclose⟩

theorem opens_primary : Opens S f (primary c) (primary c') Expr.unplaced := by
  intro s w h
  refine .token ?_
  rcases h.place with halike | hclose
  · rw [halike.token.kind]
    split
    · rename_i hkind
      refine h.take (by simp [hkind]) fun hnext => .pure ⟨identifierOf_unplaced halike.token, hnext⟩
    · rename_i hkind
      refine h.take (by simp [hkind]) fun hnext => .pure ⟨?_, hnext⟩
      simp only [Expr.unplaced, halike.token.text]
    · rename_i hkind
      refine h.take (by simp [hkind]) fun hnext => .pure ⟨stringOf_unplaced halike.token, hnext⟩
    · rename_i hkind
      refine h.take (by simp [hkind]) fun hnext => ?_
      refine .bind (follows_templateParts halike.token h.sound.current h.sound'.current
        (halike.closed hkind) hnext.toNear) fun r t r' u hr => ?_
      obtain ⟨⟨hquasis, hes⟩, rfl, rfl⟩ := hr
      exact .pure ⟨by simp only [Expr.unplaced, Unplaced.exprs_eq_map, hquasis, hes], hnext⟩
    · rename_i hkind
      exact h.advance (by simp [hkind]) fun hnext => .pure ⟨by simp only [Expr.unplaced], hnext⟩
    · rename_i hkind
      exact h.advance (by simp [hkind]) fun hnext => .pure ⟨by simp only [Expr.unplaced], hnext⟩
    · rename_i hkind
      exact h.advance (by simp [hkind]) fun hnext => .pure ⟨by simp only [Expr.unplaced], hnext⟩
    · exact starts_arrayLiteral h (by simp [‹s.current.kind = _›])
    · exact starts_objectLiteral h (by simp [‹s.current.kind = _›])
    · exact starts_parenthesized h (by simp [‹s.current.kind = _›])
    · have heof : s.current.kind ≠ .eof := by simp [‹s.current.kind = _›]
      exact (follows_jsx false h heof).mono fun _ _ _ _ he => he.2
    · exact h.faulty
  · rw [hclose.kind]
    exact h.faulty

/-! ## 2. Chains -/

omit hc hd in
theorem mirrors_memberName (he : e'.unplaced = e.unplaced) (optional : Bool) :
    Mirrors S f (memberName e optional) (memberName e' optional) Expr.unplaced := by
  intro s w h
  refine .token (.ite (by rw [h.kind_congr Kind.isPropertyName rfl rfl]) (fun hword => ?_) fun _ =>
    h.faulty)
  have heof := ne_eof_of_isPropertyName hword
  refine h.take heof fun hnext => .pure ⟨?_, hnext⟩
  simp only [Expr.unplaced, he, identifierOf_unplaced (h.alike heof).token]

theorem follows_call (he : e'.unplaced = e.unplaced) (optional : Bool)
    (h : Beside S f s w) (hkind : s.current.kind ≠ .eof) :
    Follows (call c e optional) s (call c' e' optional) w (Together S f Expr.unplaced) := by
  refine h.advance hkind fun hnext => ?_
  exact (mirrors_elements .closeParen hnext).give fun _ _ hes =>
    by simp only [Expr.unplaced, Unplaced.exprs_eq_map, he, hes]

theorem mirrors_optionalLink (he : e'.unplaced = e.unplaced) :
    Mirrors S f (optionalLink c e) (optionalLink c' e') Expr.unplaced := by
  intro s w h
  refine h.ifSees rfl (fun hkind => ?_) fun _ => h.ifAccept rfl (fun _ hopen => ?_) fun _ => ?_
  · exact follows_call he true h (by simp [hkind])
  · refine .bind (hc.assignment.bracketed hopen) fun i t i' u hi => ?_
    refine hi.2.expect (by decide) fun _ hclose => .pure ⟨?_, hclose⟩
    simp only [Expr.unplaced, he, hi.1]
  · exact mirrors_memberName he true h

theorem mirrors_indexOrSliceInside (he : e'.unplaced = e.unplaced) :
    Mirrors S f (indexOrSliceInside c e) (indexOrSliceInside c' e') Expr.unplaced := by
  intro s w h
  -- what follows the dots
  have hstop {start start' : Option Expr} {t u : State} (htu : Beside S f t u)
      (hstart : start'.map Expr.unplaced = start.map Expr.unplaced) :
      Follows (do
          let stop ← readIf (!(← sees (.punct .closeBracket))) c.inner.assignment
          return Expr.slice e.pos e start stop) t
        (do
          let stop ← readIf (!(← sees (.punct .closeBracket))) c'.inner.assignment
          return Expr.slice e'.pos e' start' stop) u
        (Together S f Expr.unplaced) := by
    refine .sees ?_
    rw [htu.sees_eq rfl]
    exact (hc.assignment.readIf _ htu).give fun _ _ hstop =>
      by simp only [Expr.unplaced, Unplaced.expr?_eq_map, he, hstart, hstop]
  refine h.ifAccept rfl (fun _ hdots => hstop hdots rfl) fun _ => ?_
  refine .bind (hc.assignment h) fun start t start' u hstart => ?_
  refine hstart.2.ifAccept rfl (fun _ hdots => ?_) fun _ => .pure ⟨?_, hstart.2⟩
  · exact hstop hdots (congrArg some hstart.1)
  · simp only [Expr.unplaced, he, hstart.1]

theorem follows_indexOrSlice (he : e'.unplaced = e.unplaced)
    (h : Beside S f s w) (hkind : s.current.kind ≠ .eof) :
    Follows (indexOrSlice c e) s (indexOrSlice c' e') w (Together S f Expr.unplaced) := by
  refine h.advance hkind fun hnext => ?_
  have hinside := (mirrors_indexOrSliceInside (c := c) (f := f.bracketed) he).bracketed
  refine .bind (hinside hnext) fun a t b u hab => ?_
  exact hab.2.expect (by decide) fun _ hclose => .pure ⟨hab.1, hclose⟩

theorem follows_taggedTemplate (he : e'.unplaced = e.unplaced)
    (h : Beside S f s w) (hkind : s.current.kind = .template) :
    Follows (taggedTemplate c e) s (taggedTemplate c' e') w (Together S f Expr.unplaced) := by
  have halike := h.alike_of_kind hkind nofun
  refine h.take (by simp [hkind]) fun hnext => ?_
  refine .bind (follows_templateParts halike.token h.sound.current h.sound'.current
    (halike.closed hkind) hnext.toNear) fun r t r' u hr => ?_
  obtain ⟨⟨hquasis, hes⟩, rfl, rfl⟩ := hr
  exact .pure ⟨by simp only [Expr.unplaced, Unplaced.exprs_eq_map, he, hquasis, hes], hnext⟩

theorem mirrors_chainOn (optional : Bool) (he : e'.unplaced = e.unplaced) :
    Mirrors S f (chainOn c optional e) (chainOn c' optional e') Expr.unplaced := by
  intro s w h
  refine .ite (by rw [Expr.isBad_of_unplaced_eq he]) (fun _ => .pure ⟨he, h⟩) fun _ => ?_
  exact (hc.chainRest (f := f.deeper) optional he).deeper h

theorem mirrors_chainRest (optional : Bool) (he : e'.unplaced = e.unplaced) :
    Mirrors S f (chainRest c optional e) (chainRest c' optional e') Expr.unplaced := by
  intro s w h
  -- after a link, the chain goes on behind it
  have hchain {x y : Reading Expr} (optional : Bool) {t u : State}
      (hlink : Follows x t y u (Together S f Expr.unplaced)) :
      Follows (do chainOn c optional (← x)) t (do chainOn c' optional (← y)) u
        (Together S f Expr.unplaced) :=
    .bind hlink fun _ _ _ _ hab => mirrors_chainOn optional hab.1 hab.2
  refine h.ifAccept rfl (fun _ hdot => ?_) fun _ =>
    h.ifAccept rfl (fun _ hmark => ?_) ?_
  · exact hchain optional (mirrors_memberName he false hdot)
  · exact hchain true (mirrors_optionalLink he hmark)
  · intro _
    refine .token ?_
    rcases h.place with halike | hclose
    · rw [(h.lineStart halike).1, halike.token.kind]
      refine .ite Iff.rfl (fun _ => .pure ⟨he, h⟩) fun _ => ?_
      unfold linkOn
      split
      · exact hchain optional (follows_indexOrSlice he h (by simp [‹s.current.kind = _›]))
      · exact hchain optional (follows_call he false h (by simp [‹s.current.kind = _›]))
      · refine .ite Iff.rfl (fun _ => h.faulty) fun _ => ?_
        exact hchain optional (follows_taggedTemplate he h ‹_›)
      · exact .pure ⟨he, h⟩
    · -- what closes the construct around the text starts a line
      rw [if_pos hclose.lineStart', hclose.kind]
      split <;> exact .pure ⟨he, h⟩

theorem opens_chain : Opens S f (chain c) (chain c') Expr.unplaced := by
  intro s w h
  refine .bind (opens_primary h) fun e t e' u he => ?_
  refine .ite (by rw [Expr.isBad_of_unplaced_eq he.1]) (fun _ => .pure he) fun _ => ?_
  exact (mirrors_chainRest false he.1).restoringDepth he.2

/-! ## 3. Operators -/

theorem opens_postfixed :
    Opens S f (postfixed c) (postfixed c') Expr.unplaced := by
  intro s w h
  refine .bind (r := .token fun e t => by split <;> infer_instance)
    (opens_chain h) fun e t e' u he => .token ?_
  obtain ⟨he, htu⟩ := he
  rw [htu.kind_congr UpdateOp.ofKind? rfl rfl]
  cases hop : UpdateOp.ofKind? t.current.kind with
  | none => exact .pure ⟨he, htu⟩
  | some op =>
    have heof : t.current.kind ≠ .eof := kind_ne_of_table rfl hop
    refine .ite (by rw [(htu.lineStart (htu.alike heof)).1]) (fun _ => .pure ⟨he, htu⟩) fun _ => ?_
    exact htu.advance heof fun hnext => .pure ⟨by simp only [Expr.unplaced, he], hnext⟩

/-- An operator in front of an operand, one level deeper. -/
theorem follows_prefixed {g g' : Expr → Expr}
    (hg : ∀ e e', e'.unplaced = e.unplaced → (g' e').unplaced = (g e).unplaced)
    (h : Near S f s w) (hkind : s.current.kind ≠ .eof) :
    Follows (nested badHere do advance; return g (← c.inner.unary)) s
      (nested badHere do advance; return g' (← c'.inner.unary)) w
      (Together S f Expr.unplaced) := by
  have hbody : Starts S f.deeper (do advance; return g (← c.inner.unary))
      (do advance; return g' (← c'.inner.unary)) Expr.unplaced := by
    intro s w h hkind
    refine h.advance hkind fun hnext => ?_
    refine .bind (hc.unary hnext) fun e t e' u he => ?_
    exact .pure ⟨hg e e' he.1, he.2⟩
  exact hbody.nested h hkind

theorem opens_unary : Opens S f (unary c) (unary c') Expr.unplaced := by
  intro s w h
  refine .token ?_
  rw [h.kind_congr UnaryOp.ofKind? rfl rfl, h.kind_congr UpdateOp.ofKind? rfl rfl]
  split
  · exact follows_prefixed (fun _ _ he => by simp only [Expr.unplaced, he]) h (kind_ne_of_table rfl ‹_›)
  · exact follows_prefixed (fun _ _ he => by simp only [Expr.unplaced, he]) h (kind_ne_of_table rfl ‹_›)
  · exact opens_postfixed h

theorem mirrors_binaryRest (least : Nat) (he : e'.unplaced = e.unplaced) :
    Mirrors S f (binaryRest c least e) (binaryRest c' least e') Expr.unplaced := by
  intro s w h
  refine .get ?_
  rw [h.operator?_eq]
  cases hop : s.operator? least with
  | none => exact .pure ⟨he, h⟩
  | some op =>
    have heof : s.current.kind ≠ .eof := by
      intro heof
      rw [State.operator?, heof] at hop
      cases hop
    refine .deeper h.toNear fun hlt => ?_
    refine (h.deeper hlt).advance heof fun hnext => ?_
    refine .bind (hc.binary _ hnext) fun r t r' u hr => ?_
    have hwhole : (Expr.binary e'.pos op e' r').unplaced = (Expr.binary e.pos op e r).unplaced := by
      simp only [Expr.unplaced, he, hr.1]
    exact (hc.binaryRest least hwhole hr.2).mono fun _ _ _ _ hab => ⟨hab.1, hab.2.shallower⟩

theorem opens_binary (least : Nat) :
    Opens S f (binary c least) (binary c' least) Expr.unplaced := by
  intro s w h
  refine .bind (opens_unary h) fun e t e' u he => ?_
  exact (mirrors_binaryRest least he.1).restoringDepth he.2

theorem opens_conditional :
    Opens S f (conditional c) (conditional c') Expr.unplaced := by
  intro s w h
  refine .bind (opens_binary 1 h) fun test t test' u htest => .sees (.canContinue ?_)
  obtain ⟨htest, htu⟩ := htest
  have hmark : (u.sees (.punct .question) && u.canContinue) =
      (t.sees (.punct .question) && t.canContinue) := by
    rw [htu.sees_eq rfl]
    by_cases heof : t.current.kind = .eof
    · simp [State.sees, heof]
    · rw [htu.canContinue_eq heof]
  refine .ite (by rw [hmark]) (fun hsees => ?_) fun _ => .pure ⟨htest, htu⟩
  have heof : t.current.kind ≠ .eof := fun heof => by simp [State.sees, heof] at hsees
  refine htu.advance heof fun hnext => ?_
  refine .bind (hc.assignment hnext) fun yes t yes' u hyes => ?_
  refine hyes.2.expect (by decide) fun _ hcolon => ?_
  exact (hc.assignment hcolon).give fun _ _ hno =>
    by simp only [Expr.unplaced, htest, hyes.1, hno]

/-! ## 4. Assignments -/

theorem follows_assigned (sign : AssignSign) (he : e'.unplaced = e.unplaced)
    (h : Beside S f s w) (hkind : s.current.kind ≠ .eof) :
    Follows (assigned c sign e) s (assigned c' sign e') w (Together S f Expr.unplaced) := by
  refine h.take (r := ⟨fun t => .seq inferInstance fun _ => by split <;> infer_instance⟩)
    hkind fun hnext => ?_
  refine .bind (r := ⟨fun value => by split <;> infer_instance⟩)
    (hc.assignment hnext) fun value t value' u hvalue => ?_
  cases hok : Check.assignment? sign s.current.pos e value with
  | error r => exact hvalue.2.faulty
  | ok a =>
    obtain ⟨b, hok', hab⟩ := Check.assignment?_congr (q := w.current.pos) he hvalue.1 hok
    rw [hok']
    exact .pure ⟨hab, hvalue.2⟩

theorem starts_destructuring :
    Starts S f (destructuring c) (destructuring c') Expr.unplaced := by
  intro s w h hkind
  refine .bind (r := .token fun target t => by split <;> infer_instance)
    (hc.pattern h hkind) fun target t target' u htarget => .token ?_
  obtain ⟨htarget, htu⟩ := htarget
  rw [htu.kind_congr AssignSign.ofKind? rfl rfl]
  cases hsign : AssignSign.ofKind? t.current.kind with
  | none => exact htu.faulty
  | some sign => exact follows_assigned sign htarget htu (kind_ne_of_table rfl hsign)

theorem opens_plainAssignment :
    Opens S f (plainAssignment c) (plainAssignment c') Expr.unplaced := by
  intro s w h
  refine .bind (r := .token fun e t => by split <;> infer_instance)
    (opens_conditional h) fun e t e' u he => .token ?_
  obtain ⟨he, htu⟩ := he
  rw [htu.kind_congr AssignSign.ofKind? rfl rfl]
  cases hsign : AssignSign.ofKind? t.current.kind with
  | none => exact .pure ⟨he, htu⟩
  | some sign =>
    have heof : t.current.kind ≠ .eof := kind_ne_of_table rfl hsign
    refine .canContinue (.ite (by rw [htu.canContinue_eq heof]) (fun _ => ?_) fun _ => ?_)
    · exact follows_assigned sign he htu heof
    · exact .pure ⟨he, htu⟩

omit hd in
theorem opens_assignment [f.deeper.Reaches d] :
    Opens S f (assignment c) (assignment c') Expr.unplaced := by
  refine .nested fun s w h => .get ?_
  rw [h.seesDestructuring_eq, h.seesArrow_eq]
  refine .ite Iff.rfl (fun hpattern => ?_) fun _ => .ite Iff.rfl (fun _ => ?_) fun _ => ?_
  · refine starts_destructuring h fun heof => ?_
    simp [State.seesDestructuring, State.sees, heof] at hpattern
  · exact opens_arrow h
  · exact opens_plainAssignment h

end

/-! ## 5. All levels -/

theorem Context.raised_succ (c : Context) (n : Nat) :
    c.raised (n + 1) = { c.raised n with inner := (c.raised n).routines } := by
  cases n <;> rfl

/-- What holds of a level holds of the next one, where the readers are a level higher up. -/
theorem Context.Mirrors.raise {c c' : Context} {d : Nat} (hc : c.Mirrors S (d + 1) c') :
    Context.Mirrors S d { c with inner := c.routines } { c' with inner := c'.routines } where
  gathers := c.raised_gathers 1
  source_eq' := hc.source_eq'
  rounds_eq := hc.rounds_eq
  opens h := opens_assignment h
  binary least _ _ h := (opens_binary least).mirrors h
  binaryRest least _ _ he _ _ h := mirrors_binaryRest least he h
  unary h := opens_unary.mirrors h
  chainRest optional _ _ he _ _ h := mirrors_chainRest optional he h
  block hpos hle _ _ h := mirrors_block hpos hle h
  pattern h := starts_pattern h
  jsx h := follows_jsx true h

/-- Beyond the depth limit there is nothing to be shown. -/
theorem Context.mirrors_of_maxDepth_lt {c c' : Context} {d : Nat} (hd : maxDepth < d)
    (hgathers : c.Gathers S.source) (hsource : c'.source = S.whole)
    (hrounds : c'.rounds = c.rounds) : c.Mirrors S d c' := by
  have hnot {n : Nat} (hn : d ≤ n) {f : Frame} [hf : f.Reaches n] {s w : State}
      (h : Near S f s w) : False := by
    have := hf.le
    have := h.le_depth
    have := h.depth_le
    omega
  exact
    { gathers := hgathers
      source_eq' := hsource
      rounds_eq := hrounds
      opens := fun h => (hnot (Nat.le_refl d) h).elim
      binary := fun _ _ _ h => (hnot (Nat.le_succ d) h.toNear).elim
      binaryRest := fun _ _ _ _ _ _ h => (hnot (Nat.le_succ d) h.toNear).elim
      unary := fun h => (hnot (Nat.le_succ d) h.toNear).elim
      chainRest := fun _ _ _ _ _ _ h => (hnot (Nat.le_succ d) h.toNear).elim
      block := fun _ _ _ _ h => (hnot (Nat.le_refl d) h.toNear).elim
      pattern := fun h _ => (hnot (Nat.le_refl d) h).elim
      jsx := fun h _ => (hnot (Nat.le_refl d) h).elim }

/-- **The grammar of a text reads the same inside a wider source**, where there are levels enough for
    the depth that is left. -/
theorem Context.mirrors_raised (S : Setting) (rounds : Nat) {d n m : Nat}
    (hn : maxDepth < d + n) (hm : maxDepth < d + m) :
    ((Context.ground S.source rounds).raised n).Mirrors S d
      ((Context.ground S.whole rounds).raised m) := by
  have hbeyond {d : Nat} (hd : maxDepth < d) (n m : Nat) :
      ((Context.ground S.source rounds).raised n).Mirrors S d
        ((Context.ground S.whole rounds).raised m) := by
    refine mirrors_of_maxDepth_lt hd inferInstance ?_ ?_
    · exact ((Context.ground S.whole rounds).raised_gathers m).source_eq
    · cases n <;> cases m <;> rfl
  induction n generalizing d m with
  | zero => exact hbeyond hn 0 m
  | succ n ih =>
    cases m with
    | zero => exact hbeyond hm (n + 1) 0
    | succ m =>
      have hn' : maxDepth < d + 1 + n := by omega
      have hm' : maxDepth < d + 1 + m := by omega
      rw [raised_succ, raised_succ]
      exact (ih hn' hm').raise

end ReactiveScript.Grammar
