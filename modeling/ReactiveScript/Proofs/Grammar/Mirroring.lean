import ReactiveScript.Proofs.Grammar.Follows
import ReactiveScript.Proofs.Grammar.Gathering
import ReactiveScript.Proofs.Syntax.Alike

/-!
# Routines that read the same inside a wider source

For every routine: where a reader of a text alone comes through cleanly, the reader of the same text
inside a wider source comes through too, the two end at the same place, and what they give is the
same up to the places of its nodes.
-/

namespace ReactiveScript.Grammar

-- The instance of a routine is as large as the routine.
set_option synthInstance.maxSize 1000

variable {α β γ δ : Type} {S : Setting} {f : Frame} {s w : State} {k : α → γ}

/-! ## 1. Contracts -/

section
variable {x y : Reading α}

/-- Two routines that keep readers together if these can go on. -/
def Starts (S : Setting) (f : Frame) (x y : Reading α) (k : α → γ) : Prop :=
  ∀ ⦃s w : State⦄, Near S f s w → s.current.kind ≠ .eof →
    Follows x s y w fun a t b u => k b = k a ∧ Beside S f t u

theorem Starts.nested {z z' : Reading α} [Adds x] [Adds z] (h : Starts S f.deeper x y k) :
    Starts S f (nested z x) (nested z' y) k := fun _ _ hs hkind =>
  .nested hs fun hdeeper => (h hdeeper hkind).mono fun _ _ _ _ hb => ⟨hb.1, hb.2.restored hs⟩

theorem Mirrors.map {k' : β → δ} {m : α → β} (h : Mirrors S f x y k)
    (hm : ∀ a b, k b = k a → k' (m b) = k' (m a)) : Mirrors S f (m <$> x) (m <$> y) k' :=
  fun _ _ hs => .map ((h hs).mono fun _ _ _ _ hb => ⟨hm _ _ hb.1, hb.2⟩)

theorem Mirrors.readIf (h : Mirrors S f x y k) (wanted : Bool) :
    Mirrors S f (readIf wanted x) (readIf wanted y) (Option.map k) := by
  intro s w hs
  cases wanted with
  | false => exact .pure ⟨rfl, hs⟩
  | true => exact .map ((h hs).mono fun _ _ _ _ hb => ⟨congrArg some hb.1, hb.2⟩)

theorem mirrors_accept {l : Kind} (hl : isInner l = true) :
    Mirrors S f (accept l) (accept l) id := by
  intro s w hs
  have haccept : Follows (accept l >>= pure) s (accept l >>= pure) w
      fun a t b u => id b = id a ∧ Beside S f t u :=
    hs.accept hl (fun _ hnext => .pure ⟨rfl, hnext⟩) fun _ => .pure ⟨rfl, hs⟩
  rwa [bind_pure] at haccept

end

/-! ### Routines that end before a certain token

A list stops at its closing bracket or at the end. At the end of the text, the other reader may have
more to read, but then the bracket is missing. -/

/-- If a run of `x` is clean and ends at a token as `C` says, then a run of `y` ends. -/
def FollowsIf (C : Token → Prop) (x : Reading α) (s : State) (y : Reading β) (w : State)
    (Q : α → State → β → State → Prop) : Prop :=
  Cleanly x s fun a t => t.tooDeep = false ∧ (C t.current → Ends y w fun b u => Q a t b u)

section
variable {x : Reading α} {y : Reading β} {g : α → Reading γ} {g' : β → Reading δ}
  {C : Token → Prop} {P : α → State → β → State → Prop} {Q : γ → State → δ → State → Prop}

theorem FollowsIf.bind (hxy : Follows x s y w P)
    (hg : ∀ a t b u, P a t b u → FollowsIf C (g a) t (g' b) u Q)
    [r : AddsAll g] :
    FollowsIf C (x >>= g) s (y >>= g') w Q := by
  refine Cleanly.bind hxy fun a t hy => ?_
  obtain ⟨b, u, hyu, hp⟩ := hy
  refine Cleanly.mono (hg a t b u hp) fun c t' hc => ⟨hc.1, fun hend => ends_bind.mpr ?_⟩
  exact ⟨b, u, hyu, hc.2 hend⟩

theorem FollowsIf.pure {a : α} {b : β} (hdeep : s.tooDeep = false)
    (h : C s.current → P a s b w) : FollowsIf C (Pure.pure a) s (Pure.pure b) w P :=
  Cleanly.pure ⟨hdeep, fun hend => ends_pure.mpr (h hend)⟩

theorem FollowsIf.token {g : Token → Reading γ} {g' : Token → Reading δ}
    (h : FollowsIf C (g s.current) s (g' w.current) w Q) :
    FollowsIf C (Grammar.token >>= g) s (Grammar.token >>= g') w Q := h

theorem FollowsIf.sees {l : Kind} {g : Bool → Reading γ} {g' : Bool → Reading δ}
    (h : FollowsIf C (g (s.sees l)) s (g' (w.sees l)) w Q) :
    FollowsIf C (Grammar.sees l >>= g) s (Grammar.sees l >>= g') w Q := h

theorem FollowsIf.atEnd {g : Bool → Reading γ} {g' : Bool → Reading δ}
    (h : FollowsIf C (g s.atEnd) s (g' w.atEnd) w Q) :
    FollowsIf C (Grammar.atEnd >>= g) s (Grammar.atEnd >>= g') w Q := h

end

/-- Two routines that keep readers together if the first ends at a token as `C` says. -/
def MirrorsIf (S : Setting) (f : Frame) (C : Token → Prop) (x y : Reading α) (k : α → γ) : Prop :=
  ∀ ⦃s w : State⦄, Beside S f s w → FollowsIf C x s y w fun a t b u => k b = k a ∧ Beside S f t u

namespace MirrorsIf
variable {x y : Reading α} {k : α → γ} {C : Token → Prop}

theorem bracketed (h : MirrorsIf S f.bracketed C x y k) :
    MirrorsIf S f C (bracketed x) (bracketed y) k := fun _ _ hs =>
  Cleanly.bracketed (Cleanly.mono (h hs.bracketed) fun _ _ hy =>
    ⟨hy.1, fun hend => ends_bracketed.mpr ((hy.2 hend).mono fun _ _ hb => ⟨hb.1, hb.2.unbracketed⟩)⟩)

theorem outsideBrackets (h : MirrorsIf S f.outside C x y k) :
    MirrorsIf S f C (outsideBrackets x) (outsideBrackets y) k := fun _ _ hs =>
  Cleanly.outsideBrackets (Cleanly.mono (h hs.outside) fun _ _ hy => ⟨hy.1, fun hend =>
    ends_outsideBrackets.mpr ((hy.2 hend).mono fun _ _ hb => ⟨hb.1, hb.2.inside hs.toNear⟩)⟩)

theorem insideBraces (h : MirrorsIf S f C x y k) :
    MirrorsIf S f C (insideBraces x) (insideBraces y) k := by
  intro s w hs
  have hadjust {t u : State} (htu : Beside S f t u) (b b' : Nat) :
      Beside S f { t with braceBlocks := b } { u with braceBlocks := b' } := by
    have hadjusted := htu.adjust f b b' htu.le_depth htu.depth_le htu.depth_le'
    rwa [← htu.nesting, ← htu.nesting'] at hadjusted
  exact Cleanly.insideBraces (Cleanly.mono (h (hadjust hs _ _)) fun _ _ hy => ⟨hy.1, fun hend =>
    ends_insideBraces.mpr ((hy.2 hend).mono fun _ _ hb => ⟨hb.1, hadjust hb.2 _ _⟩)⟩)

/-- Where every end will do, the condition can be left out. -/
theorem mirrors (h : MirrorsIf S f (fun _ => True) x y k) : Mirrors S f x y k :=
  fun _ _ hs => Cleanly.mono (h hs) fun _ _ hy => hy.2 trivial

/-- A list and the token behind it. -/
theorem thenExpect {l : Kind} {g g' : α → Reading β} {Q : β → State → β → State → Prop}
    (hxy : MirrorsIf S f (·.kind = l) x y k) (h : Beside S f s w) (hl : l ≠ .eof)
    (hg : ∀ a b t u, k b = k a → Beside S f t u → Follows (g a) t (g' b) u Q) [r : AddsAll g] :
    Follows (do let a ← x; let _ ← expect l; g a) s (do let b ← y; let _ ← expect l; g' b) w Q := by
  have hadds : ∀ a, Adds (g a) := r.adds
  refine Cleanly.bind (hxy h) fun a t hat => Cleanly.expect hat.1 fun hkind => ?_
  intro c t' hrun ht'
  obtain ⟨b, u, hy, hk, htu⟩ := hat.2 hkind
  have heof : t.current.kind ≠ .eof := hkind ▸ hl
  have hsees : u.sees l = true := by
    simpa [State.sees, (htu.alike heof).token.kind] using hkind
  refine ends_bind.mpr ⟨b, u, hy, (ends_expect_of_sees hsees).mpr ?_⟩
  exact hg a b _ _ hk (htu.next heof ((r.adds a).reports_nil hrun ht')) hrun ht'

end MirrorsIf

/-! ## 2. Lists of parts -/

/-- A part as `k` tells it. -/
def Part.map (k : α → γ) : Part α → Part γ
  | .none => .none
  | .last a => .last (k a)
  | .more a => .more (k a)

/-- The parts up to a closing bracket, after those read so far. -/
theorem followsIf_partsFrom {close : Kind} {part part' : Reading (Part α)} [Adds part]
    (hpart : Mirrors S f part part' (Part.map k)) (hclose : close ≠ .eof) {done done' : List α}
    (hdone : done'.map k = done.map k) (rounds : Nat) (h : Beside S f s w) :
    FollowsIf (·.kind = close) (partsFrom close part done rounds) s
      (partsFrom close part' done' rounds) w (Together S f (List.map k)) := by
  induction rounds generalizing done done' s w with
  | zero => exact Cleanly.outOfRounds
  | succ rounds ih =>
    unfold partsFrom
    refine FollowsIf.sees (FollowsIf.atEnd ?_)
    by_cases hstop : (s.sees close || s.atEnd) = true
    · rw [if_pos hstop]
      refine Cleanly.pure ⟨h.tooDeep, fun hkind => ?_⟩
      have hsees : w.sees close = true := by
        simpa [State.sees, (h.alike (hkind ▸ hclose)).token.kind] using hkind
      rw [if_pos (by rw [hsees, Bool.true_or]), ends_pure]
      exact ⟨by simp [hdone], h⟩
    · have hkind : s.current.kind ≠ .eof := by
        intro heof
        simp [State.atEnd, heof] at hstop
      have hstop' : ¬ (w.sees close || w.atEnd) = true := by
        simpa [State.sees, State.atEnd, (h.alike hkind).token.kind] using hstop
      rw [if_neg hstop, if_neg hstop']
      refine .bind (hpart h) fun a t b u hab => ?_
      obtain ⟨hk, htu⟩ := hab
      rcases a with _ | a | a <;> rcases b with _ | b | b <;> simp only [Part.map, reduceCtorEq,
        Part.last.injEq, Part.more.injEq] at hk
      · exact .pure htu.tooDeep fun _ => ⟨by simp [hdone], htu⟩
      · exact .pure htu.tooDeep fun _ => ⟨by simp [hdone, hk], htu⟩
      · refine .bind (mirrors_accept rfl htu) fun more t' more' u' hmore => ?_
        obtain ⟨rfl, htu'⟩ := hmore
        cases more' with
        | false => exact .pure htu'.tooDeep fun _ => ⟨by simp [hdone, hk], htu'⟩
        | true => exact ih (by simp [hdone, hk]) htu'

theorem mirrorsIf_parts (close : Kind) (hclose : close ≠ .eof) {c c' : Context}
    (hrounds : c'.rounds = c.rounds) {part part' : Reading (Part α)} [Adds part]
    (hpart : Mirrors S f part part' (Part.map k)) :
    MirrorsIf S f (·.kind = close) (parts c close part) (parts c' close part') (List.map k) := by
  intro s w h
  unfold parts
  rw [hrounds]
  exact followsIf_partsFrom hpart hclose rfl c.rounds h

theorem Mirrors.more {x y : Reading α} (h : Mirrors S f x y k) :
    Mirrors S f (Part.more <$> x) (Part.more <$> y) (Part.map k) :=
  h.map fun _ _ hk => congrArg Part.more hk

theorem map_partOf {target target' : Expr} {a b : α}
    (htarget : target'.unplaced = target.unplaced) (h : k b = k a) :
    (partOf target' b).map k = (partOf target a).map k := by
  unfold partOf
  rw [Expr.isBad_of_unplaced_eq htarget]
  split
  · exact congrArg Part.last h
  · exact congrArg Part.more h

theorem Near.alike_of_kind {l : Kind} (h : Near S f s w) (hkind : s.current.kind = l)
    (hl : l ≠ .eof) : Alike S s w := h.alike (hkind ▸ hl)

theorem ne_eof_of_isPropertyName {l : Kind} (h : l.isPropertyName = true) : l ≠ .eof := by
  intro heof
  rw [heof] at h
  cases h

theorem ne_eof_of_seesWord {word : Text} (h : s.seesWord word = true) : s.current.kind ≠ .eof := by
  simp only [State.seesWord, Bool.and_eq_true, decide_eq_true_eq] at h
  rw [h.1]
  decide

section
variable {shift : Nat} {t u : Token}

theorem identifierOf_unplaced (h : t.Alike shift u) :
    (identifierOf u).unplaced = (identifierOf t).unplaced := by
  simp [identifierOf, Expr.unplaced, h.text]

theorem stringOf_unplaced (h : t.Alike shift u) :
    (stringOf u).unplaced = (stringOf t).unplaced := by
  simp [stringOf, Expr.unplaced, h.text]

end

/-! ## 3. The level below -/

/-- The reader of a text between tags, beside the one in the wider source: both hold the same text,
    and what they have read is as `R` says; or the text between the tags goes on to the end of the
    source, where no tag closes it. -/
def OnText (S : Setting) (f : Frame) (R : Prop) (t u : State) : Prop :=
  R ∧ Near S f t u ∧ t.current.kind = .jsxText ∨ t.cursor.rest = [] ∧ t.tooDeep = false

/-- Both contexts are those of their sources, and the routines of the level below, so many levels
    down, keep the readers together. A pattern and an element have a first token. -/
class Context.Mirrors (S : outParam Setting) (d : outParam Nat) (c : Context)
    (c' : outParam Context) : Prop where
  gathers : c.Gathers S.source
  source_eq' : c'.source = S.whole
  rounds_eq : c'.rounds = c.rounds
  opens {f : Frame} [f.Reaches d] : Opens S f c.inner.assignment c'.inner.assignment Expr.unplaced
  binary {f : Frame} [f.Reaches (d + 1)] (least : Nat) :
    Grammar.Mirrors S f (c.inner.binary least) (c'.inner.binary least) Expr.unplaced
  binaryRest {f : Frame} [f.Reaches (d + 1)] (least : Nat) {e e' : Expr} :
    e'.unplaced = e.unplaced →
      Grammar.Mirrors S f (c.inner.binaryRest least e) (c'.inner.binaryRest least e') Expr.unplaced
  unary {f : Frame} [f.Reaches (d + 1)] :
    Grammar.Mirrors S f c.inner.unary c'.inner.unary Expr.unplaced
  chainRest {f : Frame} [f.Reaches (d + 1)] (optional : Bool) {e e' : Expr} :
    e'.unplaced = e.unplaced →
      Grammar.Mirrors S f (c.inner.chainRest optional e) (c'.inner.chainRest optional e')
        Expr.unplaced
  block {f : Frame} [f.Reaches d] {header header' : Nat} : 1 ≤ header' → header' ≤ header →
    Grammar.Mirrors S f (c.inner.block header) (c'.inner.block header')
      fun b => Unplaced.stmts b.body
  pattern {f : Frame} [f.Reaches d] : Starts S f c.inner.pattern c'.inner.pattern Expr.unplaced
  jsx {f : Frame} [f.Reaches d] ⦃s w : State⦄ : Near S f s w → s.current.kind ≠ .eof →
    Follows (c.inner.jsx true) s (c'.inner.jsx true) w fun e t e' u =>
      e.isBad = false ∧ OnText S f (e'.unplaced = e.unplaced) t u

attribute [instance] Context.Mirrors.gathers

section
variable {c c' : Context} {d : Nat} [hc : c.Mirrors S d c'] [hd : f.Reaches d]
  {header header' : Nat}
include hc hd

theorem Context.Mirrors.assignment :
    Grammar.Mirrors S f c.inner.assignment c'.inner.assignment Expr.unplaced := hc.opens.mirrors

/-! ## 4. Patterns -/

theorem mirrors_default? :
    Mirrors S f (default? c) (default? c') (Option.map Expr.unplaced) := by
  intro s w h
  have hvalue := hc.assignment (f := f)
  exact h.accept rfl (fun _ hnext => hvalue.readIf true hnext) fun _ => hvalue.readIf false h

omit hc hd in
/-- Both see the start of a pattern, or neither does. -/
theorem Near.seesPattern {x : Reading α} {y : Reading β} {no : Reading α} {no' : Reading β}
    {P : α → State → β → State → Prop} (h : Near S f s w)
    (hyes : s.current.kind ≠ .eof → Follows x s y w P) (hno : Follows no s no' w P) :
    Follows (do if ← Grammar.seesPattern then x else no) s
      (do if ← Grammar.seesPattern then y else no') w P := by
  have hsees : (w.sees (.punct .openBracket) || w.sees (.punct .openBrace)) =
      (s.sees (.punct .openBracket) || s.sees (.punct .openBrace)) := by
    rw [h.sees_eq rfl, h.sees_eq rfl]
  have hbranch : Follows
      (if s.sees (.punct .openBracket) || s.sees (.punct .openBrace) then x else no) s
      (if w.sees (.punct .openBracket) || w.sees (.punct .openBrace) then y else no') w P := by
    refine .ite (by rw [hsees]) (fun hkind => hyes fun heof => ?_) fun _ => hno
    simp [State.sees, heof] at hkind
  exact hbranch

theorem mirrors_bindingTarget :
    Mirrors S f (bindingTarget c) (bindingTarget c') Expr.unplaced := by
  intro s w h
  refine h.seesPattern (hc.pattern h.toNear) ?_
  refine h.ifSees rfl (fun hkind => ?_) fun _ => h.faulty
  have heof : s.current.kind ≠ .eof := by simp [hkind]
  exact h.take heof fun hnext => .pure ⟨identifierOf_unplaced (h.alike heof).token, hnext⟩

omit hd in
/-- A list in brackets and the bracket that closes it. -/
theorem Beside.parts {part part' : Reading (Part α)} {close : Punct} {g g' : List α → Reading β}
    {Q : β → State → β → State → Prop} (h : Beside S f s w)
    (hpart : Mirrors S f.bracketed part part' (Part.map k))
    (hg : ∀ as bs t u, bs.map k = as.map k → Beside S f t u → Follows (g as) t (g' bs) u Q)
    [Adds part] [AddsAll g] :
    Follows (do
        let as ← Grammar.bracketed (parts c (.punct close) part)
        let _ ← expect (.punct close)
        g as) s (do
        let bs ← Grammar.bracketed (parts c' (.punct close) part')
        let _ ← expect (.punct close)
        g' bs) w Q :=
  (mirrorsIf_parts (.punct close) nofun hc.rounds_eq hpart).bracketed.thenExpect h nofun hg

theorem mirrors_patternElement :
    Mirrors S f (patternElement c) (patternElement c') (Part.map Unplaced.patternElement) := by
  intro s w h
  refine .token (h.ifAccept rfl (fun _ hnext => ?_) fun _ => ?_)
  · refine .bind (mirrors_bindingTarget hnext) fun target t target' u htarget => ?_
    refine .pure ⟨map_partOf htarget.1 ?_, htarget.2⟩
    simp [Unplaced.patternElement, htarget.1]
  · refine .bind (mirrors_bindingTarget h) fun target t target' u htarget => ?_
    refine .bind (mirrors_default? htarget.2) fun default t default' u hdefault => ?_
    refine .pure ⟨map_partOf htarget.1 ?_, hdefault.2⟩
    simp [Unplaced.patternElement, Unplaced.expr?_eq_map, htarget.1, hdefault.1]

theorem starts_arrayPattern :
    Starts S f (arrayPattern c) (arrayPattern c') Expr.unplaced := by
  intro s w h hkind
  refine h.take hkind fun hnext => ?_
  refine hnext.parts mirrors_patternElement fun es es' t u hes htu => ?_
  refine htu.reportAll (Check.restLast_congr Check.restElement?_unplaced hes) ?_
  exact .pure ⟨by simp [Expr.unplaced, Unplaced.patternElements_eq_map, hes], htu⟩

theorem follows_namedProperty (p p' : Position) (h : Beside S f s w)
    (hkind : s.current.kind ≠ .eof) :
    Follows (namedProperty c p) s (namedProperty c' p') w
      (Together S f (Part.map Unplaced.patternProperty)) := by
  have hkey := identifierOf_unplaced (h.alike hkind).token
  refine h.take hkind fun hnext => hnext.ifAccept rfl (fun _ hcolon => ?_) fun _ => ?_
  · refine .bind (mirrors_bindingTarget hcolon) fun target t target' u htarget => ?_
    refine .bind (mirrors_default? htarget.2) fun default t default' u hdefault => ?_
    refine .pure ⟨map_partOf htarget.1 ?_, hdefault.2⟩
    simp [Unplaced.patternProperty, Unplaced.expr?_eq_map, hkey, htarget.1, hdefault.1]
  · exact (mirrors_default? hnext).give fun _ _ hdefault =>
      congrArg Part.more (by simp [Unplaced.patternProperty, Unplaced.expr?_eq_map, hkey, hdefault])

theorem follows_keyedProperty (p p' : Position) (h : Beside S f s w)
    (hkind : s.current.kind ≠ .eof) :
    Follows (keyedProperty c p) s (keyedProperty c' p') w
      (Together S f (Part.map Unplaced.patternProperty)) := by
  have hkey : (if w.current.kind = .string then stringOf w.current
        else identifierOf w.current).unplaced =
      (if s.current.kind = .string then stringOf s.current
        else identifierOf s.current).unplaced := by
    have htoken := (h.alike hkind).token
    rw [htoken.kind]
    split
    · exact stringOf_unplaced htoken
    · exact identifierOf_unplaced htoken
  refine h.take hkind fun hnext => hnext.expect (by decide) fun _ hcolon => ?_
  refine .bind (mirrors_bindingTarget hcolon) fun target t target' u htarget => ?_
  refine .bind (mirrors_default? htarget.2) fun default t default' u hdefault => ?_
  refine .pure ⟨map_partOf htarget.1 ?_, hdefault.2⟩
  simp only [Unplaced.patternProperty, Unplaced.expr?_eq_map, hkey, htarget.1, hdefault.1]

theorem mirrors_patternProperty :
    Mirrors S f (patternProperty c) (patternProperty c') (Part.map Unplaced.patternProperty) := by
  intro s w h
  refine .token (h.ifAccept rfl (fun _ hnext => ?_) fun _ => .token ?_)
  · refine hnext.expectToken (by decide) fun hkind hname => .pure ⟨congrArg Part.more ?_, hname⟩
    have hkey := identifierOf_unplaced (hnext.alike_of_kind hkind nofun).token
    simp only [Unplaced.patternProperty, hkey]
  · refine .ite (h.kind_eq_iff rfl) (fun hkind => ?_) fun _ => .ite ?_ (fun hkind => ?_) fun _ => ?_
    · exact follows_namedProperty _ _ h (by simp [hkind])
    · rw [h.kind_congr (fun k => (k = .string || k.isPropertyName : Bool)) rfl rfl]
    · exact follows_keyedProperty _ _ h fun heof => by simp [heof, Kind.isPropertyName] at hkind
    · exact h.faulty

theorem starts_objectPattern :
    Starts S f (objectPattern c) (objectPattern c') Expr.unplaced := by
  intro s w h hkind
  refine h.take hkind fun hnext => ?_
  refine hnext.parts mirrors_patternProperty fun ps ps' t u hps htu => ?_
  refine htu.reportAll (Check.restLast_congr Check.restProperty?_unplaced hps) ?_
  exact .pure ⟨by simp [Expr.unplaced, Unplaced.patternProperties_eq_map, hps], htu⟩

omit hd in
theorem starts_pattern [f.deeper.Reaches d] :
    Starts S f (pattern c) (pattern c') Expr.unplaced := by
  refine .nested fun s w h hkind => h.ifSees rfl (fun _ => ?_) fun _ => ?_
  · exact starts_arrayPattern h hkind
  · exact starts_objectPattern h hkind

/-! ## 5. Statements -/

omit hc hd in
theorem mirrors_endStatement : Mirrors S f endStatement endStatement fun _ => () :=
  fun _ _ h => .bind (mirrors_accept rfl h) fun _ _ _ _ hab => .pure ⟨rfl, hab.2⟩

omit hc hd in
theorem follows_end {a b : α} (h : Beside S f s w) (hab : k b = k a) :
    Follows (do endStatement; return a) s (do endStatement; return b) w (Together S f k) :=
  .bind (mirrors_endStatement h) fun _ _ _ _ hend => .pure ⟨hab, hend.2⟩

theorem mirrors_expressionStmt (modifier : Option Text) (p p' : Position) :
    Mirrors S f (expressionStmt c modifier p) (expressionStmt c' modifier p') Unplaced.stmt := by
  intro s w h
  refine .bind (hc.assignment h) fun e t e' u he => ?_
  exact follows_end he.2 (by simp only [Unplaced.stmt, he.1])

theorem follows_returnStmt (modifier : Option Text) (p p' : Position)
    (h : Beside S f s w) (hkind : s.current.kind = .keyword .ret) :
    Follows (returnStmt c modifier p) s (returnStmt c' modifier p') w
      (Together S f Unplaced.stmt) := by
  have hvalue := hc.assignment (f := f)
  refine h.advance (by simp [hkind]) fun hnext => .get ?_
  rw [hnext.seesValue_eq]
  refine .bind (hvalue.readIf _ hnext) fun o t o' u ho => ?_
  exact follows_end ho.2 (by simp only [Unplaced.stmt, Unplaced.expr?_eq_map, ho.1])

theorem follows_modifierStmt (h : Beside S f s w)
    (hkind : s.current.kind = .modifier) :
    Follows (modifierStmt c) s (modifierStmt c') w (Together S f Unplaced.stmt) := by
  have hname : modifierName w.current = modifierName s.current := by
    rw [modifierName, modifierName, (h.alike_of_kind hkind nofun).token.text]
  refine .get (h.take (by simp [hkind]) fun hnext => ?_)
  rw [hname]
  refine hnext.ifAccept rfl (fun _ hcolon => ?_) fun _ => hnext.ifSees rfl (fun hret => ?_) ?_
  · exact (hc.block h.indent_pos h.indent_le hcolon).give fun _ _ hb =>
      by simp only [Unplaced.stmt, hb]
  · exact follows_returnStmt _ _ _ hnext hret
  · exact fun _ => mirrors_expressionStmt _ _ _ hnext

/-! ### Exports and imports -/

omit hc hd in
theorem mirrors_exportSpecifier :
    Mirrors S f exportSpecifier exportSpecifier (Part.map (id : Specifier → Specifier)) := by
  intro s w h
  refine h.expectToken (by decide) fun hkind hname => .seesWord ?_
  have htext := (h.alike_of_kind hkind nofun).token.text
  refine .ite (by rw [hname.seesWord_eq]) (fun has => ?_) fun _ => .pure ⟨by rw [htext], hname⟩
  refine hname.advance (ne_eof_of_seesWord has) fun hother => .token ?_
  refine .ite (by rw [hother.kind_congr Kind.isPropertyName rfl rfl]) (fun hword => ?_) fun _ =>
    hother.faulty
  have heof := ne_eof_of_isPropertyName hword
  refine hother.take heof fun hend => .pure ⟨?_, hend⟩
  rw [htext, (hother.alike heof).token.text]

omit hd in
theorem mirrors_exportList (p p' : Position) :
    Mirrors S f (exportList c p) (exportList c' p') Unplaced.stmt := by
  intro s w h
  have hlist := mirrorsIf_parts (.punct .closeBrace) nofun hc.rounds_eq
    (mirrors_exportSpecifier (S := S) (f := f))
  refine hlist.thenExpect h nofun fun names names' t u hnames htu => ?_
  exact follows_end htu (by simpa [Unplaced.stmt] using hnames)

omit hc hd in
theorem mirrors_exportModifier : Mirrors S f exportModifier exportModifier id := by
  intro s w h
  refine h.ifSees rfl (fun hkind => ?_) fun _ => .pure ⟨rfl, h⟩
  refine h.take (by simp [hkind]) fun hnext => .pure ⟨?_, hnext⟩
  simp only [modifierName, (h.alike_of_kind hkind nofun).token.text]

theorem mirrors_exportDeclaration (p p' : Position) :
    Mirrors S f (exportDeclaration c p) (exportDeclaration c' p') Unplaced.stmt := by
  intro s w h
  refine .token (.bind (mirrors_exportModifier h) fun m t m' u hm => ?_)
  refine .bind (hc.assignment hm.2) fun e t e' u he => ?_
  refine .bind (mirrors_endStatement he.2) fun _ t _ u hend => ?_
  have hsame : (!e'.declares && !e'.isBad) = (!e.declares && !e.isBad) := by
    rw [← Expr.declares_unplaced e', he.1, Expr.declares_unplaced, Expr.isBad_of_unplaced_eq he.1]
  refine .ite (by rw [hsame]) (fun _ => hend.2.faulty) fun _ => .pure ⟨?_, hend.2⟩
  have hm' : m' = m := hm.1
  simp only [Unplaced.stmt, he.1, hm']

theorem follows_exportStmt (h : Beside S f s w)
    (hkind : s.current.kind = .keyword .exports) :
    Follows (exportStmt c) s (exportStmt c') w (Together S f Unplaced.stmt) := by
  refine h.take (by simp [hkind]) fun hnext => hnext.ifAccept rfl (fun _ hdefault => ?_) ?_
  · refine .bind (hc.assignment hdefault) fun e t e' u he => ?_
    exact follows_end he.2 (by simp only [Unplaced.stmt, he.1])
  · refine fun _ => hnext.ifAccept rfl (fun _ hopen => ?_) fun _ => ?_
    · exact mirrors_exportList _ _ hopen
    · exact mirrors_exportDeclaration _ _ hnext

omit hc hd in
theorem mirrors_importSource : Mirrors S f importSource importSource Expr.unplaced := by
  intro s w h
  refine .token (h.expectToken (by decide) fun hkind hnext => ?_)
  exact follows_end hnext (stringOf_unplaced (h.alike_of_kind hkind nofun).token)

omit hc hd in
theorem mirrors_importSpecifier :
    Mirrors S f importSpecifier importSpecifier (Part.map (id : Specifier → Specifier)) := by
  intro s w h
  refine .token (.ite (by rw [h.kind_congr Kind.isPropertyName rfl rfl]) (fun hword => ?_) fun _ =>
    h.faulty)
  have heof := ne_eof_of_isPropertyName hword
  have htext := (h.alike heof).token.text
  refine h.take heof fun hname => .seesWord ?_
  refine .ite (by rw [hname.seesWord_eq]) (fun has => ?_) fun _ => .pure ⟨by rw [htext], hname⟩
  refine hname.advance (ne_eof_of_seesWord has) fun hother => ?_
  refine hother.expectToken (by decide) fun hkind hend => .pure ⟨?_, hend⟩
  simp only [Option.map_some, htext, (hother.alike_of_kind hkind nofun).token.text]

omit hd in
theorem mirrors_importList : Mirrors S f (importList c) (importList c') id := by
  intro s w h
  refine h.expect (by decide) fun _ hopen => ?_
  have hlist := mirrorsIf_parts (.punct .closeBrace) nofun hc.rounds_eq
    (mirrors_importSpecifier (S := S) (f := f))
  refine hlist.thenExpect hopen nofun fun names names' t u hnames htu => .pure ⟨?_, htu⟩
  simpa using hnames

omit hc hd in
theorem mirrors_importAll (p p' : Position) :
    Mirrors S f (importAll p) (importAll p') Unplaced.stmt := by
  intro s w h
  refine h.expectWord fun has => has.expectToken (by decide) fun hkind hname => ?_
  refine hname.expectWord fun hfrom => ?_
  exact (mirrors_importSource hfrom).give fun _ _ he =>
    by simp only [Unplaced.stmt, he, Option.map_some, (has.alike_of_kind hkind nofun).token.text]

omit hd in
theorem mirrors_moreNames : Mirrors S f (moreNames c) (moreNames c') id :=
  fun _ _ h => h.ifAccept rfl (fun _ hnext => mirrors_importList hnext) fun _ => .pure ⟨rfl, h⟩

omit hd in
theorem mirrors_importSome (p p' : Position) :
    Mirrors S f (importSome c p) (importSome c' p') Unplaced.stmt := by
  intro s w h
  -- what follows the names
  have hsource (default : Option Text) {t u : State} (names : List Specifier) (htu : Beside S f t u) :
      Follows (do expectWord fromWord; return .importNames p default names (← importSource)) t
        (do expectWord fromWord; return .importNames p' default names (← importSource)) u
        (Together S f Unplaced.stmt) := by
    refine htu.expectWord fun hfrom => ?_
    exact (mirrors_importSource hfrom).give fun _ _ he => by simp only [Unplaced.stmt, he]
  refine .token (.ite (h.kind_eq_iff rfl) (fun hkind => ?_) fun _ => ?_)
  · rw [(h.alike_of_kind hkind nofun).token.text]
    refine h.advance (by simp [hkind]) fun hnext => ?_
    refine .bind (mirrors_moreNames hnext) fun names t names' u hnames => ?_
    obtain ⟨rfl, htu⟩ := hnames
    exact hsource _ _ htu
  · refine .bind (mirrors_importList h) fun names t names' u hnames => ?_
    obtain ⟨rfl, htu⟩ := hnames
    exact hsource _ _ htu

omit hd in
theorem follows_importStmt (h : Beside S f s w) (hkind : s.current.kind = .keyword .imports) :
    Follows (importStmt c) s (importStmt c') w (Together S f Unplaced.stmt) := by
  refine h.take (by simp [hkind]) fun hnext => hnext.ifAccept rfl (fun _ hstar => ?_) ?_
  · exact mirrors_importAll _ _ hstar
  · refine fun _ => hnext.ifSees rfl (fun _ => ?_) fun _ => mirrors_importSome _ _ hnext
    exact (mirrors_importSource hnext).give fun _ _ he => by simp only [Unplaced.stmt, he]

/-! ### Lists of statements -/

theorem mirrors_statement :
    Mirrors S f (statement c) (statement c') Unplaced.stmt := by
  intro s w h
  have hexpression := mirrors_expressionStmt (c := c) none s.current.pos w.current.pos h
  refine .token ?_
  rcases h.place with halike | hclose
  · rw [halike.token.kind]
    split
    · exact follows_modifierStmt h ‹_›
    · exact follows_returnStmt none _ _ h ‹_›
    · exact follows_exportStmt h ‹_›
    · exact follows_importStmt h ‹_›
    · exact hexpression
  · rw [hclose.kind]
    rcases hclose.kind_cases with hk | hk <;> rw [hk] <;> exact hexpression

/-- In a clean run nothing is left by recovery, by neither reader. -/
theorem mirrors_checked :
    Mirrors S f (checked c) (checked c') Unplaced.stmt := by
  intro s w h
  have hmodify : Adds (modify fun s => { s with tooDeep := false }) := adds_modify fun _ h => h
  refine .get (.bind (mirrors_statement h) fun a t b u hab => .get ?_)
  obtain ⟨hk, htu⟩ := hab
  rw [if_neg (by simp [h.clean, htu.clean]), if_neg (by simp [h.clean', htu.clean'])]
  exact .pure ⟨hk, htu⟩

/-- A layout by which both readers go on and stop together, if they stop as `C` says. -/
structure Layout.Mirrors {σ : Type} (S : Setting) (f : Frame) (C : Token → Prop) (l : Layout σ) :
    Prop where
  done : ∀ ⦃s w : State⦄ (memory : σ), Beside S f s w → C s.current →
    l.turn memory s.current = .done → l.turn memory w.current = .done
  read : ∀ ⦃s w : State⦄ (memory : σ), Beside S f s w →
    l.turn memory s.current = .read → l.turn memory w.current = .read
  after : ∀ (memory : σ) (t u : Token), l.after memory u = l.after memory t

theorem followsIf_statementsFrom {σ : Type} {l : Layout σ} {C : Token → Prop}
    (hl : l.Mirrors S f C) {memory : σ} {done done' : List Stmt}
    (hdone : done'.map Unplaced.stmt = done.map Unplaced.stmt) (rounds : Nat) (h : Beside S f s w) :
    FollowsIf C (statementsFrom c l memory done rounds) s (statementsFrom c' l memory done' rounds) w
      (Together S f (List.map Unplaced.stmt)) := by
  induction rounds generalizing memory done done' s w with
  | zero => exact Cleanly.outOfRounds
  | succ rounds ih =>
    unfold statementsFrom
    refine FollowsIf.token ?_
    cases hturn : l.turn memory s.current with
    | done =>
      refine Cleanly.pure ⟨h.tooDeep, fun hend => ?_⟩
      rw [hl.done memory h hend hturn, ends_pure]
      exact ⟨by simp [hdone], h⟩
    | skip fault => exact Cleanly.faulty h.tooDeep
    | read =>
      rw [hl.read memory h hturn]
      refine .bind (mirrors_checked h) fun a t b u hab => ?_
      rw [hl.after memory s.current w.current]
      exact ih (by simp [hdone, hab.1]) hab.2

theorem mirrorsIf_statements {σ : Type} {l : Layout σ} {C : Token → Prop}
    (hl : l.Mirrors S f C) (memory : σ) :
    MirrorsIf S f C (statements c l memory) (statements c' l memory) (List.map Unplaced.stmt) := by
  intro s w h
  unfold statements
  rw [hc.rounds_eq]
  exact followsIf_statementsFrom hl rfl c.rounds h

/-! ### Blocks -/

omit hc hd in
/-- A token that starts a line stands in one column for both readers. -/
theorem Beside.column_eq (h : Beside S f s w) (hkind : s.current.kind ≠ .eof)
    (hstart : s.current.lineStart = true) : w.current.column = s.current.column :=
  have hs := h.alike hkind
  (Setting.line_and_column h.sound.current.pos h.sound'.current.pos hs.token.offset).2
    ((h.lineStart hs).2 hstart)

omit hc hd in
theorem Layout.mirrors_braces : Layout.braces.Mirrors S f (·.kind = .punct .closeBrace) where
  done s w first h hclose _ := by
    have hkind := (h.alike_of_kind hclose nofun).token.kind
    simp [Layout.braces, hkind, hclose]
  read s w first h hturn := by
    have hkind : s.current.kind ≠ .eof := by
      intro heof
      simp [Layout.braces, heof] at hturn
    have halike := h.alike hkind
    simpa only [Layout.braces, halike.token.kind, (h.lineStart halike).1] using hturn
  after _ _ _ := rfl

omit hc hd in
/-- What closes the construct around a text stands to the left of every block in it. -/
theorem Layout.mirrors_indented {column : Nat} (hcolumn : 1 < column) :
    (Layout.indented column).Mirrors S f fun _ => True where
  done s w _ h _ hturn := by
    rcases h.place with halike | hclose
    · by_cases hstart : s.current.kind ≠ .eof ∧ s.current.lineStart = true
      · rw [← hturn]
        simp only [Layout.indented, halike.token.kind, (h.lineStart halike).1,
          h.column_eq hstart.1 hstart.2]
      · simp only [Layout.indented, halike.token.kind, (h.lineStart halike).1]
        rw [if_pos (by grind)]
    · have hleft : w.current.column = 1 :=
        Setting.column_behind h.sound'.current.pos hclose.ending hclose.offset'
      simp [Layout.indented, hleft, hcolumn]
  read s w _ h hturn := by
    have hstart : s.current.kind ≠ .eof ∧ s.current.lineStart = true := by
      simp only [Layout.indented] at hturn
      grind
    have halike := h.alike hstart.1
    rw [← hturn]
    simp only [Layout.indented, halike.token.kind, (h.lineStart halike).1,
      h.column_eq hstart.1 hstart.2]
  after _ _ _ := rfl

theorem mirrors_braceBlock :
    Mirrors S f (braceBlock c) (braceBlock c') fun b => Unplaced.stmts b.body := by
  intro s w h
  have hbody := (mirrorsIf_statements (c := c) (f := f.outside) Layout.mirrors_braces
    true).insideBraces.outsideBrackets
  refine .token (h.expect (by decide) fun _ hopen => ?_)
  refine hbody.thenExpect hopen nofun fun body body' t u hstmts htu => .pure ⟨?_, htu⟩
  simp only [Unplaced.stmts_eq_map, hstmts]

/-- A block that is indented enough for the text alone is so in the wider source. -/
theorem mirrors_indentedBlock (hpos : 1 ≤ header') (hle : header' ≤ header) :
    Mirrors S f (indentedBlock c header) (indentedBlock c' header')
      fun b => Unplaced.stmts b.body := by
  intro s w h
  refine .token ?_
  by_cases hnone : (s.current.kind = .eof || !s.current.lineStart ||
      s.current.column ≤ header : Bool) = true
  · rw [if_pos hnone]
    exact h.faulty
  · have hblock := hnone
    simp only [Bool.or_eq_true, decide_eq_true_eq, Bool.not_eq_true', not_or,
      Bool.not_eq_false] at hblock
    obtain ⟨⟨hkind, hstart⟩, hcolumn⟩ := hblock
    have hsame := h.column_eq hkind hstart
    have halike := h.alike hkind
    rw [if_neg hnone, if_neg (by
      simp [halike.token.kind, hkind, (h.lineStart halike).1, hstart, hsame]; omega)]
    have hright : 1 < s.current.column := by omega
    have hbody := (mirrorsIf_statements (c := c) (f := f.outside)
      (Layout.mirrors_indented hright) ()).outsideBrackets.mirrors
    rw [hsame]
    exact (hbody h).give fun _ _ hstmts => by simp only [Unplaced.stmts_eq_map, hstmts]

omit hd in
theorem mirrors_block [f.deeper.Reaches d] (hpos : 1 ≤ header') (hle : header' ≤ header) :
    Mirrors S f (block c header) (block c' header') fun b => Unplaced.stmts b.body := by
  refine .nested fun s w h => h.ifSees rfl (fun _ => ?_) fun _ => ?_
  · exact mirrors_braceBlock h
  · exact mirrors_indentedBlock hpos hle h

/-! ## 6. Functions -/

theorem mirrors_param :
    Mirrors S f (param c) (param c') Unplaced.param := by
  intro s w h
  refine .token (h.ifAccept rfl (fun _ hnext => ?_) fun _ => h.seesPattern ?_ ?_)
  · refine hnext.expectToken (by decide) fun hkind hname => .pure ⟨?_, hname⟩
    simp only [Unplaced.param, textOf, Option.map_some, (hnext.alike_of_kind hkind nofun).token.text]
  · refine fun hkind => .bind (hc.pattern h.toNear hkind) fun target t target' u htarget => ?_
    exact (mirrors_default? htarget.2).give fun _ _ hdefault =>
      by simp only [Unplaced.param, Unplaced.expr?_eq_map, htarget.1, hdefault]
  · refine h.expectToken (by decide) fun hkind hname => ?_
    exact (mirrors_default? hname).give fun _ _ hdefault =>
      by simp only [Unplaced.param, Unplaced.expr?_eq_map, hdefault, textOf, Option.map_some,
      (h.alike_of_kind hkind nofun).token.text]

theorem opens_params :
    Opens S f (params c) (params c') (List.map Unplaced.param) := by
  intro s w h
  refine h.ifSees rfl (fun hkind => ?_) fun _ => h.expect (by decide) fun _ hopen => ?_
  · refine h.take (by simp [hkind]) fun hnext => .pure ⟨?_, hnext⟩
    simp [Unplaced.param, (h.alike_of_kind hkind nofun).token.text]
  · exact hopen.parts (.more mirrors_param) fun ps ps' t u hps htu => .pure ⟨hps, htu⟩

omit hc hd in
/-- Both find the body of a function on the lines that follow, or neither does. -/
theorem Beside.bodyBelow_eq (h : Beside S f s w) :
    (w.current.kind = .eof || w.current.lineStart : Bool) =
      (s.current.kind = .eof || s.current.lineStart : Bool) := by
  rcases h.place with halike | hclose
  · rw [halike.token.kind, (h.lineStart halike).1]
  · simp [hclose.kind, hclose.lineStart']

theorem mirrors_arrowBody (p p' : Position) {ps ps' : List Param}
    (hps : ps'.map Unplaced.param = ps.map Unplaced.param) (hpos : 1 ≤ header')
    (hle : header' ≤ header) :
    Mirrors S f (arrowBody c p ps header) (arrowBody c' p' ps' header') Expr.unplaced := by
  intro s w h
  have hblock {b b' : Block} (hb : Unplaced.stmts b'.body = Unplaced.stmts b.body) :
      (arrowBlock p' ps' b').unplaced = (arrowBlock p ps b).unplaced := by
    simp only [arrowBlock, Expr.unplaced, Unplaced.params_eq_map, hps, hb]
  have hvalue {e e' : Expr} (he : e'.unplaced = e.unplaced) :
      (Expr.arrow p' ps' e').unplaced = (Expr.arrow p ps e).unplaced := by
    simp only [Expr.unplaced, Unplaced.params_eq_map, hps, he]
  refine .token (.ite (h.kind_eq_iff rfl) (fun _ => ?_) fun _ => .ite (by rw [h.bodyBelow_eq]) ?_ ?_)
  · exact .bind (mirrors_braceBlock h) fun b t b' u hb => .pure ⟨hblock hb.1, hb.2⟩
  · refine fun _ => .bind (mirrors_indentedBlock hpos hle h) fun b t b' u hb => .pure ⟨?_, hb.2⟩
    have hsole := soleValue?_congr hb.1
    unfold arrowOf
    cases he : soleValue? b with
    | none =>
      rw [he] at hsole
      rw [Option.map_eq_none_iff.mp hsole]
      exact hblock hb.1
    | some e =>
      rw [he] at hsole
      obtain ⟨e', he', hee'⟩ := Option.map_eq_some_iff.mp hsole
      rw [he']
      exact hvalue hee'
  · exact fun _ => .bind (hc.assignment h) fun e t e' u he => .pure ⟨hvalue he.1, he.2⟩

theorem opens_arrow : Opens S f (arrow c) (arrow c') Expr.unplaced := by
  intro s w h
  refine .token (.bind (opens_params h) fun ps t ps' u hps => .get ?_)
  obtain ⟨hps, htu⟩ := hps
  refine htu.expect (by decide) fun _ hsign => ?_
  refine .bind (mirrors_arrowBody _ _ hps htu.indent_pos htu.indent_le hsign) ?_
  intro e t e' u he
  refine he.2.reportAll (Check.restLast_congr Check.restParam?_unplaced hps) ?_
  exact .pure he

end

end ReactiveScript.Grammar
