import ReactiveScript.Proofs.Grammar.Covers

/-!
# What a clean run gathers

For every routine: the nodes of what a clean run gives are those between the place where it starts
and the place where it ends.
-/

namespace ReactiveScript.Grammar

-- The instance of a routine is as large as the routine.
set_option synthInstance.maxSize 1000

open ReactiveScript.Preorder (expr expr? exprs stmt stmts)

variable {α : Type} {source : Text} {p : Spot} {s : State} {ns : List Node} {x : Reading α}
  {g : α → List Node}

/-! ## 1. Contracts -/

/-- A clean run gives something whose nodes lie between a spot and its end. -/
abbrev Yields (source : Text) (p : Spot) (x : Reading α) (s : State) (g : α → List Node) : Prop :=
  Cleanly x s fun a t => Covers source p t.spot (g a)

/-- A clean run gives something whose nodes lie between its start and its end. -/
def Gathers (source : Text) (x : Reading α) (g : α → List Node) : Prop :=
  ∀ ⦃s : State⦄, s.spot.Sound source → Yields source s.spot x s g

/-- A clean run goes on with an expression that was read. -/
def Extends (source : Text) (f : Expr → Reading Expr) : Prop :=
  ∀ ⦃p : Spot⦄ ⦃s : State⦄ ⦃e : Expr⦄, Covers source p s.spot (expr e) →
    Yields source p (f e) s expr

/-- Where not all nodes are plain, a clean run may take any tokens. -/
def Roams (source : Text) (x : Reading α) : Prop :=
  ∀ ⦃p : Spot⦄ ⦃s : State⦄ ⦃ns : List Node⦄, Covers source p s.spot ns → ¬ AllPlain ns →
    Cleanly x s fun _ t => Covers source p t.spot ns

/-- What is gathered next comes after what there is. -/
theorem Gathers.after (hx : Gathers source x g) (h : Covers source p s.spot ns) :
    Cleanly x s fun a t => Covers source p t.spot (ns ++ g a) :=
  (hx h.sound).mono fun _ _ ha => h.append ha

section
variable {β : Type} {Q : β → State → Prop} {k : Kind}

theorem Gathers.bind {f : α → Reading β} [AddsAll f] (hx : Gathers source x g)
    (h : Covers source p s.spot ns)
    (hf : ∀ a t, Covers source p t.spot (ns ++ g a) → Cleanly (f a) t Q) :
    Cleanly (x >>= f) s Q := Cleanly.bind (hx.after h) hf

/-- A token that is wanted and no name. -/
theorem Covers.expect {f : Bool → Reading β} [AddsAll f] (h : Covers source p s.spot ns)
    (hk : k ≠ .identifier) (hf : Covers source p s.advance.spot ns → Cleanly (f true) s.advance Q) :
    Cleanly (Grammar.expect k >>= f) s Q :=
  .expect h.tooDeep_eq fun hkind => hf (h.skip hkind hk)

/-- A token that may be there and is no name. -/
theorem Covers.ifAccept {yes no : Reading β} (h : Covers source p s.spot ns) (hk : k ≠ .identifier)
    (hyes : Covers source p s.advance.spot ns → Cleanly yes s.advance Q) (hno : Cleanly no s Q) :
    Cleanly (do if ← accept k then yes else no) s Q :=
  .ifAccept (fun hkind => hyes (h.skip hkind hk)) fun _ => hno

end

theorem Gathers.bracketed (hx : Gathers source x g) : Gathers source (bracketed x) g :=
  fun _ hs => .bracketed (hx hs)

theorem Extends.bracketed {f : Expr → Reading Expr} (hf : Extends source f) :
    Extends source fun e => bracketed (f e) :=
  fun _ _ _ h => .bracketed (hf h)

theorem Gathers.readIf {x : Reading Expr} (hx : Gathers source x expr) (wanted : Bool) :
    Gathers source (readIf wanted x) expr? :=
  fun _ hs => .readIf (fun _ => hx hs) fun _ => .refl hs

theorem Gathers.nested {y : Reading α} [Adds x] [Adds y] (hx : Gathers source x g) :
    Gathers source (nested y x) g :=
  fun _ hs => .nested hs.tooDeep (hx hs)

theorem gathers_badHere : Gathers source badHere expr :=
  fun _ hs => .token (.pure ((Covers.refl hs).note rfl rfl rfl))

/-- The nodes of a block. -/
def Block.nodes (b : Block) : List Node := .block b.pos :: stmts b.body

theorem gathers_emptyBlock : Gathers source emptyBlock Block.nodes :=
  fun _ hs => .token (.pure ((Covers.refl hs).note rfl rfl rfl))

/-! ## 2. Lists of parts -/

/-- The nodes of a part. -/
def Part.nodes (g : α → List Node) : Part α → List Node
  | .none => []
  | .last a | .more a => g a

theorem cleanly_partsFrom {close : Kind} {part : Reading (Part α)} [Adds part]
    (hpart : Gathers source part (Part.nodes g)) {done : List α} (rounds : Nat)
    (h : Covers source p s.spot (done.reverse.flatMap g)) :
    Cleanly (partsFrom close part done rounds) s
      fun as t => Covers source p t.spot (as.flatMap g) := by
  induction rounds generalizing done s with
  | zero => exact .outOfRounds
  | succ rounds ih =>
    unfold partsFrom
    refine .sees (.atEnd (.ite (fun _ => .pure h) fun _ => hpart.bind h fun a t ha => ?_))
    cases a with
    | none => exact .pure (by simpa [Part.nodes] using ha)
    | last a => exact .pure (by simpa [Part.nodes] using ha)
    | more a =>
      have hdone : Covers source p t.spot ((a :: done).reverse.flatMap g) := by
        simpa [Part.nodes] using ha
      exact hdone.ifAccept (by decide) ih (.pure hdone)

theorem gathers_parts (c : Context) {close : Kind} {part : Reading (Part α)} [Adds part]
    (hpart : Gathers source part (Part.nodes g)) :
    Gathers source (parts c close part) (·.flatMap g) :=
  fun _ hs => cleanly_partsFrom hpart c.rounds (.refl hs)

theorem Gathers.more (hx : Gathers source x g) : Gathers source (Part.more <$> x) (Part.nodes g) :=
  fun _ hs => .map (hx hs)

/-- The nodes of a part do not depend on whether the list goes on. -/
theorem Part.nodes_partOf (g : α → List Node) (target : Expr) (a : α) :
    (partOf target a).nodes g = g a := by
  unfold partOf
  split <;> rfl

/-! ## 3. The level below -/

/-- The context is one of the source, and the routines of the level below gather nodes. A pattern
    starts with a bracket. -/
class Context.Gathers (source : outParam Text) (c : Context) : Prop where
  adds : c.Adds
  source_eq : c.source = source
  lines_eq : c.lines = LineMap.ofText source
  assignment : Grammar.Gathers source c.inner.assignment expr
  binary : ∀ least, Grammar.Gathers source (c.inner.binary least) expr
  binaryRest : ∀ least, Extends source (c.inner.binaryRest least)
  unary : Grammar.Gathers source c.inner.unary expr
  chainRest : ∀ optional, Extends source (c.inner.chainRest optional)
  block : ∀ header, Grammar.Gathers source (c.inner.block header) Block.nodes
  pattern : ∀ ⦃s : State⦄, s.spot.Sound source → s.current.kind ≠ .identifier →
    Yields source s.spot c.inner.pattern s expr
  jsx : ∀ inChildren, Grammar.Gathers source (c.inner.jsx inChildren) expr

attribute [instance] Context.Gathers.adds

section
variable {c : Context} [hc : c.Gathers source] {q : Position} {inChildren : Bool} {name : Text}

/-! ## 4. Patterns -/

theorem gathers_default? : Gathers source (default? c) expr? := by
  intro s hs
  refine .accept (fun heq => ?_) fun _ => hc.assignment.readIf false hs
  exact (hc.assignment.readIf true).after ((Covers.refl hs).skip heq nofun)

/-- A pattern after what there is. -/
theorem cleanly_pattern (h : Covers source p s.spot ns) (hkind : s.current.kind ≠ .identifier) :
    Cleanly c.inner.pattern s fun e t => Covers source p t.spot (ns ++ expr e) :=
  (hc.pattern h.sound hkind).mono fun _ _ he => h.append he

theorem cleanly_seesPattern : Cleanly seesPattern s fun b t =>
    t = s ∧ (b = true → s.current.kind ≠ .identifier) := by
  refine .sees (.sees (.pure ⟨rfl, fun h hkind => ?_⟩))
  simp [State.sees, hkind] at h

theorem gathers_bindingTarget : Gathers source (bindingTarget c) expr := by
  intro s hs
  refine .bind cleanly_seesPattern ?_
  rintro b t ⟨rfl, hb⟩
  refine .ite (fun h => hc.pattern hs (hb h)) fun _ => .ifSees (fun hkind => ?_) fun _ =>
    .faulty hs.tooDeep
  exact .take (.pure ((Covers.refl hs).passWord (hkind ▸ rfl)))

theorem gathers_patternElement :
    Gathers source (patternElement c) (Part.nodes Preorder.patternElement) := by
  intro s hs
  have helement := (Covers.refl hs).note (n := .element s.current.pos) rfl rfl rfl
  refine .token (helement.ifAccept nofun (fun hrest => ?_) ?_)
  · refine gathers_bindingTarget.bind hrest fun target t ht => ?_
    exact .pure (by simpa [Part.nodes_partOf, Preorder.patternElement] using ht)
  · refine gathers_bindingTarget.bind helement fun target t ht => ?_
    refine gathers_default?.bind ht fun default u hu => ?_
    exact .pure (by simpa [Part.nodes_partOf, Preorder.patternElement] using hu)

omit hc in
/-- A list in brackets, the first of which was taken, of which nothing is reported. -/
theorem cleanly_listed {part : Reading (Part α)} [Adds part]
    (hpart : Gathers source part (Part.nodes g)) {close : Kind} (hclose : close ≠ .identifier)
    {check : List α → List Report} {make : Position → List α → Expr}
    (hmake : ∀ as, ns ++ as.flatMap g = expr (make s.current.pos as))
    (h : Covers source p s.advance.spot ns) :
    Yields source p (do
      let q := (← take).pos
      let as ← bracketed (parts c close part)
      let _ ← expect close
      reportAll (check as)
      return make q as) s expr := by
  refine .take ((gathers_parts c hpart).bracketed.bind h fun as t ht => ht.expect hclose ?_)
  exact fun hlast => .reportAll fun _ => .pure (hmake as ▸ hlast)

theorem gathers_arrayPattern (hs : s.spot.Sound source) (hkind : s.current.kind ≠ .identifier) :
    Yields source s.spot (arrayPattern c) s expr := by
  refine cleanly_listed gathers_patternElement (by decide) (fun as => ?_) ((Covers.refl hs).pass rfl
    (n := .expr .arrayPattern s.current.pos .none) (Token.names_of_ne hkind).symm rfl)
  simp [Preorder.expr, Preorder.patternElements_eq_flatMap]

theorem cleanly_namedProperty (hs : s.spot.Sound source) (hkind : s.current.kind = .identifier) :
    Yields source s.spot (namedProperty c s.current.pos) s (Part.nodes Preorder.patternProperty) := by
  have hproperty := (Covers.refl hs).note (n := .property s.current.pos) rfl rfl rfl
  have hkey := hproperty.passWord (hkind ▸ rfl)
  refine .take (hkey.ifAccept nofun (fun hcolon => ?_) ?_)
  · refine gathers_bindingTarget.bind hcolon fun target t ht => ?_
    refine gathers_default?.bind ht fun default u hu => .pure ?_
    simpa [Part.nodes_partOf, Preorder.patternProperty, identifierOf, Preorder.expr] using hu
  · refine gathers_default?.bind hkey fun default u hu => .pure ?_
    simpa [Part.nodes, Preorder.patternProperty, identifierOf, Preorder.expr] using hu

/-- The key of a property that cannot stand alone. -/
theorem covers_key (h : Covers source p s.spot ns)
    (hkind : s.current.kind = .string ∨ s.current.kind.isPropertyName = true) :
    Covers source p s.advance.spot (ns ++
      expr (if s.current.kind = .string then stringOf s.current else identifierOf s.current)) := by
  split
  · rename_i hstring
    exact h.pass rfl (Token.names_of_ne (by simp [hstring])).symm rfl
  · rename_i hstring
    exact h.passWord (hkind.resolve_left hstring)

theorem cleanly_keyedProperty (hs : s.spot.Sound source)
    (hkind : s.current.kind = .string ∨ s.current.kind.isPropertyName = true) :
    Yields source s.spot (keyedProperty c s.current.pos) s (Part.nodes Preorder.patternProperty) := by
  have hproperty := (Covers.refl hs).note (n := .property s.current.pos) rfl rfl rfl
  have hkey := covers_key hproperty hkind
  refine .take (hkey.expect nofun fun hcolon => ?_)
  refine gathers_bindingTarget.bind hcolon fun target t ht => ?_
  refine gathers_default?.bind ht fun default u hu => .pure ?_
  simpa [Part.nodes_partOf, Preorder.patternProperty] using hu

theorem gathers_patternProperty :
    Gathers source (patternProperty c) (Part.nodes Preorder.patternProperty) := by
  intro s hs
  have hproperty := (Covers.refl hs).note (n := .property s.current.pos) rfl rfl rfl
  refine .token (hproperty.ifAccept nofun (fun hname => ?_) (.token ?_))
  · refine .expectToken hname.tooDeep_eq fun hkind => .pure ?_
    exact hname.passWord (hkind ▸ rfl)
  · refine .ite (cleanly_namedProperty hs) fun _ => .ite (fun h => ?_) fun _ =>
      .faulty hs.tooDeep
    exact cleanly_keyedProperty hs (by simpa using h)

theorem gathers_objectPattern (hs : s.spot.Sound source) (hkind : s.current.kind ≠ .identifier) :
    Yields source s.spot (objectPattern c) s expr := by
  refine cleanly_listed gathers_patternProperty (by decide) (fun as => ?_) ((Covers.refl hs).pass rfl
    (n := .expr .objectPattern s.current.pos .none) (Token.names_of_ne hkind).symm rfl)
  simp [Preorder.expr, Preorder.patternProperties_eq_flatMap]

theorem gathers_pattern (hs : s.spot.Sound source) (hkind : s.current.kind ≠ .identifier) :
    Yields source s.spot (pattern c) s expr :=
  .nested hs.tooDeep
    (.ifSees (fun _ => gathers_arrayPattern hs hkind) fun _ => gathers_objectPattern hs hkind)

/-! ## 5. Statements -/

theorem gathers_endStatement : Gathers source endStatement fun _ => [] := by
  intro s hs
  refine .accept (fun hkind => .pure ?_) fun _ => .pure (.refl hs)
  exact (Covers.refl hs).skip hkind nofun

/-- What was read last in a statement. -/
theorem cleanly_end {a : α} (h : Covers source p s.spot ns) (hns : ns = g a) :
    Yields source p (do endStatement; return a) s g := by
  refine gathers_endStatement.bind h fun _ t ht => .pure ?_
  rwa [List.append_nil, hns] at ht

theorem cleanly_expressionStmt {m : Option Text}
    (h : Covers source p s.spot [.stmt .expression q m]) :
    Yields source p (expressionStmt c m q) s stmt := by
  exact hc.assignment.bind h fun e t ht => cleanly_end ht rfl

theorem cleanly_returnStmt {m : Option Text} (h : Covers source p s.spot [.stmt .return q m])
    (hkind : s.current.kind = .keyword .ret) :
    Yields source p (returnStmt c m q) s stmt := by
  have hvalue := h.skip hkind nofun
  refine .advance (.get ((hc.assignment.readIf _).bind hvalue fun e t ht => ?_))
  exact cleanly_end ht rfl

theorem cleanly_modifierStmt (hs : s.spot.Sound source) (hkind : s.current.kind = .modifier) :
    Yields source s.spot (modifierStmt c) s stmt := by
  have hstart (k : StmtKind) (m : Option Text) :=
    (Covers.refl hs).pass (n := .stmt k s.current.pos m) rfl
      (Token.names_of_ne (by simp [hkind])).symm rfl
  refine .get (.take (.ifAccept (fun hcolon => ?_) fun _ => .ifSees (fun hret => ?_) fun _ => ?_))
  · have hblock := (hstart .modifierBlock (some (modifierName s.current))).skip hcolon nofun
    refine (hc.block _).bind hblock fun b t ht => .pure ?_
    simpa [Preorder.stmt, Block.nodes] using ht
  · exact cleanly_returnStmt (hstart .return _) hret
  · exact cleanly_expressionStmt (hstart .expression _)

/-! ### Exports and imports -/

section

variable {q : Position}
omit hc

theorem roams_parts {close : Kind} {part : Reading (Part α)} [Adds part]
    (hpart : Roams source part) : Roams source (parts c close part) := by
  intro p s ns h hplain
  unfold parts
  generalize ([] : List α) = done
  generalize c.rounds = rounds
  induction rounds generalizing done s with
  | zero => exact .outOfRounds
  | succ rounds ih =>
    unfold partsFrom
    refine .sees (.atEnd (.ite (fun _ => .pure h) fun _ => .bind (hpart h hplain) fun a t ht => ?_))
    cases a with
    | none => exact .pure ht
    | last a => exact .pure ht
    | more a => exact ht.ifAccept nofun (ih · _) (.pure ht)

theorem roams_expectWord (w : Text) : Roams source (expectWord w) := fun _ _ _ h hplain =>
  .seesWord (.ite (fun _ => .advanced (h.leapOn hplain)) fun _ => .fault h.tooDeep_eq)

theorem roams_exportSpecifier : Roams source exportSpecifier := by
  intro p s ns h hplain
  have hname := h.leapOn hplain
  refine .expectToken h.tooDeep_eq fun _ => .seesWord (.ite (fun _ => ?_) fun _ => .pure hname)
  have hrenamed := hname.leapOn hplain
  refine .advance (.token (.ite (fun _ => ?_) fun _ => .faulty hrenamed.tooDeep_eq))
  exact .take (.pure (hrenamed.leapOn hplain))

theorem roams_importSpecifier : Roams source importSpecifier := by
  intro p s ns h hplain
  have hname := h.leapOn hplain
  refine .token (.ite (fun _ => .take ?_) fun _ => .faulty h.tooDeep_eq)
  refine .seesWord (.ite (fun _ => .advance ?_) fun _ => .pure hname)
  have hrenamed := hname.leapOn hplain
  exact .expectToken hrenamed.tooDeep_eq fun _ => .pure (hrenamed.leapOn hplain)

theorem roams_importList : Roams source (importList c) := by
  intro p s ns h hplain
  refine h.expect nofun fun hopen => ?_
  refine .bind (roams_parts roams_importSpecifier hopen hplain) fun names t ht => ?_
  exact ht.expect nofun fun h => .pure h

theorem roams_moreNames : Roams source (moreNames c) := fun _ _ _ h hplain =>
  h.ifAccept nofun (roams_importList · hplain) (.pure h)

theorem gathers_importSource : Gathers source importSource expr := by
  intro s hs
  refine .token (.expectToken hs.tooDeep fun hkind => ?_)
  have hstring := (Covers.refl hs).pass (n := .expr .string s.current.pos
    (.text (Escape.stringValue s.current.text))) rfl (Token.names_of_ne (by simp [hkind])).symm rfl
  exact cleanly_end hstring rfl

theorem cleanly_importAll (h : Covers source p s.spot [.stmt .importNamespace q none]) :
    Yields source p (importAll q) s stmt := by
  have hplain : ¬ AllPlain [.stmt .importNamespace q none] :=
    not_allPlain_cons rfl
  refine .bind (roams_expectWord _ h hplain) fun _ t ht => .expectToken ht.tooDeep_eq fun _ => ?_
  refine .bind (roams_expectWord _ (ht.leapOn hplain) hplain) fun _ u hu => ?_
  exact gathers_importSource.bind hu fun e v hv => .pure hv

theorem cleanly_importSome (h : Covers source p s.spot [.stmt .importNames q none]) :
    Yields source p (importSome c q) s stmt := by
  have hplain : ¬ AllPlain [.stmt .importNames q none] :=
    not_allPlain_cons rfl
  have hnames (first : Option Text) (names : List Specifier) (t : State)
      (ht : Covers source p t.spot [.stmt .importNames q none]) : Yields source p (do
        expectWord fromWord
        let source ← importSource
        return .importNames q first names source) t stmt :=
    .bind (roams_expectWord _ ht hplain) fun _ u hu =>
      gathers_importSource.bind hu fun _ _ hv => .pure hv
  refine .token (.ite (fun _ => .advance ?_) fun _ => ?_)
  · exact .bind (roams_moreNames (h.leapOn hplain) hplain) (hnames _)
  · exact .bind (roams_importList h hplain) (hnames _)

theorem cleanly_importStmt (hs : s.spot.Sound source) (hkind : s.current.kind = .keyword .imports) :
    Yields source s.spot (importStmt c) s stmt := by
  have hstart (k : StmtKind) := (Covers.refl hs).pass (n := .stmt k s.current.pos none) rfl
    (Token.names_of_ne (by simp [hkind])).symm rfl
  refine .take (.ifAccept (fun hstar => ?_) fun _ => .ifSees (fun _ => ?_) fun _ => ?_)
  · exact cleanly_importAll ((hstart .importNamespace).skip hstar nofun)
  · exact gathers_importSource.bind (hstart .importNames) fun e t ht => .pure ht
  · exact cleanly_importSome (hstart .importNames)

theorem cleanly_exportList (h : Covers source p s.spot [.stmt .exportNamed q none]) :
    Yields source p (exportList c q) s stmt := by
  have hplain : ¬ AllPlain [.stmt .exportNamed q none] :=
    not_allPlain_cons rfl
  refine .bind (roams_parts roams_exportSpecifier h hplain) fun names t ht => ?_
  exact ht.expect nofun (cleanly_end · rfl)

end

theorem cleanly_exportDeclaration (h : Covers source p s.spot [.stmt .exportNamed q none]) :
    Yields source p (exportDeclaration c q) s stmt := by
  -- The declaration lies where its modifier does.
  refine .token (.bind (P := fun m t => Covers source p t.spot
    [.stmt .exportNamed q none, .stmt .expression s.current.pos m]) ?_ fun m t ht => ?_)
  · refine .ifSees (fun hkind => .take (.pure ?_)) fun _ => .pure (h.note rfl rfl rfl)
    exact h.pass rfl (Token.names_of_ne (by simp [hkind])).symm rfl
  · refine hc.assignment.bind ht fun e u hu => ?_
    refine gathers_endStatement.bind hu fun _ v hv => ?_
    refine .ite (fun _ => .faulty hv.tooDeep_eq) fun _ => .pure ?_
    simpa [Preorder.stmt] using hv

theorem cleanly_exportStmt (hs : s.spot.Sound source) (hkind : s.current.kind = .keyword .exports) :
    Yields source s.spot (exportStmt c) s stmt := by
  have hstart (k : StmtKind) := (Covers.refl hs).pass (n := .stmt k s.current.pos none) rfl
    (Token.names_of_ne (by simp [hkind])).symm rfl
  refine .take (.ifAccept (fun hdefault => ?_) fun _ => .ifAccept (fun hopen => ?_) fun _ => ?_)
  · refine hc.assignment.bind ((hstart .exportDefault).skip hdefault nofun) fun e t ht => ?_
    exact cleanly_end ht rfl
  · exact cleanly_exportList ((hstart .exportNamed).skip hopen nofun)
  · exact cleanly_exportDeclaration (hstart .exportNamed)

/-! ### Lists of statements -/

theorem gathers_statement : Gathers source (statement c) stmt := by
  intro s hs
  refine .token ?_
  split
  · exact cleanly_modifierStmt hs ‹_›
  · exact cleanly_returnStmt ((Covers.refl hs).note rfl rfl rfl) ‹_›
  · exact cleanly_exportStmt hs ‹_›
  · exact cleanly_importStmt hs ‹_›
  · exact cleanly_expressionStmt ((Covers.refl hs).note rfl rfl rfl)

theorem gathers_checked : Gathers source (checked c) stmt :=
  fun _ hs _ _ hrun ht => gathers_statement hs (checked_clean c hrun ht) ht

theorem cleanly_statementsFrom {σ : Type} {l : Layout σ} {memory : σ} {done : List Stmt}
    (rounds : Nat) (h : Covers source p s.spot (stmts done.reverse)) :
    Cleanly (statementsFrom c l memory done rounds) s
      fun as t => Covers source p t.spot (stmts as) := by
  induction rounds generalizing memory done s with
  | zero => exact .outOfRounds
  | succ rounds ih =>
    unfold statementsFrom
    refine .token ?_
    split
    · exact .pure h
    · exact .faulty h.tooDeep_eq
    · refine gathers_checked.bind h fun a t ht => ih ?_
      simpa [Preorder.stmts_eq_flatMap] using ht

theorem gathers_statements {σ : Type} {l : Layout σ} {memory : σ} :
    Gathers source (statements c l memory) stmts :=
  fun _ hs => cleanly_statementsFrom c.rounds (.refl hs)

theorem gathers_program : Gathers source (program c) Preorder.program := by
  intro s hs
  have hprogram := (Covers.refl hs).note (n := .program s.current.pos) rfl rfl rfl
  exact .token (gathers_statements.bind hprogram fun _ t ht => .pure ht)

theorem gathers_braceBlock : Gathers source (braceBlock c) Block.nodes := by
  intro s hs
  have hblock := (Covers.refl hs).note (n := .block s.current.pos) rfl rfl rfl
  have hbody : Gathers source (outsideBrackets (insideBraces (statements c .braces true))) stmts :=
    fun _ hs => .outsideBrackets (.insideBraces (gathers_statements hs))
  refine .token (hblock.expect nofun fun hopen => hbody.bind hopen fun body t ht => ?_)
  exact ht.expect nofun fun h => .pure h

theorem gathers_indentedBlock (header : Nat) :
    Gathers source (indentedBlock c header) Block.nodes := by
  intro s hs
  have hblock := (Covers.refl hs).note (n := .block s.current.pos) rfl rfl rfl
  have hbody (column : Nat) :
      Gathers source (outsideBrackets (statements c (.indented column) ())) stmts :=
    fun _ hs => .outsideBrackets (gathers_statements hs)
  refine .token (.ite (fun _ => .faulty hs.tooDeep) fun _ => ?_)
  exact (hbody _).bind hblock fun body t ht => .pure ht

theorem gathers_block (header : Nat) : Gathers source (block c header) Block.nodes :=
  .nested fun _ hs =>
    .ifSees (fun _ => gathers_braceBlock hs) fun _ => gathers_indentedBlock header hs

/-! ## 6. Functions -/

theorem gathers_param : Gathers source (param c) Preorder.param := by
  intro s hs
  refine .token (.ifAccept (fun hrest => ?_) fun _ => ?_)
  · -- The name of a rest parameter follows its dots.
    have hparam := (Covers.refl hs).note (n := .param s.current.pos []) rfl rfl rfl
    have hdots := hparam.skip hrest nofun
    refine .expectToken hdots.tooDeep_eq fun hkind => .pure ?_
    exact hdots.christen rfl rfl rfl (name?_param hdots.sound.named hkind _) rfl
  · refine .bind cleanly_seesPattern ?_
    rintro b t ⟨rfl, hb⟩
    refine .ite (fun h => ?_) fun _ => .expectToken hs.tooDeep fun hkind => ?_
    · have hparam := (Covers.refl hs).note (n := .param t.current.pos []) rfl rfl rfl
      refine .bind (cleanly_pattern hparam (hb h)) fun target u hu => ?_
      refine gathers_default?.bind hu fun default v hv => .pure ?_
      simpa [Preorder.param] using hv
    · have hparam := (Covers.refl hs).pass (n := .param t.current.pos t.current.text) rfl
        (name?_param hs.named hkind _) rfl
      exact gathers_default?.bind hparam fun default u hu => .pure hu

theorem gathers_params : Gathers source (params c) Preorder.params := by
  intro s hs
  refine .ifSees (fun hkind => .take (.pure ?_)) fun _ => .expect hs.tooDeep fun hopen => ?_
  · have hparam := (Covers.refl hs).pass (n := .param s.current.pos s.current.text) rfl
      (name?_param hs.named hkind _) rfl
    exact hparam
  · have hlist : Gathers source (bracketed (parts c (.punct .closeParen) (.more <$> param c)))
        (·.flatMap Preorder.param) := (gathers_parts c gathers_param.more).bracketed
    refine hlist.bind ((Covers.refl hs).skip hopen nofun) fun ps t ht => ?_
    rw [← Preorder.params_eq_flatMap] at ht
    exact ht.expect nofun fun h => .pure h

/-- The value that a block stands for has the nodes of the block but two, which have no names. -/
theorem covers_soleValue {b : Block} {e : Expr} (h : Covers source p s.spot (ns ++ b.nodes))
    (he : soleValue? b = some e) : Covers source p s.spot (ns ++ expr e) := by
  obtain ⟨q, body⟩ := b
  unfold soleValue? at he
  split at he
  · rename_i q' e' hbody
    split at he
    · cases he
    · cases he
      cases hbody
      refine h.settle ?_ fun hplain => ?_
      · simp only [placesOf_append, Block.nodes, Preorder.stmts, Preorder.stmt, List.append_nil]
        refine (List.Sublist.refl _).append ?_
        have hsub : (expr e).Sublist (.block q :: .stmt .expression q' none :: expr e) :=
          ((List.Sublist.refl _).cons _).cons _
        exact hsub.filterMap _
      · obtain ⟨hns, he⟩ := allPlain_append.mp hplain
        refine ⟨allPlain_append.mpr ⟨hns, ?_⟩, ?_⟩
        · simpa [Block.nodes, Preorder.stmts, Preorder.stmt, AllPlain, Node.isPlain, Node.isBad,
            Node.hidesNames] using he
        · simp [Block.nodes, Preorder.stmts, Preorder.stmt, namesOf, List.filterMap_cons, Node.name?]
  · cases he

theorem cleanly_arrowBody {ps : List Param} {header : Nat}
    (h : Covers source p s.spot (.expr .arrow q .none :: Preorder.params ps)) :
    Yields source p (arrowBody c q ps header) s expr := by
  refine .token (.ite (fun _ => ?_) fun _ => .ite (fun _ => ?_) fun _ => ?_)
  · exact gathers_braceBlock.bind h fun b t ht => .pure ht
  · refine (gathers_indentedBlock header).bind h fun b t ht => .pure ?_
    unfold arrowOf
    split
    · exact covers_soleValue ht ‹_›
    · exact ht
  · exact hc.assignment.bind h fun b t ht => .pure ht

theorem gathers_arrow : Gathers source (arrow c) expr := by
  intro s hs
  have harrow := (Covers.refl hs).note (n := .expr .arrow s.current.pos .none) rfl rfl rfl
  refine .token (gathers_params.bind harrow fun ps t ht => ?_)
  refine .get (ht.expect nofun fun hsign => .bind (cleanly_arrowBody hsign) fun e u hu => ?_)
  exact .reportAll (fun _ => .pure hu)

/-! ## 7. Elements and fragments -/

/-- The text after the first bytes of the current token starts right behind them. -/
theorem cleanly_advanceText {n : Nat} (hs : s.spot.Sound source) (hn : s.Passes n) :
    Cleanly (advanceText c n) s fun _ t =>
      t.spot.Sound source ∧ t.current.offset = s.current.offset + n := by
  intro u t hrun _
  cases hrun
  rw [hc.source_eq]
  exact ⟨sound_jsxText hs hn, rfl⟩

/-- A tag is left forward. -/
theorem cleanly_leaveTag {n : Nat} (hs : s.spot.Sound source) (hn : s.Passes n) :
    Cleanly (leaveTag c n inChildren) s fun _ t =>
      t.spot.Sound source ∧ s.current.offset ≤ t.current.offset := by
  unfold leaveTag
  refine .ite (fun _ => (cleanly_advanceText hs hn).mono fun _ t ht => ?_) fun _ => ?_
  · exact ⟨ht.1, ht.2 ▸ Nat.le_add_right _ _⟩
  · refine .modify (.advanced ?_)
    rw [hc.source_eq]
    obtain ⟨w, rfl, hw, hline⟩ := hn
    refine ⟨sound_advance (hs.current.inside hw hline) hs.tooDeep, ?_⟩
    have hnext := (Cursor.inside source s.current w.length).next_offset.1
    rw [State.advance_current]
    exact Nat.le_trans (Nat.le_add_right _ w.length) hnext

theorem cleanly_jsxNameRest (rounds : Nat) (h : Covers source p s.spot ns)
    (hplain : ¬ AllPlain ns) :
    Cleanly (jsxNameRest name rounds) s fun o t => o ≠ none ∧ Covers source p t.spot ns := by
  induction rounds generalizing name s with
  | zero => exact .outOfRounds
  | succ rounds ih =>
    unfold jsxNameRest
    refine .get (.ite (fun _ => .take (.get ?_)) fun _ => .pure ⟨Option.some_ne_none _, h⟩)
    have hpart := h.leapOn hplain
    refine .ite (fun _ => .take ?_) fun _ => .faulty hpart.tooDeep_eq
    exact ih (hpart.leapOn hplain)

omit hc in
/-- A name that is wanted is there. -/
theorem cleanly_jsxName (h : Covers source p s.spot ns) (hplain : ¬ AllPlain ns) :
    Cleanly (jsxName c) s fun o t => o ≠ none ∧ Covers source p t.spot ns :=
  .token (.ite (fun _ => .take (cleanly_jsxNameRest c.rounds (h.leapOn hplain) hplain)) fun _ =>
    .faulty h.tooDeep_eq)

theorem cleanly_bracedValue (h : Covers source p s.spot ns) :
    Cleanly (bracedValue c) s fun o t => ∃ e, o = some e ∧ Covers source p t.spot (ns ++ expr e) := by
  refine hc.assignment.bracketed.bind h fun e t ht => ?_
  exact ht.expect nofun fun h => .pure ⟨e, rfl, h⟩

theorem cleanly_attributeValue (h : Covers source p s.spot (ns ++ [.attribute q name])) :
    Cleanly (attributeValue c q name) s fun o t =>
      ∃ a, o = some a ∧ Covers source p t.spot (ns ++ Preorder.attr a) := by
  refine .accept (fun hequals => ?_) fun _ => .pure ⟨_, rfl, h⟩
  have hvalue := h.skip hequals nofun
  refine .ifSees (fun hkind => .take (.pure ⟨_, rfl, hvalue.skip hkind nofun⟩)) fun _ => ?_
  refine hvalue.ifAccept nofun (fun hopen => ?_) (.faulty hvalue.tooDeep_eq)
  refine .bind (cleanly_bracedValue hopen) ?_
  rintro o t ⟨e, rfl, he⟩
  exact .pure ⟨_, rfl, by simpa [Preorder.attr] using he⟩

theorem cleanly_tagAttribute (h : Covers source p s.spot ns) (hplain : ¬ AllPlain ns) :
    Cleanly (tagAttribute c) s fun o t =>
      ∃ a, o = some a ∧ Covers source p t.spot (ns ++ Preorder.attr a) := by
  have hattribute := h.note (n := .attribute s.current.pos []) rfl rfl rfl
  refine .token (hattribute.ifAccept nofun (fun hopen => hopen.expect nofun fun hdots => ?_) ?_)
  · refine .bind (cleanly_bracedValue hdots) ?_
    rintro o t ⟨e, rfl, he⟩
    exact .pure ⟨_, rfl, by simpa [Preorder.attr] using he⟩
  · have hplain' : ¬ AllPlain (ns ++ [.attribute s.current.pos []]) :=
      fun hall => hplain (allPlain_append.mp hall).1
    refine .bind (cleanly_jsxName hattribute hplain') fun o t ht => ?_
    cases o with
    | none => exact absurd rfl ht.1
    | some name => exact cleanly_attributeValue (ht.2.retag rfl rfl rfl (fun _ => rfl) rfl)

theorem cleanly_attributesFrom {done : List Attribute} (rounds : Nat)
    (h : Covers source p s.spot (ns ++ Preorder.attributes done.reverse)) (hplain : ¬ AllPlain ns) :
    Cleanly (attributesFrom c done rounds) s fun o t =>
      ∃ as, o = some as ∧ Covers source p t.spot (ns ++ Preorder.attributes as) := by
  induction rounds generalizing done s with
  | zero => exact .outOfRounds
  | succ rounds ih =>
    unfold attributesFrom
    refine .atEnd (.ite (fun _ => .faulty h.tooDeep_eq) fun _ => .sees (.seesTagEnd ?_))
    refine .ite (fun _ => .pure ⟨_, rfl, h⟩) fun _ => ?_
    refine .bind (cleanly_tagAttribute h fun hall => hplain (allPlain_append.mp hall).1) ?_
    rintro o t ⟨a, rfl, ha⟩
    exact ih (by simpa [Preorder.attributes_eq_flatMap] using ha)

/-! ### Children -/

/-- The text between tags is a slot in its place. -/
theorem slotsIn_text {lo : Nat} {done : List Slot} (hs : s.spot.Sound source)
    (hdone : Children.SlotsIn lo s.current.offset done.reverse) :
    Children.SlotsIn lo s.advance.current.offset (textSlot s.current ++ done).reverse := by
  unfold textSlot
  split
  · exact hdone.mono (Nat.le_refl _) hs.offset_le_advance
  · rw [List.singleton_append, List.reverse_cons]
    exact hdone.snoc (Nat.le_refl _) (Nat.le_add_right _ _) nofun hs.stop_le_advance

/-- Reading a slot: it lies between where the reading starts and where it ends. -/
def ReadsSlot (source : Text) (s : State) (o : Option Slot) (t : State) : Prop :=
  t.spot.Sound source ∧ s.current.offset ≤ t.current.offset ∧
    ∀ slot ∈ o, s.current.offset ≤ slot.span.start ∧ slot.span.start ≤ slot.span.stop ∧
      Children.HoldsNode slot ∧ slot.span.stop ≤ t.current.offset

/-- Reading slots: they lie between an offset and where the reading ends. -/
def ReadsSlots (source : Text) (lo : Nat) (s : State) (o : Option (List Slot)) (t : State) : Prop :=
  t.spot.Sound source ∧ s.current.offset ≤ t.current.offset ∧
    ∀ ss ∈ o, Children.SlotsIn lo t.current.offset ss

/-- A brace that closes a child is one byte. -/
theorem stop_of_closeBrace (hs : s.spot.Sound source)
    (hkind : s.current.kind = .punct .closeBrace) : s.current.stop = s.current.offset + 1 := by
  have htext : s.current.text = Punct.closeBrace.spelling := hs.current.spelt _ hkind
  rw [Token.stop, htext]
  rfl

theorem cleanly_bracedChild (hs : s.spot.Sound source) :
    Cleanly (bracedChild c) s (ReadsSlot source s) := by
  have hopen := hs.advance
  have hle := hs.offset_le_advance
  refine .take (.token (.ite (fun hkind => ?_) fun _ => ?_))
  · have hpasses := State.passes_of_punct hopen.current hkind (by decide)
    have hstop := stop_of_closeBrace hopen hkind
    refine .bind (cleanly_advanceText hopen hpasses) fun _ t ht => .pure ?_
    obtain ⟨hsound, hoffset⟩ := ht
    have hle' : s.advance.current.stop ≤ t.current.offset := Nat.le_of_eq (by rw [hstop, hoffset])
    refine ⟨hsound, by omega, fun slot hslot => ?_⟩
    cases hslot
    exact ⟨Nat.le_refl _, by simp only [Slot.span]; omega, nofun, hle'⟩
  · have hstart : Covers source s.spot s.advance.spot [.expr .jsxExpression s.current.pos .none] :=
      ((Covers.refl hs).note rfl rfl rfl).leapOn (not_allPlain_cons rfl)
    refine hc.assignment.bracketed.bind hstart fun e u hu => .token (.ite (fun hkind => ?_) ?_)
    · have hpasses := State.passes_of_punct hu.sound.current hkind (by decide)
      have hstop := stop_of_closeBrace hu.sound hkind
      refine .bind (cleanly_advanceText hu.sound hpasses) fun _ t ht => .pure ?_
      obtain ⟨hsound, hoffset⟩ := ht
      have hle' : u.current.stop ≤ t.current.offset := Nat.le_of_eq (by rw [hstop, hoffset])
      have hnodes := hu.inOrder.mono (Nat.le_refl _) (Nat.le_add_right _ u.current.text.length)
      refine ⟨hsound, Nat.le_trans hnodes.le hle', fun slot hslot => ?_⟩
      cases hslot
      refine ⟨Nat.le_refl _, hnodes.le, fun span e' he => ?_, hle'⟩
      cases he
      exact hnodes
    · exact fun _ => .faulty hu.tooDeep_eq

theorem cleanly_elementChild (hs : s.spot.Sound source) :
    Cleanly (elementChild c) s (ReadsSlot source s) := by
  refine .token (.bind (hc.jsx true hs) fun e t ht => .ite (fun _ => .pure ?_) fun _ => ?_)
  · exact ⟨ht.sound, ht.inOrder.le, nofun⟩
  · refine .token (.pure ⟨ht.sound, ht.inOrder.le, fun slot hslot => ?_⟩)
    cases hslot
    refine ⟨Nat.le_refl _, ht.inOrder.le, fun span e' he => ?_, Nat.le_refl _⟩
    cases he
    exact ht.inOrder

theorem cleanly_slotsFrom {lo : Nat} {done : List Slot} (rounds : Nat) (hs : s.spot.Sound source)
    (hdone : Children.SlotsIn lo s.current.offset done.reverse) :
    Cleanly (slotsFrom c done rounds) s (ReadsSlots source lo s) := by
  induction rounds generalizing done s with
  | zero => exact .outOfRounds
  | succ rounds ih =>
    have htext := slotsIn_text hs hdone
    have hle := hs.offset_le_advance
    -- After a child, the slots go on behind it.
    have hchild {o : Option Slot} {t : State} (ht : ReadsSlot source s.advance o t) :
        Cleanly (slotsOn c (textSlot s.current ++ done) rounds o) t (ReadsSlots source lo s) := by
      obtain ⟨hsound, hle', hslot⟩ := ht
      cases o with
      | none => exact .pure ⟨hsound, Nat.le_trans hle hle', nofun⟩
      | some slot =>
        obtain ⟨hstart, hspan, hnode, hstop⟩ := hslot slot rfl
        have hdone := htext.snoc hstart hspan hnode hstop
        rw [← List.reverse_cons] at hdone
        refine (ih hsound hdone).mono fun _ u hu => ?_
        exact ⟨hu.1, Nat.le_trans hle (Nat.le_trans hle' hu.2.1), hu.2.2⟩
    unfold slotsFrom
    refine .take (.token ?_)
    split
    · refine .pure ⟨hs.advance, hle, fun ss hss => ?_⟩
      cases hss
      exact htext
    · exact .bind (cleanly_elementChild hs.advance) fun _ _ => hchild
    · exact .bind (cleanly_bracedChild hs.advance) fun _ _ => hchild
    · exact .faulty hs.advance.tooDeep

/-- What stands between two tags lies between them. -/
theorem cleanly_slots (hs : s.spot.Sound source)
    (htag : s.current.startsWith Byte.greater = true) :
    Cleanly (slots c) s (ReadsSlots source s.current.offset s) := by
  refine .bind (cleanly_advanceText hs (State.passes_of_tagEnd htag)) ?_
  rintro _ t ⟨ht, hoffset⟩
  have hle : s.current.offset ≤ t.current.offset := hoffset ▸ Nat.le_add_right _ _
  have hnone : Children.SlotsIn s.current.offset t.current.offset [] := hle
  refine (cleanly_slotsFrom c.rounds ht hnone).mono fun _ u hu => ?_
  exact ⟨hu.1, Nat.le_trans hle hu.2.1, hu.2.2⟩

theorem inOrder_childrenOf {lo : Nat} {t : State} {ss : List Slot} (ht : t.spot.Sound source)
    (hss : Children.SlotsIn lo t.current.offset ss) :
    InOrder lo t.current.offset (exprs (childrenOf c ss)) := by
  unfold childrenOf
  rw [hc.lines_eq, hc.source_eq]
  exact Children.inOrder_ofSlots hss ht.current.pos.offset_le

/-! ### Tags -/

theorem cleanly_fragment (h : Covers source p s.spot [.expr .bad q .none])
    (htag : s.current.startsWith Byte.greater = true) :
    Yields source p (fragment c inChildren q) s expr := by
  have hplain : ¬ AllPlain [.expr .bad q .none] := not_allPlain_cons rfl
  refine .bind (cleanly_slots h.sound htag) fun o t ht => ?_
  obtain ⟨hsound, hle, hslots⟩ := ht
  cases o with
  | none => exact .pure (h.leap hplain hsound hle)
  | some ss =>
    have hnot : ¬ AllPlain ([.expr .jsxFragment q .none] ++ exprs (childrenOf c ss)) :=
      not_allPlain_cons rfl
    have hfragment : Covers source p s.spot ([] ++ [.expr .jsxFragment q .none]) :=
      Covers.retag h rfl rfl rfl nofun rfl
    have hchildren := hfragment.leapTo hnot hsound (inOrder_childrenOf hsound (hslots ss rfl))
    have hend := hchildren.leapOn hnot
    refine .advance (.seesTagEnd (.ite (fun htag => ?_) fun _ => .faulty hend.tooDeep_eq))
    refine .bind (cleanly_leaveTag hend.sound (State.passes_of_tagEnd htag)) fun _ u hu => ?_
    exact .pure (hend.leap hnot hu.1 hu.2)

omit hc in
/-- A closing tag that is right is left at its end. -/
theorem cleanly_closingTag (h : Covers source p s.spot ns) (hplain : ¬ AllPlain ns) :
    Cleanly (closingTag c name) s fun b t => b = true ∧
      t.current.startsWith Byte.greater = true ∧ Covers source p t.spot ns := by
  refine .advance (.token (.bind (cleanly_jsxName (h.leapOn hplain) hplain) fun o t ht => ?_))
  cases o with
  | none => exact absurd rfl ht.1
  | some closing =>
    refine .ite (fun _ => .faulty ht.2.tooDeep_eq) fun _ => .seesTagEnd (.ite (fun htag => ?_) ?_)
    · exact .pure ⟨rfl, htag, ht.2⟩
    · exact fun _ => .faulty ht.2.tooDeep_eq

theorem cleanly_elementRest {as : List Attribute}
    (h : Covers source p s.spot ([.expr .bad q .none] ++ Preorder.attributes as))
    (htag : s.current.kind = .punct .selfClose ∨ s.current.startsWith Byte.greater = true) :
    Yields source p (elementRest c inChildren q name as) s expr := by
  have hplain : ¬ AllPlain ([.expr .bad q .none] ++ Preorder.attributes as) :=
    not_allPlain_cons rfl
  have hnot (ms : List Node) :
      ¬ AllPlain ([.expr .jsxElement q .none] ++ Preorder.attributes as ++ ms) :=
    not_allPlain_cons rfl
  have helement : Covers source p s.spot
      ([] ++ .expr .jsxElement q .none :: Preorder.attributes as) :=
    Covers.retag h rfl rfl rfl nofun rfl
  refine .ifSees (fun hclose => ?_) fun hopen => ?_
  · have hpasses := State.passes_of_punct h.sound.current hclose (by decide)
    refine .bind (cleanly_leaveTag h.sound hpasses) fun _ t ht => .pure ?_
    have hlast := helement.leap (by simpa using hnot []) ht.1 ht.2
    simpa [Preorder.expr, Preorder.exprs] using hlast
  · refine .bind (cleanly_slots h.sound (htag.resolve_left hopen)) fun o t ht => ?_
    obtain ⟨hsound, hle, hslots⟩ := ht
    cases o with
    | none =>
      refine .pure ((h.leap hplain hsound hle).settle ?_ fun hall => ?_)
      · exact (List.sublist_append_left _ _).filterMap _
      · exact absurd hall (not_allPlain_cons rfl)
    | some ss =>
      have hchildren := helement.leapTo (hnot _) hsound (inOrder_childrenOf (c := c) hsound (hslots ss rfl))
      refine .bind (cleanly_closingTag hchildren (hnot _)) ?_
      rintro _ u ⟨rfl, hend, hu⟩
      refine .bind (cleanly_leaveTag hu.sound (State.passes_of_tagEnd hend)) fun _ v hv => ?_
      exact .pure (hu.leap (hnot _) hv.1 hv.2)

theorem cleanly_element (h : Covers source p s.spot [.expr .bad q .none]) :
    Yields source p (element c inChildren q) s expr := by
  have hplain : ¬ AllPlain [.expr .bad q .none] := not_allPlain_cons rfl
  refine .bind (cleanly_jsxName h hplain) fun o t ht => ?_
  cases o with
  | none => exact absurd rfl ht.1
  | some name =>
    have hattributes : Cleanly (attributesFrom c [] c.rounds) t fun o u => ∃ as, o = some as ∧
        Covers source p u.spot ([.expr .bad q .none] ++ Preorder.attributes as) :=
      cleanly_attributesFrom c.rounds ht.2 hplain
    refine .bind (hattributes.along always_attributesFrom) ?_
    rintro _ u ⟨⟨as, rfl, hu⟩, hend⟩
    exact cleanly_elementRest hu (hend rfl).2

theorem gathers_jsx (inChildren : Bool) : Gathers source (jsx c inChildren) expr := by
  refine .nested fun s hs => ?_
  have hstart : Covers source s.spot s.advance.spot [.expr .bad s.current.pos .none] :=
    ((Covers.refl hs).note rfl rfl rfl).leapOn (not_allPlain_cons rfl)
  refine .take (.seesTagEnd (.ite (fun htag => ?_) fun _ => ?_))
  · exact cleanly_fragment hstart htag
  · exact cleanly_element hstart

/-! ## 8. Templates -/

/-- The expression of a hole lies in it, and the reader stays where it is. -/
theorem cleanly_hole {h : Template.Hole} (hpos : h.pos.IsIn source) :
    Cleanly (hole c h) s fun o t =>
      t = s ∧ ∀ e ∈ o, InOrder h.span.start h.span.stop (expr e) := by
  intro o t hrun ht
  obtain ⟨rfl, hread⟩ := hole_clean hrun ht
  refine ⟨rfl, fun e he => ?_⟩
  obtain ⟨u, hinner, hclean, hstop⟩ := hread e he
  rw [hc.source_eq] at hinner
  have hstart := sound_advance (s := { cursor := Cursor.place source h.pos })
    (Cursor.isIn_place hpos) rfl
  have hread := hc.assignment (s := { State.start (Cursor.place source h.pos) with
    nesting := 1, depth := t.depth }) hstart hinner hclean
  refine hread.inOrder.mono ?_ (Nat.le_of_eq hstop)
  have hcurrent : (State.start (Cursor.place source h.pos)).current =
      (Cursor.place source h.pos).next.token := State.advance_current _
  change h.pos.offset ≤ (State.start (Cursor.place source h.pos)).current.offset
  rw [hcurrent]
  exact (Cursor.place source h.pos).next_offset.1

theorem cleanly_holeExpr {h : Template.Hole} (hdeep : s.tooDeep = false)
    (hpos : h.pos.IsIn source) :
    Cleanly (Template.holeExpr (hole c) report h) s fun e t =>
      t = s ∧ InOrder h.span.start h.span.stop (expr e) := by
  unfold Template.holeExpr
  have hfound {o : Option Expr} {t : State}
      (ho : t = s ∧ ∀ e ∈ o, InOrder h.span.start h.span.stop (expr e)) :
      Cleanly (Template.foundIn report h o) t fun e t =>
        t = s ∧ InOrder h.span.start h.span.stop (expr e) := by
    obtain ⟨rfl, hin⟩ := ho
    cases o with
    | none => exact .faulty hdeep
    | some e => exact .pure ⟨rfl, hin e rfl⟩
  refine .ite (fun _ => .bind (.pure ⟨rfl, nofun⟩) fun _ _ => hfound) fun _ => ?_
  exact .bind (cleanly_hole hpos) fun _ _ => hfound

theorem cleanly_holes {t : Token} {holes : List Template.Hole} {lo hi : Nat}
    (hdeep : s.tooDeep = false) (hpos : ∀ h ∈ holes, h.pos.IsIn source)
    (hholes : Template.HolesIn t.text t.pos lo hi holes) :
    Cleanly (holes.mapM (Template.holeExpr (hole c) report)) s fun es t =>
      t = s ∧ InOrder lo hi (exprs es) := by
  induction holes generalizing lo with
  | nil => exact .pure ⟨rfl, .nil hholes⟩
  | cons h holes ih =>
    obtain ⟨hfirst, hrest⟩ := List.forall_mem_cons.mp hpos
    rw [List.mapM_cons]
    refine .bind (cleanly_holeExpr hdeep hfirst) ?_
    rintro e t ⟨rfl, he⟩
    refine .bind (ih hrest hholes.2.2.2) ?_
    rintro es u ⟨rfl, hes⟩
    exact .pure ⟨rfl, (he.mono hholes.1 (Nat.le_refl _)).append hes⟩

/-- The literal parts of a template have no positions. -/
theorem placesOf_template (quasis : List Quasi) (es : List Expr) :
    (placesOf (Preorder.template quasis es)).Sublist (placesOf (exprs es)) := by
  induction es generalizing quasis with
  | nil =>
    have hnone : placesOf (quasis.map .quasi) = [] := by
      simp [placesOf, List.filterMap_map, Node.place?, Node.offset?, Node.pos?]
    cases quasis <;> simp only [Preorder.template, hnone, exprs] <;> exact List.nil_sublist _
  | cons e es ih =>
    cases quasis with
    | nil => exact List.nil_sublist _
    | cons q quasis =>
      have hquasi : placesOf (.quasi q :: (expr e ++ Preorder.template quasis es)) =
          placesOf (expr e) ++ placesOf (Preorder.template quasis es) :=
        List.filterMap_append
      rw [Preorder.template, Preorder.exprs, hquasi, placesOf_append]
      exact (List.Sublist.refl _).append (ih quasis)

/-- The parts of a template lie in its token. -/
theorem cleanly_templateParts {t : Token} (hdeep : s.tooDeep = false) (ht : t.IsIn source) :
    Cleanly (templateParts c t) s fun r u =>
      u = s ∧ InOrder t.offset t.stop (Preorder.template r.1 r.2) := by
  have hpos (h : Template.Hole) (hh : h ∈ (Template.split t.pos t.text).holes) :
      h.pos.IsIn source := (Template.isIn_holes ht h hh).pos
  refine .bind (cleanly_holes hdeep hpos (Template.parts_split t.pos t.text).2) ?_
  rintro es u ⟨rfl, hes⟩
  have hes := hes.mono (Nat.le_refl _) (Nat.add_le_add_left (Template.bodyEnd_le t.text) _)
  exact .pure ⟨rfl, hes.sublist (placesOf_template _ es)⟩

/-- A template and its parts. -/
theorem cleanly_template (h : Covers source p s.spot ns) :
    Cleanly (templateParts c s.current) s.advance fun r t => Covers source p t.spot
      (ns ++ .expr .template s.current.pos .none :: Preorder.template r.1 r.2) := by
  have hnote := h.note (n := .expr .template s.current.pos .none) rfl rfl rfl
  refine (cleanly_templateParts h.sound.advance.tooDeep h.sound.current).mono ?_
  rintro r t ⟨rfl, hr⟩
  have hnot : ¬ AllPlain (ns ++ [.expr .template s.current.pos .none] ++
      Preorder.template r.1 r.2) :=
    not_allPlain_of_mem (n := .expr .template s.current.pos .none) (by simp) rfl
  simpa using hnote.leapTo hnot h.sound.advance (hr.mono (Nat.le_refl _) h.sound.stop_le_advance)

/-! ## 9. Expressions -/

theorem gathers_elementOrSpread : Gathers source (elementOrSpread c) expr := by
  intro s hs
  have hspread := (Covers.refl hs).note (n := .expr .spread s.current.pos .none) rfl rfl rfl
  refine .token (hspread.ifAccept nofun (fun hdots => ?_) (hc.assignment hs))
  exact hc.assignment.bind hdots fun e t ht => .pure ht

theorem gathers_elements (close : Punct) : Gathers source (elements c close) exprs := by
  intro s hs
  have hlist : Gathers source (parts c (.punct close) (.more <$> elementOrSpread c))
      (·.flatMap expr) := gathers_parts c gathers_elementOrSpread.more
  refine .bind (hlist.bracketed hs) fun es t ht => ?_
  dsimp only at ht
  rw [← Preorder.exprs_eq_flatMap] at ht
  exact ht.expect nofun fun h => .pure h

theorem cleanly_arrayLiteral (hs : s.spot.Sound source)
    (hkind : s.current.kind = .punct .openBracket) :
    Yields source s.spot (arrayLiteral c) s expr := by
  have harray := (Covers.refl hs).note (n := .expr .array s.current.pos .none) rfl rfl rfl
  have hopen := harray.skip hkind nofun
  exact .take ((gathers_elements _).bind hopen fun es t ht => .pure ht)

theorem cleanly_computedProperty (h : Covers source p s.spot [.property q]) :
    Yields source p (computedProperty c q) s Preorder.property := by
  refine .sees ((hc.assignment.readIf _).bind h fun key t ht => ?_)
  refine ht.expect nofun fun hkey => ?_
  have hvalue {u : State} (hu : Covers source p u.spot ([.property q] ++ expr? key)) (wanted : Bool) :
      Cleanly (do return .computed q key (← readIf wanted c.inner.assignment)) u
        fun a t => Covers source p t.spot (Preorder.property a) := by
    refine (hc.assignment.readIf wanted).bind hu fun value v hv => .pure ?_
    simpa [Preorder.property] using hv
  exact .accept (fun hcolon => hvalue (hkey.skip hcolon nofun) true) fun _ => hvalue hkey false

/-- The key of a property that is a string or a number. -/
theorem cleanly_literalProperty (hs : s.spot.Sound source)
    (hkind : s.current.kind = .string ∨ s.current.kind = .number) :
    Yields source s.spot (literalProperty c s.current.pos) s Preorder.property := by
  have hne : s.current.kind ≠ .identifier := by rcases hkind with h | h <;> simp [h]
  have hproperty := (Covers.refl hs).note (n := .property s.current.pos) rfl rfl rfl
  have hkey : Covers source s.spot s.advance.spot ([.property s.current.pos] ++
      expr (if s.current.kind = .string then stringOf s.current
        else .number s.current.pos (NumberLiteral.ofText s.current.text))) := by
    split <;> exact hproperty.pass rfl (Token.names_of_ne hne).symm rfl
  refine .take (hkey.expect nofun fun hcolon => ?_)
  refine hc.assignment.bind hcolon fun value t ht => .pure ?_
  simpa [Preorder.property] using ht

theorem cleanly_wordProperty (hs : s.spot.Sound source)
    (hkind : s.current.kind.isPropertyName = true) :
    Yields source s.spot (wordProperty c s.current.pos) s (Part.nodes Preorder.property) := by
  have hkey := ((Covers.refl hs).note (n := .property s.current.pos) rfl rfl rfl).passWord hkind
  refine .take (hkey.ifAccept nofun (fun hcolon => ?_) (.ite (fun _ => ?_) fun _ => .pure hkey))
  · exact hc.assignment.bind hcolon fun value t ht => .pure ht
  · exact .faulty hkey.tooDeep_eq

theorem gathers_property : Gathers source (property c) (Part.nodes Preorder.property) := by
  intro s hs
  have hproperty := (Covers.refl hs).note (n := .property s.current.pos) rfl rfl rfl
  refine .token (hproperty.ifAccept nofun (fun hdots => ?_) (hproperty.ifAccept nofun (fun hopen =>
    .bind (cleanly_computedProperty hopen) fun a t ht => .pure ht) (.token ?_)))
  · exact hc.assignment.bind hdots fun value t ht => .pure ht
  · refine .ite (fun hkind => ?_) fun _ => .ite (cleanly_wordProperty hs) fun _ =>
      .faulty hs.tooDeep
    exact .bind (cleanly_literalProperty hs (by simpa using hkind)) fun a t ht => .pure ht

theorem cleanly_objectLiteral (hs : s.spot.Sound source)
    (hkind : s.current.kind = .punct .openBrace) :
    Yields source s.spot (objectLiteral c) s expr := by
  have hobject := (Covers.refl hs).note (n := .expr .object s.current.pos .none) rfl rfl rfl
  refine cleanly_listed gathers_property (by decide) (fun as => ?_) (hobject.skip hkind nofun)
  simp [Preorder.expr, Preorder.properties_eq_flatMap]

theorem cleanly_parenthesized (hs : s.spot.Sound source)
    (hkind : s.current.kind = .punct .openParen) :
    Yields source s.spot (parenthesized c) s expr := by
  have hopen := (Covers.refl hs).skip hkind nofun
  refine .advance (hc.assignment.bracketed.bind hopen fun e t ht => ?_)
  exact ht.expect nofun fun h => .pure h

theorem gathers_primary : Gathers source (primary c) expr := by
  intro s hs
  have hstart := Covers.refl hs
  refine .token ?_
  split
  · exact .take (.pure (hstart.passWord (‹s.current.kind = _› ▸ rfl)))
  iterate 2 exact .take (.pure ((hstart.note rfl rfl rfl).skip ‹_› (by decide)))
  · exact .take (.bind (cleanly_template hstart) fun r t ht => .pure ht)
  iterate 3 exact .advance (.pure ((hstart.note rfl rfl rfl).skip ‹_› (by decide)))
  · exact cleanly_arrayLiteral hs ‹_›
  · exact cleanly_objectLiteral hs ‹_›
  · exact cleanly_parenthesized hs ‹_›
  · exact gathers_jsx false hs
  · exact .faulty hs.tooDeep

/-! ### Chains -/

section
variable {e : Expr} {optional : Bool}

theorem cleanly_memberName (h : Covers source p s.spot (expr e)) :
    Yields source p (memberName e optional) s expr := by
  refine .token (.ite (fun hkind => .take (.pure ?_)) fun _ => .faulty h.tooDeep_eq)
  exact (h.passWord hkind).wrap rfl rfl rfl

theorem cleanly_call (h : Covers source p s.spot (expr e))
    (hkind : s.current.kind = .punct .openParen) :
    Yields source p (call c e optional) s expr :=
  .advance ((gathers_elements _).bind (h.skip hkind nofun) fun _ _ ht =>
    .pure (ht.wrap rfl rfl rfl))

theorem cleanly_optionalLink (h : Covers source p s.spot (expr e)) :
    Yields source p (optionalLink c e) s expr := by
  refine .ifSees (fun hkind => cleanly_call h hkind) fun _ =>
    h.ifAccept nofun (fun hopen => ?_) (cleanly_memberName h)
  refine hc.assignment.bracketed.bind hopen fun property t ht => ?_
  exact ht.expect nofun fun h => .pure (h.wrap rfl rfl rfl)

theorem extends_indexOrSliceInside : Extends source (indexOrSliceInside c) := by
  intro p s e h
  refine h.ifAccept nofun (fun hdots => .sees ?_) ?_
  · refine (hc.assignment.readIf _).bind hdots fun stop t ht => .pure ?_
    simpa [Preorder.expr, Preorder.expr?] using ht.wrap (n := .expr .slice e.pos .none) rfl rfl rfl
  · refine hc.assignment.bind h fun start t ht => ht.ifAccept nofun (fun hdots => .sees ?_) ?_
    · refine (hc.assignment.readIf _).bind hdots fun stop u hu => .pure ?_
      have hslice := (List.append_assoc _ _ _ ▸ hu).wrap (n := .expr .slice e.pos .none) rfl rfl rfl
      simpa [Preorder.expr, Preorder.expr?] using hslice
    · exact .pure (ht.wrap rfl rfl rfl)

theorem cleanly_indexOrSlice (h : Covers source p s.spot (expr e))
    (hkind : s.current.kind = .punct .openBracket) :
    Yields source p (indexOrSlice c e) s expr := by
  refine .advance (.bind (extends_indexOrSliceInside.bracketed (h.skip hkind nofun)) fun e' t ht => ?_)
  exact ht.expect nofun fun h => .pure h

theorem cleanly_taggedTemplate (h : Covers source p s.spot (expr e)) :
    Yields source p (taggedTemplate c e) s expr :=
  .take (.bind (cleanly_template h) fun _ _ ht => .pure (ht.wrap rfl rfl rfl))

theorem cleanly_chainOn (h : Covers source p s.spot (expr e)) :
    Yields source p (chainOn c optional e) s expr :=
  .ite (fun _ => .pure h) fun _ => .deeper h.tooDeep_eq (hc.chainRest optional h)

end

theorem extends_chainRest (optional : Bool) : Extends source (chainRest c optional) := by
  intro p s e h
  have hlink {e' : Expr} {optional : Bool} {t : State} (ht : Covers source p t.spot (expr e')) :
      Yields source p (chainOn c optional e') t expr :=
    cleanly_chainOn ht
  refine h.ifAccept nofun (fun hdot => ?_) (h.ifAccept nofun (fun hdot => ?_) (.token ?_))
  · exact .bind (cleanly_memberName hdot) fun _ _ => hlink
  · exact .bind (cleanly_optionalLink hdot) fun _ _ => hlink
  · refine .ite (fun _ => .pure h) fun _ => ?_
    unfold linkOn
    split
    · exact .bind (cleanly_indexOrSlice h ‹_›) fun _ _ => hlink
    · exact .bind (cleanly_call h ‹_›) fun _ _ => hlink
    · refine .ite (fun _ => .faulty h.tooDeep_eq) fun _ => ?_
      exact .bind (cleanly_taggedTemplate h) fun _ _ => hlink
    · exact .pure h

theorem gathers_chain : Gathers source (chain c) expr := by
  intro s hs
  refine .bind (gathers_primary hs) fun e t ht => .ite (fun _ => .pure ht) fun _ => ?_
  exact .restoringDepth (extends_chainRest false ht)

/-! ### Operators -/

/-- What a table of tokens holds is none that it does not hold. -/
theorem kind_ne_of_table {τ : Type} {table : Kind → Option τ} {k l : Kind} {v : τ}
    (hl : table l = none) (h : table k = some v) : k ≠ l := by
  rintro rfl
  rw [hl] at h
  cases h

theorem kind_ne_of_operator {least : Nat} {op : BinaryOp} (h : s.operator? least = some op) :
    s.current.kind ≠ .identifier := by
  intro hkind
  rw [State.operator?, hkind] at h
  cases h

theorem gathers_postfixed : Gathers source (postfixed c) expr := by
  intro s hs
  refine .bind (r := .token fun e t => by split <;> infer_instance)
    (gathers_chain hs) fun e t ht => .token ?_
  split
  · rename_i op hop
    refine .ite (fun _ => .pure ht) fun _ => .advance (.pure ?_)
    have hupdate :=
      (List.append_nil (expr e) ▸ ht).wrap (n := .expr .update e.pos .none) rfl rfl rfl
    simpa [Preorder.expr] using hupdate.skip rfl (kind_ne_of_table rfl hop)
  · exact .pure ht

theorem gathers_unary : Gathers source (unary c) expr := by
  intro s hs
  -- One level deeper the spot is the same.
  have hsign {n : Node} (hn : n.offset? = some s.current.offset) (hname : n.name? = none)
      (hword : n.isWord = false) (hkind : s.current.kind ≠ .identifier) :
      Covers source s.spot (State.advance { s with depth := s.depth + 1 }).spot ([] ++ [n]) :=
    Covers.pass (s := { s with depth := s.depth + 1 }) (Covers.refl hs) hn
      (hname ▸ (Token.names_of_ne hkind).symm) hword
  refine .token ?_
  split
  · have hunary := hsign (n := .expr .unary _ .none) rfl rfl rfl (kind_ne_of_table rfl ‹_›)
    exact .nested hs.tooDeep (.advance (hc.unary.bind hunary fun _ _ ht => .pure ht))
  · have hupdate := hsign (n := .expr .update _ .none) rfl rfl rfl (kind_ne_of_table rfl ‹_›)
    exact .nested hs.tooDeep (.advance (hc.unary.bind hupdate fun _ _ ht => .pure ht))
  · exact gathers_postfixed hs

theorem extends_binaryRest (least : Nat) : Extends source (binaryRest c least) := by
  intro p s left h
  refine .get ?_
  split
  · exact .pure h
  · rename_i op hop
    -- One level deeper the spot is the same.
    have hsign : Covers source p (State.advance { s with depth := s.depth + 1 }).spot (expr left) :=
      Covers.skip (s := { s with depth := s.depth + 1 }) h rfl (kind_ne_of_operator hop)
    refine .deeper h.tooDeep_eq (.advance ((hc.binary _).bind hsign fun right t ht => ?_))
    exact hc.binaryRest least (ht.wrap rfl (by cases op <;> rfl) (by cases op <;> rfl))

theorem gathers_binary (least : Nat) : Gathers source (binary c least) expr := fun _ hs =>
  .bind (gathers_unary hs) fun _ _ ht => .restoringDepth (extends_binaryRest least ht)

theorem gathers_conditional : Gathers source (conditional c) expr := by
  intro s hs
  refine .bind (gathers_binary 1 hs) fun test t ht => .sees (.canContinue ?_)
  refine .ite (fun hquestion => .advance ?_) fun _ => .pure ht
  have hkind : t.current.kind = .punct .question := by
    simp only [Bool.and_eq_true, State.sees, decide_eq_true_eq] at hquestion
    exact hquestion.1
  refine hc.assignment.bind (ht.skip hkind (by decide)) fun yes u hu => ?_
  refine hu.expect (by decide) fun hcolon => hc.assignment.bind hcolon fun no v hv => .pure ?_
  have hwhole :=
    (List.append_assoc _ _ _ ▸ hv).wrap (n := .expr .conditional test.pos .none) rfl rfl rfl
  simpa [Preorder.expr] using hwhole

/-! ### Assignments -/

/-- The tree of an assignment has one node before those of its target and its value. -/
theorem covers_assignment {sign : AssignSign} {signPos : Position} {target value e : Expr}
    (h : Covers source p s.spot (expr target ++ expr value))
    (he : Check.assignment? sign signPos target value = .ok e) :
    Covers source p s.spot (expr e) := by
  unfold Check.assignment? at he
  split at he <;> cases he
  case h_12 q =>
    refine h.settle ((List.sublist_append_left _ _).filterMap _) fun hplain => ?_
    exact absurd hplain (not_allPlain_cons rfl)
  all_goals exact h.wrap rfl rfl rfl

theorem cleanly_assigned {sign : AssignSign} {target : Expr}
    (h : Covers source p s.spot (expr target))
    (hsign : AssignSign.ofKind? s.current.kind = some sign) :
    Yields source p (assigned c sign target) s expr := by
  have hvalue := h.skip rfl (kind_ne_of_table rfl hsign)
  refine .take (.bind (r := ⟨fun value => by split <;> infer_instance⟩)
    (hc.assignment.after hvalue) fun value t ht => ?_)
  split
  · exact .pure (covers_assignment ht ‹_›)
  · exact .faulty ht.tooDeep_eq

theorem cleanly_destructuring (hs : s.spot.Sound source) (hkind : s.current.kind ≠ .identifier) :
    Yields source s.spot (destructuring c) s expr := by
  refine .bind (r := .token fun target t => by split <;> infer_instance)
    (hc.pattern hs hkind) fun target t ht => .token ?_
  split
  · exact cleanly_assigned ht ‹_›
  · exact .faulty ht.tooDeep_eq

theorem gathers_plainAssignment : Gathers source (plainAssignment c) expr := by
  intro s hs
  refine .bind (r := .token fun left t => by split <;> infer_instance)
    (gathers_conditional hs) fun left t ht => .token ?_
  split
  · exact .canContinue (.ite (fun _ => cleanly_assigned ht ‹_›) fun _ => .pure ht)
  · exact .pure ht

theorem gathers_assignment : Gathers source (assignment c) expr := by
  refine .nested fun s hs => .get (.ite (fun hsees => ?_) fun _ => .ite (fun _ => ?_) fun _ => ?_)
  · refine cleanly_destructuring hs fun hkind => ?_
    simp [State.seesDestructuring, State.sees, hkind] at hsees
  · exact gathers_arrow hs
  · exact gathers_plainAssignment hs

end

/-! ## 10. All levels -/

instance Context.ground_gathers (source : Text) (rounds : Nat) :
    (Context.ground source rounds).Gathers source where
  adds := inferInstance
  source_eq := rfl
  lines_eq := rfl
  assignment := gathers_badHere
  binary _ := gathers_badHere
  binaryRest _ _ _ _ h := .pure h
  unary := gathers_badHere
  chainRest _ _ _ _ h := .pure h
  block _ := gathers_emptyBlock
  pattern _ hs _ := gathers_badHere hs
  jsx _ := gathers_badHere

instance Context.raised_gathers (c : Context) [hc : c.Gathers source] (n : Nat) :
    (c.raised n).Gathers source := by
  induction n with
  | zero => exact hc
  | succ n ih =>
    exact ⟨raised_moves, hc.source_eq, hc.lines_eq, gathers_assignment, gathers_binary,
      extends_binaryRest, gathers_unary, extends_chainRest, gathers_block, fun _ => gathers_pattern,
      gathers_jsx⟩

/-- **The routines of a source gather the nodes of what they read.** -/
instance Context.ofSource_gathers (source : Text) (rounds : Nat) :
    (Context.ofSource source rounds).Gathers source :=
  raised_gathers _ levels

/-- A single expression ends at the end of the source. -/
theorem gathers_wholeExpression {c : Context} [hc : c.Gathers source]
    (hs : s.spot.Sound source) : Cleanly (wholeExpression c) s fun e t =>
      Covers source s.spot t.spot (expr e) ∧ t.current.kind = .eof := by
  refine .modify (.bind (hc.assignment (s := { s with nesting := 1 }) hs) fun e t ht => ?_)
  refine .atEnd (.get (.ite (fun _ => .faulty ht.tooDeep_eq) fun hend => ?_))
  intro a u hrun hclean
  cases hrun
  refine ⟨ht, ?_⟩
  simpa [hclean, State.atEnd] using hend

end ReactiveScript.Grammar
