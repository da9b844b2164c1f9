import ReactiveScript.Proofs.Grammar.Levels
import ReactiveScript.Proofs.Grammar.Bounds
import ReactiveScript.Proofs.Grammar.StartsLine

/-!
# Readings that lay out statements

Every block that a clean run builds is laid out as it should be. The list of statements in it was
read by a reader that never stood behind text between tags, so that the marks it went by are those
of lines. And each element and fragment, at whatever depth, is what a run of `jsx` has given, from a
state that a reader of the source can come to: what is to be said of all elements in all trees is to
be said of the runs of one routine. The keys of properties, unless they are computed, are single
tokens.

A child of an element is read up to the text behind it, and only a fault can keep the reader from
that. Beyond the depth limit there are no faults any more, so what is said here of a level of the
grammar is said of states so deep that this level is left to them. The levels that are left also
bound how deep the tree can be.
-/

namespace ReactiveScript.Grammar

-- The instance of a routine is as large as the routine.
set_option synthInstance.maxSize 20000

/-- A run of the routine for elements and fragments, at some level and from a state that a reader of
    the source can come to, has given this expression. -/
def ReadAsMarkup (source : Text) (e : Expr) : Prop :=
  ∃ (c : Context) (inChildren : Bool) (s t : State),
    c.Level source ∧ s.Reached source ∧ jsx c inChildren s = .ok (e, t)

/-- The block of a piece is laid out as it should be, and a piece that is an element or a fragment
    was read as such. -/
abbrev MadeFrom (source : Text) : Piece → Prop := Piece.Made (LaidOut source) (ReadAsMarkup source)

/-- So it is with all pieces in a piece, which has so many levels. -/
abbrev BuiltFrom (source : Text) (k : Nat) : Piece → Prop :=
  Piece.Built (LaidOut source) (ReadAsMarkup source) k

/-- So it is with all pieces of a tree. -/
abbrev AllBuilt (source : Text) (k : Nat) {α : Type} [HasPieces α] : α → Prop :=
  HasPieces.All (BuiltFrom source k)

/-- A tree of which this is known. -/
abbrev Grown (source : Text) (k : Nat) {α : Type} [HasPieces α] (a : α) : Prop :=
  AllPieces (BuiltFrom source k) a

/-- With so many levels left to it, a clean run from a fit state ends in one, at least as deep, and
    its value is as wanted. -/
def LaysTo (source : Text) (n : Nat) {α : Type} (x : Reading α) (G : α → Prop) : Prop :=
  ∀ ⦃s : State⦄, s.Fit source → levels ≤ s.depth + n → Cleanly x s fun a t =>
    t.Fit source ∧ s.depth ≤ t.depth ∧ G a

/-- A clean run lays out all blocks of its value, which has so many levels. -/
class Lays (source : Text) (n k : Nat) {α : Type} [HasPieces α] (x : Reading α) : Prop where
  cleanly : LaysTo source n x (AllBuilt source k)

/-- Its value is an expression that passes a test. -/
class LaysSuch (source : Text) (n k : Nat) (test : outParam (Expr → Bool)) (x : Reading Expr) :
    Prop where
  cleanly : LaysTo source n x fun e => test e = true ∧ AllBuilt source k e

/-! ## 1. Ways to put routines together -/

namespace LaysTo
variable {source : Text} {n : Nat} {α β : Type} {x y : Reading α} {f : α → Reading β}
  {F : α → Prop} {G : β → Prop}

theorem mono {F' : α → Prop} (h : LaysTo source n x F) (hF : ∀ a, F a → F' a) :
    LaysTo source n x F' :=
  fun _ hs hn => (h hs hn).mono fun _ _ ht => ⟨ht.1, ht.2.1, hF _ ht.2.2⟩

theorem pure {a : α} (ha : F a) : LaysTo source n (Pure.pure a) F :=
  fun _ hs _ => .pure ⟨hs, Nat.le_refl _, ha⟩

theorem bind [AddsAll f] (hx : LaysTo source n x F) (hf : ∀ a, F a → LaysTo source n (f a) G) :
    LaysTo source n (x >>= f) G := by
  refine fun s hs hn => .bind (hx hs hn) fun a t ht => ?_
  obtain ⟨hfit, hdepth, ha⟩ := ht
  refine (hf a ha hfit (by omega)).mono fun b u hu => ?_
  exact ⟨hu.1, Nat.le_trans hdepth hu.2.1, hu.2.2⟩

/-- A routine of which nothing is wanted, and then another. -/
theorem seq [HasPieces α] [AddsAll f] [hx : Lays source n 0 x] (hf : ∀ a, LaysTo source n (f a) G) :
    LaysTo source n (x >>= f) G :=
  .bind hx.cleanly fun a _ => hf a

theorem ite {b : Prop} [Decidable b] (hx : LaysTo source n x F) (hy : LaysTo source n y F) :
    LaysTo source n (if b then x else y) F := by
  split
  · exact hx
  · exact hy

theorem outOfRounds : LaysTo source n (Grammar.outOfRounds : Reading α) F :=
  fun _ _ _ => .outOfRounds

/-- A fault, of which no run is clean. -/
theorem fault [Faulty x] : LaysTo source n x F := fun _ hs _ => .fault hs.tooDeep

theorem faulty [AddsAll f] [Faulty x] : LaysTo source n (x >>= f) G :=
  .bind fault fun _ => False.elim

/-- A token that is wanted is there. -/
theorem expect {k : Kind} {f : Bool → Reading β} [AddsAll f] (h : LaysTo source n (f true) G) :
    LaysTo source n (Grammar.expect k >>= f) G := by
  refine fun s hs hn => .expect hs.tooDeep fun _ => ?_
  rw [← s.advance_depth] at hn ⊢
  exact h hs.advance hn

theorem expectToken {k : Kind} {f : Option Token → Reading β} [AddsAll f]
    (h : ∀ t, LaysTo source n (f (some t)) G) : LaysTo source n (Grammar.expectToken k >>= f) G := by
  refine fun s hs hn => .expectToken hs.tooDeep fun _ => ?_
  rw [← s.advance_depth] at hn ⊢
  exact h s.current hs.advance hn

/-- Where reports would be made, there are none to make. -/
theorem reportAll {rs : List Report} {f : Unit → Reading β} [AddsAll f]
    (h : rs = [] → LaysTo source n (f ()) G) : LaysTo source n (Grammar.reportAll rs >>= f) G :=
  fun _ hs hn => .reportAll fun hnil => h hnil hs hn

theorem mapM {f : β → Reading α} [∀ b, Adds (f b)] {bs : List β}
    (h : ∀ b ∈ bs, LaysTo source n (f b) F) :
    LaysTo source n (bs.mapM f) fun as => as.length = bs.length ∧ ∀ a ∈ as, F a := by
  induction bs with
  | nil => exact .pure ⟨rfl, nofun⟩
  | cons b bs ih =>
    obtain ⟨hfirst, hrest⟩ := List.forall_mem_cons.mp h
    rw [List.mapM_cons]
    refine .bind hfirst fun a ha => .bind (ih hrest) fun as has => .pure ?_
    exact ⟨congrArg (· + 1) has.1, List.forall_mem_cons.mpr ⟨ha, has.2⟩⟩

theorem bracketed (hx : LaysTo source n x F) : LaysTo source n (bracketed x) F :=
  fun s hs hn => .bracketed ((hx (hs.recount (s.nesting + 1) s.braceBlocks) hn).mono
    fun _ _ ht => ⟨ht.1.recount _ _, ht.2⟩)

theorem outsideBrackets (hx : LaysTo source n x F) : LaysTo source n (outsideBrackets x) F :=
  fun s hs hn => .outsideBrackets ((hx (hs.recount 0 s.braceBlocks) hn).mono
    fun _ _ ht => ⟨ht.1.recount _ _, ht.2⟩)

theorem insideBraces (hx : LaysTo source n x F) : LaysTo source n (insideBraces x) F :=
  fun s hs hn => .insideBraces ((hx (hs.recount s.nesting (s.braceBlocks + 1)) hn).mono
    fun _ _ ht => ⟨ht.1.recount _ _, ht.2⟩)

theorem restoringDepth (hx : LaysTo source n x F) : LaysTo source n (restoringDepth x) F :=
  fun _ hs hn => .restoringDepth ((hx hs hn).mono fun _ _ ht =>
    ⟨ht.1.redepth hs.depth_le, Nat.le_refl _, ht.2.2⟩)

/-- One level deeper there is one level less, and a clean run comes there only if there are some. -/
theorem deeper [Adds x] [Adds y] (hx : 1 < n → LaysTo source n x F) :
    LaysTo source (n + 1) (deeper y x) F := by
  refine fun s hs hn => .deeper_of_lt hs.tooDeep fun hlt => ?_
  have hlevels : levels ≤ s.depth + 1 + n := by omega
  have hmore : 1 < n := by unfold levels at hn; omega
  refine (hx hmore (hs.redepth hlt) hlevels).mono fun a t ht => ?_
  exact ⟨ht.1, Nat.le_trans (Nat.le_succ _) ht.2.1, ht.2.2⟩

theorem nested [Adds x] [Adds y] (hx : 1 < n → LaysTo source n x F) :
    LaysTo source (n + 1) (nested y x) F := (deeper hx).restoringDepth

end LaysTo

section
variable {source : Text} {n k : Nat} {α β : Type} [HasPieces α] [HasPieces β] {x : Reading α}
  {f : α → Reading β}

instance lays_pure {a : α} [ha : Grown source k a] :
    Lays source n k (pure a : Reading α) :=
  ⟨.pure ha.all⟩

instance lays_bind [hx : Lays source n k x] [AddsAll f]
    [hf : ∀ a : WithPieces (BuiltFrom source k) α, Lays source n k (f a)] :
    Lays source n k (x >>= f) :=
  ⟨.bind hx.cleanly fun a ha => (hf ⟨a, ha⟩).cleanly⟩

/-- What is put together with a level around is made of what has a level less. -/
instance [hx : Lays source n k x] [AddsAll f]
    [hf : ∀ a : WithPieces (BuiltFrom source k) α, Lays source n (k + 1) (f a)] :
    Lays source n (k + 1) (x >>= f) :=
  ⟨.bind hx.cleanly fun a ha => (hf ⟨a, ha⟩).cleanly⟩

instance {test : Expr → Bool} {x : Reading Expr} [hx : LaysSuch source n k test x] :
    Lays source n k x := ⟨hx.cleanly.mono fun _ => And.right⟩

instance {test : Expr → Bool} {x : Reading Expr} [hx : LaysSuch source n k test x]
    {f : Expr → Reading β} [AddsAll f]
    [hf : ∀ e : Passing (BuiltFrom source k) test, Lays source n k (f e)] :
    Lays source n k (x >>= f) := ⟨.bind hx.cleanly fun e he => (hf ⟨e, he⟩).cleanly⟩

/-- Where what follows goes by cases, the instance is found case by case. -/
theorem Lays.seq (hx : Lays source n k x) [AddsAll f]
    (hf : ∀ a, Grown source k a → Lays source n k (f a)) :
    Lays source n k (x >>= f) := by
  have hf' (a : WithPieces (BuiltFrom source k) α) : Lays source n k (f a) := hf a inferInstance
  exact lays_bind

/-- What goes by cases on the token. -/
theorem Lays.token {f : Token → Reading β} (hf : ∀ t, Lays source n k (f t)) :
    Lays source n k (Grammar.token >>= f) :=
  ⟨fun s hs hn => .token ((hf s.current).cleanly hs hn)⟩

/-- What goes by cases on the token behind a value. -/
theorem Lays.seqToken (hx : Lays source n k x) {f : α → Token → Reading β}
    (hadds : ∀ a t, Adds (f a t))
    (hf : ∀ a, Grown source k a → ∀ t, Lays source n k (f a t)) :
    Lays source n k (x >>= fun a => Grammar.token >>= f a) :=
  have : AddsAll fun a => Grammar.token >>= f a := .token hadds
  .seq hx fun a ha => .token (hf a ha)

instance [Lays source n k x] {f : α → β}
    [∀ a : WithPieces (BuiltFrom source k) α, Grown source k (f a)] :
    Lays source n k (f <$> x) := by
  rw [map_eq_pure_bind]
  infer_instance

instance lays_ite {b : Prop} [Decidable b] [Lays source n k x] {y : Reading α} [Lays source n k y] :
    Lays source n k (if b then x else y) := by
  split <;> infer_instance

instance : Lays source n k (get : Reading State) :=
  ⟨fun _ hs _ => .get (.pure ⟨hs, Nat.le_refl _, trivial⟩)⟩

/-- A change of the state that leaves it fit. -/
theorem lays_modify {f : State → State}
    (h : ∀ s, s.Fit source → (f s).Fit source ∧ s.depth ≤ (f s).depth) :
    Lays source n k (modify f : Reading Unit) :=
  ⟨fun _ hs _ => .modify (.pure ⟨(h _ hs).1, (h _ hs).2, trivial⟩)⟩

instance lays_outOfRounds : Lays source n k (outOfRounds : Reading α) := ⟨.outOfRounds⟩

instance {wanted : Bool} [Lays source n k x] : Lays source n k (readIf wanted x) := by
  unfold readIf
  infer_instance

theorem lays_of_faulty [Faulty x] : Lays source n k x := ⟨.fault⟩

/-- An expression of fewer levels. -/
theorem Lays.mono {x : Reading Expr} {j : Nat} (hx : Lays source n j x) (h : j ≤ k) :
    Lays source n k x :=
  ⟨hx.cleanly.mono fun _ he => Piece.Built.mono he h⟩

end

/-! ## 2. Operations on the state -/

section
variable {source : Text} {n k : Nat} {kind : Kind}

instance : Lays source n k token := by unfold token; infer_instance

instance : Lays source n k (sees kind) := by unfold sees; infer_instance

instance : Lays source n k atEnd := by unfold atEnd; infer_instance

instance {word : Text} : Lays source n k (seesWord word) := by
  unfold seesWord; infer_instance

instance : Lays source n k canContinue := by unfold canContinue; infer_instance

instance : Lays source n k advance :=
  lays_modify fun s hs => ⟨hs.advance, Nat.le_of_eq s.advance_depth.symm⟩

instance : Lays source n k take := by unfold take; infer_instance

instance : Lays source n k (accept kind) := by unfold accept; infer_instance

instance {f : ParseFault} : Lays source n k (fault f) := lays_of_faulty

instance {w : Wanted} : Lays source n k (expected w) := lays_of_faulty

instance : Lays source n k (expect kind) := by unfold expect; infer_instance

instance : Lays source n k (expectToken kind) := by
  unfold expectToken; infer_instance

instance {word : Text} : Lays source n k (expectWord word) := by
  unfold expectWord; infer_instance

/-- What follows a fault is not looked at. -/
instance {α β : Type} [HasPieces β] {x : Reading α} [Faulty x] {f : α → Reading β} [AddsAll f] :
    Lays source n k (x >>= f) := ⟨.faulty⟩

section
variable {α : Type} [HasPieces α] {x : Reading α}

instance [hx : Lays source n k x] : Lays source n k (bracketed x) :=
  ⟨hx.cleanly.bracketed⟩

instance [hx : Lays source n k x] : Lays source n k (restoringDepth x) :=
  ⟨hx.cleanly.restoringDepth⟩

instance {y : Reading α} [Adds x] [Adds y] [hx : Lays source n k x] :
    Lays source (n + 1) k (deeper y x) := ⟨.deeper fun _ => hx.cleanly⟩

instance {y : Reading α} [Adds x] [Adds y] [Lays source n k x] :
    Lays source (n + 1) k (nested y x) := by
  unfold nested; infer_instance

end

instance {α : Type} [HasPieces α] {close : Kind} {part : Reading (Part α)}
    [Adds part] [Lays source n k part] {done : List α} [Grown source k done]
    {rounds : Nat} : Lays source n k (partsFrom close part done rounds) := by
  induction rounds generalizing done with
  | zero => exact lays_outOfRounds
  | succ rounds ih =>
    unfold partsFrom
    refine .seq inferInstance fun _ _ => .seq inferInstance fun _ _ => ?_
    refine @lays_ite _ _ _ _ _ _ _ _ _ _ (.seq inferInstance fun p hp => ?_)
    cases p with
    | none => infer_instance
    | last a =>
      have ha : Grown source k a := ⟨hp.all⟩
      infer_instance
    | more a =>
      have ha : Grown source k a := ⟨hp.all⟩
      infer_instance

instance {α : Type} [HasPieces α] {c : Context} {close : Kind}
    {part : Reading (Part α)} [Adds part] [Lays source n k part] :
    Lays source n k (parts c close part) := by
  unfold parts; infer_instance

end

/-! ## 3. Routines of the grammar -/

/-- The routines of the level below lay out blocks, and what they give has as many levels as there is
    room for. Those that go deeper at once can do with one level less. A child that is an element
    ends in text. -/
structure Context.LaysAt (source : Text) (n : Nat) (c : Context) : Prop where
  assignment : ∀ k [Room n k], Grammar.Lays source (n + 1) k c.inner.assignment
  binary : ∀ least, Grammar.Lays source n (most (n - 1)) (c.inner.binary least)
  binaryRest : ∀ least left k [Grown source k left], most (n - 2) ≤ k →
    Grammar.Lays source n (k + (n - 2)) (c.inner.binaryRest least left)
  unary : Grammar.Lays source n (most (n - 2) + (n - 2)) c.inner.unary
  chainRest : ∀ optional e k [Grown source k e], most (n - 2) ≤ k →
    Grammar.Lays source n (k + (n - 2)) (c.inner.chainRest optional e)
  block : ∀ header k [Room n k], Grammar.Lays source (n + 1) k (c.inner.block header)
  pattern : ∀ k [Room n k], LaysSuch source (n + 1) k Expr.isPattern c.inner.pattern
  child : ∀ {s : State} k [Room n k], s.Going source → s.HoldsToken → levels ≤ s.depth + (n + 1) →
    Cleanly (c.inner.jsx true) s fun e t => e.isBad = false ∧ t.InText source ∧
      s.depth ≤ t.depth ∧ AllBuilt source k e

/-- The context is one of the source, and so it is with so many levels left, or fewer. -/
class Context.Lays (source : semiOutParam Text) (n : semiOutParam Nat) (c : Context) : Prop where
  level : c.Level source
  below : ∀ m ≤ n, c.LaysAt source m

namespace Context.Lays
variable {source : Text} {n k : Nat} {c : Context} [h : c.Lays source n]
include h

theorem source_eq : c.source = source := h.level.inSteps.source_eq

theorem here : c.LaysAt source n := h.below n (Nat.le_refl n)

theorem mono {m : Nat} (hm : m ≤ n) : c.Lays source m :=
  ⟨h.level, fun i hi => h.below i (Nat.le_trans hi hm)⟩

instance adds : c.Adds := by
  obtain ⟨rounds, m, rfl⟩ := h.level
  infer_instance

end Context.Lays

section
variable {source : Text} {n k : Nat} {c : Context} [hc : c.Lays source n] [Room n k]
  {header : Nat} {s : State} {p : Position}

instance lays_innerAssignment : Lays source (n + 1) k c.inner.assignment := hc.here.assignment k

instance : Lays source (n + 1) k (c.inner.block header) :=
  hc.here.block header k

instance : LaysSuch source (n + 1) k Expr.isPattern c.inner.pattern := hc.here.pattern k

/-! ### Patterns -/

instance : Lays source (n + 1) k (default? c) := by unfold default?; infer_instance

instance : Lays source n k seesPattern := by unfold seesPattern; infer_instance

instance : LaysSuch source (n + 1) k Expr.isBindable (bindingTarget c) := by
  refine ⟨.seq fun _ => .ite ((hc.here.pattern k).cleanly.mono fun e he => ⟨?_, he.2⟩) (.seq fun _ =>
    .ite (.seq fun t => .pure ⟨rfl, allPieces_identifierOf.all⟩) .faulty)⟩
  rw [Expr.isBindable, he.1, Bool.or_true]

instance : Lays source (n + 1) k (patternElement c) := by
  unfold patternElement; infer_instance

omit hc [Room n k] in
/-- A list in brackets, of which nothing is reported. -/
theorem lays_listed {α : Type} [HasPieces α] {part : Reading (Part α)} [Adds part]
    [hpart : Lays source (n + 1) k part] {close : Kind} {check : List α → List Report}
    {make : Position → List α → Expr} {G : Expr → Prop}
    (h : ∀ p as, Grown source k as → check as = [] → G (make p as)) :
    LaysTo source (n + 1) (do
      let p := (← take).pos
      let as ← bracketed (parts c close part)
      let _ ← expect close
      reportAll (check as)
      return make p as) G := by
  have hparts : Lays source (n + 1) k (bracketed (parts c close part)) := inferInstance
  refine .seq fun t => .bind hparts.cleanly fun as has => .expect (.reportAll fun hnil => ?_)
  exact .pure (h t.pos as ⟨has⟩ hnil)

theorem lays_arrayPattern : LaysTo source (n + 1) (arrayPattern c) fun e =>
    e.isPattern = true ∧ AllBuilt source (k + 1) e := by
  refine lays_listed (k := k) fun p es _ hnil => ⟨rfl, ?_⟩
  have hrest : IsTrue (restStandsLast PatternElement.isRest es) :=
    ⟨WellFormed.restStandsLast_of_restLast WellFormed.isRest_patternElement hnil⟩
  exact allPieces_arrayPattern.all

section
variable {p : Position}

/-- The property for the name behind `...`. -/
instance lays_restProperty : Lays source n k (do match ← expectToken .identifier with
    | none => return .none
    | some t => return .more (.rest p (identifierOf t)) : Reading (Part PatternProperty)) :=
  .seq inferInstance fun o _ => by split <;> infer_instance

end

instance : Lays source (n + 1) k (patternProperty c) := by
  unfold patternProperty namedProperty keyedProperty; infer_instance

theorem lays_objectPattern : LaysTo source (n + 1) (objectPattern c) fun e =>
    e.isPattern = true ∧ AllBuilt source (k + 1) e := by
  refine lays_listed (k := k) fun p ps _ hnil => ⟨rfl, ?_⟩
  have hrest : IsTrue (restStandsLast PatternProperty.isRest ps) :=
    ⟨WellFormed.restStandsLast_of_restLast WellFormed.isRest_patternProperty hnil⟩
  exact allPieces_objectPattern.all

omit [Room n k] in
theorem lays_pattern [hroom : Room (n + 1) k] :
    LaysSuch source (n + 2) k Expr.isPattern (pattern c) := by
  refine ⟨.nested fun hn => ?_⟩
  obtain ⟨j, rfl⟩ := Nat.exists_eq_add_one.mpr (hroom.pos (by omega))
  have hbelow : Room n j := hroom.pred
  exact .seq fun _ => .ite lays_arrayPattern lays_objectPattern

/-! ### Statements -/

instance : Lays source n k endStatement := by unfold endStatement; infer_instance

section
variable {p : Position} {m : Option Text}

instance : Lays source (n + 1) k (expressionStmt c m p) := by
  unfold expressionStmt; infer_instance

instance : Lays source (n + 1) k (returnStmt c m p) := by
  unfold returnStmt; infer_instance

instance : Lays source (n + 1) k (modifierStmt c) := by
  unfold modifierStmt; infer_instance

instance : Lays source n k exportSpecifier :=
  .seq inferInstance fun t _ => by split <;> infer_instance

instance : Lays source n k exportModifier := by
  unfold exportModifier; infer_instance

instance : Lays source (n + 1) k (exportDeclaration c p) := by
  unfold exportDeclaration
  refine .seq inferInstance fun t _ => .seq inferInstance fun m _ => .seq inferInstance fun e he =>
    .seq inferInstance fun _ _ => ?_
  split
  · infer_instance
  · rename_i hcond
    have hdeclares : IsTrue e.declares :=
      ⟨by simpa [Piece.Built.isBad_eq_false he.all] using hcond⟩
    infer_instance

instance : Lays source (n + 1) k (exportStmt c) := by
  unfold exportStmt exportList; infer_instance

instance : LaysSuch source n k Expr.isString importSource :=
  ⟨.seq fun _ => .expectToken fun _ => .seq fun _ => .pure ⟨rfl, allPieces_stringOf.all⟩⟩

instance : Lays source n k (importList c) := by
  unfold importList importSpecifier; infer_instance

instance : Lays source n k (importStmt c) := by
  unfold importStmt importAll importSome moreNames; infer_instance

end

instance lays_statement : Lays source (n + 1) k (statement c) :=
  .token fun t => by split <;> infer_instance

instance lays_checked : Lays source (n + 1) k (checked c) :=
  ⟨fun _ hs hn _ _ hrun ht => lays_statement.cleanly hs hn (checked_clean c hrun ht) ht⟩

/-! ### Lists of statements -/

section
variable {σ : Type} {l : Layout σ}

/-- **A list of statements is read as its layout says**, as long as nothing is reported: all stand on
    the one walk of the reader. -/
theorem lays_statementsFrom {origin : Cursor} (horigin : Origin source origin)
    {I : σ → List Token → List Stmt → Prop} (hl : l.Keeps source origin I) (rounds : Nat)
    {memory : σ} {done : List Stmt} [hdone : Grown source k done] {s : State}
    {ts : List Token} (hI : I memory (s.current :: ts) done) (hstands : s.Stands source origin ts)
    (hs : s.Fit source) (hn : levels ≤ s.depth + (n + 1)) :
    Cleanly (statementsFrom c l memory done rounds) s fun ss t => t.Fit source ∧
      s.depth ≤ t.depth ∧ AllBuilt source k ss ∧
      ∃ memory' us, t.Stands source origin us ∧ l.turn memory' t.current = .done ∧
        I memory' (t.current :: us) ss.reverse := by
  have hcontext := hc.level.inSteps
  have hinSteps : InSteps source (checked c) := inferInstance
  induction rounds generalizing memory done s ts with
  | zero => exact .outOfRounds
  | succ rounds ih =>
    unfold statementsFrom
    refine .token ?_
    split
    · rename_i hturn
      have hall : Grown source k done.reverse := inferInstance
      refine .pure ⟨hs, Nat.le_refl _, hall.all, memory, ts, hstands, hturn, ?_⟩
      rwa [List.reverse_reverse]
    · exact .faulty hs.tooDeep
    · rename_i hturn
      have hchecked := ((lays_checked (c := c) (k := k)).cleanly hs hn).along fun _ _ hrun =>
        And.intro (standsAt_checked hrun) (hinSteps.steps hrun)
      refine .bind hchecked fun st t ht => ?_
      obtain ⟨⟨hfit, hdepth, hst⟩, hpos, hsteps⟩ := ht
      obtain ⟨us, hus, hkept⟩ := hstands.steps horigin.isIn hsteps
      have hst : Grown source k st := ⟨hst⟩
      have hI' := hl.kept (hl.read hI hstands hs.previous hturn hpos) hkept
      exact (ih hI' hus hfit (by omega)).mono fun ss u hu =>
        ⟨hu.1, Nat.le_trans hdepth hu.2.1, hu.2.2⟩

/-- The statements of a block stand on the walk of their reader. -/
theorem laysTo_statements {I : Cursor → σ → List Token → List Stmt → Prop} {memory : σ}
    (hl : ∀ {origin}, Origin source origin → l.Keeps source origin (I origin))
    (hI : ∀ origin ts, I origin memory ts []) :
    LaysTo source (n + 1) (statements c l memory) fun ss => AllBuilt source k ss ∧
      ∃ origin ts memory', ReadOn source l memory origin ts ss ∧
        I origin memory' ts ss.reverse := by
  intro s hs hn ss t hrun hclean
  obtain ⟨origin, horigin, hsteps⟩ := hs.reached
  obtain ⟨ts, hstands, -⟩ := (State.stands_start source origin).steps horigin.isIn hsteps
  obtain ⟨hfit, hdepth, hall, memory', us, hus, -, hss⟩ :=
    lays_statementsFrom (k := k) horigin (hl horigin) c.rounds (hI _ _) hstands hs hn hrun hclean
  have hread : ReadOn source l memory origin (t.current :: us) ss :=
    ⟨c, s, t, us, hc.level, horigin, hsteps, hrun, hus, rfl⟩
  exact ⟨hfit, hdepth, hall, origin, _, memory', hread, hss⟩

end

/-- A program is read from its first token to the end. -/
theorem lays_toEnd {origin : Cursor} {ts : List Token} (horigin : Origin source origin)
    (hstands : s.Stands source origin ts) (hs : s.Fit source) (hn : levels ≤ s.depth + (n + 1)) :
    Cleanly (program c) s fun p t =>
      AllBuilt source k p ∧ ∃ us, t.Stands source origin us ∧
        t.current.kind = .eof ∧ Aligned origin (t.current :: us) p.body := by
  have hl := Layout.keeps_program horigin
  refine .token (.bind (lays_statementsFrom (k := k) horigin hl c.rounds nofun hstands hs hn) ?_)
  intro ss t ht
  obtain ⟨hfit, hdepth, hall, column, us, hus, hturn, hss⟩ := ht
  have hbody : Grown source k ss := ⟨hall⟩
  exact .pure ⟨allPieces_program.all, us, hus, Layout.program_done hturn, hss.aligned⟩

/-- **The statements of a program and all blocks in it are laid out.** -/
theorem lays_program {origin : Cursor} {ts : List Token} (horigin : Origin source origin)
    (hstands : s.Stands source origin ts) (hs : s.Fit source) (hn : levels ≤ s.depth + (n + 1)) :
    Cleanly (program c) s fun p t =>
      (∀ q, Within (.program p) q → ∀ block body, q.block? = some (block, body) →
        LaidOut source block body) ∧ ∃ us, t.Stands source origin us ∧
        t.current.kind = .eof ∧ Aligned origin (t.current :: us) p.body :=
  (lays_toEnd (k := most (n - 1)) horigin hstands hs hn).mono fun _ _ ht =>
    ⟨fun q hq => (ht.1.made q hq).block, ht.2⟩

omit hc [Room n k] in
/-- A brace stands in the source where its token does. -/
theorem getElem?_openBrace (hs : s.Fit source) (hkind : s.current.kind = .punct .openBrace) :
    source[s.current.pos.offset]? = some Byte.openBrace := by
  obtain ⟨origin, ts, horigin, hstands⟩ := hs.reached.stands
  have hin := hstands.isIn horigin.isIn
  have htext : s.current.text = [Byte.openBrace] := hin.spelt _ hkind
  have hholds : s.current.Holds s.current.offset :=
    ⟨Nat.le_refl _, by simp [Token.stop, Token.offset, htext]⟩
  have hget := hin.getElem?_eq hholds
  rw [Nat.sub_self, htext] at hget
  exact hget

/-- In braces the first statement may stand anywhere. -/
instance : Lays source (n + 1) k (braceBlock c) := by
  refine ⟨fun s hs hn => .token (.expect hs.tooDeep fun hkind => ?_)⟩
  have hstatements : LaysTo source (n + 1) (statements c .braces true) _ :=
    laysTo_statements (k := k) Layout.keeps_braces fun _ _ => ⟨fun _ => rfl, nofun, nofun⟩
  have hn' : levels ≤ s.advance.depth + (n + 1) := by rwa [s.advance_depth]
  refine .bind (hstatements.insideBraces.outsideBrackets hs.advance hn') fun ss t ht => ?_
  obtain ⟨hfit, hdepth, hall, origin, ts, first, hread, hss⟩ := ht
  have hlaid : LaidOut source s.current.pos ss := by
    refine ⟨origin, ts, .inl hread, ?_, fun _ => ?_, ?_⟩
    · exact fun st hst => hss.onToken st (List.mem_reverse.mpr hst)
    · have htail := hss.firstOfLine
      rw [List.dropLast_reverse] at htail
      exact fun st hst => htail st (List.mem_reverse.mpr hst)
    · exact fun hne => absurd (getElem?_openBrace hs hkind) hne
  refine .expect hfit.tooDeep fun _ => .pure ⟨hfit.advance, ?_, Block.all_of_blockIs hlaid hall⟩
  rwa [t.advance_depth, ← s.advance_depth]

instance : Lays source (n + 1) k (indentedBlock c header) := by
  refine ⟨fun s hs hn => .token (.ite (fun _ => .faulty hs.tooDeep) fun _ => ?_)⟩
  have hstatements : LaysTo source (n + 1) (statements c (.indented s.current.column) ()) _ :=
    laysTo_statements (k := k) Layout.keeps_indented fun _ _ => nofun
  refine .bind (hstatements.outsideBrackets hs hn) fun ss t ht => ?_
  obtain ⟨hfit, hdepth, hall, origin, ts, _, hread, hss⟩ := ht
  exact .pure ⟨hfit, hdepth, Block.all_of_blockIs (hss.aligned.laidOut hread) hall⟩

omit [Room n k] in
theorem lays_block [hroom : Room (n + 1) k] : Lays source (n + 2) k (block c header) := by
  have hbelow := hroom.below
  unfold block
  infer_instance

/-! ### Functions -/

instance : Lays source (n + 1) k (params c) := by unfold params param; infer_instance

section
variable {p : Position} {ps : List Param} [Grown source k ps]
  [IsTrue (restStandsLast Param.isRest ps)]

omit hc [Room n k] in
instance {b : Block} [hb : Grown source k b] : Grown source k (arrowOf p ps b) := by
  unfold arrowOf
  split
  · rename_i e he
    have hvalue := allPieces_of_soleValue hb he
    infer_instance
  · infer_instance

instance lays_arrowBody {header : Nat} : Lays source (n + 1) k (arrowBody c p ps header) := by
  unfold arrowBody; infer_instance

end

instance : Lays source (n + 1) k (arrow c) := by
  have hparams : Lays source (n + 1) k (params c) := inferInstance
  refine ⟨.seq fun _ => .bind hparams.cleanly fun ps hps => .seq fun _ => .expect ?_⟩
  by_cases hnil : Check.restLast Check.restParam? ps = []
  · have hps : Grown source k ps := ⟨hps⟩
    have hrest : IsTrue (restStandsLast Param.isRest ps) :=
      ⟨WellFormed.restStandsLast_of_restLast WellFormed.isRest_param hnil⟩
    exact .bind lays_arrowBody.cleanly fun e he => .reportAll fun _ => .pure he
  · exact fun _ _ _ => .bind (P := fun _ _ => True) (fun _ _ _ _ => trivial) fun _ _ _ =>
      .reportAll fun h => absurd h hnil

/-! ### Elements and fragments -/

/-- A clean run from a fit state finds something. -/
def Obtains (source : Text) (n k : Nat) {α : Type} [HasPieces α] (x : Reading (Option α)) : Prop :=
  LaysTo source n x fun o => ∃ a, o = some a ∧ AllBuilt source k a

omit hc [Room n k] in
theorem obtains_jsxNameRest {name : Text} (rounds : Nat) :
    Obtains source n k (jsxNameRest name rounds) := by
  induction rounds generalizing name with
  | zero => exact .outOfRounds
  | succ rounds ih =>
    unfold jsxNameRest
    refine .seq fun s => .ite (.seq fun sep => .seq fun t => .ite ?_ .faulty) ?_
    · exact .seq fun part => ih
    · exact .pure ⟨_, rfl, fun _ _ => trivial⟩

omit hc [Room n k] in
theorem obtains_jsxName : Obtains source n k (jsxName c) :=
  .seq fun _ => .ite (.seq fun _ => obtains_jsxNameRest c.rounds) .faulty

theorem obtains_bracedValue : Obtains source (n + 1) k (bracedValue c) :=
  .bind lays_innerAssignment.cleanly.bracketed fun e he => .expect (.pure ⟨e, rfl, he⟩)

/-- An attribute with a value in braces. -/
theorem obtains_attributeOf {f : Expr → Attribute}
    (hf : ∀ e, AllBuilt source k e → AllBuilt source k (f e)) :
    Obtains source (n + 1) k (do return (← bracedValue c).map f) := by
  refine .bind (obtains_bracedValue (k := k)) fun o ho => ?_
  obtain ⟨e, rfl, he⟩ := ho
  exact .pure ⟨f e, rfl, hf e he⟩

theorem obtains_spreadAttribute : Obtains source (n + 1) k (spreadAttribute c p) :=
  .expect (obtains_attributeOf fun _ he => List.forall_mem_singleton.mpr he)

theorem obtains_attributeValue {name : Text} :
    Obtains source (n + 1) k (attributeValue c p name) := by
  refine .seq fun _ => .ite (.pure ⟨_, rfl, nofun⟩) (.seq fun _ => .ite ?_ ?_)
  · exact .seq fun _ => .pure ⟨_, rfl, nofun⟩
  · refine .seq fun _ => .ite ?_ .faulty
    exact obtains_attributeOf fun _ he => List.forall_mem_singleton.mpr he

theorem obtains_namedAttribute : Obtains source (n + 1) k (namedAttribute c p) := by
  refine .bind (obtains_jsxName (k := k)) fun o ho => ?_
  obtain ⟨name, rfl, -⟩ := ho
  exact obtains_attributeValue

theorem obtains_tagAttribute : Obtains source (n + 1) k (tagAttribute c) :=
  .seq fun _ => .seq fun _ => .ite obtains_spreadAttribute obtains_namedAttribute

instance : Lays source n k seesTagEnd := by unfold seesTagEnd; infer_instance

theorem obtains_attributesFrom {done : List Attribute} (hdone : Grown source k done)
    (rounds : Nat) : Obtains source (n + 1) k (attributesFrom c done rounds) := by
  induction rounds generalizing done with
  | zero => exact .outOfRounds
  | succ rounds ih =>
    have hall : Grown source k done.reverse := inferInstance
    unfold attributesFrom
    refine .seq fun _ => .ite .faulty (.seq fun _ => .seq fun _ => .ite ?_ ?_)
    · exact .pure ⟨_, rfl, hall.all⟩
    · refine .bind (obtains_tagAttribute (k := k)) fun o ho => ?_
      obtain ⟨a, rfl, ha⟩ := ho
      have ha : Grown source k a := ⟨ha⟩
      exact ih inferInstance

section
variable {s : State}

/-- The reader behind the last tag of an element: in text if the element is a child. -/
structure State.Left (source : Text) (inChildren : Bool) (s : State) : Prop where
  inText : inChildren = true → s.InText source
  fit : inChildren = false → s.Fit source

section
omit hc
variable (hsource : c.source = source) (hs : s.Going source) {width : Nat} {token : Token}
  (hclose : s.current.Closes width token)
include hsource hs hclose

/-- Text is read from inside a token that closes something. -/
theorem inText_advanceText :
    Cleanly (advanceText c width) s fun _ t => t.InText source ∧ t.depth = s.depth := by
  refine .modify (.pure ?_)
  rw [hsource]
  exact ⟨⟨hs.steps (.single (.text hclose)) rfl rfl, rfl⟩, rfl⟩

theorem left_leaveTag (inChildren : Bool) :
    Cleanly (leaveTag c width inChildren) s fun _ t =>
      t.Left source inChildren ∧ t.depth = s.depth := by
  unfold leaveTag
  cases inChildren with
  | true =>
    exact (inText_advanceText hsource hs hclose).mono fun _ t ht => ⟨⟨fun _ => ht.1, nofun⟩, ht.2⟩
  | false =>
    refine .modify (.advanced ?_)
    rw [hsource]
    have hback : (s.reenter source width).advance.Going source :=
      hs.steps (.single (.back hclose)) (State.advance_tooDeep _) (State.advance_depth _)
    refine ⟨⟨nofun, fun _ => ⟨hback, State.holdsToken_advance _, ?_⟩⟩, State.advance_depth _⟩
    rw [State.advance_previous]
    exact hclose.kind_ne.1

end

section
variable (hn : levels ≤ s.depth + (n + 1))
include hn

/-- A child leads from one text to the next. -/
def LaysChild (source : Text) (k : Nat) (s : State) (o : Option Slot) (t : State) : Prop :=
  t.InText source ∧ s.depth ≤ t.depth ∧
    ∃ slot, o = some slot ∧ AllBuilt source k slot

theorem lays_bracedChild (hs : s.Going source) (hkind : s.HoldsToken) :
    Cleanly (bracedChild c) s (LaysChild source k s) := by
  have hopen := hs.fit_advance hkind
  have hdepth := s.advance_depth
  refine .take (.token (.ite (fun hclose => ?_) fun _ => ?_))
  · refine .bind (inText_advanceText hc.source_eq hopen.toGoing (.mark hclose)) fun _ t ht => ?_
    exact .pure ⟨ht.1, by omega, _, rfl, nofun⟩
  · have hvalue : Lays source (n + 1) k c.inner.assignment := lays_innerAssignment
    refine .bind (hvalue.cleanly.bracketed hopen (by omega)) fun e t ht => ?_
    obtain ⟨hfit, hle, he⟩ := ht
    refine .token (.ite (fun hclose => ?_) fun _ => .faulty hfit.tooDeep)
    refine .bind (inText_advanceText hc.source_eq hfit.toGoing (.mark hclose)) fun _ u hu => ?_
    have he : Grown source k e := ⟨he⟩
    have hslot : Grown source k (Expr.jsxExpression s.current.pos e) := inferInstance
    exact .pure ⟨hu.1, by omega, _, rfl, allPieces_nodeSlot.all⟩

theorem lays_elementChild (hs : s.Going source) (hkind : s.HoldsToken) :
    Cleanly (elementChild c) s (LaysChild source k s) := by
  refine .token (.bind (hc.here.child k hs hkind hn) fun e t ht => ?_)
  obtain ⟨hbad, htext, hle, he⟩ := ht
  have he : Grown source k e := ⟨he⟩
  rw [if_neg (by simp [hbad])]
  exact .token (.pure ⟨htext, hle, _, rfl, allPieces_nodeSlot.all⟩)

/-- Slots lead from a text up to a closing tag. -/
def LaysSlots (source : Text) (k : Nat) (s : State) (o : Option (List Slot)) (t : State) : Prop :=
  t.Going source ∧ t.HoldsToken ∧ s.depth ≤ t.depth ∧
    ∃ ss, o = some ss ∧ AllBuilt source k ss

omit hc hn in
theorem LaysSlots.after {t u : State} {o : Option (List Slot)} (h : LaysSlots source k t o u)
    (hle : s.depth ≤ t.depth) : LaysSlots source k s o u :=
  ⟨h.1, h.2.1, Nat.le_trans hle h.2.2.1, h.2.2.2⟩

theorem lays_slotsFrom {done : List Slot} (hdone : Grown source k done)
    (rounds : Nat) (hs : s.InText source) :
    Cleanly (slotsFrom c done rounds) s (LaysSlots source k s) := by
  induction rounds generalizing done s with
  | zero => exact .outOfRounds
  | succ rounds ih =>
    have hnext := hs.toGoing.advance
    have hkind := s.holdsToken_advance
    have hdepth := s.advance_depth
    have htext : Grown source k (textSlot s.current ++ done) := by
      unfold textSlot
      infer_instance
    -- After a child, the slots go on with the text behind it.
    have hchild {o : Option Slot} {t : State} (ht : LaysChild source k s.advance o t) :
        Cleanly (slotsOn c (textSlot s.current ++ done) rounds o) t (LaysSlots source k s) := by
      obtain ⟨hin, hle, slot, rfl, hslot⟩ := ht
      have hslot : Grown source k slot := ⟨hslot⟩
      exact (ih (by omega) inferInstance hin).mono fun _ _ hu => hu.after (by omega)
    unfold slotsFrom
    refine .take (.token ?_)
    split
    · have hall : Grown source k (textSlot s.current ++ done).reverse :=
        inferInstance
      exact .pure ⟨hnext, hkind, by omega, _, rfl, hall.all⟩
    · exact .bind (lays_elementChild (n := n) (by omega) hnext hkind) fun _ _ => hchild
    · exact .bind (lays_bracedChild (n := n) (by omega) hnext hkind) fun _ _ => hchild
    · exact .faulty hnext.tooDeep

/-- What stands between two tags. -/
theorem lays_slots (hs : s.Going source) (hkind : s.HoldsToken)
    (htag : s.current.startsWith Byte.greater = true) :
    Cleanly (slots c) s (LaysSlots source k s) := by
  refine .bind (inText_advanceText hc.source_eq hs (.tag hkind htag)) fun _ t ht => ?_
  exact (lays_slotsFrom (n := n) (by omega) inferInstance c.rounds ht.1).mono fun _ _ hu =>
    hu.after (by omega)

/-- An element is there, with its blocks laid out, and its last tag was left. -/
def LaysElement (source : Text) (k : Nat) (inChildren : Bool) (s : State) (e : Expr) (t : State) :
    Prop :=
  e.isMarkup = true ∧ e.isTidy = true ∧ t.Left source inChildren ∧ s.depth ≤ t.depth ∧
    AllBuilt source k e.parts

omit hc hn in
theorem LaysElement.after {inChildren : Bool} {t u : State} {e : Expr}
    (h : LaysElement source k inChildren t e u) (hle : s.depth ≤ t.depth) :
    LaysElement source k inChildren s e u :=
  ⟨h.1, h.2.1, h.2.2.1, Nat.le_trans hle h.2.2.2.1, h.2.2.2.2⟩

variable {inChildren : Bool} {p : Position}

theorem lays_fragment (hs : s.Fit source) (htag : s.current.startsWith Byte.greater = true) :
    Cleanly (fragment c inChildren p) s (LaysElement source k inChildren s) := by
  refine .bind (lays_slots (k := k) hn hs.toGoing hs.holdsToken htag) fun o t ht => ?_
  obtain ⟨hgoing, hkind, hle, ss, rfl, hss⟩ := ht
  have hend := hgoing.fit_advance hkind
  have hdepth := t.advance_depth
  refine .advance (.seesTagEnd (.ite (fun htag => ?_) fun _ => .faulty hend.tooDeep))
  refine .bind (left_leaveTag hc.source_eq hend.toGoing (.tag hend.holdsToken htag) inChildren) ?_
  intro _ u hu
  have hss : Grown source k ss := ⟨hss⟩
  have hchildren : Grown source k (childrenOf c ss) := Children.allPieces_ofSlots
  exact .pure ⟨rfl, rfl, hu.1, by omega, allPieces_ofExprs.all⟩

omit hc [Room n k] hn in
/-- A closing tag that is right is left at its end. -/
theorem lays_closingTag {name : Text} (hn : levels ≤ s.depth + n) (hs : s.Going source)
    (hkind : s.HoldsToken) : Cleanly (closingTag c name) s fun right t =>
      right = true ∧ t.Fit source ∧ s.depth ≤ t.depth ∧
        t.current.startsWith Byte.greater = true := by
  have hname : Obtains source n 0 (jsxName c) := obtains_jsxName
  have hdepth := s.advance_depth
  refine .advance (.token (.bind (hname (hs.fit_advance hkind) (by omega)) fun o t ht => ?_))
  obtain ⟨hfit, hle, closing, rfl, -⟩ := ht
  refine .ite (fun _ => .faulty hfit.tooDeep) fun _ => .seesTagEnd (.ite (fun htag => ?_) fun _ => ?_)
  · exact .pure ⟨rfl, hfit, by omega, htag⟩
  · exact .faulty hfit.tooDeep

theorem lays_elementRest {name : Text} {as : List Attribute}
    [has : Grown source k as] (hs : s.Fit source)
    (htag : s.current.kind = .punct .selfClose ∨ s.current.startsWith Byte.greater = true) :
    Cleanly (elementRest c inChildren p name as) s (LaysElement source k inChildren s) := by
  refine .ifSees (fun hclose => ?_) fun hopen => ?_
  · refine .bind (left_leaveTag hc.source_eq hs.toGoing (.mark hclose) inChildren) fun _ t ht => ?_
    exact .pure ⟨rfl, rfl, ht.1, by omega, allPieces_ofExprs.all⟩
  · refine .bind (lays_slots (k := k) hn hs.toGoing hs.holdsToken (htag.resolve_left hopen)) ?_
    intro o t ht
    obtain ⟨hgoing, hkind, hle, ss, rfl, hss⟩ := ht
    refine .bind (lays_closingTag (n := n + 1) (by omega) hgoing hkind) fun right u hu => ?_
    obtain ⟨rfl, hfit, hle', hend⟩ := hu
    refine .bind (left_leaveTag hc.source_eq hfit.toGoing (.tag hfit.holdsToken hend) inChildren) ?_
    intro _ v hv
    have hss : Grown source k ss := ⟨hss⟩
    have hchildren : Grown source k (childrenOf c ss) := Children.allPieces_ofSlots
    exact .pure ⟨rfl, rfl, hv.1, by omega, allPieces_ofExprs.all⟩

theorem lays_element (hs : s.Fit source) :
    Cleanly (element c inChildren p) s (LaysElement source k inChildren s) := by
  have hname : Obtains source (n + 1) 0 (jsxName c) := obtains_jsxName
  refine .bind (hname hs hn) fun o t ht => ?_
  obtain ⟨hfit, hle, name, rfl, -⟩ := ht
  have hattributes : Obtains source (n + 1) k (attributesFrom c [] c.rounds) :=
    obtains_attributesFrom inferInstance c.rounds
  refine .bind ((hattributes hfit (by omega)).along always_attributesFrom) fun o u hu => ?_
  obtain ⟨⟨hfit, hle', as, rfl, has⟩, hend⟩ := hu
  have has : Grown source k as := ⟨has⟩
  exact (lays_elementRest (n := n) (by omega) hfit (hend rfl).2).mono fun _ _ hv =>
    hv.after (by omega)

end

theorem lays_markup {inChildren : Bool} (hn : levels ≤ s.depth + (n + 2)) (hs : s.Going source)
    (hkind : s.HoldsToken) :
    Cleanly (jsx c inChildren) s fun e t => 0 < n ∧ LaysElement source k inChildren s e t := by
  have hadds : Adds (markup c inChildren) := inferInstance
  refine .restoringDepth (.deeper_of_lt hs.tooDeep fun hlt => ?_)
  have hfit : State.Fit source (State.advance { s with depth := s.depth + 1 }) :=
    State.Going.fit_advance (hs.redepth hlt) hkind
  have hdepth : (State.advance { s with depth := s.depth + 1 }).depth = s.depth + 1 :=
    State.advance_depth _
  have hpos : 0 < n := by unfold levels at hn; omega
  -- The reader comes back to its depth with what it has found.
  have hback {e : Expr} {t : State} (h : LaysElement source k inChildren
      (State.advance { s with depth := s.depth + 1 }) e t) :
      0 < n ∧ LaysElement source k inChildren s e { t with depth := s.depth } := by
    obtain ⟨hmarkup, htidy, hleft, _, he⟩ := h
    refine ⟨hpos, hmarkup, htidy, ⟨fun htrue => ?_, fun hfalse => ?_⟩, Nat.le_refl _, he⟩
    · exact ⟨(hleft.inText htrue).toGoing.redepth hs.depth_le, (hleft.inText htrue).kind_eq⟩
    · exact (hleft.fit hfalse).redepth hs.depth_le
  refine .take (.seesTagEnd (.ite (fun htag => ?_) fun _ => ?_))
  · exact (lays_fragment (n := n) (by omega) hfit htag).mono fun _ _ => hback
  · exact (lays_element (n := n) (by omega) hfit).mono fun _ _ => hback

omit [Room n k] in
/-- **An element or a fragment**, from a token that may stand behind text. -/
theorem lays_jsxFrom {inChildren : Bool} (hroom : Room (n + 1) k) (hn : levels ≤ s.depth + (n + 2))
    (hs : s.Going source) (hkind : s.HoldsToken) :
    Cleanly (jsx c inChildren) s fun e t => e.isBad = false ∧ t.Left source inChildren ∧
      s.depth ≤ t.depth ∧ AllBuilt source k e := by
  have hread : Always (jsx c inChildren) s fun e _ => ReadAsMarkup source e :=
    fun _ t hrun => ⟨c, inChildren, s, t, hc.level, hs.reached, hrun⟩
  have hbelow := hroom.pred
  refine ((lays_markup (k := k - 1) hn hs hkind).along hread).mono fun e t ht => ?_
  obtain ⟨⟨hpos, hmarkup, htidy, hleft, hle, hparts⟩, hread⟩ := ht
  have hnone : e.isBad = false ∧ e.isSound = true ∧ (Piece.expr e).block? = none ∧
      (Piece.expr e).keys = [] := by
    cases e <;> first | exact ⟨rfl, rfl, rfl, rfl⟩ | cases hmarkup
  have hmade : MadeFrom source (.expr e) := by
    refine ⟨hnone.2.1, fun _ _ heq => ?_, fun _ he _ => ?_, hnone.2.2.2 ▸ allLeaves_nil⟩
    · rw [hnone.2.2.1] at heq
      cases heq
    · cases he
      exact hread
  have hone := Bool.toNat_le (Piece.expr e).takesLevel
  have hk := hroom.pos hpos
  exact ⟨hnone.1, hleft, hle, (Piece.Built.of_parts hmade htidy hparts).mono (by omega)⟩

end

/-- An element goes a level deeper at once, which leaves one level less to it. -/
instance : Lays source (n + 1) k (jsx c false) := by
  refine ⟨fun s hs hn => ?_⟩
  cases n with
  | zero =>
    have hdepth := hs.depth_le
    unfold levels at hn
    omega
  | succ n =>
    have hbelow := hc.mono (Nat.le_succ n)
    refine (lays_jsxFrom (k := k) inferInstance hn hs.toGoing hs.holdsToken).mono fun e t ht => ?_
    exact ⟨ht.2.1.fit rfl, ht.2.2⟩

/-! ### Templates -/

section
variable {u : State} (hu : u.Reached source)
include hu

/-- A hole of a token that a reader holds is read by a reader of its own. -/
theorem lays_hole {h : Template.Hole}
    (hh : h ∈ (Template.split u.current.pos u.current.text).holes) :
    LaysTo source (n + 1) (hole c h) (AllBuilt source k) := by
  intro s hs hn o t hrun ht
  obtain ⟨rfl, hread⟩ := hole_clean hrun ht
  refine ⟨hs, Nat.le_refl _, fun e he => ?_⟩
  obtain ⟨v, hinner, hclean, -⟩ := hread e he
  rw [hc.source_eq] at hinner
  have hstart := State.fit_start hs.depth_le (hu.hole hh 1 t.depth)
  exact (lays_innerAssignment.cleanly hstart hn hinner hclean).2.2

theorem lays_holeExpr {h : Template.Hole}
    (hh : h ∈ (Template.split u.current.pos u.current.text).holes) :
    LaysTo source (n + 1) (Template.holeExpr (hole c) report h)
      (AllBuilt source k) := by
  have hfound (o : Option Expr) (ho : AllBuilt source k o) :
      LaysTo source (n + 1) (Template.foundIn report h o) (AllBuilt source k) := by
    cases o with
    | none => exact .faulty
    | some e => exact .pure (ho e rfl)
  unfold Template.holeExpr
  refine .ite (.bind (.pure nofun) hfound) (.bind (lays_hole hu hh) hfound)

/-- The template that a reader has held. -/
theorem lays_templateParts : LaysTo source (n + 1) (templateParts c u.current) fun p =>
    p.1.length = p.2.length + 1 ∧ AllBuilt source k p.2 := by
  unfold templateParts Template.parts
  refine .bind (.mapM fun h hh => lays_holeExpr hu hh) fun es hes => .pure ⟨?_, hes.2⟩
  rw [List.length_map, hes.1]
  exact (Template.parts_split _ _).1

end

/-- A template is read once its token has been taken. -/
theorem lays_template {β : Type} [HasPieces β] {j : Nat}
    {f : Token → List Quasi × List Expr → Reading β} [∀ t, AddsAll (f t)]
    (hf : ∀ t quasis es, Grown source k es →
      IsTrue (decide (quasis.length = es.length + 1)) → Lays source (n + 1) j (f t (quasis, es))) :
    Lays source (n + 1) j (take >>= fun t => templateParts c t >>= f t) := by
  refine ⟨fun s hs hn => .take ?_⟩
  rw [← s.advance_depth] at hn ⊢
  have hrest : LaysTo source (n + 1) (templateParts c s.current >>= f s.current)
      (AllBuilt source j) :=
    .bind (lays_templateParts hs.reached) fun p hp =>
      (hf s.current p.1 p.2 ⟨hp.2⟩ ⟨decide_eq_true hp.1⟩).cleanly
  exact hrest hs.advance hn

/-! ### Expressions -/

instance {close : Punct} : Lays source (n + 1) k (elements c close) := by
  unfold elements elementOrSpread; infer_instance

instance : Lays source (n + 1) k (arrayLiteral c) := by
  unfold arrayLiteral; infer_instance

instance : Lays source (n + 1) k (property c) := by
  unfold property computedProperty literalProperty wordProperty; infer_instance

instance : Lays source (n + 1) k (objectLiteral c) := by
  refine ⟨lays_listed (k := k) fun p ps _ hnil => ?_⟩
  have hsound : IsTrue (ps.all Property.isSound) := ⟨WellFormed.all_isSound hnil⟩
  exact allPieces_expr.all

instance : Lays source (n + 1) k (parenthesized c) := by
  unfold parenthesized; infer_instance

instance lays_primary : Lays source (n + 1) k (primary c) := by
  have htemplate (p : Position) : Lays source (n + 1) k (do
      let (quasis, es) ← templateParts c (← take)
      return Expr.template p quasis es) := lays_template (k := k) fun _ _ _ _ _ => inferInstance
  exact .token fun t => by split <;> infer_instance

section
variable {e : Expr} [Grown source k e] {optional : Bool}

instance lays_memberName : Lays source n (k + 1) (memberName e optional) := by
  unfold memberName; infer_instance

instance lays_call : Lays source (n + 1) (k + 1) (call c e optional) := by unfold call; infer_instance

instance lays_optionalLink : Lays source (n + 1) (k + 1) (optionalLink c e) := by
  unfold optionalLink; infer_instance

instance lays_indexOrSlice : Lays source (n + 1) (k + 1) (indexOrSlice c e) := by
  unfold indexOrSlice indexOrSliceInside; infer_instance

instance lays_taggedTemplate : Lays source (n + 1) (k + 1) (taggedTemplate c e) :=
  lays_template (k := k) fun _ _ _ _ _ => inferInstance

end

/-! ### Chains and operators -/

section
omit [Room n k]
variable (hk : most (n - 1) ≤ k) {optional : Bool} {e : Expr}
include hk

/-- Each link is a level deeper than the one before it. -/
theorem lays_chainOn (he : AllBuilt source (k + 1) e) :
    LaysTo source (n + 1) (chainOn c optional e)
      (AllBuilt source (k + (n - 1))) := by
  have he : Grown source (k + 1) e := ⟨he⟩
  have heq : most (n - 1) = most (n - 2) + 2 * (n - 2) := most_eq (n - 1)
  unfold chainOn
  split
  · rename_i hbad
    exact absurd hbad (ne_true_of_eq_false (Piece.Built.isBad_eq_false he.all))
  · refine .deeper fun hn => ?_
    refine (hc.here.chainRest optional e (k + 1) (by omega)).cleanly.mono fun e he => ?_
    exact Piece.Built.mono he (by omega)

theorem lays_chainRest [he : Grown source k e] :
    Lays source (n + 1) (k + (n - 1)) (chainRest c optional e) := by
  have hroom : Room n k := .of_le hk
  have hstop : LaysTo source (n + 1) (pure e) (AllBuilt source (k + (n - 1))) :=
    .pure (Piece.Built.mono he.all (Nat.le_add_right _ _))
  have hon (optional : Bool) (e' : Expr) (he' : AllBuilt source (k + 1) e') :
      LaysTo source (n + 1) (chainOn c optional e')
        (AllBuilt source (k + (n - 1))) :=
    lays_chainOn hk he'
  refine ⟨?_⟩
  unfold chainRest
  refine .seq fun _ => .ite (.bind lays_memberName.cleanly (hon _)) (.seq fun _ => .ite ?_ ?_)
  · exact .bind lays_optionalLink.cleanly (hon _)
  · refine .seq fun t => .ite hstop ?_
    unfold linkOn
    split
    · exact .bind lays_indexOrSlice.cleanly (hon _)
    · exact .bind lays_call.cleanly (hon _)
    · exact .ite .faulty (.bind lays_taggedTemplate.cleanly (hon _))
    · exact hstop

/-- Each operator is a level deeper than the one before it, and so is its right operand. -/
theorem lays_binaryRest {least : Nat} [he : Grown source k e] :
    Lays source (n + 1) (k + (n - 1)) (binaryRest c least e) := by
  have heq : most (n - 1) = most (n - 2) + 2 * (n - 2) := most_eq (n - 1)
  refine ⟨fun s hs hn => .get ?_⟩
  split
  · have hall : AllBuilt source (k + (n - 1)) e := Piece.Built.mono he.all (Nat.le_add_right _ _)
    exact LaysTo.pure hall hs hn
  · refine LaysTo.deeper (fun hn => .seq fun _ => .bind (hc.here.binary _).cleanly
      fun right hright => ?_) hs hn
    have hright : Grown source k right := ⟨Piece.Built.mono hright hk⟩
    refine (hc.here.binaryRest least _ (k + 1) (by omega)).cleanly.mono fun e he => ?_
    exact Piece.Built.mono he (by omega)

end

section
omit [Room n k]

instance : Lays source (n + 1) (most (n - 1) + (n - 1)) (chain c) := by
  refine ⟨.bind (lays_primary (k := most (n - 1))).cleanly fun e he => .ite (.pure ?_) ?_⟩
  · exact Piece.Built.mono he (Nat.le_add_right _ _)
  · have he : Grown source (most (n - 1)) e := ⟨he⟩
    exact (lays_chainRest (Nat.le_refl _)).cleanly.restoringDepth

instance : Lays source (n + 1) (most (n - 1) + (n - 1)) (postfixed c) :=
  .seqToken inferInstance (fun e t => by split <;> infer_instance)
    fun e _ t => by split <;> infer_instance

instance lays_unary : Lays source (n + 1) (most (n - 1) + (n - 1)) (unary c) := by
  have heq : most (n - 1) = most (n - 2) + 2 * (n - 2) := most_eq (n - 1)
  -- A sign is a level, and what is behind it has one level less.
  have hsign {f : Expr → Expr} (hf : ∀ k e [Grown source k e],
      Grown source (k + 1) (f e)) :
      Lays source (n + 1) (most (n - 1) + (n - 1)) (nested badHere do
        advance
        return f (← c.inner.unary)) := by
    refine ⟨.nested fun hn => .seq fun _ => .bind hc.here.unary.cleanly fun e he => .pure ?_⟩
    have he : Grown source (most (n - 2) + (n - 2)) e := ⟨he⟩
    exact Piece.Built.mono (hf (most (n - 2) + (n - 2)) e).all (by omega)
  refine .token fun t => ?_
  split
  · exact hsign fun _ _ _ => inferInstance
  · exact hsign fun _ _ _ => inferInstance
  · infer_instance

instance lays_binary {least : Nat} : Lays source (n + 1) (most n) (binary c least) := by
  have heq := most_eq n
  refine ⟨.bind lays_unary.cleanly fun left hleft => LaysTo.restoringDepth ?_⟩
  have hleft : Grown source (most (n - 1) + (n - 1)) left := ⟨hleft⟩
  refine (lays_binaryRest (k := most (n - 1) + (n - 1)) (by omega)).cleanly.mono fun e he => ?_
  exact Piece.Built.mono he (by omega)

/-! ### Whole expressions -/

instance : Lays source (n + 1) (most n) (conditional c) := by
  unfold conditional; infer_instance

end

instance {sign : AssignSign} {target : Expr} [Grown source k target] :
    Lays source (n + 1) k (assigned c sign target) := by
  have hadds (t : Token) : AddsAll fun value => (match Check.assignment? sign t.pos target value with
      | .ok e => return e
      | .error r => do
        report r
        return .bad target.pos : Reading Expr) :=
    ⟨fun value => by split <;> infer_instance⟩
  unfold assigned
  refine .seq inferInstance fun t _ => .seq inferInstance fun value _ => ?_
  split
  · rename_i e he
    have hall : Grown source k e := Check.allPieces_assignment he
    infer_instance
  · infer_instance

section
omit [Room n k]

instance : Lays source (n + 1) (most n) (destructuring c) :=
  .seqToken inferInstance (fun target t => by split <;> infer_instance)
    fun target _ t => by split <;> infer_instance

instance : Lays source (n + 1) (most n) (plainAssignment c) :=
  .seqToken inferInstance (fun left t => by split <;> infer_instance)
    fun left _ t => by split <;> infer_instance

/-- **An expression takes no more levels than there is room for.** -/
theorem lays_assignment [hroom : Room (n + 1) k] : Lays source (n + 2) k (assignment c) := by
  unfold assignment
  refine ⟨.nested fun hn => (Lays.mono (j := most n) ?_ (hroom.le hn)).cleanly⟩
  infer_instance

end

end

/-! ## 4. Levels -/

/-- With no level left there is no clean run at all: the reader is beyond the limit. -/
theorem Context.laysAt_zero (source : Text) (c : Context) : c.LaysAt source 0 := by
  have hdeep {s : State} (hs : s.Going source) {m : Nat} (hm : m ≤ 1) : ¬ levels ≤ s.depth + m := by
    have hle := hs.depth_le
    unfold levels
    omega
  have hnone {α : Type} [HasPieces α] {x : Reading α} {m k : Nat} (hm : m ≤ 1) :
      Grammar.Lays source m k x :=
    ⟨fun s hs hn => absurd hn (hdeep hs.toGoing hm)⟩
  exact
    { assignment _ _ := hnone (by omega)
      binary _ := hnone (by omega)
      binaryRest _ _ _ _ _ := hnone (by omega)
      unary := hnone (by omega)
      chainRest _ _ _ _ _ := hnone (by omega)
      block _ _ _ := hnone (by omega)
      pattern _ _ := ⟨fun s hs hn => absurd hn (hdeep hs.toGoing (by omega))⟩
      child _ _ hs _ hn := absurd hn (hdeep hs (by omega)) }

theorem Context.laysAt_raised (source : Text) (rounds : Nat) {m n : Nat} (hm : m ≤ n) :
    ((Context.ground source rounds).raised n).LaysAt source m := by
  induction n generalizing m with
  | zero =>
    obtain rfl : m = 0 := by omega
    exact laysAt_zero source _
  | succ n ih =>
    cases m with
    | zero => exact laysAt_zero source _
    | succ m =>
      have hc : ((Context.ground source rounds).raised n).Lays source m :=
        ⟨⟨rounds, n, rfl⟩, fun i hi => ih (by omega)⟩
      exact
        { assignment _ _ := lays_assignment
          binary _ := lays_binary
          binaryRest _ _ _ _ hk := lays_binaryRest (n := m) hk
          unary := lays_unary
          chainRest _ _ _ _ hk := lays_chainRest (n := m) hk
          block _ _ _ := lays_block
          pattern _ _ := lays_pattern
          child _ _ hs hkind hn := (lays_jsxFrom inferInstance hn hs hkind).mono fun _ _ ht =>
            ⟨ht.1, ht.2.1.inText rfl, ht.2.2⟩ }

instance Context.ofSource_lays (source : Text) (rounds : Nat) :
    (Context.ofSource source rounds).Lays source levels :=
  ⟨⟨rounds, levels, rfl⟩, fun _ => laysAt_raised source rounds⟩

/-- The reader of a whole source starts fit. -/
theorem State.fit_ofText (source : Text) : (State.ofText source).Fit source := by
  unfold State.ofText
  refine ⟨⟨.start .whole, State.advance_tooDeep _, ?_⟩, State.holdsToken_advance _, ?_⟩
  · rw [State.start, State.advance_depth]
    exact Nat.zero_le _
  · rw [State.start, State.advance_previous]
    exact Kind.noConfusion

section
variable {source : Text}

/-- Nothing is amiss in the tree of an accepted program. -/
theorem built_of_readProgram {p : Program} (h : readProgram source = some (.ok p)) :
    BuiltFrom source (most maxDepth) (.program p) := by
  obtain ⟨rounds, t, -, hrun, hclean⟩ := exists_run_of_accepted h
  have hc := (Context.ofSource_lays source rounds).mono (Nat.le_succ (maxDepth + 1))
  have hroom : Room (maxDepth + 1) (most maxDepth) := .self
  exact (lays_toEnd (k := most maxDepth) .whole (State.stands_start source (Cursor.ofText source))
    (State.fit_ofText source) (Nat.le_add_left _ _) hrun hclean).1

/-- Nor is it in that of an accepted expression. -/
theorem built_of_readExpression {e : Expr} (h : readExpression source = some (.ok e)) :
    BuiltFrom source (most maxDepth) (.expr e) := by
  obtain ⟨rounds, t, -, hrun, hclean⟩ := exists_run_of_accepted h
  have hc := (Context.ofSource_lays source rounds).mono (Nat.le_succ (maxDepth + 1))
  have hroom : Room (maxDepth + 1) (most maxDepth) := .self
  have hnesting : Lays source (maxDepth + 2) (most maxDepth)
      (modify fun s => { s with nesting := 1 }) :=
    lays_modify fun s hs => ⟨hs.recount 1 s.braceBlocks, Nat.le_refl _⟩
  have hwhole : Lays source (maxDepth + 2) (most maxDepth)
      (wholeExpression (Context.ofSource source rounds)) := by
    unfold wholeExpression
    infer_instance
  exact (hwhole.cleanly (State.fit_ofText source) (Nat.le_add_left _ _) hrun hclean).2.2

end

end ReactiveScript.Grammar
