import ReactiveScript.Grammar.Function
import ReactiveScript.Proofs.Syntax.Sensible

/-!
# What holds throughout a tree

What is said of all pieces of a tree holds of a tree that is made from others as soon as it holds of
those, and of the piece that is added. The parts of a piece are computed when an instance is looked
for, so one instance serves for all expressions and one for all statements.
-/

namespace ReactiveScript

open Piece

open Grammar (Block)

variable {P : Piece → Prop}

/-! ## 1. Pieces -/

/-- It holds of all pieces in a piece. -/
def Piece.Throughout (M : Piece → Prop) (q : Piece) : Prop := ∀ r, Within q r → M r

theorem Piece.Throughout.of_parts {M : Piece → Prop} {q : Piece} (hown : M q)
    (h : ∀ r ∈ q.parts, r.Throughout M) : q.Throughout M := by
  intro r hr
  cases hr with
  | refl => exact hown
  | step hpart hr => exact h _ hpart r hr

/-- It holds of the piece if it holds of its parts. -/
class Closed (P : Piece → Prop) (q : Piece) : Prop where
  of_parts : (∀ r ∈ q.parts, P r) → P q

/-- It holds of the parts of each piece of which it holds. -/
class Inherited (P : Piece → Prop) : Prop where
  part : ∀ {q r : Piece}, P q → r ∈ q.parts → P r

/-! ## 2. Values that hold pieces -/

/-- A kind of values that hold pieces of a tree. -/
class HasPieces (α : Type) where
  All : (Piece → Prop) → α → Prop

/-- It holds of all pieces in a value. -/
class AllPieces (P : Piece → Prop) {α : Type} [HasPieces α] (a : α) : Prop where
  all : HasPieces.All P a

/-- The values of whose pieces it holds. -/
abbrev WithPieces (P : Piece → Prop) (α : Type) [HasPieces α] : Type :=
  { a : α // HasPieces.All P a }

/-- The expressions that pass a test and of whose pieces it holds. -/
abbrev Passing (P : Piece → Prop) (test : Expr → Bool) : Type :=
  { e : Expr // test e = true ∧ P (.expr e) }

instance : HasPieces Piece := ⟨fun P q => P q⟩
instance : HasPieces Expr := ⟨fun P e => P (.expr e)⟩
instance : HasPieces Stmt := ⟨fun P s => P (.stmt s)⟩
instance : HasPieces Program := ⟨fun P p => P (.program p)⟩

instance {α : Type} [HasPieces α] : HasPieces (List α) := ⟨fun P as => ∀ a ∈ as, HasPieces.All P a⟩

instance {α : Type} [HasPieces α] : HasPieces (Option α) := ⟨fun P o => ∀ a ∈ o, HasPieces.All P a⟩

/-- The key of a property, if it is written out and has a value of its own. -/
@[reducible] def Property.keys : Property → List Expr
  | .named _ key _ => [key]
  | _ => []

/-- The key of a property of a pattern, if it has a target of its own. -/
@[reducible] def PatternProperty.keys : PatternProperty → List Expr
  | .named _ key _ _ => [key]
  | _ => []

/-- A flag that computes to `true`. -/
class IsTrue (b : Bool) : Prop where
  eq_true : b = true

/-- Keys that are single tokens. -/
class AllLeaves (keys : List Expr) : Prop where
  leaf : ∀ key ∈ keys, key.parts = []

/-! The parts of patterns and parameters are sound as soon as they are read; that a computed property
is complete is seen later. -/

instance : HasPieces Property := ⟨fun P p => AllLeaves p.keys ∧ HasPieces.All P p.parts⟩
instance : HasPieces Param := ⟨fun P p => p.isSound = true ∧ HasPieces.All P p.parts⟩
instance : HasPieces PatternElement := ⟨fun P e => e.isSound = true ∧ HasPieces.All P e.parts⟩

instance : HasPieces PatternProperty :=
  ⟨fun P p => (AllLeaves p.keys ∧ p.isSound = true) ∧ HasPieces.All P p.parts⟩

instance : HasPieces Attribute := ⟨fun P a => HasPieces.All P a.parts⟩
instance : HasPieces Slot := ⟨fun P s => HasPieces.All P s.nodes⟩

/-- A block counts as the statement that a modifier makes of it. -/
instance : HasPieces Block :=
  ⟨fun P b => P (.stmt (.modifierBlock b.pos [] b.pos b.body))⟩

/-- The pieces of the part that was read, if any. -/
instance {α : Type} [HasPieces α] : HasPieces (Grammar.Part α) where
  All P
    | .none => True
    | .last a | .more a => HasPieces.All P a

/-- Values that hold no pieces of a tree. -/
class Pieceless (α : Type) : Prop

instance : Pieceless Unit where
instance : Pieceless Bool where
instance : Pieceless UInt8 where
instance : Pieceless Token where
instance : Pieceless Specifier where
instance : Pieceless Grammar.State where

instance (priority := low) {α : Type} [Pieceless α] : HasPieces α := ⟨fun _ _ => True⟩

/-- A kind of values that hold no pieces of a tree, or lists of such values. -/
class NoPieces (α : Type) [HasPieces α] : Prop where
  all : ∀ (P : Piece → Prop) (a : α), HasPieces.All P a

section
variable {α : Type} [HasPieces α] {a : α} {as : List α}

instance (priority := low) {α : Type} [Pieceless α] : NoPieces α :=
  ⟨fun _ _ => trivial⟩

instance [h : NoPieces α] : NoPieces (List α) := ⟨fun P _ a _ => h.all P a⟩

instance (priority := low) [h : NoPieces α] (a : α) : AllPieces P a :=
  ⟨h.all P a⟩

instance (a : WithPieces P α) : AllPieces P a.1 := ⟨a.2⟩

instance {test : Expr → Bool} (e : Passing P test) : AllPieces P e.1 := ⟨e.2.2⟩

instance {test : Expr → Bool} (e : Passing P test) : IsTrue (test e.1) := ⟨e.2.1⟩

instance : AllPieces P ([] : List α) := ⟨nofun⟩

instance [ha : AllPieces P a] [has : AllPieces P as] :
    AllPieces P (a :: as) := ⟨List.forall_mem_cons.mpr ⟨ha.all, has.all⟩⟩

instance {bs : List α} [has : AllPieces P as] [hbs : AllPieces P bs] :
    AllPieces P (as ++ bs) := ⟨List.forall_mem_append.mpr ⟨has.all, hbs.all⟩⟩

instance [has : AllPieces P as] : AllPieces P as.reverse :=
  ⟨fun a ha => has.all a (List.mem_reverse.mp ha)⟩

instance : AllPieces P (none : Option α) := ⟨nofun⟩

instance [ha : AllPieces P a] : AllPieces P (some a) :=
  ⟨fun _ h => by cases h; exact ha.all⟩

instance {o : Option α} [ho : AllPieces P o] : AllPieces P o.toList :=
  ⟨fun a ha => ho.all a (Option.mem_toList.mp ha)⟩

instance {b : Prop} [Decidable b] {a' : α} [AllPieces P a] [AllPieces P a'] :
    AllPieces P (if b then a else a') := by
  split <;> assumption

instance : AllPieces P (Grammar.Part.none : Grammar.Part α) := ⟨trivial⟩

instance [h : AllPieces P a] : AllPieces P (Grammar.Part.last a) :=
  ⟨h.all⟩

instance [h : AllPieces P a] : AllPieces P (Grammar.Part.more a) :=
  ⟨h.all⟩

instance {target : Expr} [AllPieces P a] :
    AllPieces P (Grammar.partOf target a) := by
  unfold Grammar.partOf; infer_instance

/-- The parts of some values, each of which has what its parts have. -/
theorem allPieces_flatMap {parts : α → List Expr}
    (hparts : ∀ a, HasPieces.All P a → HasPieces.All P (parts a)) [h : AllPieces P as] :
    AllPieces P (as.flatMap parts) := by
  refine ⟨fun e he => ?_⟩
  obtain ⟨a, ha, he⟩ := List.mem_flatMap.mp he
  exact hparts a (h.all a ha) e he

end

/-! ## 3. Parts of expressions -/

section
variable {t : Token} {a b : Expr}

instance : IsTrue true := ⟨rfl⟩

instance : IsTrue (Grammar.identifierOf t).isName := ⟨rfl⟩

instance allLeaves_nil : AllLeaves [] := ⟨nofun⟩

instance : AllLeaves [Grammar.identifierOf t] :=
  ⟨List.forall_mem_singleton.mpr rfl⟩

instance : AllLeaves [Grammar.stringOf t] := ⟨List.forall_mem_singleton.mpr rfl⟩

instance {p : Position} {n : NumberLiteral} : AllLeaves [.number p n] :=
  ⟨List.forall_mem_singleton.mpr rfl⟩

instance {c : Prop} [Decidable c] [AllLeaves [a]] [AllLeaves [b]] :
    AllLeaves [if c then a else b] := by
  split <;> assumption

/-- The keys of some properties. -/
theorem allLeaves_flatMap {α : Type} {keys : α → List Expr} {as : List α}
    (h : ∀ a ∈ as, AllLeaves (keys a)) : AllLeaves (as.flatMap keys) := by
  refine ⟨fun key hkey => ?_⟩
  obtain ⟨a, ha, hkey⟩ := List.mem_flatMap.mp hkey
  exact (h a ha).leaf key hkey

end

section
variable {p : Property} {ps : List Property}

instance [hkeys : AllLeaves p.keys] [h : AllPieces P p.parts] : AllPieces P p :=
  ⟨hkeys, h.all⟩

instance [AllPieces P ps] : AllPieces P (ps.flatMap Property.parts) :=
  allPieces_flatMap fun _ => And.right

end

section
variable {p : Param} {ps : List Param}

instance [hsound : IsTrue p.isSound] [h : AllPieces P p.parts] : AllPieces P p :=
  ⟨hsound.eq_true, h.all⟩

instance [AllPieces P ps] : AllPieces P (ps.flatMap Param.parts) :=
  allPieces_flatMap fun _ => And.right

end

section
variable {e : PatternElement} {es : List PatternElement}

instance [hsound : IsTrue e.isSound] [h : AllPieces P e.parts] : AllPieces P e :=
  ⟨hsound.eq_true, h.all⟩

instance [AllPieces P es] :
    AllPieces P (es.flatMap PatternElement.parts) := allPieces_flatMap fun _ => And.right

end

section
variable {p : PatternProperty} {ps : List PatternProperty}

instance [hkeys : AllLeaves p.keys] [hsound : IsTrue p.isSound] [h : AllPieces P p.parts] :
    AllPieces P p := ⟨⟨hkeys, hsound.eq_true⟩, h.all⟩

instance [AllPieces P ps] :
    AllPieces P (ps.flatMap PatternProperty.parts) := allPieces_flatMap fun _ => And.right

end

section
variable {a : Attribute} {as : List Attribute}

instance [AllPieces P as] : AllPieces P (as.flatMap Attribute.parts) :=
  allPieces_flatMap fun _ h => h

end

section
variable {span : Span} {e : Expr}

instance : AllPieces P (Slot.text span) := ⟨nofun⟩

instance allPieces_nodeSlot [h : AllPieces P e] : AllPieces P (Slot.node span e) :=
  ⟨List.forall_mem_singleton.mpr h.all⟩

end

/-! ## 4. Expressions and statements -/

section
variable {e : Expr} {s : Stmt} {p : Position} {body : List Stmt} {t : Token} {b : Block}

instance allPieces_ofExprs {es : List Expr} [h : AllPieces P es] :
    AllPieces P (ofExprs es) := by
  refine ⟨fun r hr => ?_⟩
  obtain ⟨e, he, rfl⟩ := List.mem_map.mp hr
  exact h.all e he

instance allPieces_ofStmts [h : AllPieces P body] : AllPieces P (ofStmts body) := by
  refine ⟨fun r hr => ?_⟩
  obtain ⟨s, hs, rfl⟩ := List.mem_map.mp hr
  exact h.all s hs

instance allPieces_expr [hown : Closed P (.expr e)] [h : AllPieces P e.parts] : AllPieces P e :=
  ⟨hown.of_parts h.all⟩

instance [hown : Closed P (.stmt s)] [h : AllPieces P s.parts] : AllPieces P s :=
  ⟨hown.of_parts h.all⟩

instance allPieces_program [hown : Closed P (.program ⟨p, body⟩)] [h : AllPieces P body] :
    AllPieces P (⟨p, body⟩ : Program) := by
  have hparts : AllPieces P (ofStmts body) := inferInstance
  exact ⟨hown.of_parts hparts.all⟩

instance [hP : Inherited P] [h : AllPieces P b] : AllPieces P b.body :=
  ⟨fun _ hs => hP.part h.all (List.mem_map_of_mem hs)⟩

/-- The value that a block stands for is a part of it. -/
theorem allPieces_of_soleValue [hP : Inherited P] (hb : AllPieces P b)
    (he : Grammar.soleValue? b = some e) : AllPieces P e := by
  unfold Grammar.soleValue? at he
  split at he
  · rename_i value hbody
    have hall : AllPieces P b.body := inferInstance
    have hstmt := hall.all _ (hbody ▸ List.mem_singleton_self _)
    split at he
    · cases he
    · cases he
      exact ⟨hP.part hstmt (List.mem_singleton_self _)⟩
  · cases he

instance allPieces_identifierOf [Closed P (.expr (.identifier t.pos t.text))] :
    AllPieces P (Grammar.identifierOf t) := by
  unfold Grammar.identifierOf; infer_instance

instance allPieces_stringOf
    [Closed P (.expr (.string t.pos (Escape.stringValue t.text) t.text))] :
    AllPieces P (Grammar.stringOf t) := by
  unfold Grammar.stringOf; infer_instance

end

/-! ## 5. Rules beyond the grammar -/

/-- It holds of whatever an assignment is made into, if it holds of the sides. -/
class ClosedAssignments (P : Piece → Prop) : Prop where
  sound : ∀ {e : Expr}, P (.expr e) → e.isSound = true
  assign : ∀ p op target value [IsTrue (target.isAssignable op)],
    Closed P (.expr (.assign p op target value))
  declare : ∀ p target value [IsTrue target.isBindable], Closed P (.expr (.declare p target value))
  sliceAssign : ∀ p o start stop value, Closed P (.expr (.sliceAssign p o start stop value))

attribute [instance] ClosedAssignments.assign ClosedAssignments.declare
  ClosedAssignments.sliceAssign

/-- The target of a slice assignment is a part of it. -/
theorem allPieces_sliceAssign [ClosedAssignments P] {p : Position} {o value : Expr}
    {start stop : Option Expr} (_ : AllPieces P (Expr.slice p o start stop)) [AllPieces P value] :
    AllPieces P (Expr.sliceAssign p o start stop value) := inferInstance

/-- The pieces of an assignment are those of its target and its value, and itself. -/
theorem Check.allPieces_assignment [hP : ClosedAssignments P] {sign : AssignSign}
    {signPos : Position} {target value e : Expr} [htarget : AllPieces P target]
    [hvalue : AllPieces P value] (h : assignment? sign signPos target value = .ok e) :
    AllPieces P e := by
  have hassign {op : AssignOp} (h : target.isAssignable op = true) :
      AllPieces P (Expr.assign target.pos op target value) := by
    have hsound : IsTrue (target.isAssignable op) := ⟨h⟩
    infer_instance
  have hdeclare (h : target.isBindable = true) :
      AllPieces P (Expr.declare target.pos target value) := by
    have hsound : IsTrue target.isBindable := ⟨h⟩
    infer_instance
  unfold assignment? at h
  split at h <;> cases h <;> first
    | exact hassign rfl
    | exact hdeclare rfl
    | exact allPieces_sliceAssign htarget
    | exact absurd (hP.sound htarget.all) Bool.false_ne_true

/-- The children that slots leave have the pieces of the slots. -/
theorem Children.allPieces_ofSlots [htext : ∀ p v, Closed P (.expr (.jsxText p v))]
    {lines : LineMap} {source : Text} {ss : List Slot} [h : AllPieces P ss] :
    AllPieces P (ofSlots lines source ss) := by
  refine ⟨forall_ofSlots (fun p v => ?_) lines source h.all⟩
  have htext : AllPieces P (Expr.jsxText p v) := inferInstance
  exact htext.all

/-! ## 6. Blocks, keys, elements and fragments -/

section
variable {B : Position → List Stmt → Prop} {E : Expr → Prop} {q : Piece} {p : Position} {b : Block}

/-- The block of a function or of a modifier: its position and its statements. -/
@[reducible] def Piece.block? : Piece → Option (Position × List Stmt)
  | .expr (.arrowBlock _ _ block body) => some (block, body)
  | .stmt (.modifierBlock _ _ block body) => some (block, body)
  | _ => none

/-- The keys of an object or an object pattern that are written out. -/
@[reducible] def Piece.keys : Piece → List Expr
  | .expr (.object _ ps) => ps.flatMap Property.keys
  | .expr (.objectPattern _ ps) => ps.flatMap PatternProperty.keys
  | _ => []

/-- Is this an element or a fragment? -/
@[reducible] def Expr.isMarkup : Expr → Bool
  | .jsxElement _ _ _ _ _ | .jsxFragment _ _ => true
  | _ => false

@[reducible] def Piece.isMarkup : Piece → Bool
  | .expr e => e.isMarkup
  | _ => false

/-- The block of a piece is so, if it has one, and so is the piece, if it is an element or a
    fragment. Keys have no parts. -/
structure Piece.Made (B : Position → List Stmt → Prop) (E : Expr → Prop) (q : Piece) : Prop where
  sound : q.isSound = true
  block : ∀ block body, q.block? = some (block, body) → B block body
  markup : ∀ e, q = .expr e → e.isMarkup = true → E e
  keys : AllLeaves q.keys

/-- An option that computes to `none`. -/
class IsNone {α : Type} (o : Option α) : Prop where
  eq_none : o = none

instance {α : Type} : IsNone (none : Option α) := ⟨rfl⟩

/-- A flag that computes to `false`. -/
class IsFalse (b : Bool) : Prop where
  eq_false : b = false

instance : IsFalse false := ⟨rfl⟩

/-- A piece that is neither an element nor a fragment. -/
theorem Piece.made_of_block [h : IsFalse q.isMarkup] [hsound : IsTrue q.isSound]
    [hkeys : AllLeaves q.keys]
    (hblock : ∀ block body, q.block? = some (block, body) → B block body) : q.Made B E := by
  refine ⟨hsound.eq_true, hblock, fun e he hmarkup => ?_, hkeys⟩
  subst he
  exact absurd (h.eq_false.symm.trans hmarkup) Bool.false_ne_true

/-- A piece without a block. -/
theorem Piece.made_of_none [h : IsNone q.block?] [IsFalse q.isMarkup] [IsTrue q.isSound]
    [AllLeaves q.keys] : q.Made B E :=
  made_of_block fun block body hblock => by rw [h.eq_none] at hblock; cases hblock

/-! ## 7. Levels -/

/-- All pieces in a piece are made so, and it has so many levels at most. -/
structure Piece.Built (B : Position → List Stmt → Prop) (E : Expr → Prop) (k : Nat) (q : Piece) :
    Prop where
  made : q.Throughout (Made B E)
  shallow : Shallow k q

variable {k : Nat}

namespace Piece.Built

theorem of_parts (hown : q.Made B E) (htidy : q.isTidy = true)
    (h : ∀ r ∈ q.parts, r.Built B E k) : q.Built B E (k + q.takesLevel.toNat) :=
  ⟨.of_parts hown fun r hr => (h r hr).made,
    .node (Nat.le_refl _) htidy fun r hr => (h r hr).shallow⟩

theorem mono {n : Nat} (h : q.Built B E k) (hle : k ≤ n) : q.Built B E n :=
  ⟨h.made, h.shallow.mono hle⟩

theorem isBad_eq_false {e : Expr} (h : Built B E k (.expr e)) : e.isBad = false := by
  have hsound := (h.made _ (.refl _)).sound
  cases e <;> first | rfl | cases hsound

end Piece.Built

/-- Only elements can be untidy. -/
theorem Piece.isTidy_of_isMarkup (h : q.isMarkup = false) : q.isTidy = true := by
  cases q with
  | expr e => cases e <;> first | rfl | cases h
  | _ => rfl

instance : Inherited (Built B E k) where
  part h hr := by
    refine ⟨fun t ht => h.made t (.step hr ht), ?_⟩
    cases h.shallow with
    | node hk _ hparts => exact (hparts _ hr).mono (by omega)

theorem closed_of_made (hown : q.Made B E) [hmarkup : IsFalse q.isMarkup]
    [hlevel : IsFalse q.takesLevel] : Closed (Built B E k) q where
  of_parts h := by
    have hbuilt := Built.of_parts hown (q.isTidy_of_isMarkup hmarkup.eq_false) h
    rwa [hlevel.eq_false] at hbuilt

instance closed_built [IsNone q.block?] [IsFalse q.isMarkup] [IsTrue q.isSound]
    [AllLeaves q.keys] [IsFalse q.takesLevel] : Closed (Built B E k) q :=
  closed_of_made made_of_none

instance {ps : List Property} [h : AllPieces (Built B E k) ps]
    [IsTrue (ps.all Property.isSound)] : Closed (Built B E k) (.expr (.object p ps)) := by
  have hkeys : AllLeaves (ps.flatMap Property.keys) := allLeaves_flatMap fun q hq => (h.all q hq).1
  exact closed_built

/-- The parameters of a function, of which only the last can be a rest. -/
theorem isTrue_params {ps : List Param} [hrest : IsTrue (restStandsLast Param.isRest ps)]
    (h : AllPieces (Built B E k) ps) :
    IsTrue (restStandsLast Param.isRest ps && ps.all Param.isSound) :=
  ⟨Bool.and_eq_true_iff.mpr ⟨hrest.eq_true, List.all_eq_true.mpr fun p hp => (h.all p hp).1⟩⟩

instance {ps : List Param} {body : Expr} [h : AllPieces (Built B E k) ps]
    [IsTrue (restStandsLast Param.isRest ps)] :
    Closed (Built B E k) (.expr (.arrow p ps body)) := by
  have hsound := isTrue_params h
  exact closed_built

instance : ClosedAssignments (Built B E k) :=
  ⟨fun h => (h.made _ (.refl _)).sound, fun _ _ _ _ => closed_built, fun _ _ _ => closed_built,
    fun _ _ _ _ _ => closed_built⟩

/-- Any expression takes at most one level. -/
instance allPieces_level {e : Expr} [IsNone (expr e).block?] [hmarkup : IsFalse e.isMarkup]
    [hsound : IsTrue e.isSound] [AllLeaves (expr e).keys] [h : AllPieces (Built B E k) e.parts] :
    AllPieces (Built B E (k + 1)) e := by
  have hmarkup' : IsFalse (expr e).isMarkup := hmarkup
  have hsound' : IsTrue (expr e).isSound := hsound
  have htidy := (expr e).isTidy_of_isMarkup hmarkup.eq_false
  exact ⟨(Built.of_parts made_of_none htidy h.all).mono
    (Nat.add_le_add_left (Bool.toNat_le _) k)⟩

instance allPieces_arrayPattern {es : List PatternElement} [h : AllPieces (Built B E k) es]
    [hrest : IsTrue (restStandsLast PatternElement.isRest es)] :
    AllPieces (Built B E (k + 1)) (Expr.arrayPattern p es) := by
  have hsound : IsTrue (Expr.arrayPattern p es).isSound :=
    ⟨Bool.and_eq_true_iff.mpr ⟨hrest.eq_true, List.all_eq_true.mpr fun e he => (h.all e he).1⟩⟩
  exact allPieces_level

instance allPieces_objectPattern {ps : List PatternProperty} [h : AllPieces (Built B E k) ps]
    [hrest : IsTrue (restStandsLast PatternProperty.isRest ps)] :
    AllPieces (Built B E (k + 1)) (Expr.objectPattern p ps) := by
  have hsound : IsTrue (Expr.objectPattern p ps).isSound :=
    ⟨Bool.and_eq_true_iff.mpr ⟨hrest.eq_true, List.all_eq_true.mpr fun q hq => (h.all q hq).1.2⟩⟩
  have hkeys : AllLeaves (ps.flatMap PatternProperty.keys) :=
    allLeaves_flatMap fun q hq => (h.all q hq).1.1
  exact allPieces_level

theorem Block.blockIs (h : AllPieces (Built B E k) b) : B b.pos b.body :=
  (h.all.made _ (.refl _)).block _ _ rfl

theorem Block.all_of_blockIs {body : List Stmt} (hown : B p body)
    (h : HasPieces.All (Built B E k) body) :
    HasPieces.All (Built B E k) (⟨p, body⟩ : Block) := by
  have hclosed : Closed (Built B E k) (.stmt (.modifierBlock p [] p body)) :=
    closed_of_made (made_of_block fun _ _ heq => by cases heq; exact hown)
  have hbody : AllPieces (Built B E k) body := ⟨h⟩
  exact hclosed.of_parts allPieces_ofStmts.all

instance {name : Text} [h : AllPieces (Built B E k) b] :
    AllPieces (Built B E k) (Stmt.modifierBlock p name b.pos b.body) := by
  have hclosed : Closed (Built B E k) (.stmt (.modifierBlock p name b.pos b.body)) :=
    closed_of_made (made_of_block fun _ _ heq => by cases heq; exact Block.blockIs h)
  infer_instance

instance {ps : List Param} [hps : AllPieces (Built B E k) ps]
    [IsTrue (restStandsLast Param.isRest ps)] [h : AllPieces (Built B E k) b] :
    AllPieces (Built B E k) (Grammar.arrowBlock p ps b) := by
  have hsound := isTrue_params hps
  have hclosed : Closed (Built B E k) (.expr (.arrowBlock p ps b.pos b.body)) :=
    closed_of_made (made_of_block fun _ _ heq => by cases heq; exact Block.blockIs h)
  unfold Grammar.arrowBlock
  infer_instance

/-- **What is sound throughout is well formed.** -/
theorem Piece.Built.wellFormed (h : q.Built B E k) : WellFormed.piece q = true := by
  have hall := h.made
  clear h
  induction q using parts_induction with
  | step q ih =>
    exact WellFormed.piece_iff.mpr ⟨(hall q (.refl q)).sound, fun r hr =>
      ih r hr fun t ht => hall t (.step hr ht)⟩

end

end ReactiveScript
