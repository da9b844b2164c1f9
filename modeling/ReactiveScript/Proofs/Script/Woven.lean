import ReactiveScript.Proofs.Script.Success

/-!
# How scripts are put together

The script of a piece is put together from the scripts of the pieces below it, with signs and words
of its own between them. Every one of these pieces is written once, but for an assignment to a slice:
its object is written again for the length if there is no end, and its start is written again where
it is subtracted.
-/

namespace ReactiveScript

/-! ## 1. Code made from other code -/

/-- A rope that is put together from other ropes, in whatever order, with words between them. -/
inductive Rope.Woven (word : Text → Prop) : List Rope → Rope → Prop
  | word {t : Text} (h : word t) : Woven word [] (.leaf t)
  | piece (r : Rope) : Woven word [r] r
  | append {rs ss : List Rope} {r s : Rope} (hr : Woven word rs r) (hs : Woven word ss s) :
      Woven word (rs ++ ss) (.append r s)
  | reorder {rs ss : List Rope} {r : Rope} (h : Woven word rs r) (hperm : rs.Perm ss) :
      Woven word ss r

namespace Script

/-- What the writer puts between pieces, besides operators. -/
def signs : List Text :=
  ["", " ", "(", ")", "[", "]", "\x7b", "\x7d", "\x7b\x7d", "\x7b ", " \x7d", "\x7b\n", "\n", "`", "$\x7b",
    ".", "?.", "?.[", "?.(", "...", ", ", ", [", "])", "))", "((", ") => ", ";", ": ", "]: ", " = ", "=",
    "=\x7b", " \x7b...", " ? ", " : ", " - ", "<", ">", "</", " />", "<>", "</>", "0", "true", "false",
    "null", ".length", ".slice(", "Array.prototype.splice.apply(", "].concat(", "const ", "return;",
    "return ", "export ", "export default ", "export const ", "import ", "import * as ", " from "].map txt

/-- The words that do not depend on the names and literals of a tree. -/
inductive Sign (o : Options) : Text → Prop
  | fixed {t : Text} (h : t ∈ signs) : Sign o t
  | unary (op : UnaryOp) : Sign o op.spelling
  | update (op : UpdateOp) : Sign o op.spelling
  | binary (op : BinaryOp) : Sign o (binarySpelling op)
  | assign (op : AssignOp) : Sign o (assignSpelling op)
  | runtime (m : Modifier) : Sign o (o.identifier ++ txt "." ++ m.method)
  | indent (n : Nat) : Sign o (List.replicate n Byte.space)

end Script

/-- Code that is put together from other code, with signs and some more words between them. -/
def Code.Woven (o : Script.Options) (own : List Text) (cs : List Code) (c : Code) : Prop :=
  c.rope.Woven (fun t => Script.Sign o t ∨ t ∈ own) (cs.map Code.rope)

open Script

namespace Code.Woven
variable {o : Options} {own : List Text} {as bs cs : List Code} {a b c : Code}

theorem self (c : Code) : Woven o own [c] c := .piece c.rope

theorem sign {t : Text} (h : Sign o t) : Woven o own [] (.plain t) := .word (.inl h)

theorem lit {s : String} (h : txt s ∈ signs) : Woven o own [] (.lit s) := sign (.fixed h)

theorem ownWord {t : Text} (h : t ∈ own) : Woven o own [] (.plain t) := .word (.inr h)

theorem findings : Woven o own [] c.findings := .word (.inl (.fixed (by decide)))

theorem empty : Woven o own [] {} := lit (s := "") (by decide)

theorem append (ha : Woven o own as a) (hb : Woven o own bs b) : Woven o own (as ++ bs) (a ++ b) := by
  have h := Rope.Woven.append ha hb
  rwa [← List.map_append] at h

theorem reorder (h : Woven o own as c) (hperm : as.Perm bs) : Woven o own bs c :=
  Rope.Woven.reorder h (hperm.map _)

theorem bare (h : Woven o own cs c) : Woven o own cs c.bare := h

theorem of_eq (h : Woven o own as c) (heq : as = bs) : Woven o own bs c := heq ▸ h

/-- Signs in front of code and behind it. -/
theorem between {s t : String} (hs : txt s ∈ signs) (h : Woven o own cs c) (ht : txt t ∈ signs) :
    Woven o own cs (.lit s ++ c ++ .lit t) := by
  simpa using ((lit hs).append h).append (lit ht)

/-- A sign between two pieces of code. -/
theorem sep {s : String} (ha : Woven o own as a) (hs : txt s ∈ signs) (hb : Woven o own bs b) :
    Woven o own (as ++ bs) (a ++ .lit s ++ b) := by
  simpa using (ha.append (lit hs)).append hb

theorem parenthesizedIf {needed : Bool} (h : Woven o own cs c) :
    Woven o own cs (c.parenthesizedIf needed) := by
  unfold Code.parenthesizedIf
  split
  · exact between (by decide) h (by decide)
  · exact h

theorem noBraceFirst (h : Woven o own cs c) : Woven o own cs c.noBraceFirst := parenthesizedIf h

theorem atLevel {least : Nat} {e : Expr} (h : Woven o own cs c) :
    Woven o own cs (Script.atLevel least e c) := parenthesizedIf h

theorem functionBody {e : Expr} (h : Woven o own cs c) :
    Woven o own cs (Script.functionBody e c) := noBraceFirst (atLevel h)

theorem line {d : Nat} (h : Woven o own cs c) : Woven o own cs (Script.line d c) := by
  have hend : Woven o own [] (.plain [Byte.newline]) := sign (.fixed (by decide))
  simpa [Script.line] using ((sign (.indent (2 * d))).append h).append hend

/-- Code for every member of a list, with a sign between two of them. -/
theorem join {α : Type} {sep : String} (hsep : txt sep ∈ signs) {item : α → Code}
    {below : α → List Code} {xs : List α} (h : ∀ x ∈ xs, Woven o own (below x) (item x)) :
    Woven o own (xs.flatMap below) (.join sep (xs.map item)) := by
  induction xs with
  | nil => exact empty
  | cons x xs ih =>
    obtain ⟨hx, hxs⟩ := List.forall_mem_cons.mp h
    cases xs with
    | nil => simpa [Code.join] using hx
    | cons y ys => simpa [Code.join] using hx.sep hsep (ih hxs)

theorem braced {α : Type} {item : α → Code} {below : α → List Code} {xs : List α}
    (h : ∀ x ∈ xs, Woven o own (below x) (item x)) :
    Woven o own (xs.flatMap below) (.braced (xs.map item)) := by
  cases xs with
  | nil => exact lit (by decide)
  | cons x xs => exact between (by decide) (join (by decide) h) (by decide)

end Code.Woven

/-! ## 2. What is written of a piece -/

/-- Two bounds that are subtracted at once. -/
def foldable : Option Expr → Option Expr → Bool
  | some (.number _ _), some (.number _ _) => true
  | _, _ => false

@[simp] theorem foldable_none (start : Option Expr) : foldable start none = false := by
  unfold foldable
  split
  · contradiction
  · rfl

namespace Piece

/-- The pieces whose scripts are in the script of a piece, each of them once. These are its parts,
    but a part whose own script is not in there is replaced by its parts. -/
def once : Piece → List Piece
  | .expr (.tagged _ tag _ _ es) => ofExprs (tag :: es)
  | .expr (.sliceAssign _ object start stop value) =>
    ofExprs (object :: (start.toList ++ (if foldable start stop then [] else stop.toList) ++ [value]))
  | .stmt (.expression _ _ e) | .stmt (.exportDeclaration _ _ _ e) =>
    match sides? e with
    | some (target, value) => ofExprs [target, value]
    | none => ofExprs [e]
  | .stmt (.importNames _ _ _ _) | .stmt (.importNamespace _ _ _) => []
  | q => q.parts

/-- The pieces that are written a second time: of an assignment to a slice, the object if there is no
    end, and the start unless the bounds are subtracted at once. -/
def again : Piece → List Piece
  | .expr (.sliceAssign _ object start stop _) =>
    ofExprs ((if stop.isNone then [object] else []) ++
      if foldable start stop then [] else start.toList)
  | _ => []

end Piece

/-- The names and literals in a parameter, outside of its expressions. -/
def Param.words : Param → List Text
  | .name _ n _ | .rest _ n => [n]
  | .pattern _ _ _ => []

def Attribute.words : Attribute → List Text
  | .flag _ name | .value _ name _ => [name]
  | .string _ name literal => [name, literal]
  | .spread _ _ => []

/-- The names and literals of an expression itself. -/
def Expr.words : Expr → List Text
  | .identifier _ name => [name]
  | .number _ n => [Script.number n]
  | .string _ _ raw => [raw]
  | .template _ quasis _ | .tagged _ _ _ quasis _ => quasis.map Quasi.raw
  | .arrow _ ps _ | .arrowBlock _ ps _ _ => ps.flatMap Param.words
  | .sliceAssign _ _ (some (.number _ m)) (some (.number _ n)) _ =>
    [numberText (n.value.sub m.value)]
  | .jsxElement _ name attrs _ _ => name :: attrs.flatMap Attribute.words
  | .jsxText _ value => [Entity.escape value]
  | _ => []

/-- The names that a value depends on, as they are handed to the runtime. -/
def Expr.namesWord (value : Expr) : Text := Text.join (txt ", ") (FreeNames.ofExpr value)

/-- The names and literals of a statement itself. -/
def Stmt.words : Stmt → List Text
  | .expression _ _ e | .exportDeclaration _ _ _ e =>
    match sides? e with
    | some (_, value) => [value.namesWord]
    | none => [e.namesWord]
  | .return _ _ argument => argument.toList.map Expr.namesWord
  | .exportNames _ names => names.map fun s => (specifier s).text
  | .importNames _ default names source =>
    default.toList ++ (names.map fun s => (specifier s).text) ++ [sourceText source]
  | .importNamespace _ name source => [name, sourceText source]
  | _ => []

namespace Script

/-! ## 3. Expressions -/

section
variable {o : Options} {d : Nat} {own : List Text} {cs : List Code} {p : Position} {e value : Expr}
  {inherited : Option Text}

theorem map_codeBelow_ofExprs (es : List Expr) :
    (Piece.ofExprs es).map (codeBelow o d) = es.map (emit o d) := by
  simp [Piece.ofExprs, codeBelow]

theorem map_codeBelow_ofStmts (ss : List Stmt) :
    (Piece.ofStmts ss).map (codeBelow o d) = ss.map (stmt o (d + 1) none) := by
  simp [Piece.ofStmts, codeBelow]

theorem woven_operand {least : Nat} (e : Expr) :
    (atLevel least e (emit o d e)).Woven o own [emit o d e] := (Code.Woven.self _).atLevel

theorem woven_items (es : List Expr) :
    (Code.join ", " (items o d es)).Woven o own (es.map (emit o d)) := by
  have h : (Code.join ", " (es.map fun e => atLevel Level.assignment e (emit o d e))).Woven o own
      (es.flatMap fun e => [emit o d e]) :=
    .join (by decide) fun e _ => woven_operand e
  rwa [← List.map_eq_flatMap, ← items_eq_map] at h

theorem woven_item? (e : Option Expr) : (item? o d e).Woven o own (e.toList.map (emit o d)) := by
  cases e with
  | none => exact .empty
  | some e => exact woven_operand e

theorem woven_defaultValue (e : Option Expr) :
    (defaultValue o d e).Woven o own (e.toList.map (emit o d)) := by
  cases e with
  | none => exact .empty
  | some e =>
    rw [defaultValue]
    exact (Code.Woven.lit (by decide)).append (woven_operand e)

theorem woven_property (p : Property) :
    (property o d p).Woven o own (p.parts.map (emit o d)) := by
  cases p with
  | spread p value =>
    rw [property]
    exact (Code.Woven.lit (by decide)).append (woven_operand value)
  | named p key value =>
    rw [property]
    exact (Code.Woven.self _).sep (by decide) (woven_operand value)
  | shorthand p key =>
    rw [property]
    exact .self _
  | computed p key value =>
    rw [property]
    have hkey : (.lit "[" ++ item? o d key ++ .lit "]: " : Code).Woven o own
        (key.toList.map (emit o d)) :=
      .between (by decide) (woven_item? key) (by decide)
    simpa [Property.parts] using hkey.append (woven_item? value)

theorem woven_param {p : Param} (h : ∀ t ∈ p.words, t ∈ own) :
    (param o d p).Woven o own (p.parts.map (emit o d)) := by
  cases p with
  | name p n default =>
    rw [param]
    exact (Code.Woven.ownWord (h n (by simp [Param.words]))).append (woven_defaultValue default)
  | pattern p target default =>
    rw [param]
    exact (Code.Woven.self _).append (woven_defaultValue default)
  | rest p n =>
    rw [param]
    exact (Code.Woven.lit (by decide)).append (.ownWord (h n (by simp [Param.words])))

theorem woven_patternElement (p : PatternElement) :
    (patternElement o d p).Woven o own (p.parts.map (emit o d)) := by
  cases p with
  | item p target default =>
    rw [patternElement]
    exact (woven_operand target).append (woven_defaultValue default)
  | rest p target =>
    rw [patternElement]
    exact (Code.Woven.lit (by decide)).append (woven_operand target)

theorem woven_patternProperty (p : PatternProperty) :
    (patternProperty o d p).Woven o own (p.parts.map (emit o d)) := by
  cases p with
  | named p key target default =>
    rw [patternProperty]
    exact ((Code.Woven.self _).sep (by decide) (woven_operand target)).append
      (woven_defaultValue default)
  | shorthand p key default =>
    rw [patternProperty]
    exact (Code.Woven.self _).append (woven_defaultValue default)
  | rest p target =>
    rw [patternProperty]
    exact (Code.Woven.lit (by decide)).append (woven_operand target)

theorem woven_attr {a : Attribute} (h : ∀ t ∈ a.words, t ∈ own) :
    (attr o d a).Woven o own (a.parts.map (emit o d)) := by
  cases a with
  | flag p name =>
    rw [attr]
    exact (Code.Woven.lit (by decide)).append (.ownWord (h name (by simp [Attribute.words])))
  | string p name literal =>
    rw [attr]
    have hname : (.lit " " ++ .plain name : Code).Woven o own [] :=
      .append (.lit (by decide)) (.ownWord (h name (by simp [Attribute.words])))
    exact hname.sep (by decide) (.ownWord (h literal (by simp [Attribute.words])))
  | value p name value =>
    rw [attr]
    have hname : (.lit " " ++ .plain name : Code).Woven o own [] :=
      .append (.lit (by decide)) (.ownWord (h name (by simp [Attribute.words])))
    exact (hname.sep (by decide) (woven_operand value)).append (.lit (by decide))
  | spread p value =>
    rw [attr]
    exact .between (by decide) (woven_operand value) (by decide)

theorem woven_attributes {as : List Attribute} (h : ∀ a ∈ as, ∀ t ∈ a.words, t ∈ own) :
    (attributes o d as).Woven o own ((as.flatMap Attribute.parts).map (emit o d)) := by
  induction as with
  | nil => exact .empty
  | cons a as ih =>
    obtain ⟨ha, has⟩ := List.forall_mem_cons.mp h
    rw [attributes, List.flatMap_cons, List.map_append]
    exact (woven_attr ha).append (ih has)

theorem woven_childrenCode (es : List Expr) :
    (childrenCode o d es).Woven o own (es.map (emit o d)) := by
  induction es with
  | nil => exact .empty
  | cons e es ih =>
    rw [childrenCode]
    exact (Code.Woven.self _).append ih

/-- All holes of a template are written, between its literal parts. -/
theorem woven_template {quasis : List Quasi} {es : List Expr} (h : quasis.length = es.length + 1)
    (hown : ∀ q ∈ quasis, q.raw ∈ own) : (template o d quasis es).Woven o own (es.map (emit o d)) := by
  induction es generalizing quasis with
  | nil =>
    obtain ⟨q, rfl⟩ := List.length_eq_one_iff.mp h
    rw [template]
    exact .ownWord (by simpa using hown)
  | cons e es ih =>
    cases quasis with
    | nil => cases h
    | cons q quasis =>
      obtain ⟨hq, hquasis⟩ := List.forall_mem_cons.mp hown
      rw [template]
      exact ((Code.Woven.ownWord hq).sep (by decide) (woven_operand e)).sep (by decide)
        (ih (Nat.succ.inj h) hquasis)

theorem woven_stmts {i : Option Text} {below : Stmt → List Code} {ss : List Stmt}
    (h : ∀ s ∈ ss, (stmt o d i s).Woven o own (below s)) :
    (stmts o d i ss).Woven o own (ss.flatMap below) := by
  induction ss with
  | nil => exact .empty
  | cons s ss ih =>
    obtain ⟨hs, hss⟩ := List.forall_mem_cons.mp h
    rw [stmts]
    exact hs.append (ih hss)

theorem woven_binary {op : BinaryOp} (l r : Expr) :
    (binary op l r (emit o d l) (emit o d r)).Woven o own [emit o d l, emit o d r] := by
  cases op with
  | pipe =>
    have h : (binary .pipe l r (emit o d l) (emit o d r)).Woven o own [emit o d r, emit o d l] :=
      (woven_operand r).append (.between (by decide) (woven_operand l) (by decide))
    exact h.reorder (.swap _ _ _)
  | compose =>
    exact (woven_operand l).append (.between (by decide) (woven_operand r) (by decide))
  | _ =>
    exact ((woven_operand l).sep (by decide) (.sign (.binary _))).sep (by decide) (woven_operand r)

theorem woven_member {computed optional : Bool} (object property : Expr) :
    (member object property computed optional (emit o d object) (emit o d property)).Woven o own
      [emit o d object, emit o d property] := by
  have hobject : (memberObject object computed (emit o d object)).Woven o own [emit o d object] := by
    unfold memberObject
    cases object with
    | number => exact (woven_operand _).parenthesizedIf
    | _ => exact woven_operand _
  unfold member
  cases computed with
  | true =>
    cases optional <;>
      exact (hobject.sep (by decide) (woven_operand property)).append (.lit (by decide))
  | false => cases optional <;> exact hobject.sep (by decide) (.self _)

theorem woven_assign (op : AssignOp) (target value : Expr) :
    (emit o d (.assign p op target value)).Woven o own [emit o d target, emit o d value] := by
  rw [emit]
  exact ((woven_operand target).sep (by decide) (.sign (.assign op))).sep (by decide)
    (woven_operand value)

theorem woven_unary {op : UnaryOp} {c : Code} (h : c.Woven o own cs) :
    (unary op c).Woven o own cs := by
  unfold unary
  dsimp only
  split
  · exact (Code.Woven.sign (.unary op)).sep (by decide) h
  · exact (Code.Woven.sign (.unary op)).append h

theorem woven_params {ps : List Param} (h : ∀ t ∈ ps.flatMap Param.words, t ∈ own) :
    (Code.join ", " (params o d ps)).Woven o own ((ps.flatMap Param.parts).map (emit o d)) := by
  rw [params_eq_map, List.map_flatMap]
  exact .join (by decide) fun p hp => woven_param fun t ht => h t (List.mem_flatMap.mpr ⟨p, hp, ht⟩)

/-- The script of a function, from its parameters and its body. -/
theorem woven_function {ps : List Param} {body : Code} {below : List Code}
    (hbody : body.Woven o own below) (h : ∀ t ∈ ps.flatMap Param.words, t ∈ own) :
    (Code.lit "(" ++ .join ", " (params o d ps) ++ .lit ") => " ++ body).Woven o own
      ((ps.flatMap Param.parts).map (emit o d) ++ below) := 
  (Code.Woven.between (by decide) (woven_params h) (by decide)).append hbody

theorem woven_call {optional : Bool} (callee : Expr) (args : List Expr) :
    (call callee optional (emit o d callee) (items o d args)).Woven o own
      ((callee :: args).map (emit o d)) := by
  have hopen : txt (if optional = true then "?.(" else "(") ∈ signs := by
    cases optional <;> decide
  exact .of_eq (.append (.sep (.append .findings (woven_operand callee)) hopen
    (woven_items args).bare) (.lit (by decide))) (by simp)

theorem woven_slice (p : Position) (object : Expr) (start stop : Option Expr) :
    (emit o d (.slice p object start stop)).Woven o own
      ((object :: (start.toList ++ stop.toList)).map (emit o d)) := by
  have hstart : (if start.isNone then Code.lit "0" else item? o d start).Woven o own
      (start.toList.map (emit o d)) := by
    cases start with
    | none => exact .lit (by decide)
    | some s => exact woven_item? (some s)
  have hstop : (if stop.isNone then {} else Code.lit ", " ++ item? o d stop).Woven o own
      (stop.toList.map (emit o d)) := by
    cases stop with
    | none => exact .empty
    | some e => exact .append (.lit (by decide)) (woven_item? (some e))
  rw [emit]
  exact .of_eq (.append (.append (.sep (woven_operand object) (by decide) hstart) hstop)
    (.lit (by decide))) (by simp)

/-- An element that closes itself has no children that could be lost. -/
theorem woven_jsxElement {name : Text} {attrs : List Attribute} {children : List Expr}
    {selfClosing : Bool}
    (htidy : (Expr.jsxElement p name attrs children selfClosing).isTidy = true) :
    (emit o d (.jsxElement p name attrs children selfClosing)).Woven o
      (name :: attrs.flatMap Attribute.words)
      ((attrs.flatMap Attribute.parts ++ children).map (emit o d)) := by
  have hname : name ∈ name :: attrs.flatMap Attribute.words := List.mem_cons_self
  have hattrs : ∀ a ∈ attrs, ∀ t ∈ a.words, t ∈ name :: attrs.flatMap Attribute.words :=
    fun a ha t ht => List.mem_cons_of_mem _ (List.mem_flatMap.mpr ⟨a, ha, ht⟩)
  have hopening : (Code.lit "<" ++ .plain name ++ attributes o d attrs).Woven o
      (name :: attrs.flatMap Attribute.words) ((attrs.flatMap Attribute.parts).map (emit o d)) :=
    .append (.append (.lit (by decide)) (.ownWord hname)) (woven_attributes hattrs)
  rw [Expr.isTidy, Bool.or_eq_true, Bool.not_eq_true', List.isEmpty_iff] at htidy
  rw [emit]
  cases selfClosing with
  | true =>
    obtain rfl : children = [] := by simpa using htidy
    exact .of_eq (.append hopening (.lit (by decide))) (by simp)
  | false =>
    exact .of_eq (.append (.sep (.sep hopening (by decide) (woven_childrenCode children)) (by decide)
      (.ownWord hname)) (.lit (by decide))) (by simp)

/-- A function with statements in it. -/
theorem woven_arrowBlock (p : Position) (ps : List Param) (q : Position) (body : List Stmt) :
    (emit o d (.arrowBlock p ps q body)).Woven o (ps.flatMap Param.words)
      ((Piece.ofExprs (ps.flatMap Param.parts) ++ Piece.ofStmts body ++ []).map (codeBelow o d)) := by
  have hbody : (stmts o (d + 1) none body).Woven o (ps.flatMap Param.words)
      (body.map (stmt o (d + 1) none)) := by
    rw [List.map_eq_flatMap]
    exact woven_stmts fun s _ => .self _
  have hblock : (if body.isEmpty then Code.lit "\x7b\x7d"
      else Code.lit "\x7b\n" ++ stmts o (d + 1) none body ++
        .plain (List.replicate (2 * d) Byte.space) ++ .lit "\x7d").Woven o (ps.flatMap Param.words)
      (body.map (stmt o (d + 1) none)) := by
    cases body with
    | nil => exact .lit (by decide)
    | cons s body =>
      exact .of_eq (.append (.append (.append (.lit (by decide)) hbody) (.sign (.indent _)))
        (.lit (by decide))) (by simp)
  rw [emit]
  exact .of_eq (woven_function hblock fun _ => id)
    (by simp [map_codeBelow_ofExprs, map_codeBelow_ofStmts])

/-- The start of a slice. -/
theorem woven_start (start : Option Expr) :
    Code.Woven o own (start.toList.map (emit o d)) (match start with
      | some s => atLevel Level.assignment s (emit? o d start)
      | none => .lit "0") := by
  cases start with
  | none => exact .lit (by decide)
  | some s => exact woven_operand s

/-- How many elements are removed: this is where the object and the start are written again. -/
theorem woven_removed (p : Position) (object : Expr) (start stop : Option Expr) (value : Expr) :
    (removed start stop (atLevel Level.call object (emit o d object) ++ .lit ".length").bare
        (emit? o d start) (emit? o d stop)).Woven o (Expr.sliceAssign p object start stop value).words
      (((if stop.isNone then [object] else []) ++
        ((if foldable start stop then [] else stop.toList) ++
          if foldable start stop then [] else start.toList)).map (emit o d)) := by
  have hlength (own : List Text) :
      (atLevel Level.call object (emit o d object) ++ .lit ".length").bare.Woven o own
        [emit o d object] := (woven_operand object).append (.lit (by decide))
  cases start with
  | none =>
    cases stop with
    | none => exact hlength _
    | some e => exact woven_operand e
  | some s =>
    cases stop with
    | none => exact .of_eq (.sep (hlength _) (by decide) (woven_operand s)) (by simp)
    | some e =>
      cases hfold : foldable (some s) (some e) with
      | true =>
        unfold foldable at hfold
        split at hfold
        · rename_i heq heq'
          cases heq
          cases heq'
          exact .ownWord (List.mem_singleton.mpr rfl)
        · cases hfold
      | false =>
        have hdifference : removed (some s) (some e)
            (atLevel Level.call object (emit o d object) ++ .lit ".length").bare
            (emit? o d (some s)) (emit? o d (some e)) =
            atLevel Level.addition e (emit o d e) ++ .lit " - " ++
              atLevel (Level.addition + 1) s (emit o d s) := by
          unfold removed
          split <;> simp_all [foldable, emit?]
        rw [hdifference]
        exact (woven_operand e).sep (by decide) (woven_operand s)

/-- **The script of an assignment to a slice**: what is written of it, once and again. -/
theorem woven_sliceAssign (p : Position) (object : Expr) (start stop : Option Expr) (value : Expr) :
    (emit o d (.sliceAssign p object start stop value)).Woven o
      (Expr.sliceAssign p object start stop value).words
      (((Piece.expr (.sliceAssign p object start stop value)).once ++
        (Piece.expr (.sliceAssign p object start stop value)).again).map (codeBelow o d)) := by
  rw [emit]
  refine .reorder (.append (.sep (.sep (.sep (.append (.append (.lit (by decide))
    (woven_operand object)) .findings) (by decide) (woven_start start)) (by decide)
    (woven_removed p object start stop value)) (by decide) (woven_operand value))
    (.lit (by decide))) ?_
  rw [List.perm_iff_count]
  intro c
  simp only [Piece.once, Piece.again, List.map_append, map_codeBelow_ofExprs,
    List.map_cons, List.map_nil, List.count_append, List.count_cons, List.count_nil]
  omega

/-- What is to be shown of an expression that has nothing written twice and no statements in it. -/
theorem woven_ofExprs {es : List Expr} (honce : (Piece.expr e).once = Piece.ofExprs es)
    (hagain : (Piece.expr e).again = []) (h : (emit o d e).Woven o e.words (es.map (emit o d))) :
    (emit o d e).Woven o e.words
      (((Piece.expr e).once ++ (Piece.expr e).again).map (codeBelow o d)) := by
  rwa [honce, hagain, List.append_nil, map_codeBelow_ofExprs]

/-- **The script of an expression** is put together from the scripts of the pieces below it. -/
theorem woven_emit (hwf : WellFormed.expr e = true) (htidy : e.isTidy = true) :
    (emit o d e).Woven o e.words
      (((Piece.expr e).once ++ (Piece.expr e).again).map (codeBelow o d)) := by
  cases e with
  | bad => cases hwf
  | identifier | number | string | jsxText =>
    rw [emit]
    exact .ownWord (by simp [Expr.words])
  | boolean p b =>
    rw [emit]
    cases b <;> exact .lit (by decide)
  | null =>
    rw [emit]
    exact .lit (by decide)
  | sliceAssign p object start stop value => exact woven_sliceAssign p object start stop value
  | arrowBlock p ps q body => exact woven_arrowBlock p ps q body
  | template p quasis es =>
    rw [WellFormed.expr, Bool.and_eq_true, decide_eq_true_eq] at hwf
    refine woven_ofExprs rfl rfl ?_
    rw [emit]
    exact .between (by decide) (woven_template hwf.1 fun q => List.mem_map_of_mem) (by decide)
  | tagged p tag q quasis es =>
    simp only [WellFormed.expr, Bool.and_eq_true, decide_eq_true_eq] at hwf
    refine woven_ofExprs rfl rfl ?_
    rw [emit]
    exact .of_eq (.append (.sep (woven_operand tag) (by decide)
      (woven_template hwf.1.2 fun q => List.mem_map_of_mem)) (.lit (by decide))) (by simp)
  | array p es =>
    refine woven_ofExprs rfl rfl ?_
    rw [emit]
    exact .between (by decide) (woven_items es) (by decide)
  | object p ps =>
    refine woven_ofExprs rfl rfl ?_
    rw [emit, properties_eq_map, List.map_flatMap]
    exact .braced fun p _ => woven_property p
  | spread p e =>
    refine woven_ofExprs rfl rfl ?_
    rw [emit]
    exact (Code.Woven.lit (by decide)).append (woven_operand e)
  | arrow p ps body =>
    refine woven_ofExprs rfl rfl ?_
    rw [emit, List.map_append]
    exact woven_function (Code.Woven.self _).functionBody fun _ => id
  | call p callee args optional =>
    refine woven_ofExprs rfl rfl ?_
    rw [emit]
    exact woven_call callee args
  | member p object property computed optional =>
    refine woven_ofExprs rfl rfl ?_
    rw [emit]
    exact woven_member object property
  | slice p object start stop => exact woven_ofExprs rfl rfl (woven_slice p object start stop)
  | unary p op e =>
    refine woven_ofExprs rfl rfl ?_
    rw [emit]
    exact woven_unary (woven_operand e)
  | update p op before e =>
    refine woven_ofExprs rfl rfl ?_
    rw [emit]
    cases before with
    | true => exact (Code.Woven.sign (.update op)).append (woven_operand e)
    | false => exact (woven_operand e).append (.sign (.update op))
  | binary p op l r =>
    refine woven_ofExprs rfl rfl ?_
    rw [emit]
    exact woven_binary l r
  | conditional p test yes no =>
    refine woven_ofExprs rfl rfl ?_
    rw [emit]
    exact ((woven_operand test).sep (by decide) (woven_operand yes)).sep (by decide)
      (woven_operand no)
  | assign p op target value =>
    exact woven_ofExprs rfl rfl (woven_assign op target value)
  | declare p target value =>
    refine woven_ofExprs rfl rfl ?_
    rw [emit]
    exact ((Code.Woven.findings (c := .fault .nestedDeclaration p)).append
      (woven_operand target)).sep (by decide) (woven_operand value)
  | arrayPattern p es =>
    refine woven_ofExprs rfl rfl ?_
    rw [emit, patternElements_eq_map, List.map_flatMap]
    exact .between (by decide) (.join (by decide) fun p _ => woven_patternElement p) (by decide)
  | objectPattern p ps =>
    refine woven_ofExprs rfl rfl ?_
    rw [emit, patternProperties_eq_map, List.map_flatMap]
    exact .braced fun p _ => woven_patternProperty p
  | jsxElement p name attrs children selfClosing =>
    exact woven_ofExprs rfl rfl (woven_jsxElement htidy)
  | jsxFragment p children =>
    refine woven_ofExprs rfl rfl ?_
    rw [emit]
    exact .between (by decide) (woven_childrenCode children) (by decide)
  | jsxExpression p e =>
    refine woven_ofExprs rfl rfl ?_
    rw [emit]
    exact .between (by decide) (woven_operand e) (by decide)

/-! ## 4. Statements -/

/-- A value that is handed to the runtime, if it can be. -/
theorem woven_runtimeCall {m : Text} {c : Code} (hclean : (runtimeCall o m p value c).faults = [])
    (hnames : value.namesWord ∈ own) (h : c.Woven o own cs) :
    (runtimeCall o m p value c).Woven o own cs := by
  have haccepted : refusal? m p (some value) = none := by
    rw [faults_runtimeCall] at hclean
    cases hrefused : refusal? m p (some value) with
    | none => rfl
    | some x => simp [hrefused] at hclean
  obtain ⟨hknown, harrow⟩ := refusal?_eq_none.mp haccepted
  obtain ⟨k, hk⟩ := Option.isSome_iff_exists.mp hknown
  have hcallee : (Code.plain (o.identifier ++ txt "." ++ k.method)).Woven o own [] :=
    .sign (.runtime k)
  have hwrapped : (Code.plain (o.identifier ++ txt "." ++ k.method) ++
      (atLevel Level.assignment value c).parenthesized).Woven o own cs :=
    .append hcallee (.between (by decide) h.atLevel (by decide))
  have htracked : (Code.plain (o.identifier ++ txt "." ++ k.method) ++ .lit "((" ++
      .plain value.namesWord ++ .lit ") => " ++ functionBody value c ++ .lit ", [" ++
      .plain value.namesWord ++ .lit "])").Woven o own cs :=
    .of_eq (.append (.sep (.sep (.sep hcallee (by decide) (.ownWord hnames)) (by decide)
      h.functionBody) (by decide) (.ownWord hnames)) (.lit (by decide))) (by simp)
  rw [runtimeCall, hk]
  cases k with
  | state => exact hwrapped
  | computed | react => exact htracked
  | mutate =>
    have hshape : (if value.isArrow then Code.plain (o.identifier ++ txt "." ++ Modifier.mutate.method) ++
        (atLevel Level.assignment value c).parenthesized
        else .fault (.notFunction Modifier.mutate.name) value.pos).Woven o own cs := by
      rw [if_pos (harrow hk value rfl)]
      exact hwrapped
    exact hshape

theorem woven_modified {m : Option Text} {c : Code}
    (hclean : (modified o m p value c).faults = []) (hnames : value.namesWord ∈ own)
    (h : c.Woven o own cs) : (modified o m p value c).Woven o own cs := by
  cases m with
  | none => exact h.atLevel
  | some m => exact woven_runtimeCall hclean hnames h

theorem woven_bound {word : String} (hword : txt word ∈ signs) {target : Expr} {value : Code}
    (h : value.Woven o own cs) :
    (bound word target (emit o d target) value).Woven o own (emit o d target :: cs) :=
  .of_eq (.sep (.sep .findings hword (woven_operand target)) (by decide) h.bare) (by simp)

/-- A declaration or a plain assignment as a statement. -/
theorem woven_binding {own : Option Text} {target : Expr} (he : sides? e = some (target, value))
    (hclean : (stmt o d inherited (.expression p own e)).faults = []) :
    (stmt o d inherited (.expression p own e)).Woven o [value.namesWord]
      [emit o d target, emit o d value] := by
  have hvalue : (modified o (own.or inherited) p value (emit o d value)).faults = [] :=
    faults_eq_nil_of_shows (fun _ hf => (shows_binding he).mpr (.inl hf)) hclean
  have hmodified : (modified o (own.or inherited) p value (emit o d value)).Woven o
      [value.namesWord] [emit o d value] :=
    woven_modified hvalue (List.mem_singleton.mpr rfl) (.self _)
  rw [stmt_expression_or]
  cases e with
  | declare r t v =>
    cases he
    rw [stmt, Option.or_none]
    exact .line (.of_eq (.append (woven_bound (by decide) hmodified) (.lit (by decide))) rfl)
  | assign r op t v =>
    cases op with
    | plain =>
      cases he
      cases hm : own.or inherited with
      | none =>
        have hassign : (emit o d (.assign r .plain target value)).Woven o [value.namesWord] _ :=
          woven_assign .plain target value
        exact .line (.of_eq (.append hassign.noBraceFirst (.lit (by decide))) rfl)
      | some m =>
        rw [hm] at hmodified
        have hempty : txt "" ∈ signs := by decide
        exact .line (.of_eq (.append (woven_bound hempty hmodified).noBraceFirst (.lit (by decide)))
          rfl)
    | compound op => cases he
  | _ => cases he

/-- Any other expression as a statement. -/
theorem woven_whole {own : Option Text} (he : sides? e = none)
    (hclean : (stmt o d inherited (.expression p own e)).faults = []) :
    (stmt o d inherited (.expression p own e)).Woven o [e.namesWord] [emit o d e] := by
  have hvalue : (modified o (own.or inherited) p e (emit o d e)).faults = [] :=
    faults_eq_nil_of_shows (fun _ => (shows_expression he).mpr) hclean
  rw [stmt_expression he]
  cases hm : own.or inherited with
  | none => exact .line (.append (Code.Woven.self _).noBraceFirst (.lit (by decide)))
  | some m =>
    rw [hm] at hvalue
    exact .line (.append (woven_runtimeCall hvalue (List.mem_singleton.mpr rfl) (.self _))
      (.lit (by decide)))

theorem woven_specifiers {names : List Specifier}
    (h : ∀ s ∈ names, (specifier s).text ∈ own) : (Code.braced (names.map specifier)).Woven o own [] := by
  have hone : ∀ s ∈ names, (specifier s).Woven o own [] := by
    intro s hs
    have hword := h s hs
    rw [specifier, Code.text_plain] at hword
    exact .ownWord hword
  exact .of_eq (.braced hone) (by simp)

theorem woven_importNames {default : Option Text} {names : List Specifier} {source : Expr}
    (hdefault : ∀ t ∈ default, t ∈ own) (hnames : ∀ s ∈ names, (specifier s).text ∈ own)
    (hsource : sourceText source ∈ own) : (importNames default names source).Woven o own [] := by
  have hclauses : ∀ c ∈ (default.map Code.plain).toList ++
      (if names.isEmpty then [] else [Code.braced (names.map specifier)]), c.Woven o own [] :=
    forall_mem_clauses (fun name hname => .ownWord (hdefault name hname)) (woven_specifiers hnames)
  unfold importNames
  dsimp only
  generalize (default.map Code.plain).toList ++
    (if names.isEmpty then [] else [Code.braced (names.map specifier)]) = clauses at hclauses ⊢
  split
  · exact .append (.append (.lit (by decide)) (.ownWord hsource)) (.lit (by decide))
  · have hjoin : (Code.join ", " (clauses.map id)).Woven o own (clauses.flatMap fun _ => []) :=
      .join (by decide) hclauses
    rw [List.map_id] at hjoin
    exact .of_eq (.append (.sep (.append (.lit (by decide)) hjoin) (by decide) (.ownWord hsource))
      (.lit (by decide))) (by simp)

/-- The script of a piece that is written in a statement. The statements of a block are written with
    its modifier. -/
def codeInside (o : Options) (d : Nat) (s : Stmt) : Piece → Code
  | .expr e => emit o d e
  | .stmt s' => stmt o d (Piece.stmt s).blockModifier s'
  | .program p => stmts o d none p.body

/-- **The script of a statement** is put together from the scripts of the pieces in it, each of them
    written once. -/
theorem woven_stmt {s : Stmt} (hwf : WellFormed.stmt s = true)
    (hclean : (stmt o d inherited s).faults = []) :
    (stmt o d inherited s).Woven o s.words ((Piece.stmt s).once.map (codeInside o d s)) := by
  cases s with
  | bad => cases hwf
  | expression p own e =>
    cases he : sides? e with
    | none =>
      have h := woven_whole he hclean
      simpa [Stmt.words, Piece.once, he, Piece.ofExprs, codeInside] using h
    | some sides =>
      have h := woven_binding he hclean
      simpa [Stmt.words, Piece.once, he, Piece.ofExprs, codeInside] using h
  | «return» p own argument =>
    cases argument with
    | none =>
      rw [stmt_return_none]
      cases own.or inherited with
      | none => exact .line (.lit (by decide))
      | some m =>
        have hfault : (if (Modifier.ofName? m).isNone then Code.fault (.unknownModifier m) p
            else {}).Woven o (Stmt.return p own none).words [] := by
          split
          · exact .findings (c := .fault (.unknownModifier m) p)
          · exact .empty
        exact hfault.append (.line (.lit (by decide)))
    | some e =>
      have hvalue : (modified o (own.or inherited) p e (emit o d e)).faults = [] :=
        faults_eq_nil_of_shows (fun _ => shows_return.mpr) hclean
      rw [stmt_return_some]
      cases hm : own.or inherited with
      | none => exact .line (.between (by decide) (.self _) (by decide))
      | some m =>
        rw [hm] at hvalue
        exact .line (.between (by decide)
          (woven_runtimeCall hvalue (List.mem_singleton.mpr rfl) (.self _)) (by decide))
  | modifierBlock p m q body =>
    rw [stmt]
    have h : (stmts o d (some m) body).Woven o [] (body.map (stmt o d (some m))) := by
      rw [List.map_eq_flatMap]
      exact woven_stmts fun s _ => .self _
    simpa [Stmt.words, Piece.once, Piece.parts, Stmt.parts, Piece.ofStmts, codeInside,
      Function.comp_def, Piece.blockModifier] using h
  | exportDefault p e =>
    rw [stmt]
    exact .line (.append (.append (.lit (by decide)) (woven_operand e)) (.lit (by decide)))
  | exportNames p names =>
    rw [stmt]
    have hnames : ∀ s ∈ names, (specifier s).text ∈ (Stmt.exportNames p names).words :=
      fun s hs => List.mem_map_of_mem hs
    exact .line (.append (.append (.lit (by decide)) (woven_specifiers hnames)) (.lit (by decide)))
  | exportDeclaration p q own e =>
    rw [WellFormed.stmt, Bool.and_eq_true] at hwf
    have hvalue {target value : Expr} (he : sides? e = some (target, value)) :
        (modified o own q value (emit o d value)).faults = [] := by
      refine faults_eq_nil_of_shows (fun f hf => ?_) hclean
      rw [shows_exportDeclaration hwf.1, shows_binding he, Option.or_none]
      exact .inl hf
    have hbound {target value : Expr} (he : sides? e = some (target, value)) :
        (line d (bound "export const " target (emit o d target)
          (modified o own q value (emit o d value)) ++ .lit ";")).Woven o [value.namesWord]
          [emit o d target, emit o d value] :=
      .line (.of_eq (.append (woven_bound (by decide)
        (woven_modified (hvalue he) (List.mem_singleton.mpr rfl) (.self _))) (.lit (by decide))) rfl)
    cases e with
    | declare r t v => exact hbound rfl
    | assign r op t v =>
      cases op with
      | plain => exact hbound rfl
      | compound op => cases hwf.1
    | _ => cases hwf.1
  | importNames p default names source =>
    rw [stmt]
    refine .line (woven_importNames (fun t ht => ?_) (fun s hs => ?_) ?_) <;>
      simp [Stmt.words]
    · exact .inl ht
    · exact .inr (.inl ⟨s, hs, rfl⟩)
  | importNamespace p name source =>
    rw [stmt]
    exact .line (.append (.sep (.append (.lit (by decide)) (.ownWord (by simp [Stmt.words])))
      (by decide) (.ownWord (by simp [Stmt.words]))) (.lit (by decide)))

end

end Script

end ReactiveScript
