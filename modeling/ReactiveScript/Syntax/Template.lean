import ReactiveScript.Source.Span
import ReactiveScript.Syntax.Tree
import ReactiveScript.Text.Escape
import ReactiveScript.Token.Stream

/-!
# Templates

`Template.split` takes the text of a template token apart into literal parts and holes, the texts
between `${` and `}`. There is always one more literal part than there are holes. `Template.parts`
makes the tree, given a way to read a hole as an expression.

Where a hole ends is found out from the text of the token alone, by routines that pass over strings
and templates in it (`fromBrace`, `behindTemplate`). They are not those that found the end of the
token.
-/

namespace ReactiveScript.Template

/-! ## 1. The end of a hole -/

/-- The text behind a string whose opening quote has been read. It ends with its quote or with its
    line. -/
def behindString (quote : UInt8) : Text → Text
  | [] => []
  | b :: rest =>
    if b = quote ∨ b = Byte.newline then rest
    else if b = Byte.backslash then
      match rest with
      | [] => []
      | _ :: rest => behindString quote rest
    else behindString quote rest

mutual

/-- The text from the brace on that closes a hole with so many braces open; nothing without one.
    Every byte read costs one of the rounds. -/
def fromBrace : Nat → Nat → Text → Text
  | 0, _, _ | _, _, [] => []
  | rounds + 1, depth, b :: rest =>
    if b = Byte.openBrace then fromBrace rounds (depth + 1) rest
    else if b = Byte.closeBrace then
      if depth ≤ 1 then b :: rest else fromBrace rounds (depth - 1) rest
    else if b = Byte.backtick then fromBrace rounds depth (behindTemplate rounds rest)
    else if b = Byte.doubleQuote ∨ b = Byte.singleQuote then
      fromBrace rounds depth (behindString b rest)
    else fromBrace rounds depth rest

/-- The text behind a template whose opening backtick has been read. -/
def behindTemplate : Nat → Text → Text
  | 0, _ | _, [] => []
  | rounds + 1, b :: rest =>
    if b = Byte.backslash then behindTemplate rounds (rest.drop 1)
    else if b = Byte.backtick then rest
    else if b = Byte.dollar ∧ rest.head? = some Byte.openBrace then
      behindTemplate rounds ((fromBrace rounds 1 (rest.drop 1)).drop 1)
    else behindTemplate rounds rest

end

/-- The number of bytes of a hole in front of its closing brace; all bytes without one. The text
    starts just after `${`. -/
def holeLength (t : Text) : Nat := t.length - (fromBrace (t.length + 1) 1 t).length

/-! ## 2. Parts of a template -/

/-- The text between `${` and its brace, and where it starts. -/
structure Hole where
  pos : Position
  inner : Text
  deriving DecidableEq, Repr

/-- Where a hole lies in the source. -/
def Hole.span (h : Hole) : Span := ⟨h.pos.offset, h.pos.offset + h.inner.length⟩

/-- Literal parts and the holes between them. -/
structure Parts where
  quasis : List Text
  holes : List Hole
  deriving DecidableEq, Repr

/-- What the next bytes of a template belong to. -/
inductive Pending where
  | nothing
  /-- The next byte is escaped. -/
  | escape
  /-- So many bytes belong to a hole. -/
  | hole (n : Nat)
  deriving DecidableEq, Repr

/-- The offset at which the body of a template token ends: before its closing backtick, or at its
    end without one. -/
def bodyEnd (t : Text) : Nat :=
  if 2 ≤ t.length ∧ t.getLast? = some Byte.backtick then t.length - 1 else t.length

/-- Split the bytes from the `i`th on, at position `p`, up to offset `stop`. The part being read and
    the parts found are kept last first. -/
def splitFrom (stop : Nat) (pending : Pending) (i : Nat) (p : Position) (part : Text)
    (quasis : List Text) (holes : List Hole) : Text → Parts
  | [] => ⟨(part.reverse :: quasis).reverse, holes.reverse⟩
  | b :: rest =>
    if stop ≤ i then ⟨(part.reverse :: quasis).reverse, holes.reverse⟩
    else
      match pending with
      | .hole (n + 1) => splitFrom stop (.hole n) (i + 1) (p.step b) part quasis holes rest
      | .escape => splitFrom stop .nothing (i + 1) (p.step b) (b :: part) quasis holes rest
      | _ =>
        if b = Byte.backslash then
          splitFrom stop .escape (i + 1) (p.step b) (b :: part) quasis holes rest
        else if b = Byte.dollar ∧ i + 1 < stop ∧ rest.head? = some Byte.openBrace then
          let length := min (holeLength (rest.drop 1)) (stop - (i + 2))
          let hole : Hole :=
            { pos := (p.step b).step Byte.openBrace, inner := (rest.drop 1).take length }
          splitFrom stop (.hole (length + 2)) (i + 1) (p.step b) [] (part.reverse :: quasis)
            (hole :: holes) rest
        else splitFrom stop .nothing (i + 1) (p.step b) (b :: part) quasis holes rest

/-- The parts of a template token whose text starts at a position. -/
def split (p : Position) (t : Text) : Parts :=
  splitFrom (bodyEnd t) .nothing 1 (p.advance (t.take 1)) [] [] [] (t.drop 1)

/-! ## 3. Building the tree -/

/-- A literal part with its escapes read. -/
def quasi (raw : Text) : Quasi := ⟨raw, Escape.cook raw⟩

/-- What stands in the tree for a hole. A hole without an expression is reported. -/
def foundIn {m : Type → Type} [Monad m] (report : Report → m Unit) (h : Hole) :
    Option Expr → m Expr
  | some e => pure e
  | none => do
    report { fault := .build (.interpolation h.inner), pos := h.pos }
    pure (.bad h.pos)

/-- The expression in a hole. A blank hole holds none. -/
def holeExpr {m : Type → Type} [Monad m] (readHole : Hole → m (Option Expr))
    (report : Report → m Unit) (h : Hole) : m Expr := do
  foundIn report h (← if Text.isBlank h.inner then pure none else readHole h)

/-- The tree of a template token: its literal parts and the expressions in its holes. -/
def parts {m : Type → Type} [Monad m] (readHole : Hole → m (Option Expr))
    (report : Report → m Unit) (t : Token) : m (List Quasi × List Expr) := do
  let found := split t.pos t.text
  let exprs ← found.holes.mapM (holeExpr readHole report)
  pure (found.quasis.map quasi, exprs)

end ReactiveScript.Template
