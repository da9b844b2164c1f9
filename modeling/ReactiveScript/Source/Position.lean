import ReactiveScript.Source.Span

/-!
# Positions in a source

A position is a byte offset with the line and column it lies on. Lines and columns count from one,
columns count bytes, and only a line feed ends a line. A position moves over text byte by byte
(`Position.step`), so the position after any text is a fold over that text (`Position.advance`). It
is kept in words of 32 bits (`Position.words`).
-/

namespace ReactiveScript

/-- A place in a source: offset from zero, line and column from one. -/
structure Position where
  offset : Nat := 0
  line : Nat := 1
  column : Nat := 1
  deriving DecidableEq, Repr, Inhabited

namespace Position

/-- The start of a source. -/
def start : Position := {}

/-- The position after one byte. -/
def step (p : Position) (b : UInt8) : Position :=
  if b = Byte.newline then ⟨p.offset + 1, p.line + 1, 1⟩
  else ⟨p.offset + 1, p.line, p.column + 1⟩

/-- The position after a text. -/
def advance (p : Position) (t : Text) : Position := t.foldl step p

/-- The position as three words of 32 bits hold it. -/
def words (p : Position) : Position :=
  ⟨p.offset % Span.wordCount, p.line % Span.wordCount, p.column % Span.wordCount⟩

/-- `line:column`, as it is shown to the user. -/
def render (p : Position) : Text := Text.ofNat p.line ++ txt ":" ++ Text.ofNat p.column

@[simp] theorem advance_nil (p : Position) : p.advance [] = p := rfl

@[simp] theorem advance_cons (p : Position) (b : UInt8) (t : Text) :
    p.advance (b :: t) = (p.step b).advance t := rfl

theorem advance_append (p : Position) (s t : Text) :
    p.advance (s ++ t) = (p.advance s).advance t := List.foldl_append

end Position

end ReactiveScript
