import ReactiveScript.Token.Lexeme
import ReactiveScript.Token.Trivia
import ReactiveScript.Source.Span

/-!
# The token stream

A cursor is a place in a source from which tokens are read on demand. A token knows whether it is
the first on its line, which is what separates statements and shapes blocks.

* `Cursor.next` : skip trivia and read one token.
* `Cursor.jsxText` : read the raw text up to the next `<` or `{`.
* `tokenize` : all tokens of a source, the last one being the end.
-/

namespace ReactiveScript

/-! ## 1. Tokens and cursors -/

/-- A token of a source. -/
structure Token where
  kind : Kind := .invalid
  text : Text := []
  pos : Position := .start
  /-- Is it the first token on its line? -/
  lineStart : Bool := false
  deriving DecidableEq, Repr, Inhabited

namespace Token

def offset (t : Token) : Nat := t.pos.offset

/-- The offset just after the token. -/
def stop (t : Token) : Nat := t.pos.offset + t.text.length

/-- The column of the token. -/
def column (t : Token) : Nat := t.pos.column

/-- Does its text start with this byte? -/
def startsWith (t : Token) (b : UInt8) : Bool := t.text.head? == some b

end Token

/-- A place in a source: what is left, where that lies, and whether a line has begun since the last
    token. -/
structure Cursor where
  rest : Text
  pos : Position := .start
  lineStart : Bool := true
  deriving DecidableEq, Repr, Inhabited

namespace Cursor

/-- The start of a source. -/
def ofText (source : Text) : Cursor := { rest := source }

/-- Has the source been read to its end? -/
def atEnd (c : Cursor) : Bool := c.rest.isEmpty

/-- A place given by its position, with no line begun. -/
def place (source : Text) (p : Position) : Cursor :=
  { rest := source.drop p.offset, pos := p, lineStart := false }

/-- The place `skip` bytes into a token, on the token's line. -/
def inside (source : Text) (t : Token) (skip : Nat) : Cursor :=
  place source ⟨t.pos.offset + skip, t.pos.line, t.pos.column + skip⟩

end Cursor

/-! ## 2. Reading one token -/

/-- A token, the place after it, and the faults met on the way. -/
structure Scanned where
  token : Token
  cursor : Cursor
  reports : List Report := []
  deriving DecidableEq, Repr

namespace Cursor

/-- Reports of faults that lie so many bytes into a text at `p`. -/
def locate (p : Position) (t : Text) (faults : List (Nat × LexFault)) : List Report :=
  faults.map fun f => { fault := .lex f.2, pos := p.advance (t.take f.1) }

/-- Skip trivia and read one token. At the end of the source the token is empty, and reading it
    again gives it again. -/
def next (c : Cursor) : Scanned :=
  let trivia := Trivia.skip c.rest
  let here := c.pos.advance (c.rest.take trivia.width)
  let lineStart := c.lineStart || trivia.breaks
  let comments := match trivia.unclosed with
    | some n => locate c.pos c.rest [(n, .openComment)]
    | none => []
  match c.rest.drop trivia.width with
  | [] =>
    { token := { kind := .eof, pos := here, lineStart := lineStart }
      cursor := { rest := [], pos := here, lineStart := false }
      reports := comments }
  | b :: rest =>
    let lexeme := Lexeme.scan b rest
    let text := (b :: rest).take lexeme.width
    { token := { kind := lexeme.kind, text := text, pos := here, lineStart := lineStart }
      cursor :=
        { rest := (b :: rest).drop lexeme.width, pos := here.advance text, lineStart := false }
      reports := comments ++ locate here (b :: rest) lexeme.faults }

/-- A byte of the text between tags. -/
def isJsxText (b : UInt8) : Bool := b != Byte.less && b != Byte.openBrace

/-- Read the text up to the next `<` or `{`. It may be empty, and it is never the first token of a
    line; a line that begins in it is remembered for the token that follows. -/
def jsxText (c : Cursor) : Scanned :=
  let text := c.rest.takeWhile isJsxText
  { token := { kind := .jsxText, text := text, pos := c.pos }
    cursor :=
      { rest := c.rest.drop text.length
        pos := c.pos.advance text
        lineStart := c.lineStart || text.contains Byte.newline } }

end Cursor

/-! ## 3. All tokens of a source -/

/-- The tokens from a cursor on, and the faults in them. Each token but the end takes at least one
    byte, so `fuel` need only exceed the number of bytes left. -/
def tokensFrom (fuel : Nat) (tokens : List Token) (reports : List Report) (c : Cursor) :
    List Token × List Report :=
  match fuel with
  | 0 => (tokens.reverse, reports.reverse)
  | fuel + 1 =>
    let s := c.next
    let tokens := s.token :: tokens
    let reports := s.reports.reverse ++ reports
    if s.token.kind = .eof then (tokens.reverse, reports.reverse)
    else tokensFrom fuel tokens reports s.cursor

/-- All tokens of a source, the last one being its end, and the faults in them. -/
def tokenize (source : Text) : List Token × List Report :=
  tokensFrom (source.length + 1) [] [] (Cursor.ofText source)

/-! ## 4. Reading step by step -/

/-- A way to move over a source. -/
inductive Move where
  | next
  | jsxText
  /-- Remember the place. -/
  | save
  /-- Go back to a remembered place. -/
  | restore (index : Nat)
  /-- Go to a place inside a token that was read before. -/
  | resume (index skip : Nat)
  deriving DecidableEq, Repr

/-- A source that is read step by step. -/
structure Session where
  source : Text
  cursor : Cursor
  saved : List Cursor := []
  tokens : List Token := []
  reports : List Report := []

namespace Session

/-- The start of a source. -/
def ofText (source : Text) : Session := { source := source, cursor := Cursor.ofText source }

/-- Take a token that was read. -/
def accept (s : Session) (r : Scanned) : Session :=
  { s with
    cursor := r.cursor
    tokens := s.tokens ++ [r.token]
    reports := s.reports ++ r.reports }

/-- One move, and the token it read. `none` for a place or token that does not exist. Offsets and
    columns are 32-bit words. -/
def move? (s : Session) : Move → Option (Option Token × Session)
  | .next => some (some s.cursor.next.token, s.accept s.cursor.next)
  | .jsxText => some (some s.cursor.jsxText.token, s.accept s.cursor.jsxText)
  | .save => some (none, { s with saved := s.saved ++ [s.cursor] })
  | .restore i => (s.saved[i]?).map fun c => (none, { s with cursor := c })
  | .resume i skip =>
    (s.tokens[i]?).map fun t =>
      let p : Position :=
        { offset := (t.pos.offset + skip) % Span.wordCount
          line := t.pos.line
          column := (t.pos.column + skip) % Span.wordCount }
      (none, { s with cursor := Cursor.place s.source p })

end Session

end ReactiveScript
