import ReactiveScript.Text.Basic

/-!
# Trivia

White space and comments between tokens. `Trivia.skip` measures the trivia at the start of a text:
its width, whether a line ends in it, and where a block comment starts that is never closed.
-/

namespace ReactiveScript

/-- The trivia at the start of a text. -/
structure Trivia where
  width : Nat
  /-- Does a line end in it? -/
  breaks : Bool
  /-- The number of bytes up to the text of an unclosed comment. -/
  unclosed : Option Nat := none
  deriving DecidableEq, Repr

namespace Trivia

/-- What a byte of trivia belongs to. -/
inductive Within where
  | space
  | lineComment
  /-- A block comment whose text starts after so many bytes. -/
  | blockComment (start : Nat)
  deriving DecidableEq, Repr

/-- The rest of the trivia after `n` bytes. -/
def skipFrom (w : Within) (n : Nat) (breaks : Bool) : Text → Trivia
  | [] =>
    match w with
    | .blockComment start => { width := n, breaks := breaks, unclosed := some start }
    | _ => { width := n, breaks := breaks }
  | b :: rest =>
    match w with
    | .space =>
      if b = Byte.space ∨ b = Byte.tab ∨ b = Byte.carriageReturn then
        skipFrom .space (n + 1) breaks rest
      else if b = Byte.newline then skipFrom .space (n + 1) true rest
      else if b = Byte.slash then
        match rest with
        | [] => { width := n, breaks := breaks }
        | c :: rest =>
          if c = Byte.slash then skipFrom .lineComment (n + 2) breaks rest
          else if c = Byte.star then skipFrom (.blockComment (n + 2)) (n + 2) breaks rest
          else { width := n, breaks := breaks }
      else { width := n, breaks := breaks }
    | .lineComment =>
      if b = Byte.newline then skipFrom .space (n + 1) true rest
      else skipFrom .lineComment (n + 1) breaks rest
    | .blockComment _ =>
      if b = Byte.newline then skipFrom w (n + 1) true rest
      else if b = Byte.star ∧ rest.head? = some Byte.slash then
        match rest with
        | [] => { width := n + 1, breaks := breaks }
        | _ :: rest => skipFrom .space (n + 2) breaks rest
      else skipFrom w (n + 1) breaks rest

/-- The trivia at the start of a text. -/
def skip (t : Text) : Trivia := skipFrom .space 0 false t

end Trivia

end ReactiveScript
