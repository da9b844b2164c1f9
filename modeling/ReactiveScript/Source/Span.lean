import ReactiveScript.Text.Basic

/-!
# Spans of a source

A half-open range of byte offsets. Offsets are 32-bit words, and so is the size of a span: a span
whose end lies before its start has the size that word subtraction gives it, and its slice runs
from the start to the end of the source.
-/

namespace ReactiveScript

/-- The bytes from `start` up to and without `stop`. -/
structure Span where
  start : Nat
  stop : Nat
  deriving DecidableEq, Repr, Inhabited

namespace Span

/-- The number of words of 32 bits. -/
def wordCount : Nat := Nat.pow 2 32

/-- The size, as a word. -/
def size (s : Span) : Nat :=
  if s.start ≤ s.stop then s.stop - s.start else s.stop + wordCount - s.start

/-- A span that holds no byte. -/
def isEmpty (s : Span) : Bool := s.stop ≤ s.start

/-- The bytes of a source that lie in the span. -/
def slice (s : Span) (source : Text) : Text := (source.drop s.start).take s.size

end Span

end ReactiveScript
