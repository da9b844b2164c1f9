import ReactiveScript.Source.Position

/-!
# The line map of a source

The start offset of every line, in order. The line of an offset is the number of lines that start
at or before it; offsets past the end are taken for the end.
-/

namespace ReactiveScript

/-- The offsets at which the lines of a source start, and its length. -/
structure LineMap where
  starts : List Nat
  size : Nat

namespace LineMap

/-- The starts of lines found so far, last first, followed by those of a text that lies at
    `offset`; in the order of the source. -/
def startsFrom (found : List Nat) (offset : Nat) : Text → List Nat
  | [] => found.reverse
  | b :: rest =>
    if b = Byte.newline then startsFrom ((offset + 1) :: found) (offset + 1) rest
    else startsFrom found (offset + 1) rest

/-- The line map of a text. -/
def ofText (t : Text) : LineMap := ⟨startsFrom [0] 0 t, t.length⟩

/-- The number of lines. -/
def lineCount (m : LineMap) : Nat := m.starts.length

/-- The line and column of an offset. -/
def position (m : LineMap) (offset : Nat) : Position :=
  let place := min offset m.size
  let before := m.starts.takeWhile (· ≤ place)
  { offset := offset
    line := before.length
    column := place - before.getLastD 0 + 1 }

end LineMap

end ReactiveScript
