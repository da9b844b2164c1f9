import ReactiveScript.Source.LineMap
import ReactiveScript.Source.Span
import ReactiveScript.Syntax.Tree
import ReactiveScript.Text.Entity

/-!
# Children of elements

What stands between two tags is first a list of slots: runs of text, nodes and empty braces, each
with its span. `Children.ofSlots` makes the children of it.

Text is trimmed, and blank text vanishes. Where white space without a line end lies between two
neighbours that are kept, one blank stands for it. Texts that meet become one. Empty braces leave
nothing themselves, but they are neighbours.
-/

namespace ReactiveScript

/-- A piece of what stands between two tags. -/
inductive Slot where
  | text (span : Span)
  | node (span : Span) (expr : Expr)
  /-- Braces with nothing but trivia inside. -/
  | comment (span : Span)

namespace Slot

/-- Where a slot lies. -/
def span : Slot → Span
  | .text s | .node s _ | .comment s => s

end Slot

namespace Children

/-! ## 1. What is kept -/

/-- A piece that is kept: its span and the node it leaves, if any. -/
structure Entry where
  span : Span
  node : Option Expr

/-- The piece that a slot leaves. -/
def piece? (lines : LineMap) (source : Text) : Slot → Option Entry
  | .text s =>
    (Text.trimBounds (s.slice source)).map fun (first, last) =>
      let trimmed : Span := ⟨s.start + first, s.start + last⟩
      { span := trimmed
        node := some (.jsxText (lines.position trimmed.start)
          (Entity.decode (trimmed.slice source))) }
  | .node s e => some { span := s, node := some e }
  | .comment s => some { span := s, node := none }

/-- The pieces that are kept of all slots. -/
def entries (lines : LineMap) (source : Text) (slots : List Slot) : List Entry :=
  slots.filterMap (piece? lines source)

/-! ## 2. Gaps -/

/-- Does the gap between two pieces leave a blank? -/
def leavesBlank (source : Text) (gap : Span) : Bool :=
  !gap.isEmpty && Text.isBlank (gap.slice source) && !(gap.slice source).contains Byte.newline

/-- The blank that the gap after a piece leaves. -/
def blank? (lines : LineMap) (source : Text) (before : Option Entry) (e : Entry) : Option Expr :=
  match before with
  | none => none
  | some b =>
    let gap : Span := ⟨b.span.stop, e.span.start⟩
    if leavesBlank source gap then some (.jsxText (lines.position gap.start) [Byte.space]) else none

/-! ## 3. Children -/

/-- Add a child to those there are, kept last first. Text joins a text that it follows. -/
def push (children : List Expr) (node : Expr) : List Expr :=
  match node, children with
  | .jsxText _ v, .jsxText p u :: rest => .jsxText p (u ++ v) :: rest
  | _, _ => node :: children

/-- The children of a list of pieces, after those that there are already. -/
def join (lines : LineMap) (source : Text) (before : Option Entry) (children : List Expr) :
    List Entry → List Expr
  | [] => children.reverse
  | e :: es =>
    let nodes := (blank? lines source before e).toList ++ e.node.toList
    join lines source (some e) (nodes.foldl push children) es

/-- The children that slots of a source leave. -/
def ofSlots (lines : LineMap) (source : Text) (slots : List Slot) : List Expr :=
  join lines source none [] (entries lines source slots)

end Children

end ReactiveScript
