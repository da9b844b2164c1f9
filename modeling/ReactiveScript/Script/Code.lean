import ReactiveScript.Fault
import ReactiveScript.Text.Rope

/-!
# Pieces of a script

A piece of a script is a text together with what was found while it was written: the faults, and
whether the runtime is used. Pieces are joined by `++`, which joins all three.
-/

namespace ReactiveScript

/-- A piece of a script. -/
structure Code where
  rope : Rope := .leaf []
  faults : List Report := []
  usesRuntime : Bool := false
  deriving DecidableEq, Repr, Inhabited

namespace Code

/-- The text of a piece. -/
def text (c : Code) : Text := c.rope.text

/-! ## 1. Joining -/

/-- Two pieces, one after the other. -/
def append (a b : Code) : Code :=
  ⟨a.rope.append b.rope, a.faults ++ b.faults, a.usesRuntime || b.usesRuntime⟩

instance : Append Code := ⟨append⟩

@[simp] theorem text_append (a b : Code) : (a ++ b).text = a.text ++ b.text :=
  Rope.text_append a.rope b.rope

@[simp] theorem faults_append (a b : Code) : (a ++ b).faults = a.faults ++ b.faults := rfl

@[simp] theorem usesRuntime_append (a b : Code) :
    (a ++ b).usesRuntime = (a.usesRuntime || b.usesRuntime) := rfl

/-- A text as a piece. -/
def plain (t : Text) : Code := { rope := .leaf t }

/-- A string as a piece. -/
def lit (s : String) : Code := plain (txt s)

@[simp] theorem text_plain (t : Text) : (plain t).text = t := Rope.text_leaf t

@[simp] theorem faults_plain (t : Text) : (plain t).faults = [] := rfl

@[simp] theorem text_lit (s : String) : (lit s).text = txt s := text_plain (txt s)

@[simp] theorem faults_lit (s : String) : (lit s).faults = [] := rfl

/-- A fault, with no text. -/
def fault (f : CompileFault) (p : Position) : Code := { faults := [⟨.compile f, p⟩] }

/-- Pieces with a separator between them. -/
def join (sep : String) : List Code → Code
  | [] => {}
  | [c] => c
  | c :: cs => c ++ lit sep ++ join sep cs

/-! ## 2. Text and findings apart -/

/-- The text of a piece, without what was found. -/
def bare (c : Code) : Code := { rope := c.rope }

/-- What was found, without the text. -/
def findings (c : Code) : Code := { c with rope := .leaf [] }

@[simp] theorem text_bare (c : Code) : c.bare.text = c.text := rfl

@[simp] theorem faults_bare (c : Code) : c.bare.faults = [] := rfl

@[simp] theorem text_findings (c : Code) : c.findings.text = [] := Rope.text_leaf []

@[simp] theorem faults_findings (c : Code) : c.findings.faults = c.faults := rfl

/-- A piece in which the runtime is used. -/
def withRuntime (used : Bool) (c : Code) : Code := { c with usesRuntime := used || c.usesRuntime }

/-! ## 3. Brackets -/

def parenthesized (c : Code) : Code := lit "(" ++ c ++ lit ")"

/-- Parentheses around a piece, if they are needed. -/
def parenthesizedIf (needed : Bool) (c : Code) : Code := if needed then parenthesized c else c

/-- Parentheses around a piece that starts with a brace, so that it is not taken for a block. -/
def noBraceFirst (c : Code) : Code :=
  parenthesizedIf (c.rope.head? == some Byte.openBrace) c

/-- Pieces in braces, separated by commas. -/
def braced (cs : List Code) : Code :=
  if cs.isEmpty then lit "\x7b\x7d" else lit "\x7b " ++ join ", " cs ++ lit " \x7d"

end Code

end ReactiveScript
