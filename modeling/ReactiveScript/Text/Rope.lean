import ReactiveScript.Text.Basic

/-!
# Ropes

A rope is a text that is still in pieces. Two ropes are joined in one step, however long they are;
the bytes are put in a row once, at the end (`Rope.text`).
-/

namespace ReactiveScript

/-- A text in pieces. -/
inductive Rope where
  | leaf (t : Text)
  | append (l r : Rope)
  deriving DecidableEq, Repr

namespace Rope

instance : Inhabited Rope := ⟨.leaf []⟩

/-- The bytes of a rope, in front of a text. -/
def onto : Rope → Text → Text
  | .leaf t, rest => t ++ rest
  | .append l r, rest => l.onto (r.onto rest)

/-- The bytes of a rope. -/
def text (r : Rope) : Text := r.onto []

/-- The first byte. -/
def head? : Rope → Option UInt8
  | .leaf t => t.head?
  | .append l r => l.head?.or r.head?

theorem onto_eq (r : Rope) (rest : Text) : r.onto rest = r.text ++ rest := by
  induction r generalizing rest with
  | leaf t => simp [onto, text]
  | append l r hl hr => simp only [onto, text]; rw [hl, hr, hl (r.onto []), hr []]; simp

@[simp] theorem text_leaf (t : Text) : (leaf t).text = t := by simp [text, onto]

@[simp] theorem text_append (l r : Rope) : (append l r).text = l.text ++ r.text := by
  rw [text, onto, onto_eq]; rfl

@[simp] theorem head?_eq (r : Rope) : r.head? = r.text.head? := by
  induction r with
  | leaf t => simp [head?]
  | append l r hl hr => simp [head?, hl, hr, List.head?_append]

end Rope

end ReactiveScript
