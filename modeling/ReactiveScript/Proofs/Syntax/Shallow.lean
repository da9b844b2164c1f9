import ReactiveScript.Proofs.Syntax.Pieces

/-!
# Levels of a tree

The reader goes a level deeper for signs, operators, links of a chain, elements and patterns. A
tree is shallow if no way down from its root passes more than so many of them.
-/

namespace ReactiveScript

/-- Does the reader go a level deeper for this expression? -/
@[reducible] def Expr.takesLevel : Expr → Bool
  | .unary _ _ _ | .update _ _ true _ | .binary _ _ _ _ | .call _ _ _ _ | .member _ _ _ _ _
  | .slice _ _ _ _ | .tagged _ _ _ _ _ | .jsxElement _ _ _ _ _ | .jsxFragment _ _
  | .arrayPattern _ _ | .objectPattern _ _ => true
  | _ => false

@[reducible] def Piece.takesLevel : Piece → Bool
  | .expr e => e.takesLevel
  | .program _ | .stmt _ => false

/-- Is this no element that closes itself and has children all the same? -/
def Expr.isTidy : Expr → Bool
  | .jsxElement _ _ _ children selfClosing => !selfClosing || children.isEmpty
  | _ => true

def Piece.isTidy : Piece → Bool
  | .expr e => e.isTidy
  | .program _ | .stmt _ => true

/-- At most `n` levels are taken on any way down, and all pieces are tidy. -/
inductive Shallow : Nat → Piece → Prop
  | node {n k : Nat} {q : Piece} (hk : k + q.takesLevel.toNat ≤ n) (htidy : q.isTidy = true)
      (h : ∀ r ∈ q.parts, Shallow k r) : Shallow n q

namespace Shallow
variable {n : Nat}

theorem mono {q : Piece} {m : Nat} (h : Shallow n q) (hm : n ≤ m) : Shallow m q := by
  cases h with
  | node hk htidy h => exact .node (Nat.le_trans hk hm) htidy h

/-- A way down passes no more levels than there are. -/
theorem countP_le {q : Piece} {path : List Piece} (h : Shallow n q) (hpath : Path q path) :
    path.countP Piece.takesLevel ≤ n := by
  induction hpath generalizing n with
  | @leaf q _ =>
    cases h with
    | node hk _ _ =>
      cases hq : q.takesLevel <;> simp [hq] at hk ⊢
      omega
  | @step q r path hr _ ih =>
    cases h with
    | node hk _ h =>
      have hle := ih (h r hr)
      rw [List.countP_cons]
      cases hq : q.takesLevel <;> simp [hq] at hk ⊢ <;> omega

theorem isTidy {q r : Piece} (h : Shallow n q) (hr : Within q r) : r.isTidy = true := by
  induction hr generalizing n with
  | refl q =>
    cases h with
    | node _ htidy _ => exact htidy
  | step hr _ ih =>
    cases h with
    | node _ _ h => exact ih (h _ hr)

end Shallow

end ReactiveScript
