/-!
# How deep a tree can get

The reader counts its levels while it reads, but a chain of links or operators grows around what was
read before: each link is one level deeper than the one before it, and the chain as a whole goes
back to the level of its operand. So an operand in parentheses brings its own levels, then come as
many links as there are levels left, and then as many operators.
-/

namespace ReactiveScript.Grammar

/-- The most levels that an expression can take while `m` levels are left to the reader. With each
    level there are a link and an operator more than with the one before. -/
def most (m : Nat) : Nat := m * (m - 1) + 1

theorem most_succ (m : Nat) : most (m + 1) = most m + 2 * m := by
  cases m with
  | zero => rfl
  | succ m => grind [most]

theorem most_pos (m : Nat) : 0 < most m := Nat.succ_pos _

/-- The bound for a chain of operators, from the one for the level below. -/
theorem most_eq (n : Nat) : most n = most (n - 1) + 2 * (n - 1) := by
  cases n with
  | zero => rfl
  | succ n => exact most_succ n

/-- So many levels are enough for the expressions of the level below, if there are any. -/
class Room (n k : Nat) : Prop where
  le : 1 < n → most (n - 1) ≤ k

namespace Room
variable {n k : Nat}

instance self : Room n (most (n - 1)) := ⟨fun _ => Nat.le_refl _⟩

theorem of_le (h : most (n - 1) ≤ k) : Room n k := ⟨fun _ => h⟩

instance next : Room n (most n) := by
  have heq := most_eq n
  exact ⟨fun _ => by omega⟩

/-- What is enough for a level is enough for the level below with one level around, which there is
    room for if there are levels below. -/
theorem pred (h : Room (n + 1) k) : Room n (k - 1) := by
  have hle := h.le
  have heq := most_eq n
  rw [Nat.add_sub_cancel] at hle
  exact ⟨fun hn => by have := hle (by omega); omega⟩

theorem below (h : Room (n + 1) k) : Room n k :=
  ⟨fun hn => Nat.le_trans (h.pred.le hn) (Nat.sub_le k 1)⟩

theorem pos (h : Room (n + 1) k) (hn : 0 < n) : 0 < k := by
  have hle := h.le (by omega)
  rw [Nat.add_sub_cancel] at hle
  exact Nat.lt_of_lt_of_le (most_pos n) hle

end Room

end ReactiveScript.Grammar
