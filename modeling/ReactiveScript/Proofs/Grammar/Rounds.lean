import ReactiveScript.Proofs.Grammar.Levels
import ReactiveScript.Proofs.Grammar.Moves

/-!
# More rounds change nothing

A reading that is not cut short reads the same with more rounds for its loops. So all attempts at a
source that have an answer have the same one.
-/

namespace ReactiveScript.Grammar

/-- Wherever the routine comes to its end, it does so in the same way with more rounds. -/
def Grows {α : Type} [Placed α] (routine : Context → Reading α) (source : Text) : Prop :=
  ∀ {m n : Nat} [AtMost m n], Moves none State.Anyhow (routine (Context.ofSource source m))
    (routine (Context.ofSource source n))

section
variable {α : Type} [Placed α] {routine : Context → Reading α} {source : Text}
  (hgrows : Grows routine source)
include hgrows

/-- What an attempt answers, every attempt with more rounds answers. -/
theorem runFor_mono {m n : Nat} (hle : m ≤ n) {r : Except (List Report) α}
    (h : runFor routine source m = .ok r) : runFor routine source n = .ok r := by
  have hatMost : AtMost m n := ⟨hle⟩
  unfold runFor at h ⊢
  cases hrun : (routine (Context.ofSource source m)).run (State.ofText source) with
  | error u =>
    rw [hrun] at h
    cases h
  | ok p =>
    have hrun' : (routine (Context.ofSource source n)).run (State.ofText source) =
        .ok p := (hgrows.run (Placed.isIn_none _) _ _ hrun).same
    rw [hrun] at h
    rw [hrun']
    exact h

/-- **An answer of any attempt is the answer.** -/
theorem runOn_of_runFor {n : Nat} {r : Except (List Report) α}
    (h : runFor routine source n = .ok r) : runOn routine source = some r := by
  have hlater : runFor routine source (source.length + 2 + n) = .ok r :=
    runFor_mono hgrows (by omega) h
  obtain ⟨r', hr'⟩ := Option.ne_none_iff_exists'.1 (firstAnswer_isSome hlater)
  obtain ⟨k, _, hk⟩ := firstAnswer_eq_some hr'
  have hboth := (runFor_mono hgrows (Nat.le_max_left k n) hk).symm.trans
    (runFor_mono hgrows (Nat.le_max_right k n) h)
  cases hboth
  exact hr'

/-- A run without a report, with any number of rounds, is the reading of the source. -/
theorem runOn_of_run {n : Nat} {a : α} {s : State}
    (h : routine (Context.ofSource source n) (State.ofText source) = .ok (a, s))
    (hs : s.reports = []) : runOn routine source = some (.ok a) := by
  refine runOn_of_runFor hgrows (n := n) ?_
  unfold runFor
  change (routine (Context.ofSource source n) (State.ofText source) >>= _) = _
  rw [h]
  change Except.ok (if s.reports.isEmpty then Except.ok a else _) = _
  rw [hs]
  rfl

end

end ReactiveScript.Grammar
