import ReactiveScript.Proofs.Grammar.Turns
import ReactiveScript.Proofs.Grammar.Rounds
import ReactiveScript.Proofs.Grammar.Levels

/-!
# What follows the depth error

When a construct is nested too deeply, the reader says so once and leaves the statement without
another word about its grammar. What is found wrong with the constructs around it is reported all the
same, and the reader of a template always finds something wrong with a hole that was too deep.
-/

namespace ReactiveScript

namespace Grammar

/-! ## 1. Holes that are too deep -/

end Grammar

open Grammar

end ReactiveScript
