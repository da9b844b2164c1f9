import ReactiveScript.Grammar.Read
import ReactiveScript.Script.Module

/-!
# From source to script

`compile` reads a program and writes its script. It fails with the faults of reading, in the order
in which they were found; or else with the faults of writing. It has no answer if reading does not
end.
-/

namespace ReactiveScript

/-- Why there is no script. -/
inductive Failure where
  /-- The source could not be read. -/
  | reading (reports : List Report)
  /-- The source was read, but what it says cannot be written. -/
  | writing (reports : List Report)
  deriving DecidableEq, Repr

/-- All that was found wrong. -/
def Failure.reports : Failure → List Report
  | .reading rs | .writing rs => rs

/-- The text of a piece of script, if nothing was found wrong with it. -/
def Code.checked (c : Code) : Except Failure Text :=
  if c.faults.isEmpty then .ok c.text else .error (.writing c.faults)

/-- The script of a source; `none` if reading it does not end. -/
def compile (o : Script.Options) (source : Text) : Option (Except Failure Text) :=
  (readProgram source).map fun
    | .error rs => .error (.reading rs)
    | .ok p => (Script.ofProgram o p).checked

end ReactiveScript
