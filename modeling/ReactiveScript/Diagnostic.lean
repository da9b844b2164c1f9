import ReactiveScript.Fault

/-!
# Diagnostics

A diagnostic is a message of some severity about a place in a file. A `Log` collects them in
order; the counts and the first error are read off the list, so they cannot disagree with it. A log
may have a listener, which hears every diagnostic as it is reported, absorbed ones included.
-/

namespace ReactiveScript

/-- How grave a diagnostic is. -/
inductive Severity where
  | note | warning | error
  deriving DecidableEq, Repr, Inhabited

def Severity.name : Severity → Text
  | .note => txt "note"
  | .warning => txt "warning"
  | .error => txt "error"

/-- A message about a place in a file. -/
structure Diagnostic where
  severity : Severity := .error
  stage : Stage := .general
  file : Text := []
  pos : Position := .start
  message : Text := []
  deriving DecidableEq, Repr, Inhabited

namespace Diagnostic

/-- `file:line:column: severity: message` -/
def render (d : Diagnostic) : Text :=
  d.file ++ txt ":" ++ d.pos.render ++ txt ": " ++ d.severity.name ++ txt ": " ++ d.message

/-- `stage: message (file:line:column)` -/
def summary (d : Diagnostic) : Text :=
  d.stage.name ++ txt ": " ++ d.message ++ txt " (" ++ d.file ++ txt ":" ++ d.pos.render ++ txt ")"

def isError (d : Diagnostic) : Bool := d.severity = .error

def isWarning (d : Diagnostic) : Bool := d.severity = .warning

/-- The diagnostic of a report about a file. -/
def ofReport (file : Text) (r : Report) : Diagnostic :=
  { stage := r.fault.stage, file := file, pos := r.pos, message := r.fault.message }

end Diagnostic

/-- The diagnostics of one run, and what its listener has heard. -/
structure Log where
  entries : List Diagnostic := []
  listening : Bool := false
  heard : Text := []
  deriving Repr, Inhabited

namespace Log

/-- Add a diagnostic at the end. -/
def report (l : Log) (d : Diagnostic) : Log :=
  { l with
    entries := l.entries ++ [d]
    heard := if l.listening then l.heard ++ d.render ++ [Byte.newline] else l.heard }

/-- Report everything that another log holds. -/
def absorb (l other : Log) : Log := other.entries.foldl report l

/-- Forget the diagnostics; the listener stays, with what it has heard. -/
def clear (l : Log) : Log := { l with entries := [] }

/-- From now on every diagnostic is heard. -/
def listen (l : Log) : Log := { l with listening := true }

def errorCount (l : Log) : Nat := l.entries.countP Diagnostic.isError

def warningCount (l : Log) : Nat := l.entries.countP Diagnostic.isWarning

def hasErrors (l : Log) : Bool := l.entries.any Diagnostic.isError

/-- The earliest error. -/
def firstError? (l : Log) : Option Diagnostic := l.entries.find? Diagnostic.isError

/-- The summary of the earliest error; without one, that of an empty error at the start. -/
def summary (l : Log) : Text := (l.firstError?.getD {}).summary

end Log

end ReactiveScript
