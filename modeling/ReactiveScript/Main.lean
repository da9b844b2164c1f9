import ReactiveScript.CommandLine

/-!
# The command

The outer layer: it reads and writes files, and prints. What to do is settled in `CommandLine`.
-/

namespace ReactiveScript.CommandLine

/-- The name the command goes by. -/
def programName : Text := txt "oddoc"

/-- A path as the system takes it. -/
def pathOf (t : Text) : String := (String.fromUTF8? (ByteArray.mk t.toArray)).getD ""

/-- Print what a call leaves, and give its status. -/
def Outcome.emit (o : Outcome) : IO UInt32 := do
  (← IO.getStdout).write (ByteArray.mk o.stdout.toArray)
  (← IO.getStderr).write (ByteArray.mk o.stderr.toArray)
  return o.exit.toUInt32

/-- The files of the system. -/
def systemFiles : Files IO IO.FS.Handle where
  openIn? path := do
    try return some (← IO.FS.Handle.mk (pathOf path) .read)
    catch _ => return none
  read file := do
    try return (← file.readBinToEnd).toList
    catch _ => return []
  openOut? path := do
    try return some (← IO.FS.Handle.mk (pathOf path) .write)
    catch _ => return none
  write file text := do
    try file.write (ByteArray.mk text.toArray)
    catch _ => return ()

/-- Call the command with arguments. A source whose reading does not end is given up: nothing is
    printed, and the status is 1. -/
def execute (args : List Text) : IO UInt32 := do
  match ← call systemFiles programName args with
  | some o => o.emit
  | none => return 1

end ReactiveScript.CommandLine

/-- Run the command. -/
def main (args : List String) : IO UInt32 :=
  ReactiveScript.CommandLine.execute (args.map ReactiveScript.txt)
