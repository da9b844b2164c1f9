import ReactiveScript.Compile
import ReactiveScript.Diagnostic
import ReactiveScript.Directory
import ReactiveScript.Syntax.Outline

/-!
# The command line

`Order.ofArgs` reads the arguments, from the first to the last, and stops at the first that settles
the matter. An order to work names one source, and `Work.perform` does the work on its text: list
the tokens, show the tree, or write the script. `call` does all of it with the files of a system, and
`run` with those of a directory. Work on a source whose reading does not end does not end either, and
has no result.
-/

namespace ReactiveScript.CommandLine

/-! ## 1. Messages -/

/-- What can be wrong with a call. -/
inductive Complaint where
  | missingValue (option : Text)
  | unknownOption (arg : Text)
  | noInput
  | cannotOpen (path : Text)
  | cannotWrite (path : Text)
  deriving DecidableEq, Repr

/-- The line that tells what is wrong. -/
def Complaint.message : Complaint → Text
  | .missingValue option => txt "error: " ++ option ++ txt " requires an argument\n"
  | .unknownOption arg => txt "error: unknown option " ++ Text.quoted arg ++ txt "\n"
  | .noInput => txt "error: no input file\n"
  | .cannotOpen path => txt "error: cannot open file " ++ Text.quoted path ++ txt "\n"
  | .cannotWrite path => txt "error: cannot write file " ++ Text.quoted path ++ txt "\n"

/-- How the command is used. -/
def usage (program : Text) : Text :=
  txt "Usage: " ++ program ++ txt " [options] <source.oddo>\n" ++
  txt "\nOptions:\n" ++
  txt "  --help              Show this help message\n" ++
  txt "  --version           Show version information\n" ++
  txt "  --dump-tokens       Dump lexer tokens and exit\n" ++
  txt "  --dump-ast          Dump parsed AST and exit\n" ++
  txt "  --runtime <lib>     Module the reactive runtime is imported from\n" ++
  txt "  --runtime-id <id>   Local name of the runtime import\n" ++
  txt "  -o <file>           Write JavaScript to <file> instead of stdout\n"

/-- The version of the command. -/
def version : Text :=
  txt "oddoc 0.1.0\n" ++ txt "Oddo to JavaScript compiler implemented in C++\n"

/-! ## 2. Arguments -/

/-- What is wanted of a source. -/
structure Work where
  dumpTokens : Bool := false
  dumpTree : Bool := false
  /-- The file to write to; the output if it is empty. -/
  output : Text := []
  source : Text := []
  options : Script.Options := {}
  deriving DecidableEq, Repr, Inhabited

/-- What a call asks for. -/
inductive Order where
  /-- Show how the command is used, and end with a status. -/
  | usage (exit : Nat)
  | version
  | complain (c : Complaint)
  | work (w : Work)
  deriving DecidableEq, Repr

/-- An option that is followed by a value. -/
inductive Setting where
  | output | library | identifier
  deriving DecidableEq, Repr

namespace Setting

def all : List Setting := [.output, .library, .identifier]

def name : Setting → Text
  | .output => txt "-o"
  | .library => txt "--runtime"
  | .identifier => txt "--runtime-id"

def ofName? (arg : Text) : Option Setting := all.find? (·.name = arg)

/-- The work with a setting changed. -/
def apply (s : Setting) (value : Text) (w : Work) : Work :=
  match s with
  | .output => { w with output := value }
  | .library => { w with options := { w.options with library := value } }
  | .identifier => { w with options := { w.options with identifier := value } }

end Setting

/-- Read the arguments that follow those already taken into account. -/
def Order.from (w : Work) : List Text → Order
  | [] => if w.source.isEmpty then .complain .noInput else .work w
  | arg :: rest =>
    if arg = txt "--help" then .usage 0
    else if arg = txt "--version" then .version
    else if arg = txt "--dump-tokens" then Order.from { w with dumpTokens := true } rest
    else if arg = txt "--dump-ast" then Order.from { w with dumpTree := true } rest
    else
      match Setting.ofName? arg, rest with
      | some s, value :: rest => Order.from (s.apply value w) rest
      | some _, [] => .complain (.missingValue arg)
      | none, rest =>
        if arg.head? = some Byte.minus then .complain (.unknownOption arg)
        else Order.from { w with source := arg } rest

/-- What the arguments ask for. -/
def Order.ofArgs (args : List Text) : Order :=
  if args.isEmpty then .usage 1 else Order.from {} args

/-! ## 3. Work -/

/-- How a call ends. -/
structure Outcome where
  exit : Nat := 0
  stdout : Text := []
  stderr : Text := []
  deriving DecidableEq, Repr, Inhabited

def Outcome.complaint (c : Complaint) : Outcome := { exit := 1, stderr := c.message }

/-- What was found wrong, a line each, and how much it is. -/
def Outcome.failure (file : Text) (rs : List Report) : Outcome :=
  { exit := 1
    stderr := rs.flatMap (fun r => (Diagnostic.ofReport file r).render ++ txt "\n") ++
      txt "compilation failed with " ++ Text.ofNat rs.length ++ txt " error(s)\n" }

/-- One line for a token: its place, its kind and its text. -/
def tokenLine (t : Token) : Text :=
  Text.padLeft 4 (Text.ofNat t.pos.line) ++ txt ":" ++
    Text.padRight 3 (Text.ofNat t.pos.column) ++ txt " " ++ Text.padRight 20 t.kind.name ++
    txt " " ++ Text.quoted t.text ++ txt "\n"

/-- The tokens of a source. -/
def listTokens (file source : Text) : Outcome :=
  let (tokens, reports) := tokenize source
  { exit := if reports.isEmpty then 0 else 1
    stdout := tokens.flatMap tokenLine
    stderr := reports.flatMap fun r => (Diagnostic.ofReport file r).render ++ txt "\n" }

/-- The tree of a source. -/
def showTree (file source : Text) : Option Outcome :=
  (readProgram source).map fun
    | .ok p => { stdout := Outline.ofProgram p }
    | .error rs => .failure file rs

/-- What comes of the work on a source: an end, or a script to write to a file. -/
inductive Result where
  | done (o : Outcome)
  | write (path script : Text)
  deriving DecidableEq, Repr

/-- Do the work on the text of the source; `none` if it does not end. -/
def Work.perform (w : Work) (text : Text) : Option Result :=
  if w.dumpTokens then some (.done (listTokens w.source text))
  else if w.dumpTree then (showTree w.source text).map .done
  else
    (compile w.options text).map fun
      | .error failure => .done (.failure w.source failure.reports)
      | .ok script =>
        if w.output.isEmpty then .done { stdout := script } else .write w.output script

/-! ## 4. A call -/

section
variable {m : Type → Type} [Monad m] {φ : Type} (fs : Files m φ)

/-- Finish the work. -/
def Result.finish : Result → m Outcome
  | .done o => return o
  | .write path script => do
    match ← fs.openOut? path with
    | none => return .complaint (.cannotWrite path)
    | some file =>
      fs.write file script
      return {}

/-- Do the work that a call asks for. -/
def Work.execute (w : Work) : m (Option Outcome) := do
  match ← fs.openIn? w.source with
  | none => return some (.complaint (.cannotOpen w.source))
  | some file =>
    match w.perform (← fs.read file) with
    | none => return none
    | some r => return some (← r.finish fs)

/-- Call the command, under the name it goes by, with arguments; `none` if the call does not
    end. -/
def call (program : Text) (args : List Text) : m (Option Outcome) :=
  match Order.ofArgs args with
  | .usage exit => return some { exit := exit, stdout := usage program }
  | .version => return some { stdout := version }
  | .complain c => return some (.complaint c)
  | .work w => w.execute fs

end

/-- Call the command in a directory. -/
def run (program : Text) (args : List Text) (d : Directory) : Option (Outcome × Directory) :=
  let (o, d) := (call Directory.system program args).run d
  o.map (·, d)

end ReactiveScript.CommandLine
