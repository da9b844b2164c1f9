import ReactiveScript.Script.Emit

/-!
# Whole scripts

A script starts with the import of the runtime if, and only if, something in it uses the runtime.

A `Session` writes several scripts one after the other, statement by statement into one buffer, and
collects the faults of all of them. What the last script leaves behind is cleared away before the
next one is written.
-/

namespace ReactiveScript.Script

/-! ## 1. One script -/

/-- The line that imports the runtime. -/
def importLine (o : Options) : Text :=
  txt "import " ++ o.identifier ++ txt " from " ++ Escape.quote o.library ++ txt ";\n"

/-- The script of a program. -/
def ofProgram (o : Options) (p : Program) : Code :=
  let body := stmts o 0 none p.body
  if body.usesRuntime then .plain (importLine o) ++ body else body

@[simp] theorem faults_ofProgram (o : Options) (p : Program) :
    (ofProgram o p).faults = (stmts o 0 none p.body).faults := by
  simp only [ofProgram]
  split <;> rfl

/-- The script of a single expression, without an import. -/
def ofExpr (o : Options) (e : Expr) : Code := atLevel Level.lowest e (emit o 0 e)

/-! ## 2. Several scripts -/

/-- Something to write. -/
inductive Job where
  | program (p : Program)
  | expression (e : Expr)

/-- A writer in use. -/
structure Session where
  options : Options := {}
  /-- The faults of all scripts so far. -/
  faults : List Report := []
  /-- The script at hand: what is written of it, and what was found. -/
  out : Code := {}
  /-- The indentation of the next line. -/
  indent : Nat := 0

namespace Session

/-- Does the script at hand, or else the last one, use the runtime? -/
def usesRuntime (s : Session) : Bool := s.out.usesRuntime

/-- Before a script. -/
def cleared (s : Session) : Session := { s with out := {}, indent := 0 }

/-- One more piece of the script. -/
def put (s : Session) (c : Code) : Session :=
  { s with faults := s.faults ++ c.faults, out := s.out ++ c }

/-- The statements of a script, one by one. -/
def putAll (s : Session) (body : List Stmt) : Session :=
  body.foldl (fun s' b => s'.put (stmt s'.options s'.indent none b)) s

/-- Write one more script. The text of a script without an import is moved out of the buffer, in
    front of which an import is put otherwise. -/
def write (s : Session) : Job → Code × Session
  | .program p =>
    let s' := s.cleared.putAll p.body
    if s'.usesRuntime then (.plain (importLine s'.options) ++ s'.out, s')
    else (s'.out, { s' with out := s'.out.findings })
  | .expression e =>
    let s' := s.cleared
    let c := atLevel Level.lowest e (emit s'.options s'.indent e)
    (c, s'.put c.findings)

end Session

end ReactiveScript.Script
